import Tern.Failure

/-!
# Syntax trees

The tree of a program as far as it could be read.  Where reading stopped, the tree holds the
reason in place of what is missing, so that whoever walks it in reading order meets the
first error of the text at the right moment.
-/

namespace Tern

/-- Something that should stand in the text, or why it does not. -/
abbrev Read (α : Type) := Except CompileError α

structure Ident where
  name : String
  pos : Position
  deriving DecidableEq

mutual

inductive Expr where
  | missing (why : CompileError)
  | integer (pos : Position) (digits : String) (isLong : Bool)
  | char (pos : Position) (value : Char)
  | name (id : Ident)
  | call (id : Ident) (args : Args)
  | element (place : Place)
  | assign (target : Place) (pos : Position) (value : Expr)
  | paren (pos : Position) (inner : Expr) (close : Read Unit)
  | reference (pos : Position) (operand : Expr)
  | negate (pos : Position) (operand : Expr)
  | cast (operand : Expr) (pos : Position) (type : TypeExpr)
  | binary (op : BinaryOp) (pos : Position) (lhs rhs : Expr)

/-- A variable, or an element of what a place holds. -/
inductive Place where
  | var (id : Ident)
  | element (array : Place) (pos : Position) (index : Expr) (close : Read Unit)

/-- The arguments of a call, up to its closing parenthesis. -/
inductive Args where
  | close (close : Read Unit)
  | cons (arg : Expr) (rest : Args)

inductive TypeExpr where
  | missing (why : CompileError)
  | named (id : Ident)
  | pointer (base : TypeExpr)
  | array (base : TypeExpr) (pos : Position) (count : Expr) (close : Read Unit)
  /-- Reading stopped behind `base`. -/
  | stopped (base : TypeExpr) (why : CompileError)

end

def Place.root : Place → Ident
  | .var id => id
  | .element array .. => array.root

/-- Where the first operand of an expression starts. -/
def Expr.start : Expr → Position
  | .missing why => why.pos
  | .integer pos .. | .char pos _ | .paren pos .. | .reference pos _ | .negate pos _ => pos
  | .name id | .call id _ => id.pos
  | .element place | .assign place .. => place.root.pos
  | .cast operand .. => operand.start
  | .binary _ _ lhs _ => lhs.start

structure Decl where
  exported : Option Position
  id : Read Ident
  colon : Read Unit
  type : TypeExpr

structure DeclList where
  opening : Read Unit
  decls : List Decl

structure Block where
  statements : List Expr
  close : Read Unit

structure Program where
  globals : Option DeclList
  opening : Read Unit
  locals : Option DeclList
  body : Block
  finish : Read Unit

end Tern
