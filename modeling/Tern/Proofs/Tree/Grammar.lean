import Mathlib
import Tern.Token.Basic

/-!
# The grammar

The context-free grammar of programs, over the kinds of tokens.  A phrase is taken off the front
of a sequence and leaves the rest of it, so that what may follow a phrase can be said: a type
takes every suffix that stands behind it.
-/

namespace Tern.Grammar

inductive Phrase where
  | program
  | declPart
  | decls
  | decl
  | type
  | suffixes
  | stmts
  | stmt
  | expr
  | cast
  | chain
  | unary
  | primary
  | args
  | argList
  | indexes
  deriving DecidableEq

open Kind (identifier integer char eof)

/-- `Derives p ks r`: the sequence `ks` starts with a phrase `p` in front of `r`. -/
inductive Derives : Phrase → List Kind → List Kind → Prop where
  /-- Programs: `['var' decls] 'begin' ['var' decls] {stmt} 'end' EOF`. -/
  | program {ks ks' ks'' : List Kind} :
      Derives .declPart ks (.keyword .beginWord :: ks') → Derives .declPart ks' ks'' →
      Derives .stmts ks'' [.keyword .endWord, eof] → Derives .program ks []
  | noDecls {r : List Kind} : Derives .declPart r r
  | declPart {ks r : List Kind} :
      Derives .decls ks r → Derives .declPart (.keyword .varWord :: ks) r
  | lastDecl {ks r : List Kind} : Derives .decl ks r → Derives .decls ks r
  | moreDecls {ks ks' r : List Kind} :
      Derives .decl ks (.symbol .comma :: ks') → Derives .decls ks' r → Derives .decls ks r
  /-- Declarations: `['export'] IDENT ':' type`. -/
  | decl {ks r : List Kind} :
      Derives .type ks r → Derives .decl (identifier :: .symbol .colon :: ks) r
  | exportedDecl {ks r : List Kind} : Derives .type ks r →
      Derives .decl (.keyword .exportWord :: identifier :: .symbol .colon :: ks) r
  /-- Types: `IDENT {'[' expr ']' | '*'}`, never in front of `[` or `*`. -/
  | type {ks r : List Kind} : Derives .suffixes ks r → Derives .type (identifier :: ks) r
  | noSuffix {r : List Kind} (hbracket : r.head? ≠ some (.symbol .lbracket))
      (hstar : r.head? ≠ some (.symbol .star)) : Derives .suffixes r r
  | pointer {ks r : List Kind} :
      Derives .suffixes ks r → Derives .suffixes (.symbol .star :: ks) r
  | array {ks ks' r : List Kind} :
      Derives .expr ks (.symbol .rbracket :: ks') → Derives .suffixes ks' r →
      Derives .suffixes (.symbol .lbracket :: ks) r
  | noStmts {r : List Kind} : Derives .stmts r r
  | stmts {ks ks' r : List Kind} :
      Derives .stmt ks ks' → Derives .stmts ks' r → Derives .stmts ks r
  /-- Statements: `IDENT | IDENT ':=' expr | IDENT args | IDENT indexes ':=' expr`. -/
  | stmtName {r : List Kind} : Derives .stmt (identifier :: r) r
  | stmtAssign {ks r : List Kind} :
      Derives .expr ks r → Derives .stmt (identifier :: .symbol .assign :: ks) r
  | stmtCall {ks r : List Kind} : Derives .args ks r → Derives .stmt (identifier :: ks) r
  | stmtAssignElement {ks ks' r : List Kind} :
      Derives .indexes ks (.symbol .assign :: ks') → Derives .expr ks' r →
      Derives .stmt (identifier :: ks) r
  /-- Expressions: `unary ['as' type] {binop unary ['as' type]}`. -/
  | expr {ks ks' ks'' r : List Kind} :
      Derives .unary ks ks' → Derives .cast ks' ks'' → Derives .chain ks'' r →
      Derives .expr ks r
  | noCast {r : List Kind} : Derives .cast r r
  | cast {ks r : List Kind} : Derives .type ks r → Derives .cast (.keyword .asWord :: ks) r
  | noChain {r : List Kind} : Derives .chain r r
  | chain {k : Kind} {ks ks' ks'' r : List Kind} (hop : k.binaryOp?.isSome = true) :
      Derives .unary ks ks' → Derives .cast ks' ks'' → Derives .chain ks'' r →
      Derives .chain (k :: ks) r
  /-- Operands: `('&' | '-') unary | primary`. -/
  | unary {k : Kind} {ks r : List Kind} (hop : k.isUnary = true) :
      Derives .unary ks r → Derives .unary (k :: ks) r
  | primary {ks r : List Kind} : Derives .primary ks r → Derives .unary ks r
  /-- Primaries: `INTEGER | CHAR | '(' expr ')'`. -/
  | integer {r : List Kind} : Derives .primary (integer :: r) r
  | char {r : List Kind} : Derives .primary (char :: r) r
  | paren {ks r : List Kind} : Derives .expr ks (.symbol .rparen :: r) →
      Derives .primary (.symbol .lparen :: ks) r
  /-- Named primaries: `IDENT | IDENT ':=' expr | IDENT args | IDENT indexes [':=' expr]`. -/
  | name {r : List Kind} : Derives .primary (identifier :: r) r
  | assign {ks r : List Kind} :
      Derives .expr ks r → Derives .primary (identifier :: .symbol .assign :: ks) r
  | call {ks r : List Kind} : Derives .args ks r → Derives .primary (identifier :: ks) r
  | element {ks r : List Kind} : Derives .indexes ks r → Derives .primary (identifier :: ks) r
  | assignElement {ks ks' r : List Kind} :
      Derives .indexes ks (.symbol .assign :: ks') → Derives .expr ks' r →
      Derives .primary (identifier :: ks) r
  /-- Arguments: `'(' [expr {',' expr}] ')'`. -/
  | noArgs {r : List Kind} : Derives .args (.symbol .lparen :: .symbol .rparen :: r) r
  | args {ks r : List Kind} :
      Derives .argList ks r → Derives .args (.symbol .lparen :: ks) r
  | lastArg {ks r : List Kind} :
      Derives .expr ks (.symbol .rparen :: r) → Derives .argList ks r
  | moreArgs {ks ks' r : List Kind} :
      Derives .expr ks (.symbol .comma :: ks') → Derives .argList ks' r → Derives .argList ks r
  /-- Indexes: `'[' expr ']' {'[' expr ']'}`. -/
  | lastIndex {ks r : List Kind} : Derives .expr ks (.symbol .rbracket :: r) →
      Derives .indexes (.symbol .lbracket :: ks) r
  | moreIndexes {ks ks' r : List Kind} :
      Derives .expr ks (.symbol .rbracket :: ks') → Derives .indexes ks' r →
      Derives .indexes (.symbol .lbracket :: ks) r

def IsProgram (ks : List Kind) : Prop := Derives .program ks []

def Phrase.isOptional : Phrase → Bool
  | declPart | suffixes | stmts | cast | chain => true
  | _ => false

namespace Derives

variable {p : Phrase} {ks ks' r : List Kind}

theorem length_add_le (h : Derives p ks r) :
    r.length + (if p.isOptional then 0 else 1) ≤ ks.length := by
  induction h <;> simp_all [Phrase.isOptional] <;> omega

theorem length_le (h : Derives p ks r) : r.length ≤ ks.length := by
  have hle := h.length_add_le
  omega

theorem length_lt (h : Derives p ks r) (hp : p.isOptional = false) :
    r.length < ks.length := by
  have hle := h.length_add_le
  rw [hp] at hle
  exact hle

theorem append (h : Derives p ks r) (hp : p ≠ .program) (ts : List Kind)
    (hbracket : ts.head? ≠ some (.symbol .lbracket)) (hstar : ts.head? ≠ some (.symbol .star)) :
    Derives p (ks ++ ts) (r ++ ts) := by
  induction h with
  | program => exact absurd rfl hp
  | @noSuffix r hbracket' hstar' =>
      cases r with
      | nil => exact .noSuffix hbracket hstar
      | cons k r => exact .noSuffix hbracket' hstar'
  | noDecls => exact .noDecls
  | declPart _ ih => exact .declPart (ih nofun)
  | lastDecl _ ih => exact .lastDecl (ih nofun)
  | moreDecls _ _ ih ih' => exact .moreDecls (ih nofun) (ih' nofun)
  | decl _ ih => exact .decl (ih nofun)
  | exportedDecl _ ih => exact .exportedDecl (ih nofun)
  | type _ ih => exact .type (ih nofun)
  | pointer _ ih => exact .pointer (ih nofun)
  | array _ _ ih ih' => exact .array (ih nofun) (ih' nofun)
  | noStmts => exact .noStmts
  | stmts _ _ ih ih' => exact .stmts (ih nofun) (ih' nofun)
  | stmtName => exact .stmtName
  | stmtAssign _ ih => exact .stmtAssign (ih nofun)
  | stmtCall _ ih => exact .stmtCall (ih nofun)
  | stmtAssignElement _ _ ih ih' => exact .stmtAssignElement (ih nofun) (ih' nofun)
  | expr _ _ _ ih ih' ih'' => exact .expr (ih nofun) (ih' nofun) (ih'' nofun)
  | noCast => exact .noCast
  | cast _ ih => exact .cast (ih nofun)
  | noChain => exact .noChain
  | chain hop _ _ _ ih ih' ih'' => exact .chain hop (ih nofun) (ih' nofun) (ih'' nofun)
  | unary hop _ ih => exact .unary hop (ih nofun)
  | primary _ ih => exact .primary (ih nofun)
  | integer => exact .integer
  | char => exact .char
  | paren _ ih => exact .paren (ih nofun)
  | name => exact .name
  | assign _ ih => exact .assign (ih nofun)
  | call _ ih => exact .call (ih nofun)
  | element _ ih => exact .element (ih nofun)
  | assignElement _ _ ih ih' => exact .assignElement (ih nofun) (ih' nofun)
  | noArgs => exact .noArgs
  | args _ ih => exact .args (ih nofun)
  | lastArg _ ih => exact .lastArg (ih nofun)
  | moreArgs _ _ ih ih' => exact .moreArgs (ih nofun) (ih' nofun)
  | lastIndex _ ih => exact .lastIndex (ih nofun)
  | moreIndexes _ _ ih ih' => exact .moreIndexes (ih nofun) (ih' nofun)

theorem chain_trans (h : Derives .chain ks ks') (h' : Derives .chain ks' r) :
    Derives .chain ks r := by
  generalize hp : Phrase.chain = p at h
  induction h with
  | noChain => exact h'
  | chain hop hunary hcast _ _ _ ih => exact .chain hop hunary hcast (ih h' rfl)
  | _ => cases hp

theorem primary_of_stmt (h : Derives .stmt ks r) : Derives .primary ks r := by
  cases h with
  | stmtName => exact .name
  | stmtAssign h => exact .assign h
  | stmtCall h => exact .call h
  | stmtAssignElement h h' => exact .assignElement h h'

end Derives

end Tern.Grammar
