import Mathlib
import Tern.Tree.Basic

/-!
# Trees that say the same

The same words can stand at other places of a text and be kept together by other parentheses.
What may differ is left open.  Which errors count as the same also decides which places do, since
an error is a problem at a place.
-/

namespace Tern

/-- What may differ between texts that say the same. -/
structure Likeness where
  /-- The errors that count as the same. -/
  error : CompileError → CompileError → Prop
  /-- Whether parentheses around an operation may be left out. -/
  respelt : Bool := false

/-- Any problem at the first place is the same error as at the second. -/
def Position.Alike (L : Likeness) (p q : Position) : Prop :=
  ∀ problem, L.error ⟨problem, p⟩ ⟨problem, q⟩

section

variable (L : Likeness)

structure Ident.Alike (id id' : Ident) : Prop where
  name : id'.name = id.name
  pos : id.pos.Alike L id'.pos

/-- Both are there and `R` relates them, or both are missing for the same reason. -/
def Read.Alike {α : Type} (R : α → α → Prop) : Read α → Read α → Prop
  | .ok x, .ok x' => R x x'
  | .error why, .error why' => L.error why why'
  | _, _ => False

end

/-- An operator or a cast together with its operands.  It always has a value. -/
def Expr.isOperation : Expr → Bool
  | .reference .. | .negate .. | .cast .. | .binary .. => true
  | _ => false

/-- The trees that expressions are made of. -/
inductive Tree where
  | expr (e : Expr)
  | place (p : Place)
  | args (as : Args)
  | type (t : TypeExpr)

/-- The trees say the same.  Where spellings may differ, the first may have parentheses around an
operation that the second does not have.  Trees that say the same as a third do so as each
other. -/
inductive Tree.Alike (L : Likeness) : Tree → Tree → Prop where
  | missing {why why' : CompileError} (h : L.error why why') :
      Alike L (.expr (.missing why)) (.expr (.missing why'))
  | integer {pos pos' : Position} {digits : String} {isLong : Bool} (hpos : pos.Alike L pos') :
      Alike L (.expr (.integer pos digits isLong)) (.expr (.integer pos' digits isLong))
  | char {pos pos' : Position} {value : Char} (hpos : pos.Alike L pos') :
      Alike L (.expr (.char pos value)) (.expr (.char pos' value))
  | name {id id' : Ident} (hid : id.Alike L id') : Alike L (.expr (.name id)) (.expr (.name id'))
  | call {id id' : Ident} {as as' : Args} (hid : id.Alike L id')
      (h : Alike L (.args as) (.args as')) :
      Alike L (.expr (.call id as)) (.expr (.call id' as'))
  | element {p p' : Place} (h : Alike L (.place p) (.place p')) :
      Alike L (.expr (.element p)) (.expr (.element p'))
  | assign {p p' : Place} {pos pos' : Position} {e e' : Expr} (hp : Alike L (.place p) (.place p'))
      (hpos : pos.Alike L pos') (he : Alike L (.expr e) (.expr e')) :
      Alike L (.expr (.assign p pos e)) (.expr (.assign p' pos' e'))
  | paren {pos pos' : Position} {e e' : Expr} {close close' : Read Unit} (hpos : pos.Alike L pos')
      (he : Alike L (.expr e) (.expr e')) (hclose : close.Alike L Eq close') :
      Alike L (.expr (.paren pos e close)) (.expr (.paren pos' e' close'))
  | reference {pos pos' : Position} {e e' : Expr} (hpos : pos.Alike L pos')
      (he : Alike L (.expr e) (.expr e')) :
      Alike L (.expr (.reference pos e)) (.expr (.reference pos' e'))
  | negate {pos pos' : Position} {e e' : Expr} (hpos : pos.Alike L pos')
      (he : Alike L (.expr e) (.expr e')) :
      Alike L (.expr (.negate pos e)) (.expr (.negate pos' e'))
  | cast {pos pos' : Position} {e e' : Expr} {t t' : TypeExpr} (he : Alike L (.expr e) (.expr e'))
      (hpos : pos.Alike L pos') (ht : Alike L (.type t) (.type t')) :
      Alike L (.expr (.cast e pos t)) (.expr (.cast e' pos' t'))
  | binary {op : BinaryOp} {pos pos' : Position} {l l' r r' : Expr} (hpos : pos.Alike L pos')
      (hl : Alike L (.expr l) (.expr l')) (hr : Alike L (.expr r) (.expr r')) :
      Alike L (.expr (.binary op pos l r)) (.expr (.binary op pos' l' r'))
  | enclosed {pos : Position} {e e' : Expr} (hL : L.respelt = true) (hpos : pos.Alike L e'.start)
      (hoperation : e'.isOperation = true) (he : Alike L (.expr e) (.expr e')) :
      Alike L (.expr (.paren pos e (.ok ()))) (.expr e')
  | var {id id' : Ident} (hid : id.Alike L id') : Alike L (.place (.var id)) (.place (.var id'))
  | elementPlace {p p' : Place} {pos pos' : Position} {e e' : Expr} {close close' : Read Unit}
      (hp : Alike L (.place p) (.place p')) (hpos : pos.Alike L pos')
      (he : Alike L (.expr e) (.expr e')) (hclose : close.Alike L Eq close') :
      Alike L (.place (.element p pos e close)) (.place (.element p' pos' e' close'))
  | close {close close' : Read Unit} (hclose : close.Alike L Eq close') :
      Alike L (.args (.close close)) (.args (.close close'))
  | cons {e e' : Expr} {as as' : Args} (he : Alike L (.expr e) (.expr e'))
      (h : Alike L (.args as) (.args as')) : Alike L (.args (.cons e as)) (.args (.cons e' as'))
  | missingType {why why' : CompileError} (h : L.error why why') :
      Alike L (.type (.missing why)) (.type (.missing why'))
  | named {id id' : Ident} (hid : id.Alike L id') : Alike L (.type (.named id)) (.type (.named id'))
  | pointer {t t' : TypeExpr} (h : Alike L (.type t) (.type t')) :
      Alike L (.type (.pointer t)) (.type (.pointer t'))
  | array {t t' : TypeExpr} {pos pos' : Position} {e e' : Expr} {close close' : Read Unit}
      (ht : Alike L (.type t) (.type t')) (hpos : pos.Alike L pos')
      (he : Alike L (.expr e) (.expr e')) (hclose : close.Alike L Eq close') :
      Alike L (.type (.array t pos e close)) (.type (.array t' pos' e' close'))
  | stopped {t t' : TypeExpr} {why why' : CompileError} (h : Alike L (.type t) (.type t'))
      (hwhy : L.error why why') : Alike L (.type (.stopped t why)) (.type (.stopped t' why'))
  | join {t t' t'' : Tree} (hL : ∀ {a b c}, L.error a c → L.error b c → L.error a b)
      (h : Alike L t t'') (h' : Alike L t' t'') : Alike L t t'

section

variable (L : Likeness)

abbrev Expr.Alike (e e' : Expr) : Prop := Tree.Alike L (.expr e) (.expr e')

abbrev Place.Alike (p p' : Place) : Prop := Tree.Alike L (.place p) (.place p')

abbrev Args.Alike (as as' : Args) : Prop := Tree.Alike L (.args as) (.args as')

abbrev TypeExpr.Alike (t t' : TypeExpr) : Prop := Tree.Alike L (.type t) (.type t')

structure Decl.Alike (d d' : Decl) : Prop where
  exported : Option.Rel (Position.Alike L) d.exported d'.exported
  id : d.id.Alike L (Ident.Alike L) d'.id
  colon : d.colon.Alike L Eq d'.colon
  type : d.type.Alike L d'.type

structure DeclList.Alike (l l' : DeclList) : Prop where
  opening : l.opening.Alike L Eq l'.opening
  decls : List.Forall₂ (Decl.Alike L) l.decls l'.decls

structure Block.Alike (b b' : Block) : Prop where
  statements : List.Forall₂ (Expr.Alike L) b.statements b'.statements
  close : b.close.Alike L Eq b'.close

structure Program.Alike (p p' : Program) : Prop where
  globals : Option.Rel (DeclList.Alike L) p.globals p'.globals
  opening : p.opening.Alike L Eq p'.opening
  locals : Option.Rel (DeclList.Alike L) p.locals p'.locals
  body : p.body.Alike L p'.body
  finish : p.finish.Alike L Eq p'.finish

end

variable {L : Likeness}

/-- What the trees start with stands at places that may be exchanged. -/
def Tree.StartsAlike (L : Likeness) : Tree → Tree → Prop
  | .expr e, .expr e' => e.start.Alike L e'.start
  | .place p, .place p' => p.root.pos.Alike L p'.root.pos
  | .args _, .args _ | .type _, .type _ => True
  | _, _ => False

theorem Tree.Alike.startsAlike (hL : ∀ {e e'}, L.error e e' → e.pos.Alike L e'.pos) {t t' : Tree}
    (h : Tree.Alike L t t') : Tree.StartsAlike L t t' := by
  induction h with
  | missing h => exact hL h
  | integer hpos | char hpos | paren hpos | reference hpos | negate hpos => exact hpos
  | name hid | call hid | var hid => exact hid.pos
  | element _ ih | assign _ _ _ ih | cast _ _ _ ih | binary _ _ _ ih => exact ih
  | elementPlace _ _ _ _ ih => exact ih
  | enclosed _ hpos => exact hpos
  | close | cons | missingType | named | pointer | array | stopped => trivial
  | @join t t' t'' hjoin _ _ ih ih' =>
      cases t <;> cases t'' <;> first | exact ih.elim | skip
      all_goals cases t' <;> first | exact ih'.elim | skip
      all_goals first | trivial | exact fun problem => hjoin (ih problem) (ih' problem)

end Tern
