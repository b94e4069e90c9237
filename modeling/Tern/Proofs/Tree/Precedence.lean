import Tern.Proofs.Tree.Alike
import Tern.Proofs.Tree.Reading

/-!
# Parentheses and precedence

A tree of operators can be spelled with the fewest parentheses, or with more of them around any
of its operations.  Whatever their choice, reading gives the tree back: shifts bind weakest, then
`+` and `-`, then `*`, `/` and `%`, all of them group to the left, and unary operators bind
tighter than any of these.
-/

namespace Tern

/-! ## Spelling a tree -/

def BinaryOp.symbol : BinaryOp → Symbol
  | .add => .plus
  | .sub => .minus
  | .mul => .star
  | .div => .slash
  | .mod => .percent
  | .shl => .shl
  | .shr => .shr

theorem BinaryOp.binaryOp?_symbol (op : BinaryOp) : op.symbol.binaryOp? = some op := by
  cases op <;> rfl

/-- The operators by how tightly they bind, the loosest ones first. -/
def BinaryOp.levels : List (List BinaryOp) := [[.shl, .shr], [.add, .sub], [.mul, .div, .mod]]

def BinaryOp.level (op : BinaryOp) : Nat := levels.findIdx (·.contains op)

theorem BinaryOp.precedence_eq_level (op : BinaryOp) : op.precedence = op.level := by
  cases op <;> decide

theorem BinaryOp.level_lt (op : BinaryOp) : op.level < 3 := by
  cases op <;> decide

theorem BinaryOp.precedence_lt (op : BinaryOp) : op.precedence < 3 := by
  cases op <;> decide

def Expr.isCast : Expr → Bool
  | .cast .. => true
  | _ => false

/-- How tightly an expression holds together that has no parentheses around it. -/
def Expr.level : Expr → Nat
  | .binary op .. => op.level
  | .cast .. => 0
  | _ => 3

/-- Whether an expression has parentheses around it where only what holds together as tightly as
`k` can do without.  A cast always has them, and other operations where `extra` asks for them. -/
def Expr.isEnclosed (extra : Expr → Bool) (k : Nat) (e : Expr) : Bool :=
  e.isOperation && (e.isCast || extra e || decide (e.level < k))

def enclosedIf (b : Bool) (ls : List Lexeme) : List Lexeme :=
  if b then .symbol .lparen :: (ls ++ [.symbol .rparen]) else ls

mutual

/-- The lexemes of an expression without parentheses around it. -/
def Expr.bare (extra : Expr → Bool) : Expr → List Lexeme
  | .integer _ digits isLong => [.integer digits (if isLong then some 'l' else none)]
  | .char _ value => [.char value]
  | .name id => [.identifier id.name]
  | .call id as => .identifier id.name :: .symbol .lparen :: as.spelling extra
  | .element place => .identifier place.root.name :: place.indexes extra
  | .reference _ operand =>
      .symbol .amp :: enclosedIf (operand.isEnclosed extra 3) (operand.bare extra)
  | .negate _ operand =>
      .symbol .minus :: enclosedIf (operand.isEnclosed extra 3) (operand.bare extra)
  | .cast operand _ type =>
      enclosedIf (operand.isEnclosed extra 3) (operand.bare extra) ++
        .keyword .asWord :: type.spelling extra
  | .binary op _ lhs rhs =>
      enclosedIf (lhs.isEnclosed extra op.level) (lhs.bare extra) ++
        .symbol op.symbol ::
          enclosedIf (rhs.isEnclosed extra (op.level + 1)) (rhs.bare extra)
  | .missing _ | .assign .. | .paren .. => []

def Place.indexes (extra : Expr → Bool) : Place → List Lexeme
  | .var _ => []
  | .element array _ index _ =>
      array.indexes extra ++ .symbol .lbracket ::
        (enclosedIf (index.isEnclosed extra 0) (index.bare extra) ++ [.symbol .rbracket])

def Args.spelling (extra : Expr → Bool) : Args → List Lexeme
  | .close _ => [.symbol .rparen]
  | .cons arg (.close _) =>
      enclosedIf (arg.isEnclosed extra 0) (arg.bare extra) ++ [.symbol .rparen]
  | .cons arg rest =>
      enclosedIf (arg.isEnclosed extra 0) (arg.bare extra) ++ .symbol .comma :: rest.spelling extra

def TypeExpr.spelling (extra : Expr → Bool) : TypeExpr → List Lexeme
  | .named id => [.identifier id.name]
  | .pointer base => base.spelling extra ++ [.symbol .star]
  | .array base _ count _ =>
      base.spelling extra ++ .symbol .lbracket ::
        (enclosedIf (count.isEnclosed extra 0) (count.bare extra) ++ [.symbol .rbracket])
  | .missing _ | .stopped .. => []

end

/-- The lexemes of an expression where only what holds together as tightly as `k` can do without
parentheses. -/
def Expr.spelling (extra : Expr → Bool) (k : Nat) (e : Expr) : List Lexeme :=
  enclosedIf (e.isEnclosed extra k) (e.bare extra)

/-- With the fewest parentheses. -/
def Expr.terse (e : Expr) : List Lexeme := e.spelling (fun _ => false) 0

/-- With parentheses around every operation. -/
def Expr.full (e : Expr) : List Lexeme := e.spelling (fun _ => true) 0

mutual

/-- A complete tree of literals, variables, elements, calls, operators and casts.  Its spelling
decides where parentheses go, so it has none of its own. -/
def Expr.IsTerm : Expr → Prop
  | .integer .. | .char .. | .name _ => True
  | .call _ as => as.IsTerm
  | .element (.var _) => False
  | .element place => place.IsTerm
  | .reference _ operand | .negate _ operand => operand.IsTerm
  | .cast operand _ type => operand.IsTerm ∧ type.IsTerm
  | .binary _ _ lhs rhs => lhs.IsTerm ∧ rhs.IsTerm
  | .missing _ | .assign .. | .paren .. => False

def Place.IsTerm : Place → Prop
  | .var _ => True
  | .element array _ index close => array.IsTerm ∧ index.IsTerm ∧ close = .ok ()

def Args.IsTerm : Args → Prop
  | .close close => close = .ok ()
  | .cons arg rest => arg.IsTerm ∧ rest.IsTerm

def TypeExpr.IsTerm : TypeExpr → Prop
  | .named _ => True
  | .pointer base => base.IsTerm
  | .array base _ count close => base.IsTerm ∧ count.IsTerm ∧ close = .ok ()
  | .missing _ | .stopped .. => False

end

/-! ## What may follow -/

/-- An operand does not go on with such a token, as a call, an element or the target of an
assignment. -/
def Kind.endsOperand : Kind → Bool
  | .symbol .lparen | .symbol .lbracket | .symbol .assign => false
  | _ => true

/-- Such a token takes no operand away from an expression that holds together as tightly as
`k`. -/
structure Kind.Ends (k : Nat) (kind : Kind) : Prop where
  operand : kind.endsOperand = true
  cast : kind ≠ .keyword .asWord
  operator : ∀ op, kind.binaryOp? = some op → op.level ≤ k

namespace Kind.Ends

variable {k : Nat} {kind : Kind}

theorem mono {k' : Nat} (h : kind.Ends k) (hk : k ≤ k') : kind.Ends k' :=
  ⟨h.operand, h.cast, fun op hop => Nat.le_trans (h.operator op hop) hk⟩

theorem of_binaryOp? (hkind : kind.endsOperand = true) (hcast : kind ≠ .keyword .asWord)
    (hop : kind.binaryOp? = none) : kind.Ends k := by
  refine ⟨hkind, hcast, fun op h => ?_⟩
  rw [hop] at h
  cases h

theorem closer {x : Symbol} (hx : x = .rparen ∨ x = .rbracket ∨ x = .comma) :
    (Kind.symbol x).Ends k := by
  rcases hx with rfl | rfl | rfl <;> exact of_binaryOp? rfl (by simp) rfl

theorem no_suffix (h : kind.Ends 0) : kind ≠ .symbol .lbracket ∧ kind ≠ .symbol .star := by
  constructor
  · rintro rfl
    exact absurd h.operand (by decide)
  · rintro rfl
    exact absurd (h.operator .mul rfl) (by decide)

end Kind.Ends

/-! ## Reading operands and expressions -/

/-- Neither places nor parentheses make a difference. -/
structure Likeness.Loose (L : Likeness) : Prop where
  pos : ∀ p q : Position, p.Alike L q
  respelt : L.respelt = true

namespace Reader

section

variable (L : Likeness)

/-- The lexemes are read as an operand that says the same as `e`. -/
def ReadsOperand (e : Expr) (ls : List Lexeme) : Prop :=
  ∀ (fuel : Nat) {c : Cursor} {l : Lexeme} {ks : List Lexeme}, c.Spells id (ls ++ l :: ks) →
    l.kind.endsOperand = true → 4 * (ls ++ l :: ks).length + 1 < fuel →
    ∃ t d, operand fuel c = .done t d ∧ t.Alike L e ∧ d.Spells id (l :: ks)

/-- The lexemes, which hold together as tightly as `k`, are read as an expression that says the
same as `e`, or as the start of one that goes on with further operators. -/
def ReadsExpr (k : Nat) (e : Expr) (ls : List Lexeme) : Prop :=
  ∀ (fuel : Nat) {m : Nat} {c : Cursor} {l : Lexeme} {ks : List Lexeme},
    c.Spells id (ls ++ l :: ks) → m ≤ k → l.kind.Ends k → 4 * (ls ++ l :: ks).length + 2 < fuel →
    ∃ fuel' t d, expr fuel m c = operators fuel' m t d ∧ t.Alike L e ∧ d.Spells id (l :: ks) ∧
      4 * (l :: ks).length < fuel'

/-- The lexemes are read as a type that says the same as `t`, or as the start of one that goes on
with further suffixes. -/
def ReadsType (t : TypeExpr) (ls : List Lexeme) : Prop :=
  ∀ (fuel : Nat) {c : Cursor} {ks : List Lexeme}, c.Spells id (ls ++ ks) →
    4 * (ls ++ ks).length < fuel →
    ∃ fuel' t' d, type fuel c = suffixes fuel' t' d ∧ t'.Alike L t ∧ d.Spells id ks ∧
      4 * ks.length < fuel'

/-- The lexemes are read as the indexes of a place that says the same as `p`, and further indexes
may follow. -/
def ReadsIndexes (p : Place) (ls : List Lexeme) : Prop :=
  ∀ (fuel : Nat) (root : Ident) {c : Cursor} {ks : List Lexeme}, root.Alike L p.root →
    c.Spells id (ls ++ ks) → 4 * (ls ++ ks).length < fuel →
    ∃ fuel' p' d, elements fuel (.var root) c = elements fuel' p' d ∧ p'.Alike L p ∧
      d.Spells id ks ∧ 4 * ks.length < fuel'

/-- The lexemes are read as one or more arguments that say the same as `as`. -/
def ReadsArgs (as : Args) (ls : List Lexeme) : Prop :=
  ∀ (fuel : Nat) {c : Cursor} {ks : List Lexeme}, c.Spells id (ls ++ ks) →
    4 * (ls ++ ks).length + 3 < fuel →
    ∃ as' d, args fuel c = .done as' d ∧ as'.Alike L as ∧ d.Spells id ks

end

variable {L : Likeness} {e : Expr} {k : Nat} {ls : List Lexeme}

theorem ReadsOperand.expr (h : ReadsOperand L e ls) : ReadsExpr L k e ls :=
  TakesOperand.expr (P := (·.Alike L e)) (F := (·.endsOperand = true)) (G := Kind.Ends k) h
    fun _ hl => ⟨hl.operand, hl.cast⟩

theorem ReadsExpr.mono {k' : Nat} (h : ReadsExpr L k e ls) (hk : k' ≤ k) : ReadsExpr L k' e ls :=
  fun fuel _ _ _ _ hc hm hl hfuel => h fuel hc (Nat.le_trans hm hk) (hl.mono hk) hfuel

theorem ReadsExpr.done (h : ReadsExpr L k e ls) (fuel : Nat) {c : Cursor} {l : Lexeme}
    {ks : List Lexeme} (hc : c.Spells id (ls ++ l :: ks)) (hl : l.kind.Ends k)
    (hop : l.kind.binaryOp? = none) (hfuel : 4 * (ls ++ l :: ks).length + 2 < fuel) :
    ∃ t d, Reader.expr fuel 0 c = .done t d ∧ t.Alike L e ∧ d.Spells id (l :: ks) :=
  TakesExpr.closed (P := (·.Alike L e)) (F := Kind.Ends k) h fuel hc hl hop hfuel

theorem ReadsExpr.enclosed (h : ReadsExpr L k e ls) (hL : L.Loose)
    (he : e.isOperation = true) :
    ReadsOperand L e (.symbol .lparen :: (ls ++ [.symbol .rparen])) :=
  TakesExpr.enclosed (P := (·.Alike L e)) (F := Kind.Ends k) (G := (·.endsOperand = true)) h
    (.closer (.inl rfl)) fun ht => .enclosed hL.respelt (hL.pos _ _) he ht

/-- How a spelling of `e` without parentheses around it is read. -/
structure ReadsBare (L : Likeness) (extra : Expr → Bool) (e : Expr) :
    Prop where
  expr : ReadsExpr L e.level e (e.bare extra)
  operand : e.level = 3 → ReadsOperand L e (e.bare extra)

namespace ReadsBare

variable {extra : Expr → Bool}

theorem of_operand (h : ReadsOperand L e (e.bare extra)) : ReadsBare L extra e :=
  ⟨h.expr, fun _ => h⟩

theorem le_level (hk : k ≤ 3) (h : e.isEnclosed extra k = false) : k ≤ e.level := by
  cases e with
  | binary | cast =>
      simp only [Expr.isEnclosed, Expr.isOperation, Bool.true_and, Bool.or_eq_false_iff,
        decide_eq_false_iff_not, Nat.not_lt] at h
      exact h.2
  | missing | integer | char | name | call | element | assign | paren | reference | negate =>
      exact hk

theorem level_le : e.level ≤ 3 := by
  cases e with
  | binary op => exact Nat.le_of_lt op.level_lt
  | cast => exact Nat.zero_le 3
  | missing | integer | char | name | call | element | assign | paren | reference | negate =>
      exact Nat.le_refl 3

theorem isOperation (h : e.isEnclosed extra k = true) : e.isOperation = true := by
  rw [Expr.isEnclosed, Bool.and_eq_true] at h
  exact h.1

variable (hL : L.Loose)

include hL

theorem spelledOperand (h : ReadsBare L extra e) :
    ReadsOperand L e (enclosedIf (e.isEnclosed extra 3) (e.bare extra)) := by
  cases henclosed : e.isEnclosed extra 3 with
  | true => exact h.expr.enclosed hL (isOperation henclosed)
  | false => exact h.operand (Nat.le_antisymm level_le (le_level (Nat.le_refl 3) henclosed))

theorem spelled (h : ReadsBare L extra e) (hk : k ≤ 3) :
    ReadsExpr L k e (enclosedIf (e.isEnclosed extra k) (e.bare extra)) := by
  cases henclosed : e.isEnclosed extra k with
  | true => exact (h.expr.enclosed hL (isOperation henclosed)).expr
  | false => exact h.expr.mono (le_level hk henclosed)

theorem inner (h : ReadsBare L extra e) (fuel : Nat) {c : Cursor} {x : Symbol} {ks : List Lexeme}
    (hc : c.Spells id (enclosedIf (e.isEnclosed extra 0) (e.bare extra) ++ .symbol x :: ks))
    (hx : x = .rparen ∨ x = .rbracket ∨ x = .comma)
    (hfuel : 4 * (enclosedIf (e.isEnclosed extra 0) (e.bare extra) ++ .symbol x :: ks).length + 2 <
      fuel) :
    ∃ t d, Reader.expr fuel 0 c = .done t d ∧ t.Alike L e ∧ d.Spells id (.symbol x :: ks) := by
  refine (h.spelled hL (Nat.zero_le 3)).done fuel hc (.closer hx) ?_ hfuel
  rcases hx with rfl | rfl | rfl <;> rfl

/-- A binary operation keeps its operands: the left one may hold together as loosely as the
operator, the right one may not. -/
theorem binary {op : BinaryOp} {pos : Position} {l r : Expr} (hl : ReadsBare L extra l)
    (hr : ReadsBare L extra r) : ReadsBare L extra (.binary op pos l r) := by
  have hprec := op.precedence_lt
  refine ⟨?_, fun h => absurd h (Nat.ne_of_lt op.level_lt)⟩
  have hends : (Kind.symbol op.symbol).Ends op.precedence := by
    cases op <;> exact ⟨rfl, by simp, fun op' h => by cases h; exact Nat.le_refl _⟩
  rw [Expr.level, Expr.bare, ← op.precedence_eq_level]
  exact TakesExpr.binary (P := (·.Alike L l)) (Q := (·.Alike L r)) (F := Kind.Ends op.precedence)
    (G := Kind.Ends (op.precedence + 1)) (H := Kind.Ends op.precedence) op.binaryOp?_symbol
    (hl.spelled hL (Nat.le_of_lt hprec)) (hr.spelled hL hprec) hends
    (fun _ hx => hx.mono (Nat.le_succ _))
    (fun _ op' hx hop => op'.precedence_eq_level ▸ hx.operator op' hop)
    fun hl' hr' => .binary (hL.pos _ _) hl' hr'

theorem unary {x : Symbol} {make : Position → Expr → Expr} {pos : Position}
    (h : ReadsBare L extra e)
    (hread : ∀ fuel (c : Cursor), c.current.lexeme = .symbol x →
      Reader.operand (fuel + 1) c =
        c.step .missing fun rest => (Reader.operand fuel rest).map (make c.pos))
    (hmake : ∀ {p q t}, Expr.Alike L t e → (make p t).Alike L (make q e)) :
    ReadsOperand L (make pos e)
      (.symbol x :: enclosedIf (e.isEnclosed extra 3) (e.bare extra)) :=
  TakesOperand.unary (P := (·.Alike L e)) (F := (·.endsOperand = true)) make (h.spelledOperand hL)
    hread hmake

end ReadsBare

/-! ## Types, indexes and arguments -/

theorem suffixes_done {fuel : Nat} {t : TypeExpr} {c : Cursor} (hfuel : 0 < fuel)
    (hc : c.kind.Ends 0) : suffixes fuel t c = .done t c := by
  obtain ⟨hopen, hstar⟩ := hc.no_suffix
  exact suffixes_stay hfuel hopen hstar

variable {extra : Expr → Bool}

section

variable (hL : L.Loose)

include hL

theorem ReadsType.named {id : Ident} : ReadsType L (.named id) [.identifier id.name] :=
  TakesType.named (T := (·.Alike L (.named id))) fun _ => .named ⟨rfl, hL.pos _ _⟩

omit hL in
theorem ReadsType.pointer {t : TypeExpr} (h : ReadsType L t ls) :
    ReadsType L (.pointer t) (ls ++ [.symbol .star]) :=
  TakesType.pointer (T := (·.Alike L t)) (U := (·.Alike L (.pointer t))) h .pointer

theorem ReadsType.array {t : TypeExpr} {pos : Position} (h : ReadsType L t ls)
    (he : ReadsBare L extra e) :
    ReadsType L (.array t pos e (.ok ())) (ls ++ .symbol .lbracket ::
      (enclosedIf (e.isEnclosed extra 0) (e.bare extra) ++ [.symbol .rbracket])) :=
  TakesType.array (P := (·.Alike L e)) (T := (·.Alike L t))
    (U := (·.Alike L (.array t pos e (.ok ())))) (F := Kind.Ends 0) h
    (he.spelled hL (Nat.zero_le 3)) (.closer (.inr (.inl rfl)))
    fun ht he' => .array ht (hL.pos _ _) he' rfl

omit hL in
theorem ReadsIndexes.var {root : Ident} : ReadsIndexes L (.var root) [] :=
  fun fuel root' c _ hroot hc hfuel => ⟨fuel, .var root', c, rfl, .var hroot, hc, hfuel⟩

theorem ReadsIndexes.element {p : Place} {pos : Position} (h : ReadsIndexes L p ls)
    (he : ReadsBare L extra e) :
    ReadsIndexes L (.element p pos e (.ok ())) (ls ++ .symbol .lbracket ::
      (enclosedIf (e.isEnclosed extra 0) (e.bare extra) ++ [.symbol .rbracket])) := by
  intro fuel root c ks hroot hc hfuel
  simp only [List.append_assoc, List.cons_append, List.nil_append] at hc hfuel
  obtain ⟨fuel', p', d, hread, hp, hd, hfuel'⟩ := h fuel root hroot hc hfuel
  obtain ⟨fuel', rfl⟩ := Nat.exists_eq_add_one_of_ne_zero (Nat.ne_zero_of_lt hfuel')
  obtain ⟨-, inside, hinside, hstep⟩ := hd.next (by simp)
  obtain ⟨e', d', hread', he', hd'⟩ :=
    he.inner hL fuel' hinside (.inr (.inl rfl)) (by simp at hfuel' ⊢; omega)
  obtain ⟨d'', hd'', hpass⟩ := hd'.pass (by simp)
  refine ⟨fuel', .element p' d.pos e' (.ok ()), d'', ?_, .elementPlace hp (hL.pos _ _) he' rfl,
    hd'', by simp at hfuel'; omega⟩
  have hkind : d.kind = .symbol .lbracket := hd.head_kind
  rw [hread, elements, if_pos hkind]
  simp only [hstep, hread', Outcome.andThen]
  exact hpass _ _

theorem ReadsArgs.single (he : ReadsBare L extra e) :
    ReadsArgs L (.cons e (.close (.ok ())))
      (enclosedIf (e.isEnclosed extra 0) (e.bare extra) ++ [.symbol .rparen]) := by
  intro fuel c ks hc hfuel
  obtain ⟨fuel, rfl⟩ := Nat.exists_eq_add_one_of_ne_zero (Nat.ne_zero_of_lt hfuel)
  rw [List.append_assoc, List.singleton_append] at hc hfuel
  obtain ⟨e', d, hread, he', hd⟩ := he.inner hL fuel hc (.inl rfl) (by omega)
  obtain ⟨d', hd', hpass⟩ := hd.pass (by simp)
  refine ⟨.cons e' (.close (.ok ())), d', ?_, .cons he' (.close rfl), hd'⟩
  have hkind : d.kind ≠ .symbol .comma := by simp [hd.head_kind, Lexeme.kind]
  rw [args, hread]
  simp only [Outcome.andThen, if_neg hkind]
  exact hpass _ _

theorem ReadsArgs.cons {as : Args} (he : ReadsBare L extra e) (h : ReadsArgs L as ls) :
    ReadsArgs L (.cons e as)
      (enclosedIf (e.isEnclosed extra 0) (e.bare extra) ++ .symbol .comma :: ls) := by
  intro fuel c ks hc hfuel
  obtain ⟨fuel, rfl⟩ := Nat.exists_eq_add_one_of_ne_zero (Nat.ne_zero_of_lt hfuel)
  rw [List.append_assoc, List.cons_append] at hc hfuel
  obtain ⟨e', d, hread, he', hd⟩ := he.inner hL fuel hc (.inr (.inr rfl)) (by omega)
  obtain ⟨-, d', hd', hstep⟩ := hd.next (by simp)
  obtain ⟨as', d'', hread', has, hd''⟩ := h fuel hd' (by simp at hfuel ⊢; omega)
  refine ⟨.cons e' as', d'', ?_, .cons he' has, hd''⟩
  have hkind : d.kind = .symbol .comma := hd.head_kind
  rw [args, hread]
  simp only [Outcome.andThen, if_pos hkind, hstep, hread']
  rfl

/-! ## Trees -/

namespace ReadsBare

theorem cast {pos : Position} {t : TypeExpr} (h : ReadsBare L extra e)
    (ht : ReadsType L t (t.spelling extra)) : ReadsBare L extra (.cast e pos t) := by
  refine ⟨?_, fun h => absurd h (by simp [Expr.level])⟩
  rw [Expr.level, Expr.bare]
  exact TakesOperand.cast (P := (·.Alike L e)) (T := (·.Alike L t)) (F := (·.endsOperand = true))
    (G := Kind.Ends 0) (h.spelledOperand hL) ht rfl (fun _ hkind => hkind.no_suffix)
    fun he' ht' => .cast he' (hL.pos _ _) ht'

omit hL in
theorem literal {l : Lexeme} (make : Position → Expr) (hl : l ≠ .eof) (hbare : e.bare extra = [l])
    (hread : ∀ fuel (c : Cursor), c.current.lexeme = l →
      Reader.operand (fuel + 1) c = c.step .missing fun rest => .done (make c.pos) rest)
    (hmake : ∀ p, (make p).Alike L e) : ReadsBare L extra e := by
  refine of_operand ?_
  rw [hbare]
  exact TakesOperand.literal (P := (·.Alike L e)) (F := (·.endsOperand = true)) make hl hread hmake

theorem name {id : Ident} : ReadsBare L extra (.name id) := by
  refine of_operand fun fuel c l ks hc hl hfuel => ?_
  obtain ⟨fuel, rfl⟩ : ∃ n, fuel = n + 2 := ⟨fuel - 2, by omega⟩
  rw [Expr.bare, List.singleton_append] at hc
  obtain ⟨hlexeme, d, hd, hstep⟩ := hc.next (by simp)
  refine ⟨.name ⟨id.name, c.pos⟩, d, ?_, .name ⟨rfl, hL.pos _ _⟩, hd⟩
  rw [Reader.operand, hlexeme]
  simp only [named, hstep, hd.head_kind]
  split
  · next hkind => simp [hkind, Kind.endsOperand] at hl
  · next hkind => simp [hkind, Kind.endsOperand] at hl
  · next hkind => simp [hkind, Kind.endsOperand] at hl
  · rfl

theorem element {p : Place} (h : ReadsIndexes L p (p.indexes extra))
    (hp : ∃ ls, p.indexes extra = .symbol .lbracket :: ls) :
    ReadsBare L extra (.element p) := by
  refine of_operand fun fuel c l ks hc hl hfuel => ?_
  obtain ⟨fuel, rfl⟩ : ∃ n, fuel = n + 2 := ⟨fuel - 2, by omega⟩
  rw [Expr.bare, List.cons_append] at hc hfuel
  obtain ⟨hlexeme, d, hd, hstep⟩ := hc.next (by simp)
  have hkind : d.kind = .symbol .lbracket := by
    obtain ⟨ls, hls⟩ := hp
    rw [hls] at hd
    exact hd.head_kind
  obtain ⟨fuel', p', d', hread, hp', hd', hfuel'⟩ :=
    h fuel ⟨p.root.name, c.pos⟩ ⟨rfl, hL.pos _ _⟩ hd (by simp at hfuel ⊢; omega)
  refine ⟨.element p', d', ?_, .element hp', hd'⟩
  obtain ⟨fuel', rfl⟩ := Nat.exists_eq_add_one_of_ne_zero (Nat.ne_zero_of_lt hfuel')
  have hindex : d'.kind ≠ .symbol .lbracket := by
    intro h
    rw [← hd'.head_kind, h] at hl
    cases hl
  have hassign : d'.kind ≠ .symbol .assign := by
    intro h
    rw [← hd'.head_kind, h] at hl
    cases hl
  rw [Reader.operand, hlexeme]
  simp only [named, hstep, hkind, hread, elements, if_neg hindex, Outcome.andThen, if_neg hassign]

theorem callEmpty {id : Ident} : ReadsBare L extra (.call id (.close (.ok ()))) := by
  refine of_operand fun fuel c l ks hc _ hfuel => ?_
  obtain ⟨fuel, rfl⟩ : ∃ n, fuel = n + 2 := ⟨fuel - 2, by omega⟩
  simp only [Expr.bare, Args.spelling, List.cons_append, List.nil_append] at hc
  obtain ⟨hlexeme, d, hd, hstep⟩ := hc.next (by simp)
  obtain ⟨-, d', hd', hstep'⟩ := hd.next (by simp)
  obtain ⟨-, d'', hd'', hstep''⟩ := hd'.next (by simp)
  refine ⟨.call ⟨id.name, c.pos⟩ (.close (.ok ())), d'', ?_,
    .call ⟨rfl, hL.pos _ _⟩ (.close rfl), hd''⟩
  have hkind : d.kind = .symbol .lparen := hd.head_kind
  have hkind' : d'.kind = .symbol .rparen := hd'.head_kind
  rw [Reader.operand, hlexeme]
  simp only [named, hstep, hkind, hstep', if_pos hkind', hstep'']

theorem call {id : Ident} {as : Args} (h : ReadsArgs L as (as.spelling extra)) :
    ReadsBare L extra (.call id as) := by
  refine of_operand fun fuel c l ks hc _ hfuel => ?_
  obtain ⟨fuel, rfl⟩ : ∃ n, fuel = n + 2 := ⟨fuel - 2, by omega⟩
  rw [Expr.bare, List.cons_append, List.cons_append] at hc hfuel
  obtain ⟨hlexeme, d, hd, hstep⟩ := hc.next (by simp)
  obtain ⟨-, d', hd', hstep'⟩ := hd.next (by simp)
  obtain ⟨as', d'', hread, has, hd''⟩ := h fuel hd' (by simp at hfuel ⊢; omega)
  refine ⟨.call ⟨id.name, c.pos⟩ as', d'', ?_, .call ⟨rfl, hL.pos _ _⟩ has, hd''⟩
  have hkind : d.kind = .symbol .lparen := hd.head_kind
  have hkind' : d'.kind ≠ .symbol .rparen := by
    intro hclose
    cases fuel with
    | zero => cases hread
    | succ fuel =>
        obtain ⟨t, why, hstopped⟩ := expr_stopped fuel 0 hclose (.inl rfl)
        rw [args, hstopped] at hread
        cases hread
  rw [Reader.operand, hlexeme]
  simp only [named, hstep, hkind, hstep', if_neg hkind', hread]
  rfl

end ReadsBare

end

end Reader

theorem Place.indexes_cons (extra : Expr → Bool) (array : Place) (pos : Position) (index : Expr)
    (close : Read Unit) :
    ∃ ls, (Place.element array pos index close).indexes extra = .symbol .lbracket :: ls := by
  rw [Place.indexes]
  cases array with
  | var => exact ⟨_, rfl⟩
  | element array' pos' index' close' =>
      obtain ⟨ls, h⟩ := Place.indexes_cons extra array' pos' index' close'
      rw [h]
      exact ⟨_, rfl⟩

open Reader

section

variable {L : Likeness} (hL : L.Loose)
  (extra : Expr → Bool)

include hL

-- The recursion is that of the spelling, which leaves each part in front of what follows it.
mutual

theorem Expr.reads : ∀ e : Expr, e.IsTerm → ReadsBare L extra e
  | .integer pos digits isLong, _ => by
      refine .literal (fun p => .integer p digits isLong) (by simp) rfl ?_
        fun p => .integer (hL.pos _ _)
      intro fuel c hlexeme
      rw [Reader.operand, hlexeme]
      cases isLong <;> rfl
  | .char pos value, _ => by
      refine .literal (fun p => .char p value) (by simp) rfl ?_ fun p => .char (hL.pos _ _)
      intro fuel c hlexeme
      rw [Reader.operand, hlexeme]
  | .name id, _ => .name hL
  | .call id (.close close), h => by
      rw [Expr.IsTerm, Args.IsTerm] at h
      subst h
      exact .callEmpty hL
  | .call id (.cons arg rest), h => by
      rw [Expr.IsTerm] at h
      exact .call hL (Args.reads _ h (by simp))
  | .element (.var id), h => by
      rw [Expr.IsTerm] at h
      exact h.elim
  | .element (.element array pos index close), h =>
      .element hL (Place.reads _ (by simpa [Expr.IsTerm] using h))
        (Place.indexes_cons extra array pos index close)
  | .reference pos operand, h => by
      rw [Expr.IsTerm] at h
      refine .of_operand ((Expr.reads operand h).unary hL ?_ fun ht => .reference (hL.pos _ _) ht)
      intro fuel c hlexeme
      rw [Reader.operand, hlexeme]
  | .negate pos operand, h => by
      rw [Expr.IsTerm] at h
      refine .of_operand ((Expr.reads operand h).unary hL ?_ fun ht => .negate (hL.pos _ _) ht)
      intro fuel c hlexeme
      rw [Reader.operand, hlexeme]
  | .cast operand pos type, h => by
      rw [Expr.IsTerm] at h
      exact (Expr.reads operand h.1).cast hL (TypeExpr.reads type h.2)
  | .binary op pos lhs rhs, h => by
      rw [Expr.IsTerm] at h
      exact (Expr.reads lhs h.1).binary hL (Expr.reads rhs h.2)
  | .missing _, h | .assign .., h | .paren .., h => by
      rw [Expr.IsTerm] at h
      exact h.elim

theorem Place.reads : ∀ p : Place, p.IsTerm → ReadsIndexes L p (p.indexes extra)
  | .var id, _ => by
      rw [Place.indexes]
      exact .var
  | .element array pos index close, h => by
      rw [Place.IsTerm] at h
      obtain ⟨harray, hindex, rfl⟩ := h
      rw [Place.indexes]
      exact (Place.reads array harray).element hL (Expr.reads index hindex)

theorem Args.reads : ∀ as : Args, as.IsTerm → as ≠ .close (.ok ()) →
    ReadsArgs L as (as.spelling extra)
  | .close close, h, hne => by
      rw [Args.IsTerm] at h
      exact absurd (congrArg Args.close h) hne
  | .cons arg (.close close), h, _ => by
      rw [Args.IsTerm, Args.IsTerm] at h
      obtain ⟨harg, rfl⟩ := h
      rw [Args.spelling]
      exact .single hL (Expr.reads arg harg)
  | .cons arg (.cons arg' rest), h, _ => by
      rw [Args.IsTerm] at h
      rw [Args.spelling]
      · exact .cons hL (Expr.reads arg h.1) (Args.reads (.cons arg' rest) h.2 (by simp))
      · simp

theorem TypeExpr.reads : ∀ t : TypeExpr, t.IsTerm → ReadsType L t (t.spelling extra)
  | .named id, _ => by
      rw [TypeExpr.spelling]
      exact .named hL
  | .pointer base, h => by
      rw [TypeExpr.IsTerm] at h
      rw [TypeExpr.spelling]
      exact (TypeExpr.reads base h).pointer
  | .array base pos count close, h => by
      rw [TypeExpr.IsTerm] at h
      obtain ⟨hbase, hcount, rfl⟩ := h
      rw [TypeExpr.spelling]
      exact (TypeExpr.reads base hbase).array hL (Expr.reads count hcount)
  | .missing _, h | .stopped .., h => by
      rw [TypeExpr.IsTerm] at h
      exact h.elim

end

end

end Tern
