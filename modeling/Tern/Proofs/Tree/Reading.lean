import Tern.Proofs.Tree.Completeness

/-!
# Reading phrase by phrase

How operands, expressions and types are read from what their parts are read as.  Of a part it is
known which property its tree has and which tokens may follow it; both are left open, so that the
same steps serve for trees that are compared with others and for trees that are evaluated.
-/

namespace Tern

namespace Cursor.Spells

variable {c : Cursor} {l : Lexeme} {ls : List Lexeme}

theorem next (h : c.Spells id (l :: ls)) (hl : l ≠ .eof) :
    c.current.lexeme = l ∧ ∃ d : Cursor, d.Spells id ls ∧
      ∀ {γ : Type} (cut : CompileError → γ) (next : Cursor → Outcome γ),
        c.step cut next = next d := by
  have hhead : c.current.lexeme = l := h.head_eq
  exact ⟨hhead, h.step (hhead ▸ hl)⟩

theorem head_kind (h : c.Spells id (l :: ls)) : c.kind = l.kind := by
  have hhead : c.current.lexeme = l := h.head_eq
  rw [Cursor.kind, Token.kind, hhead]

theorem pass (h : c.Spells id (l :: ls)) (hl : l ≠ .eof) :
    ∃ d : Cursor, d.Spells id ls ∧
      ∀ {γ : Type} (cut : CompileError → γ) (next : Cursor → Outcome γ),
        c.pass l.kind cut next = next d := by
  obtain ⟨-, d, hd, hstep⟩ := h.next hl
  refine ⟨d, hd, fun cut next => ?_⟩
  rw [Cursor.pass, Cursor.expect, if_pos h.head_kind, hstep]

end Cursor.Spells

namespace Reader

/-! ## Where phrases end -/

theorem castSuffix_done {fuel : Nat} {e : Expr} {c : Cursor} (hfuel : 0 < fuel)
    (hc : c.kind ≠ .keyword .asWord) : castSuffix fuel e c = .done e c := by
  obtain ⟨fuel, rfl⟩ := Nat.exists_eq_add_one_of_ne_zero (Nat.ne_of_gt hfuel)
  rw [castSuffix, if_neg hc]

theorem operators_done {fuel m : Nat} {e : Expr} {c : Cursor} (hfuel : 0 < fuel)
    (hc : ∀ op, c.kind.binaryOp? = some op → op.precedence < m) :
    operators fuel m e c = .done e c := by
  obtain ⟨fuel, rfl⟩ := Nat.exists_eq_add_one_of_ne_zero (Nat.ne_of_gt hfuel)
  rw [operators]
  split
  · rfl
  · next op hop => rw [if_pos (hc op hop)]

theorem expr_stopped (fuel m : Nat) {c : Cursor} {x : Symbol} (hc : c.kind = .symbol x)
    (hx : x = .rparen ∨ x = .rbracket) : ∃ t why, expr fuel m c = .stopped t why c := by
  have hoperand (fuel : Nat) : ∃ t why, operand fuel c = .stopped t why c := by
    cases fuel with
    | zero => exact ⟨_, _, rfl⟩
    | succ fuel =>
        rw [operand, Lexeme.eq_symbol hc]
        rcases hx with rfl | rfl <;> exact ⟨_, _, rfl⟩
  cases fuel with
  | zero => exact ⟨_, _, rfl⟩
  | succ fuel =>
      obtain ⟨t, why, h⟩ := hoperand fuel
      rw [expr, h]
      exact ⟨_, _, rfl⟩

theorem expr_done_kind {fuel m : Nat} {t : Expr} {c d : Cursor} {x : Symbol}
    (h : expr fuel m c = .done t d) (hx : x = .rparen ∨ x = .rbracket) : c.kind ≠ .symbol x := by
  intro hc
  obtain ⟨t', why, h'⟩ := expr_stopped fuel m hc hx
  rw [h] at h'
  cases h'

theorem suffixes_stay {fuel : Nat} {t : TypeExpr} {c : Cursor} (hfuel : 0 < fuel)
    (hopen : c.kind ≠ .symbol .lbracket) (hstar : c.kind ≠ .symbol .star) :
    suffixes fuel t c = .done t c := by
  obtain ⟨fuel, rfl⟩ := Nat.exists_eq_add_one_of_ne_zero (Nat.ne_of_gt hfuel)
  rw [suffixes]
  split
  · next hkind => exact absurd hkind hopen
  · next hkind => exact absurd hkind hstar
  · rfl

/-! ## Phrases -/

/-- In front of a token as in `F`, the lexemes are read as an operand whose tree is as in `P`. -/
def TakesOperand (P : Expr → Prop) (F : Kind → Prop) (ls : List Lexeme) : Prop :=
  ∀ (fuel : Nat) {c : Cursor} {l : Lexeme} {ks : List Lexeme}, c.Spells id (ls ++ l :: ks) →
    F l.kind → 4 * (ls ++ l :: ks).length + 1 < fuel →
    ∃ t d, operand fuel c = .done t d ∧ P t ∧ d.Spells id (l :: ks)

/-- In front of a token as in `F`, the lexemes, which hold together as tightly as `k`, are read as
an expression whose tree is as in `P`, or as the start of one that goes on with further
operators. -/
def TakesExpr (P : Expr → Prop) (F : Kind → Prop) (k : Nat) (ls : List Lexeme) : Prop :=
  ∀ (fuel : Nat) {m : Nat} {c : Cursor} {l : Lexeme} {ks : List Lexeme},
    c.Spells id (ls ++ l :: ks) → m ≤ k → F l.kind → 4 * (ls ++ l :: ks).length + 2 < fuel →
    ∃ fuel' t d, expr fuel m c = operators fuel' m t d ∧ P t ∧ d.Spells id (l :: ks) ∧
      4 * (l :: ks).length < fuel'

/-- The lexemes are read as a type whose tree is as in `T`, or as the start of one that goes on
with further suffixes. -/
def TakesType (T : TypeExpr → Prop) (ls : List Lexeme) : Prop :=
  ∀ (fuel : Nat) {c : Cursor} {ks : List Lexeme}, c.Spells id (ls ++ ks) →
    4 * (ls ++ ks).length < fuel →
    ∃ fuel' t d, type fuel c = suffixes fuel' t d ∧ T t ∧ d.Spells id ks ∧ 4 * ks.length < fuel'

variable {P Q R : Expr → Prop} {T U : TypeExpr → Prop} {F G H : Kind → Prop} {k : Nat}
  {ls rs : List Lexeme}

theorem TakesOperand.expr (h : TakesOperand P F ls)
    (hG : ∀ kind, G kind → F kind ∧ kind ≠ .keyword .asWord) : TakesExpr P G k ls := by
  intro fuel m c l ks hc hm hl hfuel
  obtain ⟨fuel, rfl⟩ := Nat.exists_eq_add_one_of_ne_zero (Nat.ne_zero_of_lt hfuel)
  obtain ⟨hF, has⟩ := hG _ hl
  obtain ⟨t, d, hread, ht, hd⟩ := h fuel hc hF (by omega)
  refine ⟨fuel, t, d, ?_, ht, hd, by simp at hfuel ⊢; omega⟩
  have hcast : d.kind ≠ .keyword .asWord := hd.head_kind ▸ has
  rw [Reader.expr, hread]
  simp only [Outcome.andThen, castSuffix_done (Nat.zero_lt_of_lt (show 1 < fuel by omega)) hcast]

theorem TakesExpr.mono {k' : Nat} (h : TakesExpr P F k ls) (hk : k' ≤ k)
    (hG : ∀ kind, G kind → F kind) : TakesExpr P G k' ls :=
  fun fuel _ _ _ _ hc hm hl hfuel => h fuel hc (Nat.le_trans hm hk) (hG _ hl) hfuel

theorem TakesExpr.done (h : TakesExpr P F k ls) (fuel : Nat) {m : Nat} {c : Cursor} {l : Lexeme}
    {ks : List Lexeme} (hc : c.Spells id (ls ++ l :: ks)) (hm : m ≤ k) (hl : F l.kind)
    (hop : ∀ op, l.kind.binaryOp? = some op → op.precedence < m)
    (hfuel : 4 * (ls ++ l :: ks).length + 2 < fuel) :
    ∃ t d, Reader.expr fuel m c = .done t d ∧ P t ∧ d.Spells id (l :: ks) := by
  obtain ⟨fuel', t, d, hread, ht, hd, hfuel'⟩ := h fuel hc hm hl hfuel
  refine ⟨t, d, ?_, ht, hd⟩
  rw [hread, operators_done (by omega)]
  rw [hd.head_kind]
  exact hop

theorem TakesExpr.closed (h : TakesExpr P F k ls) (fuel : Nat) {c : Cursor} {l : Lexeme}
    {ks : List Lexeme} (hc : c.Spells id (ls ++ l :: ks)) (hl : F l.kind)
    (hnone : l.kind.binaryOp? = none) (hfuel : 4 * (ls ++ l :: ks).length + 2 < fuel) :
    ∃ t d, Reader.expr fuel 0 c = .done t d ∧ P t ∧ d.Spells id (l :: ks) := by
  refine h.done fuel hc (Nat.zero_le k) hl ?_ hfuel
  intro op hop
  rw [hnone] at hop
  cases hop

theorem TakesExpr.enclosed (h : TakesExpr P F k ls) (hF : F (.symbol .rparen))
    (hQ : ∀ {pos t}, P t → Q (.paren pos t (.ok ()))) :
    TakesOperand Q G (.symbol .lparen :: (ls ++ [.symbol .rparen])) := by
  intro fuel c l ks hc _ hfuel
  obtain ⟨fuel, rfl⟩ := Nat.exists_eq_add_one_of_ne_zero (Nat.ne_zero_of_lt hfuel)
  simp only [List.cons_append, List.append_assoc, List.nil_append] at hc hfuel
  obtain ⟨hlexeme, inside, hinside, hstep⟩ := hc.next (by simp)
  obtain ⟨t, d, hread, ht, hd⟩ := h.closed fuel hinside hF rfl (by simp at hfuel ⊢; omega)
  obtain ⟨d', hd', hpass⟩ := hd.pass (by simp)
  refine ⟨.paren c.pos t (.ok ()), d', ?_, hQ ht, hd'⟩
  rw [operand, hlexeme]
  simp only [hstep, hread, Outcome.andThen]
  exact hpass _ _

/-- A binary operation keeps its operands: the left one may hold together as loosely as the
operator, the right one may not. -/
theorem TakesExpr.binary {op : BinaryOp} {x : Symbol} (hx : x.binaryOp? = some op)
    (hl : TakesExpr P F op.precedence ls) (hr : TakesExpr Q G (op.precedence + 1) rs)
    (hF : F (.symbol x)) (hG : ∀ kind, H kind → G kind)
    (hH : ∀ kind op', H kind → kind.binaryOp? = some op' → op'.precedence ≤ op.precedence)
    (hR : ∀ {pos l r}, P l → Q r → R (.binary op pos l r)) :
    TakesExpr R H op.precedence (ls ++ .symbol x :: rs) := by
  intro fuel m c y ks hc hm hy hfuel
  rw [List.append_assoc, List.cons_append] at hc hfuel
  obtain ⟨fuel', l, d, hread, hl', hd, hfuel'⟩ := hl fuel hc hm hF hfuel
  obtain ⟨fuel', rfl⟩ := Nat.exists_eq_add_one_of_ne_zero (Nat.ne_zero_of_lt hfuel')
  obtain ⟨hlexeme, d', hd', hstep⟩ := hd.next (by simp)
  obtain ⟨fuel'', r, d'', hread', hr', hd'', hfuel''⟩ :=
    hr fuel' hd' (Nat.le_refl _) (hG _ hy) (by simp at hfuel' ⊢; omega)
  refine ⟨fuel', .binary op d.pos l r, d'', ?_, hR hl' hr', hd'', by simp at hfuel' ⊢; omega⟩
  have hkind : d.kind.binaryOp? = some op := by rw [hd.head_kind]; exact hx
  rw [hread, operators, hkind]
  simp only [if_neg (Nat.not_lt.2 hm), hstep, hread']
  rw [operators_done (by omega)]
  · rfl
  · intro op' hop'
    rw [hd''.head_kind] at hop'
    exact Nat.lt_succ_of_le (hH _ op' hy hop')

theorem TakesOperand.unary {x : Symbol} (make : Position → Expr → Expr) (h : TakesOperand P F ls)
    (hread : ∀ fuel (c : Cursor), c.current.lexeme = .symbol x →
      Reader.operand (fuel + 1) c =
        c.step .missing fun rest => (Reader.operand fuel rest).map (make c.pos))
    (hQ : ∀ {pos t}, P t → Q (make pos t)) : TakesOperand Q F (.symbol x :: ls) := by
  intro fuel c l ks hc hl hfuel
  obtain ⟨fuel, rfl⟩ := Nat.exists_eq_add_one_of_ne_zero (Nat.ne_zero_of_lt hfuel)
  rw [List.cons_append] at hc hfuel
  obtain ⟨hlexeme, d, hd, hstep⟩ := hc.next (by simp)
  obtain ⟨t, d', hread', ht, hd'⟩ := h fuel hd hl (by simp at hfuel ⊢; omega)
  refine ⟨make c.pos t, d', ?_, hQ ht, hd'⟩
  rw [hread fuel c hlexeme, hstep, hread']
  rfl

theorem TakesOperand.literal {l : Lexeme} (make : Position → Expr) (hl : l ≠ .eof)
    (hread : ∀ fuel (c : Cursor), c.current.lexeme = l →
      Reader.operand (fuel + 1) c = c.step .missing fun rest => .done (make c.pos) rest)
    (hP : ∀ pos, P (make pos)) : TakesOperand P F [l] := by
  intro fuel c l' ks hc _ hfuel
  obtain ⟨fuel, rfl⟩ := Nat.exists_eq_add_one_of_ne_zero (Nat.ne_zero_of_lt hfuel)
  rw [List.singleton_append] at hc
  obtain ⟨hlexeme, d, hd, hstep⟩ := hc.next hl
  refine ⟨make c.pos, d, ?_, hP _, hd⟩
  rw [hread fuel c hlexeme, hstep]

theorem TakesOperand.cast (h : TakesOperand P F ls) (ht : TakesType T rs)
    (hF : F (.keyword .asWord))
    (hG : ∀ kind, G kind → kind ≠ .symbol .lbracket ∧ kind ≠ .symbol .star)
    (hQ : ∀ {pos e t}, P e → T t → Q (.cast e pos t)) :
    TakesExpr Q G k (ls ++ .keyword .asWord :: rs) := by
  intro fuel m c l ks hc hm hl hfuel
  obtain ⟨fuel, rfl⟩ := Nat.exists_eq_add_one_of_ne_zero (Nat.ne_zero_of_lt hfuel)
  rw [List.append_assoc, List.cons_append] at hc hfuel
  obtain ⟨e, d, hread, he, hd⟩ := h fuel hc hF (by omega)
  obtain ⟨-, d', hd', hstep⟩ := hd.next (by simp)
  obtain ⟨fuel, rfl⟩ := Nat.exists_eq_add_one_of_ne_zero (show fuel ≠ 0 by omega)
  obtain ⟨fuel', t, d'', hread', ht', hd'', hfuel'⟩ := ht fuel hd' (by simp at hfuel ⊢; omega)
  refine ⟨fuel + 1, .cast e d.pos t, d'', ?_, hQ he ht', hd'', by simp at hfuel ⊢; omega⟩
  have hkind : d.kind = .keyword .asWord := hd.head_kind
  obtain ⟨hopen, hstar⟩ := hG _ (hd''.head_kind ▸ hl)
  rw [Reader.expr, hread]
  simp only [Outcome.andThen, castSuffix, if_pos hkind, hstep, hread']
  rw [suffixes_stay (by omega) hopen hstar]
  rfl

theorem TakesType.named {name : String} (hT : ∀ pos, T (.named ⟨name, pos⟩)) :
    TakesType T [.identifier name] := by
  intro fuel c ks hc hfuel
  obtain ⟨fuel, rfl⟩ := Nat.exists_eq_add_one_of_ne_zero (Nat.ne_zero_of_lt hfuel)
  obtain ⟨hlexeme, d, hd, hstep⟩ := hc.next (by simp)
  refine ⟨fuel, .named ⟨name, c.pos⟩, d, ?_, hT _, hd, by simp at hfuel; omega⟩
  rw [type, hlexeme]
  simp only [hstep]

theorem TakesType.pointer (h : TakesType T ls) (hU : ∀ {t}, T t → U (.pointer t)) :
    TakesType U (ls ++ [.symbol .star]) := by
  intro fuel c ks hc hfuel
  rw [List.append_assoc, List.singleton_append] at hc hfuel
  obtain ⟨fuel', t, d, hread, ht, hd, hfuel'⟩ := h fuel hc hfuel
  obtain ⟨fuel', rfl⟩ := Nat.exists_eq_add_one_of_ne_zero (Nat.ne_zero_of_lt hfuel')
  obtain ⟨-, d', hd', hstep⟩ := hd.next (by simp)
  refine ⟨fuel', .pointer t, d', ?_, hU ht, hd', by simp at hfuel'; omega⟩
  rw [hread, suffixes, hd.head_kind]
  simp only [Lexeme.kind, hstep]

theorem TakesType.array (h : TakesType T ls) (he : TakesExpr P F k rs) (hF : F (.symbol .rbracket))
    (hU : ∀ {t pos e}, T t → P e → U (.array t pos e (.ok ()))) :
    TakesType U (ls ++ .symbol .lbracket :: (rs ++ [.symbol .rbracket])) := by
  intro fuel c ks hc hfuel
  simp only [List.append_assoc, List.cons_append, List.nil_append] at hc hfuel
  obtain ⟨fuel', t, d, hread, ht, hd, hfuel'⟩ := h fuel hc hfuel
  obtain ⟨fuel', rfl⟩ := Nat.exists_eq_add_one_of_ne_zero (Nat.ne_zero_of_lt hfuel')
  obtain ⟨-, inside, hinside, hstep⟩ := hd.next (by simp)
  obtain ⟨e, d', hread', he', hd'⟩ :=
    he.closed fuel' hinside hF rfl (by simp at hfuel' ⊢; omega)
  obtain ⟨d'', hd'', hpass⟩ := hd'.pass (by simp)
  refine ⟨fuel', .array t inside.pos e (.ok ()), d'', ?_, hU ht he', hd'',
    by simp at hfuel'; omega⟩
  rw [hread, suffixes, hd.head_kind]
  simp only [Lexeme.kind, hstep, if_neg (expr_done_kind hread' (.inr rfl)), hread',
    Outcome.andThen]
  exact hpass _ _

end Reader

end Tern
