import Tern.Proofs.Tree.Alike
import Tern.Proofs.Tree.Completeness

/-!
# Reading two texts in lockstep

What is read depends on the lexemes in front of a cursor.  Two cursors go in lockstep when they
stand on the same lexemes and meet the same errors.  There may be holes, behind an opening token,
that both texts fill with expressions of their own which say the same, and a seam behind which the
texts part.  Every phrase is then read to trees that say the same.
-/

namespace Tern

/-! ## Steps and phrases -/

/-- No expression, type or declaration takes a token of this kind. -/
def Kind.isBorder : Kind → Bool
  | .keyword .beginWord | .keyword .endWord | .eof => true
  | _ => false

/-- Behind a token of this kind an expression can start. -/
def Kind.isOpener : Kind → Bool
  | .symbol .assign | .symbol .lparen | .symbol .lbracket | .symbol .comma => true
  | _ => false

theorem Kind.ne_eof {k : Kind} {p : Prop} (h : k.isBorder = false ∨ p ∧ k ≠ .eof) : k ≠ .eof := by
  rintro rfl
  obtain h | h := h
  · cases h
  · exact h.2 rfl

/-- Both cursors move on to where `near` holds, or fail to with the same error. -/
inductive Cursor.StepsAlike (L : Likeness) (near : Cursor → Cursor → Prop) (c c' : Cursor) :
    Prop where
  | ok {d d' : Cursor} (h : c.advance = (.ok (), d)) (h' : c'.advance = (.ok (), d'))
      (hd : near d d')
  | error {why why' : CompileError} {d d' : Cursor} (h : c.advance = (.error why, d))
      (h' : c'.advance = (.error why', d')) (hwhy : L.error why why')

/-- Phrases with trees that `T` relates.  They leave cursors that `near` relates, or stop with the
same error.  What stops short says nothing where there is a seam. -/
def Outcome.Alike {α : Type} (L : Likeness) (seam : Prop) (near : Cursor → Cursor → Prop)
    (T : α → α → Prop) : Outcome α → Outcome α → Prop
  | .done tree rest, x' => ∃ tree' rest', x' = .done tree' rest' ∧ T tree tree' ∧ near rest rest'
  | .stopped tree why _, x' =>
      ¬seam → ∃ tree' why' rest', x' = .stopped tree' why' rest' ∧ T tree tree' ∧
        L.error why why'

namespace Outcome.Alike

variable {α β : Type} {L : Likeness} {seam : Prop} {near near' : Cursor → Cursor → Prop}
  {T : α → α → Prop} {U : β → β → Prop} {c c' : Cursor} {x x' : Outcome α}

theorem done {tree tree' : α} (htree : T tree tree') (hc : near c c') :
    (Outcome.done tree c).Alike L seam near T (.done tree' c') :=
  ⟨tree', c', rfl, htree, hc⟩

theorem stopped {tree tree' : α} {why why' : CompileError} (htree : T tree tree')
    (hwhy : L.error why why') :
    (Outcome.stopped tree why c).Alike L seam near T (.stopped tree' why' c') :=
  fun _ => ⟨tree', why', c', rfl, htree, hwhy⟩

theorem imp (hx : x.Alike L seam near T x') (h : ∀ {c c'}, near c c' → near' c c') :
    x.Alike L seam near' T x' := by
  cases x with
  | done tree rest =>
      obtain ⟨tree', rest', hx', htree, hrest⟩ := hx
      exact ⟨tree', rest', hx', htree, h hrest⟩
  | stopped tree why rest => exact hx

theorem and_rest {Q : Cursor → Prop} (hx : x.Alike L seam near T x')
    (h : ∀ {tree rest}, x = .done tree rest → Q rest) :
    x.Alike L seam (fun c c' => near c c' ∧ Q c) T x' := by
  cases x with
  | done tree rest =>
      obtain ⟨tree', rest', hx', htree, hrest⟩ := hx
      exact ⟨tree', rest', hx', htree, hrest, h rfl⟩
  | stopped tree why rest => exact hx

theorem andThen {cut cut' : α → CompileError → β} {next next' : α → Cursor → Outcome β}
    (hx : x.Alike L seam near T x')
    (hcut : ∀ {tree tree' why why'}, T tree tree' → L.error why why' →
      U (cut tree why) (cut' tree' why'))
    (hnext : ∀ tree tree' c c', T tree tree' → near c c' →
      (next tree c).Alike L seam near' U (next' tree' c')) :
    (x.andThen cut next).Alike L seam near' U (x'.andThen cut' next') := by
  cases x with
  | done tree rest =>
      obtain ⟨tree', rest', rfl, htree, hrest⟩ := hx
      exact hnext tree tree' rest rest' htree hrest
  | stopped tree why rest =>
      intro hseam
      obtain ⟨tree', why', rest', rfl, htree, hwhy⟩ := hx hseam
      exact ⟨_, why', rest', rfl, hcut htree hwhy, hwhy⟩

theorem map {f f' : α → β} (hx : x.Alike L seam near T x')
    (hf : ∀ {tree tree'}, T tree tree' → U (f tree) (f' tree')) :
    (x.map f).Alike L seam near U (x'.map f') := by
  cases x with
  | done tree rest =>
      obtain ⟨tree', rest', rfl, htree, hrest⟩ := hx
      exact ⟨f' tree', rest', rfl, hf htree, hrest⟩
  | stopped tree why rest =>
      intro hseam
      obtain ⟨tree', why', rest', rfl, htree, hwhy⟩ := hx hseam
      exact ⟨_, why', rest', rfl, hf htree, hwhy⟩

theorem tree (hx : x.Alike L seam near T x') (hseam : ¬seam) : T x.tree x'.tree := by
  cases x with
  | done tree rest =>
      obtain ⟨tree', rest', rfl, htree, -⟩ := hx
      exact htree
  | stopped tree why rest =>
      obtain ⟨tree', why', rest', rfl, htree, -⟩ := hx hseam
      exact htree

end Outcome.Alike

/-- Two texts without expressions of their own do not close one. -/
theorem Cursor.kind_ne_of_no_hole {c c' : Cursor} {x : Symbol} (h : False)
    (_ : x = .rparen ∨ x = .rbracket) : c.kind ≠ .symbol x ∧ c'.kind ≠ .symbol x :=
  h.elim

/-- What keeps cursors of two texts in lockstep.  The numbers bound what is left of the texts. -/
structure Lockstep (L : Likeness) where
  near : Nat → Nat → Cursor → Cursor → Prop
  /-- The texts go on with expressions of their own. -/
  hole : Nat → Nat → Cursor → Cursor → Prop
  seam : Prop
  mono : ∀ {m m' n n' c c'}, near n n' c c' → n ≤ m → n' ≤ m' → near m m' c c'
  /-- The cursors stand on the same lexeme, or on both sides of the seam. -/
  same_or_parts : ∀ {n n' c c'}, near n n' c c' → c'.current.lexeme = c.current.lexeme ∨
    seam ∧ c.kind.isBorder = true ∧ (c'.kind = .identifier ∨ c'.kind.isBorder = true)
  pos : ∀ {n n' c c'}, near n n' c c' → c.pos.Alike L c'.pos
  step : ∀ {n n' c c'}, near n n' c c' → c.kind.isBorder = false ∨ ¬seam ∧ c.kind ≠ .eof →
    0 < n ∧ 0 < n' ∧ c.StepsAlike L (fun d d' => near (n - 1) (n' - 1) d d' ∨
      c.kind.isOpener = true ∧ hole (n - 1) (n' - 1) d d') c'
  hole_pos : ∀ {n n' c c'}, hole n n' c c' → c.pos.Alike L c'.pos
  hole_ne : ∀ {n n' c c'} {x : Symbol}, hole n n' c c' → x = .rparen ∨ x = .rbracket →
    c.kind ≠ .symbol x ∧ c'.kind ≠ .symbol x
  hole_expr : ∀ {n n' c c' fuel fuel'}, hole n n' c c' →
    4 * n + 2 < fuel ∧ 4 * n' + 2 < fuel' →
    (Reader.expr fuel 0 c).Alike L seam (near (n - 1) (n' - 1)) (Expr.Alike L)
      (Reader.expr fuel' 0 c')
  budget : ∀ {n n' c c'}, near n n' c c' → ∃ m m', near m m' c c' ∧
    4 * m + 3 < Reader.budget c ∧ 4 * m' + 3 < Reader.budget c'

namespace Lockstep

variable {α β : Type} {L : Likeness} (P : Lockstep L) {T : α → α → Prop} {U : β → β → Prop}
  {m m' n n' : Nat} {c c' : Cursor} {k : Kind}

/-- An expression starts at the cursors: in lockstep, or in a hole. -/
def Starts (n n' : Nat) (c c' : Cursor) : Prop := P.near n n' c c' ∨ P.hole n n' c c'

/-- The cursors are in lockstep, however far from the end of their texts. -/
def Along (c c' : Cursor) : Prop := ∃ n n', P.near n n' c c'

/-- The phrases are alike and leave the cursors in lockstep. -/
abbrev Reads (T : α → α → Prop) (n n' : Nat) (x x' : Outcome α) : Prop :=
  x.Alike L P.seam (P.near n n') T x'

variable {P}

section

theorem lexeme_eq (hc : P.near n n' c c') (hk : c.kind.isBorder = false ∨ ¬P.seam) :
    c'.current.lexeme = c.current.lexeme := by
  obtain hsame | ⟨hseam, hborder, -⟩ := P.same_or_parts hc
  · exact hsame
  · obtain hk | hk := hk
    · rw [hk] at hborder
      cases hborder
    · exact absurd hseam hk

theorem kind_eq_of_not_seam (hc : P.near n n' c c') (hseam : ¬P.seam) : c'.kind = c.kind :=
  congrArg Lexeme.kind (lexeme_eq hc (.inr hseam))

theorem kind_eq (hc : P.near n n' c c') (hk : c.kind = k) (hborder : k.isBorder = false) :
    c'.kind = k := by
  subst hk
  exact congrArg Lexeme.kind (lexeme_eq hc (.inl hborder))

/-- The seam does not show to who looks for anything but a border or an identifier. -/
theorem kind_ne (hc : P.near n n' c c') (hk : c.kind ≠ k) (hborder : k.isBorder = false)
    (hne : k ≠ .identifier) : c'.kind ≠ k := by
  rintro rfl
  obtain hsame | ⟨-, -, hc' | hc'⟩ := P.same_or_parts hc
  · exact hk (congrArg Lexeme.kind hsame).symm
  · exact hne hc'
  · rw [hborder] at hc'
    cases hc'

theorem binaryOp?_eq (hc : P.near n n' c c') : c'.kind.binaryOp? = c.kind.binaryOp? := by
  have hnone : ∀ k : Kind, k = .identifier ∨ k.isBorder = true → k.binaryOp? = none := by
    rintro k (rfl | hk)
    · rfl
    · unfold Kind.isBorder at hk
      split at hk <;> first | rfl | cases hk
  obtain hsame | ⟨-, hc, hc'⟩ := P.same_or_parts hc
  · have hkind : c'.kind = c.kind := congrArg Lexeme.kind hsame
    rw [hkind]
  · rw [hnone _ hc', hnone _ (.inr hc)]

end

namespace Reads

theorem mono {x x' : Outcome α} (hx : P.Reads T n n' x x') (hn : n ≤ m) (hn' : n' ≤ m') :
    P.Reads T m m' x x' :=
  hx.imp fun h => P.mono h hn hn'

variable {near : Cursor → Cursor → Prop}

/-- Moving on from a token, behind which there may be a hole if it is an opening one. -/
theorem step {cut cut' : CompileError → α} {next next' : Cursor → Outcome α}
    (hc : P.near n n' c c') (hk : c.kind.isBorder = false ∨ ¬P.seam ∧ c.kind ≠ .eof)
    (hcut : ∀ {why why'}, L.error why why' → T (cut why) (cut' why'))
    (hnext : ∀ d d', 0 < n → 0 < n' → P.near (n - 1) (n' - 1) d d' ∨
      c.kind.isOpener = true ∧ P.hole (n - 1) (n' - 1) d d' →
      (next d).Alike L P.seam near T (next' d')) :
    (c.step cut next).Alike L P.seam near T (c'.step cut' next') := by
  obtain ⟨hn, hn', hstep⟩ := P.step hc hk
  cases hstep with
  | ok h h' hd =>
      rw [Cursor.step, Cursor.step, h, h']
      exact hnext _ _ hn hn' hd
  | error h h' hwhy =>
      rw [Cursor.step, Cursor.step, h, h']
      exact .stopped (hcut hwhy) hwhy

theorem next {cut cut' : CompileError → α} {next next' : Cursor → Outcome α}
    (hc : P.near n n' c c') (hk : c.kind.isBorder = false ∨ ¬P.seam ∧ c.kind ≠ .eof)
    (hopener : c.kind.isOpener = false)
    (hcut : ∀ {why why'}, L.error why why' → T (cut why) (cut' why'))
    (hnext : ∀ d d', 0 < n → 0 < n' → P.near (n - 1) (n' - 1) d d' →
      (next d).Alike L P.seam near T (next' d')) :
    (c.step cut next).Alike L P.seam near T (c'.step cut' next') := by
  refine step hc hk hcut fun d d' hn hn' hd => hnext d d' hn hn' ?_
  obtain hd | ⟨hopener', -⟩ := hd
  · exact hd
  · rw [hopener] at hopener'
    cases hopener'

theorem opener {cut cut' : CompileError → α} {next next' : Cursor → Outcome α}
    (hc : P.near n n' c c') (hk : c.kind.isBorder = false)
    (hcut : ∀ {why why'}, L.error why why' → T (cut why) (cut' why'))
    (hnext : ∀ d d', 0 < n → 0 < n' → P.Starts (n - 1) (n' - 1) d d' →
      (next d).Alike L P.seam near T (next' d')) :
    (c.step cut next).Alike L P.seam near T (c'.step cut' next') :=
  step hc (.inl hk) hcut fun d d' hn hn' hd => hnext d d' hn hn' (hd.imp_right And.right)

theorem stop {p : Problem} {cut : CompileError → α} (cut' : CompileError → α) {x' : Outcome α}
    (hc : P.near n n' c c') (hcut : ∀ {why why'}, L.error why why' → T (cut why) (cut' why'))
    (hx' : ¬P.seam → x' = c'.stop p cut') : (c.stop p cut).Alike L P.seam near T x' :=
  fun hseam => ⟨_, _, _, hx' hseam, hcut (P.pos hc p), P.pos hc p⟩

/-- Looking for a kind of token that does not tell the two sides of a seam apart. -/
theorem expect {cut cut' : CompileError → α} {x x' : Outcome α} (hc : P.near n n' c c')
    (hk : k.isBorder = false ∧ k ≠ .identifier ∨ ¬P.seam)
    (hcut : ∀ {why why'}, L.error why why' → T (cut why) (cut' why'))
    (hx : c.kind = k → x.Alike L P.seam near T x') :
    (c.expect k cut x).Alike L P.seam near T (c'.expect k cut' x') := by
  have hkind : c'.kind = k ↔ c.kind = k := by
    obtain hk | hseam := hk
    · refine ⟨fun h => ?_, fun h => kind_eq hc h hk.1⟩
      by_contra hne
      exact kind_ne hc hne hk.1 hk.2 h
    · rw [kind_eq_of_not_seam hc hseam]
  unfold Cursor.expect
  by_cases hck : c.kind = k
  · rw [if_pos hck, if_pos (hkind.2 hck)]
    exact hx hck
  · rw [if_neg hck, if_neg fun h => hck (hkind.1 h)]
    exact stop cut' hc hcut fun hseam => by rw [kind_eq_of_not_seam hc hseam]

theorem pass {cut cut' : CompileError → α} {next next' : Cursor → Outcome α}
    (hc : P.near n n' c c') (hborder : k.isBorder = false) (hne : k ≠ .identifier)
    (hopener : k.isOpener = false)
    (hcut : ∀ {why why'}, L.error why why' → T (cut why) (cut' why'))
    (hnext : ∀ d d', 0 < n → 0 < n' → P.near (n - 1) (n' - 1) d d' →
      (next d).Alike L P.seam near T (next' d')) :
    (c.pass k cut next).Alike L P.seam near T (c'.pass k cut' next') := by
  refine expect hc (.inl ⟨hborder, hne⟩) hcut fun hck => ?_
  exact Reads.next hc (.inl (by rw [hck, hborder])) (by rw [hck, hopener]) hcut hnext

end Reads

/-! ## Expressions and types -/

variable (P) in
/-- With `fuel` to spend in the first text and enough in the second, every phrase that can stand
in an expression is read in lockstep. -/
structure At (fuel : Nat) : Prop where
  expr : ∀ minPrec {fuel' n n' : Nat} {c c' : Cursor}, 4 * n + 2 < fuel ∧ 4 * n' + 2 < fuel' →
    P.near n n' c c' → P.Reads (Expr.Alike L) (n - 1) (n' - 1) (Reader.expr fuel minPrec c)
      (Reader.expr fuel' minPrec c')
  operand : ∀ {fuel' n n' : Nat} {c c' : Cursor}, 4 * n + 1 < fuel ∧ 4 * n' + 1 < fuel' →
    P.near n n' c c' → P.Reads (Expr.Alike L) (n - 1) (n' - 1) (Reader.operand fuel c)
      (Reader.operand fuel' c')
  named : ∀ {id id' : Ident} {fuel' n n' : Nat} {c c' : Cursor},
    4 * n < fuel ∧ 4 * n' < fuel' → id.Alike L id' → P.near n n' c c' → c.kind = .identifier →
    P.Reads (Expr.Alike L) (n - 1) (n' - 1) (Reader.named fuel id c) (Reader.named fuel' id' c')
  assignment : ∀ {p p' : Place} {fuel' n n' : Nat} {c c' : Cursor},
    4 * n < fuel ∧ 4 * n' < fuel' → p.Alike L p' → P.near n n' c c' → c.kind = .symbol .assign →
    P.Reads (Expr.Alike L) n n' (Reader.assignment fuel p c) (Reader.assignment fuel' p' c')
  args : ∀ {fuel' n n' : Nat} {c c' : Cursor}, 4 * n + 3 < fuel ∧ 4 * n' + 3 < fuel' →
    P.Starts n n' c c' →
    P.Reads (Args.Alike L) n n' (Reader.args fuel c) (Reader.args fuel' c')
  elements : ∀ {p p' : Place} {fuel' n n' : Nat} {c c' : Cursor},
    4 * n < fuel ∧ 4 * n' < fuel' → p.Alike L p' → P.near n n' c c' →
    P.Reads (Place.Alike L) n n' (Reader.elements fuel p c) (Reader.elements fuel' p' c')
  castSuffix : ∀ {e e' : Expr} {fuel' n n' : Nat} {c c' : Cursor},
    4 * n < fuel ∧ 4 * n' < fuel' → e.Alike L e' → P.near n n' c c' →
    P.Reads (Expr.Alike L) n n' (Reader.castSuffix fuel e c) (Reader.castSuffix fuel' e' c')
  operators : ∀ minPrec {e e' : Expr} {fuel' n n' : Nat} {c c' : Cursor},
    4 * n < fuel ∧ 4 * n' < fuel' → e.Alike L e' → P.near n n' c c' →
    P.Reads (Expr.Alike L) n n' (Reader.operators fuel minPrec e c)
      (Reader.operators fuel' minPrec e' c')
  type : ∀ {fuel' n n' : Nat} {c c' : Cursor}, 4 * n < fuel ∧ 4 * n' < fuel' →
    P.near n n' c c' →
    P.Reads (TypeExpr.Alike L) n n' (Reader.type fuel c) (Reader.type fuel' c')
  suffixes : ∀ {t t' : TypeExpr} {fuel' n n' : Nat} {c c' : Cursor},
    4 * n < fuel ∧ 4 * n' < fuel' → t.Alike L t' → P.near n n' c c' →
    P.Reads (TypeExpr.Alike L) n n' (Reader.suffixes fuel t c) (Reader.suffixes fuel' t' c')

theorem at_zero : P.At 0 where
  expr _ _ _ _ _ _ hfuel := by omega
  operand hfuel := by omega
  named hfuel := by omega
  assignment hfuel := by omega
  args hfuel := by omega
  elements hfuel := by omega
  castSuffix hfuel := by omega
  operators _ _ _ _ _ _ _ _ hfuel := by omega
  type hfuel := by omega
  suffixes hfuel := by omega

namespace At

open Outcome.Alike (done)
open Reads (next opener stop pass)

variable {fuel fuel' : Nat}

theorem inner (ih : P.At fuel) (hfuel : 4 * n + 2 < fuel ∧ 4 * n' + 2 < fuel')
    (hc : P.Starts n n' c c') : P.Reads (Expr.Alike L) (n - 1) (n' - 1) (Reader.expr fuel 0 c)
      (Reader.expr fuel' 0 c') := by
  obtain hc | hc := hc
  · exact ih.expr 0 hfuel hc
  · exact P.hole_expr hc hfuel

theorem starts_pos (hc : P.Starts n n' c c') : c.pos.Alike L c'.pos := by
  obtain hc | hc := hc
  · exact P.pos hc
  · exact P.hole_pos hc

theorem closes_iff {x : Symbol} (hc : P.Starts n n' c c') (hx : x = .rparen ∨ x = .rbracket) :
    c'.kind = .symbol x ↔ c.kind = .symbol x ∧ P.near n n' c c' := by
  obtain hc | hc := hc
  · refine ⟨fun h => ⟨?_, hc⟩, fun h => kind_eq hc h.1 rfl⟩
    by_contra hne
    exact kind_ne hc hne rfl (by simp) h
  · have hne := P.hole_ne hc hx
    exact ⟨fun h => absurd h hne.2, fun h => absurd h.1 hne.1⟩

theorem expr_succ (ih : P.At fuel) (minPrec : Nat)
    (hfuel : 4 * n + 2 < fuel + 1 ∧ 4 * n' + 2 < fuel') (hc : P.near n n' c c') :
    P.Reads (Expr.Alike L) (n - 1) (n' - 1) (Reader.expr (fuel + 1) minPrec c)
      (Reader.expr fuel' minPrec c') := by
  obtain ⟨fuel', rfl⟩ := Nat.exists_eq_add_one.2 (show 0 < fuel' by omega)
  simp only [Reader.expr]
  refine (ih.operand (by omega) hc).andThen (fun he _ => he) fun e e' c c' he hc => ?_
  refine (ih.castSuffix (by omega) he hc).andThen (fun he _ => he) fun e e' c c' he hc => ?_
  exact ih.operators minPrec (by omega) he hc

theorem border_of_lexeme {l : Lexeme} (hl : c.current.lexeme = l)
    (hk : l.kind.isBorder = false) : c.kind.isBorder = false := by
  rw [Cursor.kind, Token.kind, hl, hk]

theorem opener_of_lexeme {l : Lexeme} (hl : c.current.lexeme = l)
    (hk : l.kind.isOpener = false) : c.kind.isOpener = false := by
  rw [Cursor.kind, Token.kind, hl, hk]

theorem operand_succ (ih : P.At fuel) (hfuel : 4 * n + 1 < fuel + 1 ∧ 4 * n' + 1 < fuel')
    (hc : P.near n n' c c') :
    P.Reads (Expr.Alike L) (n - 1) (n' - 1) (Reader.operand (fuel + 1) c)
      (Reader.operand fuel' c') := by
  obtain ⟨fuel', rfl⟩ := Nat.exists_eq_add_one.2 (show 0 < fuel' by omega)
  simp only [Reader.operand]
  split
  · next digits suffix hl =>
    have hk := border_of_lexeme hl rfl
    rw [lexeme_eq hc (.inl hk), hl]
    exact next hc (.inl hk) (opener_of_lexeme hl rfl) .missing
      fun d d' _ _ hd => done (.integer (P.pos hc)) hd
  · next value hl =>
    have hk := border_of_lexeme hl rfl
    rw [lexeme_eq hc (.inl hk), hl]
    exact next hc (.inl hk) (opener_of_lexeme hl rfl) .missing
      fun d d' _ _ hd => done (.char (P.pos hc)) hd
  · next name hl =>
    rw [lexeme_eq hc (.inl (border_of_lexeme hl rfl)), hl]
    exact ih.named (by omega) ⟨rfl, P.pos hc⟩ hc (congrArg Lexeme.kind hl)
  · next hl =>
    have hk := border_of_lexeme hl rfl
    rw [lexeme_eq hc (.inl hk), hl]
    refine opener hc hk .missing fun d d' _ _ hd => ?_
    refine (ih.inner (by omega) hd).andThen (fun he hwhy => .paren (P.pos hc) he hwhy)
      fun e e' d d' he hd => ?_
    refine pass hd rfl (by decide) rfl (fun hwhy => .paren (P.pos hc) he hwhy) fun d d' _ _ hd => ?_
    exact done (.paren (P.pos hc) he rfl) (P.mono hd (by omega) (by omega))
  · next hl =>
    have hk := border_of_lexeme hl rfl
    rw [lexeme_eq hc (.inl hk), hl]
    refine next hc (.inl hk) (opener_of_lexeme hl rfl) .missing fun d d' _ _ hd => ?_
    exact ((ih.operand (by omega) hd).mono (by omega) (by omega)).map (.reference (P.pos hc))
  · next hl =>
    have hk := border_of_lexeme hl rfl
    rw [lexeme_eq hc (.inl hk), hl]
    refine next hc (.inl hk) (opener_of_lexeme hl rfl) .missing fun d d' _ _ hd => ?_
    exact ((ih.operand (by omega) hd).mono (by omega) (by omega)).map (.negate (P.pos hc))
  all_goals
    refine stop .missing hc .missing fun hseam => ?_
    rw [lexeme_eq hc (.inr hseam), kind_eq_of_not_seam hc hseam]
    split
    all_goals first | rfl | simp_all

theorem named_succ (ih : P.At fuel) {id id' : Ident}
    (hfuel : 4 * n < fuel + 1 ∧ 4 * n' < fuel') (hid : id.Alike L id')
    (hc : P.near n n' c c') (hk : c.kind = .identifier) :
    P.Reads (Expr.Alike L) (n - 1) (n' - 1) (Reader.named (fuel + 1) id c)
      (Reader.named fuel' id' c') := by
  obtain ⟨fuel', rfl⟩ := Nat.exists_eq_add_one.2 (show 0 < fuel' by omega)
  simp only [Reader.named]
  refine next hc (.inl (by rw [hk]; rfl)) (by rw [hk]; rfl) .missing fun c c' _ _ hc => ?_
  split
  · next hk =>
    rw [kind_eq hc hk rfl]
    exact ih.assignment (by omega) (.var hid) hc hk
  · next hk =>
    rw [kind_eq hc hk rfl]
    refine opener hc (by rw [hk]; rfl) (fun hwhy => .call hid (.close hwhy))
      fun c c' _ _ hc => ?_
    have hclose := closes_iff hc (.inl rfl)
    split
    · next hk =>
      obtain hc | hc := hc
      · rw [if_pos (kind_eq hc hk rfl)]
        refine next hc (.inl (by rw [hk]; rfl)) (by rw [hk]; rfl)
          (fun hwhy => .call hid (.close hwhy)) fun c c' _ _ hc => ?_
        exact done (.call hid (.close rfl)) (P.mono hc (by omega) (by omega))
      · exact absurd hk (P.hole_ne hc (.inl rfl)).1
    · next hk =>
      rw [if_neg fun h => hk (hclose.1 h).1]
      exact ((ih.args (by omega) hc).mono (by omega) (by omega)).map (.call hid)
  · next hk =>
    rw [kind_eq hc hk rfl]
    refine (ih.elements (by omega) (.var hid) hc).andThen (fun hp _ => .element hp)
      fun p p' c c' hp hc => ?_
    split
    · next hk =>
      rw [if_pos (kind_eq hc hk rfl)]
      exact ih.assignment (by omega) hp hc hk
    · next hk =>
      rw [if_neg (kind_ne hc hk rfl (by decide))]
      exact done (.element hp) hc
  · next hassign hparen hbracket =>
    split
    · next hk => exact absurd hk (kind_ne hc hassign rfl (by decide))
    · next hk => exact absurd hk (kind_ne hc hparen rfl (by decide))
    · next hk => exact absurd hk (kind_ne hc hbracket rfl (by decide))
    · exact done (.name hid) hc

theorem assignment_succ (ih : P.At fuel) {p p' : Place}
    (hfuel : 4 * n < fuel + 1 ∧ 4 * n' < fuel') (hp : p.Alike L p')
    (hc : P.near n n' c c') (hk : c.kind = .symbol .assign) :
    P.Reads (Expr.Alike L) n n' (Reader.assignment (fuel + 1) p c)
      (Reader.assignment fuel' p' c') := by
  obtain ⟨fuel', rfl⟩ := Nat.exists_eq_add_one.2 (show 0 < fuel' by omega)
  simp only [Reader.assignment]
  refine opener hc (by rw [hk]; rfl) (fun hwhy => .assign hp (P.pos hc) (.missing hwhy))
    fun d d' _ _ hd => ?_
  exact ((ih.inner (by omega) hd).mono (by omega) (by omega)).map (.assign hp (P.pos hc))

theorem args_succ (ih : P.At fuel) (hfuel : 4 * n + 3 < fuel + 1 ∧ 4 * n' + 3 < fuel')
    (hc : P.Starts n n' c c') :
    P.Reads (Args.Alike L) n n' (Reader.args (fuel + 1) c) (Reader.args fuel' c') := by
  obtain ⟨fuel', rfl⟩ := Nat.exists_eq_add_one.2 (show 0 < fuel' by omega)
  simp only [Reader.args]
  refine (ih.inner (by omega) hc).andThen (fun he hwhy => .cons he (.close hwhy))
    fun e e' c c' he hc => ?_
  split
  · next hk =>
    rw [if_pos (kind_eq hc hk rfl)]
    refine opener hc (by rw [hk]; rfl) (fun hwhy => .cons he (.close hwhy)) fun d d' _ _ hd => ?_
    exact ((ih.args (by omega) hd).mono (by omega) (by omega)).map (.cons he)
  · next hk =>
    rw [if_neg (kind_ne hc hk rfl (by decide))]
    refine pass hc rfl (by decide) rfl (fun hwhy => .cons he (.close hwhy)) fun d d' _ _ hd => ?_
    exact done (.cons he (.close rfl)) (P.mono hd (by omega) (by omega))

theorem elements_succ (ih : P.At fuel) {p p' : Place}
    (hfuel : 4 * n < fuel + 1 ∧ 4 * n' < fuel') (hp : p.Alike L p') (hc : P.near n n' c c') :
    P.Reads (Place.Alike L) n n' (Reader.elements (fuel + 1) p c)
      (Reader.elements fuel' p' c') := by
  obtain ⟨fuel', rfl⟩ := Nat.exists_eq_add_one.2 (show 0 < fuel' by omega)
  simp only [Reader.elements]
  split
  · next hk =>
    rw [if_pos (kind_eq hc hk rfl)]
    refine opener hc (by rw [hk]; rfl)
      (fun hwhy => .elementPlace hp (P.pos hc) (.missing hwhy) hwhy) fun d d' _ _ hd => ?_
    refine (ih.inner (by omega) hd).andThen (fun he hwhy => .elementPlace hp (P.pos hc) he hwhy)
      fun e e' d d' he hd => ?_
    refine pass hd rfl (by decide) rfl (fun hwhy => .elementPlace hp (P.pos hc) he hwhy)
      fun d d' _ _ hd => ?_
    exact (ih.elements (by omega) (by exact .elementPlace hp (P.pos hc) he rfl) hd).mono
      (by omega) (by omega)
  · next hk =>
    rw [if_neg (kind_ne hc hk rfl (by decide))]
    exact done hp hc

theorem castSuffix_succ (ih : P.At fuel) {e e' : Expr}
    (hfuel : 4 * n < fuel + 1 ∧ 4 * n' < fuel') (he : e.Alike L e') (hc : P.near n n' c c') :
    P.Reads (Expr.Alike L) n n' (Reader.castSuffix (fuel + 1) e c)
      (Reader.castSuffix fuel' e' c') := by
  obtain ⟨fuel', rfl⟩ := Nat.exists_eq_add_one.2 (show 0 < fuel' by omega)
  simp only [Reader.castSuffix]
  split
  · next hk =>
    rw [if_pos (kind_eq hc hk rfl)]
    refine next hc (.inl (by rw [hk]; rfl)) (by rw [hk]; rfl)
      (fun hwhy => .cast he (P.pos hc) (.missingType hwhy)) fun d d' _ _ hd => ?_
    exact ((ih.type (by omega) hd).mono (by omega) (by omega)).map (.cast he (P.pos hc))
  · next hk =>
    rw [if_neg (kind_ne hc hk rfl (by decide))]
    exact done he hc

theorem operators_succ (ih : P.At fuel) (minPrec : Nat) {e e' : Expr}
    (hfuel : 4 * n < fuel + 1 ∧ 4 * n' < fuel') (he : e.Alike L e') (hc : P.near n n' c c') :
    P.Reads (Expr.Alike L) n n' (Reader.operators (fuel + 1) minPrec e c)
      (Reader.operators fuel' minPrec e' c') := by
  obtain ⟨fuel', rfl⟩ := Nat.exists_eq_add_one.2 (show 0 < fuel' by omega)
  simp only [Reader.operators]
  rw [binaryOp?_eq hc]
  cases hop : c.kind.binaryOp? with
  | none => exact done he hc
  | some op =>
      have hk : c.kind.isBorder = false ∧ c.kind.isOpener = false := by
        cases hk : c.kind with
        | symbol x => rw [hk] at hop; cases x <;> first | exact ⟨rfl, rfl⟩ | cases hop
        | identifier | integer | char | keyword | eof => rw [hk] at hop; cases hop
      dsimp only
      split
      · exact done he hc
      · refine next hc (.inl hk.1) hk.2 (fun hwhy => .binary (P.pos hc) he (.missing hwhy))
          fun d d' _ _ hd => ?_
        refine (ih.expr _ (by omega) hd).andThen (fun hrhs _ => .binary (P.pos hc) he hrhs)
          fun rhs rhs' d d' hrhs hd => ?_
        exact (ih.operators minPrec (by omega) (.binary (P.pos hc) he hrhs) hd).mono (by omega)
          (by omega)

theorem type_succ (ih : P.At fuel) (hfuel : 4 * n < fuel + 1 ∧ 4 * n' < fuel')
    (hc : P.near n n' c c') :
    P.Reads (TypeExpr.Alike L) n n' (Reader.type (fuel + 1) c) (Reader.type fuel' c') := by
  obtain ⟨fuel', rfl⟩ := Nat.exists_eq_add_one.2 (show 0 < fuel' by omega)
  simp only [Reader.type]
  split
  · next name hl =>
    have hk := border_of_lexeme hl rfl
    rw [lexeme_eq hc (.inl hk), hl]
    refine next hc (.inl hk) (opener_of_lexeme hl rfl)
      (fun hwhy => .stopped (.named ⟨rfl, P.pos hc⟩) hwhy) fun d d' _ _ hd => ?_
    exact (ih.suffixes (by omega) (by exact .named ⟨rfl, P.pos hc⟩) hd).mono (by omega) (by omega)
  · refine stop .missing hc .missingType fun hseam => ?_
    rw [lexeme_eq hc (.inr hseam), kind_eq_of_not_seam hc hseam]
    split
    all_goals first | rfl | simp_all

theorem suffixes_succ (ih : P.At fuel) {t t' : TypeExpr}
    (hfuel : 4 * n < fuel + 1 ∧ 4 * n' < fuel') (ht : t.Alike L t') (hc : P.near n n' c c') :
    P.Reads (TypeExpr.Alike L) n n' (Reader.suffixes (fuel + 1) t c)
      (Reader.suffixes fuel' t' c') := by
  obtain ⟨fuel', rfl⟩ := Nat.exists_eq_add_one.2 (show 0 < fuel' by omega)
  simp only [Reader.suffixes]
  split
  · next hk =>
    rw [kind_eq hc hk rfl]
    refine opener hc (by rw [hk]; rfl) (.stopped ht) fun d d' _ _ hd => ?_
    have hclose := closes_iff hd (.inr rfl)
    split
    · next hk =>
      obtain hd | hd := hd
      · rw [if_pos (kind_eq hd hk rfl)]
        exact stop _ hd (.stopped ht) fun _ => rfl
      · exact absurd hk (P.hole_ne hd (.inr rfl)).1
    · next hk =>
      rw [if_neg fun h => hk (hclose.1 h).1]
      have hpos := starts_pos hd
      refine (ih.inner (by omega) hd).andThen (fun he hwhy => .array ht hpos he hwhy)
        fun e e' d d' he hd => ?_
      refine pass hd rfl (by decide) rfl (fun hwhy => .array ht hpos he hwhy) fun d d' _ _ hd => ?_
      exact (ih.suffixes (by omega) (by exact .array ht hpos he rfl) hd).mono (by omega)
        (by omega)
  · next hk =>
    rw [kind_eq hc hk rfl]
    refine next hc (.inl (by rw [hk]; rfl)) (by rw [hk]; rfl) (.stopped ht) fun d d' _ _ hd => ?_
    exact (ih.suffixes (by omega) (.pointer ht) hd).mono (by omega) (by omega)
  · next hbracket hstar =>
    split
    · next hk => exact absurd hk (kind_ne hc hbracket rfl (by decide))
    · next hk => exact absurd hk (kind_ne hc hstar rfl (by decide))
    · exact done ht hc

end At

theorem reads_at (fuel : Nat) : P.At fuel := by
  induction fuel with
  | zero => exact at_zero
  | succ fuel ih =>
      exact {
        expr := fun minPrec _ _ _ _ _ => ih.expr_succ minPrec
        operand := ih.operand_succ
        named := ih.named_succ
        assignment := ih.assignment_succ
        args := ih.args_succ
        elements := ih.elements_succ
        castSuffix := ih.castSuffix_succ
        operators := fun minPrec _ _ _ _ _ _ _ => ih.operators_succ minPrec
        type := ih.type_succ
        suffixes := ih.suffixes_succ }

/-! ## Declarations -/

open Outcome.Alike (done)
open Reads (next opener stop pass)

variable {fuel fuel' : Nat}

theorem declBody {exported exported' : Option Position}
    (hexported : Option.Rel (Position.Alike L) exported exported')
    (hfuel : 4 * n < fuel ∧ 4 * n' < fuel') (hc : P.near n n' c c') :
    P.Reads (Decl.Alike L) (n - 1) (n' - 1) (Reader.declBody fuel exported c)
      (Reader.declBody fuel' exported' c') := by
  unfold Reader.declBody
  dsimp only
  split
  · next name hl =>
    have hk := At.border_of_lexeme hl rfl
    rw [lexeme_eq hc (.inl hk), hl]
    refine next hc (.inl hk) (At.opener_of_lexeme hl rfl)
      (fun hwhy => ⟨hexported, ⟨rfl, P.pos hc⟩, hwhy, .missingType hwhy⟩) fun d d' _ _ hd => ?_
    refine pass hd rfl (by decide) rfl
      (fun hwhy => ⟨hexported, ⟨rfl, P.pos hc⟩, hwhy, .missingType hwhy⟩)
      fun d d' _ _ hd => ?_
    exact (((reads_at fuel).type (by omega) hd).mono (by omega) (by omega)).map
      fun ht => ⟨hexported, ⟨rfl, P.pos hc⟩, rfl, ht⟩
  · have hcut : ∀ {why why'}, L.error why why' →
        Decl.Alike L ⟨exported, .error why, .error why, .missing why⟩
          ⟨exported', .error why', .error why', .missing why'⟩ :=
      fun hwhy => ⟨hexported, hwhy, hwhy, .missingType hwhy⟩
    refine stop _ hc hcut fun hseam => ?_
    rw [lexeme_eq hc (.inr hseam), kind_eq_of_not_seam hc hseam]
    split
    all_goals first | rfl | simp_all

theorem decl (hfuel : 4 * n < fuel ∧ 4 * n' < fuel') (hc : P.near n n' c c') :
    P.Reads (Decl.Alike L) (n - 1) (n' - 1) (Reader.decl fuel c) (Reader.decl fuel' c') := by
  unfold Reader.decl
  split
  · next hk =>
    rw [if_pos (kind_eq hc hk rfl)]
    refine next hc (.inl (by rw [hk]; rfl)) (by rw [hk]; rfl)
      (fun hwhy => ⟨.some (P.pos hc), hwhy, hwhy, .missingType hwhy⟩) fun d d' _ _ hd => ?_
    exact (declBody (.some (P.pos hc)) (by omega) hd).mono (by omega) (by omega)
  · next hk =>
    rw [if_neg (kind_ne hc hk rfl (by decide))]
    exact declBody .none hfuel hc

/-- Declarations are separated by commas, so that no comma of theirs may open a hole. -/
theorem decls (hhole : ∀ n n' c c', ¬P.hole n n' c c') (fuel : Nat)
    (hfuel : 4 * n + 1 < fuel ∧ 4 * n' + 1 < fuel') (hc : P.near n n' c c') :
    P.Reads (List.Forall₂ (Decl.Alike L)) n n' (Reader.decls fuel c) (Reader.decls fuel' c') := by
  induction fuel generalizing fuel' n n' c c' with
  | zero => omega
  | succ fuel ih =>
      obtain ⟨fuel', rfl⟩ := Nat.exists_eq_add_one.2 (show 0 < fuel' by omega)
      unfold Reader.decls
      refine (decl (by omega) hc).andThen (fun hd _ => .cons hd .nil) fun d d' c c' hd hc => ?_
      split
      · next hk =>
        rw [if_pos (kind_eq hc hk rfl)]
        refine opener hc (by rw [hk]; rfl)
          (fun hwhy => .cons hd (.cons ⟨.none, hwhy, hwhy, .missingType hwhy⟩ .nil))
          fun c c' _ _ hc => ?_
        obtain hc | hc := hc
        · exact ((ih (by omega) hc).mono (by omega) (by omega)).map (.cons hd)
        · exact absurd hc (hhole _ _ _ _)
      · next hk =>
        rw [if_neg (kind_ne hc hk rfl (by decide))]
        exact done (.cons hd .nil) (P.mono hc (by omega) (by omega))

theorem declList? (hhole : ∀ n n' c c', ¬P.hole n n' c c') (hc : P.near n n' c c') :
    (Reader.declList? c).Alike L P.seam P.Along (Option.Rel (DeclList.Alike L))
      (Reader.declList? c') := by
  unfold Reader.declList?
  split
  · next hk =>
    rw [if_pos (kind_eq hc hk rfl)]
    unfold Reader.declList
    refine Outcome.Alike.map (next hc (.inl (by rw [hk]; rfl)) (by rw [hk]; rfl)
      (fun hwhy => ⟨hwhy, .nil⟩) fun d d' _ _ hd => ?_) .some
    obtain ⟨m, m', hd, hfuel⟩ := P.budget hd
    exact ((decls hhole _ (by omega) hd).imp fun h => ⟨m, m', h⟩).map fun hds => ⟨rfl, hds⟩
  · next hk =>
    rw [if_neg (kind_ne hc hk rfl (by decide))]
    exact done .none ⟨n, n', hc⟩

/-! ## Statements -/

theorem statements (hseam : ¬P.seam) (fuel : Nat)
    (hfuel : 4 * n + 1 < fuel ∧ 4 * n' + 1 < fuel') (hc : P.near n n' c c') :
    P.Reads (Block.Alike L) n n' (Reader.statements fuel c) (Reader.statements fuel' c') := by
  have hcut : ∀ {why why'}, L.error why why' →
      Block.Alike L ⟨[], .error why⟩ ⟨[], .error why'⟩ := fun hwhy => ⟨.nil, hwhy⟩
  induction fuel generalizing fuel' n n' c c' with
  | zero => omega
  | succ fuel ih =>
      obtain ⟨fuel', rfl⟩ := Nat.exists_eq_add_one.2 (show 0 < fuel' by omega)
      have hlexeme := lexeme_eq hc (.inr hseam)
      have hkind := kind_eq_of_not_seam hc hseam
      unfold Reader.statements
      split
      · next hl =>
        rw [hlexeme, hl]
        exact done ⟨.nil, rfl⟩ hc
      · next name hl =>
        obtain ⟨hn, hn', -⟩ := P.step hc (.inl (At.border_of_lexeme hl rfl))
        have hid : Ident.Alike L ⟨name, c.pos⟩ ⟨name, c'.pos⟩ := ⟨rfl, P.pos hc⟩
        rw [hlexeme, hl]
        refine ((reads_at fuel).named (by omega) hid hc (congrArg Lexeme.kind hl)).andThen
          (fun he hwhy => ⟨.cons he .nil, hwhy⟩) fun e e' d d' he hd => ?_
        exact ((ih (by omega) hd).mono (by omega) (by omega)).map
          fun hb => ⟨.cons he hb.statements, hb.close⟩
      · next hl =>
        rw [hlexeme, hl]
        exact stop _ hc hcut fun _ => rfl
      · refine stop _ hc hcut fun _ => ?_
        rw [hlexeme, hkind]
        split
        all_goals first | rfl | simp_all

end Lockstep

/-! ## Programs -/

namespace Reader

/-- What it takes to read a statement and those behind it. -/
theorem statement_done {x : Outcome Expr} {next : Cursor → Outcome Block} {b : Block}
    {rest : Cursor} (h : (x.andThen (fun e why => ⟨[e], .error why⟩) fun e d =>
      (next d).map fun b => { b with statements := e :: b.statements }) = .done b rest) :
    ∃ e b' d, x = .done e d ∧ next d = .done b' rest ∧
      b = { b' with statements := e :: b'.statements } := by
  cases x with
  | stopped e why d => cases h
  | done e d =>
      simp only [Outcome.andThen] at h
      cases hnext : next d with
      | stopped b' why d' => rw [hnext] at h; cases h
      | done b' rest' =>
          rw [hnext] at h
          cases h
          exact ⟨e, b', d, rfl, hnext, rfl⟩

theorem statements_rest {c : Cursor} {b : Block} {rest : Cursor} (fuel : Nat)
    (h : statements fuel c = .done b rest) : rest.current.lexeme = .keyword .endWord := by
  induction fuel generalizing c b with
  | zero => cases h
  | succ fuel ih =>
      unfold statements at h
      split at h
      · next hl =>
        cases h
        exact hl
      · obtain ⟨e, b', d, -, hd, -⟩ := statement_done h
        exact ih hd
      · cases h
      · cases h

/-- What is left of a program behind its declarations, from its block on. -/
def programTail (gs ls : Option DeclList) (x : Outcome Block) : Outcome Program :=
  x.andThen (fun b why => ⟨gs, .ok (), ls, b, .error why⟩) fun b c =>
  c.step (fun why => ⟨gs, .ok (), ls, b, .error why⟩) fun c =>
  c.expect .eof (fun why => ⟨gs, .ok (), ls, b, .error why⟩)
    (.done ⟨gs, .ok (), ls, b, .ok ()⟩ c)

end Reader

namespace Lockstep

open Reader

variable {L : Likeness} {P : Lockstep L} {n n' : Nat} {c c' : Cursor}
  {gs gs' ls ls' : Option DeclList}

theorem tail (hseam : ¬P.seam) (hgs : Option.Rel (DeclList.Alike L) gs gs')
    (hls : Option.Rel (DeclList.Alike L) ls ls') (hc : P.near n n' c c') :
    (programTail gs ls (block c)).Alike L P.seam P.Along (Program.Alike L)
      (programTail gs' ls' (block c')) := by
  have hcut : ∀ {b b' : Block} {why why'}, b.Alike L b' → L.error why why' →
      Program.Alike L ⟨gs, .ok (), ls, b, .error why⟩ ⟨gs', .ok (), ls', b', .error why'⟩ :=
    fun hb hwhy => ⟨hgs, rfl, hls, hb, hwhy⟩
  obtain ⟨m, m', hc, hfuel⟩ := P.budget hc
  have hblock : P.Reads (Block.Alike L) m m' (block c) (block c') :=
    statements hseam _ (by omega) hc
  refine (hblock.and_rest (statements_rest _)).andThen hcut fun b b' d d' hb hd => ?_
  have hkind : d.kind = .keyword .endWord := congrArg Lexeme.kind hd.2
  refine Reads.next hd.1 (.inr ⟨hseam, by simp [hkind]⟩) (by rw [hkind]; rfl) (hcut hb)
    fun d d' _ _ hd => ?_
  exact Reads.expect hd (.inr hseam) (hcut hb) fun _ => .done ⟨hgs, rfl, hls, hb, rfl⟩ ⟨_, _, hd⟩

theorem program (hseam : ¬P.seam) (hhole : ∀ n n' c c', ¬P.hole n n' c c')
    (hc : P.near n n' c c') :
    (Reader.program c).Alike L P.seam P.Along (Program.Alike L) (Reader.program c') := by
  have hcut : ∀ {gs gs' : Option DeclList} {why why'}, Option.Rel (DeclList.Alike L) gs gs' →
      L.error why why' → Program.Alike L ⟨gs, .error why, none, ⟨[], .error why⟩, .error why⟩
        ⟨gs', .error why', none, ⟨[], .error why'⟩, .error why'⟩ :=
    fun hgs hwhy => ⟨hgs, hwhy, .none, ⟨.nil, hwhy⟩, hwhy⟩
  refine (declList? hhole hc).andThen hcut fun gs gs' d d' hgs ⟨m, m', hd⟩ => ?_
  refine Reads.expect hd (.inr hseam) (hcut hgs) fun hkind => ?_
  refine Reads.next hd (.inr ⟨hseam, by simp [hkind]⟩) (by rw [hkind]; rfl) (hcut hgs)
    fun d d' _ _ hd => ?_
  refine (declList? hhole hd).andThen (fun hls hwhy => ⟨hgs, rfl, hls, ⟨.nil, hwhy⟩, hwhy⟩)
    fun ls ls' d d' hls ⟨m, m', hd⟩ => ?_
  exact tail hseam hgs hls hd

end Lockstep

end Tern
