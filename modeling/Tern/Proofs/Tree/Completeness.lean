import Tern.Proofs.Tree.Soundness

/-!
# Reading finds every derivable phrase

The grammar is ambiguous: in `x := a + b` the operator may belong to the value or to the
assignment as a whole, and so may a cast.  Reading gives all it can to the innermost expression.
What was derived as the rest of outer expressions then goes to inner ones, and what is left is
still a rest of the outer ones, which is what the induction carries.
-/

namespace Tern

namespace Grammar

/-- From `r` on, `n` expressions that have their first operand each go on with a cast and a chain
of operators, the innermost first, up to `s`. -/
def Tails : Nat → List Kind → List Kind → Prop
  | 0, r, s => r = s
  | n + 1, r, s => ∃ ks ks', Derives .cast r ks ∧ Derives .chain ks ks' ∧ Tails n ks' s

/-- As `Tails`, but the innermost of all has its cast behind it. -/
def Chains (n : Nat) (r s : List Kind) : Prop := ∃ ks, Derives .chain r ks ∧ Tails n ks s

/-- The kinds of tokens that end every open expression. -/
def isCloser : Kind → Bool
  | .identifier | .keyword .endWord | .symbol .rparen | .symbol .rbracket | .symbol .comma => true
  | _ => false

def Closes (s : List Kind) : Prop := ∃ k r, s = k :: r ∧ isCloser k = true

/-- No operator follows that binds at least as tightly as `minPrec`. -/
def Stops (minPrec : Nat) (r : List Kind) : Prop :=
  ∀ k op, r.head? = some k → k.binaryOp? = some op → op.precedence < minPrec

variable {n : Nat} {k : Kind} {ks r s : List Kind}

theorem isCloser.binaryOp? (h : isCloser k = true) : k.binaryOp? = none := by
  unfold isCloser at h
  split at h <;> first | rfl | cases h

theorem Tails.succ (h : Tails n r s) : Tails (n + 1) r s := ⟨r, r, .noCast, .noChain, h⟩

theorem Chains.succ (h : Chains n r s) : Chains (n + 1) r s := by
  obtain ⟨ks, hchain, h⟩ := h
  exact ⟨ks, hchain, h.succ⟩

theorem Derives.eq_of_chain (h : Derives .chain (k :: ks) r) (hk : k.binaryOp? = none) :
    r = k :: ks := by
  cases h with
  | noChain => rfl
  | chain hop => simp [hk] at hop

theorem Chains.tails (h : Chains n (k :: ks) s) (hk : k.binaryOp? = none) :
    Tails n (k :: ks) s := by
  obtain ⟨r, hchain, h⟩ := h
  rwa [hchain.eq_of_chain hk] at h

theorem Tails.chains (h : Tails (n + 1) (k :: ks) s) (hk : k ≠ .keyword .asWord) :
    Chains n (k :: ks) s := by
  obtain ⟨m, m', hcast, hchain, h⟩ := h
  cases hcast with
  | noCast => exact ⟨m', hchain, h⟩
  | cast => exact absurd rfl hk

/-- What follows an open operand is a cast, an operator or the end of the expression. -/
theorem Tails.head (h : Tails n (k :: ks) s) (hs : Closes s) :
    k = .keyword .asWord ∨ k.binaryOp?.isSome = true ∨ isCloser k = true := by
  induction n with
  | zero =>
      obtain ⟨k', r', rfl, hk⟩ := hs
      cases h
      exact .inr (.inr hk)
  | succ n ih =>
      obtain ⟨m, m', hcast, hchain, h⟩ := h
      cases hcast with
      | cast => exact .inl rfl
      | noCast =>
          cases hchain with
          | noChain => exact ih h
          | chain hop => exact .inr (.inl hop)

theorem Tails.length_le (h : Tails n r s) : s.length ≤ r.length := by
  induction n generalizing r with
  | zero =>
      cases h
      exact Nat.le_refl _
  | succ n ih =>
      obtain ⟨m, m', hcast, hchain, h⟩ := h
      exact Nat.le_trans (ih h) (Nat.le_trans hchain.length_le hcast.length_le)

theorem Tails.exists_cons (h : Tails n r s) (hs : Closes s) : ∃ k ks, r = k :: ks := by
  obtain ⟨k, s, rfl, -⟩ := hs
  cases r with
  | nil => exact absurd h.length_le (Nat.not_succ_le_zero _)
  | cons k r => exact ⟨k, r, rfl⟩

/-- A cast that follows belongs to some open expression; the expressions inside that one go on
no further. -/
theorem Tails.cast (h : Tails (n + 1) (.keyword .asWord :: ks) s) (hs : Closes s) :
    ∃ r, Derives .type ks r ∧ Chains n r s := by
  induction n with
  | zero =>
      obtain ⟨m, m', hcast, hchain, h⟩ := h
      cases hcast with
      | cast htype => exact ⟨m, htype, m', hchain, h⟩
      | noCast =>
          obtain ⟨k, r, rfl, hk⟩ := hs
          cases hchain.eq_of_chain rfl
          cases h
          cases hk
  | succ n ih =>
      obtain ⟨m, m', hcast, hchain, h⟩ := h
      cases hcast with
      | cast htype => exact ⟨m, htype, m', hchain, h⟩
      | noCast =>
          cases hchain.eq_of_chain rfl
          obtain ⟨r, htype, h⟩ := ih h
          exact ⟨r, htype, h.succ⟩

theorem Chains.expr {op : BinaryOp} (h : Chains n (k :: ks) s) (hs : Closes s)
    (hk : k.binaryOp? = some op) : ∃ r, Derives .expr ks r ∧ Tails n r s := by
  induction n with
  | zero =>
      obtain ⟨m, hchain, h⟩ := h
      cases hchain with
      | chain _ hunary hcast hchain => exact ⟨m, .expr hunary hcast hchain, h⟩
      | noChain =>
          obtain ⟨k', r, rfl, hk'⟩ := hs
          cases h
          rw [isCloser.binaryOp? hk'] at hk
          cases hk
  | succ n ih =>
      obtain ⟨m, hchain, h⟩ := h
      cases hchain with
      | chain _ hunary hcast hchain => exact ⟨m, .expr hunary hcast hchain, h⟩
      | noChain =>
          have hne : k ≠ .keyword .asWord := by
            rintro rfl
            cases hk
          obtain ⟨r, hexpr, h⟩ := ih (h.chains hne)
          exact ⟨r, hexpr, h.succ⟩

theorem Stops.binaryOp? (h : Stops 0 (k :: ks)) : k.binaryOp? = none := by
  cases hop : k.binaryOp? with
  | none => rfl
  | some op => exact absurd (h k op rfl hop) (Nat.not_lt_zero _)

theorem Derives.unary_head (h : Derives .unary (k :: ks) r) :
    k ≠ .symbol .rparen ∧ k ≠ .symbol .rbracket := by
  cases h with
  | unary hop =>
      constructor
      · rintro rfl
        cases hop
      · rintro rfl
        cases hop
  | primary h => cases h <;> simp

theorem Derives.expr_head (h : Derives .expr (k :: ks) r) :
    k ≠ .symbol .rparen ∧ k ≠ .symbol .rbracket := by
  cases h with
  | expr hunary => exact hunary.unary_head

theorem Derives.argList_head (h : Derives .argList (k :: ks) r) : k ≠ .symbol .rparen := by
  cases h with
  | lastArg h => exact h.expr_head.1
  | moreArgs h => exact h.expr_head.1

theorem Derives.indexes_head (h : Derives .indexes ks r) :
    ∃ ks', ks = .symbol .lbracket :: ks' := by
  cases h with
  | lastIndex | moreIndexes => exact ⟨_, rfl⟩

end Grammar

open Grammar

namespace Lexeme

variable {l : Lexeme}

theorem eq_symbol {x : Symbol} (h : l.kind = .symbol x) : l = .symbol x := by
  cases l <;> cases h
  rfl

theorem eq_keyword {x : Keyword} (h : l.kind = .keyword x) : l = .keyword x := by
  cases l <;> cases h
  rfl

theorem eq_identifier (h : l.kind = .identifier) : ∃ name, l = .identifier name := by
  cases l <;> cases h
  exact ⟨_, rfl⟩

theorem eq_integer (h : l.kind = .integer) : ∃ digits suffix, l = .integer digits suffix := by
  cases l <;> cases h
  exact ⟨_, _, rfl⟩

theorem eq_char (h : l.kind = .char) : ∃ value, l = .char value := by
  cases l <;> cases h
  exact ⟨_, rfl⟩

end Lexeme

/-! ## Phrases -/

/-- The phrase is read to its end and leaves what `D` allows. -/
def Outcome.Finishes {α : Type} (D : List Kind → Prop) : Outcome α → Prop
  | .done _ rest => ∃ r, rest.Offers r ∧ D r
  | .stopped .. => False

namespace Outcome.Finishes

variable {α β : Type} {D F : List Kind → Prop} {c : Cursor} {k : Kind} {ks : List Kind}

theorem andThen {x : Outcome α} {cut : α → CompileError → β} {next : α → Cursor → Outcome β}
    (hx : x.Finishes D) (hnext : ∀ tree c r, c.Offers r → D r → (next tree c).Finishes F) :
    (x.andThen cut next).Finishes F := by
  cases x with
  | done tree rest =>
      obtain ⟨r, hr, hD⟩ := hx
      exact hnext tree rest r hr hD
  | stopped => exact hx.elim

theorem map {x : Outcome α} {f : α → β} (hx : x.Finishes D) (hF : ∀ r, D r → F r) :
    (x.map f).Finishes F := by
  cases x with
  | done tree rest =>
      obtain ⟨r, hr, hD⟩ := hx
      exact ⟨r, hr, hF r hD⟩
  | stopped => exact hx.elim

theorem mono {x : Outcome α} (hx : x.Finishes D) (hF : ∀ r, D r → F r) : x.Finishes F := by
  cases x with
  | done tree rest =>
      obtain ⟨r, hr, hD⟩ := hx
      exact ⟨r, hr, hF r hD⟩
  | stopped => exact hx.elim

theorem step {cut : CompileError → α} {next : Cursor → Outcome α} (hc : c.Offers (k :: ks))
    (hk : k ≠ .eof) (hnext : ∀ c', c'.Offers ks → (next c').Finishes D) :
    (c.step cut next).Finishes D := by
  obtain ⟨c', hc', hstep⟩ := Cursor.Spells.step hc (hc.ne_eof hk)
  rw [hstep]
  exact hnext c' hc'

theorem pass {cut : CompileError → α} {next : Cursor → Outcome α} (hc : c.Offers (k :: ks))
    (hk : k ≠ .eof) (hnext : ∀ c', c'.Offers ks → (next c').Finishes D) :
    (c.pass k cut next).Finishes D := by
  rw [Cursor.pass, Cursor.expect, if_pos hc.kind_eq]
  exact step hc hk hnext

end Outcome.Finishes

namespace Reader

/-- With `fuel` to spend, every derivable phrase of an expression that is not too long for it is
read to its end.  Expressions may take more than was derived, but not what the expressions around
them need. -/
structure CompleteAt (fuel : Nat) : Prop where
  expr : ∀ minPrec {c : Cursor} {ks r s : List Kind} {n : Nat}, 4 * ks.length + 2 ≤ fuel →
    c.Offers ks → Derives .expr ks r → Tails n r s → Closes s →
    (Reader.expr fuel minPrec c).Finishes fun r' =>
      r'.length < ks.length ∧ Chains n r' s ∧ Stops minPrec r'
  operand : ∀ {c : Cursor} {ks r s : List Kind} {n : Nat}, 4 * ks.length + 1 ≤ fuel →
    c.Offers ks → Derives .unary ks r → Tails n r s → Closes s →
    (Reader.operand fuel c).Finishes fun r' => r'.length < ks.length ∧ Tails n r' s
  named : ∀ id {c : Cursor} {ks r s : List Kind} {n : Nat}, 4 * (ks.length + 1) ≤ fuel →
    c.Offers (.identifier :: ks) → Derives .primary (.identifier :: ks) r → Tails n r s →
    Closes s →
    (Reader.named fuel id c).Finishes fun r' => r'.length ≤ ks.length ∧ Tails n r' s
  assignment : ∀ p {c : Cursor} {ks r s : List Kind} {n : Nat}, 4 * (ks.length + 1) ≤ fuel →
    c.Offers (.symbol .assign :: ks) → Derives .expr ks r → Tails n r s → Closes s →
    (Reader.assignment fuel p c).Finishes fun r' => r'.length < ks.length ∧ Tails n r' s
  args : ∀ {c : Cursor} {ks r : List Kind}, 4 * ks.length + 3 ≤ fuel → c.Offers ks →
    Derives .argList ks r → (Reader.args fuel c).Finishes (· = r)
  elements : ∀ p {c : Cursor} {ks r : List Kind}, 4 * ks.length ≤ fuel → c.Offers ks →
    (ks = r ∨ Derives .indexes ks r) → r.head? ≠ some (.symbol .lbracket) →
    (Reader.elements fuel p c).Finishes (· = r)
  castSuffix : ∀ e {c : Cursor} {ks s : List Kind} {n : Nat}, 4 * ks.length ≤ fuel →
    c.Offers ks → Tails (n + 1) ks s → Closes s →
    (Reader.castSuffix fuel e c).Finishes fun r' => r'.length ≤ ks.length ∧ Chains n r' s
  operators : ∀ minPrec e {c : Cursor} {ks s : List Kind} {n : Nat}, 4 * ks.length ≤ fuel →
    c.Offers ks → Chains n ks s → Closes s →
    (Reader.operators fuel minPrec e c).Finishes fun r' =>
      r'.length ≤ ks.length ∧ Chains n r' s ∧ Stops minPrec r'
  type : ∀ {c : Cursor} {ks r : List Kind}, 4 * ks.length ≤ fuel → c.Offers ks →
    Derives .type ks r → (Reader.type fuel c).Finishes (· = r)
  suffixes : ∀ t {c : Cursor} {ks r : List Kind}, 4 * ks.length ≤ fuel → c.Offers ks →
    Derives .suffixes ks r → (Reader.suffixes fuel t c).Finishes (· = r)

variable {fuel n : Nat} {c : Cursor} {ks r s : List Kind}

theorem length_pos (hc : c.Offers ks) : 0 < ks.length := by
  obtain ⟨ks, rfl⟩ := hc.eq_cons
  exact Nat.succ_pos _

theorem completeAt_zero : CompleteAt 0 where
  expr _ _ _ _ _ _ h := by omega
  operand h := by omega
  named _ _ _ _ _ _ h := by omega
  assignment _ _ _ _ _ _ h := by omega
  args h := by omega
  elements _ _ _ _ h hc := absurd (length_pos hc) (by omega)
  castSuffix _ _ _ _ _ h hc := absurd (length_pos hc) (by omega)
  operators _ _ _ _ _ _ h hc := absurd (length_pos hc) (by omega)
  type h hc := absurd (length_pos hc) (by omega)
  suffixes _ _ _ _ h hc := absurd (length_pos hc) (by omega)

namespace CompleteAt

theorem closed (ih : CompleteAt fuel) (hfuel : 4 * ks.length + 2 ≤ fuel) (hc : c.Offers ks)
    (h : Derives .expr ks r) (hr : Closes r) : (Reader.expr fuel 0 c).Finishes (· = r) := by
  cases hx : Reader.expr fuel 0 c with
  | stopped => exact (hx ▸ ih.expr (n := 0) 0 hfuel hc h rfl hr).elim
  | done e rest =>
      obtain ⟨r', hr', -, hchains, hstops⟩ := hx ▸ ih.expr (n := 0) 0 hfuel hc h rfl hr
      obtain ⟨r'', rfl⟩ := hr'.eq_cons
      exact ⟨_, hr', hchains.tails hstops.binaryOp?⟩

theorem expr_succ (ih : CompleteAt fuel) (minPrec : Nat) (hfuel : 4 * ks.length + 2 ≤ fuel + 1)
    (hc : c.Offers ks) (h : Derives .expr ks r) (htails : Tails n r s) (hs : Closes s) :
    (Reader.expr (fuel + 1) minPrec c).Finishes fun r' =>
      r'.length < ks.length ∧ Chains n r' s ∧ Stops minPrec r' := by
  simp only [Reader.expr]
  cases h with
  | expr hunary hcast hchain =>
      have htails' : Tails (n + 1) _ s := ⟨_, _, hcast, hchain, htails⟩
      refine (ih.operand (by omega) hc hunary htails' hs).andThen fun e c r hc hr => ?_
      refine (ih.castSuffix e (by omega) hc hr.2 hs).andThen fun e c r' hc hr' => ?_
      refine (ih.operators minPrec e (by omega) hc hr'.2 hs).mono fun r'' hr'' => ?_
      exact ⟨by omega, hr''.2⟩

theorem operand_succ (ih : CompleteAt fuel) (hfuel : 4 * ks.length + 1 ≤ fuel + 1)
    (hc : c.Offers ks) (h : Derives .unary ks r) (htails : Tails n r s) (hs : Closes s) :
    (Reader.operand (fuel + 1) c).Finishes fun r' => r'.length < ks.length ∧ Tails n r' s := by
  simp only [Reader.operand]
  cases h with
  | @unary k ks _ hop h =>
      have hsymbol : k = .symbol .amp ∨ k = .symbol .minus := by
        unfold Kind.isUnary Symbol.isUnary at hop
        grind
      simp only [List.length_cons] at hfuel
      rcases hsymbol with rfl | rfl
      · rw [Lexeme.eq_symbol hc.kind_eq]
        refine .step hc (by decide) fun c' hc => ?_
        exact (ih.operand (by omega) hc h htails hs).map fun r' hr' =>
          ⟨Nat.lt_succ_of_lt hr'.1, hr'.2⟩
      · rw [Lexeme.eq_symbol hc.kind_eq]
        refine .step hc (by decide) fun c' hc => ?_
        exact (ih.operand (by omega) hc h htails hs).map fun r' hr' =>
          ⟨Nat.lt_succ_of_lt hr'.1, hr'.2⟩
  | primary h =>
      have hlt := h.length_lt rfl
      have hprimary := h
      cases h with
      | integer =>
          obtain ⟨digits, suffix, hl⟩ := Lexeme.eq_integer hc.kind_eq
          rw [hl]
          exact .step hc (by decide) fun c' hc => ⟨r, hc, hlt, htails⟩
      | char =>
          obtain ⟨value, hl⟩ := Lexeme.eq_char hc.kind_eq
          rw [hl]
          exact .step hc (by decide) fun c' hc => ⟨r, hc, hlt, htails⟩
      | paren hexpr =>
          simp only [List.length_cons] at hfuel
          rw [Lexeme.eq_symbol hc.kind_eq]
          refine .step hc (by decide) fun c' hc => ?_
          refine (ih.closed (by omega) hc hexpr ⟨_, _, rfl, rfl⟩).andThen fun e c'' r' hc hr => ?_
          subst hr
          exact .pass hc (by decide) fun c' hc => ⟨r, hc, hlt, htails⟩
      | name | assign | call | element | assignElement =>
          obtain ⟨name, hl⟩ := Lexeme.eq_identifier hc.kind_eq
          rw [hl]
          refine (ih.named _ (Nat.le_of_succ_le_succ hfuel) hc hprimary htails hs).mono
            fun r' hr' => ⟨?_, hr'.2⟩
          exact Nat.lt_succ_of_le hr'.1

theorem named_succ (ih : CompleteAt fuel) (id : Ident) (hfuel : 4 * (ks.length + 1) ≤ fuel + 1)
    (hc : c.Offers (.identifier :: ks)) (h : Derives .primary (.identifier :: ks) r)
    (htails : Tails n r s) (hs : Closes s) :
    (Reader.named (fuel + 1) id c).Finishes fun r' => r'.length ≤ ks.length ∧ Tails n r' s := by
  have hlt := h.length_lt rfl
  simp only [List.length_cons] at hlt
  have hr : r.length ≤ ks.length := by omega
  simp only [Reader.named]
  refine .step hc (by decide) fun c hc => ?_
  cases h with
  | name =>
      obtain ⟨r, rfl⟩ := hc.eq_cons
      have hhead := htails.head hs
      split
      · next hk =>
        rw [hk] at hhead
        exact absurd hhead (by decide)
      · next hk =>
        rw [hk] at hhead
        exact absurd hhead (by decide)
      · next hk =>
        rw [hk] at hhead
        exact absurd hhead (by decide)
      · exact ⟨_, hc, hr, htails⟩
  | assign h =>
      simp only [List.length_cons] at hfuel
      simp only [hc.kind_eq]
      refine (ih.assignment _ (by omega) hc h htails hs).mono fun r' hr' => ⟨?_, hr'.2⟩
      exact Nat.le_of_lt (Nat.lt_succ_of_lt hr'.1)
  | call h =>
      cases h with
      | noArgs =>
          simp only [hc.kind_eq]
          refine .step hc (by decide) fun c hc => ?_
          rw [if_pos hc.kind_eq]
          exact .step hc (by decide) fun c hc => ⟨r, hc, hr, htails⟩
      | args h =>
          simp only [List.length_cons] at hfuel
          simp only [hc.kind_eq]
          refine .step hc (by decide) fun c hc => ?_
          obtain ⟨ks, rfl⟩ := hc.eq_cons
          rw [if_neg h.argList_head]
          refine (ih.args (by omega) hc h).map fun r' hr' => ?_
          exact hr' ▸ ⟨hr, htails⟩
  | element h =>
      obtain ⟨ks', rfl⟩ := h.indexes_head
      obtain ⟨k, r, rfl⟩ := htails.exists_cons hs
      have hhead := htails.head hs
      have hbracket : k ≠ .symbol .lbracket := by
        rintro rfl
        exact absurd hhead (by decide)
      have hassign : k ≠ .symbol .assign := by
        rintro rfl
        exact absurd hhead (by decide)
      simp only [hc.kind_eq]
      refine (ih.elements _ (by omega) hc (.inr h) (by simpa using hbracket)).andThen
        fun p c r' hc hr' => ?_
      subst hr'
      rw [if_neg (hc.kind_eq ▸ hassign)]
      exact ⟨_, hc, hr, htails⟩
  | assignElement h h' =>
      obtain ⟨ks', rfl⟩ := h.indexes_head
      have hlt := h.length_lt rfl
      simp only [List.length_cons] at hfuel hlt
      simp only [hc.kind_eq]
      refine (ih.elements _ (by simp only [List.length_cons]; omega) hc (.inr h) (by simp)).andThen
        fun p c r' hc hr' => ?_
      subst hr'
      rw [if_pos hc.kind_eq]
      refine (ih.assignment _ (by omega) hc h' htails hs).mono fun r' hr' => ⟨?_, hr'.2⟩
      simp only [List.length_cons]
      omega

theorem assignment_succ (ih : CompleteAt fuel) (p : Place) (hfuel : 4 * (ks.length + 1) ≤ fuel + 1)
    (hc : c.Offers (.symbol .assign :: ks)) (h : Derives .expr ks r) (htails : Tails n r s)
    (hs : Closes s) :
    (Reader.assignment (fuel + 1) p c).Finishes fun r' =>
      r'.length < ks.length ∧ Tails n r' s := by
  simp only [Reader.assignment]
  refine .step hc (by decide) fun c hc => ?_
  have hexpr := ih.expr 0 (by omega) hc h htails hs
  cases hx : Reader.expr fuel 0 c with
  | stopped => exact (hx ▸ hexpr).elim
  | done e rest =>
      obtain ⟨r', hr', hlt, hchains, hstops⟩ := hx ▸ hexpr
      obtain ⟨r'', rfl⟩ := hr'.eq_cons
      exact ⟨_, hr', hlt, hchains.tails hstops.binaryOp?⟩

theorem args_succ (ih : CompleteAt fuel) (hfuel : 4 * ks.length + 3 ≤ fuel + 1)
    (hc : c.Offers ks) (h : Derives .argList ks r) :
    (Reader.args (fuel + 1) c).Finishes (· = r) := by
  simp only [Reader.args]
  cases h with
  | lastArg h =>
      refine (ih.closed (by omega) hc h ⟨_, _, rfl, rfl⟩).andThen fun e c r' hc hr' => ?_
      subst hr'
      rw [if_neg (by rw [hc.kind_eq]; decide)]
      exact .pass hc (by decide) fun c hc => ⟨r, hc, rfl⟩
  | moreArgs h h' =>
      have hlt := h.length_lt rfl
      simp only [List.length_cons] at hlt
      refine (ih.closed (by omega) hc h ⟨_, _, rfl, rfl⟩).andThen fun e c r' hc hr' => ?_
      subst hr'
      rw [if_pos hc.kind_eq]
      exact .step hc (by decide) fun c hc => (ih.args (by omega) hc h').map fun _ hr => hr

theorem elements_succ (ih : CompleteAt fuel) (p : Place) (hfuel : 4 * ks.length ≤ fuel + 1)
    (hc : c.Offers ks) (h : ks = r ∨ Derives .indexes ks r)
    (hr : r.head? ≠ some (.symbol .lbracket)) :
    (Reader.elements (fuel + 1) p c).Finishes (· = r) := by
  simp only [Reader.elements]
  rcases h with rfl | h
  · obtain ⟨ks, rfl⟩ := hc.eq_cons
    have hne : c.kind ≠ .symbol .lbracket := by simpa using hr
    rw [if_neg hne]
    exact ⟨_, hc, rfl⟩
  · have hread (ks ks' : List Kind) (hks : 4 * (ks.length + 1) ≤ fuel + 1)
        (hc : c.Offers (.symbol .lbracket :: ks))
        (hexpr : Derives .expr ks (.symbol .rbracket :: ks'))
        (h : ks' = r ∨ Derives .indexes ks' r) :
        (Reader.elements (fuel + 1) p c).Finishes (· = r) := by
      have hlt := hexpr.length_lt rfl
      simp only [List.length_cons] at hlt
      simp only [Reader.elements]
      rw [if_pos hc.kind_eq]
      refine .step hc (by decide) fun c' hc => ?_
      refine (ih.closed (by omega) hc hexpr ⟨_, _, rfl, rfl⟩).andThen fun e c'' r' hc hr' => ?_
      subst hr'
      exact .pass hc (by decide) fun c' hc => ih.elements _ (by omega) hc h hr
    simp only [Reader.elements] at hread
    cases h with
    | lastIndex h => exact hread _ _ hfuel hc h (.inl rfl)
    | moreIndexes h h' => exact hread _ _ hfuel hc h (.inr h')

theorem castSuffix_succ (ih : CompleteAt fuel) (e : Expr) (hfuel : 4 * ks.length ≤ fuel + 1)
    (hc : c.Offers ks) (h : Tails (n + 1) ks s) (hs : Closes s) :
    (Reader.castSuffix (fuel + 1) e c).Finishes fun r' =>
      r'.length ≤ ks.length ∧ Chains n r' s := by
  simp only [Reader.castSuffix]
  obtain ⟨ks, rfl⟩ := hc.eq_cons
  split
  · next hk =>
    rw [hk] at hc h
    obtain ⟨r, htype, hchains⟩ := h.cast hs
    have hlt := htype.length_lt rfl
    simp only [List.length_cons] at hfuel
    refine .step hc (by decide) fun c' hc => (ih.type (by omega) hc htype).map fun r' hr' => ?_
    subst hr'
    exact ⟨by simp only [List.length_cons]; omega, hchains⟩
  · next hk => exact ⟨_, hc, Nat.le_refl _, h.chains hk⟩

theorem operators_succ (ih : CompleteAt fuel) (minPrec : Nat) (e : Expr)
    (hfuel : 4 * ks.length ≤ fuel + 1) (hc : c.Offers ks) (h : Chains n ks s) (hs : Closes s) :
    (Reader.operators (fuel + 1) minPrec e c).Finishes fun r' =>
      r'.length ≤ ks.length ∧ Chains n r' s ∧ Stops minPrec r' := by
  simp only [Reader.operators]
  obtain ⟨ks, rfl⟩ := hc.eq_cons
  split
  · next hop =>
    refine ⟨_, hc, Nat.le_refl _, h, fun k op hk hop' => ?_⟩
    cases hk
    rw [hop] at hop'
    cases hop'
  · next op hop =>
    split
    · next hprec =>
      refine ⟨_, hc, Nat.le_refl _, h, fun k op' hk hop' => ?_⟩
      cases hk
      cases hop.symm.trans hop'
      exact hprec
    · have hne : c.kind ≠ .eof := fun heof => by
        rw [heof] at hop
        cases hop
      obtain ⟨r, hexpr, htails⟩ := h.expr hs hop
      simp only [List.length_cons] at hfuel
      refine .step hc hne fun c' hc => ?_
      refine (ih.expr _ (by omega) hc hexpr htails hs).andThen fun e' c'' r' hc hr' => ?_
      refine (ih.operators minPrec _ (by omega) hc hr'.2.1 hs).mono fun r'' hr'' => ⟨?_, hr''.2⟩
      simp only [List.length_cons]
      omega

theorem type_succ (ih : CompleteAt fuel) (hfuel : 4 * ks.length ≤ fuel + 1) (hc : c.Offers ks)
    (h : Derives .type ks r) : (Reader.type (fuel + 1) c).Finishes (· = r) := by
  simp only [Reader.type]
  cases h with
  | type h =>
      obtain ⟨name, hl⟩ := Lexeme.eq_identifier hc.kind_eq
      rw [hl]
      simp only [List.length_cons] at hfuel
      exact .step hc (by decide) fun c' hc => ih.suffixes _ (by omega) hc h

theorem suffixes_succ (ih : CompleteAt fuel) (t : TypeExpr) (hfuel : 4 * ks.length ≤ fuel + 1)
    (hc : c.Offers ks) (h : Derives .suffixes ks r) :
    (Reader.suffixes (fuel + 1) t c).Finishes (· = r) := by
  simp only [Reader.suffixes]
  cases h with
  | noSuffix hbracket hstar =>
      obtain ⟨ks, rfl⟩ := hc.eq_cons
      split
      · next hk => exact absurd (by rw [hk]; rfl) hbracket
      · next hk => exact absurd (by rw [hk]; rfl) hstar
      · exact ⟨_, hc, rfl⟩
  | pointer h =>
      simp only [hc.kind_eq, List.length_cons] at hfuel ⊢
      exact .step hc (by decide) fun c' hc => ih.suffixes _ (by omega) hc h
  | array h h' =>
      have hlt := h.length_lt rfl
      simp only [hc.kind_eq, List.length_cons] at hfuel hlt ⊢
      refine .step hc (by decide) fun c' hc => ?_
      obtain ⟨ks, rfl⟩ := hc.eq_cons
      rw [if_neg h.expr_head.2]
      refine (ih.closed (by omega) hc h ⟨_, _, rfl, rfl⟩).andThen fun e c'' r' hc hr' => ?_
      subst hr'
      exact .pass hc (by decide) fun c' hc => ih.suffixes _ (by omega) hc h'

end CompleteAt

theorem completeAt (fuel : Nat) : CompleteAt fuel := by
  induction fuel with
  | zero => exact completeAt_zero
  | succ fuel ih =>
      exact {
        expr := fun minPrec _ _ _ _ _ => ih.expr_succ minPrec
        operand := ih.operand_succ
        named := fun id _ _ _ _ _ => ih.named_succ id
        assignment := fun p _ _ _ _ _ => ih.assignment_succ p
        args := ih.args_succ
        elements := fun p _ _ _ => ih.elements_succ p
        castSuffix := fun e _ _ _ _ => ih.castSuffix_succ e
        operators := fun minPrec e _ _ _ _ => ih.operators_succ minPrec e
        type := ih.type_succ
        suffixes := fun t _ _ _ => ih.suffixes_succ t }

/-! ## Programs -/

theorem declBody_complete (exported : Option Position) (hfuel : 4 * ks.length ≤ fuel)
    (hc : c.Offers (.identifier :: .symbol .colon :: ks)) (h : Derives .type ks r) :
    (declBody fuel exported c).Finishes (· = r) := by
  unfold declBody
  obtain ⟨name, hl⟩ := Lexeme.eq_identifier hc.kind_eq
  simp only [hl]
  exact .step hc (by decide) fun c hc => .pass hc (by decide) fun c hc =>
    ((completeAt fuel).type hfuel hc h).map fun _ hr => hr

theorem decl_complete (hfuel : 4 * ks.length ≤ fuel) (hc : c.Offers ks)
    (h : Derives .decl ks r) : (decl fuel c).Finishes (· = r) := by
  unfold decl
  cases h with
  | decl h =>
      simp only [List.length_cons] at hfuel
      rw [if_neg (by rw [hc.kind_eq]; decide)]
      exact declBody_complete _ (by omega) hc h
  | exportedDecl h =>
      simp only [List.length_cons] at hfuel
      rw [if_pos hc.kind_eq]
      exact .step hc (by decide) fun c hc => declBody_complete _ (by omega) hc h

/-- A list of declarations is followed by something that is no comma. -/
theorem decls_complete (fuel : Nat) (hfuel : 4 * ks.length < fuel) (hc : c.Offers ks)
    (h : Derives .decls ks r) (hr : r.head? ≠ some (.symbol .comma)) :
    (decls fuel c).Finishes (· = r) := by
  induction fuel generalizing c ks with
  | zero => omega
  | succ fuel ih =>
      unfold decls
      cases h with
      | lastDecl h =>
          refine (decl_complete (by omega) hc h).andThen fun d c r' hc hr' => ?_
          subst hr'
          obtain ⟨r, rfl⟩ := hc.eq_cons
          have hne : c.kind ≠ .symbol .comma := by simpa using hr
          rw [if_neg hne]
          exact ⟨_, hc, rfl⟩
      | moreDecls h h' =>
          have hlt := h.length_lt rfl
          simp only [List.length_cons] at hlt
          refine (decl_complete (by omega) hc h).andThen fun d c r' hc hr' => ?_
          subst hr'
          rw [if_pos hc.kind_eq]
          exact .step hc (by decide) fun c hc => (ih (by omega) hc h').map fun _ hr => hr

theorem declList?_complete (hc : c.Offers ks) (h : Derives .declPart ks r)
    (hvar : r.head? ≠ some (.keyword .varWord)) (hr : r.head? ≠ some (.symbol .comma)) :
    (declList? c).Finishes (· = r) := by
  unfold declList?
  cases h with
  | noDecls =>
      obtain ⟨ks, rfl⟩ := hc.eq_cons
      have hne : c.kind ≠ .keyword .varWord := by simpa using hvar
      rw [if_neg hne]
      exact ⟨_, hc, rfl⟩
  | declPart h =>
      rw [if_pos hc.kind_eq]
      have hlist : (declList c).Finishes (· = r) := by
        refine .step hc (by decide) fun c hc => ?_
        have hbudget := hc.mul_length_le_budget
        have hpos := length_pos hc
        exact (decls_complete _ (by omega) hc h hr).map fun _ hr => hr
      exact hlist.map fun _ hr => hr

theorem stmts_head (h : Derives .stmts ks (.keyword .endWord :: r)) :
    ∃ k ks', ks = k :: ks' ∧ (k = .identifier ∨ k = .keyword .endWord) := by
  cases h with
  | noStmts => exact ⟨_, _, rfl, .inr rfl⟩
  | stmts h => cases h <;> exact ⟨_, _, rfl, .inl rfl⟩

theorem statements_complete (fuel : Nat) (hfuel : 4 * ks.length < fuel) (hc : c.Offers ks)
    (h : Derives .stmts ks (.keyword .endWord :: r)) :
    (statements fuel c).Finishes (· = .keyword .endWord :: r) := by
  induction fuel generalizing c ks with
  | zero => omega
  | succ fuel ih =>
      unfold statements
      cases h with
      | noStmts =>
          rw [Lexeme.eq_keyword hc.kind_eq]
          exact ⟨_, hc, rfl⟩
      | @stmts _ ks' _ h h' =>
          have hlt := h.length_lt rfl
          have hcloses : Closes ks' := by
            obtain ⟨k, ks'', rfl, rfl | rfl⟩ := stmts_head h'
            · exact ⟨_, _, rfl, rfl⟩
            · exact ⟨_, _, rfl, rfl⟩
          obtain ⟨ks, rfl⟩ : ∃ ks', ks = .identifier :: ks' := by
            cases h <;> exact ⟨_, rfl⟩
          obtain ⟨name, hl⟩ := Lexeme.eq_identifier hc.kind_eq
          simp only [hl]
          simp only [List.length_cons] at hfuel hlt
          refine ((completeAt fuel).named (n := 0) _ (by omega) hc h.primary_of_stmt rfl
            hcloses).andThen fun e c r' hc hr' => ?_
          obtain ⟨-, rfl⟩ := hr'
          exact (ih (by omega) hc h').map fun _ hr => hr

theorem program_complete (hc : c.Offers ks) (h : IsProgram ks) :
    (program c).Finishes fun _ => True := by
  cases h with
  | @program _ ks' ks'' hglobals hlocals hbody =>
      unfold program
      refine (declList?_complete hc hglobals (by simp) (by simp)).andThen
        fun gs c r hc hr => ?_
      subst hr
      refine .pass hc (by decide) fun c hc => ?_
      have hhead := stmts_head hbody
      have hvar : ks''.head? ≠ some (.keyword .varWord) := by
        obtain ⟨k, ks, rfl, rfl | rfl⟩ := hhead <;> simp
      have hcomma : ks''.head? ≠ some (.symbol .comma) := by
        obtain ⟨k, ks, rfl, rfl | rfl⟩ := hhead <;> simp
      refine (declList?_complete hc hlocals hvar hcomma).andThen fun ls c r hc hr => ?_
      subst hr
      have hbudget := hc.mul_length_le_budget
      have hpos := length_pos hc
      have hblock : (block c).Finishes (· = [.keyword .endWord, .eof]) :=
        statements_complete _ (by omega) hc hbody
      refine hblock.andThen fun b c r hc hr => ?_
      subst hr
      refine .step hc (by decide) fun c hc => ?_
      rw [Cursor.expect, if_pos hc.kind_eq]
      exact ⟨_, hc, trivial⟩

end Reader

end Tern
