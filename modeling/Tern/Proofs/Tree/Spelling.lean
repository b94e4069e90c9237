import Tern.Proofs.Tree.Proper

/-!
# Texts that lex

A text that lexes without error is a sequence of lexemes, and a cursor in it stands in front of
what is left of them.  Moving on takes the first one off.
-/

namespace Tern

/-- In front of the cursor are the lexemes that `f` shows as the given sequence, the end of the
text included. -/
inductive Cursor.Spells {α : Type} (f : Lexeme → α) : Cursor → List α → Prop where
  | eof {c : Cursor} (h : c.current.lexeme = .eof) : Spells f c [f .eof]
  | cons {c c' : Cursor} {xs : List α} (h : c.current.lexeme ≠ .eof)
      (hadvance : c.advance = (.ok (), c')) (hrest : Spells f c' xs) :
      Spells f c (f c.current.lexeme :: xs)

namespace Cursor.Spells

variable {α β : Type} {f : Lexeme → α} {c : Cursor} {x : α} {xs : List α}

theorem head_eq (h : c.Spells f (x :: xs)) : f c.current.lexeme = x := by
  cases h with
  | eof h => rw [h]
  | cons => rfl

theorem head_congr {c' : Cursor} (h : c.Spells f xs) (h' : c'.Spells f xs) :
    f c.current.lexeme = f c'.current.lexeme := by
  cases xs with
  | nil => cases h
  | cons x xs => exact h.head_eq.trans h'.head_eq.symm

theorem map (g : α → β) (h : c.Spells f xs) : c.Spells (g ∘ f) (xs.map g) := by
  induction h with
  | eof h => exact .eof h
  | cons h hadvance _ ih => exact .cons h hadvance ih

theorem eq_of_eof (h : c.Spells f xs) (heof : c.current.lexeme = .eof) : xs = [f .eof] := by
  cases h with
  | eof => rfl
  | cons h => exact absurd heof h

theorem unique {ys : List α} (h : c.Spells f xs) (h' : c.Spells f ys) : xs = ys := by
  induction h generalizing ys with
  | eof heof => exact (h'.eq_of_eof heof).symm
  | @cons c d xs hne hadvance _ ih =>
      cases h' with
      | eof heof => exact absurd heof hne
      | @cons _ d' ys _ hadvance' h' =>
          obtain rfl : d = d' := by
            rw [hadvance] at hadvance'
            exact (Prod.mk.inj hadvance').2
          rw [ih h']

theorem advance (h : c.Spells f (x :: xs)) (hne : c.current.lexeme ≠ .eof) :
    ∃ c', c.advance = (.ok (), c') ∧ c'.Spells f xs := by
  cases h with
  | eof h => exact absurd h hne
  | cons _ hadvance hrest => exact ⟨_, hadvance, hrest⟩

theorem step (h : c.Spells f (x :: xs)) (hne : c.current.lexeme ≠ .eof) :
    ∃ c', c'.Spells f xs ∧ ∀ {γ : Type} (cut : CompileError → γ) (next : Cursor → Outcome γ),
      c.step cut next = next c' := by
  obtain ⟨c', hadvance, hrest⟩ := h.advance hne
  refine ⟨c', hrest, fun cut next => ?_⟩
  rw [Cursor.step, hadvance]

theorem eof_notMem {ls : List Lexeme} {l : Lexeme} {ls' : List Lexeme}
    (h : c.Spells id (ls ++ l :: ls')) : .eof ∉ ls := by
  induction ls generalizing c with
  | nil => exact List.not_mem_nil
  | cons l' ls ih =>
      have hl' : c.current.lexeme = l' := h.head_eq
      have hne : c.current.lexeme ≠ .eof := by
        intro heof
        have hlength := congrArg List.length (h.eq_of_eof heof)
        simp at hlength
      obtain ⟨c', h, -⟩ := h.step hne
      rw [List.mem_cons, not_or]
      exact ⟨fun heof => hne (hl'.trans heof.symm), ih h⟩

theorem length_le (h : c.Spells f xs) : xs.length ≤ c.length + 1 := by
  induction h with
  | eof => simp [Cursor.length]
  | @cons c c' xs _ hadvance hrest ih =>
      obtain ⟨t, ⟨results, ending⟩⟩ := c
      cases results with
      | nil =>
          cases ending with
          | stuck e => cases hadvance
          | eof pos =>
              cases hadvance
              rw [hrest.eq_of_eof rfl]
              simp [Cursor.length]
      | cons r rs =>
          cases r with
          | error e => cases hadvance
          | ok t' =>
              cases hadvance
              simpa [Cursor.length] using ih

theorem mul_length_le_budget (h : c.Spells f xs) : 8 * xs.length ≤ Reader.budget c := by
  have hle := h.length_le
  unfold Reader.budget
  omega

end Cursor.Spells

/-! ## Texts -/

def TokenStream.lexemesOf? (results : List (Except CompileError Token)) : Option (List Lexeme) :=
  results.mapM fun r => r.toOption.map Token.lexeme

def TokenStream.lexemes? (s : TokenStream) : Option (List Lexeme) :=
  match s.ending with
  | .stuck _ => none
  | .eof _ => lexemesOf? s.results

/-- The lexemes of a text that lexes without error; its end is not among them. -/
def lexemes? (text : List Char) : Option (List Lexeme) := (TokenStream.ofText text).lexemes?

namespace TokenStream

theorem ofLexer_ne_eof (fuel : Nat) (lx : Lexer) :
    ∀ t, .ok t ∈ (ofLexer fuel lx).results → t.lexeme ≠ .eof := by
  induction fuel generalizing lx with
  | zero => simp [ofLexer]
  | succ fuel ih =>
      unfold ofLexer
      split
      · next t lx' _ =>
        split
        · simp
        · next hne =>
          simp only [cons, List.mem_cons, Except.ok.injEq, forall_eq_or_imp]
          exact ⟨fun heof => hne (by rw [Token.kind, heof]; rfl), ih lx'⟩
      · next e lx' _ =>
        split
        · simp only [cons, List.mem_cons, reduceCtorEq, false_or]
          exact ih lx'
        · simp

theorem lexemesOf?_cons {r : Except CompileError Token} {rs : List (Except CompileError Token)}
    {ls : List Lexeme} (h : lexemesOf? (r :: rs) = some ls) :
    ∃ t ls', r = .ok t ∧ lexemesOf? rs = some ls' ∧ ls = t.lexeme :: ls' := by
  rw [lexemesOf?, List.mapM_cons] at h
  cases r with
  | error e => cases h
  | ok t =>
      obtain ⟨ls', hls', rfl⟩ : ∃ ls', lexemesOf? rs = some ls' ∧ t.lexeme :: ls' = ls := by
        simpa [lexemesOf?, Except.toOption, Option.bind_eq_some_iff] using h
      exact ⟨t, ls', rfl, hls', rfl⟩

theorem spells_cons {t : Token} {results : List (Except CompileError Token)} {pos : Position}
    {ls : List Lexeme} (ht : t.lexeme ≠ .eof) (hne : ∀ t, .ok t ∈ results → t.lexeme ≠ .eof)
    (hls : lexemesOf? results = some ls) :
    (⟨t, ⟨results, .eof pos⟩⟩ : Cursor).Spells id (t.lexeme :: ls ++ [.eof]) := by
  induction results generalizing t ls with
  | nil =>
      cases hls
      exact .cons ht rfl (.eof rfl)
  | cons r rs ih =>
      obtain ⟨t', ls', rfl, hls', rfl⟩ := lexemesOf?_cons hls
      exact .cons ht rfl
        (ih (hne t' List.mem_cons_self) (fun t ht => hne t (List.mem_cons_of_mem _ ht)) hls')

end TokenStream

theorem exists_spells (ls : List Lexeme) (h : .eof ∉ ls) :
    ∃ c : Cursor, c.Spells id (ls ++ [.eof]) := by
  induction ls with
  | nil => exact ⟨⟨⟨.eof, .start⟩, ⟨[], .eof .start⟩⟩, .eof rfl⟩
  | cons l ls ih =>
      rw [List.mem_cons, not_or] at h
      obtain ⟨⟨t, s⟩, hc⟩ := ih h.2
      exact ⟨⟨⟨l, .start⟩, .cons (.ok t) s⟩, .cons (fun heof => h.1 heof.symm) rfl hc⟩

theorem start_of_lexemes? {text : List Char} {ls : List Lexeme} (h : lexemes? text = some ls) :
    ∃ c, Cursor.start (.ofText text) = .ok c ∧ c.Spells id (ls ++ [.eof]) := by
  have hne := TokenStream.ofLexer_ne_eof (text.length + 1) (.ofText text)
  change ∀ t, .ok t ∈ (TokenStream.ofText text).results → t.lexeme ≠ .eof at hne
  unfold lexemes? TokenStream.lexemes? at h
  unfold Cursor.start TokenStream.next
  generalize TokenStream.ofText text = s at h hne ⊢
  obtain ⟨results, ending⟩ := s
  cases ending with
  | stuck e => cases h
  | eof pos =>
      cases results with
      | nil =>
          cases h
          exact ⟨_, rfl, .eof rfl⟩
      | cons r rs =>
          obtain ⟨t, ls', rfl, hls', rfl⟩ := TokenStream.lexemesOf?_cons h
          exact ⟨_, rfl, TokenStream.spells_cons (hne t List.mem_cons_self)
            (fun t ht => hne t (List.mem_cons_of_mem _ ht)) hls'⟩

theorem Program.ofText?_of_lexemes? {text : List Char} {ls : List Lexeme}
    (h : lexemes? text = some ls) :
    ∃ c : Cursor, c.Spells id (ls ++ [.eof]) ∧
      Program.ofText? text = .ok (Reader.program c).tree := by
  obtain ⟨c, hstart, hspells⟩ := start_of_lexemes? h
  refine ⟨c, hspells, ?_⟩
  rw [Program.ofText?, hstart]
  rfl

end Tern
