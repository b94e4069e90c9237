import Tern.Proofs.Compile.Syntax
import Tern.Proofs.Token.Results
import Tern.Proofs.Tree.Descent

/-!
# Progress through a text

Whatever is compiled successfully has passed a token, and so has every turn of a loop of the
reader.  Since a text has only so many tokens, reading it comes to an end, wherever it is cut off
and whatever stands in it.
-/

namespace Tern

/-! ## Places of a text -/

theorem TokenStream.length_ofLexer_le (fuel : Nat) (lx : Lexer) :
    (ofLexer fuel lx).results.length ≤ fuel := by
  induction fuel generalizing lx with
  | zero => exact Nat.le_refl 0
  | succ fuel ih =>
      unfold ofLexer
      split
      · split
        · exact Nat.zero_le _
        · exact Nat.succ_le_succ (ih _)
      · split
        · exact Nat.succ_le_succ (ih _)
        · exact Nat.zero_le _

/-- Every result before the last takes characters off the text, so that fuel for each of them is
enough. -/
theorem TokenStream.ofLexer_eq {fuel fuel' : Nat} {lx : Lexer} (h : lx.rest.length < fuel)
    (h' : lx.rest.length < fuel') : ofLexer fuel lx = ofLexer fuel' lx := by
  induction fuel generalizing fuel' lx with
  | zero => exact absurd h (Nat.not_lt_zero _)
  | succ fuel ih =>
      obtain ⟨fuel', rfl⟩ := Nat.exists_eq_add_one.2 (Nat.zero_lt_of_lt h')
      have hagain : ∀ {lx' : Lexer}, lx'.rest.length < lx.rest.length →
          ofLexer fuel lx' = ofLexer fuel' lx' := fun hless => ih (by omega) (by omega)
      have htoken : ∀ {t}, lx.next.1 = .ok t → t.lexeme ≠ .eof →
          lx.next.2.rest.length < lx.rest.length := Lexer.next_length
      have htrivia : lx.skipTrivia.rest.length ≤ lx.rest.length := Lexer.dropTrivia_length ..
      unfold ofLexer
      split
      · next t lx' hnext =>
        rw [hnext] at htoken
        split
        · rfl
        · next hk => rw [hagain (htoken rfl fun heof => hk (by rw [Token.kind, heof]; rfl))]
      · split
        · next hless => rw [hagain (hless.trans_le htrivia)]
        · rfl

namespace Cursor

variable {text : List Char} {c d : Cursor}

/-- The cursor can be reached in the text by moving on, past errors too. -/
def IsIn (text : List Char) (c : Cursor) : Prop :=
  ∃ first n, Cursor.start (.ofText text) = .ok first ∧ c = first.skip n

theorem start_settled (h : Cursor.start (.ofText text) = .ok c) :
    c.Settled ∧ c.remaining ≤ text.length + 1 := by
  have htokens : ∀ t, .ok t ∈ (TokenStream.ofText text).results → t.kind ≠ .eof := fun t ht heof =>
    TokenStream.ofLexer_ne_eof _ _ t ht (Lexeme.eq_eof heof)
  have hlength : (TokenStream.ofText text).results.length ≤ text.length + 1 :=
    TokenStream.length_ofLexer_le _ _
  generalize TokenStream.ofText text = s at h htokens hlength
  obtain ⟨results, ending⟩ := s
  cases results with
  | nil =>
      cases ending with
      | stuck e => cases h
      | eof pos =>
          cases h
          exact ⟨⟨htokens, fun _ => ⟨rfl, pos, rfl⟩⟩, Nat.zero_le _⟩
  | cons r rs =>
      cases r with
      | error e => cases h
      | ok t =>
          cases h
          refine ⟨⟨fun t' ht' => htokens t' (List.mem_cons_of_mem _ ht'), fun hk => ?_⟩, ?_⟩
          · exact absurd hk (htokens t List.mem_cons_self)
          · exact (remaining_le ⟨t, rs, ending⟩).trans hlength

theorem skip_settled (n : Nat) (h : c.Settled) :
    (c.skip n).Settled ∧ (c.skip n).remaining ≤ c.remaining := by
  induction n generalizing c with
  | zero => exact ⟨h, Nat.le_refl _⟩
  | succ n ih => exact ⟨(ih h.advance).1, (ih h.advance).2.trans c.remaining_advance_le⟩

theorem skip_succ (n : Nat) (c : Cursor) : c.skip (n + 1) = (c.skip n).advance.2 := by
  induction n generalizing c with
  | zero => rfl
  | succ n ih => exact ih c.advance.2

namespace IsIn

theorem settled (h : c.IsIn text) : c.Settled := by
  obtain ⟨first, n, hfirst, rfl⟩ := h
  exact (skip_settled n (start_settled hfirst).1).1

theorem remaining_le (h : c.IsIn text) : c.remaining ≤ text.length + 1 := by
  obtain ⟨first, n, hfirst, rfl⟩ := h
  obtain ⟨hsettled, hle⟩ := start_settled hfirst
  exact (skip_settled n hsettled).2.trans hle

theorem follows (hc : c.IsIn text) (h : c.Follows d) : d.IsIn text := by
  induction h with
  | refl => exact hc
  | @tail c' d' _ hadvance ih =>
      obtain ⟨first, n, hfirst, rfl⟩ := ih
      exact ⟨first, n + 1, hfirst, by rw [skip_succ, hadvance]⟩

end IsIn

end Cursor

/-! ## Sessions -/

namespace Session

variable {α β : Type} {read : Cursor → Outcome α} {compile : α → Compile β} {C : α → Prop}
  {s s' : Session} {v : β}

theorem passes_of_phrase (hread : ∀ c, (read c).Ends c.Passes C)
    (hcompile : ∀ tree, Compile.Judges (C tree) (compile tree))
    (h : phrase read compile s = .ok v s') : s.cursor.Passes s'.cursor := by
  have hok := phrase_ok h
  have hcomplete : C (read s.cursor).tree := (hcompile _).ok hok
  have hcursor : (read s.cursor).rest = s'.cursor := by
    rw [phrase_of_ok hok] at h
    exact congrArg cursor (EStateM.Result.ok.inj h).2
  have hends := hread s.cursor
  rw [← hcursor]
  cases hrun : read s.cursor with
  | done tree rest =>
      rw [hrun] at hends
      exact hends
  | stopped tree why rest =>
      rw [hrun] at hends hcomplete
      exact absurd hcomplete hends

end Session

open Reader

/-- Reading makes progress and comes to an end.  An operand, a phrase that starts with a name, an
expression, a type, the arguments of a call and a list of declarations have passed a token when
they have been read; so has every expression, type and declaration list that compiles.  Wherever
reading stands in a text, one turn of a function depends on others only where they are earlier,
and a function that comes back to itself, be it the next turn of its loop, does so behind a token
that was passed.  Calls can be earlier than each other only finitely often.  So the turns determine
what is read, and no fuel is used up, that of the lexer included. -/
theorem reading_progresses_and_ends (text : List Char) :
    (∀ c d : Cursor,
      (∀ e, reading .operand c = .done e d → c.Passes d) ∧
      (∀ id e, c.kind = .identifier → reading (.named id) c = .done e d → c.Passes d) ∧
      (∀ minPrec e, reading (.expr minPrec) c = .done e d → c.Passes d) ∧
      (∀ t, reading .type c = .done t d → c.Passes d) ∧
      (∀ as, reading .args c = .done as d → c.Passes d) ∧
      (∀ ds, reading .decls c = .done ds d → c.Passes d) ∧
      (∀ l, Reader.declList c = .done l d → c.Passes d)) ∧
    (∀ s s' : Session,
      (∀ minPrec v, Session.expr minPrec s = .ok v s' → s.cursor.Passes s'.cursor) ∧
      (∀ t, Session.type s = .ok t s' → s.cursor.Passes s'.cursor) ∧
      (Session.declList s = .ok () s' → s.cursor.Passes s'.cursor)) ∧
    (∀ (t : Task) (c : Cursor), c.IsIn text →
      reading t c = body reading t c ∧
      (∀ f : Reading, (∀ t' d, Earlier (t', d) (t, c) → f t' d = reading t' d) →
        body f t c = reading t c) ∧
      (∀ n, 4 * c.remaining + 4 ≤ n → ofFuel n t c = reading t c) ∧
      c.remaining ≤ text.length + 1) ∧
    (∀ a b, Relation.TransGen Earlier b a → a.1.rank ≤ b.1.rank → a.2.Passes b.2) ∧
    WellFounded Earlier ∧
    (∀ f : Reading, (∀ t c, c.IsIn text → f t c = body f t c) →
      ∀ t c, c.IsIn text → f t c = reading t c) ∧
    (∀ n, text.length < n → TokenStream.ofLexer n (.ofText text) = .ofText text) := by
  have hprogress := Progressing.reading
  refine ⟨fun c d => ⟨fun e h => ?_, fun id e hk h => ?_, fun minPrec e h => ?_, fun t h => ?_,
      fun as h => ?_, fun ds h => ?_, fun l h => ?_⟩,
    fun s s' => ⟨fun minPrec v h => ?_, fun t h => ?_, fun h => ?_⟩,
    fun t c hc => ⟨?_, fun f hf => ?_, fun n hn => ?_, hc.remaining_le⟩,
    fun a b h hrank => passes_of_transGen h hrank, earlier_wellFounded, fun f hf t c hc => ?_,
    fun n hn => ?_⟩
  · exact (hprogress .operand c).of_done h
  · exact ((hprogress (.named id) c).of_done h).2 (by rw [hk]; decide)
  · exact (hprogress (.expr minPrec) c).of_done h
  · exact (hprogress .type c).of_done h
  · exact (hprogress .args c).of_done h
  · exact (hprogress .decls c).of_done h
  · exact (declList_ends c).of_done h
  · refine Session.passes_of_phrase (hprogress (.expr minPrec)) (fun tree => ?_) h
    exact (Compile.item_judges tree).before fun i => Compile.asValue_plain i
  · exact Session.passes_of_phrase (hprogress .type) Compile.type_judges h
  · exact Session.passes_of_phrase declList_ends Compile.declList_judges h
  · exact reading_eq hc.settled
  · have hagree : AgreeBefore reading f (t, c) := fun t' d h => (hf t' d h).symm
    rw [reading_eq hc.settled, hagree.body_eq hprogress hc.settled]
  · have hrank := t.rank_lt
    exact ofFuel_eq_reading hc.settled (by simp only [size]; omega)
  · exact reading_unique (fun _ h => h.settled) (fun _ _ h hd => h.follows hd) hf hc
  · exact TokenStream.ofLexer_eq hn (Nat.lt_succ_self _)

/-- A call that is cut off, behind an operand that is not. -/
def cutOffText : List Char := "a[1] + f(".toList

def cutOff : Cursor := ⟨⟨.identifier "a", .start⟩, (TokenStream.ofText cutOffText).next.2⟩

theorem reading_progresses_and_ends_cutOff :
    cutOff.IsIn cutOffText ∧
      cutOff.Passes (reading .operand cutOff).rest ∧
      (reading .operand cutOff).rest.kind = .symbol .plus ∧
      ∀ t, ofFuel 44 t cutOff = reading t cutOff := by
  have hall := reading_progresses_and_ends cutOffText
  have hin : cutOff.IsIn cutOffText := ⟨cutOff, 0, rfl, rfl⟩
  have hdone : (reading .operand cutOff matches .done ..) = true := by decide +kernel
  refine ⟨hin, ?_, by decide +kernel, fun t => ?_⟩
  · cases hrun : reading .operand cutOff with
    | done e d => exact (hall.1 cutOff d).1 e hrun
    | stopped e why d =>
        rw [hrun] at hdone
        cases hdone
  · obtain ⟨-, -, hfuel, hle⟩ := hall.2.2.1 t cutOff hin
    have hlength : cutOffText.length = 9 := by decide
    exact hfuel 44 (by omega)

end Tern
