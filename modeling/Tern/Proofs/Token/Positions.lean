import Tern.Proofs.Token.Lexical

/-!
# The places of tokens

A lexer counts lines and columns as it goes.  Whatever it has come across, tokens, errors or the
end of the text, its count is that of the text in front of it, and each result carries the place
where it starts.
-/

namespace Tern

/-! ## Counting -/

namespace Text

def unitCount (cs : List Char) : Nat := (cs.map units).sum

@[simp] theorem unitCount_append (cs ds : List Char) :
    unitCount (cs ++ ds) = unitCount cs + unitCount ds := by
  simp [unitCount]

theorem unitCount_pos {cs : List Char} (h : cs ≠ []) : 0 < unitCount cs := by
  obtain ⟨c, cs, rfl⟩ := List.exists_cons_of_ne_nil h
  have hc := units_pos c
  simp only [unitCount, List.map_cons, List.sum_cons]
  omega

end Text

namespace Position

/-- The place behind a text: lines are counted by the newlines in it, columns by the UTF-16 units
behind the last newline. -/
def behind (cs : List Char) : Position :=
  ⟨1 + cs.count '\n', 1 + Text.unitCount (cs.rtakeWhile (· != '\n'))⟩

theorem behind_concat (cs : List Char) (c : Char) : behind (cs ++ [c]) = (behind cs).after c := by
  by_cases hc : c = '\n'
  · simp [behind, after, hc, List.rtakeWhile_concat_neg, Text.unitCount, Nat.add_assoc]
  · simp [behind, after, hc, Text.unitCount, Nat.add_assoc]

theorem afterAll_behind (cs ds : List Char) : (behind cs).afterAll ds = behind (cs ++ ds) := by
  induction ds generalizing cs with
  | nil => simp
  | cons d ds ih =>
      rw [afterAll_cons, ← behind_concat, ih, List.append_assoc, List.singleton_append]

end Position

/-! ## Runs -/

/-- The UTF-16 units of a text that are behind the lexer after `n` calls. -/
def readIndex (text : List Char) (n : Nat) : Nat :=
  Text.unitCount text - Text.unitCount ((Lexer.ofText text).after n).rest

theorem readIndex_eq {text before : List Char} {n : Nat}
    (h : text = before ++ ((Lexer.ofText text).after n).rest) :
    readIndex text n = Text.unitCount before := by
  have hcount := congrArg Text.unitCount h
  rw [Text.unitCount_append] at hcount
  unfold readIndex
  omega

theorem Lexeme.Spelt.newline_notMem {l : Lexeme} {s : List Char} (h : l.Spelt s) : '\n' ∉ s := by
  cases h with
  | identifier hc hcs =>
      rw [List.mem_cons, not_or]
      refine ⟨?_, fun hmem => absurd (hcs _ hmem) (by decide)⟩
      rintro rfl
      cases hc
  | keyword k => cases k <;> decide
  | integer _ hdigits hsuffix =>
      rw [List.mem_append, not_or]
      refine ⟨fun hmem => absurd (hdigits _ hmem) (by decide), fun hmem => ?_⟩
      exact absurd (hsuffix _ (Option.mem_toList.1 hmem)) (by decide)
  | char _ hc =>
      simp only [List.mem_cons, not_or] at hc ⊢
      exact ⟨by decide, Ne.symm hc.1, by decide, List.not_mem_nil⟩
  | @escape e c h =>
      have he : e ≠ '\n' := by
        rintro rfl
        simp [escapes] at h
      simp [he.symm]
  | symbol x => cases x <;> decide

namespace Lexer

variable {lx : Lexer} {gap taken : List Char}

theorem Step.newline_notMem (h : lx.Step gap taken) : '\n' ∉ taken := by
  cases hresult : lx.next.1 with
  | ok t =>
      obtain ⟨-, hend⟩ | ⟨hspelt, -⟩ := h.ok t hresult
      · rw [(List.append_eq_nil_iff.1 hend).1]
        exact List.not_mem_nil
      · exact hspelt.newline_notMem
  | error e =>
      obtain ⟨-, rfl⟩ | ⟨-, digits, suffix, hspelt, -⟩ := h.error e hresult
      · exact List.not_mem_nil
      · exact hspelt.newline_notMem

theorem Step.text_eq {text before : List Char} (h : lx.Step gap taken)
    (htext : text = before ++ lx.rest) : text = before ++ (gap ++ taken) ++ lx.next.2.rest := by
  rw [htext, h.rest]
  simp only [List.append_assoc]

/-- After any number of calls the lexer is at the place behind what it has read. -/
theorem after_behind (text : List Char) (n : Nat) :
    ∃ before, text = before ++ ((ofText text).after n).rest ∧
      ((ofText text).after n).pos = .behind before := by
  induction n with
  | zero => exact ⟨[], rfl, rfl⟩
  | succ n ih =>
      obtain ⟨before, htext, hpos⟩ := ih
      obtain ⟨gap, taken, hstep⟩ := ((ofText text).after n).exists_step
      refine ⟨before ++ (gap ++ taken), hstep.text_eq htext, ?_⟩
      rw [after, hstep.pos, hpos, Position.afterAll_behind]

end Lexer

/-- Positions stay exact over every run of the lexer, errors and the end of the text included.
Call number `n` reads from behind `before`, drops blanks and comments, and takes `taken`.  Its
token or its error carries the line and the column of the place behind the blanks and comments.
The index read up to never goes back, and a token in front of the end takes it on; an error
leaves it where the offending lexeme starts, or behind the digits and the suffix of a malformed
integer. -/
theorem positions_stay_exact (text : List Char) (n : Nat) :
    ∃ before gap taken rest, text = before ++ (gap ++ (taken ++ rest)) ∧
      readIndex text n = Text.unitCount before ∧
      readIndex text (n + 1) = Text.unitCount (before ++ (gap ++ taken)) ∧
      readIndex text n ≤ readIndex text (n + 1) ∧
      Trivia (taken ++ rest).isEmpty gap ∧ ¬ StartsTrivia (taken ++ rest) ∧ '\n' ∉ taken ∧
      resultPos (lexResult text n) = .behind (before ++ gap) ∧
      (∀ t, lexResult text n = .ok t → t.lexeme ≠ .eof →
        t.lexeme.Spelt taken ∧ readIndex text n < readIndex text (n + 1)) ∧
      (∀ t, lexResult text n = .ok t → t.lexeme = .eof → taken = [] ∧ rest = []) ∧
      (∀ e, lexResult text n = .error e → e.problem ≠ .malformedInteger →
        readIndex text (n + 1) = Text.unitCount (before ++ gap)) ∧
      ∀ e, lexResult text n = .error e → e.problem = .malformedInteger →
        ∃ digits suffix, (Lexeme.integer digits suffix).Spelt taken ∧
          Longest (taken ++ rest) taken := by
  obtain ⟨before, htext, hpos⟩ := Lexer.after_behind text n
  obtain ⟨gap, taken, hstep⟩ := ((Lexer.ofText text).after n).exists_step
  have hindex := readIndex_eq htext
  have hindex' : readIndex text (n + 1) = Text.unitCount (before ++ (gap ++ taken)) :=
    readIndex_eq (hstep.text_eq htext)
  have hcount : Text.unitCount (before ++ (gap ++ taken)) =
      Text.unitCount before + (Text.unitCount gap + Text.unitCount taken) := by simp
  have hstart : resultPos (lexResult text n) = .behind (before ++ gap) := by
    rw [← Position.afterAll_behind, ← hpos]
    exact hstep.start
  refine ⟨before, gap, taken, ((Lexer.ofText text).after (n + 1)).rest, ?_, hindex, hindex',
    by omega, hstep.gap, hstep.begins, hstep.newline_notMem, hstart, ?_, ?_, ?_, ?_⟩
  · exact htext.trans (congrArg (before ++ ·) hstep.rest)
  · intro t ht hne
    obtain ⟨heof, -⟩ | ⟨hspelt, -⟩ := hstep.ok t ht
    · exact absurd heof hne
    · have hpositive := Text.unitCount_pos hspelt.ne_nil
      exact ⟨hspelt, by omega⟩
  · intro t ht heof
    obtain ⟨-, hend⟩ | ⟨hspelt, -⟩ := hstep.ok t ht
    · exact List.append_eq_nil_iff.1 hend
    · exact absurd heof hspelt.ne_eof
  · intro e he hne
    obtain ⟨-, rfl⟩ | ⟨heq, -⟩ := hstep.error e he
    · rw [hindex', List.append_nil]
    · exact absurd heq hne
  · intro e he heq
    obtain ⟨hne, -⟩ | ⟨-, hspelt⟩ := hstep.error e he
    · exact absurd heq hne
    · exact hspelt

/-- The end of the text stands behind `€`, which is one UTF-16 unit, and `😀`, which is two. -/
theorem positions_stay_exact_surrogates :
    let text := "x // €😀".toList
    lexResult text 1 = .ok ⟨.eof, ⟨1, 9⟩⟩ ∧ readIndex text 1 = 1 ∧ readIndex text 2 = 8 ∧
      ∃ before gap taken rest, text = before ++ (gap ++ (taken ++ rest)) ∧
        readIndex text 2 = Text.unitCount (before ++ (gap ++ taken)) ∧
        resultPos (lexResult text 1) = .behind (before ++ gap) := by
  intro text
  refine ⟨by decide +kernel, by decide +kernel, by decide +kernel, ?_⟩
  obtain ⟨before, gap, taken, rest, htext, -, hindex, -, -, -, -, hpos, -⟩ :=
    positions_stay_exact text 1
  exact ⟨before, gap, taken, rest, htext, hindex, hpos⟩

end Tern
