import Tern.Proofs.Token.Lexical

/-!
# Texts and their tokens

A text that lexes consists of the spellings of its tokens and of trivia between them, and a text
that is printed from tokens lexes to these tokens again.
-/

namespace Tern

open Lexer (isBlank isWordPart)

/-! ## Nothing is lost -/

/-- Asked again and again, the lexer yields these tokens and then the end of the text. -/
def Lexer.Yields : Lexer → List Token → Prop
  | lx, [] => ∃ t, lx.next.1 = .ok t ∧ t.lexeme = .eof
  | lx, t :: ts => lx.next.1 = .ok t ∧ t.lexeme ≠ .eof ∧ lx.next.2.Yields ts

/-- The text consists of spellings of the lexemes, each the longest one that there is, with trivia
in front of each and behind the last. -/
inductive Split : List Char → List Lexeme → Prop where
  | finish {gap : List Char} (hgap : Trivia true gap) : Split gap []
  | token {gap s rest : List Char} {l : Lexeme} {ls : List Lexeme} (hgap : Trivia false gap)
      (hbegins : ¬ StartsTrivia (s ++ rest)) (hs : l.Spelt s) (hlongest : Longest (s ++ rest) s)
      (h : Split rest ls) : Split (gap ++ (s ++ rest)) (l :: ls)

theorem Lexer.Yields.split {lx : Lexer} {ts : List Token} (h : lx.Yields ts) :
    Split lx.rest (ts.map Token.lexeme) := by
  induction ts generalizing lx with
  | nil =>
      obtain ⟨t, ht, heof⟩ := h
      obtain ⟨gap, taken, hstep⟩ := lx.exists_step
      have hend : taken ++ lx.next.2.rest = [] := by
        obtain ⟨-, hend⟩ | ⟨hspelt, -⟩ := hstep.ok t ht
        · exact hend
        · exact absurd heof hspelt.ne_eof
      have hgap := hstep.gap
      rw [hend] at hgap
      rw [hstep.rest, hend, List.append_nil]
      exact .finish hgap
  | cons t ts ih =>
      obtain ⟨ht, hne, hrest⟩ := h
      obtain ⟨gap, taken, hstep⟩ := lx.exists_step
      obtain ⟨heof, -⟩ | ⟨hspelt, hlongest⟩ := hstep.ok t ht
      · exact absurd heof hne
      · have hgap := hstep.gap
        rw [List.isEmpty_eq_false_iff.2 (List.append_ne_nil_of_left_ne_nil hspelt.ne_nil _)] at hgap
        rw [hstep.rest]
        exact .token hgap hstep.begins hspelt hlongest (ih hrest)

theorem Trivia.rest_unique {last last' : Bool} {t t' cs cs' : List Char} (ht : Trivia last t)
    (ht' : Trivia last' t') (hlast : last = true → cs = []) (hlast' : last' = true → cs' = [])
    (hcs : ¬ StartsTrivia cs) (hcs' : ¬ StartsTrivia cs') (heq : t ++ cs = t' ++ cs') :
    cs = cs' := by
  have hdrop := Lexer.dropTrivia_append ht hlast hcs .start
  rw [heq, Lexer.dropTrivia_append ht' hlast' hcs' .start] at hdrop
  exact (congrArg Lexer.rest hdrop).symm

theorem Split.unique {text : List Char} {ls ls' : List Lexeme} (h : Split text ls)
    (h' : Split text ls') : ls = ls' := by
  induction h generalizing ls' with
  | @finish gap hgap =>
      cases h' with
      | finish => rfl
      | token hgap' hbegins' hs' =>
          have hend := hgap'.rest_unique hgap nofun (fun _ => rfl) hbegins' not_startsTrivia_nil
            (List.append_nil _).symm
          exact absurd (List.append_eq_nil_iff.1 hend).1 hs'.ne_nil
  | @token gap s rest l ls hgap hbegins hs hlongest _ ih =>
      generalize htext : gap ++ (s ++ rest) = text at h'
      cases h' with
      | finish hgap' =>
          have hend := hgap.rest_unique hgap' nofun (fun _ => rfl) hbegins not_startsTrivia_nil
            (htext.trans (List.append_nil _).symm)
          exact absurd (List.append_eq_nil_iff.1 hend).1 hs.ne_nil
      | @token gap' s' rest' l' ls' hgap' hbegins' hs' hlongest' h' =>
          have hrest := hgap.rest_unique hgap' nofun nofun hbegins hbegins' htext
          have hlength : s.length = s'.length := Nat.le_antisymm
            (hlongest' l s hs (hrest ▸ List.prefix_append s rest))
            (hlongest l' s' hs' (hrest ▸ List.prefix_append s' rest'))
          obtain ⟨rfl, rfl⟩ := List.append_inj hrest hlength
          rw [hs.unique hs', ih h']

/-- Lexing is lossless and takes the longest match: a text that lexes without error is, from
its first character to its last, trivia and spellings of the tokens in turn; each spelling is one
that the lexical rules give to the token, and no longer prefix of the text spells any token.
There is no other way to take the text apart like this. -/
theorem lexing_is_lossless (text : List Char) (tokens : List Token)
    (h : (Lexer.ofText text).Yields tokens) :
    Split text (tokens.map Token.lexeme) ∧
      ∀ ls, Split text ls → ls = tokens.map Token.lexeme :=
  ⟨h.split, fun _ hls => hls.unique h.split⟩

/-- The text `x:=1L<<'\\''//a`, and on the next line `/ 7//`. -/
def crowdedText : List Char :=
  ['x', ':', '=', '1', 'L', '<', '<', '\'', '\\', '\'', '\'', '/', '/', 'a', '\n', '/', ' ', '7',
    '/', '/']

theorem lexing_is_lossless_crowded :
    Split crowdedText [.identifier "x", .symbol .assign, .integer "1" (some 'L'), .symbol .shl,
      .char '\'', .symbol .slash, .integer "7" none] :=
  (lexing_is_lossless crowdedText
    [⟨.identifier "x", ⟨1, 1⟩⟩, ⟨.symbol .assign, ⟨1, 2⟩⟩, ⟨.integer "1" (some 'L'), ⟨1, 4⟩⟩,
      ⟨.symbol .shl, ⟨1, 6⟩⟩, ⟨.char '\'', ⟨1, 8⟩⟩, ⟨.symbol .slash, ⟨2, 1⟩⟩,
      ⟨.integer "7" none, ⟨2, 3⟩⟩]
    ⟨rfl, nofun, rfl, nofun, rfl, nofun, rfl, nofun, rfl, nofun, rfl, nofun, rfl, nofun, _, rfl,
      rfl⟩).1

/-! ## Printing and lexing -/

/-- The text spells the lexemes, each with trivia behind it that starts with a blank. -/
inductive Printed : List Lexeme → List Char → Prop where
  | nil : Printed [] []
  | cons {l : Lexeme} {ls : List Lexeme} {s gap text : List Char} (hs : l.Spelt s)
      (hgap : Trivia false gap) (hblank : gap.head?.any isBlank = true) (h : Printed ls text) :
      Printed (l :: ls) (s ++ (gap ++ text))

namespace Lexer

theorem after_succ (lx : Lexer) (n : Nat) : lx.after (n + 1) = lx.next.2.after n := by
  induction n with
  | zero => rfl
  | succ n ih => exact congrArg (fun lx => lx.next.2) ih

theorem after_trivia {lx : Lexer} (h : Trivia false lx.rest) (n : Nat) :
    ∃ pos, (lx.after n).next.1 = .ok ⟨.eof, pos⟩ := by
  have hskip : lx.skipTrivia = ⟨[], lx.pos.afterAll lx.rest⟩ := by
    have hdrop := dropTrivia_append h nofun not_startsTrivia_nil lx.pos
    rwa [List.append_nil] at hdrop
  have hnext : lx.next = (.ok ⟨.eof, lx.pos.afterAll lx.rest⟩, ⟨[], lx.pos.afterAll lx.rest⟩) := by
    rw [next, hskip]
    rfl
  induction n generalizing lx with
  | zero => exact ⟨_, congrArg Prod.fst hnext⟩
  | succ n ih =>
      rw [after_succ, hnext]
      exact ih .nil rfl rfl

theorem next_printed {lx : Lexer} {lead s gap text : List Char} {l : Lexeme}
    (hrest : lx.rest = lead ++ (s ++ (gap ++ text))) (hlead : Trivia false lead) (hs : l.Spelt s)
    (hgap : Trivia false gap) (hblank : gap.head?.any isBlank = true) :
    ∃ pos, lx.next.1 = .ok ⟨l, pos⟩ ∧ lx.next.2.rest = gap ++ text := by
  obtain ⟨b, gap, rfl⟩ : ∃ b gap', gap = b :: gap' := by
    cases gap with
    | nil => cases hblank
    | cons b gap => exact ⟨b, gap, rfl⟩
  obtain ⟨hpart, heq, hslash, -⟩ := isBlank_parts hblank
  have hskip : lx.skipTrivia = ⟨s ++ (b :: gap ++ text), lx.pos.afterAll lead⟩ := by
    rw [skipTrivia, hrest]
    exact dropTrivia_append hlead nofun (hs.not_startsTrivia (by simp [hslash])) lx.pos
  have hscan : Scan.ofChars (s ++ (b :: gap ++ text)) = ⟨.ok l, s, b :: gap ++ text⟩ := by
    refine Scan.ofChars_spelt hs fun d hd => ?_
    cases hd
    exact ⟨hpart, heq⟩
  have hnext : lx.next = (.ok ⟨l, lx.pos.afterAll lead⟩,
      ⟨b :: gap ++ text, (lx.pos.afterAll lead).afterAll s⟩) := by
    simp only [next, hskip, hscan]
  rw [hnext]
  exact ⟨_, rfl, rfl⟩

/-- Call by call, the lexer yields what was printed, and then the end of the text. -/
theorem after_printed {lx : Lexer} {lead text : List Char} {ls : List Lexeme}
    (hrest : lx.rest = lead ++ text) (hlead : Trivia false lead) (h : Printed ls text) (n : Nat) :
    ∃ pos, (lx.after n).next.1 = .ok ⟨ls[n]?.getD .eof, pos⟩ := by
  induction h generalizing lx lead n with
  | nil =>
      rw [List.append_nil] at hrest
      exact after_trivia (hrest ▸ hlead) n
  | cons hs hgap hblank _ ih =>
      obtain ⟨pos, hnext, hrest'⟩ := next_printed hrest hlead hs hgap hblank
      cases n with
      | zero => exact ⟨pos, hnext⟩
      | succ n =>
          rw [after_succ]
          exact ih hrest' hgap n

end Lexer

/-- Lexing undoes printing: a text that spells lexemes in turn, with any trivia in front of the
first and trivia behind each that starts with a blank, lexes to these lexemes, and then to the end
of the text on every further call. -/
theorem lexing_undoes_printing (lead text : List Char) (ls : List Lexeme)
    (hlead : Trivia false lead) (h : Printed ls text) (n : Nat) :
    ∃ pos, lexResult (lead ++ text) n = .ok ⟨ls[n]?.getD .eof, pos⟩ :=
  Lexer.after_printed rfl hlead h n

/-- The text `as_ //x`, and on the next line `'\\n' 0l:` and a blank. -/
def spacedText : List Char :=
  ['a', 's', '_'] ++ ([' ', '/', '/', 'x', '\n'] ++ (['\'', '\\', 'n', '\''] ++ (['\t'] ++
    (['0', 'l'] ++ (['\r'] ++ ([':'] ++ ([' '] ++ [])))))))

theorem lexing_undoes_printing_spaced :
    (∃ pos, lexResult (['/', '/', '\'', '\n'] ++ spacedText) 1 = .ok ⟨.char '\n', pos⟩) ∧
    (∃ pos, lexResult (['/', '/', '\'', '\n'] ++ spacedText) 3 = .ok ⟨.symbol .colon, pos⟩) ∧
    ∃ pos, lexResult (['/', '/', '\'', '\n'] ++ spacedText) 8 = .ok ⟨.eof, pos⟩ := by
  have hlead : Trivia false ['/', '/', '\'', '\n'] :=
    .comment (show '\n' ∉ ['\''] by decide) .nil
  have hcomment : Trivia false [' ', '/', '/', 'x', '\n'] :=
    .blank rfl (.comment (show '\n' ∉ ['x'] by decide) .nil)
  have hname : (Lexeme.identifier "as_").Spelt ['a', 's', '_'] :=
    .identifier rfl (List.all_eq_true.1 (show ['s', '_'].all isWordPart = true from rfl))
      (by decide +kernel)
  have hescape : (Lexeme.char '\n').Spelt ['\'', '\\', 'n', '\''] := .escape (by decide)
  have hzero : (Lexeme.integer "0" (some 'l')).Spelt ['0', 'l'] :=
    .integer (List.cons_ne_nil '0' []) (by simp) (by simp)
  have hprinted : Printed
      [.identifier "as_", .char '\n', .integer "0" (some 'l'), .symbol .colon] spacedText :=
    .cons hname hcomment rfl (.cons hescape (.blank rfl .nil) rfl
      (.cons hzero (.blank rfl .nil) rfl (.cons (.symbol .colon) (.blank rfl .nil) rfl .nil)))
  have hread := lexing_undoes_printing _ _ _ hlead hprinted
  exact ⟨hread 1, hread 3, hread 8⟩

end Tern
