import Tern.Proofs.Compile.Concurrence
import Tern.Proofs.Token.Results
import Tern.Proofs.Tree.Lockstep

/-!
# Texts with the same tokens

A text is compiled by way of its tokens.  Texts whose lexers yield the same results, up to the end
or the first error, compile to the same file or fail the same way, and at the same token.
-/

namespace Tern

/-! ## Cursors and results -/

namespace Cursor

variable {text text' : List Char} {i : Nat} {c d : Cursor}

/-- The cursor has come to result number `i` of a text. -/
structure Stands (text : List Char) (i : Nat) (c : Cursor) : Prop where
  reached : ReachesResult text i
  current : lexResult text i = .ok c.current
  stream : c.kind ≠ .eof → ∃ fuel,
    c.stream = .ofLexer fuel ((Lexer.ofText text).after (i + 1)) ∧
      ((Lexer.ofText text).after (i + 1)).rest.length < fuel

theorem next_stands {fuel : Nat} {t : Token} {s : TokenStream} (hreached : ReachesResult text i)
    (hfuel : ((Lexer.ofText text).after i).rest.length < fuel)
    (hnext : (TokenStream.ofLexer fuel ((Lexer.ofText text).after i)).next = (.ok t, s)) :
    Stands text i ⟨t, s⟩ := by
  obtain ⟨hresult, hrest⟩ := TokenStream.ofLexer_next hfuel
  rw [hnext] at hresult hrest
  refine ⟨hreached, hresult.symm, fun hne => ?_⟩
  exact hrest t hresult.symm hne

theorem start_stands (h : Cursor.start (.ofText text) = .ok c) : c.Stands text 0 := by
  unfold Cursor.start at h
  split at h
  · next t s hnext =>
    cases h
    exact next_stands (.zero text) (Nat.lt_succ_self _) hnext
  · cases h

theorem start_error {e : CompileError} (h : Cursor.start (.ofText text) = .error e) :
    lexResult text 0 = .error e := by
  unfold Cursor.start at h
  split at h
  · cases h
  · next s hnext =>
    cases h
    have hresult := (TokenStream.ofLexer_next (Nat.lt_succ_self (Lexer.ofText text).rest.length)).1
    exact hresult.symm.trans (congrArg Prod.fst hnext)

/-- How many tokens can be left in front of the end. -/
def left (c : Cursor) : Nat := if c.kind = .eof then 0 else c.length

theorem left_of_ne (h : c.kind ≠ .eof) : c.left = c.length := if_neg h

theorem left_le (c : Cursor) : c.left ≤ c.length := by
  unfold left
  split
  · exact Nat.zero_le _
  · exact Nat.le_refl _

theorem left_advance (h : c.advance = (.ok (), d)) : d.left < c.length := by
  obtain ⟨t, results, ending⟩ := c
  cases results with
  | nil =>
      cases ending with
      | eof pos =>
          cases h
          exact Nat.zero_lt_one
      | stuck e => cases h
  | cons r rs =>
      cases r with
      | ok t' =>
          cases h
          exact Nat.lt_succ_of_le (left_le _)
      | error e => cases h

namespace Stands

theorem reaches_succ (h : c.Stands text i) (hne : c.kind ≠ .eof) : ReachesResult text (i + 1) := by
  intro m hm
  obtain hm | rfl := Nat.lt_succ_iff_lt_or_eq.1 hm
  · exact h.reached m hm
  · exact ⟨_, h.current, hne⟩

theorem advance (h : c.Stands text i) (hne : c.kind ≠ .eof) :
    (∃ d, c.advance = (.ok (), d) ∧ d.Stands text (i + 1)) ∨
      ∃ e d, c.advance = (.error e, d) ∧ lexResult text (i + 1) = .error e := by
  obtain ⟨fuel, hstream, hfuel⟩ := h.stream hne
  unfold Cursor.advance
  split
  · next t s hnext =>
    rw [hstream] at hnext
    exact .inl ⟨_, rfl, next_stands (h.reaches_succ hne) hfuel hnext⟩
  · next e s hnext =>
    rw [hstream] at hnext
    have hresult := (TokenStream.ofLexer_next hfuel).1
    exact .inr ⟨e, _, rfl, hresult.symm.trans (congrArg Prod.fst hnext)⟩

end Stands

end Cursor

/-! ## Lockstep -/

/-- The same code and message, at the same result of both texts. -/
def Likeness.tokens (text text' : List Char) : Likeness where
  error e e' := e'.problem.code = e.problem.code ∧ e'.problem.message = e.problem.message ∧
    ∃ i, ReachesResult text i ∧ e.pos = resultPos (lexResult text i) ∧
      e'.pos = resultPos (lexResult text' i)

section

variable {text text' : List Char}

theorem Likeness.tokens_pos {e e' : CompileError} (h : (tokens text text').error e e') :
    e.pos.Alike (tokens text text') e'.pos :=
  fun _ => ⟨rfl, rfl, h.2.2⟩

theorem Likeness.tokens_error (h : SameTokens text text') {i : Nat} {e e' : CompileError}
    (hi : ReachesResult text i) (he : lexResult text i = .error e)
    (he' : lexResult text' i = .error e') : (tokens text text').error e e' := by
  have hsame := h i hi
  rw [he, he'] at hsame
  refine ⟨?_, hsame, i, hi, ?_, ?_⟩
  · rw [lexResult_lexical he, lexResult_lexical he']
  · rw [he]; rfl
  · rw [he']; rfl

/-- The cursors stand at the same result, not farther from the end than `n` and `n'`. -/
def Cursor.Abreast (text text' : List Char) (n n' : Nat) (c c' : Cursor) : Prop :=
  ∃ i, c.Stands text i ∧ c'.Stands text' i ∧ c.left ≤ n ∧ c'.left ≤ n'

namespace Cursor.Abreast

variable {m m' n n' : Nat} {c c' : Cursor}

theorem mono (hc : c.Abreast text text' n n' c') (hm : n ≤ m) (hm' : n' ≤ m') :
    c.Abreast text text' m m' c' := by
  obtain ⟨i, hc, hc', hn, hn'⟩ := hc
  exact ⟨i, hc, hc', by omega, by omega⟩

theorem lexeme_eq (h : SameTokens text text') (hc : c.Abreast text text' n n' c') :
    c'.current.lexeme = c.current.lexeme := by
  obtain ⟨i, hc, hc', -⟩ := hc
  exact SameResult.lexeme_eq hc.current hc'.current (h i hc.reached)

theorem pos (hc : c.Abreast text text' n n' c') : c.pos.Alike (.tokens text text') c'.pos := by
  obtain ⟨i, hc, hc', -⟩ := hc
  intro problem
  refine ⟨rfl, rfl, i, hc.reached, ?_, ?_⟩
  · rw [hc.current]; rfl
  · rw [hc'.current]; rfl

theorem step (h : SameTokens text text') (hc : c.Abreast text text' n n' c')
    (hne : c.kind ≠ .eof) :
    0 < n ∧ 0 < n' ∧ c.StepsAlike (.tokens text text') (fun d d' =>
      d.Abreast text text' (n - 1) (n' - 1) d' ∨ c.kind.isOpener = true ∧ False) c' := by
  have hlexeme := hc.lexeme_eq h
  obtain ⟨i, hc, hc', hn, hn'⟩ := hc
  have hne' : c'.kind ≠ .eof := by
    rwa [Cursor.kind, Token.kind, hlexeme]
  have hlength : 0 < c.length := Nat.succ_pos _
  have hlength' : 0 < c'.length := Nat.succ_pos _
  have hsame := h (i + 1) (hc.reaches_succ hne)
  rw [Cursor.left_of_ne hne] at hn
  rw [Cursor.left_of_ne hne'] at hn'
  refine ⟨by omega, by omega, ?_⟩
  obtain ⟨d, hd, hstands⟩ | ⟨e, d, hd, he⟩ := hc.advance hne
  · obtain ⟨d', hd', hstands'⟩ | ⟨e', d', hd', he'⟩ := hc'.advance hne'
    · have hless := Cursor.left_advance hd
      have hless' := Cursor.left_advance hd'
      exact .ok hd hd' (.inl ⟨i + 1, hstands, hstands', by omega, by omega⟩)
    · rw [hstands.current, he'] at hsame
      exact hsame.elim
  · obtain ⟨d', hd', hstands'⟩ | ⟨e', d', hd', he'⟩ := hc'.advance hne'
    · rw [he, hstands'.current] at hsame
      exact hsame.elim
    · exact .error hd hd' (Likeness.tokens_error h (hc.reaches_succ hne) he he')

theorem budget (hc : c.Abreast text text' n n' c') :
    ∃ m m', c.Abreast text text' m m' c' ∧ 4 * m + 3 < Reader.budget c ∧
      4 * m' + 3 < Reader.budget c' := by
  obtain ⟨i, hc, hc', -⟩ := hc
  refine ⟨c.length, c'.length, ⟨i, hc, hc', c.left_le, c'.left_le⟩, ?_, ?_⟩
  · unfold Reader.budget; omega
  · unfold Reader.budget; omega

end Cursor.Abreast

/-- Cursors at the same result go in lockstep. -/
def SameTokens.lockstep (h : SameTokens text text') : Lockstep (.tokens text text') where
  near := Cursor.Abreast text text'
  hole _ _ _ _ := False
  seam := False
  mono hc hm hm' := hc.mono hm hm'
  same_or_parts hc := .inl (hc.lexeme_eq h)
  pos hc := hc.pos
  step hc hk := hc.step h (Kind.ne_eof hk)
  hole_pos h := h.elim
  hole_ne h hx := Cursor.kind_ne_of_no_hole h hx
  hole_expr h := h.elim
  budget hc := hc.budget

theorem SameTokens.ofText? (h : SameTokens text text') :
    Read.Alike (.tokens text text') (Program.Alike (.tokens text text')) (Program.ofText? text)
      (Program.ofText? text') := by
  have hsame := h 0 (.zero text)
  unfold Program.ofText?
  cases hstart : Cursor.start (.ofText text) with
  | error e =>
      have he := Cursor.start_error hstart
      cases hstart' : Cursor.start (.ofText text') with
      | error e' => exact Likeness.tokens_error h (.zero text) he (Cursor.start_error hstart')
      | ok c' =>
          rw [he, (Cursor.start_stands hstart').current] at hsame
          exact hsame.elim
  | ok c =>
      have hc := Cursor.start_stands hstart
      cases hstart' : Cursor.start (.ofText text') with
      | error e' =>
          rw [hc.current, Cursor.start_error hstart'] at hsame
          exact hsame.elim
      | ok c' =>
          have hc' := Cursor.start_stands hstart'
          exact (Lockstep.program (P := h.lockstep) id (fun _ _ _ _ => id)
            ⟨0, hc, hc', Nat.le_refl _, Nat.le_refl _⟩).tree id

end

/-- The diagnostic is about result number `i` of the text. -/
def Diagnostic.IsAt (d : Diagnostic) (text : List Char) (i : Nat) : Prop :=
  d.line = some (resultPos (lexResult text i)).line ∧
    d.column = some (resultPos (lexResult text i)).column

/-- Compilation depends on a text only through its tokens: texts whose lexers yield tokens of the
same kind and text, up to the end or an error with the same message, compile to the same file, or
fail with the same code and message, which an internal error apart stands at the same token. -/
theorem compileText_depends_on_tokens (file : String) (layout : Layout) (output : Option String)
    (text text' : List Char) (h : SameTokens text text') :
    (∃ artifact, compileText file text layout output = .ok artifact ∧
      compileText file text' layout output = .ok artifact) ∨
    ∃ d d', compileText file text layout output = .error d ∧
      compileText file text' layout output = .error d' ∧ d'.code = d.code ∧
      d'.message = d.message ∧
      (d.code ≠ .internal → ∃ i, ReachesResult text i ∧ d.IsAt text i ∧ d'.IsAt text' i) := by
  unfold compileText
  obtain ⟨lines, hlines, hlines'⟩ | ⟨f, f', hf, hf', halike⟩ :=
    compileLines_alike Likeness.tokens_pos h.ofText?
  · rw [hlines, hlines']
    exact .inl ⟨_, rfl, rfl⟩
  · rw [hf, hf']
    refine .inr ⟨_, _, rfl, rfl, ?_⟩
    cases halike with
    | fault f => exact ⟨rfl, rfl, fun hne => absurd rfl hne⟩
    | @problem e e' h =>
        obtain ⟨hcode, hmessage, i, hi, hpos, hpos'⟩ := h
        refine ⟨hcode, hmessage, fun _ => ⟨i, hi, ?_, ?_⟩⟩
        · rw [Diagnostic.IsAt, ← hpos]
          exact ⟨rfl, rfl⟩
        · rw [Diagnostic.IsAt, ← hpos']
          exact ⟨rfl, rfl⟩

theorem compileText_depends_on_tokens_undeclared :
    ∃ d d', compileText "" "begin x := 1 end".toList = .error d ∧
      compileText "" "begin // nothing\n  x:=1 end".toList = .error d' ∧ d.code = .name ∧
      d'.code = .name ∧ d'.message = d.message ∧
      ∃ i, d.IsAt "begin x := 1 end".toList i ∧
        d'.IsAt "begin // nothing\n  x:=1 end".toList i := by
  have hsame : SameTokens "begin x := 1 end".toList "begin // nothing\n  x:=1 end".toList :=
    .of_le 5 (by decide +kernel) (by decide +kernel)
  have hcode : (match compileText "" "begin x := 1 end".toList with
      | .ok _ => none
      | .error d => some d.code) = some .name := by decide +kernel
  obtain ⟨artifact, h, -⟩ | ⟨d, d', h, h', hcode', hmessage, hplace⟩ :=
    compileText_depends_on_tokens "" {} none _ _ hsame
  · rw [h] at hcode
    cases hcode
  · rw [h] at hcode
    have hname : d.code = .name := Option.some.inj hcode
    obtain ⟨i, -, hi, hi'⟩ := hplace (by rw [hname]; decide)
    exact ⟨d, d', h, h', hname, hcode'.trans hname, hmessage, i, hi, hi'⟩

end Tern
