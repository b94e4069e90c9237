import Mathlib
import Tern.Token.Stream

/-!
# The results of reading a text

A lexer is asked for one token after the other.  Each token in front of the end takes characters
off the text, so that the stream of a text holds all of its results up to the first error, and the
kind and the text of a token say all there is to know of it but its place.
-/

namespace Tern

/-! ## One token -/

theorem Lexer.isWordPart_of_startsWord {c : Char} (h : startsWord c = true) :
    isWordPart c = true := by
  simp only [startsWord, Bool.or_eq_true] at h
  simp only [isWordPart, Char.isAlphanum, Bool.or_eq_true]
  exact h.imp .inl id

/-- A number spells its digits and then, possibly, a letter. -/
def Lexeme.Regular : Lexeme → Prop
  | .integer digits suffix =>
      (∀ c ∈ digits.toList, c.isDigit = true) ∧ ∀ c ∈ suffix, c.isDigit = false
  | _ => True

theorem Lexeme.Regular.digits {digits : String} {suffix : Option Char}
    (h : (Lexeme.integer digits suffix).Regular) :
    (digits.toList ++ suffix.toList).takeWhile Char.isDigit = digits.toList ∧
      (digits.toList ++ suffix.toList).dropWhile Char.isDigit = suffix.toList := by
  have hsuffix : suffix.toList.takeWhile Char.isDigit = [] ∧
      suffix.toList.dropWhile Char.isDigit = suffix.toList := by
    cases suffix with
    | none => exact ⟨rfl, rfl⟩
    | some c => simp [h.2 c rfl]
  rw [List.takeWhile_append_of_pos h.1, List.dropWhile_append_of_pos h.1, hsuffix.1, hsuffix.2,
    List.append_nil]
  exact ⟨rfl, rfl⟩

theorem Lexeme.Regular.eq {l l' : Lexeme} (h : l.Regular) (h' : l'.Regular)
    (hkind : l'.kind = l.kind) (htext : l'.text = l.text) : l' = l := by
  cases l with
  | identifier name =>
      cases l' <;> cases hkind
      exact congrArg Lexeme.identifier htext
  | integer digits suffix =>
      cases l' <;> cases hkind
      next digits' suffix' =>
      have hchars : digits'.toList ++ suffix'.toList = digits.toList ++ suffix.toList := by
        have hlist := congrArg String.toList htext
        cases suffix <;> cases suffix' <;> simpa [Lexeme.text] using hlist
      have hdigits : digits'.toList = digits.toList := by
        rw [← h'.digits.1, hchars, h.digits.1]
      have hsuffix : suffix'.toList = suffix.toList := by
        rw [← h'.digits.2, hchars, h.digits.2]
      have hsuffix' : suffix' = suffix := by
        cases suffix <;> cases suffix' <;> simp_all
      rw [String.toList_inj.1 hdigits, hsuffix']
  | char value =>
      cases l' <;> cases hkind
      next value' =>
      have hlist := congrArg String.toList htext
      simp only [Lexeme.text, Char.toString, String.toList_singleton, List.cons.injEq,
        and_true] at hlist
      rw [hlist]
  | keyword k =>
      cases l' <;> cases hkind
      rfl
  | symbol x =>
      cases l' <;> cases hkind
      rfl
  | eof =>
      cases l' <;> cases hkind
      rfl

namespace Scan

/-- What an attempt to read a token in front of `cs` comes to. -/
structure Attempts (cs : List Char) (s : Scan) : Prop where
  splits : s.taken ++ s.rest = cs
  regular : ∀ l, s.result = .ok l → l.Regular
  taken : ∀ l, s.result = .ok l → l ≠ .eof → s.taken ≠ []
  lexical : ∀ p, s.result = .error p → p.code = .lexical

namespace Attempts

variable {cs taken rest : List Char}

theorem ok {l : Lexeme} (hsplits : taken ++ rest = cs) (hl : l.Regular)
    (htaken : l ≠ .eof → taken ≠ []) : Attempts cs ⟨.ok l, taken, rest⟩ where
  splits := hsplits
  regular := by
    intro l' hl'
    exact Except.ok.inj hl' ▸ hl
  taken := by
    intro l' hl' hne
    exact htaken (Except.ok.inj hl' ▸ hne)
  lexical := nofun

theorem error {p : Problem} (hsplits : taken ++ rest = cs) (hp : p.code = .lexical) :
    Attempts cs ⟨.error p, taken, rest⟩ where
  splits := hsplits
  regular := nofun
  taken := nofun
  lexical := by
    intro p' hp'
    exact Except.error.inj hp' ▸ hp

end Attempts

theorem fail_attempts {p : Problem} (cs : List Char) (hp : p.code = .lexical) :
    (fail p cs).Attempts cs :=
  .error rfl hp

theorem word_attempts {c : Char} (cs : List Char) (hc : Lexer.startsWord c = true) :
    (word (c :: cs)).Attempts (c :: cs) := by
  have hpart := Lexer.isWordPart_of_startsWord hc
  refine .ok List.takeWhile_append_dropWhile ?_ fun _ => by simp [hpart]
  cases Keyword.ofWord? (String.ofList ((c :: cs).takeWhile Lexer.isWordPart)) <;> trivial

theorem integerSuffix_eq (cs : List Char) :
    (integerSuffix cs).1.toList ++ (integerSuffix cs).2 = cs ∧
      ∀ d ∈ (integerSuffix cs).1, d.isDigit = false := by
  unfold integerSuffix
  split <;> exact ⟨rfl, by simp⟩

theorem integer_attempts {c : Char} (cs : List Char) (hc : c.isDigit = true) :
    (integer (c :: cs)).Attempts (c :: cs) := by
  obtain ⟨hsuffix, hletter⟩ := integerSuffix_eq ((c :: cs).dropWhile Char.isDigit)
  have hsplits : ((c :: cs).takeWhile Char.isDigit ++
      (integerSuffix ((c :: cs).dropWhile Char.isDigit)).1.toList) ++
      (integerSuffix ((c :: cs).dropWhile Char.isDigit)).2 = c :: cs := by
    rw [List.append_assoc, hsuffix, List.takeWhile_append_dropWhile]
  unfold integer
  dsimp only
  split
  · exact .error hsplits rfl
  · refine .ok hsplits ⟨fun d hd => ?_, hletter⟩ fun _ => by simp [hc]
    rw [String.toList_ofList] at hd
    exact (List.all_eq_true.1 List.all_takeWhile) d hd

theorem closeChar_attempts {cs taken rest : List Char} (value : Char) (h : taken ++ rest = cs) :
    (closeChar cs value taken rest).Attempts cs := by
  unfold closeChar
  split
  · exact .ok (by simpa using h) trivial fun _ => by simp
  · exact fail_attempts _ rfl

theorem charLiteral_attempts (body : List Char) :
    (charLiteral ('\'' :: body) body).Attempts ('\'' :: body) := by
  unfold charLiteral
  split
  case h_5 c rest =>
    split
    · exact fail_attempts _ rfl
    · exact closeChar_attempts _ rfl
  case h_6 =>
    split
    · exact fail_attempts _ rfl
    · exact closeChar_attempts _ rfl
  all_goals exact fail_attempts _ rfl

theorem ofChars_attempts (cs : List Char) : (ofChars cs).Attempts cs := by
  cases cs with
  | nil => exact .ok rfl trivial fun h => absurd rfl h
  | cons c cs =>
      rw [ofChars]
      split
      · next hc => exact word_attempts cs hc
      · split
        · next hc => exact integer_attempts cs hc
        · split
          · next hquote =>
            obtain rfl : c = '\'' := by simpa using hquote
            exact charLiteral_attempts cs
          · split
            · next x hx =>
              have hprefix := List.find?_some hx
              rw [List.isPrefixOf_iff_prefix] at hprefix
              obtain ⟨rest, hrest⟩ := hprefix
              have hne : x.spelling.toList ≠ [] := by cases x <;> decide
              refine .ok ?_ trivial fun _ => hne
              rw [← hrest, List.drop_left' String.length_toList]
            · exact fail_attempts _ rfl

end Scan

/-! ## One result after the other -/

namespace Lexer

theorem dropTrivia_length (inComment : Bool) (cs : List Char) (p : Position) :
    (dropTrivia inComment cs p).rest.length ≤ cs.length := by
  induction cs generalizing inComment p with
  | nil => exact Nat.le_refl _
  | cons c cs ih =>
      rw [dropTrivia]
      split
      · exact Nat.le_succ_of_le (ih _ _)
      · split
        · exact Nat.le_succ_of_le (ih _ _)
        · split
          · exact Nat.le_succ_of_le (ih _ _)
          · exact Nat.le_refl _

theorem next_ok {lx : Lexer} {t : Token} (h : lx.next.1 = .ok t) :
    (Scan.ofChars lx.skipTrivia.rest).result = .ok t.lexeme := by
  unfold next at h
  dsimp only at h
  split at h
  · next l hl => rw [hl, ← Except.ok.inj h]
  · cases h

theorem next_error {lx : Lexer} {e : CompileError} (h : lx.next.1 = .error e) :
    (Scan.ofChars lx.skipTrivia.rest).result = .error e.problem := by
  unfold next at h
  dsimp only at h
  split at h
  · cases h
  · next p hp => rw [hp, ← Except.error.inj h]

theorem next_length {lx : Lexer} {t : Token} (h : lx.next.1 = .ok t) (ht : t.lexeme ≠ .eof) :
    lx.next.2.rest.length < lx.rest.length := by
  have hattempts := Scan.ofChars_attempts lx.skipTrivia.rest
  have htrivia : lx.skipTrivia.rest.length ≤ lx.rest.length :=
    dropTrivia_length false lx.rest lx.pos
  have htaken := List.length_pos_iff.2 (hattempts.taken _ (next_ok h) ht)
  have hsplits := congrArg List.length hattempts.splits
  rw [List.length_append] at hsplits
  change (Scan.ofChars lx.skipTrivia.rest).rest.length < _
  omega

def after (lx : Lexer) : Nat → Lexer
  | 0 => lx
  | n + 1 => (lx.after n).next.2

end Lexer

/-- What the lexer yields when it is asked for the next token after `n` others. -/
def lexResult (text : List Char) (n : Nat) : Except CompileError Token :=
  ((Lexer.ofText text).after n).next.1

/-- Where the token or the error of a result stands. -/
def resultPos : Except CompileError Token → Position
  | .ok t => t.pos
  | .error e => e.pos

/-- The first `n` results are tokens in front of the end of the text. -/
def ReachesResult (text : List Char) (n : Nat) : Prop :=
  ∀ m < n, ∃ t, lexResult text m = .ok t ∧ t.kind ≠ .eof

theorem ReachesResult.zero (text : List Char) : ReachesResult text 0 := nofun

/-- Tokens of the same kind with the same text, or errors with the same message. -/
def SameResult : Except CompileError Token → Except CompileError Token → Prop
  | .ok t, .ok t' => t'.kind = t.kind ∧ t'.lexeme.text = t.lexeme.text
  | .error e, .error e' => e'.problem.message = e.problem.message
  | _, _ => False

/-- The texts yield the same results up to the end or the first error. -/
def SameTokens (text text' : List Char) : Prop :=
  ∀ n, ReachesResult text n → SameResult (lexResult text n) (lexResult text' n)

instance : ∀ r r' : Except CompileError Token, Decidable (SameResult r r')
  | .ok _, .ok _ => inferInstanceAs (Decidable (_ ∧ _))
  | .error _, .error _ => inferInstanceAs (Decidable (_ = _))
  | .ok _, .error _ | .error _, .ok _ => inferInstanceAs (Decidable False)

/-- It is enough to compare results up to one that is the end or an error. -/
theorem SameTokens.of_le {text text' : List Char} (k : Nat)
    (hk : ∀ t ∈ (lexResult text k).toOption, t.kind = .eof)
    (h : ∀ n ≤ k, SameResult (lexResult text n) (lexResult text' n)) : SameTokens text text' := by
  intro n hn
  by_cases hle : n ≤ k
  · exact h n hle
  · obtain ⟨t, ht, hne⟩ := hn k (Nat.lt_of_not_le hle)
    exact absurd (hk t (by rw [ht]; rfl)) hne

theorem lexResult_regular {text : List Char} {n : Nat} {t : Token}
    (h : lexResult text n = .ok t) : t.lexeme.Regular :=
  (Scan.ofChars_attempts _).regular _ (Lexer.next_ok h)

theorem lexResult_lexical {text : List Char} {n : Nat} {e : CompileError}
    (h : lexResult text n = .error e) : e.problem.code = .lexical :=
  (Scan.ofChars_attempts _).lexical _ (Lexer.next_error h)

theorem SameResult.lexeme_eq {text text' : List Char} {n n' : Nat} {t t' : Token}
    (h : lexResult text n = .ok t) (h' : lexResult text' n' = .ok t')
    (hsame : SameResult (lexResult text n) (lexResult text' n')) : t'.lexeme = t.lexeme := by
  rw [h, h'] at hsame
  exact (lexResult_regular h).eq (lexResult_regular h') hsame.1 hsame.2

/-! ## The stream of a text -/

theorem TokenStream.ofLexer_next {fuel : Nat} {lx : Lexer} (hfuel : lx.rest.length < fuel) :
    (ofLexer fuel lx).next.1 = lx.next.1 ∧
      ∀ t, lx.next.1 = .ok t → t.kind ≠ .eof →
        ∃ fuel', (ofLexer fuel lx).next.2 = ofLexer fuel' lx.next.2 ∧
          lx.next.2.rest.length < fuel' := by
  obtain ⟨fuel, rfl⟩ := Nat.exists_eq_add_one.2 (Nat.zero_lt_of_lt hfuel)
  have hlength : ∀ {t}, lx.next.1 = .ok t → t.lexeme ≠ .eof →
      lx.next.2.rest.length < lx.rest.length := Lexer.next_length
  rw [ofLexer]
  split
  · next t lx' h =>
    rw [h] at hlength ⊢
    split
    · next heof =>
      obtain ⟨l, pos⟩ := t
      obtain rfl : l = .eof := by cases l <;> first | rfl | cases heof
      refine ⟨rfl, fun t ht hne => absurd ?_ hne⟩
      rw [← Except.ok.inj ht]
      exact heof
    · next hne =>
      refine ⟨rfl, fun t ht _ => ⟨fuel, rfl, ?_⟩⟩
      have hlexeme : t.lexeme ≠ .eof := by
        intro heof
        rw [Except.ok.inj ht, Token.kind, heof] at hne
        exact hne rfl
      have hless := hlength ht hlexeme
      dsimp only at hless ⊢
      omega
  · next e lx' h =>
    rw [h]
    split
    · exact ⟨rfl, nofun⟩
    · exact ⟨rfl, nofun⟩

end Tern
