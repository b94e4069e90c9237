import Tern.Proofs.Token.Results

/-!
# The lexical rules

How a lexeme is spelled, and what may stand between lexemes.  Reading a token takes the longest
spelling that a text starts with, and skipping trivia takes all blanks and comments in front of
it.
-/

namespace Tern

open Lexer (isBlank startsWord isWordPart)

/-! ## Spellings -/

def reservedWords : List String := ["var", "export", "begin", "end", "as"]

/-- The letters behind a backslash and the characters that they denote. -/
def escapes : List (Char × Char) :=
  [('n', '\n'), ('t', '\t'), ('r', '\r'), ('0', '\x00'), ('\\', '\\'), ('\'', '\'')]

/-- The characters spell the lexeme.  A character literal is its character or an escape of it,
between quotes; everything else is spelled by its text. -/
inductive Lexeme.Spelt : Lexeme → List Char → Prop where
  | identifier {c : Char} {cs : List Char} (hc : startsWord c = true)
      (hcs : ∀ d ∈ cs, isWordPart d = true) (hword : String.ofList (c :: cs) ∉ reservedWords) :
      Spelt (.identifier (String.ofList (c :: cs))) (c :: cs)
  | keyword (k : Keyword) : Spelt (.keyword k) k.spelling.toList
  | integer {digits : List Char} {suffix : Option Char} (hne : digits ≠ [])
      (hdigits : ∀ d ∈ digits, d.isDigit = true) (hsuffix : ∀ c ∈ suffix, c = 'l' ∨ c = 'L') :
      Spelt (.integer (String.ofList digits) suffix) (digits ++ suffix.toList)
  | char {c : Char} (hbyte : c.toNat ≤ 0xff) (hc : c ∉ ['\n', '\'', '\\']) :
      Spelt (.char c) ['\'', c, '\'']
  | escape {e c : Char} (h : (e, c) ∈ escapes) : Spelt (.char c) ['\'', '\\', e, '\'']
  | symbol (x : Symbol) : Spelt (.symbol x) x.spelling.toList

/-- No longer prefix of `cs` than `s` spells a lexeme. -/
def Longest (cs s : List Char) : Prop :=
  ∀ l' s', Lexeme.Spelt l' s' → s' <+: cs → s'.length ≤ s.length

namespace Lexer

theorem isWordPart_of_isDigit {c : Char} (h : c.isDigit = true) : isWordPart c = true := by
  simp [isWordPart, Char.isAlphanum, h]

theorem startsWord_of_isDigit {c : Char} (h : c.isDigit = true) : startsWord c = false := by
  have hne : c ≠ '_' := by
    rintro rfl
    cases h
  have halpha : c.isAlpha = false := by
    simp only [Char.isDigit, Char.isAlpha, Char.isUpper, Char.isLower, Bool.and_eq_true,
      Bool.and_eq_false_iff, Bool.or_eq_false_iff, decide_eq_true_eq, decide_eq_false_iff_not,
      ge_iff_le, UInt32.le_iff_toNat_le] at h ⊢
    have hnine : '9'.val.toNat = 57 := rfl
    have hupper : 'A'.val.toNat = 65 := rfl
    have hlower : 'a'.val.toNat = 97 := rfl
    omega
  simp [startsWord, halpha, hne]

end Lexer

theorem Keyword.ofWord?_eq_some {word : String} {k : Keyword} :
    ofWord? word = some k ↔ k.spelling = word := by
  constructor
  · intro h
    simpa using List.find?_some h
  · rintro rfl
    cases k <;> decide

theorem Keyword.ofWord?_eq_none {word : String} : ofWord? word = none ↔ word ∉ reservedWords := by
  have hwords : reservedWords = all.map spelling := rfl
  simp [hwords, ofWord?]

namespace Lexeme.Spelt

variable {l l' : Lexeme} {s s' cs : List Char} {c : Char}

theorem ne_eof (h : l.Spelt s) : l ≠ .eof := by
  cases h <;> nofun

theorem ne_nil (h : l.Spelt s) : s ≠ [] := by
  cases h with
  | keyword k => cases k <;> decide
  | integer hne => simp [hne]
  | symbol x => cases x <;> decide
  | identifier | char | escape => exact List.cons_ne_nil _ _

theorem head?_eq (h : l.Spelt s) (hs : s <+: c :: cs) : s.head? = some c := by
  obtain ⟨d, s', rfl⟩ := List.exists_cons_of_ne_nil h.ne_nil
  rw [(List.cons_prefix_cons.1 hs).1]
  rfl

theorem wordParts (h : l.Spelt s) (hc : s.head? = some c) (hpart : Lexer.isWordPart c = true) :
    ∀ d ∈ s, Lexer.isWordPart d = true := by
  cases h with
  | identifier hstarts hcs =>
      rw [List.forall_mem_cons]
      exact ⟨Lexer.isWordPart_of_startsWord hstarts, hcs⟩
  | keyword k => cases k <;> exact List.all_eq_true.1 (by decide)
  | integer _ hdigits hsuffix =>
      rw [List.forall_mem_append]
      refine ⟨fun d hd => Lexer.isWordPart_of_isDigit (hdigits d hd), fun d hd => ?_⟩
      obtain rfl | rfl := hsuffix d (Option.mem_toList.1 hd) <;> decide
  | char | escape =>
      cases hc
      cases hpart
  | symbol x => cases x <;> cases hc <;> cases hpart

/-- A word or a number takes no other characters. -/
theorem prefix_takeWhile (h : l.Spelt s) (hs : s <+: c :: cs)
    (hpart : Lexer.isWordPart c = true) : s <+: (c :: cs).takeWhile Lexer.isWordPart := by
  have hword := h.wordParts (h.head?_eq hs) hpart
  obtain ⟨t, ht⟩ := hs
  rw [← ht, List.takeWhile_append_of_pos hword]
  exact List.prefix_append _ _

theorem exists_digits (h : l.Spelt s) (hc : s.head? = some c) (hdigit : c.isDigit = true) :
    ∃ (digits : List Char) (suffix : Option Char), s = digits ++ suffix.toList ∧
      (∀ d ∈ digits, d.isDigit = true) ∧ ∀ d ∈ suffix, d = 'l' ∨ d = 'L' := by
  cases h with
  | integer _ hdigits hsuffix => exact ⟨_, _, rfl, hdigits, hsuffix⟩
  | identifier hword =>
      cases hc
      rw [Lexer.startsWord_of_isDigit hdigit] at hword
      cases hword
  | keyword k => cases k <;> cases hc <;> cases hdigit
  | char | escape =>
      cases hc
      cases hdigit
  | symbol x => cases x <;> cases hc <;> cases hdigit

theorem exists_quoted (h : l.Spelt s) (hc : s.head? = some '\'') :
    (∃ c ≠ '\\', s = ['\'', c, '\'']) ∨ ∃ e, s = ['\'', '\\', e, '\''] := by
  cases h with
  | char _ hchar =>
      simp only [List.mem_cons, not_or] at hchar
      exact .inl ⟨_, hchar.2.2.1, rfl⟩
  | escape => exact .inr ⟨_, rfl⟩
  | identifier hword =>
      cases hc
      cases hword
  | keyword k => cases k <;> cases hc
  | @integer digits _ hne hdigits =>
      obtain ⟨d, ds, rfl⟩ := List.exists_cons_of_ne_nil hne
      cases hc
      exact absurd (hdigits _ List.mem_cons_self) (by decide)
  | symbol x => cases x <;> cases hc

theorem length_le_of_quote (h : l.Spelt s) (h' : l'.Spelt s') (hs : s <+: '\'' :: cs)
    (hs' : s' <+: '\'' :: cs) : s'.length ≤ s.length := by
  obtain ⟨c, hc, rfl⟩ | ⟨e, rfl⟩ := h.exists_quoted (h.head?_eq hs)
  · obtain ⟨c', -, rfl⟩ | ⟨e', rfl⟩ := h'.exists_quoted (h'.head?_eq hs')
    · exact Nat.le_refl _
    · obtain ⟨t, ht⟩ := hs
      obtain ⟨t', ht'⟩ := hs'
      rw [← ht'] at ht
      cases ht
      exact absurd rfl hc
  · obtain ⟨c', -, rfl⟩ | ⟨e', rfl⟩ := h'.exists_quoted (h'.head?_eq hs')
    · exact Nat.le_succ _
    · exact Nat.le_refl _

theorem exists_symbol (h : l.Spelt s) (hc : s.head? = some c)
    (hpart : Lexer.isWordPart c = false) (hquote : c ≠ '\'') :
    ∃ x : Symbol, s = x.spelling.toList := by
  cases h with
  | symbol x => exact ⟨x, rfl⟩
  | identifier hword =>
      cases hc
      rw [Lexer.isWordPart_of_startsWord hword] at hpart
      cases hpart
  | keyword k => cases k <;> cases hc <;> cases hpart
  | @integer digits _ hne hdigits =>
      obtain ⟨d, ds, rfl⟩ := List.exists_cons_of_ne_nil hne
      cases hc
      rw [Lexer.isWordPart_of_isDigit (hdigits _ List.mem_cons_self)] at hpart
      cases hpart
  | char | escape =>
      cases hc
      exact absurd rfl hquote

end Lexeme.Spelt

/-! ## Reading a token -/

namespace Scan

/-- An attempt to read a token in front of `cs` keeps to the lexical rules: it takes the longest
spelling there is, or nothing if there is none.  A number that is not separated from a word is
passed all the same. -/
structure Lawful (cs : List Char) (s : Scan) : Prop where
  ok : ∀ l, s.result = .ok l →
    (l = .eof ∧ cs = []) ∨ (l.Spelt s.taken ∧ Longest cs s.taken)
  error : ∀ p, s.result = .error p →
    (p ≠ .malformedInteger ∧ s.taken = []) ∨
      (p = .malformedInteger ∧ ∃ digits suffix, (Lexeme.integer digits suffix).Spelt s.taken ∧
        Longest cs s.taken)

variable {cs taken rest : List Char} {c : Char}

theorem Lawful.of_ok {l : Lexeme} (h : l.Spelt taken) (hlongest : Longest cs taken) :
    Lawful cs ⟨.ok l, taken, rest⟩ where
  ok l' hl' := by
    cases hl'
    exact .inr ⟨h, hlongest⟩
  error := nofun

theorem fail_lawful {p : Problem} (hp : p ≠ .malformedInteger) : (fail p cs).Lawful cs where
  ok := nofun
  error p' hp' := by
    cases hp'
    exact .inl ⟨hp, rfl⟩

theorem word_lawful (hc : startsWord c = true) : (word (c :: cs)).Lawful (c :: cs) := by
  have hpart := Lexer.isWordPart_of_startsWord hc
  have htaken : (c :: cs).takeWhile isWordPart = c :: cs.takeWhile isWordPart := by
    simp [hpart]
  refine .of_ok ?_ fun l' s' h hs => (h.prefix_takeWhile hs hpart).length_le
  cases hword : Keyword.ofWord? (String.ofList ((c :: cs).takeWhile isWordPart)) with
  | none =>
      rw [Keyword.ofWord?_eq_none] at hword
      rw [Option.elim_none]
      rw [htaken] at hword ⊢
      exact .identifier hc (fun d hd => List.mem_takeWhile_imp hd) hword
  | some k =>
      rw [Keyword.ofWord?_eq_some] at hword
      rw [Option.elim_some, ← String.toList_ofList (l := (c :: cs).takeWhile isWordPart), ← hword]
      exact .keyword k

theorem integerSuffix_letter (cs : List Char) :
    ∀ d ∈ (integerSuffix cs).1, d = 'l' ∨ d = 'L' := by
  unfold integerSuffix
  split <;> simp

/-- The digits and the suffix of a number are as many as there are. -/
theorem integer_taken (cs : List Char) (hc : c.isDigit = true) :
    ∃ digits suffix, (Lexeme.integer digits suffix).Spelt (integer (c :: cs)).taken ∧
      Longest (c :: cs) (integer (c :: cs)).taken ∧
      ((integer (c :: cs)).result = .ok (.integer digits suffix) ∨
        (integer (c :: cs)).result = .error .malformedInteger) := by
  have htaken : (integer (c :: cs)).taken = (c :: cs).takeWhile Char.isDigit ++
      (integerSuffix ((c :: cs).dropWhile Char.isDigit)).1.toList := by
    rw [integer]
    dsimp only
    split <;> rfl
  refine ⟨String.ofList ((c :: cs).takeWhile Char.isDigit),
    (integerSuffix ((c :: cs).dropWhile Char.isDigit)).1, ?_, ?_, ?_⟩
  · rw [htaken]
    exact .integer (by simp [hc]) (fun d hd => List.mem_takeWhile_imp hd) (integerSuffix_letter _)
  · intro l' s' h hs
    obtain ⟨digits, suffix, rfl, hdigits, hsuffix⟩ := h.exists_digits (h.head?_eq hs) hc
    obtain ⟨t, ht⟩ := hs
    rw [htaken, ← ht, List.append_assoc, List.takeWhile_append_of_pos hdigits,
      List.dropWhile_append_of_pos hdigits]
    cases suffix with
    | none => simp
    | some d =>
        obtain rfl | rfl := hsuffix d rfl
        · simp [integerSuffix]
        · simp [integerSuffix]
  · rw [integer]
    dsimp only
    split
    · exact .inr rfl
    · exact .inl rfl

theorem integer_lawful (hc : c.isDigit = true) : (integer (c :: cs)).Lawful (c :: cs) := by
  obtain ⟨digits, suffix, hspelt, hlongest, hresult⟩ := integer_taken cs hc
  refine ⟨fun l hl => .inr ?_, fun p hp => .inr ?_⟩
  · obtain hok | herror := hresult
    · cases hok.symm.trans hl
      exact ⟨hspelt, hlongest⟩
    · cases herror.symm.trans hl
  · obtain hok | herror := hresult
    · cases hok.symm.trans hp
    · cases herror.symm.trans hp
      exact ⟨rfl, digits, suffix, hspelt, hlongest⟩

theorem escape?_eq_some {e : Char} : escape? e = some c ↔ (e, c) ∈ escapes := by
  constructor
  · intro h
    unfold escape? at h
    split at h <;> cases h <;> decide
  · intro h
    simp only [escapes, List.mem_cons, Prod.mk.injEq, List.not_mem_nil, or_false] at h
    rcases h with ⟨rfl, rfl⟩ | ⟨rfl, rfl⟩ | ⟨rfl, rfl⟩ | ⟨rfl, rfl⟩ | ⟨rfl, rfl⟩ | ⟨rfl, rfl⟩ <;>
      rfl

/-- What is a character literal up to its closing quote is one if the quote follows. -/
theorem closeChar_lawful {value : Char} (htaken : taken ++ rest = '\'' :: cs)
    (h : (Lexeme.char value).Spelt (taken ++ ['\''])) :
    (closeChar ('\'' :: cs) value taken rest).Lawful ('\'' :: cs) := by
  unfold closeChar
  split
  · next rest' =>
    have hclosed : '\'' :: cs = taken ++ ['\''] ++ rest' := by
      rw [← htaken, List.append_assoc, List.singleton_append]
    refine .of_ok h fun l' s' h' hs' => h.length_le_of_quote h' ?_ hs'
    rw [hclosed]
    exact List.prefix_append _ _
  · exact fail_lawful nofun

theorem charLiteral_lawful (body : List Char) :
    (charLiteral ('\'' :: body) body).Lawful ('\'' :: body) := by
  unfold charLiteral
  split
  case h_5 e rest =>
    split
    · exact fail_lawful nofun
    · next value hvalue => exact closeChar_lawful rfl (.escape (escape?_eq_some.1 hvalue))
  case h_6 c rest hnewline hquote hend hescape =>
    split
    · exact fail_lawful nofun
    · next hbyte =>
      have hbackslash : c ≠ '\\' := by
        intro hc
        cases rest with
        | nil => exact hend hc rfl
        | cons d rest => exact hescape d rest hc rfl
      refine closeChar_lawful rfl (.char (Nat.not_lt.1 hbyte) ?_)
      simp only [List.mem_cons, List.not_mem_nil, or_false, not_or]
      exact ⟨hnewline, hquote, hbackslash⟩
  all_goals exact fail_lawful nofun

/-- Longer symbols come first. -/
theorem symbol?_longest {x y : Symbol} (hx : symbol? cs = some x)
    (hy : y.spelling.toList <+: cs) : y.spelling.toList.length ≤ x.spelling.toList.length := by
  obtain ⟨t, rfl⟩ := hy
  cases y with
  | assign | shl | shr =>
      obtain rfl := Option.some.inj hx
      exact Nat.le_refl _
  | _ => cases x <;> decide

theorem ofChars_lawful (cs : List Char) : (ofChars cs).Lawful cs := by
  cases cs with
  | nil =>
      refine ⟨fun l hl => .inl ⟨(Except.ok.inj hl).symm, rfl⟩, fun p hp => ?_⟩
      cases hp
  | cons c cs =>
      rw [ofChars]
      split
      · next hc => exact word_lawful hc
      · next hword =>
        split
        · next hc => exact integer_lawful hc
        · next hdigit =>
          split
          · next hquote =>
            obtain rfl : c = '\'' := by simpa using hquote
            exact charLiteral_lawful cs
          · next hquote =>
            have hpart : isWordPart c = false := by
              simp only [startsWord, isWordPart, Char.isAlphanum, Bool.or_eq_true, not_or,
                Bool.not_eq_true, Bool.or_eq_false_iff] at hword hdigit ⊢
              exact ⟨⟨hword.1, hdigit⟩, hword.2⟩
            split
            · next x hx =>
              refine .of_ok (.symbol x) fun l' s' h hs => ?_
              obtain ⟨y, rfl⟩ := h.exists_symbol (h.head?_eq hs) hpart (by simpa using hquote)
              exact symbol?_longest hx hs
            · exact fail_lawful (by simp)

theorem takeWhile_run {p : Char → Bool} {run : List Char} (hrun : ∀ d ∈ run, p d = true)
    (hrest : ∀ d ∈ rest.head?, p d = false) :
    (run ++ rest).takeWhile p = run ∧ (run ++ rest).dropWhile p = rest := by
  have hstop : rest.takeWhile p = [] ∧ rest.dropWhile p = rest := by
    cases rest with
    | nil => exact ⟨rfl, rfl⟩
    | cons d rest => simp [hrest d rfl]
  rw [List.takeWhile_append_of_pos hrun, List.dropWhile_append_of_pos hrun, hstop.1, hstop.2,
    List.append_nil]
  exact ⟨rfl, rfl⟩

theorem ofChars_word {run : List Char} (hhead : run.head?.any startsWord = true)
    (hrun : ∀ d ∈ run, isWordPart d = true) (hrest : ∀ d ∈ rest.head?, isWordPart d = false) :
    ofChars (run ++ rest) =
      ⟨.ok ((Keyword.ofWord? (String.ofList run)).elim (.identifier (String.ofList run)) .keyword),
        run, rest⟩ := by
  obtain ⟨htake, hdrop⟩ := takeWhile_run hrun hrest
  cases run with
  | nil => cases hhead
  | cons c run =>
      have hc : startsWord c = true := hhead
      rw [List.cons_append] at htake hdrop ⊢
      rw [ofChars, if_pos hc, word, htake, hdrop]

theorem ofChars_integer {digits : List Char} {suffix : Option Char} (hne : digits ≠ [])
    (hdigits : ∀ d ∈ digits, d.isDigit = true) (hsuffix : ∀ d ∈ suffix, d = 'l' ∨ d = 'L')
    (hrest : ∀ d ∈ rest.head?, isWordPart d = false) :
    ofChars (digits ++ suffix.toList ++ rest) =
      ⟨.ok (.integer (String.ofList digits) suffix), digits ++ suffix.toList, rest⟩ := by
  have hstop : ∀ d ∈ (suffix.toList ++ rest).head?, d.isDigit = false := by
    intro d hd
    cases suffix with
    | none =>
        cases hdigit : d.isDigit with
        | false => rfl
        | true => exact absurd (hrest d hd) (by simp [Lexer.isWordPart_of_isDigit hdigit])
    | some x =>
        cases hd
        obtain rfl | rfl := hsuffix _ rfl <;> rfl
  have hsplit : integerSuffix (suffix.toList ++ rest) = (suffix, rest) := by
    cases suffix with
    | some x => obtain rfl | rfl := hsuffix x rfl <;> rfl
    | none =>
        rw [Option.toList_none, List.nil_append]
        unfold integerSuffix
        split
        · cases hrest 'l' rfl
        · cases hrest 'L' rfl
        · rfl
  have hany : rest.head?.any isWordPart = false := by
    cases rest with
    | nil => rfl
    | cons d rest => exact hrest d rfl
  obtain ⟨htake, hdrop⟩ := takeWhile_run hdigits hstop
  obtain ⟨c, digits, rfl⟩ := List.exists_cons_of_ne_nil hne
  have hc : c.isDigit = true := hdigits c List.mem_cons_self
  rw [List.append_assoc]
  rw [List.cons_append] at htake hdrop ⊢
  rw [ofChars, Lexer.startsWord_of_isDigit hc, if_neg Bool.false_ne_true, if_pos hc, integer, htake,
    hdrop]
  simp only [hsplit, hany, Bool.false_eq_true, if_false]

theorem ofChars_quote (body : List Char) :
    ofChars ('\'' :: body) = charLiteral ('\'' :: body) body := rfl

theorem ofChars_spelt {l : Lexeme} {s : List Char} (h : l.Spelt s)
    (hrest : ∀ d ∈ rest.head?, isWordPart d = false ∧ d ≠ '=') :
    ofChars (s ++ rest) = ⟨.ok l, s, rest⟩ := by
  have hpart : ∀ d ∈ rest.head?, isWordPart d = false := fun d hd => (hrest d hd).1
  cases h with
  | @identifier c cs hc hcs hword =>
      have hparts : ∀ d ∈ c :: cs, isWordPart d = true :=
        List.forall_mem_cons.2 ⟨Lexer.isWordPart_of_startsWord hc, hcs⟩
      have hhead : (c :: cs).head?.any startsWord = true := hc
      rw [ofChars_word hhead hparts hpart, Keyword.ofWord?_eq_none.2 hword]
      rfl
  | keyword k =>
      have hhead : k.spelling.toList.head?.any startsWord = true := by cases k <;> decide
      have hparts : ∀ d ∈ k.spelling.toList, isWordPart d = true := by
        cases k <;> exact List.all_eq_true.1 (by decide)
      rw [ofChars_word hhead hparts hpart, String.ofList_toList, Keyword.ofWord?_eq_some.2 rfl]
      rfl
  | integer hne hdigits hsuffix => exact ofChars_integer hne hdigits hsuffix hpart
  | @char c hbyte hc =>
      simp only [List.mem_cons, List.not_mem_nil, or_false, not_or] at hc
      simp only [List.cons_append, List.nil_append, ofChars_quote]
      rw [charLiteral, if_neg (Nat.not_lt.2 hbyte)]
      · rfl
      · exact hc.1
      · exact hc.2.1
      · exact fun h => absurd h hc.2.2
      · exact fun _ _ h => absurd h hc.2.2
  | escape h =>
      simp only [List.cons_append, List.nil_append, ofChars_quote]
      rw [charLiteral, escape?_eq_some.2 h]
      rfl
  | symbol x =>
      cases x with
      | colon =>
          cases rest with
          | nil => rfl
          | cons d rest =>
              have hd : ('=' == d) = false := beq_false_of_ne (hrest d rfl).2.symm
              have hsymbol : symbol? (':' :: d :: rest) = some .colon := by
                simp [symbol?, Symbol.all, Symbol.spelling, List.isPrefixOf, hd]
              change ofChars (':' :: d :: rest) = _
              rw [ofChars, hsymbol]
              rfl
      | _ => rfl

end Scan

theorem Lexeme.Spelt.unique {l l' : Lexeme} {s : List Char} (h : l.Spelt s) (h' : l'.Spelt s) :
    l = l' := by
  have hend : ∀ d ∈ ([] : List Char).head?, isWordPart d = false ∧ d ≠ '=' := by simp
  have hread := Scan.ofChars_spelt h hend
  rw [Scan.ofChars_spelt h' hend] at hread
  cases hread
  rfl

/-! ## Between tokens -/

/-- Blanks and comments.  A comment runs to the end of its line; only the last line of a text has
no end, so that `last` says whether the text ends here. -/
inductive Trivia (last : Bool) : List Char → Prop where
  | nil : Trivia last []
  | blank {c : Char} {cs : List Char} (hc : isBlank c = true) (h : Trivia last cs) :
      Trivia last (c :: cs)
  | comment {body cs : List Char} (hbody : '\n' ∉ body) (h : Trivia last cs) :
      Trivia last ('/' :: '/' :: (body ++ '\n' :: cs))
  | lastComment {body : List Char} (hlast : last = true) (hbody : '\n' ∉ body) :
      Trivia last ('/' :: '/' :: body)

def StartsTrivia (cs : List Char) : Prop := cs.head?.any isBlank = true ∨ ['/', '/'] <+: cs

theorem not_startsTrivia_nil : ¬ StartsTrivia [] := by simp [StartsTrivia]

theorem Lexer.isBlank_parts {c : Char} (h : isBlank c = true) :
    isWordPart c = false ∧ c ≠ '=' ∧ c ≠ '/' ∧ c ≠ '\'' := by
  simp only [isBlank, Bool.or_eq_true, beq_iff_eq] at h
  rcases h with ((rfl | rfl) | rfl) | rfl <;> decide

theorem Lexeme.Spelt.not_startsTrivia {l : Lexeme} {s rest : List Char} (h : l.Spelt s)
    (hrest : rest.head? ≠ some '/') : ¬ StartsTrivia (s ++ rest) := by
  obtain ⟨c, s', rfl⟩ := List.exists_cons_of_ne_nil h.ne_nil
  rintro (hblank | ⟨t, ht⟩)
  · obtain ⟨hpart, -, -, hquote⟩ := Lexer.isBlank_parts hblank
    obtain ⟨x, hx⟩ := h.exists_symbol rfl hpart hquote
    cases x <;> cases hx <;> cases hblank
  · obtain ⟨rfl, htail⟩ := List.cons.inj ht
    obtain ⟨x, hx⟩ := h.exists_symbol rfl (by decide) (by decide)
    cases x <;> cases hx
    exact hrest (congrArg List.head? htail).symm

namespace Lexer

/-- What is dropped once a comment is open: the rest of its line, and trivia behind that. -/
def CommentRest (last : Bool) (cs : List Char) : Prop :=
  ∃ body, '\n' ∉ body ∧ ((last = true ∧ cs = body) ∨ ∃ t, Trivia last t ∧ cs = body ++ '\n' :: t)

theorem CommentRest.cons {last : Bool} {c : Char} {cs : List Char} (hc : c ≠ '\n')
    (h : CommentRest last cs) : CommentRest last (c :: cs) := by
  obtain ⟨body, hbody, h⟩ := h
  refine ⟨c :: body, by simp [hbody, hc.symm], ?_⟩
  obtain ⟨hlast, rfl⟩ | ⟨t, ht, rfl⟩ := h
  · exact .inl ⟨hlast, rfl⟩
  · exact .inr ⟨t, ht, rfl⟩

theorem CommentRest.trivia {last : Bool} {cs : List Char} (h : CommentRest last ('/' :: cs)) :
    Trivia last ('/' :: '/' :: cs) := by
  obtain ⟨body, hbody, h⟩ := h
  cases body with
  | nil =>
      obtain ⟨-, h⟩ | ⟨t, -, h⟩ := h
      · cases h
      · cases h
  | cons c body =>
      rw [List.mem_cons, not_or] at hbody
      obtain ⟨hlast, h⟩ | ⟨t, ht, h⟩ := h
      · cases h
        exact .lastComment hlast hbody.2
      · cases h
        exact .comment hbody.2 ht

theorem dropTrivia_spec (inComment : Bool) (cs : List Char) (p : Position) :
    ∃ t, cs = t ++ (dropTrivia inComment cs p).rest ∧
      (dropTrivia inComment cs p).pos = p.afterAll t ∧
      ¬ StartsTrivia (dropTrivia inComment cs p).rest ∧
      if inComment then CommentRest (dropTrivia inComment cs p).rest.isEmpty t
      else Trivia (dropTrivia inComment cs p).rest.isEmpty t := by
  induction cs generalizing inComment p with
  | nil =>
      refine ⟨[], rfl, rfl, by simp [dropTrivia, StartsTrivia], ?_⟩
      cases inComment with
      | true => exact ⟨[], List.not_mem_nil, .inl ⟨rfl, rfl⟩⟩
      | false => exact .nil
  | cons c cs ih =>
      cases inComment with
      | true =>
          simp only [dropTrivia, if_true]
          obtain ⟨t, hcs, hpos, hrest, ht⟩ := ih (c != '\n') (p.after c)
          refine ⟨c :: t, congrArg (c :: ·) hcs, hpos, hrest, ?_⟩
          by_cases hc : c = '\n'
          · subst hc
            exact ⟨[], List.not_mem_nil, .inr ⟨t, ht, rfl⟩⟩
          · rw [if_pos (bne_iff_ne.2 hc)] at ht
            exact ht.cons hc
      | false =>
          simp only [dropTrivia, Bool.false_eq_true, if_false]
          split
          · next hblank =>
            obtain ⟨t, hcs, hpos, hrest, ht⟩ := ih false (p.after c)
            exact ⟨c :: t, congrArg (c :: ·) hcs, hpos, hrest, .blank hblank ht⟩
          · next hblank =>
            split
            · next hslash =>
              simp only [Bool.and_eq_true, beq_iff_eq] at hslash
              obtain ⟨rfl, hslash⟩ := hslash
              obtain ⟨t, hcs, hpos, hrest, ht⟩ := ih true (p.after '/')
              refine ⟨'/' :: t, congrArg ('/' :: ·) hcs, hpos, hrest, ?_⟩
              cases t with
              | nil =>
                  obtain ⟨body, -, ⟨hlast, -⟩ | ⟨t, -, ht⟩⟩ := ht
                  · rw [List.isEmpty_iff.1 hlast] at hcs
                    rw [hcs] at hslash
                    cases hslash
                  · cases body <;> cases ht
              | cons d t =>
                  rw [hcs] at hslash
                  obtain rfl : d = '/' := Option.some.inj hslash
                  exact ht.trivia
            · next hslash =>
              refine ⟨[], rfl, rfl, ?_, .nil⟩
              rintro (hstart | ⟨t, ht⟩)
              · exact hblank hstart
              · cases ht
                exact hslash rfl

theorem dropTrivia_eq_self {cs : List Char} (p : Position) (h : ¬ StartsTrivia cs) :
    dropTrivia false cs p = ⟨cs, p⟩ := by
  cases cs with
  | nil => rfl
  | cons c cs =>
      simp only [StartsTrivia, List.head?_cons, Option.any_some, not_or, Bool.not_eq_true] at h
      have hslash : ¬ (c == '/' && cs.head? == some '/') = true := by
        intro hslash
        simp only [Bool.and_eq_true, beq_iff_eq] at hslash
        obtain ⟨rfl, hslash⟩ := hslash
        cases cs with
        | nil => cases hslash
        | cons d cs =>
            cases hslash
            exact h.2 ⟨cs, rfl⟩
      simp only [dropTrivia, Bool.false_eq_true, if_false, h.1, if_neg hslash]

theorem dropTrivia_comment {body : List Char} (hbody : '\n' ∉ body) (cs : List Char)
    (p : Position) :
    dropTrivia true (body ++ '\n' :: cs) p =
      dropTrivia false cs (p.afterAll (body ++ ['\n'])) := by
  induction body generalizing p with
  | nil => rfl
  | cons c body ih =>
      rw [List.mem_cons, not_or] at hbody
      have hc : (c != '\n') = true := bne_iff_ne.2 (Ne.symm hbody.1)
      simp only [List.cons_append, dropTrivia, if_true, hc, Position.afterAll_cons]
      exact ih hbody.2 (p.after c)

theorem dropTrivia_lastComment {body : List Char} (hbody : '\n' ∉ body) (p : Position) :
    dropTrivia true body p = ⟨[], p.afterAll body⟩ := by
  induction body generalizing p with
  | nil => rfl
  | cons c body ih =>
      rw [List.mem_cons, not_or] at hbody
      have hc : (c != '\n') = true := bne_iff_ne.2 (Ne.symm hbody.1)
      simp only [dropTrivia, if_true, hc, Position.afterAll_cons]
      exact ih hbody.2 (p.after c)

theorem dropTrivia_append {last : Bool} {t cs : List Char} (ht : Trivia last t)
    (hlast : last = true → cs = []) (hcs : ¬ StartsTrivia cs) (p : Position) :
    dropTrivia false (t ++ cs) p = ⟨cs, p.afterAll t⟩ := by
  induction ht generalizing p with
  | nil => exact dropTrivia_eq_self p hcs
  | @blank c t hc _ ih =>
      simp only [List.cons_append, dropTrivia, Bool.false_eq_true, if_false, hc, if_true]
      exact ih (p.after c)
  | @comment body t hbody _ ih =>
      have hcomment := dropTrivia_comment hbody (t ++ cs) ((p.after '/').after '/')
      rw [ih, ← Position.afterAll_append] at hcomment
      simpa [dropTrivia, isBlank, Position.afterAll_cons] using hcomment
  | @lastComment body hend hbody =>
      have hcomment := dropTrivia_lastComment hbody ((p.after '/').after '/')
      rw [hlast hend, List.append_nil]
      simpa [dropTrivia, isBlank, Position.afterAll_cons] using hcomment

/-! ## One call -/

/-- What a call of `next` does: it drops `gap` and takes `taken`. -/
structure Step (lx : Lexer) (gap taken : List Char) : Prop where
  rest : lx.rest = gap ++ (taken ++ lx.next.2.rest)
  pos : lx.next.2.pos = lx.pos.afterAll (gap ++ taken)
  start : resultPos lx.next.1 = lx.pos.afterAll gap
  gap : Trivia (taken ++ lx.next.2.rest).isEmpty gap
  begins : ¬ StartsTrivia (taken ++ lx.next.2.rest)
  ok : ∀ t, lx.next.1 = .ok t →
    (t.lexeme = .eof ∧ taken ++ lx.next.2.rest = []) ∨
      (t.lexeme.Spelt taken ∧ Longest (taken ++ lx.next.2.rest) taken)
  error : ∀ e, lx.next.1 = .error e →
    (e.problem ≠ .malformedInteger ∧ taken = []) ∨
      (e.problem = .malformedInteger ∧ ∃ digits suffix,
        (Lexeme.integer digits suffix).Spelt taken ∧ Longest (taken ++ lx.next.2.rest) taken)

theorem exists_step (lx : Lexer) : ∃ gap taken, lx.Step gap taken := by
  obtain ⟨gap, hrest, hpos, hbegins, hgap⟩ := dropTrivia_spec false lx.rest lx.pos
  have hsplits := (Scan.ofChars_attempts lx.skipTrivia.rest).splits
  have hlawful := Scan.ofChars_lawful lx.skipTrivia.rest
  have hnext : lx.next.2.rest = (Scan.ofChars lx.skipTrivia.rest).rest := rfl
  refine ⟨gap, (Scan.ofChars lx.skipTrivia.rest).taken, ?_, ?_, ?_, ?_, ?_, ?_, ?_⟩
  · rw [hnext, hsplits]
    exact hrest
  · rw [Position.afterAll_append, ← hpos]
    rfl
  · rw [← hpos, next]
    dsimp only
    cases (Scan.ofChars lx.skipTrivia.rest).result <;> rfl
  · rw [hnext, hsplits]
    exact hgap
  · rw [hnext, hsplits]
    exact hbegins
  · rw [hnext, hsplits]
    exact fun t ht => hlawful.ok _ (next_ok ht)
  · rw [hnext, hsplits]
    exact fun e he => hlawful.error _ (next_error he)

end Lexer

end Tern
