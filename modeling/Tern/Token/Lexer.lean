import Tern.Failure

/-!
# Reading tokens

A lexer is the rest of a text and the position where it starts.  Each call of `next` skips
blanks and comments and reads one token.  At the end of the text every call yields the
end-of-input token again.
-/

namespace Tern

/-- The rest of a text and its position. -/
structure Lexer where
  rest : List Char
  pos : Position
  deriving DecidableEq

/-- One attempt to read a token: the outcome, the characters used up, and those left. -/
structure Scan where
  result : Except Problem Lexeme
  taken : List Char
  rest : List Char

namespace Lexer

def ofText (text : List Char) : Lexer := ⟨text, .start⟩

def isBlank (c : Char) : Bool := c == ' ' || c == '\t' || c == '\r' || c == '\n'

def startsWord (c : Char) : Bool := c.isAlpha || c == '_'

def isWordPart (c : Char) : Bool := c.isAlphanum || c == '_'

/-- Drops blanks and comments.  A comment runs from `//` to the end of its line;
`inComment` says whether one is open. -/
def dropTrivia (inComment : Bool) : List Char → Position → Lexer
  | [], p => ⟨[], p⟩
  | c :: cs, p =>
      if inComment then dropTrivia (c != '\n') cs (p.after c)
      else if isBlank c then dropTrivia false cs (p.after c)
      else if c == '/' && cs.head? == some '/' then dropTrivia true cs (p.after c)
      else ⟨c :: cs, p⟩

def skipTrivia (lx : Lexer) : Lexer := dropTrivia false lx.rest lx.pos

end Lexer

namespace Scan

open Lexer (startsWord isWordPart)

/-- A failed attempt that uses up nothing. -/
def fail (p : Problem) (cs : List Char) : Scan := ⟨.error p, [], cs⟩

/-- An identifier or a keyword. -/
def word (cs : List Char) : Scan :=
  let letters := cs.takeWhile isWordPart
  let spelling := String.ofList letters
  let lexeme := (Keyword.ofWord? spelling).elim (.identifier spelling) .keyword
  ⟨.ok lexeme, letters, cs.dropWhile isWordPart⟩

/-- The optional suffix of an integer and what follows it. -/
def integerSuffix : List Char → Option Char × List Char
  | 'l' :: cs => (some 'l', cs)
  | 'L' :: cs => (some 'L', cs)
  | cs => (none, cs)

/-- Digits and an optional suffix.  A letter, digit or underscore behind them makes the
literal malformed; the digits and the suffix are used up all the same. -/
def integer (cs : List Char) : Scan :=
  let digits := cs.takeWhile Char.isDigit
  let (suffix, rest) := integerSuffix (cs.dropWhile Char.isDigit)
  let taken := digits ++ suffix.toList
  if rest.head?.any isWordPart then ⟨.error .malformedInteger, taken, rest⟩
  else ⟨.ok (.integer (String.ofList digits) suffix), taken, rest⟩

/-- The character that `\c` denotes. -/
def escape? : Char → Option Char
  | 'n' => some '\n'
  | 't' => some '\t'
  | 'r' => some '\r'
  | '0' => some '\x00'
  | '\\' => some '\\'
  | '\'' => some '\''
  | _ => none

def closeChar (cs : List Char) (value : Char) (taken : List Char) : List Char → Scan
  | '\'' :: rest => ⟨.ok (.char value), taken ++ ['\''], rest⟩
  | _ => fail .unterminatedChar cs

/-- A character literal; `body` is what follows the opening quote of `cs`. -/
def charLiteral (cs : List Char) : List Char → Scan
  | [] | '\n' :: _ | '\'' :: _ => fail .malformedChar cs
  | ['\\'] => fail .unknownEscape cs
  | '\\' :: c :: rest =>
      match escape? c with
      | none => fail .unknownEscape cs
      | some value => closeChar cs value ['\'', '\\', c] rest
  | c :: rest =>
      if 0xff < c.toNat then fail .wideChar cs else closeChar cs c ['\'', c] rest

def symbol? (cs : List Char) : Option Symbol :=
  Symbol.all.find? fun s => s.spelling.toList.isPrefixOf cs

/-- Reads one token from a text that does not start with a blank or a comment. -/
def ofChars : List Char → Scan
  | [] => ⟨.ok .eof, [], []⟩
  | c :: cs =>
      if startsWord c then word (c :: cs)
      else if c.isDigit then integer (c :: cs)
      else if c == '\'' then charLiteral (c :: cs) cs
      else
        match symbol? (c :: cs) with
        | some s => ⟨.ok (.symbol s), s.spelling.toList, (c :: cs).drop s.spelling.length⟩
        | none => fail (.unexpectedChar c) (c :: cs)

end Scan

namespace Lexer

/-- Reads the next token.  A failed call stays in front of the offending lexeme, except
that a malformed integer is passed. -/
def next (lx : Lexer) : Except CompileError Token × Lexer :=
  let here := lx.skipTrivia
  let scan := Scan.ofChars here.rest
  let result :=
    match scan.result with
    | .ok lexeme => .ok ⟨lexeme, here.pos⟩
    | .error p => .error ⟨p, here.pos⟩
  (result, ⟨scan.rest, here.pos.afterAll scan.taken⟩)

end Lexer

end Tern
