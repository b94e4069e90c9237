import Tern.Token.Lexer

/-!
# Token streams

The results of reading a text token by token: finitely many, and then one that repeats for
ever.  The grammar sees a text only through its stream, by way of a cursor that stands on
one token.
-/

namespace Tern

/-- What every further attempt to read a token yields. -/
inductive Ending where
  | eof (pos : Position)
  | stuck (e : CompileError)
  deriving DecidableEq

def Ending.result : Ending → Except CompileError Token
  | eof pos => .ok ⟨.eof, pos⟩
  | stuck e => .error e

structure TokenStream where
  results : List (Except CompileError Token)
  ending : Ending

namespace TokenStream

def next (s : TokenStream) : Except CompileError Token × TokenStream :=
  match s.results with
  | [] => (s.ending.result, s)
  | r :: rs => (r, { s with results := rs })

def cons (r : Except CompileError Token) (s : TokenStream) : TokenStream :=
  { s with results := r :: s.results }

/-- The stream of a lexer, read for at most `fuel` tokens. -/
def ofLexer : Nat → Lexer → TokenStream
  | 0, lx => ⟨[], .eof lx.pos⟩
  | fuel + 1, lx =>
      match lx.next with
      | (.ok t, lx') =>
          if t.kind = .eof then ⟨[], .eof t.pos⟩ else cons (.ok t) (ofLexer fuel lx')
      | (.error e, lx') =>
          if lx'.rest.length < lx.skipTrivia.rest.length then
            cons (.error e) (ofLexer fuel lx')
          else ⟨[], .stuck e⟩

/-- The stream of a text.  Every token before the end uses up a character, so the length of
the text bounds their number. -/
def ofText (text : List Char) : TokenStream :=
  ofLexer (text.length + 1) (.ofText text)

end TokenStream

/-- A token that has been read, and the stream behind it. -/
structure Cursor where
  current : Token
  stream : TokenStream

namespace Cursor

def start (s : TokenStream) : Except CompileError Cursor :=
  match s.next with
  | (.ok t, rest) => .ok ⟨t, rest⟩
  | (.error e, _) => .error e

def kind (c : Cursor) : Kind := c.current.kind

def pos (c : Cursor) : Position := c.current.pos

/-- Reads the next token.  When that fails the current token stays. -/
def advance (c : Cursor) : Except CompileError Unit × Cursor :=
  match c.stream.next with
  | (.ok t, rest) => (.ok (), ⟨t, rest⟩)
  | (.error e, rest) => (.error e, ⟨c.current, rest⟩)

/-- Advances `n` times, whatever comes. -/
def skip (c : Cursor) : Nat → Cursor
  | 0 => c
  | n + 1 => c.advance.2.skip n

/-- A bound on the tokens left to read, the current one included. -/
def length (c : Cursor) : Nat := c.stream.results.length + 1

end Cursor

end Tern
