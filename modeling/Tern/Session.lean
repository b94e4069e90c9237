import Tern.Compile.Program
import Tern.Tree.Reader

/-!
# Sessions

A session compiles a text phrase by phrase.  After a phrase that fails it goes on with what
the phrase left behind, at the token where the error was noticed.
-/

namespace Tern

/-- A place in a token stream and the compilation so far. -/
structure Session where
  cursor : Cursor
  compilation : Compilation

/-- An operation on a session.  It keeps its effects when it fails. -/
abbrev Resume := EStateM Failure Session

namespace Session

/-- A session at the start of a text, whose first token it reads. -/
def start (text : List Char) (scopes : Scopes := .builtin) : Except CompileError Session :=
  (Cursor.start (.ofText text)).map fun c => ⟨c, { scopes }⟩

def compile {α : Type} (x : Compile α) : Resume α := fun s =>
  match x s.compilation with
  | .ok a compilation => .ok a { s with compilation }
  | .error f compilation => .error f { s with compilation }

instance : MonadLift Compile Resume := ⟨compile⟩

/-- Reads a phrase and compiles it.  The session then stands behind the tokens that were
dealt with. -/
def phrase {α β : Type} (read : Cursor → Outcome α) (compile : α → Compile β) : Resume β :=
  fun s =>
    let outcome := read s.cursor
    match compile outcome.tree { s.compilation with taken := some 0 } with
    | .ok b compilation => .ok b ⟨outcome.rest, compilation⟩
    | .error f compilation =>
        let cursor := compilation.taken.elim outcome.rest s.cursor.skip
        .error f ⟨cursor, compilation⟩

def expr (minPrec : Nat) : Resume Value :=
  phrase (fun c => Reader.expr (Reader.budget c) minPrec c) Compile.value

def type : Resume Ty := phrase (fun c => Reader.type (Reader.budget c) c) Compile.type

def declList : Resume Unit := phrase Reader.declList Compile.declList

def block : Resume Unit := phrase Reader.block Compile.block

def program : Resume Unit := phrase Reader.program Compile.program

end Session

def compileLines (text : List Char) : Except Failure (Array Line) :=
  match Session.start text with
  | .error e => .error (.problem e)
  | .ok s =>
      match Session.program s with
      | .ok _ s => .ok s.compilation.assembly.lines
      | .error f _ => .error f

end Tern
