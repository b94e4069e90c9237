import Tern.Diagnostic
import Tern.Session

/-!
# Assembly files

The text of an assembly file is made from its lines; the options choose the line ending and
whether a comment stands in front.
-/

namespace Tern

inductive LineEnding where
  | lf
  | crlf
  deriving DecidableEq

def LineEnding.text : LineEnding → String
  | lf => "\n"
  | crlf => "\r\n"

structure Layout where
  ending : LineEnding := .lf
  header : Bool := false
  deriving DecidableEq

namespace Layout

def headerLine : String := "; generated by ternc"

/-- The text of a file: every line, and the last one too, ends with the line ending.  A file
without lines is one empty line. -/
def render (layout : Layout) (lines : List String) : String :=
  let lines := if layout.header then headerLine :: "" :: lines else lines
  String.intercalate layout.ending.text lines ++ layout.ending.text

end Layout

/-- The text of an assembly file, with the path it is meant for. -/
structure Artifact where
  text : String
  path : Option String := none
  deriving DecidableEq

/-- Compiles a text.  The file name only labels the diagnostic. -/
def compileText (file : String) (text : List Char) (layout : Layout := {})
    (output : Option String := none) : Except Diagnostic Artifact :=
  match compileLines text with
  | .error f => .error (.ofFailure file f)
  | .ok lines =>
      .ok { text := layout.render (lines.toList.map Line.render), path := output }

end Tern
