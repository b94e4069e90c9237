import Tern.Failure

/-!
# Diagnostics

What a user is told about a compilation that failed.
-/

namespace Tern

inductive Severity where
  | error
  | warning
  | info
  deriving DecidableEq

def Severity.name : Severity → String
  | error => "error"
  | warning => "warning"
  | info => "info"

/-- A message about a file, with the place in it where that is known. -/
structure Diagnostic where
  code : Code
  severity : Severity := .error
  message : String
  file : String
  line : Option Nat := none
  column : Option Nat := none
  deriving DecidableEq

namespace Diagnostic

def internal (file message : String) : Diagnostic :=
  { code := .internal, message := "Internal compiler error: " ++ message, file }

def ofFailure (file : String) : Failure → Diagnostic
  | .problem e =>
      { code := e.problem.code, message := e.problem.message, file, line := some e.pos.line,
        column := some e.pos.column }
  | .fault f => internal file f.message

/-- The one-line form `file:line:column: severity: [CODE] message`. -/
def render (d : Diagnostic) : String :=
  let place :=
    match d.line, d.column with
    | some line, some column => d.file ++ ":" ++ toString line ++ ":" ++ toString column
    | _, _ => d.file
  place ++ ": " ++ d.severity.name ++ ": [" ++ d.code.text ++ "] " ++ d.message

end Diagnostic

end Tern
