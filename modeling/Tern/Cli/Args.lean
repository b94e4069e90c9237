import Tern.Artifact
import Tern.Cli.Path

/-!
# Command line arguments

Options come first and the entry file last.  A request for help or for the version is
answered as soon as it is met.
-/

namespace Tern

inductive Request where
  | help
  | version
  | build (entry : String) (output : Option String) (layout : Layout)
  deriving DecidableEq

inductive UsageError where
  | missingValue (flag : String)
  | unknownOption (option : String)
  | entryExpected
  | badOutput
  deriving DecidableEq

namespace UsageError

def message : UsageError → String
  | missingValue flag => flag ++ " expects a value"
  | unknownOption option => "Unknown option \"" ++ option ++ "\""
  | entryExpected => "Expected exactly one <entry.tern> argument (and it must be last)"
  | badOutput => "--output must end with \".asm\""

end UsageError

namespace Request

/-- What follows `start` in a text that starts with it. -/
def afterStart? (start text : List Char) : Option (List Char) :=
  if start.isPrefixOf text then some (text.drop start.length) else none

def outputExtension : String := ".asm"

/-- The request to build `entry`, once all arguments are read. -/
def finish (entry : String) (output : Option String) (layout : Layout) :
    Except UsageError Request :=
  if entry.isEmpty then .error .entryExpected
  else if output.any fun o => (Path.extension o).toLower != outputExtension then
    .error .badOutput
  else .ok (.build entry output layout)

def parse (output : Option String) (layout : Layout) : List String → Except UsageError Request
  | [] => .error .entryExpected
  | a :: rest =>
      if a = "-h" ∨ a = "--help" then .ok .help
      else if a = "-V" ∨ a = "--version" then .ok .version
      else if a = "-o" ∨ a = "--output" then
        match rest with
        | [] => .error (.missingValue a)
        | v :: rest =>
            if v.isEmpty then .error (.missingValue a) else parse (some v) layout rest
      else
        match afterStart? "--output=".toList a.toList with
        | some [] => .error (.missingValue "--output")
        | some v => parse (some (String.ofList v)) layout rest
        | none =>
            if a = "--crlf" then parse output { layout with ending := .crlf } rest
            else if a = "--header" then parse output { layout with header := true } rest
            else if a.toList.head? = some '-' then .error (.unknownOption a)
            else if rest.isEmpty then finish a output layout
            else .error .entryExpected

def ofArgs (args : List String) : Except UsageError Request := parse none {} args

end Request

end Tern
