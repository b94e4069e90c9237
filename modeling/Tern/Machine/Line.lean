import Tern.Machine.Instr

/-!
# Lines of assembly

A line is an instruction, a label, a definition of data or a directive.  Instructions and
data are indented by two spaces; labels and sections are not.
-/

namespace Tern

inductive Line where
  /-- `global _start`. -/
  | entryPoint
  /-- `section .data`. -/
  | dataStart
  /-- `section .text`. -/
  | textStart
  /-- Makes a variable's label visible to other programs. -/
  | exported (label : String)
  /-- One unit of data, or `count` equal ones. -/
  | data (label : String) (count : Option Nat) (unit : Width) (value : Nat)
  | label (name : String)
  | instr (i : Instr)
  /-- Any other text. -/
  | text (s : String)
  deriving DecidableEq

namespace Line

def blank : Line := text ""

/-- Free text, indented like an instruction. -/
def indented (s : String) : Line := text ("  " ++ s)

def render : Line → String
  | entryPoint => "global " ++ entryLabel
  | dataStart => "section .data"
  | textStart => "section .text"
  | exported name => "  global " ++ name
  | data name none unit value =>
      "  " ++ name ++ ": " ++ unit.directive ++ " " ++ toString value
  | data name (some count) unit value =>
      "  " ++ name ++ ": times " ++ toString count ++ " " ++ unit.directive ++ " " ++
        toString value
  | label name => name ++ ":"
  | instr i => "  " ++ i.render
  | text s => s

end Line

end Tern
