import Tern.Cli.Args
import Tern.Cli.FileTree

/-!
# Running the compiler

A run reads the entry file, compiles it and writes the assembly file.  It is given the two
file operations, so that it can be run on a file tree as well as on a disk.
-/

namespace Tern

structure Files (m : Type → Type) where
  read : Path → m (Except SystemError String)
  write : Path → String → m (Except SystemError Unit)

def FileTree.operations : Files (StateM FileTree) where
  read p := do return (← get).read p
  write p text := do
    match (← get).write p text with
    | .error e => return .error e
    | .ok t =>
        set t
        return .ok ()

/-- What a run prints, and its exit code. -/
structure Report where
  code : Nat
  stdout : String := ""
  stderr : String := ""
  deriving DecidableEq

namespace Report

def usage : String :=
  String.intercalate "\n"
    ["ternc [options] <entry.tern>",
      "",
      "Options:",
      "  -o, --output <file>   Output path (must end in .asm; default: entry with .asm)",
      "      --crlf            Use CRLF line endings in the output",
      "      --header          Start the output with a generator comment",
      "  -V, --version         Print version",
      "  -h, --help            Show help",
      "",
      "Notes:",
      "  - <entry.tern> must be the last argument.",
      ""]

def version : String := "0.1.0"

def refusal (message : String) : Report :=
  { code := 2, stderr := "ternc: " ++ message ++ "\n" ++ usage ++ "\n" }

def failure (d : Diagnostic) : Report := { code := 1, stderr := d.render ++ "\n" }

def success (output : Path) : Report := { code := 0, stdout := output.render ++ "\n" }

end Report

def Diagnostic.unreadable (entry : Path) (e : SystemError) : Diagnostic :=
  { code := .unreadable, message := "Failed to read entry file: Error: " ++ e.message,
    file := entry.render }

/-- Where the assembly of `entry` goes when no output is given. -/
def defaultOutput (entry : Path) : Path := entry.withExtension Request.outputExtension

section

variable {m : Type → Type} [Monad m]

def build (files : Files m) (entry output : Path) (layout : Layout) : m Report := do
  match ← files.read entry with
  | .error e => return .failure (.unreadable entry e)
  | .ok text =>
      match compileText entry.render text.toList layout (some output.render) with
      | .error d => return .failure d
      | .ok artifact =>
          match ← files.write output artifact.text with
          | .error e => return .refusal e.message
          | .ok _ => return .success output

def run (files : Files m) (cwd : Path) (args : List String) : m Report :=
  match Request.ofArgs args with
  | .error e => return .refusal e.message
  | .ok .help => return { code := 0, stdout := Report.usage }
  | .ok .version => return { code := 0, stdout := Report.version ++ "\n" }
  | .ok (.build entry output layout) =>
      let entry := Path.resolve cwd entry
      build files entry (output.elim (defaultOutput entry) (Path.resolve cwd)) layout

end

end Tern
