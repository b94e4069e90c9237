import Tern.Cli.Run
import Tern.Text.Utf8

/-!
# The command

Runs the compiler on the files of the current directory.
-/

namespace Tern

namespace SystemCause

def number? : IO.Error → Option UInt32
  | .alreadyExists _ n _ | .interrupted _ n _ | .noFileOrDirectory _ n _ | .invalidArgument _ n _
  | .permissionDenied _ n _ | .resourceExhausted _ n _ | .inappropriateType _ n _
  | .noSuchThing _ n _ | .otherError n _ | .resourceBusy n _ | .resourceVanished n _
  | .unsupportedOperation n _ | .hardwareFault n _ | .unsatisfiedConstraints n _
  | .illegalOperation n _ | .protocolError n _ | .timeExpired n _ => some n
  | .unexpectedEof | .userError _ => none

/-- The errors that opening, reading and writing files can meet. -/
def numbered : List (UInt32 × SystemCause) :=
  [(1, ⟨"EPERM", "operation not permitted"⟩),
    (2, missing),
    (4, ⟨"EINTR", "interrupted system call"⟩),
    (5, ⟨"EIO", "i/o error"⟩),
    (6, ⟨"ENXIO", "no such device or address"⟩),
    (12, ⟨"ENOMEM", "not enough memory"⟩),
    (13, ⟨"EACCES", "permission denied"⟩),
    (16, ⟨"EBUSY", "resource busy or locked"⟩),
    (17, alreadyExists),
    (19, ⟨"ENODEV", "no such device"⟩),
    (20, notDirectory),
    (21, isDirectory),
    (22, ⟨"EINVAL", "invalid argument"⟩),
    (23, ⟨"ENFILE", "file table overflow"⟩),
    (24, ⟨"EMFILE", "too many open files"⟩),
    (26, ⟨"ETXTBSY", "text file is busy"⟩),
    (27, ⟨"EFBIG", "file too large"⟩),
    (28, ⟨"ENOSPC", "no space left on device"⟩),
    (30, ⟨"EROFS", "read-only file system"⟩),
    (31, ⟨"EMLINK", "too many links"⟩),
    (36, ⟨"ENAMETOOLONG", "name too long"⟩),
    (40, ⟨"ELOOP", "too many symbolic links encountered"⟩)]

def ofError (e : IO.Error) : SystemCause :=
  ((number? e).bind fun n => numbered.lookup n).getD ⟨"UNKNOWN", e.toString⟩

end SystemCause

/-- Runs a file operation; `call` is what the operating system is asked for. -/
def attempt {α : Type} (call : SystemCall) (x : IO α) : ExceptT SystemError IO α := do
  match ← x.toBaseIO with
  | .ok a => return a
  | .error e => throw ⟨.ofError e, call⟩

/-- Makes a directory and those above it, as far as they are missing. -/
def makeDiskDirs (dir : Path) : IO Unit := do
  try
    IO.FS.createDirAll dir.render
  catch
    -- Whether a file is in the way here or further up shows when only this directory is made.
    | .alreadyExists .. => IO.FS.createDir dir.render
    | e => throw e

def diskFiles : Files IO where
  read p := ExceptT.run do
    let handle ← attempt (.openFile p) (IO.FS.Handle.mk p.render .read)
    let bytes ← attempt .readFile handle.readBinToEnd
    return String.ofList (Text.decode bytes.toList)
  write p text := ExceptT.run do
    let dir : Path := p.dropLast
    attempt (.makeDir dir) (makeDiskDirs dir)
    let handle ← attempt (.openFile p) (IO.FS.Handle.mk p.render .write)
    attempt .writeFile do
      handle.putStr text
      handle.flush

end Tern

def main (args : List String) : IO UInt32 := do
  let cwd := Tern.Path.resolve [] (← IO.currentDir).toString
  let report ← Tern.run Tern.diskFiles cwd args
  IO.print report.stdout
  IO.eprint report.stderr
  return report.code.toUInt32
