import Tern.Cli.Path

/-!
# File trees

A file tree maps paths to files and directories.  Reading and writing fail as the operating
system would have it, with its wording.
-/

namespace Tern

inductive Entry where
  | file (text : String)
  | dir
  deriving DecidableEq

/-- A tree of files; the root is always there. -/
structure FileTree where
  entries : List (Path × Entry) := []
  deriving DecidableEq

/-- Why the operating system refuses: the name of the error and its wording. -/
structure SystemCause where
  code : String
  text : String
  deriving DecidableEq

namespace SystemCause

def missing : SystemCause := ⟨"ENOENT", "no such file or directory"⟩

def isDirectory : SystemCause := ⟨"EISDIR", "illegal operation on a directory"⟩

def notDirectory : SystemCause := ⟨"ENOTDIR", "not a directory"⟩

def alreadyExists : SystemCause := ⟨"EEXIST", "file already exists"⟩

end SystemCause

inductive SystemCall where
  | openFile (p : Path)
  | readFile
  | writeFile
  | makeDir (p : Path)
  deriving DecidableEq

def SystemCall.text : SystemCall → String
  | openFile p => "open '" ++ p.render ++ "'"
  | readFile => "read"
  | writeFile => "write"
  | makeDir p => "mkdir '" ++ p.render ++ "'"

structure SystemError where
  cause : SystemCause
  call : SystemCall
  deriving DecidableEq

def SystemError.message (e : SystemError) : String :=
  e.cause.code ++ ": " ++ e.cause.text ++ ", " ++ e.call.text

namespace FileTree

def get? (t : FileTree) (p : Path) : Option Entry :=
  if p.isEmpty then some .dir else t.entries.lookup p

def put (t : FileTree) (p : Path) (e : Entry) : FileTree :=
  ⟨(p, e) :: t.entries.filter fun x => x.1 != p⟩

/-- Why nothing can lie below `p`, if that is so. -/
def obstacle? (t : FileTree) (p : Path) : Option SystemCause :=
  match t.get? p with
  | none => some .missing
  | some (.file _) => some .notDirectory
  | some .dir => none

def read (t : FileTree) (p : Path) : Except SystemError String :=
  match p.ancestors.findSome? t.obstacle? with
  | some cause => .error ⟨cause, .openFile p⟩
  | none =>
      match t.get? p with
      | none => .error ⟨.missing, .openFile p⟩
      | some .dir => .error ⟨.isDirectory, .readFile⟩
      | some (.file text) => .ok text

/-- Makes a directory where there is nothing. -/
def addDir (t : FileTree) (p : Path) : FileTree :=
  match t.get? p with
  | none => t.put p .dir
  | some _ => t

def isFile (t : FileTree) (p : Path) : Bool :=
  match t.get? p with
  | some (.file _) => true
  | _ => false

/-- Makes a directory and those above it, as far as they are missing. -/
def makeDirs (t : FileTree) (p : Path) : Except SystemError FileTree :=
  if p.ancestors.any t.isFile then .error ⟨.notDirectory, .makeDir p⟩
  else if t.isFile p then .error ⟨.alreadyExists, .makeDir p⟩
  else .ok ((p.ancestors ++ [p]).foldl addDir t)

/-- Writes a file, in a directory that is made if need be. -/
def write (t : FileTree) (p : Path) (text : String) : Except SystemError FileTree :=
  match t.makeDirs p.dropLast with
  | .error e => .error e
  | .ok t =>
      if t.get? p = some .dir then .error ⟨.isDirectory, .openFile p⟩
      else .ok (t.put p (.file text))

def files (t : FileTree) : List (Path × String) :=
  t.entries.filterMap fun
    | (p, .file text) => some (p, text)
    | _ => none

end FileTree

end Tern
