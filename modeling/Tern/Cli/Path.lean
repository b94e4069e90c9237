/-!
# Paths

An absolute path is the list of its components.  A path text is resolved against a current
directory: empty components and `.` are dropped, and `..` goes up.
-/

namespace Tern

/-- An absolute path, from the root down. -/
abbrev Path := List String

namespace Path

def splitSlash : List Char → List (List Char)
  | [] => [[]]
  | c :: cs =>
      if c = '/' then [] :: splitSlash cs
      else
        match splitSlash cs with
        | [] => [[c]]
        | part :: parts => (c :: part) :: parts

def components (text : String) : List String :=
  ((splitSlash text.toList).filter (!·.isEmpty)).map String.ofList

/-- One component further; the root is above itself. -/
def enter (p : Path) (component : String) : Path :=
  if component = "." then p else if component = ".." then p.dropLast else p ++ [component]

/-- The absolute path that a text denotes in the directory `cwd`. -/
def resolve (cwd : Path) (text : String) : Path :=
  (components text).foldl enter (if text.toList.head? = some '/' then [] else cwd)

def render (p : Path) : String := "/" ++ String.intercalate "/" p

/-- Splits a file name into stem and extension.  The extension starts at the last dot; a name
that starts with its only dot, or is `..`, has none. -/
def splitExtension (name : String) : String × String :=
  let backwards := name.toList.reverse
  match backwards.dropWhile (· != '.') with
  | _ :: c :: cs =>
      if name = ".." then (name, "")
      else
        (String.ofList (c :: cs).reverse,
          String.ofList ('.' :: (backwards.takeWhile (· != '.')).reverse))
  | _ => (name, "")

def extension (text : String) : String :=
  ((components text).getLast?.elim ("", "") splitExtension).2

/-- The path with its extension, if any, replaced. -/
def withExtension (p : Path) (ext : String) : Path :=
  p.dropLast ++ [(splitExtension (p.getLast?.getD "")).1 ++ ext]

/-- The directories above a path, outermost first. -/
def ancestors (p : Path) : List Path := (List.range p.length).map p.take

end Path

end Tern
