import Tern.Failure

/-!
# Scopes

Names stand for variables, types and procedures.  Scopes are nested; the global one is
always there, and a lookup finds the innermost declaration.
-/

namespace Tern

/-- Where a variable lives: at a label, or `offset` bytes below the frame pointer.  What lies
above the frame pointer has a negative offset. -/
inductive Storage where
  | global (label : String) (size : Nat)
  | frame (offset : Int) (size : Nat)
  deriving DecidableEq

/-- A variable.  It has no storage until its declaration list is complete. -/
structure Variable where
  name : String
  type : Ty
  exported : Bool := false
  storage : Option Storage := none
  deriving DecidableEq

inductive Routine where
  | writeEln
  | digitToInt
  | other (name : String)
  deriving DecidableEq

structure Procedure where
  name : String
  routine : Routine
  params : List Ty := []
  returns : Option Ty := none
  deriving DecidableEq

inductive Entity where
  | var (v : Variable)
  | type (name : String) (t : Ty)
  | procedure (p : Procedure)
  deriving DecidableEq

def Entity.name : Entity → String
  | .var v => v.name
  | .type name _ => name
  | .procedure p => p.name

def predefined : List Entity :=
  Builtin.all.map (fun b => .type b.name (.builtin b)) ++
    [.procedure { name := "write_eln", routine := .writeEln },
      .procedure
        { name := "d2i", routine := .digitToInt, params := [.builtin .char],
          returns := some (.builtin .byte) }]

/-- The declarations of one scope, the last one first. -/
abbrev Scope := List Entity

namespace Scope

def find? (s : Scope) (name : String) : Option Entity :=
  List.find? (fun e => e.name == name) s

theorem find?_cons {s : Scope} {name : String} (e : Entity) :
    find? (e :: s) name = if e.name = name then some e else s.find? name := by
  by_cases h : e.name = name
  · simp [find?, h]
  · simp [find?, h]

def place (s : Scope) (name : String) (storage : Storage) : Scope :=
  s.map fun
    | .var v => .var (if v.name = name then { v with storage := some storage } else v)
    | e => e

end Scope

/-- Nested scopes: the open inner ones, innermost first, and the global one. -/
structure Scopes where
  inner : List Scope := []
  globals : Scope
  deriving DecidableEq

namespace Scopes

/-- Only a global scope; of two entities with one name the last counts. -/
def ofGlobals (entities : List Entity) : Scopes := { globals := entities.reverse }

/-- The scopes of a program before its first declaration. -/
def builtin : Scopes := ofGlobals predefined

def depth (s : Scopes) : Nat := s.inner.length + 1

def isGlobal (s : Scopes) : Bool := s.inner.isEmpty

def push (s : Scopes) : Scopes := { s with inner := [] :: s.inner }

/-- Closes the innermost scope; the global one cannot be closed. -/
def pop? (s : Scopes) : Option Scopes :=
  match s.inner with
  | [] => none
  | _ :: outer => some { s with inner := outer }

/-- The scope that declarations go to. -/
def innermost (s : Scopes) : Scope :=
  match s.inner with
  | [] => s.globals
  | scope :: _ => scope

def mapInnermost (f : Scope → Scope) (s : Scopes) : Scopes :=
  match s.inner with
  | [] => { s with globals := f s.globals }
  | scope :: outer => { s with inner := f scope :: outer }

/-- Adds an entity to the innermost scope, unless its name is taken there. -/
def declare? (s : Scopes) (e : Entity) : Option Scopes :=
  match s.innermost.find? e.name with
  | some _ => none
  | none => some (s.mapInnermost (e :: ·))

theorem declare?_eq_some {s s' : Scopes} {e : Entity} (h : s.declare? e = some s') :
    s.innermost.find? e.name = none ∧ s' = s.mapInnermost (e :: ·) := by
  unfold declare? at h
  split at h
  · cases h
  · next hnone =>
    cases h
    exact ⟨hnone, rfl⟩

/-- The innermost entity of a name. -/
def lookup (s : Scopes) (name : String) : Option Entity :=
  (s.inner ++ [s.globals]).findSome? fun scope => scope.find? name

/-- The type that the global scope gives to the name of a builtin. -/
def predefinedType (s : Scopes) (name : String) : Except Fault Ty :=
  match s.globals.find? name with
  | some (.type _ t) => .ok t
  | _ => .error (.missingBuiltin name)

end Scopes

end Tern
