import Tern.Emit.Frame
import Tern.Tree.Basic

/-!
# Compilations

A compilation is the scopes and the assembly of a program being compiled.  It also counts
the tokens of the current phrase that have been dealt with, so that reading can resume
behind them when the phrase turns out to be wrong.
-/

namespace Tern

/-- The state of a compilation.  `taken` counts tokens; it is `none` once the place is
reached where reading stopped. -/
structure Compilation where
  scopes : Scopes
  assembly : Assembly := {}
  taken : Option Nat := some 0
  deriving DecidableEq

/-- An operation on a compilation.  It keeps its effects when it fails. -/
abbrev Compile := EStateM Failure Compilation

namespace Compile

def emit {α : Type} (x : Emit α) : Compile α := fun s =>
  match x s.assembly with
  | .ok a assembly => .ok a { s with assembly }
  | .error f assembly => .error (.fault f) { s with assembly }

instance : MonadLift Emit Compile := ⟨emit⟩

def fail {α : Type} (p : Problem) (pos : Position) : Compile α := throw (.problem ⟨p, pos⟩)

def require (cond : Bool) (p : Problem) (pos : Position) : Compile Unit :=
  if cond then pure () else fail p pos

/-- Counts `n` tokens as dealt with. -/
def take (n : Nat) : Compile Unit := modify fun s => { s with taken := s.taken.map (· + n) }

def stop {α : Type} (why : CompileError) : Compile α := do
  modify fun s => { s with taken := none }
  throw (.problem why)

/-- Passes `n` tokens that had to be read together. -/
def pass (n : Nat) : Read Unit → Compile Unit
  | .ok _ => take n
  | .error why => stop why

def lookup (name : String) : Compile (Option Entity) := do
  return (← get).scopes.lookup name

def variableOf (id : Ident) : Compile Variable := do
  match ← lookup id.name with
  | some (.var v) => return v
  | some _ => fail (.wrongRole .var id.name) id.pos
  | none => fail (.undeclared .var id.name) id.pos

def typeOf (id : Ident) : Compile Ty := do
  match ← lookup id.name with
  | some (.type _ t) => return t
  | some _ => fail (.wrongRole .type id.name) id.pos
  | none => fail (.undeclared .type id.name) id.pos

def procedureOf (id : Ident) : Compile Procedure := do
  match ← lookup id.name with
  | some (.procedure p) => return p
  | some _ => fail (.wrongRole .procedure id.name) id.pos
  | none => fail (.undeclared .procedure id.name) id.pos

/-- The value of a variable in memory; it has none inside its own declaration list. -/
def variableNamed (id : Ident) : Compile Value := do
  let v ← variableOf id
  require v.storage.isSome (.usedInOwnList v.name) id.pos
  emit (Emit.variableValue v)

/-- The type that a builtin name has in the global scope. -/
def predefinedType (b : Builtin) : Compile Ty := do
  match (← get).scopes.predefinedType b.name with
  | .ok t => return t
  | .error f => throw (.fault f)

def push : Compile Unit := modify fun s => { s with scopes := s.scopes.push }

def pop : Compile Unit := do
  match (← get).scopes.pop? with
  | some scopes => modify fun s => { s with scopes }
  | none => throw (.fault .globalScopePopped)

end Compile

end Tern
