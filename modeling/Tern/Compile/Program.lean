import Tern.Compile.Expr
import Tern.Compile.Layout

/-!
# Compiling declarations and programs

Declarations are checked one by one and laid out together.  A statement must leave the
registers as it found them.
-/

namespace Tern.Compile

/-- The name of a declaration; `export` is for globals, and an exported name must be usable
as a label. -/
def declName (d : Decl) : Compile Ident := do
  match d.exported with
  | some pos => require (← get).scopes.isGlobal .exportedLocal pos
  | none => pure ()
  match d.id with
  | .error why => stop why
  | .ok id =>
      if d.exported.isSome then
        take 1
        require (!unusableLabel id.name) (.reservedName id.name) id.pos
      return id

/-- Declares one variable; `bytes` is what the scope takes so far, and the result is what it
takes then. -/
def declare (bytes : Nat) (d : Decl) : Compile (String × Nat) := do
  let id ← declName d
  pass 2 d.colon
  let t ← type d.type
  match (← get).scopes.declare?
      (.var { name := id.name, type := t, exported := d.exported.isSome }) with
  | none => fail (.redeclared id.name) id.pos
  | some scopes => modify fun s => { s with scopes }
  require (decide (bytes + t.size ≤ Ty.sizeLimit)) .scopeTooLarge id.pos
  return (id.name, bytes + t.size)

def declareAll : Nat → List Decl → Compile (List String)
  | _, [] => return []
  | bytes, d :: ds => do
      let (name, bytes) ← declare bytes d
      if !ds.isEmpty then
        take 1
      let names ← declareAll bytes ds
      return name :: names

def declList (l : DeclList) : Compile Unit := do
  pass 1 l.opening
  if (← get).scopes.isGlobal then
    layOutGlobals (← declareAll 0 l.decls)
  else
    let bytes ← emit Emit.frameBytes
    layOutLocals (← declareAll bytes l.decls)

def statements : List Expr → Compile Unit
  | [] => pure ()
  | e :: es => do
      let before ← emit Emit.live
      let i ← statement e
      emit (Emit.discardItem i)
      let after ← emit Emit.live
      if after ≠ before then
        throw (.fault (.leaked e.start.line after))
      statements es

def block (b : Block) : Compile Unit := do
  statements b.statements
  pass 0 b.close

def program (p : Program) : Compile Unit := do
  emit Emit.programHead
  emit Emit.dataHead
  p.globals.forM declList
  emit Emit.textHead
  pass 1 p.opening
  push
  emit Emit.enterProgram
  p.locals.forM declList
  block p.body
  emit Emit.leaveProgram
  pop
  pass 1 p.finish

end Tern.Compile
