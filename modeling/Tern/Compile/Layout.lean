import Tern.Compile.Basic

/-!
# Laying out variables

The variables of a declaration list get their storage once the list is complete: globals at
labels of their own, locals one below the other in the frame.  Storage given before a
failure stays given.
-/

namespace Tern.Compile

def declared (name : String) : Compile Variable := do
  match (← get).scopes.innermost.find? name with
  | some (.var v) => return v
  | _ => throw (.fault (.notPlaced name))

/-- Gives a variable of the innermost scope its storage, which it must not have yet. -/
def placeVariable (v : Variable) (storage : Storage) : Compile Unit :=
  if v.storage.isSome then throw (.fault (.placedTwice v.name))
  else modify fun s =>
    { s with scopes := s.scopes.mapInnermost fun scope => scope.place v.name storage }

def exportLabels : List String → Compile Unit
  | [] => pure ()
  | name :: names => do
      let v ← declared name
      if v.exported then
        emit (Emit.write (.exported (Emit.globalLabel v)))
      exportLabels names

def defineGlobals : List String → Compile Unit
  | [] => pure ()
  | name :: names => do
      let v ← declared name
      let label := Emit.globalLabel v
      let unit ← emit (Emit.unitWidth v.type)
      placeVariable v (.global label v.type.size)
      emit (Emit.defineGlobal label v.type unit)
      defineGlobals names

def layOutGlobals (names : List String) : Compile Unit := do
  exportLabels names
  defineGlobals names

/-- Places variables below the `total` bytes that the frame has already; yields the new
total. -/
def placeLocals : Nat → List String → Compile Nat
  | total, [] => return total
  | total, name :: names => do
      let v ← declared name
      let total := total + v.type.size
      placeVariable v (.frame total v.type.size)
      placeLocals total names

def layOutLocals (names : List String) : Compile Unit := do
  let total ← emit Emit.frameBytes
  let total ← placeLocals total names
  emit (Emit.openFrame total)

end Tern.Compile
