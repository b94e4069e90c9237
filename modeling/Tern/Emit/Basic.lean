import Tern.Failure
import Tern.Machine.Line
import Tern.Word

/-!
# Writing assembly

Code is written line by line into an assembly, which also knows the registers that hold
live values and the frames that are open.  An operation that fails leaves behind whatever it
had written and acquired.
-/

namespace Tern

/-- Assembly text in the making.  `busy` lists the registers in use, in the order in which
they became so; `frames` gives the bytes of locals of each open frame, innermost first. -/
structure Assembly where
  lines : Array Line := #[]
  busy : List Register := []
  frames : List Nat := []
  deriving DecidableEq

namespace Assembly

def write (a : Assembly) (l : Line) : Assembly := { a with lines := a.lines.push l }

def firstFree? (a : Assembly) : Option Register :=
  Register.pool.find? fun r => !a.busy.contains r

def occupy (a : Assembly) (r : Register) : Assembly :=
  if a.busy.contains r then a else { a with busy := a.busy ++ [r] }

def occupyAll (a : Assembly) (rs : List Register) : Assembly := rs.foldl occupy a

def release (a : Assembly) (rs : List Register) : Assembly :=
  { a with busy := a.busy.filter fun r => !rs.contains r }

/-- The registers in use: those outside the pool first, then the others in pool order. -/
def live (a : Assembly) : List Register :=
  a.busy.filter (fun r => !Register.pool.contains r) ++
    Register.pool.filter fun r => a.busy.contains r

end Assembly

/-- An operation on an assembly.  It can meet a fault, and keeps its effects when it does. -/
abbrev Emit := EStateM Fault Assembly

namespace Emit

def write (l : Line) : Emit Unit := modify fun a => a.write l

def instr (i : Instr) : Emit Unit := write (.instr i)

def live : Emit (List Register) := do return (← get).live

def isBusy (r : Register) : Emit Bool := do return (← get).busy.contains r

/-- Takes the first free register of the pool.  Nothing is ever spilled: when none is free
the expression is too complex. -/
def acquire : Emit Register := do
  match (← get).firstFree? with
  | some r =>
      modify fun a => a.occupy r
      return r
  | none => throw .poolExhausted

def release (rs : List Register) : Emit Unit := modify fun a => a.release rs

theorem acquire_apply (a : Assembly) :
    acquire a = match a.firstFree? with
      | some r => .ok r (a.occupy r)
      | none => .error .poolExhausted a := by
  change (match a.firstFree? with
    | some r => do modify fun a => a.occupy r; return r
    | none => throw .poolExhausted : Emit Register) a = _
  cases a.firstFree? <;> rfl

/-- Registers set aside by `reserve`: those saved on the stack and those kept from `acquire`. -/
structure Reservation where
  saved : List Register
  blocked : List Register

/-- Saves those of `rs` that are in use on the stack and blocks the others. -/
def reserve (rs : List Register) : Emit Reservation := do
  let a ← get
  let saved := rs.filter fun r => a.busy.contains r
  let blocked := rs.filter fun r => !a.busy.contains r
  saved.forM fun r => instr (.push r)
  modify fun a => a.occupyAll blocked
  return ⟨saved, blocked⟩

/-- Ends a reservation: frees the blocked registers and restores the saved ones. -/
def restore (s : Reservation) : Emit Unit := do
  release s.blocked
  s.saved.reverse.forM fun r => instr (.pop r)

section

variable {m : Type → Type} [Monad m] [MonadLiftT Emit m] {α : Type}

/-- Runs `body` with a scratch register, which is released however `body` ends. -/
def withScratch [MonadFinally m] (body : Register → m α) : m α := do
  let r ← (acquire : Emit Register)
  try body r finally (release [r] : Emit Unit)

/-- Runs `body` with `rs` to itself.  When `body` fails the reservation is not ended. -/
def reserving (rs : List Register) (body : m α) : m α := do
  let s ← (reserve rs : Emit Reservation)
  let result ← body
  (restore s : Emit Unit)
  return result

end

theorem withScratch_apply {α : Type} (body : Register → Emit α) (a : Assembly) :
    withScratch body a = match acquire a with
      | .error e a => .error e a
      | .ok r a =>
          match body r a with
          | .ok x a => .ok x (a.release [r])
          | .error e a => .error e (a.release [r]) := by
  simp only [withScratch, bind, EStateM.bind, liftM, monadLift, tryFinally, tryFinally',
    Functor.map, EStateM.map]
  cases acquire a with
  | error e a => rfl
  | ok r a =>
      simp only
      cases body r a <;> rfl

theorem reserving_apply {α : Type} (rs : List Register) (body : Emit α) (a : Assembly) :
    reserving rs body a = match reserve rs a with
      | .error e a => .error e a
      | .ok s a =>
          match body a with
          | .error e a => .error e a
          | .ok x a =>
              match restore s a with
              | .error e a => .error e a
              | .ok _ a => .ok x a := by
  simp only [reserving, bind, EStateM.bind, liftM, monadLift, pure, EStateM.pure]
  cases reserve rs a with
  | error e a => rfl
  | ok s a =>
      simp only
      cases body a with
      | error e a => rfl
      | ok x a =>
          simp only
          cases restore s a <;> rfl

def discard (v : Value) : Emit Unit := release v.held

def discardItem (i : Item) : Emit Unit := release i.held

/-- The width of the registers that a value of type `t` fits. -/
def scalarWidth (t : Ty) : Emit Width :=
  match Width.ofBytes? t.size with
  | some w => pure w
  | none => throw (.notScalar t.size)

/-- The operand for a value, without the size of a memory operand. -/
def operand : Value → Emit Operand
  | .const t v => do return .imm (Word.signed (← scalarWidth t).bytes v)
  | .reg t r => do return .reg r (← scalarWidth t)
  | .mem _ a _ => pure (.mem none a)

/-- The operand for an item, which must not be void. -/
def itemOperand : Item → Emit Operand
  | .value v => operand v
  | .void => throw .voidOperand

/-- An item at another type; it must not be void. -/
def withType : Item → Ty → Emit Value
  | .value v, t => pure (v.withType t)
  | .void, _ => throw .voidRetyped

/-- The operand for a value where no other operand gives its size. -/
def sizedOperand (v : Value) (w : Width) : Emit Operand :=
  match v with
  | .mem _ a _ => pure (.mem (some w) a)
  | v => operand v

end Emit

end Tern
