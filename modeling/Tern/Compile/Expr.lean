import Tern.Compile.Basic
import Tern.Compile.Const

/-!
# Compiling expressions

An expression is checked and compiled in the order in which it is read.  Operations on
constants are carried out at once; everything else is emitted as code.
-/

namespace Tern.Compile

/-- The value of an item, which must not be void. -/
def asValue (pos : Position) : Item → Compile Value
  | .value v => pure v
  | .void => fail .voidValue pos

/-- An integer literal: `Long` with a suffix, `Int` without. -/
def integer (pos : Position) (digits : String) (isLong : Bool) : Compile Value := do
  let t ← predefinedType (if isLong then .long else .int)
  let n := Const.ofDigits digits.toList
  require (Const.reduce t n == n) (.literalTooWide n t) pos
  return .const t n

def reference (pos : Position) (item : Item) : Compile Value := do
  require item.isInMemory .notAddressable pos
  emit (Emit.reference item)

def negate (pos : Position) (item : Item) : Compile Value := do
  let v ← asValue pos item
  require v.type.isBuiltin (.notNegated v.type) pos
  match v with
  | .const t n => return .const t (Const.reduce t (-n))
  | v => emit (Emit.negate v)

/-- Conversion of a value to a type; neither may be an array. -/
def cast (pos : Position) (v : Value) (t : Ty) : Compile Value := do
  require (!t.isArray && !v.type.isArray) (.badCast v.type t) pos
  match v with
  | .const _ n => return .const t (Const.reduce t n)
  | v => emit (Emit.convert v t)

/-- A binary operation with at least one operand that is not constant. -/
def operate (op : BinaryOp) (lhs rhs : Value) : Emit Value :=
  if lhs.type = rhs.type then Emit.operation op lhs rhs
  else do
    let (lhs, rhs) ← Emit.balance lhs rhs
    Emit.operation op lhs rhs

def binary (op : BinaryOp) (pos : Position) (lhs rhs : Value) : Compile Value := do
  require (lhs.type.admits op) (.unsupported lhs.type op) pos
  require (lhs.type.admitsWith op rhs.type) (.operandTypes lhs.type rhs.type) pos
  match lhs, rhs with
  | .const lt l, .const rt r =>
      match Const.fold op lt l rt r with
      | .ok (t, v) => return .const t v
      | .error p => fail p pos
  | lhs, rhs => emit (operate op lhs rhs)

/-- Checks arguments against parameters, counting from `ordinal`. -/
def checkArguments (id : Ident) : Nat → List Ty → List Value → Compile Unit
  | ordinal, want :: wants, got :: gots => do
      require (got.type == want) (.argumentType ordinal id.name want got.type) id.pos
      checkArguments id (ordinal + 1) wants gots
  | _, _, _ => pure ()

/-- A call, once its arguments are compiled. -/
def call (id : Ident) (p : Procedure) (args : List Value) : Compile Item := do
  require (args.length == p.params.length)
    (.argumentCount id.name p.params.length args.length) id.pos
  checkArguments id 1 p.params args
  emit (Emit.call p (args.map Item.value))

/-- Assignment, once both sides are compiled. -/
def assign (pos : Position) (target source : Value) : Compile Value := do
  require (target.type == source.type) (.assignedTypes target.type source.type) pos
  emit (Emit.assignment target source)

/-- The count of an array type: a constant between 1 and the largest count. -/
def arrayCount (pos : Position) : Value → Compile Nat
  | .const _ n => do
      require (n != 0 && decide (n ≤ Ty.countLimit)) (.arraySizeRange n) pos
      return n.toNat
  | _ => fail .variableArraySize pos

mutual

def item : Expr → Compile Item
  | .missing why => stop why
  | .integer pos digits isLong => do
      take 1
      let v ← integer pos digits isLong
      return .value v
  | .char _ value => do
      take 1
      let t ← predefinedType .char
      return .value (.const t value.toNat)
  | .name id => do
      take 1
      match ← lookup id.name with
      | some (.procedure p) => call id p []
      | _ =>
          let v ← variableNamed id
          return .value v
  | .call id as => do
      take 1
      let p ← procedureOf id
      take 1
      let vs ← arguments as
      call id p vs
  | .element p => do
      let v ← place p
      return .value v
  | .assign target pos source => do
      let t ← place target
      require (!t.type.isArray) (.assignedArray t.type) pos
      take 1
      let i ← item source
      let v ← asValue source.start i
      let r ← assign pos t v
      return .value r
  | .paren _ inner close => do
      take 1
      let i ← item inner
      let v ← asValue inner.start i
      pass 1 close
      return .value v
  | .reference pos operand => do
      take 1
      let i ← item operand
      let v ← reference pos i
      return .value v
  | .negate pos operand => do
      take 1
      let i ← item operand
      let v ← negate pos i
      return .value v
  | .cast operand pos t => do
      let i ← item operand
      let v ← asValue operand.start i
      take 1
      let t ← type t
      let r ← cast pos v t
      return .value r
  | .binary op pos lhs rhs => do
      let i ← item lhs
      let l ← asValue lhs.start i
      take 1
      let j ← item rhs
      let r ← asValue rhs.start j
      let v ← binary op pos l r
      return .value v

def place : Place → Compile Value
  | .var id => do
      take 1
      variableNamed id
  | .element array pos index close => do
      let a ← place array
      require a.type.isIndexable (.notIndexed a.type) pos
      take 1
      let j ← item index
      let i ← asValue index.start j
      require (a.type.isIndexableBy i.type) (.badIndex a.type i.type) array.root.pos
      pass 1 close
      emit (Emit.element a i)

def arguments : Args → Compile (List Value)
  | .close close => do
      pass 1 close
      return []
  | .cons arg rest => do
      let i ← item arg
      let v ← asValue arg.start i
      match rest with
      | .close _ => pure ()
      | .cons .. => take 1
      let vs ← arguments rest
      return v :: vs

def type : TypeExpr → Compile Ty
  | .missing why => stop why
  | .named id => do
      let t ← typeOf id
      take 1
      return t
  | .pointer base => do
      let t ← type base
      take 1
      return .pointer t
  | .array base pos count close => do
      let t ← type base
      take 1
      let i ← item count
      let v ← asValue count.start i
      let n ← arrayCount pos v
      pass 1 close
      require (decide (n * t.size ≤ Ty.sizeLimit)) (.typeTooLarge (.array t n)) pos
      return .array t n
  | .stopped base why => do
      let _ ← type base
      stop why

end

def value (e : Expr) : Compile Value := do
  let i ← item e
  asValue e.start i

def statement : Expr → Compile Item
  | .name id => do
      take 1
      match ← lookup id.name with
      | some (.procedure p) => call id p []
      | _ => fail .expectedAssignmentOrCall id.pos
  | .element p => do
      let _ ← place p
      fail .expectedAssignmentOrCall p.root.pos
  | e => item e

end Tern.Compile
