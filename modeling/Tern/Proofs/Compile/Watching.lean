import Tern.Proofs.Compile.Run

/-!
# Compiling under observation

A watched compilation does what a compilation does and also keeps a record of the values that
pass through it: the values of expressions, the counts of array types, and the operands of all
that is emitted for an operator, an index, an assignment or a call.  The record does not depend on
how the compilation ends, and keeping it changes nothing else.
-/

namespace Tern

/-- Values on their way through a compilation. -/
inductive Handover where
  /-- The value of an expression. -/
  | value (v : Value)
  /-- The count of an array type. -/
  | count (v : Value)
  | balance (lhs rhs : Value)
  | operation (op : BinaryOp) (lhs rhs : Value)
  | element (array index : Value)
  | assignment (target source : Value)
  | call (p : Procedure) (args : List Value)
  deriving DecidableEq

def Handover.values : Handover → List Value
  | value v | count v => [v]
  | balance lhs rhs | operation _ lhs rhs => [lhs, rhs]
  | element array index => [array, index]
  | assignment target source => [target, source]
  | call _ args => args

/-- An operation on a compilation, and what it hands over on its way. -/
structure Watched (α : Type) where
  run : Compile α
  log : Compilation → List Handover

namespace Watched

open Compile (take require fail stop pass lookup procedureOf variableNamed predefinedType)

variable {α β : Type}

def lift (x : Compile α) : Watched α := ⟨x, fun _ => []⟩

def handing (h : Handover) (x : Compile α) : Watched α := ⟨x, fun _ => [h]⟩

/-- What the second operation hands over comes behind what the first one does, if there is a
second one. -/
def andThen (x : Watched α) (f : α → Watched β) : Watched β where
  run := x.run >>= fun v => (f v).run
  log c := x.log c ++
    match x.run c with
    | .ok v d => (f v).log d
    | .error _ _ => []

instance : Monad Watched where
  pure v := lift (pure v)
  bind := andThen

instance : MonadLift Compile Watched := ⟨lift⟩

@[simp] theorem run_lift (x : Compile α) : (lift x).run = x := rfl

@[simp] theorem run_monadLift (x : Compile α) : (liftM x : Watched α).run = x := rfl

@[simp] theorem run_handing (h : Handover) (x : Compile α) : (handing h x).run = x := rfl

@[simp] theorem run_pure (v : α) : (pure v : Watched α).run = pure v := rfl

@[simp] theorem run_bind (x : Watched α) (f : α → Watched β) :
    (x >>= f).run = x.run >>= fun v => (f v).run := rfl

/-! ## The watched compiler -/

/-- The value of an item, which is the value of an expression. -/
def asValue (pos : Position) (i : Item) : Watched Value where
  run := Compile.asValue pos i
  log _ :=
    match i with
    | .value v => [.value v]
    | .void => []

def operate (op : BinaryOp) (lhs rhs : Value) : Watched Value :=
  if lhs.type = rhs.type then
    handing (.operation op lhs rhs) (Compile.emit (Emit.operation op lhs rhs))
  else do
    let (lhs, rhs) ← handing (.balance lhs rhs) (Compile.emit (Emit.balance lhs rhs))
    handing (.operation op lhs rhs) (Compile.emit (Emit.operation op lhs rhs))

def binary (op : BinaryOp) (pos : Position) (lhs rhs : Value) : Watched Value := do
  require (lhs.type.admits op) (.unsupported lhs.type op) pos
  require (lhs.type.admitsWith op rhs.type) (.operandTypes lhs.type rhs.type) pos
  match lhs, rhs with
  | .const lt l, .const rt r =>
      match Const.fold op lt l rt r with
      | .ok (t, v) => return .const t v
      | .error p => lift (fail p pos)
  | lhs, rhs => operate op lhs rhs

def call (id : Ident) (p : Procedure) (args : List Value) : Watched Item := do
  require (args.length == p.params.length)
    (.argumentCount id.name p.params.length args.length) id.pos
  Compile.checkArguments id 1 p.params args
  handing (.call p args) (Compile.emit (Emit.call p (args.map Item.value)))

def assign (pos : Position) (target source : Value) : Watched Value := do
  require (target.type == source.type) (.assignedTypes target.type source.type) pos
  handing (.assignment target source) (Compile.emit (Emit.assignment target source))

def arrayCount (pos : Position) (v : Value) : Watched Nat :=
  handing (.count v) (Compile.arrayCount pos v)

mutual

def item : Expr → Watched Item
  | .missing why => lift (stop why)
  | .integer pos digits isLong => do
      take 1
      let v ← lift (Compile.integer pos digits isLong)
      return .value v
  | .char _ value => do
      take 1
      let t ← predefinedType .char
      return .value (.const t value.toNat)
  | .name id => do
      take 1
      match ← lookup id.name with
      | some (.procedure p) => call id p []
      | _ =>
          let v ← variableNamed id
          return .value v
  | .call id as => do
      take 1
      let p ← procedureOf id
      take 1
      let vs ← arguments as
      call id p vs
  | .element p => do
      let v ← place p
      return .value v
  | .assign target pos source => do
      let t ← place target
      require (!t.type.isArray) (.assignedArray t.type) pos
      take 1
      let i ← item source
      let v ← asValue source.start i
      let r ← assign pos t v
      return .value r
  | .paren _ inner close => do
      take 1
      let i ← item inner
      let v ← asValue inner.start i
      pass 1 close
      return .value v
  | .reference pos operand => do
      take 1
      let i ← item operand
      let v ← lift (Compile.reference pos i)
      return .value v
  | .negate pos operand => do
      take 1
      let i ← item operand
      let v ← lift (Compile.negate pos i)
      return .value v
  | .cast operand pos t => do
      let i ← item operand
      let v ← asValue operand.start i
      take 1
      let t ← type t
      let r ← lift (Compile.cast pos v t)
      return .value r
  | .binary op pos lhs rhs => do
      let i ← item lhs
      let l ← asValue lhs.start i
      take 1
      let j ← item rhs
      let r ← asValue rhs.start j
      let v ← binary op pos l r
      return .value v

def place : Place → Watched Value
  | .var id => do
      take 1
      variableNamed id
  | .element array pos index close => do
      let a ← place array
      require a.type.isIndexable (.notIndexed a.type) pos
      take 1
      let j ← item index
      let i ← asValue index.start j
      require (a.type.isIndexableBy i.type) (.badIndex a.type i.type) array.root.pos
      pass 1 close
      handing (.element a i) (Compile.emit (Emit.element a i))

def arguments : Args → Watched (List Value)
  | .close close => do
      pass 1 close
      return []
  | .cons arg rest => do
      let i ← item arg
      let v ← asValue arg.start i
      match rest with
      | .close _ => pure ()
      | .cons .. => take 1
      let vs ← arguments rest
      return v :: vs

def type : TypeExpr → Watched Ty
  | .missing why => lift (stop why)
  | .named id => do
      let t ← Compile.typeOf id
      take 1
      return t
  | .pointer base => do
      let t ← type base
      take 1
      return .pointer t
  | .array base pos count close => do
      let t ← type base
      take 1
      let i ← item count
      let v ← asValue count.start i
      let n ← arrayCount pos v
      pass 1 close
      require (decide (n * t.size ≤ Ty.sizeLimit)) (.typeTooLarge (.array t n)) pos
      return .array t n
  | .stopped base why => do
      let _ ← type base
      lift (stop why)

end

def value (e : Expr) : Watched Value := do
  let i ← item e
  asValue e.start i

def statement : Expr → Watched Item
  | .name id => do
      take 1
      match ← lookup id.name with
      | some (.procedure p) => call id p []
      | _ => lift (fail .expectedAssignmentOrCall id.pos)
  | .element p => do
      let _ ← place p
      lift (fail .expectedAssignmentOrCall p.root.pos)
  | e => item e

def declare (bytes : Nat) (d : Decl) : Watched (String × Nat) := do
  let id ← Compile.declName d
  pass 2 d.colon
  let t ← type d.type
  match (← (get : Compile Compilation)).scopes.declare?
      (.var { name := id.name, type := t, exported := d.exported.isSome }) with
  | none => lift (fail (.redeclared id.name) id.pos)
  | some scopes => lift (modify fun s => { s with scopes })
  require (decide (bytes + t.size ≤ Ty.sizeLimit)) .scopeTooLarge id.pos
  return (id.name, bytes + t.size)

def declareAll : Nat → List Decl → Watched (List String)
  | _, [] => return []
  | bytes, d :: ds => do
      let (name, bytes) ← declare bytes d
      if !ds.isEmpty then
        take 1
      let names ← declareAll bytes ds
      return name :: names

def declList (l : DeclList) : Watched Unit := do
  pass 1 l.opening
  if (← (get : Compile Compilation)).scopes.isGlobal then
    let names ← declareAll 0 l.decls
    Compile.layOutGlobals names
  else
    let bytes ← Compile.emit Emit.frameBytes
    let names ← declareAll bytes l.decls
    Compile.layOutLocals names

def statements : List Expr → Watched Unit
  | [] => pure ()
  | e :: es => do
      let before ← Compile.emit Emit.live
      let i ← statement e
      Compile.emit (Emit.discardItem i)
      let after ← Compile.emit Emit.live
      if after ≠ before then
        lift (throw (.fault (.leaked e.start.line after)))
      statements es

def block (b : Block) : Watched Unit := do
  statements b.statements
  pass 0 b.close

def program (p : Program) : Watched Unit := do
  Compile.emit Emit.programHead
  Compile.emit Emit.dataHead
  p.globals.forM declList
  Compile.emit Emit.textHead
  pass 1 p.opening
  Compile.push
  Compile.emit Emit.enterProgram
  p.locals.forM declList
  block p.body
  Compile.emit Emit.leaveProgram
  Compile.pop
  pass 1 p.finish

/-! ## Watching changes nothing -/

@[simp] theorem run_asValue (pos : Position) (i : Item) :
    (asValue pos i).run = Compile.asValue pos i := rfl

@[simp] theorem run_operate (op : BinaryOp) (lhs rhs : Value) :
    (operate op lhs rhs).run = Compile.emit (Compile.operate op lhs rhs) := by
  unfold operate Compile.operate
  split
  · rfl
  · exact (Compile.emit_bind _ _).symm

@[simp] theorem run_binary (op : BinaryOp) (pos : Position) (lhs rhs : Value) :
    (binary op pos lhs rhs).run = Compile.binary op pos lhs rhs := by
  simp only [binary, Compile.binary, run_bind, run_monadLift]
  refine bind_congr fun _ => bind_congr fun _ => ?_
  cases lhs with
  | reg lt l | mem lt a hs => exact run_operate op _ _
  | const lt l =>
      cases rhs with
      | reg rt r | mem rt a hs => exact run_operate op _ _
      | const rt r =>
          simp only
          cases Const.fold op lt l rt r with
          | ok tv => rfl
          | error p => rfl

@[simp] theorem run_call (id : Ident) (p : Procedure) (args : List Value) :
    (call id p args).run = Compile.call id p args := rfl

@[simp] theorem run_assign (pos : Position) (target source : Value) :
    (assign pos target source).run = Compile.assign pos target source := rfl

@[simp] theorem run_arrayCount (pos : Position) (v : Value) :
    (arrayCount pos v).run = Compile.arrayCount pos v := rfl

mutual

theorem run_item : ∀ e : Expr, (item e).run = Compile.item e
  | .missing _ => by simp only [item, Compile.item, run_lift]
  | .integer .. => by simp only [item, Compile.item, run_bind, run_monadLift, run_lift, run_pure]
  | .char .. => by simp only [item, Compile.item, run_bind, run_monadLift, run_pure]
  | .name id => by
      simp only [item, Compile.item, run_bind, run_monadLift]
      refine bind_congr fun _ => bind_congr fun x => ?_
      cases x with
      | none => rfl
      | some e => cases e <;> rfl
  | .call _ as => by
      simp only [item, Compile.item, run_bind, run_monadLift, run_arguments as, run_call]
  | .element p => by simp only [item, Compile.item, run_bind, run_place p, run_pure]
  | .assign target _ source => by
      simp only [item, Compile.item, run_bind, run_monadLift, run_place target, run_item source,
        run_asValue, run_assign, run_pure]
  | .paren _ inner _ => by
      simp only [item, Compile.item, run_bind, run_monadLift, run_item inner, run_asValue, run_pure]
  | .reference _ operand => by
      simp only [item, Compile.item, run_bind, run_monadLift, run_item operand, run_lift, run_pure]
  | .negate _ operand => by
      simp only [item, Compile.item, run_bind, run_monadLift, run_item operand, run_lift, run_pure]
  | .cast operand _ t => by
      simp only [item, Compile.item, run_bind, run_monadLift, run_item operand, run_asValue,
        run_type t, run_lift, run_pure]
  | .binary _ _ lhs rhs => by
      simp only [item, Compile.item, run_bind, run_monadLift, run_item lhs, run_item rhs,
        run_asValue, run_binary, run_pure]

theorem run_place : ∀ p : Place, (place p).run = Compile.place p
  | .var _ => by simp only [place, Compile.place, run_bind, run_monadLift]
  | .element array _ index _ => by
      simp only [place, Compile.place, run_bind, run_monadLift, run_place array, run_item index,
        run_asValue, run_handing]

theorem run_arguments : ∀ as : Args, (arguments as).run = Compile.arguments as
  | .close _ => by simp only [arguments, Compile.arguments, run_bind, run_monadLift, run_pure]
  | .cons arg (.close close) => by
      have hrest := run_arguments (.close close)
      simp only [arguments.eq_2, Compile.arguments.eq_2, run_bind, run_item arg, run_asValue, hrest,
        run_pure]
  | .cons arg (.cons arg' rest) => by
      have hrest := run_arguments (.cons arg' rest)
      rw [arguments.eq_2, Compile.arguments.eq_2]
      simp only [run_bind, run_monadLift, run_item arg, run_asValue, hrest, run_pure]

theorem run_type : ∀ t : TypeExpr, (type t).run = Compile.type t
  | .missing _ => by simp only [type, Compile.type, run_lift]
  | .named _ => by simp only [type, Compile.type, run_bind, run_monadLift, run_pure]
  | .pointer base => by
      simp only [type, Compile.type, run_bind, run_monadLift, run_type base, run_pure]
  | .array base _ count _ => by
      simp only [type, Compile.type, run_bind, run_monadLift, run_type base, run_item count,
        run_asValue, run_arrayCount, run_pure]
  | .stopped base _ => by
      simp only [type, Compile.type, run_bind, run_type base, run_lift]

end

theorem run_value (e : Expr) : (value e).run = Compile.value e := by
  simp only [value, Compile.value, run_bind, run_item, run_asValue]

theorem run_statement (e : Expr) : (statement e).run = Compile.statement e := by
  cases e with
  | name id =>
      simp only [statement, Compile.statement, run_bind, run_monadLift]
      refine bind_congr fun _ => bind_congr fun x => ?_
      cases x with
      | none => rfl
      | some e => cases e <;> rfl
  | element p => simp only [statement, Compile.statement, run_bind, run_place, run_lift]
  | missing | integer | char | call | assign | paren | reference | negate | cast | binary =>
      exact run_item _

theorem run_declare (bytes : Nat) (d : Decl) :
    (declare bytes d).run = Compile.declare bytes d := by
  simp only [declare, Compile.declare, run_bind, run_monadLift, run_type]
  refine bind_congr fun id => bind_congr fun _ => bind_congr fun t => bind_congr fun c => ?_
  cases c.scopes.declare?
      (.var { name := id.name, type := t, exported := d.exported.isSome }) with
  | none => rfl
  | some scopes => rfl

theorem run_declareAll (bytes : Nat) (ds : List Decl) :
    (declareAll bytes ds).run = Compile.declareAll bytes ds := by
  induction ds generalizing bytes with
  | nil => rfl
  | cons d ds ih =>
      simp only [declareAll, Compile.declareAll, run_bind, run_declare]
      refine bind_congr fun r => ?_
      split <;> simp only [run_bind, run_monadLift, ih, run_pure]

theorem run_declList (l : DeclList) : (declList l).run = Compile.declList l := by
  simp only [declList, Compile.declList, run_bind, run_monadLift]
  refine bind_congr fun _ => bind_congr fun c => ?_
  split <;> simp only [run_bind, run_monadLift, run_declareAll]

theorem run_statements (es : List Expr) : (statements es).run = Compile.statements es := by
  induction es with
  | nil => rfl
  | cons e es ih =>
      simp only [statements, Compile.statements, run_bind, run_monadLift, run_statement]
      refine bind_congr fun before => bind_congr fun i => bind_congr fun _ =>
        bind_congr fun after => ?_
      split <;> simp only [run_bind, run_lift, ih]

theorem run_block (b : Block) : (block b).run = Compile.block b := by
  simp only [block, Compile.block, run_bind, run_statements, run_monadLift]

theorem run_declLists (l : Option DeclList) :
    (l.forM declList).run = l.forM Compile.declList := by
  cases l with
  | none => rfl
  | some l => exact run_declList l

theorem run_program (p : Program) : (program p).run = Compile.program p := by
  simp only [program, Compile.program, run_bind, run_monadLift, run_declLists, run_block]

end Watched

namespace Session

/-- What a session can compile in one go. -/
inductive Phrase where
  | expr (minPrec : Nat)
  | type
  | declList
  | block
  | program

namespace Phrase

def Tree : Phrase → Type
  | expr _ => Expr
  | type => TypeExpr
  | declList => DeclList
  | block => Block
  | program => Program

def Result : Phrase → Type
  | expr _ => Value
  | type => Ty
  | declList | block | program => Unit

def read : (p : Phrase) → Cursor → Outcome p.Tree
  | expr minPrec => fun c => Reader.expr (Reader.budget c) minPrec c
  | type => fun c => Reader.type (Reader.budget c) c
  | declList => Reader.declList
  | block => Reader.block
  | program => Reader.program

def compile : (p : Phrase) → p.Tree → Compile p.Result
  | expr _ => Compile.value
  | type => Compile.type
  | declList => Compile.declList
  | block => Compile.block
  | program => Compile.program

def watch : (p : Phrase) → p.Tree → Watched p.Result
  | expr _ => Watched.value
  | type => Watched.type
  | declList => Watched.declList
  | block => Watched.block
  | program => Watched.program

def run (p : Phrase) : Resume p.Result := phrase p.read p.compile

/-- What a phrase hands over when the session compiles it. -/
def handovers (p : Phrase) (s : Session) : List Handover :=
  (p.watch (p.read s.cursor).tree).log s.fresh

theorem run_watch (p : Phrase) (tree : p.Tree) : (p.watch tree).run = p.compile tree := by
  cases p with
  | expr minPrec => exact Watched.run_value tree
  | type => exact Watched.run_type tree
  | declList => exact Watched.run_declList tree
  | block => exact Watched.run_block tree
  | program => exact Watched.run_program tree

end Phrase

end Session

end Tern
