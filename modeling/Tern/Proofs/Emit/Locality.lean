import Tern.Proofs.Emit.Run

/-!
# What has been written before does not matter

An operation looks at the registers in use and at the open frames, never at the lines that are
already there.  Put other lines in front, and it does the same behind them.
-/

namespace Tern

/-- The assembly with other lines in front. -/
def Assembly.behind (front : Array Line) (a : Assembly) : Assembly :=
  { a with lines := front ++ a.lines }

namespace Assembly

variable (front : Array Line) (a : Assembly)

theorem write_behind (l : Line) : (a.behind front).write l = (a.write l).behind front := by
  simp [write, behind]

theorem occupy_behind (r : Register) : (a.behind front).occupy r = (a.occupy r).behind front := by
  unfold occupy behind
  split <;> rfl

theorem occupyAll_behind (rs : List Register) :
    (a.behind front).occupyAll rs = (a.occupyAll rs).behind front := by
  induction rs generalizing a with
  | nil => rfl
  | cons r rs ih =>
      simp only [occupyAll, List.foldl_cons] at ih ⊢
      rw [occupy_behind, ih]

end Assembly

namespace Emit

variable {α β : Type}

def resultBehind (front : Array Line) :
    EStateM.Result Fault Assembly α → EStateM.Result Fault Assembly α
  | .ok v a => .ok v (a.behind front)
  | .error f a => .error f (a.behind front)

/-- Lines in front stay in front and change nothing else. -/
def Local (x : Emit α) : Prop :=
  ∀ (front : Array Line) (a : Assembly), x (a.behind front) = resultBehind front (x a)

namespace Local

theorem pure (v : α) : Local (pure v) := fun _ _ => rfl

theorem throw (f : Fault) : Local (throw f : Emit α) := fun _ _ => rfl

theorem bind {x : Emit α} {f : α → Emit β} (hx : Local x) (hf : ∀ v, Local (f v)) :
    Local (x >>= f) := by
  intro front a
  simp only [Bind.bind, EStateM.bind, hx front a]
  cases x a with
  | ok v b => exact hf v front b
  | error e b => rfl

theorem modify {f : Assembly → Assembly}
    (hf : ∀ front a, f (a.behind front) = (f a).behind front) :
    Local (modify f : Emit PUnit) := by
  intro front a
  show EStateM.Result.ok _ (f (a.behind front)) = .ok _ ((f a).behind front)
  rw [hf]

/-- Looking at the assembly is fine as long as the lines are not looked at. -/
theorem get {f : Assembly → Emit α} (hf : ∀ front a, f (a.behind front) = f a)
    (h : ∀ a, Local (f a)) : Local (MonadState.get >>= f) := by
  intro front a
  show f (a.behind front) (a.behind front) = resultBehind front (f a a)
  rw [hf]
  exact h a front a

theorem forM {xs : List α} {f : α → Emit PUnit} (hf : ∀ x, Local (f x)) : Local (xs.forM f) := by
  induction xs with
  | nil => exact pure ()
  | cons x xs ih => exact bind (hf x) fun _ => ih

end Local

/-! ## Registers and operands -/

theorem write_local (l : Line) : Local (write l) := .modify fun _ _ => Assembly.write_behind _ _ _

theorem instr_local (i : Instr) : Local (instr i) := write_local _

theorem live_local : Local live := .get (fun _ _ => rfl) fun _ => .pure _

theorem release_local (rs : List Register) : Local (release rs) := .modify fun _ _ => rfl

theorem discard_local (v : Value) : Local (discard v) := release_local _

theorem discardItem_local (i : Item) : Local (discardItem i) := release_local _

theorem acquire_local : Local acquire := by
  refine .get (fun _ _ => rfl) fun a => ?_
  split
  · exact .bind (.modify fun _ _ => Assembly.occupy_behind _ _ _) fun _ => .pure _
  · exact .throw _

theorem withScratch_local {body : Register → Emit α} (hbody : ∀ r, Local (body r)) :
    Local (withScratch body) := by
  intro front a
  rw [withScratch_apply, withScratch_apply, acquire_local front a]
  cases acquire a with
  | error f b => rfl
  | ok r b =>
      simp only [resultBehind, hbody r front b]
      cases body r b <;> rfl

theorem reserve_local (rs : List Register) : Local (reserve rs) := by
  refine .get (fun _ _ => rfl) fun a => ?_
  exact .bind (.forM fun _ => instr_local _) fun _ =>
    .bind (.modify fun _ _ => Assembly.occupyAll_behind _ _ _) fun _ => .pure _

theorem restore_local (s : Reservation) : Local (restore s) :=
  .bind (release_local _) fun _ => .forM fun _ => instr_local _

theorem reserving_local {rs : List Register} {body : Emit α} (hbody : Local body) :
    Local (reserving rs body) :=
  .bind (reserve_local rs) fun s => .bind hbody fun v => .bind (restore_local s) fun _ => .pure v

theorem scalarWidth_local (t : Ty) : Local (scalarWidth t) := by
  unfold scalarWidth
  split
  · exact .pure _
  · exact .throw _

theorem operand_local (v : Value) : Local (operand v) := by
  cases v with
  | const t n => exact .bind (scalarWidth_local t) fun _ => .pure _
  | reg t r => exact .bind (scalarWidth_local t) fun _ => .pure _
  | mem t a holds => exact .pure _

theorem itemOperand_local (i : Item) : Local (itemOperand i) := by
  cases i with
  | value v => exact operand_local v
  | void => exact .throw _

theorem sizedOperand_local (v : Value) (w : Width) : Local (sizedOperand v w) := by
  unfold sizedOperand
  split
  · exact .pure _
  · exact operand_local _

/-! ## Arithmetic -/

theorem negate_local (i : Item) : Local (negate i) := by
  unfold negate
  split
  · exact .throw _
  · exact .throw _
  · next v _ =>
    exact .bind acquire_local fun _ => .bind (scalarWidth_local _) fun _ =>
      .bind (operand_local v) fun _ => .bind (instr_local _) fun _ => .bind (instr_local _) fun _ =>
        .bind (discard_local v) fun _ => .pure _

theorem zeroExtend_local (r : Register) (source target : Ty) :
    Local (zeroExtend r source target) := by
  unfold zeroExtend
  split
  · exact instr_local _
  · exact .bind (scalarWidth_local _) fun _ => instr_local _

theorem load_local (r : Register) (source target : Ty) (address : Address) :
    Local (load r source target address) := by
  unfold load
  split
  · exact .bind (scalarWidth_local _) fun _ => .bind (instr_local _) fun _ =>
      .bind (scalarWidth_local _) fun _ => instr_local _
  · exact .bind (scalarWidth_local _) fun _ => instr_local _

theorem resize_local (t : Ty) (v : Value) : Local (resize t v) := by
  unfold resize
  split
  · exact .throw _
  · dsimp only
    split
    · exact .bind (zeroExtend_local _ _ _) fun _ => .pure _
    · exact .pure _
  · exact .bind acquire_local fun _ => .bind (load_local _ _ _ _) fun _ =>
      .bind (release_local _) fun _ => .pure _

theorem convert_local (v : Value) (t : Ty) : Local (convert v t) := by
  unfold convert
  split
  · exact .pure _
  · exact resize_local t v

theorem widen_local (v : Value) (t : Ty) : Local (widen v t) := by
  unfold widen
  split
  · exact .pure _
  · exact convert_local v t

theorem balance_local (lhs rhs : Value) : Local (balance lhs rhs) := by
  unfold balance
  split
  · exact .bind (widen_local _ _) fun _ => .pure _
  · split
    · exact .bind (widen_local _ _) fun _ => .pure _
    · exact .pure _

theorem toRegister_local (v : Value) (w : Width) : Local (toRegister v w) := by
  unfold toRegister
  split
  · exact .pure _
  · exact .bind acquire_local fun _ => .bind (operand_local _) fun _ =>
      .bind (instr_local _) fun _ => .bind (discard_local _) fun _ => .pure _

theorem additive_local (op : Combine) (w : Width) (lhs rhs : Value) :
    Local (additive op w lhs rhs) := by
  refine .bind (toRegister_local lhs w) fun dst => ?_
  split
  · refine .bind (withScratch_local fun tmp => ?_) fun _ => .bind (discard_local _) fun _ => .pure _
    exact .bind (operand_local _) fun _ => .bind (instr_local _) fun _ => instr_local _
  · exact .bind (operand_local _) fun _ => .bind (instr_local _) fun _ =>
      .bind (discard_local _) fun _ => .pure _

theorem vacateCount_local (r : Register) : Local (vacateCount r) := by
  unfold vacateCount
  split
  · exact .bind acquire_local fun _ => .bind (instr_local _) fun _ =>
      .bind (release_local _) fun _ => .pure _
  · exact .pure _

theorem countOperand_local (v : Value) : Local (countOperand v) := by
  unfold countOperand
  split
  · exact .pure _
  · exact operand_local _

theorem shiftByCount_local (dir : Direction) (w : Width) (dst : Register) (rhs : Value) :
    Local (shiftByCount dir w dst rhs) :=
  .bind (vacateCount_local dst) fun _ => .bind (countOperand_local rhs) fun _ =>
    .bind (reserving_local (.bind (instr_local _) fun _ => instr_local _)) fun _ =>
      .bind (discard_local rhs) fun _ => .pure _

theorem shift_local (dir : Direction) (w : Width) (lhs rhs : Value) :
    Local (shift dir w lhs rhs) := by
  refine .bind (toRegister_local lhs w) fun dst => ?_
  split
  · exact .bind (instr_local _) fun _ => .pure _
  · exact .bind (shiftByCount_local dir w dst _) fun _ => .pure _

theorem fillAccumulator_local (v : Value) (w : Width) : Local (fillAccumulator v w) := by
  unfold fillAccumulator
  split
  · exact instr_local _
  · split
    · exact .bind (sizedOperand_local _ _) fun _ => instr_local _
    · exact .bind (operand_local _) fun _ => instr_local _

theorem stage_local (v : Value) (w : Width) : Local (stage v w) := by
  unfold stage
  split
  · exact .bind acquire_local fun _ => .bind (operand_local _) fun _ =>
      .bind (instr_local _) fun _ => .pure _
  · exact .pure _

theorem divide_local (w : Width) (divisor : Value) : Local (divide w divisor) := by
  unfold divide
  split
  · exact .bind (instr_local _) fun _ => .bind (sizedOperand_local _ _) fun _ => instr_local _
  · exact .bind (sizedOperand_local _ _) fun _ => instr_local _

theorem takeRemainder_local (w : Width) : Local (takeRemainder w) := by
  unfold takeRemainder
  split <;> exact instr_local _

theorem accumulate_local (op : WideOp) (w : Width) (factor : Value) :
    Local (accumulate op w factor) := by
  cases op with
  | product => exact .bind (sizedOperand_local _ _) fun _ => instr_local _
  | quotient => exact divide_local w factor
  | remainder => exact .bind (divide_local w factor) fun _ => takeRemainder_local w

theorem wide_local (op : WideOp) (w : Width) (lhs rhs : Value) : Local (wide op w lhs rhs) := by
  refine .bind (reserving_local ?_) fun _ => ?_
  · exact .bind (stage_local rhs w) fun _ => .bind (fillAccumulator_local lhs w) fun _ =>
      .bind (accumulate_local op w _) fun _ => .pure _
  · exact .bind (discard_local lhs) fun _ => .bind (discard_local rhs) fun _ =>
      .bind (release_local _) fun _ => .bind acquire_local fun _ => .bind (instr_local _) fun _ =>
        .pure _

theorem operation_local (op : BinaryOp) (lhs rhs : Value) : Local (operation op lhs rhs) := by
  refine .bind (scalarWidth_local _) fun w => ?_
  split
  · exact .throw _
  · cases op with
    | add => exact additive_local _ _ _ _
    | sub => exact additive_local _ _ _ _
    | shl => exact shift_local _ _ _ _
    | shr => exact shift_local _ _ _ _
    | mul => exact wide_local _ _ _ _
    | div => exact wide_local _ _ _ _
    | mod => exact wide_local _ _ _ _

/-! ## Access to memory -/

theorem variableValue_local (v : Variable) : Local (variableValue v) := by
  unfold variableValue
  split
  · exact .throw _
  · exact .pure _
  · exact .pure _

theorem reference_local (i : Item) : Local (reference i) := by
  unfold reference
  split
  · exact .bind acquire_local fun _ => .bind (instr_local _) fun _ =>
      .bind (release_local _) fun _ => .pure _
  · exact .throw _

theorem elementBase_local (v : Value) : Local (elementBase v) := by
  cases v with
  | reg t r => exact .pure _
  | const t n => exact .throw _
  | mem t address holds =>
      refine .bind acquire_local fun r => ?_
      split <;> exact .bind (instr_local _) fun _ => .bind (release_local _) fun _ => .pure _

theorem moveExtended_local (r : Register) (w : Width) (src : Operand) :
    Local (moveExtended r w src) := by
  unfold moveExtended
  split <;> exact instr_local _

theorem extendIndex_local (v : Value) : Local (extendIndex v) := by
  refine .bind (scalarWidth_local _) fun w => ?_
  split
  · split
    · exact .bind (moveExtended_local _ _ _) fun _ => .pure _
    · exact .pure _
  · exact .bind acquire_local fun _ => .bind (sizedOperand_local _ _) fun _ =>
      .bind (moveExtended_local _ _ _) fun _ => .bind (discard_local _) fun _ => .pure _

theorem scaledElement_local (element : Ty) (base index : Register) :
    Local (scaledElement element base index) := by
  unfold scaledElement
  split
  · exact .pure _
  · exact .bind (instr_local _) fun _ => .pure _

theorem constantElement_local (element : Ty) (base : Register) (i : Int) :
    Local (constantElement element base i) := by
  unfold constantElement
  dsimp only
  split
  · exact .pure _
  · exact .bind acquire_local fun _ => .bind (instr_local _) fun _ => scaledElement_local _ _ _

theorem elementAt_local (element : Ty) (base : Register) (i : Item) :
    Local (elementAt element base i) := by
  unfold elementAt
  split
  · exact .throw _
  · exact .bind (scalarWidth_local _) fun _ => constantElement_local _ _ _
  · exact .bind (extendIndex_local _) fun _ => scaledElement_local _ _ _

theorem element_local (array index : Item) : Local (element array index) := by
  unfold element
  split
  · exact .throw _
  · exact .throw _
  · split
    · exact .throw _
    · exact .bind (elementBase_local _) fun _ => elementAt_local _ _ _

theorem store_local (w : Width) (address : Address) (v : Value) : Local (store w address v) := by
  unfold store
  split
  · exact withScratch_local fun _ => .bind (instr_local _) fun _ => instr_local _
  · split
    · exact withScratch_local fun _ => .bind (operand_local _) fun _ =>
        .bind (instr_local _) fun _ => instr_local _
    · exact .bind (operand_local _) fun _ => instr_local _

theorem assignment_local (target source : Item) : Local (assignment target source) := by
  unfold assignment
  split
  · exact .throw _
  · exact .bind (scalarWidth_local _) fun _ => .bind (store_local _ _ _) fun _ =>
      .bind (discard_local _) fun _ => .pure _
  · exact .throw _

theorem writeNewline_local : Local writeNewline :=
  reserving_local (.bind (instr_local _) fun _ => .bind (instr_local _) fun _ =>
    .bind (instr_local _) fun _ => .bind (instr_local _) fun _ => instr_local _)

theorem digitValue_local (digit : Item) (t : Ty) : Local (digitValue digit t) :=
  .bind acquire_local fun _ => .bind (itemOperand_local digit) fun _ =>
    .bind (instr_local _) fun _ => .bind (instr_local _) fun _ => .pure _

theorem perform_local (p : Procedure) (args : List Item) : Local (perform p args) := by
  unfold perform
  split
  · exact .bind writeNewline_local fun _ => .pure _
  · exact .bind (digitValue_local _ _) fun _ => .pure _
  · exact .throw _
  · exact .throw _

theorem call_local (p : Procedure) (args : List Item) : Local (call p args) := by
  intro front a
  have hdiscard : ∀ b : Assembly, args.forM discardItem (b.behind front) =
      resultBehind front (args.forM discardItem b) :=
    fun b => Local.forM (fun i => discardItem_local i) front b
  simp only [call, tryFinally, tryFinally', Functor.map, EStateM.map, perform_local p args front a]
  cases perform p args a with
  | ok v b =>
      simp only [resultBehind, hdiscard]
      cases args.forM discardItem b <;> rfl
  | error f b =>
      simp only [resultBehind, hdiscard]
      cases args.forM discardItem b <;> rfl

/-! ## Sections and frames -/

theorem programHead_local : Local programHead := .bind (write_local _) fun _ => write_local _

theorem dataHead_local : Local dataHead := .bind (write_local _) fun _ => write_local _

theorem enterProgram_local : Local enterProgram :=
  .bind (.modify fun _ _ => rfl) fun _ => write_local _

theorem frameBytes_local : Local frameBytes := by
  refine .get (fun _ _ => rfl) fun a => ?_
  split
  · exact .throw _
  · exact .pure _

theorem tearDownFrame_local (total : Nat) : Local (tearDownFrame total) := by
  unfold tearDownFrame
  split
  · exact .pure _
  · exact .bind (instr_local _) fun _ => instr_local _

theorem exit_local : Local exit :=
  .bind (instr_local _) fun _ => .bind (instr_local _) fun _ => instr_local _

theorem leaveProgram_local : Local leaveProgram := by
  refine .get (fun _ _ => rfl) fun a => ?_
  split
  · exact .throw _
  · exact .bind (.modify fun _ _ => rfl) fun _ => .bind (tearDownFrame_local _) fun _ => exit_local

theorem setUpFrame_local (total : Nat) : Local (setUpFrame total) := by
  unfold setUpFrame
  split
  · exact .pure _
  · exact .bind (instr_local _) fun _ => .bind (instr_local _) fun _ => instr_local _

theorem openFrame_local (total : Nat) : Local (openFrame total) := by
  unfold openFrame
  split
  · exact .throw _
  · exact .bind (.modify fun _ _ => rfl) fun _ => setUpFrame_local _

theorem unitWidth_local (t : Ty) : Local (unitWidth t) := by
  unfold unitWidth
  split
  · exact .pure _
  · exact .throw _

end Emit

end Tern
