import Tern.Proofs.Machine.Constants
import Tern.Proofs.Machine.Frame

/-!
# No operation clobbers what it does not own

An operation on operands that the compiler has checked runs to its end, a division apart, which
may stop the machine.  Registers in use that its operands do not hold are what they were, and so
is all memory but the bytes below the stack pointer and the target of an assignment.
-/

namespace Tern

/-- A single operation of the generator on operands that pass the compiler's checks.  It may
stop the machine only if `divides`, and `target` is the place in memory that it writes: its
address and how many bytes it has. -/
inductive Emit.Issued : (divides : Bool) → (target : Option (Address × Nat)) → List Item →
    Assembly → Assembly → Prop where
  | reference {i v a b} : i.isInMemory = true → reference i a = .ok v b →
      Issued false none [i] a b
  | negate {u v a b} : u.type.isBuiltin = true → negate (.value u) a = .ok v b →
      Issued false none [.value u] a b
  | balance {op lhs rhs v a b} : lhs.type.admitsWith op rhs.type = true →
      balance lhs rhs a = .ok v b → Issued false none [.value lhs, .value rhs] a b
  | operation {op lhs rhs v a b} : lhs.type.admitsWith op rhs.type = true →
      operation op lhs rhs a = .ok v b →
      Issued (op == .div || op == .mod) none [.value lhs, .value rhs] a b
  | convert {u t v a b} : (!t.isArray && !u.type.isArray) = true → convert u t a = .ok v b →
      Issued false none [.value u] a b
  | element {array index v e a b} : array.type.isIndexableBy index.type = true →
      array.type.element? = some e → e.size ≤ Ty.sizeLimit →
      element (.value array) (.value index) a = .ok v b →
      Issued false none [.value array, .value index] a b
  | assignment {t m hs source v a b} : t = source.type → t.isArray = false →
      assignment (.value (.mem t m hs)) (.value source) a = .ok v b →
      Issued false (some (m, t.size)) [.value (.mem t m hs), .value source] a b
  | call {p a b i} {args : List Value} : IsPredefined p → args.map Value.type = p.params →
      call p (args.map Item.value) a = .ok i b → Issued false none (args.map Item.value) a b

namespace Machine

open Assembly

variable {p : Platform} {a b : Assembly} {s : State} {w : Width} {v : Value} {used : List Register}

/-- How code from `a` to `b` may end: at its end, with what is not its own as it was, the bytes
of the target apart; or, if it divides, in a division that stops the machine. -/
def Ends (p : Platform) (divides : Bool) (target : Option (Address × Nat)) (used : List Register)
    (s : State) (a b : Assembly) : Prop :=
  ∃ code : List Instr, b.lines = a.lines ++ (code.map Line.instr).toArray ∧
    ((∃ t, exec p code s = .ok t ∧
        (∀ r ∈ a.busy, r ∉ used → t.regs r = s.regs r) ∧
        t.regs .rsp = s.regs .rsp ∧ t.regs .rbp = s.regs .rbp ∧
        ∀ x, Sheltered (s.regs .rsp) x →
          (∀ m n, target = some (m, n) → n ≤ (x - s.address p m).toNat) → t.mem x = s.mem x) ∨
      (divides = true ∧ ∃ t, exec p code s = .error ⟨.divideError, t⟩ ∧
        ∀ x, Sheltered (s.regs .rsp) x → t.mem x = s.mem x))

namespace Ends

variable {divides : Bool} {target : Option (Address × Nat)}

theorem ofSpares (hspares : Spares p (a.Kept used) a b)
    (hwrites : a.Writes (Instr.Within (fun _ => True) (divides = true)) b) :
    Ends p divides target used s a b := by
  obtain ⟨code, hlines, hcall, hcode⟩ := hspares
  obtain ⟨more, hlines', hwithin⟩ := hwrites
  obtain rfl := Runs.eq_code hlines hlines'
  refine ⟨code, hlines, ?_⟩
  rcases exec_formed (p := p) (s := s) (fun i hi => (hwithin i hi).formed) hcall with
    ⟨t, ht⟩ | ⟨⟨o, ho⟩, t, ht⟩
  · have hagrees := (hcode s).1 t ht
    exact .inl ⟨t, ht, fun r hbusy hused => hagrees.regs r (.inl ⟨hbusy, hused⟩),
      hagrees.regs _ kept_rsp, hagrees.regs _ kept_rbp, fun x hx _ => hagrees.mem x hx⟩
  · exact .inr ⟨(hwithin _ ho).division rfl, t, ht, ((hcode s).2 _ ht).mem⟩

theorem ofRuns {t : State} (hruns : Runs p a s b (.ok t))
    (hregs : ∀ r, a.Kept [] r → t.regs r = s.regs r)
    (hmem : ∀ x, Sheltered (s.regs .rsp) x →
      (∀ m n, target = some (m, n) → n ≤ (x - s.address p m).toNat) → t.mem x = s.mem x) :
    Ends p divides target used s a b := by
  obtain ⟨code, hlines, hexec⟩ := hruns
  exact ⟨code, hlines, .inl ⟨t, hexec, fun r hbusy _ => hregs r (.inl ⟨hbusy, List.not_mem_nil⟩),
    hregs _ kept_rsp, hregs _ kept_rbp, hmem⟩⟩

end Ends

theorem guards_kept : a.Guards (a.Kept used) := fun _ h => h.imp_left And.left

theorem call_ends {q : Procedure} {args : List Value} {i : Item}
    (h : Emit.call q (args.map Item.value) a = .ok i b) (hq : Emit.IsPredefined q)
    (hargs : args.map Value.type = q.params) :
    Ends p false none ((args.map Item.value).flatMap Item.held) s a b := by
  have hwithin : ∀ v ∈ args, v.Within fun _ => True := fun v _ => by cases v <;> trivial
  have hwrites := Emit.call_writes (D := false = true) h hq hargs hwithin trivial
  obtain ⟨c, hperform, rfl⟩ := Emit.call_ok h
  rcases Emit.perform_ok hperform with ⟨-, -, hnewline⟩ | ⟨arg, rest, t, v, -, -, -, -, hv⟩
  · obtain ⟨t, hruns, hregs, hmem, -⟩ := writeNewline_exec hnewline p s
    exact .ofRuns hruns hregs fun x hx _ => hmem x hx
  · exact .ofSpares (.ofWrites (Emit.digitValue_spares hv guards_kept).release) hwrites.1

theorem assignment_ends {ty : Ty} {m : Address} {hs : List Register} {x : Value}
    (h : Emit.assignment (.value (.mem ty m hs)) (.value v) a = .ok x b) (hown : a.Owns hs)
    (hclosed : (Value.mem ty m hs).Closed) (htype : ty = v.type) :
    Ends p false (some (m, ty.size)) used s a b := by
  obtain ⟨t, hruns, hregs, hmem, -⟩ := assignment_stores h hown hclosed htype.symm p s
  refine .ofRuns hruns hregs fun x _ htarget => ?_
  rw [hmem]
  exact store_apply_of_le (htarget m ty.size rfl)

/-- Executed in any state, the code of an operation leaves alone every register in use that its
operands do not hold, the stack pointer and the frame pointer, and all memory but the bytes right
below the stack pointer and the target of an assignment. -/
theorem operations_clobber_nothing (p : Platform) (s : State) {divides : Bool}
    {target : Option (Address × Nat)} {args : List Item} {a b : Assembly}
    (h : Emit.Issued divides target args a b) (hpool : a.Pooled)
    (hown : a.Owns (args.flatMap Item.held)) (hclosed : ∀ i ∈ args, i.Closed) :
    Ends p divides target (args.flatMap Item.held) s a b := by
  have hvalue (v : Value) : v.Within fun _ => True := by cases v <;> trivial
  have hitem (i : Item) : i.Within fun _ => True := by
    cases i with
    | value v => exact hvalue v
    | void => trivial
  have hheld : ∀ i ∈ args, ∀ r ∈ i.held, ¬ a.Kept (args.flatMap Item.held) r :=
    fun i hi r hr => hpool.not_kept hown (List.mem_flatMap.2 ⟨i, hi, hr⟩)
  have hguards : a.Guards (a.Kept (args.flatMap Item.held)) := guards_kept
  cases h with
  | reference hmem h =>
      exact .ofSpares (.ofWrites (Emit.reference_spares h hguards))
        (Emit.reference_writes h (hitem _))
  | negate hbuiltin h =>
      exact .ofSpares (.ofWrites (Emit.negate_spares h hguards)) (Emit.negate_writes h (hitem _))
  | @balance op lhs rhs v _ _ hadmits h =>
      obtain ⟨⟨w, hw⟩, ⟨w', hw'⟩⟩ := Emit.admitsWith_widths hadmits
      have hspares := Emit.balance_spares h hguards (hheld (.value lhs) (by simp))
        (hheld (.value rhs) (by simp))
      exact .ofSpares (.ofWrites hspares)
        (Emit.balance_writes h hw hw' (hvalue lhs) (hvalue rhs)).1
  | @operation op lhs rhs v _ _ hadmits h =>
      refine .ofSpares (Emit.operation_spares h hguards (hheld (.value lhs) (by simp))
        (hheld (.value rhs) (by simp)) kept_rsp) ?_
      exact Emit.operation_writes h (hvalue lhs) (hvalue rhs) fun hop => by simpa using hop
  | @convert u t v _ _ harray h =>
      rw [Bool.and_eq_true, Bool.not_eq_true', Bool.not_eq_true'] at harray
      obtain ⟨w, hw⟩ := Ty.exists_width harray.2
      exact .ofSpares (.ofWrites (Emit.convert_spares h hguards (hheld (.value u) (by simp))))
        (Emit.convert_writes h hw (hvalue u)).1
  | @element array index v e _ _ hindexable helement hsize h =>
      have hspares := Emit.element_spares h hguards (hheld (.value array) (by simp))
        (hheld (.value index) (by simp))
      refine .ofSpares (.ofWrites hspares) (Emit.element_writes (fun _ _ => trivial) h (hitem _)
        (hitem _) (fun r hr => hpool r (hown.busy r (by simpa using hr))) ?_).1
      intro x e' hx he'
      cases hx
      obtain rfl := Option.some.inj (helement.symm.trans he')
      exact Nat.lt_of_le_of_lt hsize (by decide)
  | @assignment t m hs source v _ _ htype harray h =>
      have hown' : a.Owns (hs ++ source.held) := by simpa [Item.held, Value.held] using hown
      exact assignment_ends h hown'.left (hclosed (.value (.mem t m hs)) (by simp)) htype
  | call hq hargs h => exact call_ends h hq hargs

/-- Four registers in use, among them the `rdx` that a division overwrites. -/
def crowdedAssembly : Assembly := { busy := [.rdx, .rcx, .r8, .r9] }

/-- The numbers 100 and 7 in the operands of a division, and others around them. -/
def crowdedState : State where
  regs := fun r =>
    match r with
    | .rcx => 0xcccc
    | .rdx => 0xdddd
    | .r8 => 100
    | .r9 => 7
    | .rsp => 0x1000
    | _ => 0
  mem := fun _ => 0
  output := []

theorem operations_clobber_nothing_quotient :
    ∃ v b, Emit.operation .div (.reg (.builtin .int) .r8) (.reg (.builtin .int) .r9)
        crowdedAssembly = .ok v b ∧
      Ends blankPlatform true none [.r8, .r9] crowdedState crowdedAssembly b := by
  refine ⟨_, _, rfl, ?_⟩
  have hpool : crowdedAssembly.Pooled := by
    unfold Assembly.Pooled
    decide
  exact operations_clobber_nothing blankPlatform crowdedState
    (@Emit.Issued.operation .div (.reg (.builtin .int) .r8) (.reg (.builtin .int) .r9) _ _ _
      rfl rfl) hpool ⟨by decide, by decide⟩ (by simp [Item.Closed, Value.Closed])

end Machine

end Tern
