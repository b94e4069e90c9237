import Tern.Proofs.Compile.Stages
import Tern.Proofs.Meaning.Declaration
import Tern.Proofs.Meaning.Statement

/-!
# Programs keep their meaning

The code of a program sets up the frame, runs the statements, takes the frame down and exits.
Executed from the entry label, it ends where the run of the program ends: with the same memory and
the same output, or with the same division by zero.  The memory differs only where the code saves
registers: right below the stack pointer, and above the frame, if there is one.
-/

namespace Tern

/-- An assignment stands inside an expression of the statement; the statement itself may be
one. -/
def Expr.nests : Expr → Bool
  | .assign target _ source => target.assigns || source.assigns
  | e => e.assigns

def Program.nests (p : Program) : Bool := p.body.statements.any Expr.nests

def Line.instr? : Line → Option Instr
  | .instr i => some i
  | _ => none

def entryCode (lines : Array Line) : List Instr :=
  (lines.toList.dropWhile (· ≠ .label entryLabel)).filterMap Line.instr?

theorem entryCode_eq {head : List Line} (code : List Instr)
    (hhead : ∀ l ∈ head, l ≠ .label entryLabel) :
    entryCode (head ++ .label entryLabel :: code.map Line.instr).toArray = code := by
  have hdrop : (head ++ .label entryLabel :: code.map Line.instr).dropWhile
      (· ≠ .label entryLabel) = .label entryLabel :: code.map Line.instr := by
    rw [List.dropWhile_append_of_pos (by simpa using hhead)]
    simp
  rw [entryCode, hdrop, List.filterMap_cons_none rfl, List.filterMap_map]
  exact List.filterMap_some

/-! ## The frame -/

namespace Machine

variable {p : Platform} {s : State} {rsp : Addr} {total : Nat}

/-- The stack pointer while the statements run, with `total` bytes of local variables. -/
def stackPointer (rsp : Addr) (total : Nat) : Addr :=
  if total = 0 then rsp else rsp - 8 - BitVec.ofNat 64 total

/-- The bytes that the code of a program uses for itself.  Registers are saved right below the
stack pointer, and the frame pointer above the frame, if there is one. -/
def ownByte (rsp : Addr) (total : Nat) (x : Addr) : Bool :=
  !decide (Sheltered (stackPointer rsp total) x) ||
    (decide (total ≠ 0) && decide ((x - (rsp - 8)).toNat < 8))

theorem ownByte_eq_false {x : Addr} :
    ownByte rsp total x = false ↔
      Sheltered (stackPointer rsp total) x ∧ (total ≠ 0 → 8 ≤ (x - (rsp - 8)).toNat) := by
  simp [ownByte]

theorem frameCode_exec (p : Platform) (s : State) (hpos : total ≠ 0)
    (hsize : total ≤ Ty.sizeLimit) :
    ∃ t, exec p (Compile.frameCode total) s = .ok t ∧
      t.regs .rsp = s.regs .rsp - 8 - BitVec.ofNat 64 total ∧ t.regs .rbp = s.regs .rsp - 8 ∧
      t.mem = store s.mem (s.regs .rsp - 8) 8 (s.regs .rbp).toNat ∧ t.output = s.output := by
  have hlt : total < 2 ^ 31 := Nat.lt_of_le_of_lt hsize (by decide)
  let s₁ := s.push .rbp
  let s₂ := s₁.set .rbp .qword (s₁.view .rsp .qword)
  have hsource : s₂.source p false .qword (.imm total) = some total := by
    have hencodable : encodable false .qword (total : Int) = true := by
      simp [encodable]
      omega
    rw [State.source, if_pos hencodable, wrap]
    simp [Width.bytes]
    omega
  have hview : s₁.view .rsp .qword = (s.regs .rsp - 8).toNat := by
    have hrsp : s₁.regs .rsp = s.regs .rsp - 8 := rsp_push
    rw [State.view, hrsp]
    exact Nat.mod_eq_of_lt (s.regs .rsp - 8).isLt
  refine ⟨s₂.set .rsp .qword (combined .sub .qword (s₂.view .rsp .qword) total), ?_, ?_, ?_, rfl,
    rfl⟩
  · have hpush : step p s (.push .rbp) = .ok s₁ := rfl
    have hmov : step p s₁ (.mov (.reg .rbp .qword) (.reg .rsp .qword)) = .ok s₂ := rfl
    rw [Compile.frameCode, if_neg hpos, exec_cons_ok hpush, exec_cons_ok hmov, exec_singleton,
      step_combine hsource]
  · apply BitVec.eq_of_toNat_eq
    have hview₂ : s₂.view .rsp .qword = (s.regs .rsp - 8).toNat :=
      (State.view_set_of_ne (by decide)).trans hview
    rw [State.toNat_regs_set (by decide), hview₂, combined]
    generalize s.regs .rsp - 8 = x
    simp only [Width.bytes, BitVec.toNat_sub, BitVec.toNat_ofNat]
    omega
  · rw [State.regs_set_of_ne (by decide)]
    change (s₁.set .rbp .qword (s₁.view .rsp .qword)).regs .rbp = _
    rw [hview]
    exact toNat_regs_set_qword s₁ .rbp _

theorem leaveCode_exec (p : Platform) (s : State) (total : Nat) :
    ∃ t, exec p (Compile.leaveCode total) s = .error ⟨.exited 0, t⟩ ∧ t.mem = s.mem ∧
      t.output = s.output := by
  have hexit : ∀ u : State, ∃ t, exec p [.mov (.reg .rax .qword) (.imm 60),
      .combine .xor (.reg .rdi .qword) (.reg .rdi .qword), .syscall] u =
        .error ⟨.exited 0, t⟩ ∧ t.mem = u.mem ∧ t.output = u.output := by
    intro u
    let u₁ := u.set .rax .qword 60
    let u₂ := u₁.set .rdi .qword (combined .xor .qword (u₁.view .rdi .qword) (u₁.view .rdi .qword))
    have hrdi : (u₂.regs .rdi).toNat = 0 := by
      rw [State.toNat_regs_set (by decide), combined, Nat.xor_self]
      rfl
    have hrax : (u₂.regs .rax).toNat = 60 := rfl
    refine ⟨u₂, ?_, rfl, rfl⟩
    have hmov : step p u (.mov (.reg .rax .qword) (.imm 60)) = .ok u₁ := rfl
    have hxor : step p u₁ (.combine .xor (.reg .rdi .qword) (.reg .rdi .qword)) = .ok u₂ := rfl
    rw [exec_cons_ok hmov, exec_cons_ok hxor, exec_singleton]
    simp only [step, State.systemCall, hrax, hrdi]
    rfl
  unfold Compile.leaveCode
  split
  · exact hexit s
  · let s₁ := s.set .rsp .qword (s.view .rbp .qword)
    have hmov : step p s (.mov (.reg .rsp .qword) (.reg .rbp .qword)) = .ok s₁ := rfl
    have hpop : step p s₁ (.pop .rbp) = .ok (s₁.pop .rbp) := rfl
    obtain ⟨t, hexec, hmem, houtput⟩ := hexit (s₁.pop .rbp)
    refine ⟨t, ?_, hmem, houtput⟩
    rw [List.cons_append, List.cons_append, exec_cons_ok hmov, exec_cons_ok hpop]
    exact hexec

end Machine

/-! ## Programs -/

namespace Meaning

open Machine Compile

variable {p : Platform} {s t u : State} {ctx : Context} {w : World} {tree : Program}
  {gvs lvs : List Variable} {data : List Line} {c d : Compilation} {lines : Array Line}
  {total : Nat}

/-- What a program finds when the machine is in the state `s`, with bytes barred. -/
def entryOf (p : Platform) (s : State) (barred : Nat → Addr → Bool) : Entry :=
  ⟨p.place, s.regs .rsp, barred⟩

/-- The run of a program from the memory and the output of the machine, with bytes barred. -/
def runBarring (p : Platform) (s : State) (barred : Nat → Addr → Bool) (tree : Program) :
    EStateM.Result Stop World Context :=
  program (entryOf p s barred) tree ⟨s.mem, s.output⟩

/-- The run that must not touch what the code uses for itself. -/
def runFrom (p : Platform) (s : State) (tree : Program) : EStateM.Result Stop World Context :=
  runBarring p s (ownByte (s.regs .rsp)) tree

/-- The pointers behind the code that sets up a frame. -/
def frameOf (s : State) (total : Nat) : Frame where
  sp := stackPointer (s.regs .rsp) total
  fp := if total = 0 then s.regs .rbp else s.regs .rsp - 8

theorem frameCode_follows (p : Platform) (s : State)
    (hbarred : ctx.barred = ownByte (s.regs .rsp) total) (hsize : total ≤ Ty.sizeLimit) :
    ∃ t, exec p (frameCode total) s = .ok t ∧
      Follows ctx (frameOf s total) t ⟨s.mem, s.output⟩ := by
  have hguards : ctx.Guards (frameOf s total).sp := by
    intro x hx
    rw [hbarred] at hx
    exact (ownByte_eq_false.1 hx).1
  by_cases hpos : total = 0
  · subst hpos
    exact ⟨s, rfl, ⟨fun _ _ => rfl, rfl⟩, hguards, rfl, rfl⟩
  · obtain ⟨t, hexec, hrsp, hrbp, hmem, houtput⟩ := frameCode_exec p s hpos hsize
    refine ⟨t, hexec, ⟨fun x hx => ?_, houtput⟩, hguards, ?_, ?_⟩
    · rw [hbarred] at hx
      rw [hmem]
      exact store_apply_of_le ((ownByte_eq_false.1 hx).2 hpos)
    · rw [hrsp, frameOf, stackPointer, if_neg hpos]
    · rw [hrbp, frameOf, if_neg hpos]

theorem entryCode_stages {code : List Instr} (h : Stages tree gvs lvs data c d lines)
    (hcode : d.assembly.lines = c.assembly.lines ++ (code.map Line.instr).toArray) :
    entryCode lines =
      frameCode (totalSize lvs) ++ (code ++ leaveCode (totalSize lvs)) := by
  have hlines : lines = (data ++ .label entryLabel :: (frameCode (totalSize lvs) ++
      (code ++ leaveCode (totalSize lvs))).map Line.instr).toArray := by
    rw [h.left, hcode, h.entered]
    simp
  rw [hlines, entryCode_eq _ h.noEntry]

theorem exec_statements {result : Except Halt State} (h : Stages tree gvs lvs data c d lines)
    (hframe : exec p (frameCode (totalSize lvs)) s = .ok t)
    (hruns : Runs p c.assembly t d.assembly result) :
    exec p (entryCode lines) s = result >>= exec p (leaveCode (totalSize lvs)) := by
  obtain ⟨code, hcode, hexec⟩ := hruns
  rw [entryCode_stages h hcode, exec_append_ok hframe, exec_append, hexec]

/-! ## Declarations of a program -/

/-- What statements find, when `gvs` and `lvs` are declared. -/
def declaredContext (p : Platform) (s : State) (gvs lvs : List Variable) : Context :=
  let e := entryOf p s (ownByte (s.regs .rsp))
  { names := bound e.localAddress 0 lvs (bound e.globalAddress 0 gvs e.context.names)
    newline := p.place Emit.newlineLabel
    barred := ownByte (s.regs .rsp) (totalSize lvs) }

theorem decls_proper {l : Option DeclList} (h : ∀ l' ∈ l, l'.Proper) :
    ∀ decl ∈ l.elim [] DeclList.decls, decl.Proper := by
  cases l with
  | none => simp
  | some l => exact (h l rfl).2

/-- The run declares the variables of the compilation, and links them to the same places. -/
theorem program_apply (h : Stages tree gvs lvs data c d lines) (ht : tree.Proper) (p : Platform)
    (s : State) :
    runFrom p s tree =
        (do
          statements (declaredContext p s gvs lvs) tree.body.statements
          return declaredContext p s gvs lvs : Run Context) ⟨s.mem, s.output⟩ ∧
      Linked p.place (frameOf s (totalSize lvs)).fp (declaredContext p s gvs lvs) c.scopes := by
  obtain ⟨hglobals, -, hlocals, -, -⟩ := ht
  let e := entryOf p s (ownByte (s.regs .rsp))
  have hbuiltin : Linked e.place (frameOf s (totalSize lvs)).fp e.context .builtin :=
    linked_builtin e
  obtain ⟨hgsized, hgdeclare⟩ := declare_apply h.globals (decls_proper hglobals)
    Scopes.builtin_sound hbuiltin 0 ⟨s.mem, s.output⟩
  have hg := (hbuiltin.globals hgsized 0).push
  obtain ⟨hlsized, hldeclare⟩ := declare_apply h.locals (decls_proper hlocals) h.globals_sound hg
    0 ⟨s.mem, s.output⟩
  refine ⟨?_, ?_⟩
  · rw [runFrom, runBarring, program, bind_of_ok hgdeclare]
    simp only
    rw [bind_of_ok hldeclare]
    simp only [Nat.zero_add]
    rfl
  · rw [h.scopes]
    cases lvs with
    | nil =>
        have hnil : Linked p.place (frameOf s (totalSize [])).fp (declaredContext p s gvs [])
          (Scopes.builtin.mapInnermost (·.adding (gvs.map atLabel))).push := hg.congr rfl
        simpa [inFrame] using hnil
    | cons v vs =>
        have hpos : totalSize (v :: vs) ≠ 0 := by
          have hv := (hlsized v List.mem_cons_self).size_pos
          simp only [totalSize, List.map_cons, List.sum_cons]
          omega
        have hfp : (frameOf s (totalSize (v :: vs))).fp = e.frame := if_neg hpos
        rw [hfp] at hg ⊢
        exact (hg.locals hlsized 0).congr rfl

theorem var_mem_declaredContext {name : String} {ty : Ty} {a : Addr}
    (h : (name, Sense.var ty a) ∈ (declaredContext p s gvs lvs).names) :
    (∃ label, a = p.place label) ∨
      ∃ before, a = s.regs .rsp - 8 - BitVec.ofNat 64 (before + ty.size) ∧
        before + ty.size ≤ totalSize lvs := by
  rcases mem_bound h with hmem | ⟨v, before, heq, hle⟩
  · rcases mem_bound hmem with hmem | ⟨v, _, heq, -⟩
    · simp [entryOf, Entry.context] at hmem
    · cases heq
      exact .inl ⟨_, rfl⟩
  · cases heq
    rw [Nat.zero_add] at hle
    exact .inr ⟨before, rfl, hle⟩

theorem ownByte_frame {rsp : Addr} {before size i : Nat} (hle : before + size ≤ total)
    (hsize : total ≤ Ty.sizeLimit) (hi : i < size) :
    ownByte rsp total (rsp - 8 - BitVec.ofNat 64 (before + size) + BitVec.ofNat 64 i) = false := by
  have hlt : total < 2 ^ 31 := Nat.lt_of_le_of_lt hsize (by decide)
  have hpos : total ≠ 0 := by omega
  obtain ⟨gap, rfl⟩ := Nat.exists_eq_add_of_le hle
  rw [ownByte_eq_false, stackPointer, if_neg hpos]
  generalize rsp - 8 = top
  constructor
  · have hoffset : top - BitVec.ofNat 64 (before + size) + BitVec.ofNat 64 i -
        (top - BitVec.ofNat 64 (before + size + gap)) = BitVec.ofNat 64 (gap + i) := by
      rw [BitVec.ofNat_add (before + size) gap, BitVec.ofNat_add gap i]
      grind
    rw [Sheltered, hoffset, BitVec.toNat_ofNat, stackRoom]
    omega
  · intro _
    obtain ⟨rest, hrest⟩ := Nat.exists_eq_add_of_lt hi
    have hoffset : top - BitVec.ofNat 64 (before + size) + BitVec.ofNat 64 i - top =
        -BitVec.ofNat 64 (before + rest + 1) := by
      rw [show before + size = before + rest + 1 + i by omega,
        BitVec.ofNat_add (before + rest + 1) i]
      grind
    rw [hoffset, BitVec.toNat_neg, BitVec.toNat_ofNat]
    omega

theorem program_ends {x : Unit} (h : Compile.program tree { scopes := .builtin } = .ok x d)
    (ht : tree.Proper) (p : Platform) (s : State) :
    Ends (runFrom p s tree)
      (fun ctx w =>
        (∃ t, exec p (entryCode d.assembly.lines) s = .error ⟨.exited 0, t⟩ ∧ Mirrors ctx t w) ∧
        ∀ name ty a, (name, Sense.var ty a) ∈ ctx.names →
          (∃ label, a = p.place label) ∨ ctx.Clear a ty.size)
      fun w => ∃ t, exec p (entryCode d.assembly.lines) s = .error ⟨.divideError, t⟩ ∧
        t.output = w.output := by
  obtain ⟨gvs, lvs, data, c, c', hstages⟩ := program_ok h
  obtain ⟨hprogram, hlinked⟩ := program_apply hstages ht p s
  have hbarred : (declaredContext p s gvs lvs).barred =
      ownByte (s.regs .rsp) (totalSize lvs) := rfl
  obtain ⟨t, hframe, hfollows⟩ := frameCode_follows p s hbarred hstages.size
  have hready : Ready p (declaredContext p s gvs lvs) (frameOf s (totalSize lvs)) c := by
    refine ⟨hstages.sound, hlinked, fun r hr => ?_⟩
    rw [hstages.free] at hr
    cases hr
  have htracks := statements_track hstages.body ht.2.2.2.1.1 hready rfl hfollows
  rw [hprogram]
  refine Ends.bind htracks ?_ ?_
  · rintro w' ⟨u, hruns, hmirrors⟩
    exact ⟨u, exec_statements hstages hframe hruns, hmirrors.output⟩
  · rintro _ w' ⟨u, hruns, hfollows'⟩
    obtain ⟨v, hleave, hmem, houtput⟩ := leaveCode_exec p u (totalSize lvs)
    refine ⟨⟨v, (exec_statements hstages hframe hruns).trans hleave, ?_, ?_⟩, ?_⟩
    · intro y hy
      rw [hmem]
      exact hfollows'.mem y hy
    · rw [houtput, hfollows'.output]
    · intro name ty a hmem
      rcases var_mem_declaredContext hmem with hlabel | ⟨before, rfl, hle⟩
      · exact .inl hlabel
      · exact .inr fun i hi => ownByte_frame hle hstages.size hi

/-- A program means the same before and after it is compiled, unless its run touches bytes that
the code uses for itself.  Either the run ends and the code exits with the same output and the
same contents of every variable, or both divide by zero after the same output.  Only a variable
at a label may differ in the end, if bytes that the code uses for itself were placed there.

An operand in memory is loaded when it is operated on, by the run as well as by the code; so this
is true of programs with assignments inside expressions too. -/
theorem semantic_preservation (text : List Char) (lines : Array Line) (tree : Program)
    (hlines : compileLines text = .ok lines) (htree : Program.ofText? text = .ok tree)
    (p : Platform) (s : State) (hstray : ∀ w, runFrom p s tree ≠ .error .stray w) :
    ((∃ ctx w t, runFrom p s tree = .ok ctx w ∧
        exec p (entryCode lines) s = .error ⟨.exited 0, t⟩ ∧ t.output = w.output ∧
        (∀ x, ctx.barred x = false → t.mem x = w.mem x) ∧
        ∀ name ty a, (name, Sense.var ty a) ∈ ctx.names →
          ((∃ label, a = p.place label) → ctx.Clear a ty.size) →
          load t.mem a ty.size = load w.mem a ty.size) ∨
      ∃ w t, runFrom p s tree = .error .divisionByZero w ∧
        exec p (entryCode lines) s = .error ⟨.divideError, t⟩ ∧ t.output = w.output) ∧
    ((∃ t, exec p (entryCode lines) s = .error ⟨.divideError, t⟩) ↔
      ∃ w, runFrom p s tree = .error .divisionByZero w) := by
  have hproper := Program.ofText?_proper text
  rw [htree] at hproper
  obtain ⟨d, hd, rfl⟩ := compileLines_ok hlines htree
  have hends := program_ends hd hproper p s
  cases hrun : runFrom p s tree with
  | ok ctx w =>
      rw [hrun] at hends
      obtain ⟨⟨t, hexec, hmirrors⟩, hvars⟩ := hends
      refine ⟨.inl ⟨ctx, w, t, rfl, hexec, hmirrors.output, hmirrors.mem, ?_⟩, ?_⟩
      · intro name ty a hmem hlabel
        have hclear : ctx.Clear a ty.size := (hvars name ty a hmem).elim hlabel id
        exact load_congr fun i hi => hmirrors.mem _ (hclear i hi)
      · simp [hexec]
  | error stop w =>
      rw [hrun] at hends
      cases stop with
      | divisionByZero =>
          obtain ⟨t, hexec, houtput⟩ := hends
          exact ⟨.inr ⟨w, t, rfl, hexec, houtput⟩, fun _ => ⟨w, rfl⟩, fun _ => ⟨t, hexec⟩⟩
      | stray => exact absurd hrun (hstray w)
      | stuck => exact hends.elim

/-- A division of a global variable by a local one, and a line. -/
def divisionText : List Char :=
  "var x: Int begin var i: Byte i := 3 as Byte x := x / i write_eln end".toList

/-- The byte that ends a line is at `0x2000`, every variable at `0x2004`. -/
def divisionPlatform : Platform where
  place := fun label => if label = Emit.newlineLabel then 0x2000 else 0x2004
  leftover := fun _ _ => 0

/-- The variable at `0x2004` is 100. -/
def divisionState : State where
  regs := fun r => if r = .rsp then 0x8000 else 0
  mem := fun x => if x = 0x2000 then 10 else if x = 0x2004 then 100 else 0
  output := []

/-- The run of the program ends with a line written and 33 in the second variable. -/
def divides (tree : Program) : Bool :=
  match runFrom divisionPlatform divisionState tree with
  | .error .. => false
  | .ok ctx w => decide (ctx.Clear 0x2004 4) && decide (w.output = [⟨1, [10]⟩]) &&
      decide (load w.mem 0x2004 4 = 33)

theorem semantic_preservation_division :
    ∃ lines tree t, compileLines divisionText = .ok lines ∧
      Program.ofText? divisionText = .ok tree ∧
      exec divisionPlatform (entryCode lines) divisionState = .error ⟨.exited 0, t⟩ ∧
      t.output = [⟨1, [10]⟩] ∧ load t.mem 0x2004 4 = 33 := by
  have hcompiles : (compileLines divisionText).toOption.isSome = true := by decide +kernel
  have hruns : (Program.ofText? divisionText).toOption.any divides = true := by decide +kernel
  cases hlines : compileLines divisionText with
  | error f => simp [hlines, Except.toOption] at hcompiles
  | ok lines =>
  cases htree : Program.ofText? divisionText with
  | error e => simp [htree, Except.toOption] at hruns
  | ok tree =>
  simp only [htree, Except.toOption, Option.any_some, divides] at hruns
  cases hrun : runFrom divisionPlatform divisionState tree with
  | error stop w => simp [hrun] at hruns
  | ok ctx w =>
  simp only [hrun, Bool.and_eq_true, decide_eq_true_eq] at hruns
  obtain ⟨⟨hclear, houtput⟩, hload⟩ := hruns
  obtain ⟨⟨_, _, t, heq, hexec, hsame, hmem, -⟩ | ⟨_, _, heq, -⟩, -⟩ :=
    semantic_preservation divisionText lines tree hlines htree divisionPlatform divisionState
      (by simp [hrun])
  · rw [hrun] at heq
    cases heq
    refine ⟨lines, tree, t, rfl, rfl, hexec, hsame.trans houtput, ?_⟩
    exact (load_congr fun i hi => hmem _ (hclear i hi)).trans hload
  · rw [hrun] at heq
    cases heq

/-! ## Variables in the way of the code -/

def belowStack (rsp : Addr) (total : Nat) (x : Addr) : Bool :=
  decide (x.toNat < (stackPointer rsp total).toNat)

/-- The label of `y` is right below where the stack starts, all others are above it. -/
def overlapPlatform : Platform where
  place := fun label =>
    if label = "tern$global$y" then 0x7ff8
    else if label = Emit.newlineLabel then 0x9000 else 0x9010
  leftover := fun _ _ => 0

def overlapState : State where
  regs := fun r => if r = .rsp then 0x8000 else 0x1234
  mem := fun _ => 0x55
  output := []

/-- What a variable holds in the end, by the run and by the code of a program without nested
assignments.  The run is over if it touches a byte below the stack pointer. -/
def contents? (text name : String) : Option (Nat × Nat) :=
  match compileLines text.toList, Program.ofText? text.toList with
  | .ok lines, .ok tree =>
      match runBarring overlapPlatform overlapState (belowStack (overlapState.regs .rsp)) tree,
        exec overlapPlatform (entryCode lines) overlapState with
      | .ok ctx w, .error ⟨.exited 0, t⟩ =>
          match ctx.names.lookup name with
          | some (.var ty a) =>
              if tree.nests then none else some (load w.mem a ty.size, load t.mem a ty.size)
          | _ => none
      | _, _ => none
  | _, _ => none

/-- That a run keeps off the bytes below the stack pointer is not enough.  A variable that the
program does not mention loses its contents where `rdx` is saved during a multiplication, and so
does one where the frame pointer is saved; and what is read from there is the frame pointer. -/
theorem variable_below_stack_overwritten :
    contents? "var x: Int, y: Long
      begin x := (x+1) + ((x+1) + ((x+1) + ((x+1) + ((x+1) + x*x)))) end" "y" =
        some (0x5555555555555555, 0x55555556) ∧
      contents? "var y: Long begin var i: Byte end" "y" = some (0x5555555555555555, 0x1234) ∧
      contents? "var x: Long, y: Long begin var i: Byte x := y end" "x" =
        some (0x5555555555555555, 0x1234) := by
  decide +kernel

end Meaning

end Tern
