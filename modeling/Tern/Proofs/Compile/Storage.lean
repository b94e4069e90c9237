import Tern.Proofs.Compile.Encoding

/-!
# The layout of storage

Globals have distinct labels: exported ones are words that are not reserved, all others have a
dollar sign in them.  A data definition reserves the bytes of its type, and locals share out the
frame without gaps.  The code of the statements refers to labels that are defined and leaves the
frame alone.
-/

namespace Tern

def Line.defines? : Line → Option String
  | .data name .. | .label name => some name
  | _ => none

/-- The label of a data definition, with the number of bytes that it reserves. -/
def Line.reserves? : Line → Option (String × Nat)
  | .data name count unit _ => some (name, count.getD 1 * unit.bytes)
  | _ => none

def Operand.label? : Operand → Option String
  | .label name | .mem _ ⟨.label name, _, _⟩ => some name
  | _ => none

/-- The byte at `x`, counted from the frame pointer, belongs to the variable: it is one of those
from the address on that the code has for the variable. -/
def Variable.Occupies (v : Variable) (x : Int) : Prop :=
  ∃ k, Emit.variableValue v {} = .ok (.mem v.type ⟨.reg .rbp, 1, .disp k⟩ []) {} ∧
    k ≤ x ∧ x < k + v.type.size

/-- The instructions that set up a frame of `total` bytes and take it down. -/
def frameInstrs (total : Nat) : List Instr :=
  [.push .rbp, .mov (.reg .rbp .qword) (.reg .rsp .qword),
    .combine .sub (.reg .rsp .qword) (.imm total),
    .mov (.reg .rsp .qword) (.reg .rbp .qword), .pop .rbp]

/-- What the lines of a program have to do with the storage of its variables. -/
structure StorageSound (lines : List Line) (globals locals : List Variable) : Prop where
  /-- There is one label for each global, besides the two of every program. -/
  defined : lines.filterMap Line.defines? =
    Emit.newlineLabel :: (globals.map Emit.globalLabel ++ [entryLabel])
  distinct : (lines.filterMap Line.defines?).Nodup
  usable : ∀ label, .exported label ∈ lines → unusableLabel label = false
  referred : ∀ i o label, .instr i ∈ lines → o ∈ i.operands → o.label? = some label →
    label ∈ lines.filterMap Line.defines?
  atLabels : ∀ v ∈ globals, v.storage = some (.global (Emit.globalLabel v) v.type.size)
  reserved : lines.filterMap Line.reserves? =
    (Emit.newlineLabel, 1) :: globals.map fun v => (Emit.globalLabel v, v.type.size)
  inFrame : ∀ v ∈ locals, ∃ offset, v.storage = some (.frame offset v.type.size)
  disjoint : locals.Pairwise fun u v => ∀ x, ¬ (u.Occupies x ∧ v.Occupies x)
  filled : ∀ x, (∃ v ∈ locals, v.Occupies x) ↔ -(Compile.totalSize locals : Int) ≤ x ∧ x < 0
  bounded : Compile.totalSize locals ≤ 2147483647
  /-- The frame is set up first and taken down last; in between nothing changes it. -/
  framed : ∃ (head : List Line) (body : List Instr),
    lines = head ++ .label entryLabel :: (Compile.frameCode (Compile.totalSize locals) ++ body ++
      Compile.leaveCode (Compile.totalSize locals)).map Line.instr ∧ ∀ i ∈ body, i.KeepsFrame
  once : ∀ i ∈ frameInstrs (Compile.totalSize locals),
    lines.count (.instr i) = if Compile.totalSize locals = 0 then 0 else 1

/-! ## Labels -/

theorem IsWord.dollar_notMem {name : String} (h : IsWord name) : '$' ∉ name.toList :=
  fun hmem => absurd (h.parts _ hmem) (by decide)

namespace Emit

variable {u v : Variable}

theorem globalLabel_exported (h : v.exported = true) : globalLabel v = v.name := if_pos h

theorem globalLabel_hidden (h : v.exported = false) :
    (globalLabel v).toList = globalLabelStart.toList ++ v.name.toList := by
  rw [globalLabel, h, if_neg Bool.false_ne_true, String.toList_append]

theorem dollar_mem_globalLabel (h : v.exported = false) : '$' ∈ (globalLabel v).toList := by
  rw [globalLabel_hidden h]
  exact List.mem_append_left _ (by decide)

theorem globalLabel_injective (hu : IsWord u.name) (hv : IsWord v.name)
    (h : globalLabel u = globalLabel v) : u.name = v.name := by
  cases hexp : u.exported with
  | true =>
      have hword : '$' ∉ (globalLabel v).toList := by
        rw [← h, globalLabel_exported hexp]
        exact hu.dollar_notMem
      cases hexp' : v.exported with
      | true => rwa [globalLabel_exported hexp, globalLabel_exported hexp'] at h
      | false => exact (hword (dollar_mem_globalLabel hexp')).elim
  | false =>
      have hword : '$' ∈ (globalLabel v).toList := h ▸ dollar_mem_globalLabel hexp
      cases hexp' : v.exported with
      | true =>
          rw [globalLabel_exported hexp'] at hword
          exact (hv.dollar_notMem hword).elim
      | false =>
          have hlists := congrArg String.toList h
          rw [globalLabel_hidden hexp, globalLabel_hidden hexp'] at hlists
          exact String.toList_inj.1 (List.append_cancel_left hlists)

theorem newlineLabel_ne_globalLabel (hv : IsWord v.name) : newlineLabel ≠ globalLabel v := by
  intro h
  cases hexp : v.exported with
  | true =>
      rw [globalLabel_exported hexp] at h
      exact hv.dollar_notMem (h ▸ by decide)
  | false =>
      have hlists := congrArg (List.take 6 ∘ String.toList) h
      rw [Function.comp_apply, Function.comp_apply, globalLabel_hidden hexp,
        List.take_append_of_le_length (by decide)] at hlists
      exact absurd hlists (by decide)

theorem globalLabel_ne_entryLabel (hv : v.exported = true → unusableLabel v.name = false) :
    globalLabel v ≠ entryLabel := by
  intro h
  cases hexp : v.exported with
  | true =>
      rw [globalLabel_exported hexp] at h
      exact absurd (hv hexp) (h ▸ by decide)
  | false => exact absurd (dollar_mem_globalLabel hexp) (h ▸ by decide)

end Emit

namespace Compile

variable {tree : Program} {gvs lvs vs : List Variable} {data : List Line} {c d : Compilation}
  {lines : Array Line} {total : Nat}

theorem Declares.words {s : Scopes} {ds : List Decl} (h : Declares s ds vs)
    (hds : ∀ d ∈ ds, d.Proper) : ∀ v ∈ vs, IsWord v.name := by
  induction h with
  | nil => simp
  | @cons _ _ d ds id t vs hid _ _ _ ih =>
      obtain ⟨hd, hrest⟩ := List.forall_mem_cons.1 hds
      exact List.forall_mem_cons.2 ⟨hd.1.2 id hid, ih hrest⟩

def labels (vs : List Variable) : List String :=
  Emit.newlineLabel :: (vs.map Emit.globalLabel ++ [entryLabel])

theorem labels_nodup {s : Scope} (hwords : ∀ v ∈ vs, IsWord v.name) (hvs : Declared s vs) :
    (labels vs).Nodup := by
  have hglobals : (vs.map Emit.globalLabel).Nodup := by
    refine List.Nodup.map_on (fun u hu v hv huv => ?_) (List.Nodup.of_map _ hvs.nodup)
    have hname := Emit.globalLabel_injective (hwords u hu) (hwords v hv) huv
    exact List.inj_on_of_nodup_map hvs.nodup hu hv hname
  rw [labels, List.nodup_cons, List.nodup_append]
  refine ⟨fun hmem => ?_, hglobals, List.nodup_singleton _, ?_⟩
  · rcases List.mem_append.1 hmem with hmem | hmem
    · obtain ⟨v, hv, hlabel⟩ := List.mem_map.1 hmem
      exact Emit.newlineLabel_ne_globalLabel (hwords v hv) hlabel.symm
    · exact absurd (List.mem_singleton.1 hmem) (by decide)
  · rintro _ hlabel _ hentry rfl
    obtain ⟨v, hv, hlabel⟩ := List.mem_map.1 hlabel
    exact Emit.globalLabel_ne_entryLabel (hvs.usable v hv)
      (hlabel.trans (List.mem_singleton.1 hentry))

/-! ## Data -/

theorem unit_size_dvd (t : Ty) : t.unit.size ∣ t.size := by
  induction t with
  | builtin b => exact Nat.dvd_refl _
  | pointer base => exact Nat.dvd_refl _
  | array base n ih => exact Nat.dvd_mul_left_of_dvd ih n

theorem dataLine_reserves (v : Variable) :
    (dataLine v).reserves? = some (Emit.globalLabel v, v.type.size) := by
  rw [dataLine, Line.reserves?, unitWidth_bytes]
  cases ht : v.type with
  | builtin b => exact congrArg (fun n => some (_, n)) (Nat.one_mul _)
  | pointer base => exact congrArg (fun n => some (_, n)) (Nat.one_mul _)
  | array base n =>
      exact congrArg (fun n => some (_, n)) (Nat.div_mul_cancel (unit_size_dvd (.array base n)))

/-- What can be said of the lines of a program, if neither the export of a label nor an
instruction counts. -/
theorem filterMap_lines {α : Type} (f : Line → Option α) (vs : List Variable) (code : List Instr)
    (hexported : ∀ name, f (.exported name) = none) (hinstr : ∀ i, f (.instr i) = none) :
    (dataLines vs ++ .label entryLabel :: code.map Line.instr).filterMap f =
      headLines.filterMap f ++ (vs.filterMap (fun v => f (dataLine v)) ++
        [.textStart, .label entryLabel].filterMap f) := by
  have hnone : (exportLines vs).filterMap f = [] := by
    simp [exportLines, List.filterMap_map, hexported]
  have hcode : (code.map Line.instr).filterMap f = [] := by
    simp [List.filterMap_map, hinstr]
  simp [dataLines, globalLines, hnone, hcode, List.filterMap_cons, List.filterMap_map]

theorem filterMap_defines (vs : List Variable) (code : List Instr) :
    (dataLines vs ++ .label entryLabel :: code.map Line.instr).filterMap Line.defines? =
      labels vs := by
  have hdata : vs.filterMap (fun v => (dataLine v).defines?) = vs.map Emit.globalLabel :=
    congrFun List.filterMap_eq_map vs
  rw [filterMap_lines _ _ _ (fun _ => rfl) (fun _ => rfl), hdata]
  rfl

theorem filterMap_reserves (vs : List Variable) (code : List Instr) :
    (dataLines vs ++ .label entryLabel :: code.map Line.instr).filterMap Line.reserves? =
      (Emit.newlineLabel, 1) :: vs.map fun v => (Emit.globalLabel v, v.type.size) := by
  have hdata : vs.filterMap (fun v => (dataLine v).reserves?) =
      vs.map fun v => (Emit.globalLabel v, v.type.size) := by
    rw [funext dataLine_reserves]
    exact congrFun List.filterMap_eq_map vs
  rw [filterMap_lines _ _ _ (fun _ => rfl) (fun _ => rfl), hdata]
  exact congrArg _ (List.append_nil _)

/-! ## The frame -/

theorem totalSize_inFrame (total : Nat) (vs : List Variable) :
    totalSize (inFrame total vs) = totalSize vs := by
  induction vs generalizing total with
  | nil => rfl
  | cons v vs ih =>
      have hrest := ih (total + v.type.size)
      simp only [totalSize, inFrame, List.map_cons, List.sum_cons] at hrest ⊢
      rw [hrest]

theorem inFrame_storage : ∀ v ∈ inFrame total vs, ∃ offset,
    v.storage = some (.frame offset v.type.size) := by
  induction vs generalizing total with
  | nil => simp [inFrame]
  | cons v vs ih => exact List.forall_mem_cons.2 ⟨⟨_, rfl⟩, ih⟩

theorem occupies_frame (v : Variable) (offset : Int) (size : Nat) (x : Int) :
    Variable.Occupies { v with storage := some (.frame offset size) } x ↔
      -offset ≤ x ∧ x < -offset + v.type.size := by
  constructor
  · rintro ⟨k, hk, hx⟩
    cases hk
    exact hx
  · exact fun hx => ⟨-offset, rfl, hx⟩

/-- Together, locals occupy the bytes from below the last one to the first one's upper end. -/
theorem inFrame_occupies (x : Int) : (∃ v ∈ inFrame total vs, v.Occupies x) ↔
    -((total + totalSize vs : Nat) : Int) ≤ x ∧ x < -(total : Int) := by
  induction vs generalizing total with
  | nil => simp [inFrame, totalSize]
  | cons v vs ih =>
      have hsize : totalSize (v :: vs) = v.type.size + totalSize vs := rfl
      rw [inFrame, List.exists_mem_cons_iff, ih, occupies_frame, hsize]
      omega

theorem inFrame_disjoint :
    (inFrame total vs).Pairwise fun u v => ∀ x, ¬ (u.Occupies x ∧ v.Occupies x) := by
  induction vs generalizing total with
  | nil => exact .nil
  | cons v vs ih =>
      refine List.pairwise_cons.2 ⟨fun u hu x hx => ?_, ih⟩
      have hbelow := (inFrame_occupies x).1 ⟨u, hu, hx.2⟩
      have hfirst := (occupies_frame v _ _ x).1 hx.1
      omega

/-! ## Code -/

theorem labels_of_within {L : String → Prop} {o : Operand} {name : String}
    (h : o.Within (Address.Reaches L)) (hname : o.label? = some name) : L name := by
  unfold Operand.label? at hname
  split at hname
  · cases hname
    exact h.labelled _ rfl
  · cases hname
    exact h.labelled _ rfl
  · cases hname

theorem Entered.scopes_eq (h : Entered tree gvs lvs data c) : c.scopes =
    { inner := [Scope.adding [] (inFrame 0 lvs)]
      globals := Scopes.builtin.globals.adding (gvs.map atLabel) } := h.scopes

theorem var_mem_adding {s : Scope} {v : Variable} :
    .var v ∈ s.adding vs ↔ v ∈ vs ∨ .var v ∈ s := by
  simp [Scope.adding]

theorem Entered.mem_scopes (h : Entered tree gvs lvs data c) {scope : Scope} {v : Variable}
    (hscope : scope ∈ c.scopes.inner ++ [c.scopes.globals]) (hv : .var v ∈ scope) :
    v ∈ inFrame 0 lvs ∨ v ∈ gvs.map atLabel := by
  have hpredefined : .var v ∉ Scopes.builtin.globals := by
    simp [Scopes.builtin, Scopes.ofGlobals, predefined]
  rw [h.scopes_eq] at hscope
  rcases List.mem_cons.1 hscope with rfl | hscope
  · exact .inl ((var_mem_adding.1 hv).resolve_right List.not_mem_nil)
  · cases List.mem_singleton.1 hscope
    exact .inr ((var_mem_adding.1 hv).resolve_right hpredefined)

theorem Stages.admits (h : Stages tree gvs lvs data c d lines) :
    c.scopes.Admits (· ∈ labels gvs) where
  sound := h.sound
  bounded := h.bounded
  newline := List.mem_cons_self
  labels name v label n hv hstorage := by
    obtain ⟨scope, hscope, hmem⟩ := Scopes.lookup_mem hv
    rcases h.mem_scopes hscope hmem with hv | hv
    · obtain ⟨offset, hframe⟩ := inFrame_storage v hv
      cases hframe.symm.trans hstorage
    · obtain ⟨u, hu, rfl⟩ := List.mem_map.1 hv
      cases hstorage
      exact List.mem_cons_of_mem _ (List.mem_append_left _ (List.mem_map_of_mem hu))

theorem frameInstrs_not_keepsFrame : ∀ i ∈ frameInstrs total, ¬ i.KeepsFrame := by
  have hmove (r : Register) (o : Operand) (hr : r.OfFrame) :
      ¬ (Instr.mov (.reg r .qword) o).KeepsFrame :=
    fun h => h.written r (List.mem_singleton_self r) hr
  simp only [frameInstrs, List.forall_mem_cons]
  exact ⟨fun h => h.saved .rbp (.inl rfl) (.inr rfl), hmove _ _ (.inr rfl),
    fun h => h.written .rsp (List.mem_singleton_self _) (.inl rfl), hmove _ _ (.inl rfl),
    fun h => h.saved .rbp (.inr rfl) (.inr rfl), List.forall_mem_nil _⟩

theorem count_frameInstrs {body : List Instr} (hbody : ∀ i ∈ body, i.KeepsFrame) :
    ∀ i ∈ frameInstrs total,
      (frameCode total ++ body ++ leaveCode total).count i = if total = 0 then 0 else 1 := by
  intro i hi
  have hnone : body.count i = 0 :=
    List.count_eq_zero.2 fun hmem => frameInstrs_not_keepsFrame i hi (hbody i hmem)
  have hfixed : (frameCode total).count i + (leaveCode total).count i =
      if total = 0 then 0 else 1 := by
    simp only [frameInstrs, List.mem_cons, List.not_mem_nil, or_false] at hi
    unfold frameCode leaveCode
    split <;> rcases hi with rfl | rfl | rfl | rfl | rfl <;> simp
  rw [List.count_append, List.count_append, hnone, Nat.add_zero, hfixed]

theorem instr_notMem_dataLines (vs : List Variable) (i : Instr) : .instr i ∉ dataLines vs := by
  simp [dataLines, headLines, globalLines, exportLines, dataLine, Line.blank]

theorem instr_mem_lines {code : List Instr} {i : Instr}
    (h : .instr i ∈ dataLines gvs ++ .label entryLabel :: code.map Line.instr) : i ∈ code := by
  simpa [instr_notMem_dataLines] using h

theorem count_lines (code : List Instr) (i : Instr) :
    (dataLines gvs ++ .label entryLabel :: code.map Line.instr).count (.instr i) =
      code.count i := by
  have hcode : (code.map Line.instr).count (.instr i) = code.count i :=
    List.count_map_of_injective code Line.instr (fun _ _ => Line.instr.inj) i
  rw [List.count_append, List.count_eq_zero.2 (instr_notMem_dataLines gvs i), Nat.zero_add,
    List.count_cons_of_ne (by simp), hcode]

theorem exported_mem_lines {code : List Instr} {label : String}
    (h : .exported label ∈ dataLines gvs ++ .label entryLabel :: code.map Line.instr) :
    ∃ v ∈ gvs, v.exported = true ∧ label = v.name := by
  have hmem : .exported label ∈ exportLines gvs := by
    simpa [dataLines, headLines, globalLines, dataLine, Line.blank] using h
  obtain ⟨v, hv, hlabel⟩ := List.mem_map.1 hmem
  obtain ⟨hv, hexp⟩ := List.mem_filter.1 hv
  cases hlabel
  exact ⟨v, hv, hexp, Emit.globalLabel_exported hexp⟩

/-- A program is its data, its entry label and code that refers to labels of the program.  The
frame is set up first and taken down last, and left alone in between. -/
theorem Stages.code (h : Stages tree gvs lvs data c d lines) :
    ∃ body, lines.toList = dataLines gvs ++ .label entryLabel ::
        (frameCode (totalSize lvs) ++ body ++ leaveCode (totalSize lvs)).map Line.instr ∧
      (∀ i ∈ body, i.KeepsFrame) ∧
      ∀ i ∈ frameCode (totalSize lvs) ++ body ++ leaveCode (totalSize lvs),
        i.Within (Address.Reaches (· ∈ labels gvs)) True := by
  obtain ⟨body, hlines, hbody⟩ := statements_write h.body h.admits
  refine ⟨body, ?_, fun i hi => (hbody i hi).2, ?_⟩
  · rw [h.left, hlines, h.entered, h.data_eq]
    simp
  · refine List.forall_mem_append.2 ⟨List.forall_mem_append.2 ⟨?_, ?_⟩, leaveCode_within _⟩
    · exact frameCode_within h.size
    · exact fun i hi => (hbody i hi).1

theorem Stages.words (h : Stages tree gvs lvs data c d lines) (htree : tree.Proper) :
    ∀ v ∈ gvs, IsWord v.name := by
  refine h.globals.words ?_
  cases hglobals : tree.globals with
  | none => exact List.forall_mem_nil _
  | some l => exact (htree.1 l hglobals).2

theorem Stages.storageSound (h : Stages tree gvs lvs data c d lines) (htree : tree.Proper) :
    StorageSound lines.toList (gvs.map atLabel) (inFrame 0 lvs) := by
  obtain ⟨body, hall, hframe, hwithin⟩ := h.code
  have hsize := totalSize_inFrame 0 lvs
  rw [hall]
  constructor
  case defined =>
    rw [filterMap_defines, List.map_map]
    rfl
  case distinct =>
    rw [filterMap_defines]
    exact labels_nodup (h.words htree) h.newGlobals
  case usable =>
    intro label hlabel
    obtain ⟨v, hv, hexp, rfl⟩ := exported_mem_lines hlabel
    exact h.newGlobals.usable v hv hexp
  case referred =>
    intro i o label hi ho hlabel
    rw [filterMap_defines]
    exact labels_of_within ((hwithin i (instr_mem_lines hi)).within o ho) hlabel
  case atLabels =>
    exact List.forall_mem_map.2 fun v _ => rfl
  case reserved =>
    rw [filterMap_reserves, List.map_map]
    rfl
  case inFrame => exact inFrame_storage
  case disjoint => exact inFrame_disjoint
  case filled =>
    intro x
    rw [inFrame_occupies, hsize, Nat.zero_add, Int.natCast_zero, Int.neg_zero]
  case bounded => exact hsize ▸ h.size
  case framed => exact ⟨dataLines gvs, body, by rw [hsize], hframe⟩
  case once =>
    intro i hi
    rw [count_lines, hsize]
    exact count_frameInstrs hframe i (hsize ▸ hi)

end Compile

/-- In a program that compiles, labels are distinct and defined where they are used, data has the
size of its type, and the locals share out the frame, which is set up and taken down once, if there
is one.  The variables are those in scope behind the declarations. -/
theorem storage_layout_sound (text : List Char) (lines : Array Line)
    (h : compileLines text = .ok lines) :
    ∃ (tree : Program) (c : Compilation) (globals locals : List Variable),
      Program.ofText? text = .ok tree ∧
      Compile.enter tree { scopes := .builtin } = .ok () c ∧
      c.scopes = { inner := [Scope.adding [] locals]
                   globals := Scopes.builtin.globals.adding globals } ∧
      c.assembly.frames = [Compile.totalSize locals] ∧
      StorageSound lines.toList globals locals := by
  have hproper := Program.ofText?_proper text
  cases htree : Program.ofText? text with
  | error f =>
      rw [compileLines_eq, htree] at h
      cases h
  | ok tree =>
      rw [htree] at hproper
      obtain ⟨d, hprogram, rfl⟩ := compileLines_ok h htree
      obtain ⟨gvs, lvs, data, c, c', hstages⟩ := Compile.program_ok hprogram
      refine ⟨tree, c, gvs.map Compile.atLabel, Compile.inFrame 0 lvs, rfl, hstages.runs,
        hstages.scopes_eq, ?_, hstages.storageSound hproper⟩
      rw [hstages.frames, Compile.totalSize_inFrame]

/-- Rows of numbers behind a label that other programs see, and rows of bytes in the frame. -/
def storageText : List Char :=
  ("var export t: Long[3][5], n: Int " ++
    "begin var i: Int, b: Byte[7][2] t[i][2] := n as Long write_eln i := n end").toList

theorem storage_layout_sound_rows :
    ∃ lines, compileLines storageText = .ok lines ∧
      lines.toList.filterMap Line.reserves? =
        [("tern$newl", 1), ("t", 120), ("tern$global$n", 4)] ∧
      .instr (.combine .sub (.reg .rsp .qword) (.imm 18)) ∈ lines.toList ∧
      ∃ (tree : Program) (c : Compilation) (globals locals : List Variable),
        Program.ofText? storageText = .ok tree ∧
        Compile.enter tree { scopes := .builtin } = .ok () c ∧
        c.scopes = { inner := [Scope.adding [] locals]
                     globals := Scopes.builtin.globals.adding globals } ∧
        c.assembly.frames = [Compile.totalSize locals] ∧
        StorageSound lines.toList globals locals := by
  have hcompiles : (compileLines storageText).toOption.any (fun lines =>
      decide (lines.toList.filterMap Line.reserves? =
          [("tern$newl", 1), ("t", 120), ("tern$global$n", 4)] ∧
        .instr (.combine .sub (.reg .rsp .qword) (.imm 18)) ∈ lines.toList)) = true := by
    decide +kernel
  cases hlines : compileLines storageText with
  | error f => simp [hlines, Except.toOption] at hcompiles
  | ok lines =>
      simp only [hlines, Except.toOption, Option.any_some, decide_eq_true_eq] at hcompiles
      exact ⟨lines, rfl, hcompiles.1, hcompiles.2, storage_layout_sound storageText lines hlines⟩

end Tern
