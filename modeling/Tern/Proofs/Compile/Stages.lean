import Tern.Proofs.Compile.Safety

/-!
# The stages of a compilation

A program that compiles declares its globals and its locals, enters at its label, compiles its
statements between setting up and taking down the frame, and leaves.
-/

namespace Tern

namespace Compile

/-- Compiles what stands in front of the statements of a program. -/
def enter (p : Program) : Compile Unit := do
  emit Emit.programHead
  emit Emit.dataHead
  p.globals.forM declList
  emit Emit.textHead
  pass 1 p.opening
  push
  emit Emit.enterProgram
  p.locals.forM declList

/-- Compiles what stands behind the statements of a program. -/
def leave (p : Program) : Compile Unit := do
  pass 0 p.body.close
  emit Emit.leaveProgram
  pop
  pass 1 p.finish

theorem program_eq (p : Program) :
    program p = (do enter p; statements p.body.statements; leave p) := by
  simp only [program, enter, block, leave, bind_assoc]

/-- The lines in front of the entry label. -/
def dataLines (gvs : List Variable) : List Line := headLines ++ globalLines gvs ++ [.textStart]

theorem ne_entryLabel (gvs : List Variable) : ∀ l ∈ dataLines gvs, l ≠ .label entryLabel := by
  have hhead : ∀ l ∈ headLines, l ≠ .label entryLabel := by decide
  simp only [dataLines, globalLines, exportLines, List.forall_mem_append, List.forall_mem_map,
    List.forall_mem_singleton]
  exact ⟨⟨hhead, by rintro _ _ ⟨⟩, by rintro _ _ ⟨⟩⟩, by rintro ⟨⟩⟩

/-- What is compiled in front of the statements: the declarations of `gvs` and `lvs`, with the
lines `data` before the entry label, up to `c`. -/
structure Entered (tree : Program) (gvs lvs : List Variable) (data : List Line)
    (c : Compilation) : Prop where
  runs : enter tree { scopes := .builtin } = .ok () c
  globals : Declares .builtin (tree.globals.elim [] DeclList.decls) gvs
  newGlobals : Declared Scopes.builtin.innermost gvs
  locals : Declares (Scopes.builtin.mapInnermost (·.adding (gvs.map atLabel))).push
    (tree.locals.elim [] DeclList.decls) lvs
  newLocals : Declared [] lvs
  size : totalSize lvs ≤ Ty.sizeLimit
  scopes : c.scopes =
    (Scopes.builtin.mapInnermost (·.adding (gvs.map atLabel))).push.mapInnermost
      (·.adding (inFrame 0 lvs))
  free : c.assembly.busy = []
  frames : c.assembly.frames = [totalSize lvs]
  data_eq : data = dataLines gvs
  entered : c.assembly.lines =
    (data ++ .label entryLabel :: (frameCode (totalSize lvs)).map Line.instr).toArray

theorem Entered.noEntry {tree : Program} {gvs lvs : List Variable} {data : List Line}
    {c : Compilation} (h : Entered tree gvs lvs data c) : ∀ l ∈ data, l ≠ .label entryLabel :=
  h.data_eq ▸ ne_entryLabel gvs

/-- How a program is compiled: behind its declarations, the statements are compiled from `c` to
`d`. -/
structure Stages (tree : Program) (gvs lvs : List Variable) (data : List Line)
    (c d : Compilation) (lines : Array Line) : Prop extends Entered tree gvs lvs data c where
  body : statements tree.body.statements c = .ok () d
  left : lines = d.assembly.lines ++ ((leaveCode (totalSize lvs)).map Line.instr).toArray

namespace Stages

variable {tree : Program} {gvs lvs : List Variable} {data : List Line} {c d : Compilation}
  {lines : Array Line}

theorem globals_sound (h : Stages tree gvs lvs data c d lines) :
    (Scopes.builtin.mapInnermost (·.adding (gvs.map atLabel))).push.Sound :=
  sound_push (Scopes.builtin_sound.adding (map_name_atLabel gvs ▸ h.newGlobals.newNames))

theorem sound (h : Stages tree gvs lvs data c d lines) : c.scopes.Sound := by
  rw [h.scopes]
  exact h.globals_sound.adding (map_name_inFrame 0 lvs ▸ h.newLocals.newNames)

end Stages

theorem pop_assembly {c d : Compilation} {u : Unit} (h : pop c = .ok u d) :
    d.assembly = c.assembly := by
  simp only [pop, bind_eq_ok, get_eq_ok] at h
  obtain ⟨_, _, ⟨rfl, rfl⟩, h⟩ := h
  cases hscopes : c.scopes.pop? with
  | none =>
      rw [hscopes] at h
      cases h
  | some scopes =>
      rw [hscopes] at h
      cases h
      rfl

theorem enter_ok {tree : Program} {u : Unit} {d : Compilation}
    (h : enter tree { scopes := .builtin } = .ok u d) :
    ∃ gvs lvs data, Entered tree gvs lvs data d := by
  have hruns : enter tree { scopes := .builtin } = .ok () d := h
  simp only [enter, bind_eq_ok] at h
  obtain ⟨_, c₁, hhead, _, c₂, hdata, _, c₃, hglobals, _, c₄, htext, _, c₅, hopening, _, c₆, hpush,
    _, c₇, henter, hlocals⟩ := h
  rw [programHead_apply] at hhead
  cases hhead
  rw [dataHead_apply] at hdata
  cases hdata
  rw [followed_followed] at hglobals
  obtain ⟨gvs, hgvs, hnew, hscopes, hassembly⟩ := globals_ok rfl hglobals
  rw [Emit.textHead, emit_write] at htext
  cases htext
  have hlike := (pass_ok hopening).1
  rw [push_apply] at hpush
  cases hpush
  rw [enterProgram_apply] at henter
  cases henter
  obtain ⟨lvs, hlvs, hnew', hsize, hscopes', hassembly'⟩ := locals_ok rfl rfl hlocals
  have hscopes₅ : c₅.scopes = Scopes.builtin.mapInnermost (·.adding (gvs.map atLabel)) :=
    hlike.scopes.trans hscopes
  have hlines₅ : c₅.assembly.lines = (dataLines gvs).toArray := by
    rw [hlike.assembly]
    simp [followed, hassembly, headLines, dataLines]
  refine ⟨gvs, lvs, dataLines gvs, ?_⟩
  exact
    { runs := hruns
      globals := hgvs
      newGlobals := hnew
      locals := hscopes₅ ▸ hlvs
      newLocals := hnew'
      size := hsize
      scopes := hscopes₅ ▸ hscopes'
      free := by
        rw [hassembly']
        simp [followed, hlike.assembly, hassembly]
      frames := by
        rw [hassembly']
        simp [followed, hlike.assembly, hassembly]
      data_eq := rfl
      entered := by
        rw [hassembly']
        simp [followed, hlines₅] }

theorem leave_ok {p : Program} {u : Unit} {c d : Compilation} {total : Nat} {outer : List Nat}
    (h : leave p c = .ok u d) (hframes : c.assembly.frames = total :: outer) :
    d.assembly.lines = c.assembly.lines ++ ((leaveCode total).map Line.instr).toArray := by
  simp only [leave, bind_eq_ok] at h
  obtain ⟨_, c₁, hclose, _, c₂, hleave, _, c₃, hpop, hfinish⟩ := h
  have hlike := (pass_ok hclose).1
  rw [leaveProgram_apply (hlike.assembly ▸ hframes)] at hleave
  cases hleave
  rw [(pass_ok hfinish).1.assembly, pop_assembly hpop]
  simp [hlike.assembly]

theorem program_ok {tree : Program} {u : Unit} {d : Compilation}
    (h : program tree { scopes := .builtin } = .ok u d) :
    ∃ gvs lvs data c c', Stages tree gvs lvs data c c' d.assembly.lines := by
  simp only [program_eq, bind_eq_ok] at h
  obtain ⟨_, c, henters, _, c', hbody, hleaves⟩ := h
  obtain ⟨gvs, lvs, data, hentered⟩ := enter_ok henters
  have hframes : c'.assembly.frames = [totalSize lvs] :=
    (statements_take hbody).transfer.frames.trans hentered.frames
  exact ⟨gvs, lvs, data, c, c', hentered, hbody, leave_ok hleaves hframes⟩

end Compile

end Tern
