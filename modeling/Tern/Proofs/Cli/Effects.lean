import Tern.Cli.Run
import Tern.Proofs.Cli.Files

/-!
# What a run does to the files

A run ends in one of a few ways, and its exit code tells which: it printed information, it found
something wrong with the program, it was refused, or it wrote the assembly file.  Only in the last
case does a tree of files change, and then at one path.  That path is the entry itself only where
the entry already has the extension of an assembly file.
-/

namespace Tern

/-- A run in the state `s`: its report and the state that it leaves. -/
def FileSystem.afterRun {σ : Type} (fs : FileSystem σ) (s : σ) (cwd : Path) (args : List String) :
    Report × σ :=
  (run fs.toFiles cwd args).run s

/-- A run on the tree `t`: its report and the tree that it leaves. -/
def FileTree.afterRun (t : FileTree) (cwd : Path) (args : List String) : Report × FileTree :=
  (run FileTree.operations cwd args).run t

/-- Where the assembly of the file named `entry` goes: to the output that is given, or next to the
entry, with `.asm` for the extension of its name. -/
inductive Destination (cwd : Path) (entry : String) : Option String → Path → Prop where
  | given (output : String) : Destination cwd entry (some output) (Path.resolve cwd output)
  | beside {dir : Path} {name stem ext : String} (hentry : Path.resolve cwd entry = dir ++ [name])
      (hname : Path.NameParts name stem ext) : Destination cwd entry none (dir ++ [stem ++ ".asm"])

section

variable {σ : Type} (fs : FileSystem σ) (cwd : Path) (args : List String) (s : σ)

/-- The arguments ask to compile the file `entry`, whose text compiles to an artifact for `p`. -/
structure Yields (entry : String) (output : Option String) (p : Path) (artifact : Artifact) :
    Prop where
  destination : Destination cwd entry output p
  compiles : ∃ layout text, Request.ofArgs args = .ok (.build entry output layout) ∧
    ((fs.read (Path.resolve cwd entry)).run s).1 = .ok text ∧
    compileText (Path.resolve cwd entry).render text.toList layout (some p.render) = .ok artifact

/-- The arguments ask to compile a file, and `d` is what comes of it: the file cannot be read, or
its text does not compile. -/
inductive Diagnosed : Diagnostic → Prop where
  | unreadable {entry : String} {output : Option String} {layout : Layout} {e : SystemError}
      (hargs : Request.ofArgs args = .ok (.build entry output layout))
      (hread : ((fs.read (Path.resolve cwd entry)).run s).1 = .error e) :
      Diagnosed (.unreadable (Path.resolve cwd entry) e)
  | rejected {entry : String} {output : Option String} {layout : Layout} {text : String} {p : Path}
      {d : Diagnostic} (hargs : Request.ofArgs args = .ok (.build entry output layout))
      (hread : ((fs.read (Path.resolve cwd entry)).run s).1 = .ok text)
      (hp : Destination cwd entry output p)
      (hcompile : compileText (Path.resolve cwd entry).render text.toList layout
        (some p.render) = .error d) :
      Diagnosed d

/-- The run is refused with a message: the arguments make no sense, or the assembly cannot be
written. -/
inductive Refused : String → Prop where
  | misused {e : UsageError} (hargs : Request.ofArgs args = .error e) : Refused e.message
  | unwritable {entry : String} {output : Option String} {p : Path} {artifact : Artifact}
      {e : SystemError} (hyields : Yields fs cwd args s entry output p artifact)
      (hwrite : ((fs.write p artifact.text).run s).1 = .error e) :
      Refused e.message

/-- The ways in which a run can end. -/
inductive RunEnds : Report → σ → Prop where
  | helped (hargs : Request.ofArgs args = .ok .help) :
      RunEnds { code := 0, stdout := Report.usage } s
  | versioned (hargs : Request.ofArgs args = .ok .version) :
      RunEnds { code := 0, stdout := Report.version ++ "\n" } s
  | diagnosed {d : Diagnostic} (hd : Diagnosed fs cwd args s d) : RunEnds (.failure d) s
  | refused {message : String} (hm : Refused fs cwd args s message) :
      RunEnds (.refusal message) s
  | written {entry : String} {output : Option String} {p : Path} {artifact : Artifact} {s' : σ}
      (hyields : Yields fs cwd args s entry output p artifact)
      (hwrites : Writes p artifact.text (fs.names s) (fs.names s')) :
      RunEnds (.success p) s'

end

/-! ## How a run goes -/

/-- The destination as a run computes it. -/
def target (cwd : Path) (entry : String) (output : Option String) : Path :=
  output.elim (defaultOutput (Path.resolve cwd entry)) (Path.resolve cwd)

namespace Destination

variable {cwd p : Path} {entry : String} {output : Option String}

theorem eq_target (h : Destination cwd entry output p) : p = target cwd entry output := by
  cases h with
  | given output => rfl
  | beside hentry hname =>
      rw [target, Option.elim_none, defaultOutput, Path.withExtension, hentry,
        List.dropLast_concat, List.getLast?_concat, Option.getD_some,
        Path.splitExtension_of_nameParts hname]
      rfl

/-- Only the root has no name to replace the extension of. -/
theorem of_target (hentry : Path.resolve cwd entry ≠ []) :
    Destination cwd entry output (target cwd entry output) := by
  cases output with
  | some output => exact .given output
  | none =>
      obtain hnil | ⟨dir, name, hconcat⟩ := List.eq_nil_or_concat (Path.resolve cwd entry)
      · exact absurd hnil hentry
      · rw [List.concat_eq_append] at hconcat
        obtain ⟨stem, ext, hname⟩ := Path.exists_nameParts name
        have hdest : Destination cwd entry none _ := .beside hconcat hname
        rwa [hdest.eq_target] at hdest

end Destination

section

variable {σ : Type} {fs : FileSystem σ} {cwd p : Path} {args : List String} {s s' : σ}
  {entry : String} {output : Option String} {layout : Layout} {artifact : Artifact}

theorem FileSystem.resolve_ne_nil {text : String} (h : ((fs.read p).run s).1 = .ok text) :
    p ≠ [] := by
  rintro rfl
  have hfile := fs.read_text _ _ _ h
  rw [fs.root] at hfile
  cases hfile

theorem FileSystem.build_run (fs : FileSystem σ) (s : σ) (entry output : Path) (layout : Layout) :
    (build fs.toFiles entry output layout).run s =
      match ((fs.read entry).run s).1 with
      | .error e => (.failure (.unreadable entry e), s)
      | .ok text =>
          match compileText entry.render text.toList layout (some output.render) with
          | .error d => (.failure d, s)
          | .ok artifact =>
              match ((fs.write output artifact.text).run s).1 with
              | .error e => (.refusal e.message, s)
              | .ok _ => (.success output, ((fs.write output artifact.text).run s).2) := by
  rw [build, run_bind, fs.read_keeps]
  cases ((fs.read entry).run s).1 with
  | error e => rfl
  | ok text =>
      dsimp only
      cases compileText entry.render text.toList layout (some output.render) with
      | error d => rfl
      | ok artifact =>
          dsimp only
          rw [run_bind]
          have hkeeps := fs.write_keeps output artifact.text s
          cases hwrite : ((fs.write output artifact.text).run s).1 with
          | error e => exact congrArg _ (hkeeps e hwrite)
          | ok u => rfl

theorem FileSystem.afterRun_build (hargs : Request.ofArgs args = .ok (.build entry output layout)) :
    fs.afterRun s cwd args =
      (build fs.toFiles (Path.resolve cwd entry) (target cwd entry output) layout).run s := by
  rw [afterRun, run, hargs]
  rfl

theorem Diagnosed.afterRun_eq {d : Diagnostic} (h : Diagnosed fs cwd args s d) :
    fs.afterRun s cwd args = (.failure d, s) := by
  cases h with
  | unreadable hargs hread => rw [FileSystem.afterRun_build hargs, FileSystem.build_run, hread]
  | rejected hargs hread hp hcompile =>
      rw [hp.eq_target] at hcompile
      rw [FileSystem.afterRun_build hargs, FileSystem.build_run, hread]
      simp only [hcompile]

theorem Yields.afterRun_eq (h : Yields fs cwd args s entry output p artifact) :
    fs.afterRun s cwd args =
      match ((fs.write p artifact.text).run s).1 with
      | .error e => (.refusal e.message, s)
      | .ok _ => (.success p, ((fs.write p artifact.text).run s).2) := by
  obtain ⟨hp, layout, text, hargs, hread, hcompile⟩ := h
  rw [FileSystem.afterRun_build hargs, ← hp.eq_target, FileSystem.build_run, hread]
  simp only [hcompile]
  rfl

theorem Refused.afterRun_eq {message : String} (h : Refused fs cwd args s message) :
    fs.afterRun s cwd args = (.refusal message, s) := by
  cases h with
  | misused hargs =>
      rw [FileSystem.afterRun, run, hargs]
      rfl
  | unwritable hyields hwrite => rw [hyields.afterRun_eq, hwrite]

theorem afterRun_ends (fs : FileSystem σ) (cwd : Path) (args : List String) (s : σ) :
    RunEnds fs cwd args s (fs.afterRun s cwd args).1 (fs.afterRun s cwd args).2 := by
  cases hargs : Request.ofArgs args with
  | error e =>
      have hm : Refused fs cwd args s e.message := .misused hargs
      rw [hm.afterRun_eq]
      exact .refused hm
  | ok request =>
      cases request with
      | help =>
          rw [FileSystem.afterRun, run, hargs]
          exact .helped hargs
      | version =>
          rw [FileSystem.afterRun, run, hargs]
          exact .versioned hargs
      | build entry output layout =>
          cases hread : ((fs.read (Path.resolve cwd entry)).run s).1 with
          | error e =>
              have hd : Diagnosed fs cwd args s _ := .unreadable hargs hread
              rw [hd.afterRun_eq]
              exact .diagnosed hd
          | ok text =>
              have hp : Destination cwd entry output (target cwd entry output) :=
                .of_target (FileSystem.resolve_ne_nil hread)
              cases hcompile : compileText (Path.resolve cwd entry).render text.toList layout
                  (some (target cwd entry output).render) with
              | error d =>
                  have hd : Diagnosed fs cwd args s d := .rejected hargs hread hp hcompile
                  rw [hd.afterRun_eq]
                  exact .diagnosed hd
              | ok artifact =>
                  have hyields : Yields fs cwd args s entry output _ artifact :=
                    ⟨hp, layout, text, hargs, hread, hcompile⟩
                  rw [hyields.afterRun_eq]
                  have htext := fs.write_text (target cwd entry output) artifact.text s
                  cases hwrite : ((fs.write (target cwd entry output) artifact.text).run s).1 with
                  | error e => exact .refused (.unwritable hyields hwrite)
                  | ok u => exact .written hyields (htext hwrite)

/-! ## Exit codes -/

namespace RunEnds

variable {r : Report}

/-- A run that leaves another state has written its assembly file and reports that. -/
theorem eq_or_written (h : RunEnds fs cwd args s r s') :
    s' = s ∨ ∃ entry output p artifact, Yields fs cwd args s entry output p artifact ∧
      Writes p artifact.text (fs.names s) (fs.names s') ∧ r = .success p := by
  cases h with
  | written hyields hwrites => exact .inr ⟨_, _, _, _, hyields, hwrites, rfl⟩
  | _ => exact .inl rfl

end RunEnds

end

/-- The arguments ask to compile `entry`, and its text compiles. -/
def Compiles (cwd : Path) (args : List String) (t : FileTree) (entry : String)
    (output : Option String) (artifact : Artifact) : Prop :=
  ∃ layout text, Request.ofArgs args = .ok (.build entry output layout) ∧
    t.read (Path.resolve cwd entry) = .ok text ∧
    compileText (Path.resolve cwd entry).render text.toList layout
      (some (target cwd entry output).render) = .ok artifact

variable {cwd : Path} {args : List String} {entry : String} {output : Option String}
  {layout : Layout}

namespace Request

variable {name o : String} {layout' : Layout}

theorem finish_output (h : finish name output layout = .ok (.build entry (some o) layout')) :
    (Path.extension o).toLower = outputExtension := by
  unfold finish at h
  split at h
  · cases h
  · split at h
    · cases h
    · next hasm =>
        cases h
        simpa using hasm

/-- An output path that is accepted has the extension of assembly files. -/
theorem parse_output (h : parse output layout args = .ok (.build entry (some o) layout')) :
    (Path.extension o).toLower = outputExtension := by
  -- Only a named output, or what is left of the arguments, says what is built.
  fun_induction parse output layout args with
  | case6 _ _ _ _ _ _ _ _ _ ih => exact ih h
  | case8 _ _ _ _ _ _ _ _ _ _ ih => exact ih h
  | case9 _ _ _ _ _ _ _ ih => exact ih h
  | case10 _ _ _ _ _ _ _ _ ih => exact ih h
  | case12 => exact finish_output h
  | _ => cases h

end Request

theorem target_eq_resolve_iff (cwd : Path) (entry : String) :
    target cwd entry none = Path.resolve cwd entry ↔
      (Path.resolve cwd entry).nameExtension = Request.outputExtension :=
  Path.withExtension_eq_self_iff (by decide)

/-- The assembly goes to where the entry is only if the entry is named like an assembly file. -/
theorem nameExtension_of_target_eq
    (hargs : Request.ofArgs args = .ok (.build entry output layout))
    (h : target cwd entry output = Path.resolve cwd entry) :
    (Path.resolve cwd entry).nameExtension.toLower = Request.outputExtension := by
  cases output with
  | none =>
      rw [(target_eq_resolve_iff cwd entry).1 h]
      decide +kernel
  | some o =>
      have hasm : (Path.extension o).toLower = Request.outputExtension :=
        Request.parse_output hargs
      have hne : Path.extension o ≠ "" := by
        intro hempty
        rw [hempty] at hasm
        exact absurd hasm (by decide +kernel)
      rw [← h]
      change (Path.resolve cwd o).nameExtension.toLower = _
      rw [Path.nameExtension_resolve cwd hne, hasm]

/-- The one file that a run of the compiler can lose is an entry whose assembly goes to its own
path.  No other run changes the entry, and an entry that is not named like an assembly file
is never changed. -/
theorem entry_kept_unless_target (cwd : Path) (args : List String) (t : FileTree) :
    (t.afterRun cwd args).2 = t ∨
    ∃ entry output artifact, Compiles cwd args t entry output artifact ∧
      (t.afterRun cwd args).1.code = 0 ∧
      (t.afterRun cwd args).2.get? (Path.resolve cwd entry) =
        (if target cwd entry output = Path.resolve cwd entry then some (.file artifact.text)
          else t.get? (Path.resolve cwd entry)) ∧
      (target cwd entry output = Path.resolve cwd entry →
        (Path.resolve cwd entry).nameExtension.toLower = Request.outputExtension) ∧
      (output = none →
        (target cwd entry output = Path.resolve cwd entry ↔
          (Path.resolve cwd entry).nameExtension = Request.outputExtension)) := by
  have hafter : FileTree.fileSystem.afterRun t cwd args = t.afterRun cwd args := rfl
  have hends := afterRun_ends FileTree.fileSystem cwd args t
  rw [hafter] at hends
  obtain ht | ⟨entry, output, p, artifact, ⟨hp, layout, text, hargs, hread, hcompile⟩, hwrites, hr⟩ :=
    hends.eq_or_written
  · exact .inl ht
  · rw [hp.eq_target] at hcompile hwrites
    refine .inr ⟨entry, output, artifact, ⟨layout, text, hargs, hread, hcompile⟩,
      by rw [hr]; rfl, ?_, nameExtension_of_target_eq hargs, ?_⟩
    · split
      · next htarget =>
          rw [← htarget]
          exact hwrites.written
      · next htarget =>
          have hfile := FileTree.read_ok hread
          rw [hfile]
          exact hwrites.get_eq (Ne.symm htarget) hfile
    · rintro rfl
      exact target_eq_resolve_iff cwd entry

/-- A tree with a program that is named like an assembly file. -/
def misnamed : FileTree :=
  ⟨[(["work"], .dir), (["work", "main.asm"], .file "begin end")]⟩

/-- Compiling a file does not always keep its contents. -/
theorem entry_overwritten :
    ¬ ∀ (cwd : Path) (args : List String) (t : FileTree) (entry : String)
      (output : Option String) (layout : Layout),
      Request.ofArgs args = .ok (.build entry output layout) →
      (t.afterRun cwd args).2.get? (Path.resolve cwd entry) =
        t.get? (Path.resolve cwd entry) := by
  intro h
  have hkept := h ["work"] ["main.asm"] misnamed "main.asm" none {} rfl
  exact absurd hkept (by decide +kernel)

end Tern
