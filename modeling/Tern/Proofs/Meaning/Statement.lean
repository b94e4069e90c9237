import Tern.Proofs.Meaning.Expression

/-!
# Simulation of statements

A statement may change the memory and write lines.  Its code ends where its run ends, with the
same memory and the same output, or both divide by zero.  A list of statements goes on from there.
-/

namespace Tern

namespace Meaning

open Machine Assembly

variable {α β : Type} {p : Platform} {ctx : Context} {fr : Frame} {a b e : Assembly}
  {c d : Compilation} {s t : State} {w : World} {v : Value} {l r : Datum}

/-! ## Runs that change the world -/

/-- From `a` to `b` the machine, in the state `s`, does what the run `x` does: it is where the
run is in the end, or both divide by zero. -/
def Tracks (p : Platform) (ctx : Context) (fr : Frame) (a : Assembly) (s : State) (b : Assembly)
    (w : World) (x : Run α) : Prop :=
  Ends (x w) (fun _ w' => ∃ t, Runs p a s b (.ok t) ∧ Follows ctx fr t w')
    fun w' => ∃ t, Runs p a s b (.error ⟨.divideError, t⟩) ∧ Mirrors ctx t w'

theorem Tracks.afterRuns {x : Run α} (hruns : Runs p a s b (.ok t))
    (h : Tracks p ctx fr b t e w x) : Tracks p ctx fr a s e w x := by
  refine Ends.imp h ?_ ?_
  · rintro y w' ⟨u, hruns', hfollows⟩
    exact ⟨u, hruns.trans hruns', hfollows⟩
  · rintro w' ⟨u, hruns', hmirrors⟩
    exact ⟨u, hruns.trans hruns', hmirrors⟩

theorem Tracks.bind {x : Run α} {f : α → Run β} (h : Tracks p ctx fr a s b w x)
    (hext : b.Extends e)
    (hf : ∀ y t w', Follows ctx fr t w' → Tracks p ctx fr b t e w' (f y)) :
    Tracks p ctx fr a s e w (x >>= f) := by
  refine Ends.bind h ?_ ?_
  · rintro w' ⟨t, hruns, hmirrors⟩
    exact ⟨t, hruns.stopped hext, hmirrors⟩
  · rintro y w' ⟨t, hruns, hfollows⟩
    exact Tracks.afterRuns hruns (hf y t w' hfollows)

theorem Tracks.lines {x : Run α} (h : Tracks p ctx fr a s b w x) (hlines : e.lines = b.lines) :
    Tracks p ctx fr a s e w x := by
  unfold Tracks Runs
  rw [hlines]
  exact h

theorem Performs.tracks {x : Run α} {P : α → State → Prop} {still : Bool} {used : List Register}
    (h : Performs p ctx fr still a used s b w x P) : Tracks p ctx fr a s b w x := by
  apply Ends.imp h
  · rintro y w' ⟨-, t, hlands, -⟩
    exact ⟨t, hlands.runs, hlands.toFollows⟩
  · exact fun w' h => h.2

theorem Performs.before {x : Run α} {f : α → Run β} {P : α → State → Prop} {still : Bool}
    {used : List Register} (h : Performs p ctx fr still a used s b w x P) (hext : b.Extends e)
    (hf : ∀ y t w', Lands p ctx fr a used s b t w' → P y t → Tracks p ctx fr b t e w' (f y)) :
    Tracks p ctx fr a s e w (x >>= f) := by
  refine Ends.bind h ?_ ?_
  · rintro w' ⟨-, t, hruns, hmirrors⟩
    exact ⟨t, hruns.stopped hext, hmirrors⟩
  · rintro y w' ⟨-, t, hlands, hy⟩
    exact Tracks.afterRuns hlands.runs (hf y t w' hlands hy)

/-! ## Calls -/

theorem writeLine_tracks {u : Unit} (h : Emit.writeNewline a = .ok u b)
    (hnewline : ctx.newline = p.place Emit.newlineLabel) (hf : Follows ctx fr s w) :
    Tracks p ctx fr a s b w (writeLine ctx) := by
  unfold writeLine
  split
  · trivial
  · next hbarred =>
    have hplace : ctx.barred (p.place Emit.newlineLabel) = false := by simpa [hnewline] using hbarred
    obtain ⟨t, hruns, hregs, hmem, houtput⟩ := writeNewline_runs h hf.rsp (hf.guards _ hplace)
    refine ⟨t, hruns, ⟨fun y hy => (hmem y (hf.guards y hy)).trans (hf.mem y hy), ?_⟩, hf.guards,
      (hregs _ kept_rsp).trans hf.rsp, (hregs _ kept_rbp).trans hf.rbp⟩
    rw [houtput, hf.output, newlineEvent, hf.mem _ hplace, hnewline]

/-- A call without a value: only `write_eln` has none. -/
theorem call_tracks {id : Ident} {q : Procedure} {vs : List Value} {args : Run (List Datum)}
    {c₁ : Compilation} {still : Bool} (h : Compile.call id q vs c₁ = .ok .void d) (hq : Emit.IsPredefined q)
    (hvs : c.Takes c₁ (vs.flatMap Value.held))
    (hargs : Performs p ctx fr still c.assembly [] s c₁.assembly w args
      fun ds t => List.Forall₂ (Denotes p fr.sp t) vs ds)
    (hnewline : ctx.newline = p.place Emit.newlineLabel) :
    Tracks p ctx fr c.assembly s d.assembly w (do let ds ← args; call ctx q.routine ds) := by
  refine hargs.before (Compile.call_transfer hvs h).lines fun ds t w' hlands hds => ?_
  obtain ⟨htypes, b, hb, rfl⟩ := Compile.call_ok h
  obtain ⟨b', hperform, rfl⟩ := Emit.call_ok hb
  rcases Emit.perform_ok hperform with ⟨hroutine, -, hwrite⟩ | ⟨_, _, _, _, -, -, -, hvoid, -⟩
  · rcases Emit.isPredefined_iff.1 hq with rfl | rfl
    · obtain rfl := List.map_eq_nil_iff.1 htypes
      obtain rfl := List.forall₂_nil_left_iff.1 hds
      exact (writeLine_tracks hwrite hnewline hlands.toFollows).lines rfl
    · cases hroutine
  · cases hvoid

/-! ## Statements -/

theorem item_eq_void {tree : Expr} (h : Compile.item tree c = .ok .void d) :
    (∃ id, tree = .name id) ∨ ∃ id args, tree = .call id args := by
  cases tree with
  | name id => exact .inl ⟨id, rfl⟩
  | call id args => exact .inr ⟨id, args, rfl⟩
  | missing => exact (Compile.item_missing_ok h).elim
  | integer =>
      obtain ⟨_, _, -, -, heq⟩ := Compile.item_integer_ok h
      cases heq
  | char =>
      obtain ⟨_, -, heq, -⟩ := Compile.item_char_ok h
      cases heq
  | element =>
      obtain ⟨_, -, heq⟩ := Compile.item_element_ok h
      cases heq
  | assign =>
      obtain ⟨_, _, _, _, _, _, -, -, -, -, -, heq⟩ := Compile.item_assign_ok h
      cases heq
  | paren =>
      obtain ⟨_, _, _, -, -, -, heq⟩ := Compile.item_paren_ok h
      cases heq
  | reference =>
      obtain ⟨_, _, _, _, -, -, -, heq⟩ := Compile.item_reference_ok h
      cases heq
  | negate =>
      obtain ⟨_, _, _, _, -, -, -, heq⟩ := Compile.item_negate_ok h
      cases heq
  | cast =>
      obtain ⟨_, _, _, _, _, _, -, -, -, -, heq⟩ := Compile.item_cast_ok h
      cases heq
  | binary =>
      obtain ⟨_, _, _, _, _, _, -, -, -, -, heq⟩ := Compile.item_binary_ok h
      cases heq

theorem void_tracks {tree : Expr} (h : Compile.item tree c = .ok .void d) (ht : tree.Proper)
    (hc : Ready p ctx fr c) (hnewline : ctx.newline = p.place Emit.newlineLabel)
    (hf : Follows ctx fr s w) : Tracks p ctx fr c.assembly s d.assembly w (expr ctx tree) := by
  rcases item_eq_void h with ⟨id, rfl⟩ | ⟨id, args, rfl⟩
  · obtain ⟨c₁, hlike, ⟨q, hq, hcall⟩ | ⟨_, -, heq⟩⟩ := Compile.item_name_ok h
    · have hargs : Performs p ctx fr true c₁.assembly [] s c₁.assembly w (pure [])
          fun ds t => List.Forall₂ (Denotes p fr.sp t) [] ds :=
        (Simulates.still rfl .nil).performs hf
      have hrun := call_tracks hcall (hc.sound.isPredefined hq) (.ofLike (.refl c₁)) hargs hnewline
      simp only [expr, hc.linked.procedure hq, ← hlike.assembly]
      exact hrun
    · cases heq
  · obtain ⟨q, c₁, vs, c₂, hq, hlike, hargs, hcall⟩ := Compile.item_call_ok h
    have hflat : false = true → args.assigns = false := nofun
    have hperforms := arguments_perform hargs ht hflat (hc.like hlike) s w hf
    have hrun := call_tracks hcall (hc.sound.isPredefined hq) (Compile.arguments_takes hargs)
      hperforms hnewline
    simp only [expr, hc.linked.procedure hq, ← hlike.assembly]
    exact hrun

theorem statement_tracks {tree : Expr} {i : Item} (h : Compile.statement tree c = .ok i d)
    (ht : tree.Proper) (hc : Ready p ctx fr c)
    (hnewline : ctx.newline = p.place Emit.newlineLabel) (hf : Follows ctx fr s w) :
    Tracks p ctx fr c.assembly s d.assembly w (expr ctx tree) := by
  have hitem := Compile.statement_ok h
  cases i with
  | void => exact void_tracks hitem ht hc hnewline hf
  | value v =>
      have henacts : Enacts p ctx fr false c d v (expr ctx tree) := item_enacts hitem ht nofun hc
      exact (henacts.performs s w hf).tracks

theorem statements_track {trees : List Expr} {u : Unit}
    (h : Compile.statements trees c = .ok u d) (ht : ∀ tree ∈ trees, tree.Proper)
    (hc : Ready p ctx fr c)
    (hnewline : ctx.newline = p.place Emit.newlineLabel) (hf : Follows ctx fr s w) :
    Tracks p ctx fr c.assembly s d.assembly w (statements ctx trees) := by
  induction trees generalizing c s w with
  | nil =>
      obtain ⟨-, rfl⟩ := pure_eq_ok.1 h
      exact ⟨s, .refl, hf⟩
  | cons tree trees ih =>
      obtain ⟨i, c₁, hi, -, hrest⟩ := Compile.statements_cons_ok h
      have hfirst := statement_tracks hi (ht tree List.mem_cons_self) hc hnewline hf
      have hc₁ := hc.takes (Compile.statement_takes hi)
      have hext := (Compile.statements_take hrest).transfer.lines
      have hreleased : Tracks p ctx fr c.assembly s (c₁.assembly.release i.held) w
          (expr ctx tree) := hfirst.lines rfl
      rw [statements]
      refine hreleased.bind hext fun _ t w' hf' => ?_
      have hproper : ∀ tree' ∈ trees, tree'.Proper := fun _ h => ht _ (List.mem_cons_of_mem tree h)
      have htail := ih hrest hproper hc₁ hf'
      exact htail

end Meaning

end Tern
