import Tern.Emit.Script
import Tern.Proofs.Emit.Run

/-!
# The register discipline of scripts

A step that lends registers to the steps inside it takes them back at its end.  As long as no
step inside frees what is lent to it, the registers in use change by plain acquisitions and
releases alone, and the lines that save and restore registers nest.
-/

namespace Tern

namespace Line

/-- The stack of saved registers behind a line.  A pop has to meet the register pushed last. -/
def track (stack : List Register) : Line → Option (List Register)
  | .instr (.push r) => some (r :: stack)
  | .instr (.pop r) => if stack.head? = some r then some stack.tail else none
  | _ => some stack

/-- The line saves or restores a register. -/
def usesStack : Line → Bool
  | .instr (.push _) => true
  | .instr (.pop _) => true
  | _ => false

theorem track_of_not_usesStack {l : Line} (h : l.usesStack = false) (stack : List Register) :
    l.track stack = some stack := by
  unfold usesStack at h
  unfold track
  split at h
  · cases h
  · cases h
  · rfl

/-- Each register pushed by the lines is popped by them again, the last one first. -/
def Balanced (code : List Line) : Prop :=
  ∀ stack, code.foldlM track stack = some stack

namespace Balanced

variable {code more : List Line}

theorem nil : Balanced [] := fun _ => rfl

theorem append (h : Balanced code) (h' : Balanced more) : Balanced (code ++ more) := by
  intro stack
  rw [List.foldlM_append, h stack]
  exact h' stack

theorem single {l : Line} (h : l.usesStack = false) : Balanced [l] := by
  intro stack
  rw [List.foldlM_cons, track_of_not_usesStack h]
  rfl

/-- A register is saved around balanced lines. -/
theorem around (h : Balanced code) (r : Register) :
    Balanced (.instr (.push r) :: (code ++ [.instr (.pop r)])) := by
  intro stack
  rw [List.foldlM_cons]
  change (code ++ _).foldlM track (r :: stack) = _
  rw [List.foldlM_append, h (r :: stack)]
  simp [track]

/-- Registers are saved around balanced lines and restored in the opposite order. -/
theorem bracket (h : Balanced code) (rs : List Register) :
    Balanced (rs.map (.instr <| .push ·) ++ code ++ rs.reverse.map (.instr <| .pop ·)) := by
  induction rs with
  | nil => simpa using h
  | cons r rs ih =>
      have hcode := ih.around r
      simpa using hcode

end Balanced

end Line

namespace Emit

/-- A plain change of the registers in use. -/
inductive Change where
  | taken (r : Register)
  | freed (rs : List Register)
  deriving DecidableEq

namespace Change

def registers : Change → List Register
  | taken r => [r]
  | freed rs => rs

def apply (s : Finset Register) : Change → Finset Register
  | taken r => insert r s
  | freed rs => s \ rs.toFinset

/-- What changes in a row make of a set of registers. -/
def applyAll (cs : List Change) (s : Finset Register) : Finset Register := cs.foldl apply s

/-- None of the changes is about a register of `held`. -/
def Avoid (cs : List Change) (held : List Register) : Prop :=
  ∀ c ∈ cs, ∀ r ∈ c.registers, r ∉ held

variable {cs ds : List Change} {s t : Finset Register} {held held' : List Register}
  {r : Register}

theorem Avoid.mono (h : Avoid cs held') (hsub : held ⊆ held') : Avoid cs held :=
  fun c hc r hr hmem => h c hc r hr (hsub hmem)

@[simp] theorem applyAll_nil : applyAll [] s = s := rfl

theorem applyAll_append : applyAll (cs ++ ds) s = applyAll ds (applyAll cs s) :=
  List.foldl_append

theorem mem_apply {c : Change} (h : r ∉ c.registers) : r ∈ c.apply s ↔ r ∈ s := by
  cases c with
  | taken q =>
      have hq : r ≠ q := by simpa [registers] using h
      simp [apply, hq]
  | freed rs =>
      have hrs : r ∉ rs := h
      simp [apply, hrs]

/-- A register is in use as before, if no change is about it. -/
theorem mem_applyAll (h : ∀ c ∈ cs, r ∉ c.registers) : r ∈ applyAll cs s ↔ r ∈ s := by
  induction cs generalizing s with
  | nil => rfl
  | cons c cs ih =>
      rw [List.forall_mem_cons] at h
      exact (ih h.2).trans (mem_apply h.1)

/-- What becomes of a register does not depend on the others. -/
theorem mem_applyAll_congr (h : r ∈ s ↔ r ∈ t) : r ∈ applyAll cs s ↔ r ∈ applyAll cs t := by
  induction cs generalizing s t with
  | nil => exact h
  | cons c cs ih =>
      apply ih
      cases c with
      | taken q => simp only [apply, Finset.mem_insert, h]
      | freed rs => simp only [apply, Finset.mem_sdiff, h]

/-- Registers that no change is about can be lent and taken back. -/
theorem applyAll_sdiff (havoid : Avoid cs held) {lent : List Register}
    (hlent : ∀ r ∈ lent, r ∈ held ∧ r ∉ s) :
    applyAll cs (s ∪ lent.toFinset) \ lent.toFinset = applyAll cs s := by
  ext r
  rw [Finset.mem_sdiff, List.mem_toFinset]
  by_cases hr : r ∈ lent
  · have hapart : ∀ c ∈ cs, r ∉ c.registers :=
      fun c hc hmem => havoid c hc r hmem (hlent r hr).1
    have hout : r ∉ applyAll cs s := fun h => (hlent r hr).2 ((mem_applyAll hapart).1 h)
    simp [hr, hout]
  · have hsame : r ∈ s ∪ lent.toFinset ↔ r ∈ s := by simp [hr]
    simp [hr, mem_applyAll_congr hsame]

end Change

namespace Step

variable {ι ρ : Type}

mutual

/-- The changes that the plain acquisitions and releases of a step make, in order. -/
def changes : Step ι → Answer ρ → List Change
  | .acquire, .register r => [.taken r]
  | .release rs, _ => [.freed rs]
  | .withScratch body, .temporary _ answers => changesAll body answers
  | .reserving _ body, .reserved answers => changesAll body answers
  | _, _ => []

def changesAll : List (Step ι) → List (Answer ρ) → List Change
  | step :: steps, answer :: answers => changes step answer ++ changesAll steps answers
  | _, _ => []

end

mutual

/-- The step frees no register that is lent to it by a step around it, where those around it
lend `held`, and leaves the stack and steps of another kind alone. -/
def respects (held : List Register) : Step ι → Answer ρ → Bool
  | .release rs, _ => rs.all fun r => !held.contains r
  | .write l, _ => !l.usesStack
  | .other _, _ => false
  | .withScratch body, .temporary r answers => respectsAll (r :: held) body answers
  | .reserving rs body, .reserved answers => respectsAll (rs ++ held) body answers
  | _, _ => true

def respectsAll (held : List Register) : List (Step ι) → List (Answer ρ) → Bool
  | step :: steps, answer :: answers =>
      respects held step answer && respectsAll held steps answers
  | _, _ => true

end

variable {act : ι → Emit ρ} {step : Step ι} {steps body : List (Step ι)} {x : Answer ρ}
  {answers : List (Answer ρ)} {a b c d : Assembly} {held held' rs : List Register} {r : Register}

theorem run_acquire_eq_ok :
    run act .acquire a = .ok x b ↔
      ∃ r, a.firstFree? = some r ∧ a.occupy r = b ∧ .register r = x := by
  change (Emit.acquire >>= fun r => pure (.register r) : Emit (Answer ρ)) a = .ok x b ↔ _
  rw [bind_eq_ok]
  simp only [acquire_eq_ok, pure_eq_ok]
  constructor
  · rintro ⟨r, c, ⟨hfree, rfl⟩, hx, rfl⟩
    exact ⟨r, hfree, rfl, hx⟩
  · rintro ⟨r, hfree, rfl, hx⟩
    exact ⟨r, _, ⟨hfree, rfl⟩, hx, rfl⟩

theorem run_release_eq_ok :
    run act (.release rs) a = .ok x b ↔ a.release rs = b ∧ .done = x := by
  change (Emit.release rs >>= fun _ => pure .done : Emit (Answer ρ)) a = .ok x b ↔ _
  rw [bind_eq_ok]
  simp only [release_eq_ok, pure_eq_ok]
  constructor
  · rintro ⟨u, c, rfl, hx, rfl⟩
    exact ⟨rfl, hx⟩
  · rintro ⟨rfl, hx⟩
    exact ⟨(), _, rfl, hx, rfl⟩

theorem run_write_eq_ok {l : Line} :
    run act (.write l) a = .ok x b ↔ a.write l = b ∧ .done = x := by
  change (Emit.write l >>= fun _ => pure .done : Emit (Answer ρ)) a = .ok x b ↔ _
  rw [bind_eq_ok]
  simp only [Emit.write, modify_eq_ok, pure_eq_ok]
  constructor
  · rintro ⟨u, c, rfl, hx, rfl⟩
    exact ⟨rfl, hx⟩
  · rintro ⟨rfl, hx⟩
    exact ⟨(), _, rfl, hx, rfl⟩

theorem run_withScratch_eq_ok :
    run act (.withScratch body) a = .ok x b ↔
      ∃ r answers c, a.firstFree? = some r ∧ runAll act body (a.occupy r) = .ok answers c ∧
        c.release [r] = b ∧ .temporary r answers = x := by
  rw [run, withScratch_eq_ok]
  simp only [bind_eq_ok, pure_eq_ok]
  constructor
  · rintro ⟨r, c, hfree, ⟨answers, _, hbody, hx, rfl⟩, hb⟩
    exact ⟨r, answers, _, hfree, hbody, hb, hx⟩
  · rintro ⟨r, answers, c, hfree, hbody, hb, hx⟩
    exact ⟨r, c, hfree, ⟨answers, c, hbody, hx, rfl⟩, hb⟩

def reservedFor (rs : List Register) (a : Assembly) : Assembly :=
  (a.extend ((saved rs a).map .push)).occupyAll (blocked rs a)

theorem mem_busy_reservedFor {q : Register} :
    q ∈ (reservedFor rs a).busy ↔ q ∈ a.busy ∨ q ∈ rs := by
  simp only [reservedFor, Assembly.mem_busy_occupyAll, Assembly.busy_extend, mem_blocked]
  tauto

theorem run_reserving_eq_ok :
    run act (.reserving rs body) a = .ok x b ↔
      ∃ answers c, runAll act body (reservedFor rs a) = .ok answers c ∧
        (c.release (blocked rs a)).extend ((saved rs a).reverse.map .pop) = b ∧
        .reserved answers = x := by
  rw [run, reserving_eq_ok]
  simp only [bind_eq_ok, pure_eq_ok]
  constructor
  · rintro ⟨c, ⟨answers, _, hbody, hx, rfl⟩, hb⟩
    exact ⟨answers, _, hbody, hb, hx⟩
  · rintro ⟨answers, c, hbody, hb, hx⟩
    exact ⟨c, ⟨answers, c, hbody, hx, rfl⟩, hb⟩

theorem runAll_cons_eq_ok :
    runAll act (step :: steps) a = .ok answers b ↔
      ∃ x c xs, run act step a = .ok x c ∧ runAll act steps c = .ok xs b ∧ x :: xs = answers := by
  rw [runAll, bind_eq_ok]
  simp only [bind_eq_ok, pure_eq_ok]
  constructor
  · rintro ⟨x, c, hstep, xs, _, hsteps, hx, rfl⟩
    exact ⟨x, c, xs, hstep, hsteps, hx⟩
  · rintro ⟨x, c, xs, hstep, hsteps, hx⟩
    exact ⟨x, c, hstep, xs, b, hsteps, hx, rfl⟩

/-- From `a` to `b` the registers in use change by `cs`, which are not about the registers
`held`, and the lines written are balanced. -/
structure Tidy (held : List Register) (a : Assembly) (cs : List Change) (b : Assembly) : Prop where
  busy : b.busy.toFinset = Change.applyAll cs a.busy.toFinset
  avoids : Change.Avoid cs held
  lines : ∃ code, b.lines = a.lines ++ code.toArray ∧ Line.Balanced code

namespace Tidy

variable {cs ds : List Change}

theorem refl (held : List Register) (a : Assembly) : Tidy held a [] a where
  busy := rfl
  avoids := by
    intro c hc
    cases hc
  lines := ⟨[], by simp, .nil⟩

theorem trans (h : Tidy held a cs b) (h' : Tidy held b ds c) : Tidy held a (cs ++ ds) c where
  busy := by rw [h'.busy, h.busy, Change.applyAll_append]
  avoids := by
    intro ch hch
    rcases List.mem_append.1 hch with hch | hch
    · exact h.avoids ch hch
    · exact h'.avoids ch hch
  lines := by
    obtain ⟨code, hcode, hbalanced⟩ := h.lines
    obtain ⟨more, hmore, hbalanced'⟩ := h'.lines
    refine ⟨code ++ more, ?_, hbalanced.append hbalanced'⟩
    simp [hmore, hcode]

theorem held_busy (h : Tidy held a cs b) (hheld : ∀ r ∈ held, r ∈ a.busy) :
    ∀ r ∈ held, r ∈ b.busy := by
  intro r hr
  rw [← List.mem_toFinset, h.busy,
    Change.mem_applyAll fun c hc hmem => h.avoids c hc r hmem hr, List.mem_toFinset]
  exact hheld r hr

theorem busy_release {lent : List Register} (h : Tidy held' c cs d)
    (hbusy : ∀ q, q ∈ c.busy ↔ q ∈ a.busy ∨ q ∈ lent)
    (hlent : ∀ q ∈ lent, q ∈ held' ∧ q ∉ a.busy) :
    (d.release lent).busy.toFinset = Change.applyAll cs a.busy.toFinset := by
  have hstart : c.busy.toFinset = a.busy.toFinset ∪ lent.toFinset := by
    ext q
    simp [hbusy]
  have hend : (d.release lent).busy.toFinset = d.busy.toFinset \ lent.toFinset := by
    ext q
    simp
  rw [hend, h.busy, hstart]
  apply Change.applyAll_sdiff h.avoids
  simpa using hlent

theorem scratch (hfree : a.firstFree? = some r) (h : Tidy (r :: held) (a.occupy r) cs c) :
    Tidy held a cs (c.release [r]) where
  busy := by
    apply h.busy_release
    · simp
    · simpa using (Assembly.firstFree?_eq_some hfree).2
  avoids := h.avoids.mono (List.subset_cons_self r held)
  lines := by simpa using h.lines

/-- The lines of a reservation: what is in use is saved around the lines of the body. -/
theorem exists_inner (h : Tidy held' (reservedFor rs a) cs c) :
    ∃ inner, Line.Balanced inner ∧
      ((c.release (blocked rs a)).extend ((saved rs a).reverse.map .pop)).lines =
        a.lines ++ ((saved rs a).map (Line.instr <| .push ·) ++ inner ++
          (saved rs a).reverse.map (Line.instr <| .pop ·)).toArray := by
  obtain ⟨inner, hinner, hbalanced⟩ := h.lines
  refine ⟨inner, hbalanced, ?_⟩
  simp [hinner, reservedFor, Function.comp_def]

theorem reservation (h : Tidy (rs ++ held) (reservedFor rs a) cs c) :
    Tidy held a cs ((c.release (blocked rs a)).extend ((saved rs a).reverse.map .pop)) where
  busy := by
    rw [Assembly.busy_extend]
    apply h.busy_release
    · intro q
      rw [mem_busy_reservedFor, mem_blocked]
      tauto
    · intro q hq
      rw [mem_blocked] at hq
      exact ⟨List.mem_append_left held hq.1, hq.2⟩
  avoids := h.avoids.mono (List.subset_append_right rs held)
  lines := by
    obtain ⟨inner, hbalanced, hlines⟩ := h.exists_inner
    exact ⟨_, hlines, hbalanced.bracket (saved rs a)⟩

end Tidy

theorem firstFree_notMem_held (hheld : ∀ q ∈ held, q ∈ a.busy) (hfree : a.firstFree? = some r) :
    r ∉ held :=
  fun hr => (Assembly.firstFree?_eq_some hfree).2 (hheld r hr)

theorem Tidy.write {l : Line} (hl : l.usesStack = false) : Tidy held a [] (a.write l) where
  busy := rfl
  avoids := (Tidy.refl held a).avoids
  lines := ⟨[l], by simp [Assembly.write], .single hl⟩

theorem Tidy.acquire (hheld : ∀ q ∈ held, q ∈ a.busy) (hfree : a.firstFree? = some r) :
    Tidy held a [.taken r] (a.occupy r) where
  busy := by
    ext q
    simp [Change.applyAll, Change.apply, or_comm]
  avoids := by
    simp only [Change.Avoid, List.mem_singleton, forall_eq, Change.registers]
    exact firstFree_notMem_held hheld hfree
  lines := ⟨[], by simp, .nil⟩

theorem Tidy.release (hapart : ∀ q ∈ rs, q ∉ held) : Tidy held a [.freed rs] (a.release rs) where
  busy := by
    ext q
    simp [Change.applyAll, Change.apply]
  avoids := by simpa [Change.Avoid, Change.registers] using hapart
  lines := ⟨[], by simp, .nil⟩

theorem held_occupy (hheld : ∀ q ∈ held, q ∈ a.busy) (r : Register) :
    ∀ q ∈ r :: held, q ∈ (a.occupy r).busy := by
  intro q hq
  rw [Assembly.mem_busy_occupy]
  rcases List.mem_cons.1 hq with rfl | hq
  · exact .inr rfl
  · exact .inl (hheld q hq)

theorem held_reservedFor (hheld : ∀ q ∈ held, q ∈ a.busy) (rs : List Register) :
    ∀ q ∈ rs ++ held, q ∈ (reservedFor rs a).busy := by
  intro q hq
  rw [mem_busy_reservedFor]
  rcases List.mem_append.1 hq with hq | hq
  · exact .inr hq
  · exact .inl (hheld q hq)

mutual

/-- A step is tidy about what the steps around it lend. -/
theorem run_tidy (act : ι → Emit ρ) (step : Step ι) (held : List Register) (a : Assembly)
    (hheld : ∀ q ∈ held, q ∈ a.busy) (x : Answer ρ) (b : Assembly)
    (hrun : run act step a = .ok x b) (hrespects : respects held step x = true) :
    Tidy held a (changes step x) b := by
  cases step with
  | acquire =>
      obtain ⟨r, hfree, rfl, rfl⟩ := run_acquire_eq_ok.1 hrun
      exact .acquire hheld hfree
  | release rs =>
      obtain ⟨rfl, rfl⟩ := run_release_eq_ok.1 hrun
      apply Tidy.release
      simpa [respects] using hrespects
  | isBusy r =>
      cases hrun
      exact .refl held a
  | live =>
      cases hrun
      exact .refl held a
  | write l =>
      obtain ⟨rfl, rfl⟩ := run_write_eq_ok.1 hrun
      apply Tidy.write
      simpa [respects] using hrespects
  | fail text => cases hrun
  | withScratch body =>
      obtain ⟨r, answers, c, hfree, hbody, rfl, rfl⟩ := run_withScratch_eq_ok.1 hrun
      apply Tidy.scratch hfree
      exact runAll_tidy act body (r :: held) (a.occupy r) (held_occupy hheld r) answers c hbody
        hrespects
  | reserving rs body =>
      obtain ⟨answers, c, hbody, rfl, rfl⟩ := run_reserving_eq_ok.1 hrun
      apply Tidy.reservation
      exact runAll_tidy act body (rs ++ held) (reservedFor rs a) (held_reservedFor hheld rs)
        answers c hbody hrespects
  | other i => cases hrespects

theorem runAll_tidy (act : ι → Emit ρ) (steps : List (Step ι)) (held : List Register)
    (a : Assembly) (hheld : ∀ q ∈ held, q ∈ a.busy) (answers : List (Answer ρ)) (b : Assembly)
    (hrun : runAll act steps a = .ok answers b)
    (hrespects : respectsAll held steps answers = true) :
    Tidy held a (changesAll steps answers) b := by
  cases steps with
  | nil =>
      cases hrun
      exact .refl held a
  | cons step steps =>
      obtain ⟨x, c, xs, hstep, hsteps, rfl⟩ := runAll_cons_eq_ok.1 hrun
      simp only [respectsAll, Bool.and_eq_true] at hrespects
      have htidy := run_tidy act step held a hheld x c hstep hrespects.1
      exact htidy.trans
        (runAll_tidy act steps held c (htidy.held_busy hheld) xs b hsteps hrespects.2)

end

/-- While steps run from an assembly, and the steps around them lend some registers, a step comes
to start in an assembly, and the steps around it lend some registers. -/
inductive Starts (act : ι → Emit ρ) :
    List Register → List (Step ι) → Assembly → List Register → Step ι → Assembly → Prop
  | here {held : List Register} {step : Step ι} {steps : List (Step ι)} {a : Assembly} :
      Starts act held (step :: steps) a held step a
  | later {held held' : List Register} {step s : Step ι} {steps : List (Step ι)}
      {a b c : Assembly} {x : Answer ρ} (hrun : run act step a = .ok x b)
      (hstart : Starts act held steps b held' s c) : Starts act held (step :: steps) a held' s c
  | scratch {held held' : List Register} {r : Register} {s : Step ι}
      {body steps : List (Step ι)} {a c : Assembly} (hfree : a.firstFree? = some r)
      (hstart : Starts act (r :: held) body (a.occupy r) held' s c) :
      Starts act held (.withScratch body :: steps) a held' s c
  | reserved {held held' rs : List Register} {s : Step ι} {body steps : List (Step ι)}
      {a c : Assembly} (hstart : Starts act (rs ++ held) body (reservedFor rs a) held' s c) :
      Starts act held (.reserving rs body :: steps) a held' s c

/-- A step that starts in a run without errors finds in use what is lent to it, and succeeds. -/
theorem Starts.run (hstart : Starts act held steps a held' step c)
    (hheld : ∀ q ∈ held, q ∈ a.busy) (hrun : runAll act steps a = .ok answers b)
    (hrespects : respectsAll held steps answers = true) :
    (∀ q ∈ held', q ∈ c.busy) ∧
      ∃ x d, run act step c = .ok x d ∧ respects held' step x = true := by
  induction hstart generalizing answers b with
  | here =>
      obtain ⟨x, d, xs, hstep, -, rfl⟩ := runAll_cons_eq_ok.1 hrun
      simp only [respectsAll, Bool.and_eq_true] at hrespects
      exact ⟨hheld, x, d, hstep, hrespects.1⟩
  | later hrun' hstart ih =>
      obtain ⟨x, d, xs, hstep, hsteps, rfl⟩ := runAll_cons_eq_ok.1 hrun
      rw [hstep] at hrun'
      cases hrun'
      simp only [respectsAll, Bool.and_eq_true] at hrespects
      have htidy := run_tidy act _ _ _ hheld _ _ hstep hrespects.1
      exact ih (htidy.held_busy hheld) hsteps hrespects.2
  | scratch hfree hstart ih =>
      obtain ⟨x, d, xs, hstep, -, rfl⟩ := runAll_cons_eq_ok.1 hrun
      obtain ⟨r, answers, d, hfree', hbody, rfl, rfl⟩ := run_withScratch_eq_ok.1 hstep
      rw [hfree] at hfree'
      cases hfree'
      simp only [respectsAll, Bool.and_eq_true] at hrespects
      exact ih (held_occupy hheld _) hbody hrespects.1
  | reserved hstart ih =>
      obtain ⟨x, d, xs, hstep, -, rfl⟩ := runAll_cons_eq_ok.1 hrun
      obtain ⟨answers, d, hbody, rfl, rfl⟩ := run_reserving_eq_ok.1 hstep
      simp only [respectsAll, Bool.and_eq_true] at hrespects
      exact ih (held_reservedFor hheld _) hbody hrespects.1

end Step

/-- Let a script run without errors, in which no step frees a register that a step around it
lends.  Each register that is acquired, for good or as scratch, is the first of the pool not in
use, and no step around lends it.  A reservation saves exactly those of its registers that are in
use, around balanced lines, and restores them in the opposite order.  Behind a step that lends
registers those in use have changed by the plain acquisitions and releases inside it alone. -/
theorem register_discipline {ι ρ : Type} {act : ι → Emit ρ} {steps : List (Step ι)}
    {answers : List (Answer ρ)} {a b : Assembly} (hrun : Step.runAll act steps a = .ok answers b)
    (hrespects : Step.respectsAll [] steps answers = true) :
    (∀ held c, Step.Starts act [] steps a held .acquire c →
      ∃ r d, Step.run act .acquire c = .ok (.register r) d ∧
        Register.pool.find? (· ∉ c.busy) = some r ∧ r ∉ held ∧
        d.busy.toFinset = insert r c.busy.toFinset ∧ d.lines = c.lines) ∧
    (∀ held body c, Step.Starts act [] steps a held (.withScratch body) c →
      ∃ r inside d, Step.run act (.withScratch body) c = .ok (.temporary r inside) d ∧
        Register.pool.find? (· ∉ c.busy) = some r ∧ r ∉ held ∧
        d.busy.toFinset = Change.applyAll (Step.changesAll body inside) c.busy.toFinset) ∧
    (∀ held rs body c, Step.Starts act [] steps a held (.reserving rs body) c →
      ∃ inside d inner, Step.run act (.reserving rs body) c = .ok (.reserved inside) d ∧
        Line.Balanced inner ∧
        d.lines = c.lines ++ ((rs.filter (· ∈ c.busy)).map (Line.instr <| .push ·) ++ inner ++
          (rs.filter (· ∈ c.busy)).reverse.map (Line.instr <| .pop ·)).toArray ∧
        d.busy.toFinset = Change.applyAll (Step.changesAll body inside) c.busy.toFinset) ∧
    ∃ code, b.lines = a.lines ++ code.toArray ∧ Line.Balanced code := by
  have hnone : ∀ q ∈ ([] : List Register), q ∈ a.busy := by simp
  refine ⟨?_, ?_, ?_, (Step.runAll_tidy act steps [] a hnone answers b hrun hrespects).lines⟩
  · intro held c hstart
    obtain ⟨hheld, x, d, hstep, hx⟩ := hstart.run hnone hrun hrespects
    have htidy := Step.run_tidy act _ held c hheld x d hstep hx
    obtain ⟨r, hfree, rfl, rfl⟩ := Step.run_acquire_eq_ok.1 hstep
    refine ⟨r, _, hstep, ?_, Step.firstFree_notMem_held hheld hfree, htidy.busy, by simp⟩
    simpa [Assembly.firstFree?] using hfree
  · intro held body c hstart
    obtain ⟨hheld, x, d, hstep, hx⟩ := hstart.run hnone hrun hrespects
    have htidy := Step.run_tidy act _ held c hheld x d hstep hx
    obtain ⟨r, inside, d, hfree, hbody, rfl, rfl⟩ := Step.run_withScratch_eq_ok.1 hstep
    refine ⟨r, inside, _, hstep, ?_, Step.firstFree_notMem_held hheld hfree, htidy.busy⟩
    simpa [Assembly.firstFree?] using hfree
  · intro held rs body c hstart
    obtain ⟨hheld, x, d, hstep, hx⟩ := hstart.run hnone hrun hrespects
    have htidy := Step.run_tidy act _ held c hheld x d hstep hx
    obtain ⟨inside, d, hbody, rfl, rfl⟩ := Step.run_reserving_eq_ok.1 hstep
    have hinside := Step.runAll_tidy act body (rs ++ held) (Step.reservedFor rs c)
      (Step.held_reservedFor hheld rs) inside d hbody hx
    obtain ⟨inner, hbalanced, hlines⟩ := hinside.exists_inner
    refine ⟨inside, _, inner, hstep, hbalanced, ?_, htidy.busy⟩
    simpa [saved] using hlines

/-- Reservations inside each other, with a register listed twice and one that both list. -/
def nestedSteps : List (Step Empty) :=
  [.acquire,
    .reserving [.rdx, .r8, .r8]
      [.acquire, .withScratch [.reserving [.rdx, .r10] [.release [.r9], .acquire]]],
    .release [.r10]]

theorem register_discipline_nested :
    let act : Empty → Emit Empty := Empty.elim
    let start : Assembly := { busy := [.r8, .rbx] }
    ∃ answers b, Step.runAll act nestedSteps start = .ok answers b ∧
      Step.respectsAll [] nestedSteps answers = true ∧
      ∃ held c inside d inner,
        Step.Starts act [] nestedSteps start held
          (.reserving [.rdx, .r10] [.release [.r9], .acquire]) c ∧
        Step.run act (.reserving [.rdx, .r10] [.release [.r9], .acquire]) c =
          .ok (.reserved inside) d ∧
        Line.Balanced inner ∧
        d.lines = c.lines ++ ([Line.instr (.push .rdx), .instr (.push .r10)] ++ inner ++
          [Line.instr (.pop .r10), .instr (.pop .rdx)]).toArray := by
  intro act start
  have hruns : (match Step.runAll act nestedSteps start with
      | .ok answers _ => Step.respectsAll [] nestedSteps answers
      | .error .. => false) = true := by decide +kernel
  cases hrun : Step.runAll act nestedSteps start with
  | error => simp [hrun] at hruns
  | ok answers b =>
  have hrespects : Step.respectsAll [] nestedSteps answers = true := by simpa [hrun] using hruns
  have hinner : Step.Starts act [] nestedSteps start _
      (.reserving [.rdx, .r10] [.release [.r9], .acquire]) _ :=
    .later rfl (.reserved (.later rfl (.scratch rfl .here)))
  obtain ⟨inside, d, inner, hstep, hbalanced, hlines, -⟩ :=
    (register_discipline hrun hrespects).2.2.1 _ _ _ _ hinner
  exact ⟨answers, b, rfl, hrespects, _, _, inside, d, inner, hinner, hstep, hbalanced, hlines⟩

end Emit

end Tern
