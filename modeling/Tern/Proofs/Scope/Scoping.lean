import Mathlib
import Tern.Scope

/-!
# Lexical scoping

A run opens and closes scopes, declares entities and looks names up.  What a name stands for is
said here from the run alone: which declarations were accepted, and which of their scopes are
still open.  Lookups find the innermost of these, after every run.
-/

namespace Tern.Scopes

inductive Action where
  | push
  | pop
  | declare (e : Entity)
  | lookup (name : String)
  deriving DecidableEq

inductive Answer where
  | done
  | fault (f : Fault)
  | declared (isNew : Bool)
  | found (e : Option Entity)
  deriving DecidableEq

/-- An operation that is refused leaves the scopes as they are. -/
def step (s : Scopes) : Action → Answer × Scopes
  | .push => (.done, s.push)
  | .pop => (if s.pop?.isSome then .done else .fault .globalScopePopped, s.pop?.getD s)
  | .declare e => (.declared (s.declare? e).isSome, (s.declare? e).getD s)
  | .lookup name => (.found (s.lookup name), s)

def after (s : Scopes) (as : List Action) : Scopes := as.foldl (fun s a => (s.step a).2) s

def ofRun (globals : List Entity) (as : List Action) : Scopes := (ofGlobals globals).after as

/-! ## Bindings of a run -/

/-- How many inner scopes are open behind an operation, if `n` were open in front of it. -/
def Action.nest : Action → Nat → Nat
  | .push, n => n + 1
  | .pop, n => n - 1
  | .declare _, n | .lookup _, n => n

def nesting (as : List Action) : Nat := as.foldl (fun n a => a.nest n) 0

/-- Where an entity got its name: in the list of globals, or in the run. -/
inductive Origin where
  | global (i : Nat)
  | action (i : Nat)
  deriving DecidableEq

/-- Behind the run `as` the entity has its name from `Origin`, in an open scope with that many
scopes around it.  Of the globals with one name the last counts; a declaration counts if it was
accepted and its scope was not closed since. -/
inductive Binds (globals : List Entity) (as : List Action) : Origin → Nat → Entity → Prop where
  | global {front back : List Entity} {e : Entity} (h : globals = front ++ e :: back)
      (hlast : ∀ e' ∈ back, e'.name ≠ e.name) : Binds globals as (.global front.length) 0 e
  | declared {front back : List Action} {e : Entity} (h : as = front ++ .declare e :: back)
      (hnew : ((ofRun globals front).step (.declare e)).1 = .declared true)
      (hopen : ∀ run, run <+: back → nesting front ≤ nesting (front ++ .declare e :: run)) :
      Binds globals as (.action front.length) (nesting front) e

section

variable {s : Scopes} {globals : List Entity} {as : List Action} {a : Action} {o o' : Origin}
  {n : Nat} {e e' : Entity} {name : String}

theorem after_concat (s : Scopes) (as : List Action) (a : Action) :
    s.after (as ++ [a]) = ((s.after as).step a).2 := by
  simp [after]

theorem ofRun_concat (globals : List Entity) (as : List Action) (a : Action) :
    ofRun globals (as ++ [a]) = ((ofRun globals as).step a).2 := after_concat _ as a

theorem nesting_concat (as : List Action) (a : Action) :
    nesting (as ++ [a]) = a.nest (nesting as) := by
  simp [nesting]

theorem Binds.le_nesting (h : Binds globals as o n e) : n ≤ nesting as := by
  cases h with
  | global => exact Nat.zero_le _
  | declared h _ hopen =>
      rw [h]
      exact hopen _ List.prefix_rfl

theorem binds_level {n' : Nat} (h : Binds globals as o n e) (h' : Binds globals as o n' e') :
    n = n' := by
  cases h with
  | @global front =>
      generalize ho : Origin.global front.length = o at h'
      cases h' with
      | global => rfl
      | declared => cases ho
  | @declared front back _ h =>
      generalize ho : Origin.action front.length = o at h'
      cases h' with
      | global => cases ho
      | @declared front' back' _ h' =>
          have hlength : front.length = front'.length := Origin.action.inj ho
          rw [(List.append_inj (h.symm.trans h') hlength).1]

/-- One more operation keeps the bindings of the scopes that stay open, and an accepted
declaration adds its own. -/
theorem binds_concat : Binds globals (as ++ [a]) o n e ↔
    (Binds globals as o n e ∧ n ≤ nesting (as ++ [a])) ∨
      (a = .declare e ∧ ((ofRun globals as).step a).1 = .declared true ∧
        o = .action as.length ∧ n = nesting as) := by
  constructor
  · intro h
    have hle := h.le_nesting
    cases h with
    | global h hlast => exact .inl ⟨.global h hlast, hle⟩
    | @declared front back _ h hnew hopen =>
        rcases back.eq_nil_or_concat with rfl | ⟨back, last, rfl⟩
        · obtain ⟨rfl, ha⟩ := List.append_inj' h rfl
          obtain rfl : a = .declare e := by simpa using ha
          exact .inr ⟨rfl, hnew, rfl, rfl⟩
        · rw [List.concat_eq_append, ← List.cons_append, ← List.append_assoc] at h
          obtain ⟨rfl, ha⟩ := List.append_inj' h rfl
          refine .inl ⟨.declared rfl hnew fun run hrun => hopen run ?_, hle⟩
          exact hrun.trans (List.concat_eq_append ▸ List.prefix_append _ _)
  · rintro (⟨h, hle⟩ | ⟨rfl, hnew, rfl, rfl⟩)
    · cases h with
      | global h hlast => exact .global h hlast
      | @declared front back _ h hnew hopen =>
          subst h
          rw [List.append_assoc, List.cons_append] at hle ⊢
          refine .declared rfl hnew fun run hrun => ?_
          rcases List.prefix_concat_iff.1 hrun with rfl | hrun
          · exact hle
          · exact hopen run hrun
    · refine .declared rfl hnew fun run hrun => ?_
      obtain rfl := List.prefix_nil.1 hrun
      rw [nesting_concat]
      exact Nat.le_refl _

/-! ## What scopes hold -/

/-- What the scope with `n` scopes around it has under a name; the outermost comes first. -/
def findIn (levels : List Scope) (n : Nat) (name : String) : Option Entity :=
  levels[n]?.bind fun scope => scope.find? name

theorem findIn_concat {levels : List Scope} {scope : Scope} :
    findIn (levels ++ [scope]) n name = some e ↔
      findIn levels n name = some e ∨ (n = levels.length ∧ scope.find? name = some e) := by
  unfold findIn
  rcases Nat.lt_trichotomy n levels.length with hn | rfl | hn
  · rw [List.getElem?_append_left hn]
    simp [Nat.ne_of_lt hn]
  · simp
  · rw [List.getElem?_eq_none (by simp; omega), List.getElem?_eq_none (Nat.le_of_lt hn)]
    simp [Nat.ne_of_gt hn]

theorem lt_of_findIn {levels : List Scope} (h : findIn levels n name = some e) :
    n < levels.length := by
  obtain ⟨scope, hscope, -⟩ := Option.bind_eq_some_iff.1 h
  exact (List.getElem?_eq_some_iff.1 hscope).1

/-- The open scopes, the global one first. -/
def levels (s : Scopes) : List Scope := s.globals :: s.inner.reverse

def findAt (s : Scopes) (n : Nat) (name : String) : Option Entity := findIn s.levels n name

theorem length_levels (s : Scopes) : s.levels.length = s.inner.length + 1 := by
  simp [levels]

theorem levels_mapInnermost (s : Scopes) : ∃ outer, outer.length = s.inner.length ∧
    s.levels = outer ++ [s.innermost] ∧
      ∀ f, (s.mapInnermost f).levels = outer ++ [f s.innermost] := by
  unfold levels innermost mapInnermost
  cases s.inner with
  | nil => exact ⟨[], rfl, rfl, fun f => rfl⟩
  | cons scope outer => exact ⟨s.globals :: outer.reverse, by simp, by simp, by simp⟩

theorem le_of_findAt (h : s.findAt n name = some e) : n ≤ s.inner.length := by
  have hlt := lt_of_findIn h
  rw [length_levels] at hlt
  omega

theorem name_of_findAt (h : s.findAt n name = some e) : e.name = name := by
  obtain ⟨scope, -, hfind⟩ := Option.bind_eq_some_iff.1 h
  simpa using List.find?_some hfind

theorem findAt_innermost (s : Scopes) (name : String) :
    s.findAt s.inner.length name = s.innermost.find? name := by
  obtain ⟨outer, hlength, hlevels, -⟩ := s.levels_mapInnermost
  simp [findAt, findIn, hlevels, ← hlength]

theorem findAt_push : s.push.findAt n name = some e ↔ s.findAt n name = some e := by
  have hlevels : s.push.levels = s.levels ++ [[]] := by simp [push, levels]
  rw [findAt, hlevels, findIn_concat]
  simp [findAt, Scope.find?]

theorem findAt_pop {outer : Scopes} (h : s.pop? = some outer) :
    outer.findAt n name = some e ↔ s.findAt n name = some e ∧ n ≤ outer.inner.length := by
  obtain ⟨scope, hlevels⟩ : ∃ scope, s.levels = outer.levels ++ [scope] := by
    unfold pop? at h
    cases hinner : s.inner with
    | nil => simp [hinner] at h
    | cons scope inner =>
        simp only [hinner, Option.some.injEq] at h
        subst h
        exact ⟨scope, by simp [levels, hinner]⟩
  have hconcat : s.findAt n name = some e ↔ outer.findAt n name = some e ∨
      (n = outer.levels.length ∧ scope.find? name = some e) := by
    rw [findAt, hlevels, findIn_concat]
    rfl
  rw [hconcat]
  constructor
  · exact fun hfind => ⟨.inl hfind, le_of_findAt hfind⟩
  · rintro ⟨hfind | ⟨rfl, -⟩, hle⟩
    · exact hfind
    · rw [length_levels] at hle
      omega

theorem length_pop (s : Scopes) : (s.pop?.getD s).inner.length = s.inner.length - 1 := by
  unfold pop?
  cases hinner : s.inner with
  | nil => simp [hinner]
  | cons scope outer => simp

theorem findAt_declare {larger : Scopes} (h : s.declare? e' = some larger) :
    larger.findAt n name = some e ↔
      s.findAt n name = some e ∨ (e' = e ∧ e.name = name ∧ n = s.inner.length) := by
  obtain ⟨hnone, rfl⟩ := declare?_eq_some h
  obtain ⟨outer, hlength, hlevels, hmap⟩ := s.levels_mapInnermost
  rw [findAt, findAt, hmap, hlevels, findIn_concat, findIn_concat, Scope.find?_cons, hlength]
  by_cases hname : e'.name = name
  · subst hname
    rw [if_pos rfl, hnone]
    constructor
    · rintro (hfind | ⟨hn, he⟩)
      · exact .inl (.inl hfind)
      · obtain rfl := Option.some.inj he
        exact .inr ⟨rfl, rfl, hn⟩
    · rintro ((hfind | ⟨-, he⟩) | ⟨rfl, -, hn⟩)
      · exact .inl hfind
      · cases he
      · exact .inr ⟨hn, rfl⟩
  · rw [if_neg hname]
    constructor
    · exact .inl
    · rintro (hfind | ⟨rfl, hname', -⟩)
      · exact hfind
      · exact absurd hname' hname

theorem findAt_step : (s.step a).2.findAt n name = some e ↔
    (s.findAt n name = some e ∧ n ≤ a.nest s.inner.length) ∨
      (a = .declare e ∧ (s.step a).1 = .declared true ∧ e.name = name ∧ n = s.inner.length) := by
  have hle : s.findAt n name = some e → n ≤ s.inner.length := le_of_findAt
  have hstay : s.findAt n name = some e ↔ s.findAt n name = some e ∧ n ≤ s.inner.length :=
    ⟨fun h => ⟨h, hle h⟩, fun h => h.1⟩
  cases a with
  | push =>
      simp only [step, findAt_push, Action.nest, reduceCtorEq, false_and, or_false]
      exact ⟨fun h => ⟨h, Nat.le_succ_of_le (hle h)⟩, fun h => h.1⟩
  | pop =>
      simp only [step, Action.nest, reduceCtorEq, false_and, or_false]
      rw [← length_pop]
      cases hpop : s.pop? with
      | none => exact hstay
      | some outer => exact findAt_pop hpop
  | declare e' =>
      simp only [step, Action.nest, Action.declare.injEq]
      cases hdeclare : s.declare? e' with
      | none => simpa using hle
      | some larger =>
          simp only [Option.getD_some, Option.isSome_some, true_and, findAt_declare hdeclare]
          exact or_congr_left hstay
  | lookup name' =>
      simp only [step, Action.nest, reduceCtorEq, false_and, or_false]
      exact hstay

theorem length_step (s : Scopes) (a : Action) :
    (s.step a).2.inner.length = a.nest s.inner.length := by
  cases a with
  | push => rfl
  | pop => exact s.length_pop
  | declare e =>
      simp only [step, Action.nest]
      cases hdeclare : s.declare? e with
      | none => rfl
      | some larger =>
          obtain ⟨-, rfl⟩ := declare?_eq_some hdeclare
          simp only [Option.getD_some, mapInnermost]
          cases s.inner <;> rfl
  | lookup name => rfl

/-! ## Runs -/

theorem length_ofRun (globals : List Entity) (as : List Action) :
    (ofRun globals as).inner.length = nesting as := by
  induction as using List.reverseRecOn with
  | nil => rfl
  | append_singleton as a ih => rw [ofRun_concat, length_step, nesting_concat, ih]

theorem findAt_ofGlobals : (ofGlobals globals).findAt n name = some e ↔
    e.name = name ∧ ∃ o, Binds globals [] o n e := by
  constructor
  · intro h
    have hname := name_of_findAt h
    obtain rfl : n = 0 := Nat.le_zero.1 (le_of_findAt h)
    refine ⟨hname, ?_⟩
    obtain ⟨-, back, front, hglobals, hback⟩ := List.find?_eq_some_iff_append.1 h
    change globals.reverse = _ at hglobals
    have hsplit : globals = front.reverse ++ e :: back.reverse := by
      rw [← List.reverse_inj, hglobals]
      simp
    refine ⟨_, .global hsplit fun e' he' => ?_⟩
    simpa [hname] using hback e' (List.mem_reverse.1 he')
  · rintro ⟨rfl, o, h⟩
    cases h with
    | @global front back _ h hlast =>
        refine List.find?_eq_some_iff_append.2 ⟨by simp, back.reverse, front.reverse, ?_, ?_⟩
        · simp [h, ofGlobals]
        · simpa using hlast
    | declared h => simp at h

/-- The scopes behind a run hold its bindings: by induction along the run, one operation does to
both the same. -/
theorem findAt_ofRun : (ofRun globals as).findAt n name = some e ↔
    e.name = name ∧ ∃ o, Binds globals as o n e := by
  induction as using List.reverseRecOn generalizing n e with
  | nil => exact findAt_ofGlobals
  | append_singleton as a ih =>
      rw [ofRun_concat, findAt_step, ih, length_ofRun, ← nesting_concat]
      simp only [binds_concat]
      constructor
      · rintro (⟨⟨hname, o, h⟩, hle⟩ | ⟨ha, hnew, hname, hn⟩)
        · exact ⟨hname, o, .inl ⟨h, hle⟩⟩
        · exact ⟨hname, _, .inr ⟨ha, hnew, rfl, hn⟩⟩
      · rintro ⟨hname, o, ⟨h, hle⟩ | ⟨ha, hnew, -, hn⟩⟩
        · exact .inl ⟨⟨hname, o, h⟩, hle⟩
        · exact .inr ⟨ha, hnew, hname, hn⟩

theorem declared_eq_true :
    (s.step (.declare e)).1 = .declared true ↔ s.findAt s.inner.length e.name = none := by
  rw [findAt_innermost]
  simp only [step, declare?, Answer.declared.injEq]
  cases s.innermost.find? e.name <;> simp

theorem binds_nil_unique {n' : Nat} (h : Binds globals [] o n e) (h' : Binds globals [] o' n' e')
    (hname : e.name = e'.name) : o = o' := by
  cases h with
  | declared h => simp at h
  | @global front back _ h hlast =>
      cases h' with
      | declared h' => simp at h'
      | @global front' back' _ h' hlast' =>
          have hsame : front ++ e :: back = front' ++ e' :: back' := h.symm.trans h'
          rcases List.append_eq_append_iff.1 hsame with ⟨mid, rfl, hmid⟩ | ⟨mid, rfl, hmid⟩
          · cases mid with
            | nil => simp
            | cons x mid =>
                obtain ⟨rfl, rfl⟩ := List.cons.inj hmid
                exact absurd hname.symm (hlast e' (by simp))
          · cases mid with
            | nil => simp
            | cons x mid =>
                obtain ⟨rfl, rfl⟩ := List.cons.inj hmid
                exact absurd hname (hlast' e (by simp))

/-- In one scope a name has one origin: a second declaration is not accepted. -/
theorem binds_unique (h : Binds globals as o n e) (h' : Binds globals as o' n e')
    (hname : e.name = e'.name) : o = o' := by
  induction as using List.reverseRecOn generalizing o o' n e e' with
  | nil => exact binds_nil_unique h h' hname
  | append_singleton as a ih =>
      -- What is declared anew has no older binding of its name in the same scope.
      have hclash : ∀ {o : Origin} {e e' : Entity}, Binds globals as o (nesting as) e →
          ((ofRun globals as).step (.declare e')).1 = .declared true →
          e.name ≠ e'.name := by
        intro o e e' h hnew hname
        rw [declared_eq_true, length_ofRun] at hnew
        rw [findAt_ofRun.2 ⟨hname, o, h⟩] at hnew
        cases hnew
      rcases binds_concat.1 h with ⟨hold, -⟩ | ⟨rfl, hnew, rfl, rfl⟩
      · rcases binds_concat.1 h' with ⟨hold', -⟩ | ⟨rfl, hnew, rfl, rfl⟩
        · exact ih hold hold' hname
        · exact absurd hname (hclash hold hnew)
      · rcases binds_concat.1 h' with ⟨hold', -⟩ | ⟨-, -, rfl, -⟩
        · exact absurd hname.symm (hclash hold' hnew)
        · rfl

theorem lookup_eq_none_iff : s.lookup name = none ↔ ∀ n, s.findAt n name = none := by
  have hlookup : s.lookup name = s.levels.reverse.findSome? fun scope => scope.find? name := by
    simp [lookup, levels]
  rw [hlookup, List.findSome?_eq_none_iff]
  simp only [List.mem_reverse, findAt, findIn, Option.bind_eq_none_iff]
  constructor
  · exact fun h n scope hscope => h scope (List.mem_of_getElem? hscope)
  · intro h scope hscope
    obtain ⟨n, hn⟩ := List.getElem?_of_mem hscope
    exact h n scope hn

theorem lookup_eq_some_iff : s.lookup name = some e ↔
    ∃ n, s.findAt n name = some e ∧ ∀ m, n < m → s.findAt m name = none := by
  have hlookup : s.lookup name = s.levels.reverse.findSome? fun scope => scope.find? name := by
    simp [lookup, levels]
  rw [hlookup]
  unfold findAt
  -- Scope by scope, the innermost last.
  induction s.levels using List.reverseRecOn with
  | nil => simp [findIn]
  | append_singleton outer scope ih =>
      rw [List.reverse_concat, List.findSome?_cons]
      have houter : ∀ n, findIn outer n name = none → scope.find? name = none →
          findIn (outer ++ [scope]) n name = none := by
        intro n hn hscope
        rw [Option.eq_none_iff_forall_ne_some]
        intro e' he'
        rcases findIn_concat.1 he' with h | ⟨-, h⟩
        · rw [hn] at h
          cases h
        · rw [hscope] at h
          cases h
      cases hscope : scope.find? name with
      | some e' =>
          simp only [Option.some.injEq]
          constructor
          · rintro rfl
            refine ⟨outer.length, findIn_concat.2 (.inr ⟨rfl, hscope⟩), fun m hm => ?_⟩
            simp [findIn, List.getElem?_eq_none, Nat.succ_le_of_lt hm]
          · rintro ⟨n, hn, hlast⟩
            rcases findIn_concat.1 hn with h | ⟨-, h⟩
            · have hnone := hlast outer.length (lt_of_findIn h)
              rw [findIn_concat.2 (.inr ⟨rfl, hscope⟩)] at hnone
              cases hnone
            · exact Option.some.inj (hscope.symm.trans h)
      | none =>
          simp only [ih]
          refine exists_congr fun n => and_congr ?_
            (forall_congr' fun m => imp_congr_right fun _ => ?_)
          · simp [findIn_concat, hscope]
          · constructor
            · exact fun h => houter m h hscope
            · intro h
              rw [Option.eq_none_iff_forall_ne_some] at h ⊢
              exact fun e' he' => h e' (findIn_concat.2 (.inl he'))

theorem lookup_ofRun_eq_none : (ofRun globals as).lookup name = none ↔
    ∀ o n e, Binds globals as o n e → e.name ≠ name := by
  rw [lookup_eq_none_iff]
  constructor
  · intro h o n e hbinds hname
    have hfind := findAt_ofRun.2 ⟨hname, o, hbinds⟩
    rw [h n] at hfind
    cases hfind
  · intro h n
    rw [Option.eq_none_iff_forall_ne_some]
    intro e hfind
    obtain ⟨hname, o, hbinds⟩ := findAt_ofRun.1 hfind
    exact h o n e hbinds hname

theorem lookup_ofRun_eq_some : (ofRun globals as).lookup name = some e ↔
    e.name = name ∧ ∃ o n, Binds globals as o n e ∧
      ∀ o' n' e', Binds globals as o' n' e' → e'.name = name → o' = o ∨ n' < n := by
  rw [lookup_eq_some_iff]
  constructor
  · rintro ⟨n, hfind, hlast⟩
    obtain ⟨hname, o, hbinds⟩ := findAt_ofRun.1 hfind
    refine ⟨hname, o, n, hbinds, fun o' n' e' hbinds' hname' => ?_⟩
    have hfind' := findAt_ofRun.2 ⟨hname', o', hbinds'⟩
    rcases Nat.lt_trichotomy n' n with hlt | rfl | hgt
    · exact .inr hlt
    · exact .inl (binds_unique hbinds' hbinds (hname'.trans hname.symm))
    · rw [hlast n' hgt] at hfind'
      cases hfind'
  · rintro ⟨hname, o, n, hbinds, hinner⟩
    refine ⟨n, findAt_ofRun.2 ⟨hname, o, hbinds⟩, fun m hm => ?_⟩
    rw [Option.eq_none_iff_forall_ne_some]
    intro e' hfind'
    obtain ⟨hname', o', hbinds'⟩ := findAt_ofRun.1 hfind'
    rcases hinner o' m e' hbinds' hname' with rfl | hlt
    · exact absurd (binds_level hbinds' hbinds) (Nat.ne_of_gt hm)
    · omega

/-! ## Refused operations -/

theorem declare_refused : ((ofRun globals as).step (.declare e)).1 = .declared false ↔
    ∃ o e', Binds globals as o (nesting as) e' ∧ e'.name = e.name := by
  have hanswer : ((ofRun globals as).step (.declare e)).1 = .declared false ↔
      (ofRun globals as).findAt (nesting as) e.name ≠ none := by
    rw [← length_ofRun globals, ne_eq, ← declared_eq_true]
    simp [step]
  rw [hanswer, Option.ne_none_iff_exists']
  simp only [findAt_ofRun]
  constructor
  · rintro ⟨e', hname, o, hbinds⟩
    exact ⟨o, e', hbinds, hname⟩
  · rintro ⟨o, e', hbinds, hname⟩
    exact ⟨e', hname, o, hbinds⟩

theorem pop_refused : ((ofRun globals as).step .pop).1 = .fault .globalScopePopped ↔
    nesting as = 0 := by
  rw [← length_ofRun globals, step, pop?]
  cases (ofRun globals as).inner with
  | nil => simp
  | cons scope outer => simp

theorem step_refused (h : (s.step a).1 = .declared false ∨
    (s.step a).1 = .fault .globalScopePopped) : (s.step a).2 = s := by
  cases a with
  | push | lookup name => simp [step] at h
  | pop =>
      simp only [step] at h ⊢
      cases hpop : s.pop? with
      | none => rfl
      | some outer => simp [hpop] at h
  | declare e =>
      simp only [step] at h ⊢
      cases hdeclare : s.declare? e with
      | none => rfl
      | some larger => simp [hdeclare] at h

/-! ## Leaving a scope -/

/-- The scopes of `t` are those of `s` and at least one more inside. -/
def Above (s t : Scopes) : Prop :=
  ∃ scope inner, t = { s with inner := scope :: inner ++ s.inner }

theorem Above.step {t : Scopes} (h : s.Above t) (hdepth : s.depth < (t.step a).2.depth) :
    s.Above (t.step a).2 := by
  obtain ⟨scope, inner, rfl⟩ := h
  cases a with
  | push => exact ⟨[], scope :: inner, rfl⟩
  | pop =>
      cases inner with
      | nil => exact absurd hdepth (Nat.lt_irrefl _)
      | cons scope' inner => exact ⟨scope', inner, rfl⟩
  | declare e =>
      simp only [Scopes.step]
      cases hdeclare : declare? { s with inner := scope :: inner ++ s.inner } e with
      | none => exact ⟨scope, inner, rfl⟩
      | some larger =>
          obtain ⟨-, rfl⟩ := declare?_eq_some hdeclare
          exact ⟨e :: scope, inner, rfl⟩
  | lookup name => exact ⟨scope, inner, rfl⟩

theorem after_push_above (h : ∀ run, run <+: as → s.depth < (s.after (.push :: run)).depth) :
    s.Above (s.after (.push :: as)) := by
  induction as using List.reverseRecOn with
  | nil => exact ⟨[], [], rfl⟩
  | append_singleton as a ih =>
      have hbefore := ih fun run hrun => h run (hrun.trans (List.prefix_append _ _))
      have hdepth := h _ List.prefix_rfl
      rw [← List.cons_append, after_concat] at hdepth ⊢
      exact hbefore.step hdepth

/-- A scope that is closed leaves no trace. -/
theorem after_push_pop (h : ∀ run, run <+: as → s.depth < (s.after (.push :: run)).depth)
    (hdepth : (s.after (.push :: as)).depth = s.depth + 1) :
    s.after (.push :: as ++ [.pop]) = s := by
  obtain ⟨scope, inner, habove⟩ := after_push_above h
  rw [habove] at hdepth
  obtain rfl : inner = [] := by
    simpa [depth] using hdepth
  rw [after_concat, habove]
  rfl

theorem ofRun_append (globals : List Entity) (as bs : List Action) :
    ofRun globals (as ++ bs) = (ofRun globals as).after bs := by
  simp [ofRun, after]

theorem ofRun_push_pop {bs : List Action}
    (h : ∀ run, run <+: bs → nesting as < nesting (as ++ .push :: run))
    (hdepth : nesting (as ++ .push :: bs) = nesting as + 1) :
    ofRun globals (as ++ .push :: bs ++ [.pop]) = ofRun globals as := by
  rw [List.append_assoc, ofRun_append]
  apply after_push_pop
  · intro run hrun
    have hlt := h run hrun
    rw [← ofRun_append, depth, depth, length_ofRun, length_ofRun]
    omega
  · rw [← ofRun_append, depth, depth, length_ofRun, length_ofRun, hdepth]

/-! ## The global scope -/

/-- What the global scope knows it does not forget. -/
theorem globals_after (h : s.globals.find? name = some e) (as : List Action) :
    (s.after as).globals.find? name = some e := by
  induction as using List.reverseRecOn with
  | nil => exact h
  | append_singleton as a ih =>
      have hkept : (s.after as).findAt 0 name = some e := ih
      rw [after_concat]
      exact findAt_step.2 (.inl ⟨hkept, Nat.zero_le _⟩)

theorem builtin_globals (b : Builtin) :
    builtin.globals.find? b.name = some (.type b.name (.builtin b)) := by
  cases b <;> decide

end

/-- Scopes are lexical.  Behind every run, a lookup finds the entity of the innermost open scope
that binds the name, where it has one origin: the last global of that name or the one accepted
declaration.  A declaration is refused where the scope has its name already, and closing a scope
is refused where only the global one is open; neither changes anything.  Behind a scope that was
opened and closed everything is as before, whatever was done inside.  Nothing that is declared
hides the builtin types from the compiler. -/
theorem lexical_scoping (globals : List Entity) (as : List Action) :
    (∀ name e, (ofRun globals as).lookup name = some e ↔
      e.name = name ∧ ∃ o n, Binds globals as o n e ∧
        ∀ o' n' e', Binds globals as o' n' e' → e'.name = name → o' = o ∨ n' < n) ∧
    (∀ name, (ofRun globals as).lookup name = none ↔
      ∀ o n e, Binds globals as o n e → e.name ≠ name) ∧
    (∀ e, ((ofRun globals as).step (.declare e)).1 = .declared false ↔
      ∃ o e', Binds globals as o (nesting as) e' ∧ e'.name = e.name) ∧
    (((ofRun globals as).step .pop).1 = .fault .globalScopePopped ↔
      nesting as = 0) ∧
    (∀ a, ((ofRun globals as).step a).1 = .declared false ∨
        ((ofRun globals as).step a).1 = .fault .globalScopePopped →
      ((ofRun globals as).step a).2 = ofRun globals as) ∧
    (ofRun globals as).depth = nesting as + 1 ∧
    (∀ bs, (∀ run, run <+: bs → nesting as < nesting (as ++ .push :: run)) →
      nesting (as ++ .push :: bs) = nesting as + 1 →
      ∀ name, (ofRun globals (as ++ .push :: bs ++ [.pop])).lookup name =
        (ofRun globals as).lookup name) ∧
    (globals = predefined → ∀ b : Builtin,
      (ofRun globals as).predefinedType b.name = .ok (.builtin b)) := by
  refine ⟨fun name e => ?_, fun name => ?_, fun e => ?_, ?_, fun a h => ?_, ?_,
    fun bs hopen hdepth name => ?_, fun hglobals b => ?_⟩
  · exact lookup_ofRun_eq_some
  · exact lookup_ofRun_eq_none
  · exact declare_refused
  · exact pop_refused
  · exact step_refused h
  · rw [depth, length_ofRun]
  · rw [ofRun_push_pop hopen hdepth]
  · subst hglobals
    have hkept : (ofRun predefined as).globals.find? b.name = some (.type b.name (.builtin b)) :=
      globals_after (builtin_globals b) as
    rw [predefinedType, hkept]

/-- A global `x`, and an attempt to close the global scope. -/
def outerRun : List Action := [.declare (.var { name := "x", type := .builtin .int }), .pop]

/-- Inside: another `x`, declared twice, and further inside a variable called `Int`. -/
def innerRun : List Action :=
  [.declare (.var { name := "x", type := .builtin .byte }),
    .declare (.var { name := "x", type := .builtin .long }), .push,
    .declare (.var { name := "Int", type := .builtin .char }), .pop]

theorem lexical_scoping_shadowed :
    (∀ run, run <+: innerRun → nesting outerRun < nesting (outerRun ++ .push :: run)) ∧
    nesting (outerRun ++ .push :: innerRun) = nesting outerRun + 1 ∧
    ((ofRun predefined outerRun).step .pop).2 = ofRun predefined outerRun ∧
    (ofRun predefined (outerRun ++ .push :: innerRun)).lookup "x" =
      some (.var { name := "x", type := .builtin .byte }) ∧
    (ofRun predefined (outerRun ++ .push :: innerRun ++ [.pop])).lookup "x" =
      some (.var { name := "x", type := .builtin .int }) ∧
    (ofRun predefined (outerRun ++ .push :: innerRun)).predefinedType "Int" =
      .ok (.builtin .int) := by
  have hprefixes : ∀ run ∈ innerRun.inits,
      nesting outerRun < nesting (outerRun ++ .push :: run) := by decide
  have hopen : ∀ run, run <+: innerRun → nesting outerRun < nesting (outerRun ++ .push :: run) :=
    fun run hrun => hprefixes run ((List.mem_inits run innerRun).2 hrun)
  obtain ⟨-, -, -, -, hrefused, -, hclosed, -⟩ := lexical_scoping predefined outerRun
  obtain ⟨-, -, -, -, -, -, -, hbuiltin⟩ :=
    lexical_scoping predefined (outerRun ++ .push :: innerRun)
  refine ⟨hopen, by decide, hrefused .pop (.inr (by decide)), by decide, ?_, hbuiltin rfl .int⟩
  rw [hclosed innerRun hopen (by decide)]
  decide

end Tern.Scopes
