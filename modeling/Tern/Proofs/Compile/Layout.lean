import Tern.Proofs.Compile.Ownership
import Tern.Proofs.Emit.Safety

/-!
# Declarations and their layout

What a declaration list leaves in the innermost scope: first its variables without storage,
then the same variables laid out, globals at their labels and locals one below the other.  The
layout of variables that were declared never fails.
-/

namespace Tern

namespace Scope

variable {s : Scope} {name : String} {storage : Storage}

/-- The scope after declaring the variables `vs` one by one. -/
def adding (s : Scope) (vs : List Variable) : Scope := (vs.map Entity.var).reverse ++ s

@[simp] theorem adding_nil : s.adding [] = s := rfl

@[simp] theorem adding_cons (v : Variable) (vs : List Variable) :
    s.adding (v :: vs) = adding (.var v :: s) vs := by
  simp [adding]

theorem find?_adding_of_notMem {vs : List Variable} (h : name ∉ vs.map Variable.name) :
    (s.adding vs).find? name = s.find? name := by
  induction vs generalizing s with
  | nil => rfl
  | cons v vs ih =>
      rw [List.map_cons, List.mem_cons, not_or] at h
      have hne : ¬(Entity.var v).name = name := fun hv => h.1 hv.symm
      rw [adding_cons, ih h.2, find?_cons, if_neg hne]

theorem find?_adding {vs : List Variable} {v : Variable} (hv : v ∈ vs)
    (hnodup : (vs.map Variable.name).Nodup) : (s.adding vs).find? v.name = some (.var v) := by
  induction vs generalizing s with
  | nil => cases hv
  | cons u vs ih =>
      rw [List.map_cons, List.nodup_cons] at hnodup
      rw [adding_cons]
      rcases List.mem_cons.1 hv with rfl | hv
      · rw [find?_adding_of_notMem hnodup.1, find?_cons]
        exact if_pos rfl
      · exact ih hv hnodup.2

/-- The variable with storage, if it is the one called `name`. -/
def placed (name : String) (storage : Storage) (v : Variable) : Variable :=
  if v.name = name then { v with storage := some storage } else v

theorem place_adding (vs : List Variable) :
    (s.adding vs).place name storage =
      (s.place name storage).adding (vs.map (placed name storage)) := by
  simp only [adding, place, List.map_append, List.map_reverse, List.map_map]
  rfl

theorem place_of_find?_eq_none (h : s.find? name = none) : s.place name storage = s := by
  have hne : ∀ e ∈ s, e.name ≠ name := by simpa [find?] using h
  refine (List.map_congr_left fun e he => ?_).trans (List.map_id s)
  cases e with
  | var v =>
      have hv : v.name ≠ name := hne _ he
      simp [hv]
  | type n t => rfl
  | procedure p => rfl

theorem place_next {done rest : List Variable} {v : Variable}
    (hnodup : ((done ++ v :: rest).map Variable.name).Nodup) (hnew : s.find? v.name = none) :
    (s.adding (done ++ v :: rest)).place v.name storage =
      s.adding (done ++ { v with storage := some storage } :: rest) := by
  have hkeep : ∀ us : List Variable, v.name ∉ us.map Variable.name →
      us.map (placed v.name storage) = us := by
    intro us hus
    refine (List.map_congr_left fun u hu => ?_).trans (List.map_id us)
    have hne : u.name ≠ v.name := fun h => hus (h ▸ List.mem_map_of_mem hu)
    rw [placed, if_neg hne, id]
  simp only [List.map_append, List.map_cons, List.nodup_append, List.nodup_cons] at hnodup
  obtain ⟨-, ⟨hrest, -⟩, hdone⟩ := hnodup
  have hdone' : v.name ∉ done.map Variable.name :=
    fun h => hdone _ h _ List.mem_cons_self rfl
  rw [place_adding, place_of_find?_eq_none hnew, List.map_append, List.map_cons, hkeep done hdone',
    hkeep rest hrest, placed, if_pos rfl]

end Scope

namespace Scopes

variable {s : Scopes}

@[simp] theorem innermost_mapInnermost (f : Scope → Scope) :
    (s.mapInnermost f).innermost = f s.innermost := by
  unfold mapInnermost innermost
  cases s.inner <;> rfl

@[simp] theorem mapInnermost_mapInnermost (f g : Scope → Scope) :
    (s.mapInnermost f).mapInnermost g = s.mapInnermost fun scope => g (f scope) := by
  unfold mapInnermost
  cases h : s.inner <;> simp

theorem mapInnermost_congr {f g : Scope → Scope} (h : f s.innermost = g s.innermost) :
    s.mapInnermost f = s.mapInnermost g := by
  unfold mapInnermost
  unfold innermost at h
  cases hs : s.inner with
  | nil =>
      simp only [hs] at h ⊢
      rw [h]
  | cons scope outer =>
      simp only [hs] at h ⊢
      rw [h]

@[simp] theorem mapInnermost_id : (s.mapInnermost fun scope => scope) = s := by
  unfold mapInnermost
  cases hs : s.inner <;> simp [← hs]

end Scopes

def Decl.variable (d : Decl) (id : Ident) (t : Ty) : Variable :=
  { name := id.name, type := t, exported := d.exported.isSome }

namespace Compile

variable {c c' : Compilation} {d : Decl} {bytes : Nat} {s : Scope}

theorem declName_ok {id : Ident} (h : declName d c = .ok id c') :
    d.id = .ok id ∧ c.Like c' ∧
      (d.exported.isSome = true → c.scopes.isGlobal = true ∧ unusableLabel id.name = false) := by
  unfold declName at h
  cases hid : d.id with
  | error why =>
      cases hexp : d.exported <;>
        simp only [hid, hexp, bind_eq_ok, stop_eq_ok, and_false, exists_false] at h
  | ok id' =>
      cases hexp : d.exported with
      | none =>
          simp only [hid, hexp, Option.isSome_none, Bool.false_eq_true, if_false,
            pure_eq_ok] at h
          obtain ⟨rfl, rfl⟩ := h
          exact ⟨rfl, .refl c, by simp⟩
      | some pos =>
          simp only [hid, hexp, Option.isSome_some, if_true, bind_eq_ok, get_eq_ok, require_eq_ok,
            pure_eq_ok, Bool.not_eq_true'] at h
          obtain ⟨_, _, ⟨rfl, rfl⟩, _, _, ⟨hglobal, rfl⟩, _, _, htake, _, _, ⟨hlabel, rfl⟩, rfl,
            rfl⟩ := h
          exact ⟨rfl, take_ok htake, fun _ => ⟨hglobal, hlabel⟩⟩

theorem declare_ok {name : String} {total : Nat} (h : declare bytes d c = .ok (name, total) c') :
    ∃ id t c₁ c₂, d.id = .ok id ∧
      (d.exported.isSome = true → c.scopes.isGlobal = true ∧ unusableLabel id.name = false) ∧
      c.Like c₁ ∧ type d.type c₁ = .ok t c₂ ∧ name = id.name ∧ total = bytes + t.size ∧
      total ≤ Ty.sizeLimit ∧ c.scopes.innermost.find? id.name = none ∧
      c'.scopes = c.scopes.mapInnermost (.var (d.variable id t) :: ·) ∧
      c'.assembly = c.assembly := by
  simp only [declare, bind_eq_ok, get_eq_ok] at h
  obtain ⟨id, c₀, hid, _, c₁, hpass, t, c₂, ht, _, _, ⟨rfl, rfl⟩, h⟩ := h
  obtain ⟨hid, hlike, hexp⟩ := declName_ok hid
  have hlike := hlike.trans (pass_ok hpass).1
  have hall := hlike.trans (type_like ht)
  cases hdecl : c₂.scopes.declare? (.var (d.variable id t)) with
  | none =>
      simp only [Decl.variable] at hdecl
      simp only [hdecl, bind_eq_ok, fail_eq_ok, false_and, exists_false] at h
  | some scopes =>
      obtain ⟨hnone, hscopes⟩ := Scopes.declare?_eq_some hdecl
      simp only [Decl.variable] at hdecl
      simp only [hdecl, bind_eq_ok, modify_eq_ok, require_eq_ok, pure_eq_ok, decide_eq_true_eq,
        Prod.mk.injEq] at h
      obtain ⟨_, _, rfl, _, _, ⟨hsize, rfl⟩, ⟨rfl, rfl⟩, rfl⟩ := h
      rw [hall.scopes] at hnone hscopes
      exact ⟨id, t, c₁, c₂, hid, hexp, hlike, ht, rfl, rfl, hsize, hnone, hscopes, hall.assembly⟩

theorem declareAll_cons_ok {ds : List Decl} {names : List String}
    (h : declareAll bytes (d :: ds) c = .ok names c') :
    ∃ name total c₁ c₂ rest, declare bytes d c = .ok (name, total) c₁ ∧ c₁.Like c₂ ∧
      declareAll total ds c₂ = .ok rest c' ∧ names = name :: rest := by
  simp only [declareAll, bind_eq_ok, Prod.exists] at h
  obtain ⟨name, total, c₁, hd, h⟩ := h
  by_cases hds : ds.isEmpty
  · simp only [hds, Bool.not_true, Bool.false_eq_true, if_false, bind_eq_ok, pure_eq_ok] at h
    obtain ⟨rest, _, hrest, rfl, rfl⟩ := h
    exact ⟨name, total, c₁, c₁, rest, hd, .refl _, hrest, rfl⟩
  · simp only [hds, Bool.not_false, if_true, bind_eq_ok, pure_eq_ok] at h
    obtain ⟨_, c₂, htake, rest, _, hrest, rfl, rfl⟩ := h
    exact ⟨name, total, c₁, c₂, rest, hd, take_ok htake, hrest, rfl⟩

/-- The variables `vs` have been declared on top of the scope `s`, and none has storage.  The
names of those that are exported can be used as labels. -/
structure Declared (s : Scope) (vs : List Variable) : Prop where
  nodup : (vs.map Variable.name).Nodup
  new : ∀ v ∈ vs, s.find? v.name = none
  unplaced : ∀ v ∈ vs, v.storage = none
  usable : ∀ v ∈ vs, v.exported = true → unusableLabel v.name = false

theorem Declared.nil : Declared s [] := ⟨by simp, by simp, by simp, by simp⟩

theorem Declared.cons {v : Variable} {vs : List Variable} (h : Declared (.var v :: s) vs)
    (hnone : s.find? v.name = none) (hstorage : v.storage = none)
    (husable : v.exported = true → unusableLabel v.name = false) : Declared s (v :: vs) := by
  -- a later variable is new in the scope that has the earlier one, so the names differ
  have hnew : ∀ u ∈ vs, u.name ≠ v.name ∧ s.find? u.name = none := by
    intro u hu
    have hfind := h.new u hu
    rw [Scope.find?_cons] at hfind
    split at hfind
    · cases hfind
    · next hne => exact ⟨fun heq => hne heq.symm, hfind⟩
  constructor
  · rw [List.map_cons, List.nodup_cons]
    refine ⟨fun hmem => ?_, h.nodup⟩
    obtain ⟨u, hu, hname⟩ := List.mem_map.1 hmem
    exact (hnew u hu).1 hname
  · intro u hu
    rcases List.mem_cons.1 hu with rfl | hu
    · exact hnone
    · exact (hnew u hu).2
  · exact List.forall_mem_cons.2 ⟨hstorage, h.unplaced⟩
  · exact List.forall_mem_cons.2 ⟨husable, h.usable⟩

/-- Declared one after the other from the scopes `s` on, the declarations introduce the
variables. -/
inductive Declares : Scopes → List Decl → List Variable → Prop
  | nil {s : Scopes} : Declares s [] []
  | cons {c c' : Compilation} {d : Decl} {ds : List Decl} {id : Ident} {t : Ty}
      {vs : List Variable} (hid : d.id = .ok id) (htype : type d.type c = .ok t c')
      (hnew : c.scopes.innermost.find? id.name = none)
      (hrest : Declares (c.scopes.mapInnermost (.var (d.variable id t) :: ·)) ds vs) :
      Declares c.scopes (d :: ds) (d.variable id t :: vs)

def totalSize (vs : List Variable) : Nat := (vs.map fun v => v.type.size).sum

theorem declareAll_ok {ds : List Decl} {names : List String} (hbytes : bytes ≤ Ty.sizeLimit)
    (h : declareAll bytes ds c = .ok names c') :
    ∃ vs, names = vs.map Variable.name ∧ Declares c.scopes ds vs ∧
      Declared c.scopes.innermost vs ∧ bytes + totalSize vs ≤ Ty.sizeLimit ∧
      c'.scopes = c.scopes.mapInnermost (·.adding vs) ∧ c'.assembly = c.assembly := by
  induction ds generalizing bytes c names with
  | nil =>
      obtain ⟨rfl, rfl⟩ := pure_eq_ok.1 h
      exact ⟨[], rfl, .nil, .nil, hbytes, by simp, rfl⟩
  | cons d ds ih =>
      obtain ⟨name, total, c₁, c₂, rest, hd, hlike, hrest, rfl⟩ := declareAll_cons_ok h
      obtain ⟨id, t, c₃, _, hid, hexp, hlike', ht, rfl, rfl, hsize, hnone, hscopes, hassembly⟩ :=
        declare_ok hd
      obtain ⟨vs, rfl, hds, hdecl, htotal, hscopes', hassembly'⟩ := ih hsize hrest
      rw [hlike.scopes, hscopes] at hds hdecl hscopes'
      have hdeclares : Declares c.scopes (d :: ds) (d.variable id t :: vs) := by
        rw [← hlike'.scopes] at hnone hds ⊢
        exact .cons hid ht hnone hds
      simp only [Scopes.innermost_mapInnermost] at hdecl
      refine ⟨d.variable id t :: vs, rfl, hdeclares, hdecl.cons hnone rfl fun h => (hexp h).2,
        ?_, ?_, ?_⟩
      · simp only [totalSize, Decl.variable, List.map_cons, List.sum_cons] at htotal ⊢
        omega
      · simpa using hscopes'
      · exact hassembly'.trans (hlike.assembly.trans hassembly)

/-! ## Layout -/

theorem declared_apply {v : Variable} (h : c.scopes.innermost.find? v.name = some (.var v)) :
    declared v.name c = .ok v c := by
  rw [declared, bind_eq_ok]
  refine ⟨c, c, get_eq_ok.2 ⟨rfl, rfl⟩, ?_⟩
  rw [h]
  rfl

theorem placeVariable_apply {v : Variable} {storage : Storage} (h : v.storage = none) :
    placeVariable v storage c =
      .ok () { c with scopes := c.scopes.mapInnermost (·.place v.name storage) } := by
  rw [placeVariable, h]
  exact modify_eq_ok.2 rfl

theorem unit_width (t : Ty) : ∃ w : Width, t.unit.size = w.bytes := by
  induction t with
  | builtin b => exact Ty.exists_width rfl
  | pointer base => exact ⟨.qword, rfl⟩
  | array base n ih => exact ih

def unitWidth (t : Ty) : Width := (Width.ofBytes? t.unit.size).getD .byte

theorem unitWidth_bytes (t : Ty) : (unitWidth t).bytes = t.unit.size := by
  obtain ⟨w, hw⟩ := unit_width t
  rw [unitWidth, Width.ofBytes?_eq_some_iff.2 hw]
  exact hw.symm

theorem unitWidth_apply (t : Ty) (a : Assembly) : Emit.unitWidth t a = .ok (unitWidth t) a := by
  obtain ⟨w, hw⟩ := unit_width t
  rw [Emit.unitWidth, unitWidth, Width.ofBytes?_eq_some_iff.2 hw]
  rfl

def dataLine (v : Variable) : Line :=
  .data (Emit.globalLabel v)
    (if v.type.isArray then some (v.type.size / (unitWidth v.type).bytes) else none)
    (unitWidth v.type) 0

def exportLines (vs : List Variable) : List Line :=
  (vs.filter Variable.exported).map fun v => .exported (Emit.globalLabel v)

def followed (c : Compilation) (ls : List Line) : Compilation :=
  { c with assembly := { c.assembly with lines := c.assembly.lines ++ ls.toArray } }

theorem emit_write (l : Line) : emit (Emit.write l) c = .ok () (followed c [l]) := by
  refine emit_eq_ok.2 ⟨_, modify_eq_ok.2 rfl, ?_⟩
  simp [followed, Assembly.write]

theorem followed_followed (ls more : List Line) :
    followed (followed c ls) more = followed c (ls ++ more) := by
  simp [followed, Array.append_assoc]

theorem exportLabels_runs {vs : List Variable}
    (h : ∀ v ∈ vs, c.scopes.innermost.find? v.name = some (.var v)) :
    exportLabels (vs.map Variable.name) c = .ok () (followed c (exportLines vs)) := by
  induction vs generalizing c with
  | nil => simp [exportLabels, exportLines, followed, pure, EStateM.pure]
  | cons v vs ih =>
      have hdecl := declared_apply (h v List.mem_cons_self)
      have hrest : ∀ u ∈ vs, c.scopes.innermost.find? u.name = some (.var u) :=
        fun u hu => h u (List.mem_cons_of_mem v hu)
      rw [List.map_cons, exportLabels, bind_of_ok hdecl]
      cases hexp : v.exported with
      | false =>
          have hlines : exportLines (v :: vs) = exportLines vs := by simp [exportLines, hexp]
          rw [hlines, ← ih hrest]
          rfl
      | true =>
          have hlines : exportLines (v :: vs) =
              [.exported (Emit.globalLabel v)] ++ exportLines vs := by simp [exportLines, hexp]
          rw [hlines, ← followed_followed, if_pos rfl, bind_of_ok (emit_write _)]
          exact ih hrest

def atLabel (v : Variable) : Variable :=
  { v with storage := some (.global (Emit.globalLabel v) v.type.size) }

section

variable {before vs : List Variable} {v : Variable}

theorem declared_next (hscope : c.scopes.innermost = s.adding (before ++ v :: vs))
    (hnodup : ((before ++ v :: vs).map Variable.name).Nodup) : declared v.name c = .ok v c := by
  apply declared_apply
  rw [hscope]
  exact Scope.find?_adding (by simp) hnodup

theorem innermost_place_next {storage : Storage}
    (hscope : c.scopes.innermost = s.adding (before ++ v :: vs))
    (hnodup : ((before ++ v :: vs).map Variable.name).Nodup) (hnew : s.find? v.name = none) :
    (c.scopes.mapInnermost (·.place v.name storage)).innermost =
      s.adding ((before ++ [{ v with storage := some storage }]) ++ vs) := by
  rw [Scopes.innermost_mapInnermost, hscope, Scope.place_next hnodup hnew, List.append_assoc,
    List.singleton_append]

end

-- The variables of the list that have their storage already are `before`; the induction is on
-- those that do not.
theorem defineGlobals_runs {before vs : List Variable}
    (hscope : c.scopes.innermost = s.adding (before ++ vs))
    (hnodup : ((before ++ vs).map Variable.name).Nodup) (hnew : ∀ v ∈ vs, s.find? v.name = none)
    (hunplaced : ∀ v ∈ vs, v.storage = none) :
    defineGlobals (vs.map Variable.name) c = .ok () (followed { c with
      scopes := c.scopes.mapInnermost fun _ => s.adding (before ++ vs.map atLabel) }
        (vs.map dataLine)) := by
  induction vs generalizing c before with
  | nil =>
      rw [List.append_nil] at hscope
      simp only [List.map_nil, List.append_nil, defineGlobals, ← hscope]
      rw [pure_eq_ok, Scopes.mapInnermost_congr (g := fun scope => scope) rfl]
      simp [followed]
  | cons v vs ih =>
      let c₁ : Compilation := { c with
        scopes := c.scopes.mapInnermost
          (·.place v.name (.global (Emit.globalLabel v) v.type.size)) }
      have hplace : c₁.scopes.innermost = s.adding ((before ++ [atLabel v]) ++ vs) :=
        innermost_place_next hscope hnodup (hnew v List.mem_cons_self)
      have hrun := ih (c := followed c₁ [dataLine v]) hplace
        (by simpa [atLabel] using hnodup) (fun u hu => hnew u (List.mem_cons_of_mem v hu))
        (fun u hu => hunplaced u (List.mem_cons_of_mem v hu))
      have hunit : emit (Emit.unitWidth v.type) c = .ok (unitWidth v.type) c :=
        emit_eq_ok.2 ⟨_, unitWidth_apply v.type c.assembly, rfl⟩
      have hdefine : emit (Emit.defineGlobal (Emit.globalLabel v) v.type (unitWidth v.type)) c₁ =
          .ok () (followed c₁ [dataLine v]) := emit_write (dataLine v)
      rw [List.map_cons, defineGlobals, bind_of_ok (declared_next hscope hnodup),
        bind_of_ok hunit, bind_of_ok (placeVariable_apply (hunplaced v List.mem_cons_self)),
        bind_of_ok hdefine, hrun]
      simp [followed, c₁]

theorem map_name_atLabel (vs : List Variable) :
    (vs.map atLabel).map Variable.name = vs.map Variable.name := by
  rw [List.map_map]
  rfl

def globalLines (vs : List Variable) : List Line := exportLines vs ++ vs.map dataLine

theorem layOutGlobals_runs {vs : List Variable}
    (hscope : c.scopes.innermost = s.adding vs) (hdecl : Declared s vs) :
    layOutGlobals (vs.map Variable.name) c = .ok () (followed { c with
      scopes := c.scopes.mapInnermost fun _ => s.adding (vs.map atLabel) } (globalLines vs)) := by
  have hfind : ∀ v ∈ vs, c.scopes.innermost.find? v.name = some (.var v) := by
    intro v hv
    rw [hscope]
    exact Scope.find?_adding hv hdecl.nodup
  have hscope' : (followed c (exportLines vs)).scopes.innermost = s.adding ([] ++ vs) := hscope
  rw [layOutGlobals, bind_of_ok (exportLabels_runs hfind),
    defineGlobals_runs hscope' hdecl.nodup hdecl.new hdecl.unplaced]
  simp [followed, globalLines]

/-- Local variables one below the other, the first of them below `total` bytes. -/
def inFrame (total : Nat) : List Variable → List Variable
  | [] => []
  | v :: vs =>
      { v with storage := some (.frame (total + v.type.size : Nat) v.type.size) } ::
        inFrame (total + v.type.size) vs

theorem map_name_inFrame (total : Nat) (vs : List Variable) :
    (inFrame total vs).map Variable.name = vs.map Variable.name := by
  induction vs generalizing total with
  | nil => rfl
  | cons v vs ih => rw [inFrame, List.map_cons, ih, List.map_cons]

theorem placeLocals_runs {before vs : List Variable} (total : Nat)
    (hscope : c.scopes.innermost = s.adding (before ++ vs))
    (hnodup : ((before ++ vs).map Variable.name).Nodup) (hnew : ∀ v ∈ vs, s.find? v.name = none)
    (hunplaced : ∀ v ∈ vs, v.storage = none) :
    placeLocals total (vs.map Variable.name) c = .ok (total + totalSize vs)
      { c with
        scopes := c.scopes.mapInnermost fun _ => s.adding (before ++ inFrame total vs) } := by
  induction vs generalizing c before total with
  | nil =>
      rw [List.append_nil] at hscope
      simp only [List.map_nil, inFrame, List.append_nil, placeLocals, ← hscope]
      rw [pure_eq_ok, Scopes.mapInnermost_congr (g := fun scope => scope) rfl]
      simp [totalSize]
  | cons v vs ih =>
      let v' : Variable :=
        { v with storage := some (.frame (total + v.type.size : Nat) v.type.size) }
      let c₁ : Compilation := { c with
        scopes := c.scopes.mapInnermost
          (·.place v.name (.frame (total + v.type.size : Nat) v.type.size)) }
      have hplace : c₁.scopes.innermost = s.adding ((before ++ [v']) ++ vs) :=
        innermost_place_next hscope hnodup (hnew v List.mem_cons_self)
      have hrun := ih (total + v.type.size) hplace (by simpa [v'] using hnodup)
        (fun u hu => hnew u (List.mem_cons_of_mem v hu))
        (fun u hu => hunplaced u (List.mem_cons_of_mem v hu))
      rw [List.map_cons, placeLocals, bind_eq_ok]
      refine ⟨v, c, declared_next hscope hnodup, ?_⟩
      simp only [bind_eq_ok]
      refine ⟨(), c₁, placeVariable_apply (hunplaced v List.mem_cons_self), hrun.trans ?_⟩
      simp [c₁, v', inFrame, totalSize, Nat.add_assoc]

/-- The instructions that set up a frame of `total` bytes. -/
def frameCode (total : Nat) : List Instr :=
  if total = 0 then []
  else [.push .rbp, .mov (.reg .rbp .qword) (.reg .rsp .qword),
    .combine .sub (.reg .rsp .qword) (.imm total)]

theorem openFrame_apply {a : Assembly} {total : Nat} (h : total ≤ Ty.sizeLimit) :
    Emit.openFrame total a =
      .ok () ({ a with frames := total :: a.frames.tail }.extend (frameCode total)) := by
  rw [Emit.openFrame, if_neg (by omega), bind_eq_ok]
  refine ⟨(), _, modify_eq_ok.2 rfl, ?_⟩
  unfold Emit.setUpFrame frameCode
  split
  · rw [pure_eq_ok, Assembly.extend_nil]
    exact ⟨rfl, rfl⟩
  · simp only [bind_eq_ok, Emit.instr_eq_ok]
    exact ⟨(), _, rfl, (), _, rfl, by simp⟩

theorem frameBytes_apply {total : Nat} {outer : List Nat}
    (h : c.assembly.frames = total :: outer) : emit Emit.frameBytes c = .ok total c := by
  refine emit_eq_ok.2 ⟨c.assembly, ?_, rfl⟩
  rw [Emit.frameBytes, bind_eq_ok]
  refine ⟨c.assembly, c.assembly, get_eq_ok.2 ⟨rfl, rfl⟩, ?_⟩
  rw [h]
  rfl

theorem layOutLocals_runs {vs : List Variable} {total : Nat} {outer : List Nat}
    (hscope : c.scopes.innermost = s.adding vs) (hdecl : Declared s vs)
    (hframes : c.assembly.frames = total :: outer)
    (hsize : total + totalSize vs ≤ Ty.sizeLimit) :
    layOutLocals (vs.map Variable.name) c = .ok ()
      { c with
        scopes := c.scopes.mapInnermost fun _ => s.adding (inFrame total vs)
        assembly := { c.assembly with frames := (total + totalSize vs) :: outer }.extend
          (frameCode (total + totalSize vs)) } := by
  have hscope' : c.scopes.innermost = s.adding ([] ++ vs) := hscope
  rw [layOutLocals, bind_eq_ok]
  refine ⟨total, c, frameBytes_apply hframes, ?_⟩
  rw [bind_eq_ok]
  refine ⟨_, _, placeLocals_runs total hscope' hdecl.nodup hdecl.new hdecl.unplaced, ?_⟩
  refine emit_eq_ok.2 ⟨_, openFrame_apply hsize, ?_⟩
  simp [hframes]

/-! ## Declaration lists -/

theorem declList_global_ok {l : DeclList} {u : Unit} (hglobal : c.scopes.isGlobal = true)
    (h : declList l c = .ok u c') :
    ∃ vs, Declares c.scopes l.decls vs ∧ Declared c.scopes.innermost vs ∧
      c'.scopes = c.scopes.mapInnermost (·.adding (vs.map atLabel)) ∧
      c'.assembly = (followed c (globalLines vs)).assembly := by
  simp only [declList, bind_eq_ok, get_eq_ok] at h
  obtain ⟨_, c₁, hpass, _, _, ⟨rfl, rfl⟩, h⟩ := h
  have hlike := (pass_ok hpass).1
  rw [hlike.scopes, if_pos hglobal, bind_eq_ok] at h
  obtain ⟨names, c₂, hnames, h⟩ := h
  obtain ⟨vs, rfl, hdeclares, hdecl, -, hscopes, hassembly⟩ :=
    declareAll_ok (Nat.zero_le _) hnames
  rw [hlike.scopes] at hdeclares hdecl hscopes
  have hinner : c₂.scopes.innermost = c.scopes.innermost.adding vs := by
    rw [hscopes, Scopes.innermost_mapInnermost]
  rw [layOutGlobals_runs hinner hdecl] at h
  cases h
  refine ⟨vs, hdeclares, hdecl, ?_, ?_⟩
  · simp only [followed, hscopes, Scopes.mapInnermost_mapInnermost]
    exact Scopes.mapInnermost_congr rfl
  · simp only [followed, hassembly, hlike.assembly]

theorem declList_local_ok {l : DeclList} {u : Unit} {total : Nat} {outer : List Nat}
    (hglobal : c.scopes.isGlobal = false) (hframes : c.assembly.frames = total :: outer)
    (hsize : total ≤ Ty.sizeLimit) (h : declList l c = .ok u c') :
    ∃ vs, Declares c.scopes l.decls vs ∧ Declared c.scopes.innermost vs ∧
      total + totalSize vs ≤ Ty.sizeLimit ∧
      c'.scopes = c.scopes.mapInnermost (·.adding (inFrame total vs)) ∧
      c'.assembly = { c.assembly with frames := (total + totalSize vs) :: outer }.extend
        (frameCode (total + totalSize vs)) := by
  simp only [declList, bind_eq_ok, get_eq_ok] at h
  obtain ⟨_, c₁, hpass, _, _, ⟨rfl, rfl⟩, h⟩ := h
  have hlike := (pass_ok hpass).1
  rw [← hlike.assembly] at hframes
  simp only [hlike.scopes, hglobal, Bool.false_eq_true, if_false, bind_eq_ok] at h
  obtain ⟨bytes, _, hbytes, names, c₂, hnames, h⟩ := h
  rw [frameBytes_apply hframes] at hbytes
  cases hbytes
  obtain ⟨vs, rfl, hdeclares, hdecl, htotal, hscopes, hassembly⟩ := declareAll_ok hsize hnames
  rw [hlike.scopes] at hdeclares hdecl hscopes
  have hinner : c₂.scopes.innermost = c.scopes.innermost.adding vs := by
    rw [hscopes, Scopes.innermost_mapInnermost]
  rw [← hassembly] at hframes
  rw [layOutLocals_runs hinner hdecl hframes htotal] at h
  cases h
  refine ⟨vs, hdeclares, hdecl, htotal, ?_, ?_⟩
  · simp only [hscopes, Scopes.mapInnermost_mapInnermost]
    exact Scopes.mapInnermost_congr rfl
  · simp only [hassembly, hlike.assembly]

theorem globals_ok {l : Option DeclList} {u : Unit} (hglobal : c.scopes.isGlobal = true)
    (h : l.forM declList c = .ok u c') :
    ∃ vs, Declares c.scopes (l.elim [] DeclList.decls) vs ∧ Declared c.scopes.innermost vs ∧
      c'.scopes = c.scopes.mapInnermost (·.adding (vs.map atLabel)) ∧
      c'.assembly = (followed c (globalLines vs)).assembly := by
  cases l with
  | some l => exact declList_global_ok hglobal h
  | none =>
      obtain ⟨-, rfl⟩ := pure_eq_ok.1 h
      exact ⟨[], .nil, .nil, by simp, by simp [followed, globalLines, exportLines]⟩

theorem locals_ok {l : Option DeclList} {u : Unit} {outer : List Nat}
    (hglobal : c.scopes.isGlobal = false) (hframes : c.assembly.frames = 0 :: outer)
    (h : l.forM declList c = .ok u c') :
    ∃ vs, Declares c.scopes (l.elim [] DeclList.decls) vs ∧ Declared c.scopes.innermost vs ∧
      totalSize vs ≤ Ty.sizeLimit ∧
      c'.scopes = c.scopes.mapInnermost (·.adding (inFrame 0 vs)) ∧
      c'.assembly = { c.assembly with frames := totalSize vs :: outer }.extend
        (frameCode (totalSize vs)) := by
  cases l with
  | some l =>
      obtain ⟨vs, hdeclares, hdecl, hsize, hscopes, hassembly⟩ :=
        declList_local_ok hglobal hframes (Nat.zero_le _) h
      rw [Nat.zero_add] at hsize hassembly
      exact ⟨vs, hdeclares, hdecl, hsize, hscopes, hassembly⟩
  | none =>
      obtain ⟨-, rfl⟩ := pure_eq_ok.1 h
      refine ⟨[], .nil, .nil, Nat.zero_le _, by simp [inFrame], ?_⟩
      simp [totalSize, frameCode, ← hframes]

/-! ## The fixed parts of a program -/

def headLines : List Line :=
  [.entryPoint, .blank, .dataStart, .data Emit.newlineLabel none .byte 10]

theorem programHead_apply :
    emit Emit.programHead c = .ok () (followed c [.entryPoint, .blank]) := by
  refine emit_eq_ok.2 ⟨_, bind_eq_ok.2 ⟨(), _, modify_eq_ok.2 rfl, modify_eq_ok.2 rfl⟩, ?_⟩
  simp [followed, Assembly.write, ← Array.toList_inj]

theorem dataHead_apply :
    emit Emit.dataHead c =
      .ok () (followed c [.dataStart, .data Emit.newlineLabel none .byte 10]) := by
  refine emit_eq_ok.2 ⟨_, bind_eq_ok.2 ⟨(), _, modify_eq_ok.2 rfl, modify_eq_ok.2 rfl⟩, ?_⟩
  simp [followed, Assembly.write, ← Array.toList_inj]

theorem push_apply : push c = .ok () { c with scopes := c.scopes.push } := rfl

theorem enterProgram_apply :
    emit Emit.enterProgram c = .ok () (followed
      { c with assembly := { c.assembly with frames := 0 :: c.assembly.frames } }
      [.label entryLabel]) := by
  refine emit_eq_ok.2 ⟨_, bind_eq_ok.2 ⟨(), _, modify_eq_ok.2 rfl, modify_eq_ok.2 rfl⟩, ?_⟩
  simp [followed, Assembly.write]

/-- The instructions that take down a frame of `total` bytes and end the program. -/
def leaveCode (total : Nat) : List Instr :=
  (if total = 0 then []
    else [.mov (.reg .rsp .qword) (.reg .rbp .qword), .pop .rbp]) ++
    [.mov (.reg .rax .qword) (.imm 60), .combine .xor (.reg .rdi .qword) (.reg .rdi .qword),
      .syscall]

theorem leaveProgram_apply {total : Nat} {outer : List Nat}
    (h : c.assembly.frames = total :: outer) :
    emit Emit.leaveProgram c = .ok () { c with
      assembly := { c.assembly with frames := outer }.extend (leaveCode total) } := by
  have hexit : ∀ a : Assembly, Emit.exit a = .ok () (a.extend
      [.mov (.reg .rax .qword) (.imm 60), .combine .xor (.reg .rdi .qword) (.reg .rdi .qword),
        .syscall]) := by
    intro a
    simp only [Emit.exit, bind_eq_ok, Emit.instr_eq_ok]
    exact ⟨(), _, rfl, (), _, rfl, by simp⟩
  refine emit_eq_ok.2 ⟨_, ?_, rfl⟩
  rw [Emit.leaveProgram, bind_eq_ok]
  refine ⟨c.assembly, c.assembly, get_eq_ok.2 ⟨rfl, rfl⟩, ?_⟩
  simp only [h, bind_eq_ok]
  refine ⟨(), _, modify_eq_ok.2 rfl, ?_⟩
  unfold Emit.tearDownFrame leaveCode
  split
  · exact ⟨(), _, pure_eq_ok.2 ⟨rfl, rfl⟩, hexit _⟩
  · simp only [bind_eq_ok, Emit.instr_eq_ok]
    refine ⟨(), _, ⟨(), _, rfl, rfl⟩, ?_⟩
    rw [hexit]
    simp

end Compile

end Tern
