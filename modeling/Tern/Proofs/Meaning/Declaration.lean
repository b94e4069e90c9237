import Tern.Proofs.Meaning.Constants

/-!
# Declarations

A run gives each variable its address as soon as it is declared.  The compiler declares all
variables of a list and lays them out afterwards.  In the end both name the same places.
-/

namespace Tern

namespace Scopes

variable {s : Scopes} {name : String}

theorem lookup_mapInnermost_cons (e : Entity) :
    (s.mapInnermost (e :: ·)).lookup name = if e.name = name then some e else s.lookup name := by
  unfold mapInnermost lookup
  by_cases hname : e.name = name
  · cases s.inner <;> simp [Scope.find?_cons, hname]
  · cases s.inner <;> simp [List.findSome?_cons, Scope.find?_cons, hname]

end Scopes

namespace Meaning

open Machine Compile

variable {place : String → Addr} {fp : Addr} {ctx : Context} {s : Scopes}

/-! ## Names that are added -/

theorem Linked.cons {entity : Entity} {sense : Sense} (h : Linked place fp ctx s)
    (hsense : Represents place fp entity sense) :
    Linked place fp { ctx with names := (entity.name, sense) :: ctx.names }
      (s.mapInnermost (entity :: ·)) := by
  intro name entity' hlookup
  rw [Scopes.lookup_mapInnermost_cons] at hlookup
  by_cases hname : entity.name = name
  · rw [if_pos hname] at hlookup
    cases hlookup
    subst hname
    exact ⟨sense, List.lookup_cons_self, hsense⟩
  · rw [if_neg hname] at hlookup
    obtain ⟨sense', hsense', hrepresents⟩ := h name entity' hlookup
    have hne : (name == entity.name) = false := by simpa using Ne.symm hname
    exact ⟨sense', by rw [List.lookup_cons, hne]; exact hsense', hrepresents⟩

theorem Linked.congr {ctx' : Context} (h : Linked place fp ctx s)
    (hnames : ctx'.names = ctx.names) : Linked place fp ctx' s := by
  unfold Linked
  rw [hnames]
  exact h

theorem Linked.declared {v : Variable} {x : Addr} (h : Linked place fp ctx s)
    (hsized : v.type.Sized)
    (hx : ∀ storage, v.storage = some storage → x = storageAddress place fp storage) :
    Linked place fp { ctx with names := (v.name, .var v.type x) :: ctx.names }
      (s.mapInnermost (.var v :: ·)) :=
  h.cons ⟨rfl, hsized, hx⟩

theorem Linked.push (h : Linked place fp ctx s) : Linked place fp ctx s.push := h

theorem linked_builtin (e : Entry) : Linked e.place fp e.context .builtin := by
  intro name entity hlookup
  have hfind : predefined.reverse.find? (fun entity => entity.name == name) = some entity := by
    simpa [Scopes.lookup, Scopes.builtin, Scopes.ofGlobals, Scope.find?] using hlookup
  obtain rfl : entity.name = name := by simpa using List.find?_some hfind
  have hmem : entity ∈ predefined := List.mem_reverse.1 (List.mem_of_find?_eq_some hfind)
  simp only [predefined, Builtin.all, List.map_cons, List.map_nil, List.cons_append,
    List.nil_append, List.mem_cons, List.not_mem_nil, or_false] at hmem
  rcases hmem with rfl | rfl | rfl | rfl | rfl | rfl <;>
    simp [Entry.context, Builtin.all, Builtin.name, Entity.name, List.lookup_cons, Represents,
      Ty.Sized]

/-! ## Declared variables -/

/-- The names after variables are declared in order, as in `declare`. -/
def bound (address : Nat → Variable → Addr) :
    Nat → List Variable → List (String × Sense) → List (String × Sense)
  | _, [], names => names
  | total, v :: vs, names =>
      bound address (total + v.type.size) vs ((v.name, .var v.type (address total v)) :: names)

theorem declare_apply {address : Nat → Variable → Addr} {ds : List Decl} {vs : List Variable}
    (h : Declares s ds vs) (hds : ∀ d ∈ ds, d.Proper) (hs : s.Sound)
    (hlinked : Linked place fp ctx s) (total : Nat) (w : World) :
    (∀ v ∈ vs, v.type.Sized) ∧
      declare address total ds ctx w =
        .ok ({ ctx with names := bound address total vs ctx.names }, total + totalSize vs) w := by
  induction h generalizing ctx total with
  | nil => exact ⟨by simp, rfl⟩
  | @cons c c' d ds id t vs hid htype hnew hrest ih =>
      obtain ⟨hsized, hnames⟩ := type_names htype (hds d List.mem_cons_self).2.2 hs hlinked
      have hname : ∀ name ∈ [d.variable id t].map Variable.name,
          c.scopes.innermost.find? name = none := by simpa [Decl.variable] using hnew
      have hlinked' : Linked place fp
          { ctx with names := (id.name, .var t (address total (d.variable id t))) :: ctx.names }
          (c.scopes.mapInnermost (.var (d.variable id t) :: ·)) := hlinked.declared hsized
          (by rintro _ ⟨⟩)
      obtain ⟨hrestsized, hdeclare⟩ := ih (fun d' hd => hds d' (List.mem_cons_of_mem d hd))
        (hs.adding hname) hlinked' (total + t.size)
      refine ⟨?_, ?_⟩
      · intro v hv
        rcases List.mem_cons.1 hv with rfl | hv
        · exact hsized
        · exact hrestsized v hv
      · simp only [declare, hid]
        rw [bind_of_ok (hnames w)]
        refine hdeclare.trans ?_
        simp only [bound, totalSize, Decl.variable, List.map_cons, List.sum_cons, Nat.add_assoc]

theorem mem_bound {address : Nat → Variable → Addr} {vs : List Variable} {total : Nat}
    {names : List (String × Sense)} {x : String × Sense} (h : x ∈ bound address total vs names) :
    x ∈ names ∨ ∃ v before, x = (v.name, .var v.type (address before v)) ∧
      before + v.type.size ≤ total + totalSize vs := by
  induction vs generalizing total names with
  | nil => exact .inl h
  | cons v vs ih =>
      simp only [totalSize, List.map_cons, List.sum_cons] at ih ⊢
      rcases ih h with hmem | ⟨u, before, rfl, hle⟩
      · rcases List.mem_cons.1 hmem with rfl | hmem
        · exact .inr ⟨v, total, rfl, by omega⟩
        · exact .inl hmem
      · exact .inr ⟨u, before, rfl, by omega⟩

theorem Linked.globals {e : Entry} {vs : List Variable} (h : Linked e.place fp ctx s)
    (hsized : ∀ v ∈ vs, v.type.Sized) (total : Nat) :
    Linked e.place fp { ctx with names := bound e.globalAddress total vs ctx.names }
      (s.mapInnermost (·.adding (vs.map atLabel))) := by
  induction vs generalizing ctx s total with
  | nil => simpa [bound] using h
  | cons v vs ih =>
      have hv : Linked e.place fp
          { ctx with names := (v.name, .var v.type (e.globalAddress total v)) :: ctx.names }
          (s.mapInnermost (.var (atLabel v) :: ·)) := by
        refine h.declared (hsized v List.mem_cons_self) fun storage hstorage => ?_
        cases hstorage
        rfl
      have hrest := ih hv (fun u hu => hsized u (List.mem_cons_of_mem v hu)) (total + v.type.size)
      simpa [bound] using hrest

/-- Local variables one below the other, when the frame pointer is at the top of the frame. -/
theorem Linked.locals {e : Entry} {vs : List Variable} (h : Linked place e.frame ctx s)
    (hsized : ∀ v ∈ vs, v.type.Sized) (total : Nat) :
    Linked place e.frame { ctx with names := bound e.localAddress total vs ctx.names }
      (s.mapInnermost (·.adding (inFrame total vs))) := by
  induction vs generalizing ctx s total with
  | nil => simpa [bound, inFrame] using h
  | cons v vs ih =>
      let v' : Variable :=
        { v with storage := some (.frame (total + v.type.size : Nat) v.type.size) }
      have hv : Linked place e.frame
          { ctx with names := (v.name, .var v.type (e.localAddress total v)) :: ctx.names }
          (s.mapInnermost (.var v' :: ·)) := by
        refine h.declared (hsized v List.mem_cons_self) fun storage hstorage => ?_
        cases hstorage
        rw [storageAddress, BitVec.ofInt_neg, BitVec.ofInt_natCast, ← BitVec.sub_eq_add_neg,
          Entry.localAddress]
      have hrest := ih hv (fun u hu => hsized u (List.mem_cons_of_mem v hu)) (total + v.type.size)
      simpa [bound, inFrame, v'] using hrest

end Meaning

end Tern
