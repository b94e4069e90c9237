import Tern.Proofs.Meaning.Simulation

/-!
# Simulation of expressions

The code of an expression keeps step with its run: it reaches a state in which the value compiled
denotes what the run yields, or both divide by zero.  An operand that stays in memory is loaded
when it is needed.  An assignment inside the expression may have changed it by then, and changes
it for the run in the same way.
-/

namespace Tern

/-! ## Assignments inside expressions -/

mutual

/-- An assignment stands in the expression.  The counts of array types are constants, so no
assignment can be there. -/
def Expr.assigns : Expr → Bool
  | .missing _ | .integer .. | .char .. | .name _ => false
  | .call _ args => args.assigns
  | .element place => place.assigns
  | .assign .. => true
  | .paren _ inner _ => inner.assigns
  | .reference _ operand | .negate _ operand | .cast operand .. => operand.assigns
  | .binary _ _ lhs rhs => lhs.assigns || rhs.assigns

def Place.assigns : Place → Bool
  | .var _ => false
  | .element array _ index _ => array.assigns || index.assigns

def Args.assigns : Args → Bool
  | .close _ => false
  | .cons arg rest => arg.assigns || rest.assigns

end

namespace Meaning

open Machine Assembly

variable {p : Platform} {ctx : Context} {fr : Frame} {c d e : Compilation} {b : Assembly}
  {u v l r : Value} {x y : Run Datum} {t : Ty} {k : Int}

/-! ## Compilations that a run can follow -/

/-- The names of the compilation are those of the run, and only registers of the pool are in
use. -/
structure Ready (p : Platform) (ctx : Context) (fr : Frame) (c : Compilation) : Prop where
  sound : c.scopes.Sound
  linked : Linked p.place fr.fp ctx c.scopes
  pooled : c.assembly.Pooled

theorem Ready.takes {made : List Register} (h : Ready p ctx fr c) (ht : c.Takes d made) :
    Ready p ctx fr d where
  sound := ht.scopes ▸ h.sound
  linked := ht.scopes ▸ h.linked
  pooled := ht.transfer.pooled h.pooled .nil

theorem Ready.like (h : Ready p ctx fr c) (hlike : c.Like d) : Ready p ctx fr d :=
  h.takes (.ofLike hlike)

/-! ## Runs that may store -/

section

variable {α β : Type} {still : Bool} {a b e : Assembly} {s s' : State} {w w' : World}
  {used made more : List Register} {m n : Datum}

/-- The code from `a` to `b` leads from `s` to `s'`, where the machine is where the run is.  It
leaves alone the registers that `used` does not own. -/
structure Lands (p : Platform) (ctx : Context) (fr : Frame) (a : Assembly) (used : List Register)
    (s : State) (b : Assembly) (s' : State) (w : World) : Prop extends Follows ctx fr s' w where
  runs : Runs p a s b (.ok s')
  regs : ∀ r, a.Kept used r → s'.regs r = s.regs r

namespace Lands

theorem ofReaches (h : Reaches p fr.sp a used s b s') (hs : Follows ctx fr s w) :
    Lands p ctx fr a used s b s' w :=
  ⟨hs.reaches h, h.runs, h.agrees.regs⟩

theorem trans {t : State} (h : Lands p ctx fr a used s b s' w) (htransfer : a.Transfer used b made)
    (h' : Lands p ctx fr b made s' e t w') : Lands p ctx fr a used s e t w' where
  toFollows := h'.toFollows
  runs := h.runs.trans h'.runs
  regs r hr := (h'.regs r (htransfer.kept hr)).trans (h.regs r hr)

theorem weaken (h : Lands p ctx fr a used s b s' w) (hsub : ∀ r ∈ used, r ∈ more) :
    Lands p ctx fr a more s b s' w :=
  ⟨h.toFollows, h.runs, fun r hr => h.regs r (hr.of_subset hsub)⟩

end Lands

/-- A value stands for the same datum as long as its registers are left alone, whatever is
stored meanwhile. -/
theorem Denotes.lands {y : Datum} (h : Denotes p fr.sp s v y)
    (hlands : Lands p ctx fr a used s b s' w) (hclosed : v.Closed)
    (hown : a.Owns (used ++ v.held)) : Denotes p fr.sp s' v y := by
  have hheld : ∀ r ∈ v.held, s'.regs r = s.regs r := fun r hr =>
    hlands.regs r (.inl ⟨hown.right.busy r hr, fun hu => hown.apart hu hr⟩)
  cases y with
  | void => exact h
  | number t n =>
      obtain ⟨htype, hmem, hholds⟩ := h
      refine ⟨htype, hmem, ?_⟩
      cases v with
      | const t k => exact hholds
      | reg t r =>
          change n = (s'.regs r).toNat % 2 ^ (8 * t.size)
          rw [hheld r (by simp [Value.held])]
          exact hholds
      | mem t m hs => exact absurd rfl (hmem t m hs)
  | location t x =>
      obtain ⟨m, hs, rfl, rfl⟩ := h
      exact ⟨m, hs, rfl, address_eq_of_closed hclosed hheld (hlands.regs _ kept_rbp)⟩

/-- From `a` to `b` the machine, in the state `s`, does what the run `x` does: it lands in a state
with `P`, or both divide by zero.  If it is to keep still, the world stays as it is. -/
def Performs (p : Platform) (ctx : Context) (fr : Frame) (still : Bool) (a : Assembly)
    (used : List Register) (s : State) (b : Assembly) (w : World) (x : Run α)
    (P : α → State → Prop) : Prop :=
  Ends (x w)
    (fun y w' => (still = true → w' = w) ∧ ∃ t, Lands p ctx fr a used s b t w' ∧ P y t)
    fun w' => (still = true → w' = w) ∧
      ∃ t, Runs p a s b (.error ⟨.divideError, t⟩) ∧ Mirrors ctx t w'

theorem Simulates.performs {x : Run α} {P : α → State → Prop}
    (h : Simulates p fr.sp a used s b w x P) (hs : Follows ctx fr s w) :
    Performs p ctx fr still a used s b w x P := by
  apply Ends.imp h
  · rintro y w' ⟨rfl, t, hreaches, hy⟩
    exact ⟨fun _ => rfl, t, .ofReaches hreaches hs, hy⟩
  · rintro w' ⟨rfl, t, hruns, hagrees⟩
    exact ⟨fun _ => rfl, t, hruns, hs.toMirrors.agrees hs.guards hagrees⟩

namespace Performs

variable {x : Run α} {f : α → Run β} {P Q : α → State → Prop} {R : β → State → Prop}

theorem imp (h : Performs p ctx fr still a used s b w x P)
    (hPQ : ∀ y t w', Lands p ctx fr a used s b t w' → P y t → Q y t) :
    Performs p ctx fr still a used s b w x Q := by
  apply Ends.imp h
  · rintro y w' ⟨hstill, t, hlands, hy⟩
    exact ⟨hstill, t, hlands, hPQ y t w' hlands hy⟩
  · exact fun _ h => h

theorem weaken (h : Performs p ctx fr still a used s b w x P) (hsub : ∀ r ∈ used, r ∈ more) :
    Performs p ctx fr still a more s b w x P := by
  apply Ends.imp h
  · rintro y w' ⟨hstill, t, hlands, hy⟩
    exact ⟨hstill, t, hlands.weaken hsub, hy⟩
  · exact fun _ h => h

theorem map {g : α → β} (h : Performs p ctx fr still a used s b w x P)
    (hPR : ∀ y t w', Lands p ctx fr a used s b t w' → P y t → R (g y) t) :
    Performs p ctx fr still a used s b w (do let y ← x; return g y) R := by
  apply Ends.bind h
  · exact fun _ h => h
  · rintro y w' ⟨hstill, t, hlands, hy⟩
    exact ⟨hstill, t, hlands, hPR y t w' hlands hy⟩

theorem bind (h : Performs p ctx fr still a used s b w x P) (htransfer : a.Transfer used b made)
    (hext : b.Extends e)
    (hf : ∀ y t w', Lands p ctx fr a used s b t w' → P y t →
      Performs p ctx fr still b made t e w' (f y) R) :
    Performs p ctx fr still a used s e w (x >>= f) R := by
  apply Ends.bind h
  · rintro w' ⟨hstill, t, hruns, hmirrors⟩
    exact ⟨hstill, t, hruns.stopped hext, hmirrors⟩
  · rintro y w' ⟨hstill, t, hlands, hy⟩
    apply Ends.imp (hf y t w' hlands hy)
    · rintro z w'' ⟨hstill', u, hlands', hz⟩
      exact ⟨fun h => (hstill' h).trans (hstill h), u, hlands.trans htransfer hlands', hz⟩
    · rintro w'' ⟨hstill', u, hruns, hmirrors⟩
      exact ⟨fun h => (hstill' h).trans (hstill h), u, hlands.runs.trans hruns, hmirrors⟩

/-- Two operands in turn, the first of which stays where it is, and what is done with them. -/
theorem both {x y : Run Datum} {g : Datum → Datum → Run α} {o : Assembly}
    (hx : Performs p ctx fr still a [] s b w x fun m t => Denotes p fr.sp t l m)
    (hl : a.Transfer [] b l.held) (hclosed : l.Closed)
    (hy : ∀ t w', Follows ctx fr t w' →
      Performs p ctx fr still b [] t e w' y fun n u => Denotes p fr.sp u r n)
    (hr : b.Transfer [] e r.held) (hext : e.Extends o)
    (hg : ∀ m n u w', Follows ctx fr u w' → Denotes p fr.sp u l m → Denotes p fr.sp u r n →
      Performs p ctx fr still e (l.held ++ r.held) u o w' (g m n) P) :
    Performs p ctx fr still a [] s o w (do let m ← x; let n ← y; g m n) P := by
  refine hx.bind hl (hr.lines.trans hext) fun m t w₁ hlands hm => ?_
  have hown : b.Owns ([] ++ l.held) := hl.owns
  have htransfer : b.Transfer l.held e (l.held ++ r.held) :=
    (hr.frame hown).congr (fun _ => Iff.rfl) List.perm_append_comm (fun _ => Iff.rfl) rfl .refl
  have hboth := (hy t w₁ hlands.toFollows).imp
    (Q := fun n u => Denotes p fr.sp u l m ∧ Denotes p fr.sp u r n)
    fun n u w₂ hlands' hn => ⟨hm.lands hlands' hclosed hown, hn⟩
  have hnil : ∀ q ∈ [], q ∈ l.held := by simp
  refine (hboth.weaken hnil).bind htransfer hext fun n u w₂ hlands' hu => ?_
  exact hg m n u w₂ hlands'.toFollows hu.1 hu.2

end Performs

theorem assign_performs {ty : Ty} {m : Address} {hs : List Register} {x : Value} {y z : Datum}
    (hstores : ¬still = true) (h : Emit.assignment (.value (.mem ty m hs)) (.value v) a = .ok x b)
    (hy : Denotes p fr.sp s (.mem ty m hs) y) (hz : Denotes p fr.sp s v z)
    (hf : Follows ctx fr s w) (hown : a.Owns hs) (hclosed : (Value.mem ty m hs).Closed)
    (htype : v.type = ty) (harray : ty.isArray = false) :
    Performs p ctx fr still a (hs ++ v.held) s b w (assign ctx y z)
      fun d t => Denotes p fr.sp t x d := by
  obtain rfl := hy.mem
  obtain ⟨_, _, _, _, -, -, htarget, -, rfl, -⟩ := Emit.assignment_ok h
  cases htarget
  simp only [assign, harray, Bool.false_eq_true, if_false]
  apply Ends.bind (fetch_ends hz hf (htype ▸ harray))
  · exact fun _ h => h.elim
  rintro ⟨ty', n⟩ w' ⟨rfl, -, hn⟩
  obtain ⟨t, hruns, hregs, hmem, houtput⟩ := assignment_stores h hown hclosed htype p s
  rw [hn.reading_eq] at hmem
  simp only
  split
  · have hmirrors : Mirrors ctx t { w' with mem := store w'.mem (s.address p m) ty.size n } := by
      refine ⟨fun y hy => ?_, houtput.trans hf.output⟩
      rw [hmem]
      simp only [store, hf.mem y hy]
    have hlands : Lands p ctx fr a [] s b t
        { w' with mem := store w'.mem (s.address p m) ty.size n } :=
      ⟨⟨hmirrors, hf.guards, (hregs _ kept_rsp).trans hf.rsp, (hregs _ kept_rbp).trans hf.rbp⟩,
        hruns, hregs⟩
    exact ⟨fun h => absurd h hstores, t, hlands.weaken (by simp), hy.lands hlands hclosed hown⟩
  · trivial

end

/-- From `c` to `d` the value `v` is compiled, and the code does what the run `x` does, which
yields what `v` denotes. -/
structure Enacts (p : Platform) (ctx : Context) (fr : Frame) (still : Bool) (c d : Compilation)
    (v : Value) (x : Run Datum) : Prop where
  sized : v.type.Sized
  performs : ∀ s w, Follows ctx fr s w →
    Performs p ctx fr still c.assembly [] s d.assembly w x fun y t => Denotes p fr.sp t v y

namespace Enacts

variable {still : Bool}

theorem after (hlike : c.Like d) (h : Enacts p ctx fr still d e v x) :
    Enacts p ctx fr still c e v x :=
  ⟨h.sized, hlike.assembly ▸ h.performs⟩

theorem like (h : Enacts p ctx fr still c d v x) (hlike : d.Like e) :
    Enacts p ctx fr still c e v x :=
  ⟨h.sized, hlike.assembly.symm ▸ h.performs⟩

theorem ofStill {y : Datum} (hsized : v.type.Sized) (hsame : d.assembly = c.assembly)
    (hx : ∀ w, x w = .ok y w)
    (hy : ∀ s w, Follows ctx fr s w → Denotes p fr.sp s v y) :
    Enacts p ctx fr still c d v x := by
  refine ⟨hsized, fun s w hs => ?_⟩
  rw [hsame]
  exact (Simulates.still (hx w) (hy s w hs)).performs hs

theorem constant (h : Constant x t k) (hsame : d.assembly = c.assembly) :
    Enacts p ctx fr still c d (.const t k) x := by
  obtain ⟨hsized, n, hk, hlt, hx⟩ := h
  exact .ofStill hsized hsame hx fun _ _ _ => ⟨rfl, nofun, hk, hlt⟩

theorem unary {f : Datum → Run Datum} (h : Enacts p ctx fr still c d u x)
    (hu : c.Computes d (.value u)) (hsized : v.type.Sized)
    (hb : d.assembly.Transfer u.held b v.held)
    (hf : ∀ s w y, Follows ctx fr s w → Denotes p fr.sp s u y →
      Simulates p fr.sp d.assembly u.held s b w (f y) fun z t => Denotes p fr.sp t v z) :
    Enacts p ctx fr still c { d with assembly := b } v (x >>= f) := by
  refine ⟨hsized, fun s w hs => ?_⟩
  refine (h.performs s w hs).bind hu.takes.transfer hb.lines fun y t w' hlands hy => ?_
  exact (hf t w' y hlands.toFollows hy).performs hlands.toFollows

theorem binary {f : Datum → Datum → Run Datum} (hx : Enacts p ctx fr still c d l x)
    (hl : c.Computes d (.value l)) (hy : Enacts p ctx fr still d e r y)
    (hr : d.Computes e (.value r)) (hsized : v.type.Sized)
    (hb : e.assembly.Transfer (l.held ++ r.held) b v.held)
    (hf : ∀ s w m n, Follows ctx fr s w → Denotes p fr.sp s l m → Denotes p fr.sp s r n →
      Performs p ctx fr still e.assembly (l.held ++ r.held) s b w (f m n)
        fun z t => Denotes p fr.sp t v z) :
    Enacts p ctx fr still c { e with assembly := b } v (do let m ← x; let n ← y; f m n) := by
  refine ⟨hsized, fun s w hs => ?_⟩
  exact (hx.performs s w hs).both hl.takes.transfer hl.closed hy.performs hr.takes.transfer
    hb.lines fun m n t w' ht hm hn => hf t w' m n ht hm hn

end Enacts

/-! ## Expressions -/

theorem variableNamed_enacts {still : Bool} {id : Ident}
    (h : Compile.variableNamed id c = .ok v d) (hc : Ready p ctx fr c) :
    ∃ t a, ctx.names.lookup id.name = some (.var t a) ∧
      Enacts p ctx fr still c d v (pure (.location t a)) := by
  obtain ⟨rfl, x, hx, hv⟩ := Compile.variableNamed_ok h
  obtain ⟨hsized, a, hlookup, haddress⟩ := hc.linked.var hx
  refine ⟨x.type, a, hlookup, ?_⟩
  have hone : BitVec.ofInt 64 1 = 1#64 := rfl
  obtain ⟨-, ⟨label, n, hstorage, rfl⟩ | ⟨offset, n, hstorage, rfl⟩⟩ := Emit.variableValue_ok hv
  · refine .ofStill hsized rfl (fun _ => rfl) fun s w _ => ⟨_, _, rfl, ?_⟩
    have hzero : BitVec.ofInt 64 0 = 0#64 := rfl
    rw [haddress _ hstorage, storageAddress, State.address]
    simp only [hone, hzero, BitVec.mul_one, BitVec.add_zero]
  · refine .ofStill hsized rfl (fun _ => rfl) fun s w hs => ⟨_, _, rfl, ?_⟩
    rw [haddress _ hstorage, storageAddress, State.address]
    simp only [hone, BitVec.mul_one, hs.rbp]

theorem call_enacts {still : Bool} {id : Ident} {q : Procedure} {vs : List Value}
    {args : Run (List Datum)} (h : Compile.call id q vs d = .ok (.value v) e)
    (hq : Emit.IsPredefined q) (hvs : c.Takes d (vs.flatMap Value.held))
    (hargs : ∀ s w, Follows ctx fr s w →
      Performs p ctx fr still c.assembly [] s d.assembly w args
        fun ds t => List.Forall₂ (Denotes p fr.sp t) vs ds) :
    Enacts p ctx fr still c e v (do let ds ← args; call ctx q.routine ds) := by
  have hext := (Compile.call_transfer hvs h).lines
  obtain ⟨htypes, b, hb, rfl⟩ := Compile.call_ok h
  refine ⟨call_sized hb hq, fun s w hs => ?_⟩
  refine (hargs s w hs).bind hvs.transfer hext fun ds t w' hlands hds => ?_
  exact (call_simulates hb hq htypes hds hlands.toFollows).performs hlands.toFollows

variable {still : Bool}

/-- A tree that the compiler folds has no code, and its run yields the constant. -/
theorem item_const_enacts {tree : Expr} {t : Ty} {k : Int}
    (h : Compile.item tree c = .ok (.value (.const t k)) d) (ht : tree.Proper)
    (hc : Ready p ctx fr c) : Enacts p ctx fr still c d (.const t k) (expr ctx tree) :=
  .constant (item_constant h ht hc.sound hc.linked) ((Compile.item_computes h).const _ _ rfl)

-- The statements go together along the tree, as those of `item_computes`.  What is known of the
-- scopes and of the registers in use passes from each part to the next.
mutual

theorem item_enacts : ∀ {tree : Expr} {c d : Compilation} {v : Value},
    Compile.item tree c = .ok (.value v) d → tree.Proper →
    (still = true → tree.assigns = false) → Ready p ctx fr c →
    Enacts p ctx fr still c d v (expr ctx tree)
  | .missing _, _, _, _, h, _, _, _ => (Compile.item_missing_ok h).elim
  | .integer .., c, d, _, h, ht, _, hc => by
      obtain ⟨c₁, v, hlike, hv, heq⟩ := Compile.item_integer_ok h
      obtain ⟨t, -, -, rfl, -⟩ := Compile.integer_ok hv
      cases heq
      exact item_const_enacts h ht hc
  | .char .., _, _, _, h, ht, _, hc => by
      obtain ⟨t, -, heq, -⟩ := Compile.item_char_ok h
      cases heq
      exact item_const_enacts h ht hc
  | .name id, _, _, _, h, _, _, hc => by
      obtain ⟨c₁, hlike, ⟨q, hq, hcall⟩ | ⟨v, hv, heq⟩⟩ := Compile.item_name_ok h
      · have hargs : ∀ s w, Follows ctx fr s w →
            Performs p ctx fr still c₁.assembly [] s c₁.assembly w (pure [])
              fun ds t => List.Forall₂ (Denotes p fr.sp t) [] ds :=
          fun s w hs => (Simulates.still rfl .nil).performs hs
        have hrun := call_enacts hcall (hc.sound.isPredefined hq) (.ofLike (.refl c₁)) hargs
        simp only [expr, hc.linked.procedure hq]
        exact .after hlike hrun
      · cases heq
        obtain ⟨t, a, hlookup, hrun⟩ := variableNamed_enacts hv (hc.like hlike)
        simp only [expr, hlookup]
        exact .after hlike hrun
  | .call .., _, _, _, h, ht, hflat, hc => by
      obtain ⟨q, c₁, vs, c₂, hq, hlike, hargs, hcall⟩ := Compile.item_call_ok h
      have hrun := call_enacts hcall (hc.sound.isPredefined hq) (Compile.arguments_takes hargs)
        (arguments_perform hargs ht hflat (hc.like hlike))
      simp only [expr, hc.linked.procedure hq]
      exact .after hlike hrun
  | .element _, _, _, _, h, ht, hflat, hc => by
      obtain ⟨v, hv, heq⟩ := Compile.item_element_ok h
      cases heq
      simpa only [expr] using place_enacts hv ht hflat hc
  | .assign .., _, _, _, h, ht, hflat, hc => by
      obtain ⟨l, c₁, c₂, r, c₃, x, hl, harray, hlike, hr, hassign, heq⟩ := Compile.item_assign_ok h
      cases heq
      obtain ⟨ty, m, hs, rfl⟩ := Compile.place_eq_mem hl
      obtain ⟨htype, b, hb, rfl⟩ := Compile.assign_ok hassign
      have hstores : ¬still = true := by simpa [Expr.assigns] using hflat
      have hlcomputes := Compile.place_computes hl
      have hrcomputes := Compilation.Computes.after hlike (Compile.item_computes hr)
      have hc₁ := hc.takes hlcomputes.takes
      have hleft := place_enacts hl ht.1 (fun h => absurd h hstores) hc
      have hright := Enacts.after hlike
        (item_enacts hr ht.2 (fun h => absurd h hstores) (hc₁.like hlike))
      have hboth := hlcomputes.takes.seq hrcomputes.takes
      have htransfer := Emit.assignment_transfer hb hboth.owns
      obtain ⟨_, _, _, _, -, -, htarget, -, rfl, -⟩ := Emit.assignment_ok hb
      cases htarget
      simp only [expr]
      -- the target is worked out first, and its address still holds behind the source
      refine hleft.binary hlcomputes hright hrcomputes hleft.sized htransfer
        fun s w y z hf hy hz => ?_
      exact assign_performs hstores hb hy hz hf hboth.owns.left hlcomputes.closed htype.symm harray
  | .paren .., _, _, _, h, ht, hflat, hc => by
      obtain ⟨c₁, v, c₂, hlike, hv, hlike', heq⟩ := Compile.item_paren_ok h
      cases heq
      simpa only [expr] using
        Enacts.after hlike ((item_enacts hv ht.1 hflat (hc.like hlike)).like hlike')
  | .reference .., _, _, _, h, ht, hflat, hc => by
      obtain ⟨c₁, j, c₂, v, hlike, hj, hv, heq⟩ := Compile.item_reference_ok h
      cases heq
      obtain ⟨-, b, hb, rfl⟩ := Compile.reference_ok hv
      obtain ⟨t, m, hs, q, rfl, -, rfl, -⟩ := Emit.reference_ok hb
      have hinner := item_enacts hj ht hflat (hc.like hlike)
      have hcomputes := Compile.item_computes hj
      simp only [expr]
      refine .after hlike (hinner.unary hcomputes hinner.sized
        (Emit.reference_transfer hb hcomputes.takes.owns) fun s w y _ hy => ?_)
      exact reference_simulates hb hy
  | .negate .., _, _, _, h, ht, hflat, hc => by
      obtain ⟨c₁, j, c₂, v, hlike, hj, hv, heq⟩ := Compile.item_negate_ok h
      cases heq
      obtain ⟨u, rfl, hbuiltin, ⟨t, n, rfl, rfl, rfl⟩ | ⟨-, b, hb, rfl⟩⟩ := Compile.negate_ok hv
      · exact item_const_enacts h ht hc
      · have hinner := item_enacts hj ht hflat (hc.like hlike)
        have hcomputes := Compile.item_computes hj
        have htransfer := Emit.negate_transfer hb hcomputes.takes.owns
        obtain ⟨_, q, _, _, hu, -, -, -, -, rfl, -⟩ := Emit.negate_ok hb
        cases hu
        simp only [expr]
        refine .after hlike (hinner.unary hcomputes hinner.sized htransfer fun s w y hs hy => ?_)
        exact negate_simulates hb hy hs (Compile.isArray_of_isBuiltin hbuiltin)
  | .cast .., c, _, _, h, ht, hflat, hc => by
      obtain ⟨u, c₁, c₂, t, c₃, v, hu, hlike, htype, hv, heq⟩ := Compile.item_cast_ok h
      cases heq
      obtain ⟨harray, harray', ⟨s, n, rfl, rfl, rfl⟩ | ⟨-, b, hb, rfl⟩⟩ := Compile.cast_ok hv
      · exact item_const_enacts h ht hc
      · have hcomputes := (Compile.item_computes hu).like (hlike.trans (Compile.type_like htype))
        have hc₂ := (hc.takes (Compile.item_computes hu).takes).like hlike
        obtain ⟨hsized, hnames⟩ := type_names htype ht.2 hc₂.sound hc₂.linked
        have hinner := (item_enacts hu ht.1 hflat hc).like
          (hlike.trans (Compile.type_like htype))
        simp only [expr]
        refine hinner.unary hcomputes (Emit.convert_type hb ▸ hsized)
          (Emit.convert_transfer hb hcomputes.takes.owns) fun s w y hs hy => ?_
        refine .look (Z := fun t' => t' = t) ?_ ?_
        · rw [hnames w]
          exact ⟨rfl, rfl⟩
        · rintro _ rfl
          exact cast_simulates hb hy hs (hc.takes hcomputes.takes).pooled hcomputes.takes.owns
            hcomputes.closed harray' harray
  | .binary .., c, _, _, h, ht, hflat, hc => by
      obtain ⟨l, c₁, c₂, r, c₃, v, hl, hlike, hr, hv, heq⟩ := Compile.item_binary_ok h
      cases heq
      obtain ⟨hadmits, ⟨lt, m, rt, n, t, k, rfl, rfl, -, rfl, rfl⟩ | ⟨-, b, hb, rfl⟩⟩ :=
        Compile.binary_ok hv
      · exact item_const_enacts h ht hc
      · simp only [Expr.assigns, Bool.or_eq_false_iff] at hflat
        have hlcomputes := Compile.item_computes hl
        have hrcomputes := Compilation.Computes.after hlike (Compile.item_computes hr)
        have hc₁ := hc.takes hlcomputes.takes
        have hleft := item_enacts hl ht.1 (fun h => (hflat h).1) hc
        have hright := Enacts.after hlike
          (item_enacts hr ht.2 (fun h => (hflat h).2) (hc₁.like hlike))
        have hboth := hlcomputes.takes.seq hrcomputes.takes
        have htransfer := Emit.operate_transfer hb hboth.owns
        simp only [expr]
        refine hleft.binary hlcomputes hright hrcomputes ?_ htransfer fun s w m n hs hm hn => ?_
        · rw [Emit.operate_type hb]
          exact hleft.sized.wider hright.sized
        · exact (binary_simulates hb hadmits hm hn hs (hc.takes hboth).pooled hboth.owns
            hlcomputes.closed hrcomputes.closed).performs hs

theorem place_enacts : ∀ {tree : Place} {c d : Compilation} {v : Value},
    Compile.place tree c = .ok v d → tree.Proper →
    (still = true → tree.assigns = false) → Ready p ctx fr c →
    Enacts p ctx fr still c d v (place ctx tree)
  | .var _, _, _, _, h, _, _, hc => by
      obtain ⟨c₁, hlike, hv⟩ := Compile.place_var_ok h
      obtain ⟨t, a, hlookup, hrun⟩ := variableNamed_enacts hv (hc.like hlike)
      simp only [place, hlookup]
      exact .after hlike hrun
  | .element .., c, _, _, h, ht, hflat, hc => by
      obtain ⟨a, c₁, c₂, k, c₃, c₄, b, ha, -, hlike, hk, hby, hlike', hb, rfl⟩ :=
        Compile.place_element_ok h
      obtain ⟨ta, m, hs, rfl⟩ := Compile.place_eq_mem ha
      simp only [Place.assigns, Bool.or_eq_false_iff] at hflat
      have hlcomputes := Compile.place_computes ha
      have hrcomputes := Compilation.Computes.after hlike ((Compile.item_computes hk).like hlike')
      have hc₁ := hc.takes hlcomputes.takes
      have hleft := place_enacts ha ht.1 (fun h => (hflat h).1) hc
      have hright := Enacts.after hlike
        ((item_enacts hk ht.2.1 (fun h => (hflat h).2) (hc₁.like hlike)).like hlike')
      have hboth := hlcomputes.takes.seq hrcomputes.takes
      have htransfer := Emit.element_transfer hb hboth.owns
      obtain ⟨-, _, _, te, m', hs', harray, -, hte, rfl⟩ := Emit.element_eq_mem hb
      cases harray
      have hsized : te.Sized := hleft.sized.element hte
      simp only [place]
      refine hleft.binary hlcomputes hright hrcomputes hsized htransfer fun s w m n hf hm hn => ?_
      exact (element_simulates hb hm hn hf (hc.takes hboth).pooled hboth.owns hrcomputes.closed
        hte hsized.size_lt (Compile.canIndex_scalar hby)).performs hf

theorem arguments_perform : ∀ {tree : Args} {c d : Compilation} {vs : List Value},
    Compile.arguments tree c = .ok vs d → tree.Proper →
    (still = true → tree.assigns = false) → Ready p ctx fr c → ∀ s w, Follows ctx fr s w →
    Performs p ctx fr still c.assembly [] s d.assembly w (arguments ctx tree)
      fun ds t => List.Forall₂ (Denotes p fr.sp t) vs ds
  | .close _, _, _, _, h, _, _, _, s, w, hs => by
      obtain ⟨rfl, hlike⟩ := Compile.arguments_close_ok h
      rw [hlike.assembly]
      simp only [arguments]
      exact (Simulates.still rfl .nil).performs hs
  | .cons .., c, _, _, h, ht, hflat, hc, s, w, hs => by
      obtain ⟨v, c₁, c₂, vs, hv, hlike, hvs, rfl⟩ := Compile.arguments_cons_ok h
      simp only [Args.assigns, Bool.or_eq_false_iff] at hflat
      have hcomputes := Compile.item_computes hv
      have hfirst := item_enacts hv ht.1 (fun h => (hflat h).1) hc
      have hc₂ := (hc.takes hcomputes.takes).like hlike
      have htakes := Compilation.Takes.after hlike (Compile.arguments_takes hvs)
      have hown : c₁.assembly.Owns ([] ++ v.held) := hcomputes.takes.owns
      simp only [arguments]
      refine (hfirst.performs s w hs).bind hcomputes.takes.transfer htakes.transfer.lines
        fun y t w' hlands hy => ?_
      have hrest := arguments_perform hvs ht.2 (fun h => (hflat h).2) hc₂ t w' hlands.toFollows
      rw [hlike.assembly] at hrest
      have hnil : ∀ r ∈ [], r ∈ v.held := by simp
      refine Performs.weaken (hrest.map fun ds u w'' hlands' hds => ?_) hnil
      exact .cons (hy.lands hlands' hcomputes.closed hown) hds

end

end Meaning

end Tern
