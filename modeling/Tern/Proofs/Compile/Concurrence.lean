import Tern.Proofs.Compile.Stages
import Tern.Proofs.Emit.Locality
import Tern.Proofs.Tree.Alike

/-!
# Compiling trees that say the same

What a tree compiles to depends on what it says, not on where it stands or on the lines that have
been written before.  Trees that say the same, compiled in the same scopes with the same registers
in use, yield the same code or fail with errors that count as the same.
-/

namespace Tern

theorem Compilation.Takes.free {c d : Compilation} (h : c.Takes d [])
    (hfree : c.assembly.busy = []) : d.assembly.busy = [] := by
  rw [List.eq_nil_iff_forall_not_mem]
  intro r hr
  simpa [hfree] using (h.transfer.busy r).1 hr

/-- The second compilation has the same scopes and an assembly with other lines in front. -/
structure Compilation.Behind (front : Array Line) (c c' : Compilation) : Prop where
  scopes : c'.scopes = c.scopes
  assembly : c'.assembly = c.assembly.behind front

theorem Compilation.Behind.refl (c : Compilation) : c.Behind #[] c :=
  ⟨rfl, by simp [Assembly.behind]⟩

theorem Compilation.Behind.assembly_eq {c d : Compilation} (h : c.Behind #[] d) :
    d.assembly = c.assembly := by
  rw [h.assembly]
  simp [Assembly.behind]

def Args.isEmpty : Args → Bool
  | .close _ => true
  | .cons .. => false

inductive Failure.Alike (L : Likeness) : Failure → Failure → Prop where
  | problem {e e' : CompileError} (h : L.error e e') : Alike L (.problem e) (.problem e')
  | fault (f : Fault) : Alike L (.fault f) (.fault f)

namespace Compile

variable {α β : Type} {L : Likeness} {front : Array Line} {c c' : Compilation}

/-- Results that are the same, up to the lines in front and what may differ in an error. -/
inductive Tallies (L : Likeness) (front : Array Line) :
    EStateM.Result Failure Compilation α → EStateM.Result Failure Compilation α → Prop where
  | ok {v : α} {d d' : Compilation} (h : d.Behind front d') : Tallies L front (.ok v d) (.ok v d')
  | error {f f' : Failure} {d d' : Compilation} (h : f.Alike L f') :
      Tallies L front (.error f d) (.error f' d')

/-- Both operations do the same, whatever has been written before. -/
def Concurs (L : Likeness) (x y : Compile α) : Prop :=
  ∀ (front : Array Line) (c c' : Compilation), c.Behind front c' → Tallies L front (x c) (y c')

theorem Tallies.bind {x y : Compile α} {f g : α → Compile β} (hx : Tallies L front (x c) (y c'))
    (hf : ∀ v d d', x c = .ok v d → d.Behind front d' → Tallies L front (f v d) (g v d')) :
    Tallies L front ((x >>= f) c) ((y >>= g) c') := by
  simp only [Bind.bind, EStateM.bind]
  cases hxc : x c with
  | ok v d =>
      rw [hxc] at hx
      generalize y c' = r at hx ⊢
      cases hx with
      | ok hd => exact hf v d _ hxc hd
  | error e d =>
      rw [hxc] at hx
      generalize y c' = r at hx ⊢
      cases hx with
      | error he => exact .error he

namespace Concurs

theorem bind {x y : Compile α} {f g : α → Compile β} (hx : Concurs L x y)
    (hf : ∀ v, Concurs L (f v) (g v)) : Concurs L (x >>= f) (y >>= g) :=
  fun front c c' h => (hx front c c' h).bind fun v d d' _ hd => hf v front d d' hd

theorem via (hL : ∀ {a b c}, L.error a c → L.error b c → L.error a b) {x y z : Compile α}
    (hx : Concurs L x z) (hy : Concurs L y z) : Concurs L x y := by
  intro front c c' h
  have hxz := hx front c c' h
  have hyz := hy #[] c' c' (.refl c')
  generalize x c = rx at hxz ⊢
  generalize y c' = ry at hyz ⊢
  generalize z c' = rz at hxz hyz
  cases hxz with
  | @ok v d d' hd =>
      cases hyz with
      | @ok _ e _ he =>
          refine .ok ⟨he.scopes.symm.trans hd.scopes, ?_⟩
          rw [← hd.assembly, he.assembly]
          simp [Assembly.behind]
  | error hd =>
      cases hyz with
      | error he =>
          cases hd with
          | problem hd =>
              cases he with
              | problem he => exact .error (.problem (hL hd he))
          | fault f =>
              cases he with
              | fault => exact .error (.fault f)

theorem pure (v : α) : Concurs L (pure v : Compile α) (Pure.pure v) := fun _ _ _ h => .ok h

theorem throw {f f' : Failure} (h : f.Alike L f') :
    Concurs L (throw f : Compile α) (MonadExcept.throw f') := fun _ _ _ _ => .error h

theorem fail (p : Problem) {pos pos' : Position} (h : pos.Alike L pos') :
    Concurs L (fail p pos : Compile α) (Compile.fail p pos') := throw (.problem (h p))

theorem get {f g : Compilation → Compile α}
    (h : ∀ c c' : Compilation, c'.scopes = c.scopes → Concurs L (f c) (g c')) :
    Concurs L (get >>= f) (MonadState.get >>= g) :=
  fun front c c' hc => h c c' hc.scopes front c c' hc

theorem modify {f g : Compilation → Compilation}
    (h : ∀ front c c', Compilation.Behind front c c' → (f c).Behind front (g c')) :
    Concurs L (modify f : Compile PUnit) (modify g) :=
  fun front c c' hc => .ok (h front c c' hc)

theorem emit {x : Emit α} (hx : x.Local) : Concurs L (emit x) (Compile.emit x) := by
  intro front c c' hc
  simp only [Compile.emit, hc.assembly, hx front c.assembly]
  cases x c.assembly with
  | ok v a => exact .ok ⟨hc.scopes, rfl⟩
  | error f a => exact .error (.fault f)

theorem require (cond : Bool) (p : Problem) {pos pos' : Position} (h : pos.Alike L pos') :
    Concurs L (require cond p pos) (Compile.require cond p pos') := by
  unfold Compile.require
  split
  · exact pure ()
  · exact fail p h

theorem take (n : Nat) : Concurs L (take n) (Compile.take n) :=
  modify fun _ _ _ h => ⟨h.scopes, h.assembly⟩

theorem take_bind (n : Nat) {x y : Compile α} (h : Concurs L x y) :
    Concurs L (do Compile.take n; x) y :=
  fun front _ c' hc => h front _ c' ⟨hc.scopes, hc.assembly⟩

theorem stop {why why' : CompileError} (h : L.error why why') :
    Concurs L (stop why : Compile α) (Compile.stop why') := by
  refine bind (modify ?_) fun _ => throw (.problem h)
  exact fun _ _ _ h => ⟨h.scopes, h.assembly⟩

theorem stop_bind {why why' : CompileError} {f g : α → Compile β} (h : L.error why why') :
    Concurs L (Compile.stop why >>= f) (Compile.stop why' >>= g) :=
  fun _ _ _ _ => .error (.problem h)

theorem pass (n : Nat) {r r' : Read Unit} (h : r.Alike L Eq r') :
    Concurs L (pass n r) (Compile.pass n r') := by
  cases r with
  | ok u =>
      cases r' with
      | ok u' => exact take n
      | error why' => exact h.elim
  | error why =>
      cases r' with
      | ok u' => exact h.elim
      | error why' => exact stop h

end Concurs

/-! ## Names -/

theorem lookup_concurs (name : String) : Concurs L (lookup name) (lookup name) := by
  refine .get fun c c' hscopes => ?_
  rw [hscopes]
  exact .pure _

theorem predefinedType_concurs (b : Builtin) :
    Concurs L (predefinedType b) (predefinedType b) := by
  refine .get fun c c' hscopes => ?_
  rw [hscopes]
  split
  · exact .pure _
  · exact .throw (.fault _)

section

variable {id id' : Ident} (hid : id.Alike L id')

include hid

theorem variableOf_concurs : Concurs L (variableOf id) (variableOf id') := by
  unfold variableOf
  rw [hid.name]
  refine (lookup_concurs id.name).bind fun x => ?_
  split
  · exact .pure _
  · exact .fail _ hid.pos
  · exact .fail _ hid.pos

theorem typeOf_concurs : Concurs L (typeOf id) (typeOf id') := by
  unfold typeOf
  rw [hid.name]
  refine (lookup_concurs id.name).bind fun x => ?_
  split
  · exact .pure _
  · exact .fail _ hid.pos
  · exact .fail _ hid.pos

theorem procedureOf_concurs : Concurs L (procedureOf id) (procedureOf id') := by
  unfold procedureOf
  rw [hid.name]
  refine (lookup_concurs id.name).bind fun x => ?_
  split
  · exact .pure _
  · exact .fail _ hid.pos
  · exact .fail _ hid.pos

theorem variableNamed_concurs : Concurs L (variableNamed id) (variableNamed id') :=
  (variableOf_concurs hid).bind fun v => (Concurs.require _ _ hid.pos).bind fun _ =>
    .emit (Emit.variableValue_local v)

theorem checkArguments_concurs (ordinal : Nat) (wants : List Ty) (gots : List Value) :
    Concurs L (checkArguments id ordinal wants gots) (checkArguments id' ordinal wants gots) := by
  induction wants generalizing ordinal gots with
  | nil => exact .pure ()
  | cons want wants ih =>
      cases gots with
      | nil => exact .pure ()
      | cons got gots =>
          rw [checkArguments, checkArguments, hid.name]
          exact (Concurs.require _ _ hid.pos).bind fun _ => ih _ _

theorem call_concurs (p : Procedure) (args : List Value) :
    Concurs L (call id p args) (call id' p args) := by
  unfold call
  rw [hid.name]
  exact (Concurs.require _ _ hid.pos).bind fun _ => (checkArguments_concurs hid 1 _ _).bind fun _ =>
    .emit (Emit.call_local _ _)

end

/-! ## Operations on values -/

section

variable {pos pos' : Position} (hpos : pos.Alike L pos')

include hpos

theorem asValue_concurs (i : Item) : Concurs L (asValue pos i) (asValue pos' i) := by
  cases i with
  | value v => exact .pure v
  | void => exact .fail _ hpos

theorem integer_concurs (digits : String) (isLong : Bool) :
    Concurs L (integer pos digits isLong) (integer pos' digits isLong) :=
  (predefinedType_concurs _).bind fun _ => (Concurs.require _ _ hpos).bind fun _ => .pure _

theorem reference_concurs (i : Item) : Concurs L (reference pos i) (reference pos' i) :=
  (Concurs.require _ _ hpos).bind fun _ => .emit (Emit.reference_local i)

theorem negate_concurs (i : Item) : Concurs L (negate pos i) (negate pos' i) := by
  refine (asValue_concurs hpos i).bind fun v => (Concurs.require _ _ hpos).bind fun _ => ?_
  split
  · exact .pure _
  · exact .emit (Emit.negate_local _)

theorem cast_concurs (v : Value) (t : Ty) : Concurs L (cast pos v t) (cast pos' v t) := by
  refine (Concurs.require _ _ hpos).bind fun _ => ?_
  split
  · exact .pure _
  · exact .emit (Emit.convert_local _ _)

omit hpos in
theorem operate_local (op : BinaryOp) (lhs rhs : Value) : (operate op lhs rhs).Local := by
  unfold operate
  split
  · exact Emit.operation_local _ _ _
  · exact (Emit.balance_local lhs rhs).bind fun _ => Emit.operation_local _ _ _

theorem binary_concurs (op : BinaryOp) (lhs rhs : Value) :
    Concurs L (binary op pos lhs rhs) (binary op pos' lhs rhs) := by
  refine (Concurs.require _ _ hpos).bind fun _ => (Concurs.require _ _ hpos).bind fun _ => ?_
  split
  · split
    · exact .pure _
    · exact .fail _ hpos
  · exact .emit (operate_local _ _ _)

theorem assign_concurs (target source : Value) :
    Concurs L (assign pos target source) (assign pos' target source) :=
  (Concurs.require _ _ hpos).bind fun _ => .emit (Emit.assignment_local _ _)

theorem arrayCount_concurs (v : Value) : Concurs L (arrayCount pos v) (arrayCount pos' v) := by
  cases v with
  | const t n => exact (Concurs.require _ _ hpos).bind fun _ => .pure _
  | reg t r => exact .fail _ hpos
  | mem t a holds => exact .fail _ hpos

end

/-! ## Expressions -/

theorem item_operation {e : Expr} (he : e.isOperation = true) {i : Item} {d : Compilation}
    (h : item e c = .ok i d) : ∃ v, i = .value v := by
  cases e with
  | missing | integer | char | name | call | element | assign | paren => cases he
  | reference pos e | negate pos e =>
      simp only [item, bind_eq_ok, pure_eq_ok] at h
      obtain ⟨_, _, _, _, _, _, v, _, _, rfl, _⟩ := h
      exact ⟨v, rfl⟩
  | cast e pos t =>
      simp only [item, bind_eq_ok, pure_eq_ok] at h
      obtain ⟨_, _, _, _, _, _, _, _, _, _, _, _, v, _, _, rfl, _⟩ := h
      exact ⟨v, rfl⟩
  | binary op pos l r =>
      simp only [item, bind_eq_ok, pure_eq_ok] at h
      obtain ⟨_, _, _, _, _, _, _, _, _, _, _, _, _, _, _, v, _, _, rfl, _⟩ := h
      exact ⟨v, rfl⟩

theorem Concurs.enclosed {e e' : Expr} (pos : Position) (he : e'.isOperation = true)
    (h : Concurs L (item e) (item e')) :
    Concurs L (item (.paren pos e (.ok ()))) (item e') := by
  rw [item]
  refine .take_bind 1 fun front c c' hc => ?_
  have hitem := h front c c' hc
  simp only [Bind.bind, EStateM.bind]
  cases hi : item e c with
  | error f d =>
      rw [hi] at hitem
      generalize item e' c' = r at hitem ⊢
      cases hitem with
      | error hf => exact .error hf
  | ok i d =>
      rw [hi] at hitem
      cases hi' : item e' c' with
      | error f d' => rw [hi'] at hitem; cases hitem
      | ok i' d' =>
          rw [hi'] at hitem
          obtain ⟨v, rfl⟩ := item_operation he hi'
          cases hitem with
          | ok hd => exact .ok ⟨hd.scopes, hd.assembly⟩

theorem arguments_cons (arg : Expr) (rest : Args) :
    arguments (.cons arg rest) = (do
      let i ← item arg
      let v ← asValue arg.start i
      if !rest.isEmpty then
        take 1
      let vs ← arguments rest
      return v :: vs) := by
  cases rest <;> rfl

/-- What trees that say the same compile to. -/
def TreesConcur (L : Likeness) : Tree → Tree → Prop
  | .expr e, .expr e' => Concurs L (item e) (item e') ∧ Concurs L (statement e) (statement e')
  | .place p, .place p' => Concurs L (place p) (place p')
  | .args as, .args as' =>
      Concurs L (arguments as) (arguments as') ∧ as'.isEmpty = as.isEmpty
  | .type t, .type t' => Concurs L (type t) (type t')
  | _, _ => False

theorem TreesConcur.join (hL : ∀ {a b c}, L.error a c → L.error b c → L.error a b)
    {t t' t'' : Tree} (h : TreesConcur L t t'') (h' : TreesConcur L t' t'') :
    TreesConcur L t t' := by
  cases t with
  | expr e =>
      cases t'' with
      | expr e'' =>
          cases t' with
          | expr e' => exact ⟨h.1.via hL h'.1, h.2.via hL h'.2⟩
          | place | args | type => exact h'.elim
      | place | args | type => exact h.elim
  | place p =>
      cases t'' with
      | place p'' =>
          cases t' with
          | place p' => exact Concurs.via hL h h'
          | expr | args | type => exact h'.elim
      | expr | args | type => exact h.elim
  | args as =>
      cases t'' with
      | args as'' =>
          cases t' with
          | args as' => exact ⟨h.1.via hL h'.1, h'.2.symm.trans h.2⟩
          | expr | place | type => exact h'.elim
      | expr | place | type => exact h.elim
  | type t =>
      cases t'' with
      | type t'' =>
          cases t' with
          | type t' => exact Concurs.via hL h h'
          | expr | place | args => exact h'.elim
      | expr | place | args => exact h.elim

section

variable (hL : ∀ {e e'}, L.error e e' → e.pos.Alike L e'.pos)

include hL

theorem trees_concur {t t' : Tree} (h : Tree.Alike L t t') : TreesConcur L t t' := by
  have hstart {e e' : Expr} (h : e.Alike L e') : e.start.Alike L e'.start := h.startsAlike hL
  have hroot {p p' : Place} (h : p.Alike L p') : p.root.pos.Alike L p'.root.pos :=
    h.startsAlike hL
  -- Most expressions are compiled the same way where they are statements.
  have hboth {e e' : Expr} (h : Concurs L (item e) (item e')) (hs : statement e = item e)
      (hs' : statement e' = item e') : TreesConcur L (.expr e) (.expr e') :=
    ⟨h, by rw [hs, hs']; exact h⟩
  induction h with
  | missing h =>
      refine hboth ?_ rfl rfl
      simp only [item]
      exact .stop h
  | integer hpos =>
      refine hboth ?_ rfl rfl
      simp only [item]
      exact (Concurs.take 1).bind fun _ => (integer_concurs hpos _ _).bind fun _ => .pure _
  | char hpos =>
      refine hboth ?_ rfl rfl
      simp only [item]
      exact (Concurs.take 1).bind fun _ => (predefinedType_concurs _).bind fun _ => .pure _
  | @name id id' hid =>
      constructor
      · simp only [item]
        rw [hid.name]
        refine (Concurs.take 1).bind fun _ => (lookup_concurs id.name).bind fun x => ?_
        split
        · exact call_concurs hid _ _
        · exact (variableNamed_concurs hid).bind fun _ => .pure _
      · simp only [statement]
        rw [hid.name]
        refine (Concurs.take 1).bind fun _ => (lookup_concurs id.name).bind fun x => ?_
        split
        · exact call_concurs hid _ _
        · exact .fail _ hid.pos
  | call hid _ ih =>
      refine hboth ?_ rfl rfl
      simp only [item]
      exact (Concurs.take 1).bind fun _ => (procedureOf_concurs hid).bind fun _ =>
        (Concurs.take 1).bind fun _ => ih.1.bind fun _ => call_concurs hid _ _
  | element h ih =>
      constructor
      · simp only [item]
        exact Concurs.bind ih fun _ => .pure _
      · simp only [statement]
        exact Concurs.bind ih fun _ => .fail _ (hroot h)
  | assign hp hpos he ih ih' =>
      refine hboth ?_ rfl rfl
      simp only [item]
      exact Concurs.bind ih fun _ => (Concurs.require _ _ hpos).bind fun _ =>
        (Concurs.take 1).bind fun _ => ih'.1.bind fun _ =>
          (asValue_concurs (hstart he) _).bind fun _ => (assign_concurs hpos _ _).bind fun _ =>
            .pure _
  | paren hpos he hclose ih =>
      refine hboth ?_ rfl rfl
      simp only [item]
      exact (Concurs.take 1).bind fun _ => ih.1.bind fun _ =>
        (asValue_concurs (hstart he) _).bind fun _ => (Concurs.pass 1 hclose).bind fun _ => .pure _
  | reference hpos _ ih =>
      refine hboth ?_ rfl rfl
      simp only [item]
      exact (Concurs.take 1).bind fun _ => ih.1.bind fun _ =>
        (reference_concurs hpos _).bind fun _ => .pure _
  | negate hpos _ ih =>
      refine hboth ?_ rfl rfl
      simp only [item]
      exact (Concurs.take 1).bind fun _ => ih.1.bind fun _ =>
        (negate_concurs hpos _).bind fun _ => .pure _
  | cast he hpos _ ih ih' =>
      refine hboth ?_ rfl rfl
      simp only [item]
      exact ih.1.bind fun _ => (asValue_concurs (hstart he) _).bind fun _ =>
        (Concurs.take 1).bind fun _ => Concurs.bind ih' fun _ =>
          (cast_concurs hpos _ _).bind fun _ => .pure _
  | binary hpos hl hr ih ih' =>
      refine hboth ?_ rfl rfl
      simp only [item]
      exact ih.1.bind fun _ => (asValue_concurs (hstart hl) _).bind fun _ =>
        (Concurs.take 1).bind fun _ => ih'.1.bind fun _ =>
          (asValue_concurs (hstart hr) _).bind fun _ => (binary_concurs hpos _ _ _).bind fun _ =>
            .pure _
  | @enclosed pos e e' _ _ hoperation _ ih =>
      refine hboth (ih.1.enclosed pos hoperation) rfl ?_
      cases e' <;> first | rfl | cases hoperation
  | var hid =>
      show Concurs L _ _
      simp only [place]
      exact (Concurs.take 1).bind fun _ => variableNamed_concurs hid
  | elementPlace hp hpos he hclose ih ih' =>
      show Concurs L _ _
      simp only [place]
      exact Concurs.bind ih fun _ => (Concurs.require _ _ hpos).bind fun _ =>
        (Concurs.take 1).bind fun _ => ih'.1.bind fun _ =>
          (asValue_concurs (hstart he) _).bind fun _ =>
            (Concurs.require _ _ (hroot hp)).bind fun _ =>
              (Concurs.pass 1 hclose).bind fun _ => .emit (Emit.element_local _ _)
  | close hclose =>
      refine ⟨?_, rfl⟩
      simp only [arguments]
      exact (Concurs.pass 1 hclose).bind fun _ => .pure _
  | cons he _ ih ih' =>
      refine ⟨?_, rfl⟩
      rw [arguments_cons, arguments_cons, ih'.2]
      refine ih.1.bind fun _ => (asValue_concurs (hstart he) _).bind fun _ => ?_
      split
      · exact (Concurs.take 1).bind fun _ => ih'.1.bind fun _ => .pure _
      · exact ih'.1.bind fun _ => .pure _
  | missingType h =>
      show Concurs L _ _
      simp only [type]
      exact .stop h
  | named hid =>
      show Concurs L _ _
      simp only [type]
      exact (typeOf_concurs hid).bind fun _ => (Concurs.take 1).bind fun _ => .pure _
  | pointer _ ih =>
      show Concurs L _ _
      simp only [type]
      exact Concurs.bind ih fun _ => (Concurs.take 1).bind fun _ => .pure _
  | array _ hpos he hclose ih ih' =>
      show Concurs L _ _
      simp only [type]
      exact Concurs.bind ih fun _ => (Concurs.take 1).bind fun _ => ih'.1.bind fun _ =>
        (asValue_concurs (hstart he) _).bind fun _ => (arrayCount_concurs hpos _).bind fun _ =>
          (Concurs.pass 1 hclose).bind fun _ => (Concurs.require _ _ hpos).bind fun _ => .pure _
  | stopped _ hwhy ih =>
      show Concurs L _ _
      simp only [type]
      exact Concurs.bind ih fun _ => .stop hwhy
  | join hjoin _ _ ih ih' => exact ih.join hjoin ih'

theorem statement_concurs {e e' : Expr} (h : e.Alike L e') :
    Concurs L (statement e) (statement e') :=
  (trees_concur hL h).2

theorem type_concurs {t t' : TypeExpr} (h : t.Alike L t') : Concurs L (type t) (type t') :=
  trees_concur hL h

end

/-! ## Declarations -/

theorem declared_concurs (name : String) : Concurs L (declared name) (declared name) := by
  refine .get fun c c' hscopes => ?_
  rw [hscopes]
  split
  · exact .pure _
  · exact .throw (.fault _)

theorem placeVariable_concurs (v : Variable) (storage : Storage) :
    Concurs L (placeVariable v storage) (placeVariable v storage) := by
  unfold placeVariable
  split
  · exact .throw (.fault _)
  · exact .modify fun _ _ _ h => ⟨by rw [h.scopes], h.assembly⟩

theorem layOutGlobals_concurs (names : List String) :
    Concurs L (layOutGlobals names) (layOutGlobals names) := by
  have hexport : Concurs L (exportLabels names) (exportLabels names) := by
    induction names with
    | nil => exact .pure ()
    | cons name names ih =>
        refine (declared_concurs name).bind fun v => ?_
        split
        · exact (Concurs.emit (Emit.write_local _)).bind fun _ => ih
        · exact ih
  have hdefine : Concurs L (defineGlobals names) (defineGlobals names) := by
    clear hexport
    induction names with
    | nil => exact .pure ()
    | cons name names ih =>
        exact (declared_concurs name).bind fun v =>
          (Concurs.emit (Emit.unitWidth_local _)).bind fun _ =>
            (placeVariable_concurs _ _).bind fun _ =>
              (Concurs.emit (Emit.write_local _)).bind fun _ => ih
  exact hexport.bind fun _ => hdefine

theorem layOutLocals_concurs (names : List String) :
    Concurs L (layOutLocals names) (layOutLocals names) := by
  have hplace (total : Nat) : Concurs L (placeLocals total names) (placeLocals total names) := by
    induction names generalizing total with
    | nil => exact .pure _
    | cons name names ih =>
        exact (declared_concurs name).bind fun v =>
          (placeVariable_concurs _ _).bind fun _ => ih _
  exact (Concurs.emit Emit.frameBytes_local).bind fun _ => (hplace _).bind fun _ =>
    .emit (Emit.openFrame_local _)

theorem declName_concurs {d d' : Decl} (h : d.Alike L d') {f g : Ident → Compile β}
    (hf : ∀ {id id' : Ident}, id.Alike L id' → Concurs L (f id) (g id')) :
    Concurs L (declName d >>= f) (declName d' >>= g) := by
  obtain ⟨exported, id, colon, t⟩ := d
  obtain ⟨exported', id', colon', t'⟩ := d'
  obtain ⟨hexported, hid, -, -⟩ := h
  dsimp only at hexported hid
  cases hexported with
  | none =>
      cases id with
      | ok id =>
          cases id' with
          | ok id' => exact hf hid
          | error why' => exact hid.elim
      | error why =>
          cases id' with
          | ok id' => exact hid.elim
          | error why' => exact .stop_bind hid
  | some hpos =>
      simp only [declName, bind_assoc]
      refine .get fun c c' hscopes => ?_
      rw [hscopes]
      refine (Concurs.require _ _ hpos).bind fun _ => ?_
      cases id with
      | ok id =>
          cases id' with
          | ok id' =>
              have hid : id.Alike L id' := hid
              simp only [Option.isSome_some, if_true, bind_assoc, pure_bind, hid.name]
              exact (Concurs.take 1).bind fun _ =>
                (Concurs.require _ _ hid.pos).bind fun _ => hf hid
          | error why' => exact hid.elim
      | error why =>
          cases id' with
          | ok id' => exact hid.elim
          | error why' => exact .stop_bind hid

theorem declare_concurs (hL : ∀ {e e'}, L.error e e' → e.pos.Alike L e'.pos) (bytes : Nat)
    {d d' : Decl} (h : d.Alike L d') : Concurs L (declare bytes d) (declare bytes d') := by
  have hexported : d'.exported.isSome = d.exported.isSome := by
    obtain ⟨exported, _, _, _⟩ := d
    obtain ⟨exported', _, _, _⟩ := d'
    cases h.exported <;> rfl
  refine declName_concurs h fun {id id'} hid => (Concurs.pass 2 h.colon).bind fun _ =>
    (type_concurs hL h.type).bind fun t => .get fun c c' hscopes => ?_
  simp only [hscopes, hexported, hid.name]
  split
  · exact .fail _ hid.pos
  · refine Concurs.bind (.modify ?_) fun _ => (Concurs.require _ _ hid.pos).bind fun _ => .pure _
    exact fun _ _ _ h => ⟨rfl, h.assembly⟩

theorem declareAll_concurs (hL : ∀ {e e'}, L.error e e' → e.pos.Alike L e'.pos) (bytes : Nat)
    {ds ds' : List Decl} (h : List.Forall₂ (Decl.Alike L) ds ds') :
    Concurs L (declareAll bytes ds) (declareAll bytes ds') := by
  induction h generalizing bytes with
  | nil => exact .pure _
  | @cons d d' ds ds' hd hds ih =>
      have hempty : ds'.isEmpty = ds.isEmpty := by cases hds <;> rfl
      refine (declare_concurs hL bytes hd).bind fun r => ?_
      obtain ⟨name, total⟩ := r
      simp only [hempty]
      split
      · exact (Concurs.take 1).bind fun _ => (ih _).bind fun _ => .pure _
      · exact (ih _).bind fun _ => .pure _

theorem declList_concurs (hL : ∀ {e e'}, L.error e e' → e.pos.Alike L e'.pos) {l l' : DeclList}
    (h : l.Alike L l') : Concurs L (declList l) (declList l') := by
  refine (Concurs.pass 1 h.opening).bind fun _ => .get fun c c' hscopes => ?_
  rw [hscopes]
  split
  · exact (declareAll_concurs hL 0 h.decls).bind fun _ => layOutGlobals_concurs _
  · exact (Concurs.emit Emit.frameBytes_local).bind fun _ =>
      (declareAll_concurs hL _ h.decls).bind fun _ => layOutLocals_concurs _

theorem declLists_concur (hL : ∀ {e e'}, L.error e e' → e.pos.Alike L e'.pos)
    {l l' : Option DeclList} (h : Option.Rel (DeclList.Alike L) l l') :
    Concurs L (l.forM declList) (l'.forM declList) := by
  cases h with
  | none => exact .pure ()
  | some h => exact declList_concurs hL h

/-! ## Programs -/

theorem push_concurs : Concurs L push push :=
  .modify fun _ _ _ h => ⟨by rw [h.scopes], h.assembly⟩

theorem pop_concurs : Concurs L pop pop := by
  refine .get fun c c' hscopes => ?_
  rw [hscopes]
  split
  · exact .modify fun _ _ _ h => ⟨rfl, h.assembly⟩
  · exact .throw (.fault _)

theorem enter_concurs (hL : ∀ {e e'}, L.error e e' → e.pos.Alike L e'.pos) {p q : Program}
    (hglobals : Option.Rel (DeclList.Alike L) p.globals q.globals)
    (hopening : p.opening.Alike L Eq q.opening)
    (hlocals : Option.Rel (DeclList.Alike L) p.locals q.locals) :
    Concurs L (enter p) (enter q) :=
  (Concurs.emit Emit.programHead_local).bind fun _ =>
    (Concurs.emit Emit.dataHead_local).bind fun _ => (declLists_concur hL hglobals).bind fun _ =>
      (Concurs.emit (Emit.write_local _)).bind fun _ => (Concurs.pass 1 hopening).bind fun _ =>
        push_concurs.bind fun _ => (Concurs.emit Emit.enterProgram_local).bind fun _ =>
          declLists_concur hL hlocals

theorem leave_concurs {p q : Program} (hclose : p.body.close.Alike L Eq q.body.close)
    (hfinish : p.finish.Alike L Eq q.finish) : Concurs L (leave p) (leave q) :=
  (Concurs.pass 0 hclose).bind fun _ => (Concurs.emit Emit.leaveProgram_local).bind fun _ =>
    pop_concurs.bind fun _ => .pass 1 hfinish

/-- Where no register is in use, statements leave none in use, so that none is found to have
leaked. -/
theorem statements_concur (hL : ∀ {e e'}, L.error e e' → e.pos.Alike L e'.pos)
    {trees trees' : List Expr} (h : List.Forall₂ (Expr.Alike L) trees trees')
    (hc : c.Behind front c') (hfree : c.assembly.busy = []) :
    Tallies L front (statements trees c) (statements trees' c') := by
  induction h generalizing c c' with
  | nil => exact .ok hc
  | cons htree _ ih =>
      rw [statements, statements]
      refine (Concurs.emit Emit.live_local _ _ _ hc).bind fun before d d' hbefore hd => ?_
      obtain ⟨rfl, rfl⟩ := live_ok hbefore
      refine (statement_concurs hL htree _ _ _ hd).bind fun i e e' hi he => ?_
      have hfree' := (statement_takes hi).free hfree
      refine (Concurs.emit (Emit.discardItem_local i) _ _ _ he).bind
        fun _ e₁ e₁' hdiscard he₁ => ?_
      obtain rfl := discardItem_ok hdiscard
      refine (Concurs.emit Emit.live_local _ _ _ he₁).bind fun after e₂ e₂' hafter he₂ => ?_
      obtain ⟨rfl, rfl⟩ := live_ok hafter
      have hlive : (e.assembly.release i.held).live = d.assembly.live := by
        rw [Assembly.live, Assembly.live, hfree', hfree]
      rw [if_neg (not_not_intro hlive), if_neg (not_not_intro hlive)]
      exact ih he₂ hfree'

theorem program_concurs (hL : ∀ {e e'}, L.error e e' → e.pos.Alike L e'.pos) {p q : Program}
    (h : p.Alike L q) :
    Tallies L #[] (program p { scopes := .builtin }) (program q { scopes := .builtin }) := by
  rw [program_eq, program_eq]
  refine (enter_concurs hL h.globals h.opening h.locals _ _ _ (.refl _)).bind
    fun _ c c' henter hc => ?_
  obtain ⟨gvs, lvs, data, hentered⟩ := enter_ok henter
  exact (statements_concur hL h.body.statements hc hentered.free).bind fun _ d d' _ hd =>
    leave_concurs h.body.close h.finish _ _ _ hd

end Compile

theorem compileLines_alike {L : Likeness} (hL : ∀ {e e'}, L.error e e' → e.pos.Alike L e'.pos)
    {text text' : List Char}
    (h : Read.Alike L (Program.Alike L) (Program.ofText? text) (Program.ofText? text')) :
    (∃ lines, compileLines text = .ok lines ∧ compileLines text' = .ok lines) ∨
      ∃ f f', compileLines text = .error f ∧ compileLines text' = .error f' ∧ f.Alike L f' := by
  rw [compileLines_eq, compileLines_eq]
  generalize Program.ofText? text = r at h ⊢
  generalize Program.ofText? text' = r' at h ⊢
  cases r with
  | error e =>
      cases r' with
      | error e' => exact .inr ⟨_, _, rfl, rfl, .problem h⟩
      | ok tree' => exact h.elim
  | ok tree =>
      cases r' with
      | error e' => exact h.elim
      | ok tree' =>
          have hprogram := Compile.program_concurs hL h
          dsimp only
          generalize Compile.program tree { scopes := .builtin } = x at hprogram ⊢
          generalize Compile.program tree' { scopes := .builtin } = x' at hprogram ⊢
          cases hprogram with
          | @ok _ d d' hd =>
              exact .inl ⟨_, rfl, congrArg (Except.ok ∘ Assembly.lines) hd.assembly_eq⟩
          | error hf => exact .inr ⟨_, _, rfl, rfl, hf⟩

end Tern
