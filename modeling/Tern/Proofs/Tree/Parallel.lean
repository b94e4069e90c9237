import Tern.Proofs.Tree.Lockstep

/-!
# Reading in two texts

What is read depends on the lexemes and not on where they stand.  Two cursors are parallel when
the same lexemes are in front of both, up to a seam behind which the texts differ.  Phrases that
end at the seam in one text end there in the other and have the same tree, positions apart.
Texts without a seam even stop alike.
-/

namespace Tern

/-! ## Trees without positions -/

def CompileError.unplaced (e : CompileError) : CompileError := { e with pos := .start }

def Ident.unplaced (id : Ident) : Ident := { id with pos := .start }

/-- Forgets where reading stopped; `f` does the same inside what was read. -/
def Read.unplaced {α : Type} (x : Read α) (f : α → α := id) : Read α :=
  match x with
  | .ok x => .ok (f x)
  | .error why => .error why.unplaced

mutual

def Expr.unplaced : Expr → Expr
  | .missing why => .missing why.unplaced
  | .integer _ digits isLong => .integer .start digits isLong
  | .char _ value => .char .start value
  | .name id => .name id.unplaced
  | .call id args => .call id.unplaced args.unplaced
  | .element place => .element place.unplaced
  | .assign target _ value => .assign target.unplaced .start value.unplaced
  | .paren _ inner close => .paren .start inner.unplaced close.unplaced
  | .reference _ operand => .reference .start operand.unplaced
  | .negate _ operand => .negate .start operand.unplaced
  | .cast operand _ type => .cast operand.unplaced .start type.unplaced
  | .binary op _ lhs rhs => .binary op .start lhs.unplaced rhs.unplaced

def Place.unplaced : Place → Place
  | .var id => .var id.unplaced
  | .element array _ index close =>
      .element array.unplaced .start index.unplaced close.unplaced

def Args.unplaced : Args → Args
  | .close close => .close close.unplaced
  | .cons arg rest => .cons arg.unplaced rest.unplaced

def TypeExpr.unplaced : TypeExpr → TypeExpr
  | .missing why => .missing why.unplaced
  | .named id => .named id.unplaced
  | .pointer base => .pointer base.unplaced
  | .array base _ count close => .array base.unplaced .start count.unplaced close.unplaced
  | .stopped base why => .stopped base.unplaced why.unplaced

end

def Decl.unplaced (d : Decl) : Decl where
  exported := d.exported.map fun _ => .start
  id := d.id.unplaced Ident.unplaced
  colon := d.colon.unplaced
  type := d.type.unplaced

def DeclList.unplaced (l : DeclList) : DeclList where
  opening := l.opening.unplaced
  decls := l.decls.map Decl.unplaced

def Block.unplaced (b : Block) : Block where
  statements := b.statements.map Expr.unplaced
  close := b.close.unplaced

/-- Texts that say the same wherever they stand. -/
def Likeness.unplaced (respelt : Bool := false) : Likeness where
  error why why' := why.unplaced = why'.unplaced
  respelt := respelt

variable {respelt : Bool}

theorem Likeness.unplaced_pos (p q : Position) : p.Alike (.unplaced respelt) q := fun _ => rfl

theorem Ident.unplaced_eq {id id' : Ident} (h : id.Alike .unplaced id') :
    id.unplaced = id'.unplaced := by
  rw [Ident.unplaced, Ident.unplaced, h.name]

theorem Ident.alike_unplaced {id id' : Ident} (h : id.unplaced = id'.unplaced) :
    id.Alike (.unplaced respelt) id' :=
  ⟨(congrArg Ident.name h).symm, Likeness.unplaced_pos _ _⟩

theorem Read.unplaced_eq {α : Type} {R : α → α → Prop} {f : α → α} {x x' : Read α}
    (h : x.Alike .unplaced R x') (hf : ∀ {v v'}, R v v' → f v = f v') :
    x.unplaced f = x'.unplaced f := by
  cases x with
  | ok v =>
      cases x' with
      | ok v' => exact congrArg Except.ok (hf h)
      | error why' => exact h.elim
  | error why =>
      cases x' with
      | ok v' => exact h.elim
      | error why' => exact congrArg Except.error h

theorem Read.alike_of_unplaced {α : Type} {R : α → α → Prop} {f : α → α} {x x' : Read α}
    (h : x.unplaced f = x'.unplaced f) (hR : ∀ {v v'}, f v = f v' → R v v') :
    x.Alike (.unplaced respelt) R x' := by
  cases x with
  | ok v =>
      cases x' with
      | ok v' => exact hR (Except.ok.inj h)
      | error why' => cases h
  | error why =>
      cases x' with
      | ok v' => cases h
      | error why' => exact Except.error.inj h

theorem Read.alike_unplaced (x : Read Unit) : x.Alike (.unplaced respelt) Eq x.unplaced := by
  cases x with
  | ok v => rfl
  | error why => rfl

def Tree.unplaced : Tree → Tree
  | .expr e => .expr e.unplaced
  | .place p => .place p.unplaced
  | .args as => .args as.unplaced
  | .type t => .type t.unplaced

-- Without other spellings, trees say the same if nothing but their positions differs.
theorem Tree.Alike.unplaced_eq {t t' : Tree} (h : Tree.Alike .unplaced t t') :
    t.unplaced = t'.unplaced := by
  have hclose : ∀ {x x' : Read Unit}, x.Alike .unplaced Eq x' → x.unplaced = x'.unplaced :=
    fun h => Read.unplaced_eq h id
  induction h with
  | missing h => exact congrArg (fun why => Tree.expr (.missing why)) h
  | integer | char => rfl
  | name hid => simp [Tree.unplaced, Expr.unplaced, Ident.unplaced_eq hid]
  | call hid _ ih => simp_all [Tree.unplaced, Expr.unplaced, Ident.unplaced_eq hid]
  | element _ ih => simp_all [Tree.unplaced, Expr.unplaced]
  | assign _ _ _ ih ih' => simp_all [Tree.unplaced, Expr.unplaced]
  | paren _ _ h ih => simp_all [Tree.unplaced, Expr.unplaced, hclose h]
  | reference _ _ ih | negate _ _ ih => simp_all [Tree.unplaced, Expr.unplaced]
  | cast _ _ _ ih ih' | binary _ _ _ ih ih' => simp_all [Tree.unplaced, Expr.unplaced]
  | enclosed h => cases h
  | var hid => simp [Tree.unplaced, Place.unplaced, Ident.unplaced_eq hid]
  | elementPlace _ _ _ h ih ih' => simp_all [Tree.unplaced, Place.unplaced, hclose h]
  | close h => simp [Tree.unplaced, Args.unplaced, hclose h]
  | cons _ _ ih ih' => simp_all [Tree.unplaced, Args.unplaced]
  | missingType h => exact congrArg (fun why => Tree.type (.missing why)) h
  | named hid => simp [Tree.unplaced, TypeExpr.unplaced, Ident.unplaced_eq hid]
  | pointer _ ih => simp_all [Tree.unplaced, TypeExpr.unplaced]
  | array _ _ _ h ih ih' => simp_all [Tree.unplaced, TypeExpr.unplaced, hclose h]
  | stopped _ h ih =>
      have hwhy : CompileError.unplaced _ = CompileError.unplaced _ := h
      simp_all [Tree.unplaced, TypeExpr.unplaced]
  | join _ _ _ ih ih' => exact ih.trans ih'.symm

mutual

theorem Expr.alike_unplaced : ∀ e : Expr, e.Alike (.unplaced respelt) e.unplaced
  | .missing _ => by
      rw [Expr.unplaced]
      exact .missing rfl
  | .integer .. => .integer (Likeness.unplaced_pos _ _)
  | .char .. => .char (Likeness.unplaced_pos _ _)
  | .name _ => by
      rw [Expr.unplaced]
      exact .name (Ident.alike_unplaced rfl)
  | .call _ as => by
      rw [Expr.unplaced]
      exact .call (Ident.alike_unplaced rfl) as.alike_unplaced
  | .element p => by
      rw [Expr.unplaced]
      exact .element p.alike_unplaced
  | .assign p _ e => by
      rw [Expr.unplaced]
      exact .assign p.alike_unplaced (Likeness.unplaced_pos _ _) e.alike_unplaced
  | .paren _ e close => by
      rw [Expr.unplaced]
      exact .paren (Likeness.unplaced_pos _ _) e.alike_unplaced close.alike_unplaced
  | .reference _ e => by
      rw [Expr.unplaced]
      exact .reference (Likeness.unplaced_pos _ _) e.alike_unplaced
  | .negate _ e => by
      rw [Expr.unplaced]
      exact .negate (Likeness.unplaced_pos _ _) e.alike_unplaced
  | .cast e _ t => by
      rw [Expr.unplaced]
      exact .cast e.alike_unplaced (Likeness.unplaced_pos _ _) t.alike_unplaced
  | .binary _ _ l r => by
      rw [Expr.unplaced]
      exact .binary (Likeness.unplaced_pos _ _) l.alike_unplaced r.alike_unplaced

theorem Place.alike_unplaced : ∀ p : Place, p.Alike (.unplaced respelt) p.unplaced
  | .var _ => by
      rw [Place.unplaced]
      exact .var (Ident.alike_unplaced rfl)
  | .element p _ e close => by
      rw [Place.unplaced]
      exact .elementPlace p.alike_unplaced (Likeness.unplaced_pos _ _) e.alike_unplaced
        close.alike_unplaced

theorem Args.alike_unplaced : ∀ as : Args, as.Alike (.unplaced respelt) as.unplaced
  | .close close => by
      rw [Args.unplaced]
      exact .close close.alike_unplaced
  | .cons e as => by
      rw [Args.unplaced]
      exact .cons e.alike_unplaced as.alike_unplaced

theorem TypeExpr.alike_unplaced : ∀ t : TypeExpr, t.Alike (.unplaced respelt) t.unplaced
  | .missing _ => by
      rw [TypeExpr.unplaced]
      exact .missingType rfl
  | .named _ => by
      rw [TypeExpr.unplaced]
      exact .named (Ident.alike_unplaced rfl)
  | .pointer t => by
      rw [TypeExpr.unplaced]
      exact .pointer t.alike_unplaced
  | .array t _ e close => by
      rw [TypeExpr.unplaced]
      exact .array t.alike_unplaced (Likeness.unplaced_pos _ _) e.alike_unplaced
        close.alike_unplaced
  | .stopped t _ => by
      rw [TypeExpr.unplaced]
      exact .stopped t.alike_unplaced rfl

end

theorem Tree.alike_unplaced : ∀ t : Tree, Tree.Alike (.unplaced respelt) t t.unplaced
  | .expr e => e.alike_unplaced
  | .place p => p.alike_unplaced
  | .args as => as.alike_unplaced
  | .type t => t.alike_unplaced

theorem Tree.alike_of_unplaced {t t' : Tree} (h : t.unplaced = t'.unplaced) :
    Tree.Alike (.unplaced respelt) t t' :=
  .join (fun h h' => h.trans h'.symm) t.alike_unplaced (h ▸ t'.alike_unplaced)

theorem Decl.unplaced_eq {d d' : Decl} (h : d.Alike .unplaced d') : d.unplaced = d'.unplaced := by
  have hexported : d.exported.map (fun _ => Position.start) =
      d'.exported.map fun _ => Position.start := by
    generalize d.exported = x, d'.exported = x', h.exported = hx
    cases hx with
    | none => rfl
    | some _ => rfl
  have hid : d.id.unplaced Ident.unplaced = d'.id.unplaced Ident.unplaced :=
    Read.unplaced_eq h.id Ident.unplaced_eq
  have hcolon : d.colon.unplaced = d'.colon.unplaced := Read.unplaced_eq h.colon fun h => h
  have htype : d.type.unplaced = d'.type.unplaced := Tree.type.inj h.type.unplaced_eq
  rw [Decl.unplaced, Decl.unplaced, hexported, hid, hcolon, htype]

theorem Decl.alike_of_unplaced {d d' : Decl} (h : d.unplaced = d'.unplaced) :
    d.Alike (.unplaced respelt) d' := by
  simp only [Decl.unplaced, Decl.mk.injEq] at h
  obtain ⟨hexported, hid, hcolon, htype⟩ := h
  refine ⟨?_, Read.alike_of_unplaced hid Ident.alike_unplaced,
    Read.alike_of_unplaced hcolon fun h => h,
    Tree.alike_of_unplaced (congrArg Tree.type htype)⟩
  cases hd : d.exported with
  | none =>
      cases hd' : d'.exported with
      | none => exact .none
      | some p' => rw [hd, hd'] at hexported; cases hexported
  | some p =>
      cases hd' : d'.exported with
      | none => rw [hd, hd'] at hexported; cases hexported
      | some p' => exact .some (Likeness.unplaced_pos _ _)

theorem forall₂_map_eq {α : Type} {R : α → α → Prop} {f : α → α}
    (hR : ∀ x x', R x x' → f x = f x') {xs xs' : List α} (h : List.Forall₂ R xs xs') :
    xs.map f = xs'.map f := by
  induction h with
  | nil => rfl
  | cons h _ ih => rw [List.map_cons, List.map_cons, hR _ _ h, ih]

theorem forall₂_of_map_eq {α : Type} {R : α → α → Prop} {f : α → α}
    (hR : ∀ x x', f x = f x' → R x x') {xs xs' : List α} (h : xs.map f = xs'.map f) :
    List.Forall₂ R xs xs' := by
  induction xs generalizing xs' with
  | nil =>
      obtain rfl : xs' = [] := by simpa using h.symm
      exact .nil
  | cons x xs ih =>
      cases xs' with
      | nil => cases h
      | cons x' xs' =>
          rw [List.map_cons, List.map_cons, List.cons.injEq] at h
          exact .cons (hR _ _ h.1) (ih h.2)

theorem DeclList.option_unplaced_eq {l l' : Option DeclList}
    (h : Option.Rel (DeclList.Alike .unplaced) l l') :
    l.map DeclList.unplaced = l'.map DeclList.unplaced := by
  cases h with
  | none => rfl
  | some h =>
      rw [Option.map_some, Option.map_some, DeclList.unplaced, DeclList.unplaced,
        forall₂_map_eq @Decl.unplaced_eq h.decls, Read.unplaced_eq h.opening id]

theorem DeclList.option_alike_of_unplaced {l l' : Option DeclList}
    (h : l.map DeclList.unplaced = l'.map DeclList.unplaced) :
    Option.Rel (DeclList.Alike (.unplaced respelt)) l l' := by
  cases l with
  | none =>
      cases l' with
      | none => exact .none
      | some l' => cases h
  | some l =>
      cases l' with
      | none => cases h
      | some l' =>
          simp only [Option.map_some, Option.some.injEq, DeclList.unplaced, DeclList.mk.injEq] at h
          exact .some ⟨Read.alike_of_unplaced h.1 id,
            forall₂_of_map_eq (fun _ _ => Decl.alike_of_unplaced) h.2⟩

theorem Expr.unplaced_eq {e e' : Expr} (h : e.Alike .unplaced e') : e.unplaced = e'.unplaced :=
  Tree.expr.inj h.unplaced_eq

theorem Expr.alike_of_unplaced {e e' : Expr} (h : e.unplaced = e'.unplaced) :
    e.Alike (.unplaced respelt) e' :=
  Tree.alike_of_unplaced (congrArg Tree.expr h)

theorem Block.unplaced_eq {b b' : Block} (h : b.Alike .unplaced b') :
    b.unplaced = b'.unplaced := by
  have hclose : b.close.unplaced = b'.close.unplaced := Read.unplaced_eq h.close id
  rw [Block.unplaced, Block.unplaced, forall₂_map_eq @Expr.unplaced_eq h.statements, hclose]

/-! ## Seams -/

/-- Two texts that never part, or what they hold from where they do: a border in the first and
at most a new statement in the second. -/
inductive Seam : List Lexeme → List Lexeme → Prop where
  | never : Seam [] []
  | parts {l l' : Lexeme} {ls ls' : List Lexeme} (hl : l.kind.isBorder = true)
      (hl' : l'.kind = .identifier ∨ l'.kind.isBorder = true) : Seam (l :: ls) (l' :: ls')

/-- At most `n` lexemes, the same for both cursors, are in front of the seam. -/
def Cursor.Parallel (r r' : List Lexeme) (n : Nat) (c c' : Cursor) : Prop :=
  ∃ xs : List Lexeme, xs.length ≤ n ∧ c.Spells id (xs ++ r) ∧ c'.Spells id (xs ++ r')

/-- Phrases that end at most `n` lexemes in front of the seam, with trees in which `f` sees no
difference.  What stops short says something about the second text if there is no seam. -/
def Outcome.Parallel {α : Type} (r r' : List Lexeme) (n : Nat) (f : α → α) :
    Outcome α → Outcome α → Prop
  | .done tree rest, x' =>
      ∃ tree' rest', x' = .done tree' rest' ∧ f tree = f tree' ∧ rest.Parallel r r' n rest'
  | .stopped tree why _, x' =>
      r = [] → ∃ tree' why' rest', x' = .stopped tree' why' rest' ∧ f tree = f tree' ∧
        why.unplaced = why'.unplaced

namespace Cursor.Parallel

variable {r r' : List Lexeme} {m n : Nat} {c c' : Cursor}

theorem mono (hc : c.Parallel r r' n c') (hmn : n ≤ m) : c.Parallel r r' m c' := by
  obtain ⟨xs, hxs, hspells⟩ := hc
  exact ⟨xs, by omega, hspells⟩

theorem same_or_parts (hseam : Seam r r') (hc : c.Parallel r r' n c') :
    c'.current.lexeme = c.current.lexeme ∨
      r ≠ [] ∧ c.kind.isBorder = true ∧ (c'.kind = .identifier ∨ c'.kind.isBorder = true) := by
  obtain ⟨xs, -, hspells, hspells'⟩ := hc
  cases xs with
  | cons x xs =>
      have hx : c.current.lexeme = x := hspells.head_eq
      have hx' : c'.current.lexeme = x := hspells'.head_eq
      exact .inl (hx'.trans hx.symm)
  | nil =>
      cases hseam with
      | never => cases hspells
      | @parts l l' _ _ hl hl' =>
          have hx : c.current.lexeme = l := hspells.head_eq
          have hx' : c'.current.lexeme = l' := hspells'.head_eq
          rw [Cursor.kind, Cursor.kind, Token.kind, Token.kind, hx, hx']
          exact .inr ⟨List.cons_ne_nil _ _, hl, hl'⟩

theorem advance (hseam : Seam r r') (hc : c.Parallel r r' n c')
    (hk : c.kind.isBorder = false ∨ ¬r ≠ [] ∧ c.kind ≠ .eof) :
    0 < n ∧ ∃ d d', d.Parallel r r' (n - 1) d' ∧ c.advance = (.ok (), d) ∧
      c'.advance = (.ok (), d') := by
  have hsame : c'.current.lexeme = c.current.lexeme := by
    obtain hsame | ⟨hr, hborder, -⟩ := hc.same_or_parts hseam
    · exact hsame
    · obtain hk | hk := hk
      · rw [hk] at hborder
        cases hborder
      · exact absurd hr hk.1
  have hne : c.current.lexeme ≠ .eof := by
    intro heof
    rw [Cursor.kind, Token.kind, heof] at hk
    obtain hk | hk := hk
    · cases hk
    · exact hk.2 rfl
  obtain ⟨xs, hxs, hspells, hspells'⟩ := hc
  cases xs with
  | nil =>
      cases hseam with
      | never => cases hspells
      | @parts l l' _ _ hl hl' =>
          have hx : c.current.lexeme = l := hspells.head_eq
          rw [Cursor.kind, Token.kind, hx, hl] at hk
          obtain hk | hk := hk
          · cases hk
          · exact absurd (List.cons_ne_nil _ _) hk.1
  | cons x xs =>
      obtain ⟨d, hadvance, hd⟩ := hspells.advance hne
      obtain ⟨d', hadvance', hd'⟩ := hspells'.advance (hsame ▸ hne)
      simp only [List.length_cons] at hxs
      exact ⟨by omega, d, d', ⟨xs, by omega, hd, hd'⟩, hadvance, hadvance'⟩

theorem budget (hc : c.Parallel r r' n c') :
    ∃ m, c.Parallel r r' m c' ∧ 4 * m + 3 < Reader.budget c ∧ 4 * m + 3 < Reader.budget c' := by
  obtain ⟨xs, -, hspells, hspells'⟩ := hc
  have hle := hspells.mul_length_le_budget
  have hle' := hspells'.mul_length_le_budget
  have hpos : 8 ≤ Reader.budget c := by unfold Reader.budget; omega
  have hpos' : 8 ≤ Reader.budget c' := by unfold Reader.budget; omega
  simp only [List.length_append] at hle hle'
  exact ⟨xs.length, ⟨xs, Nat.le_refl _, hspells, hspells'⟩, by omega, by omega⟩

/-! Of two bounds on what is in front of the seam, the smaller one counts. -/

variable {m' n' : Nat}

theorem mono_min (hc : c.Parallel r r' (min n n') c') (hn : n ≤ m) (hn' : n' ≤ m') :
    c.Parallel r r' (min m m') c' :=
  hc.mono (by omega)

theorem steps (hseam : Seam r r') (hc : c.Parallel r r' (min n n') c')
    (hk : c.kind.isBorder = false ∨ ¬r ≠ [] ∧ c.kind ≠ .eof) :
    0 < n ∧ 0 < n' ∧ c.StepsAlike .unplaced (fun d d' =>
      d.Parallel r r' (min (n - 1) (n' - 1)) d' ∨ c.kind.isOpener = true ∧ False) c' := by
  obtain ⟨hn, d, d', hd, hadvance, hadvance'⟩ := hc.advance hseam hk
  exact ⟨by omega, by omega, .ok hadvance hadvance' (.inl (hd.mono (by omega)))⟩

theorem budget_min (hc : c.Parallel r r' n c') :
    ∃ m m', c.Parallel r r' (min m m') c' ∧ 4 * m + 3 < Reader.budget c ∧
      4 * m' + 3 < Reader.budget c' := by
  obtain ⟨m, hc, hfuel⟩ := hc.budget
  exact ⟨m, m, by rwa [Nat.min_self], hfuel⟩

end Cursor.Parallel

def Seam.lockstep {r r' : List Lexeme} (hseam : Seam r r') : Lockstep .unplaced where
  near n n' := Cursor.Parallel r r' (min n n')
  hole _ _ _ _ := False
  seam := r ≠ []
  mono h hn hn' := h.mono_min hn hn'
  same_or_parts h := h.same_or_parts hseam
  pos _ := Likeness.unplaced_pos _ _
  step h hk := h.steps hseam hk
  hole_pos h := h.elim
  hole_ne h hx := Cursor.kind_ne_of_no_hole h hx
  hole_expr h := h.elim
  budget h := h.budget_min

theorem Seam.near {r r' : List Lexeme} (hseam : Seam r r') {n : Nat} {c c' : Cursor}
    (hc : c.Parallel r r' n c') : hseam.lockstep.near n n c c' :=
  hc.mono (by simp)

theorem Outcome.Parallel.of_lockstep {α : Type} {r r' : List Lexeme} {hseam : Seam r r'} {n : Nat}
    {T : α → α → Prop} {f : α → α} {x x' : Outcome α} (hx : hseam.lockstep.Reads T n n x x')
    (hT : ∀ {tree tree'}, T tree tree' → f tree = f tree') : x.Parallel r r' n f x' := by
  cases x with
  | done tree rest =>
      obtain ⟨tree', rest', hx', htree, hrest⟩ := hx
      exact ⟨tree', rest', hx', hT htree, hrest.mono (Nat.min_le_left n n)⟩
  | stopped tree why rest =>
      intro hr
      obtain ⟨tree', why', rest', hx', htree, hwhy⟩ := hx (not_not_intro hr)
      exact ⟨tree', why', rest', hx', hT htree, hwhy⟩

/-! ## Expressions and types -/

namespace Reader

/-- With `fuel` to spend in the first text and enough in the second, every phrase that can stand
in an expression is read in parallel. -/
structure ParallelAt (r r' : List Lexeme) (fuel : Nat) : Prop where
  expr : ∀ minPrec {fuel' n : Nat} {c c' : Cursor}, 4 * n + 2 < fuel ∧ 4 * n + 2 < fuel' →
    c.Parallel r r' n c' →
    (Reader.expr fuel minPrec c).Parallel r r' (n - 1) Expr.unplaced (Reader.expr fuel' minPrec c')
  operand : ∀ {fuel' n : Nat} {c c' : Cursor}, 4 * n + 1 < fuel ∧ 4 * n + 1 < fuel' →
    c.Parallel r r' n c' →
    (Reader.operand fuel c).Parallel r r' (n - 1) Expr.unplaced (Reader.operand fuel' c')
  named : ∀ {id id' : Ident} {fuel' n : Nat} {c c' : Cursor}, 4 * n < fuel ∧ 4 * n < fuel' →
    id.unplaced = id'.unplaced → c.Parallel r r' n c' → c.kind = .identifier →
    (Reader.named fuel id c).Parallel r r' (n - 1) Expr.unplaced (Reader.named fuel' id' c')
  assignment : ∀ {p p' : Place} {fuel' n : Nat} {c c' : Cursor}, 4 * n < fuel ∧ 4 * n < fuel' →
    p.unplaced = p'.unplaced → c.Parallel r r' n c' → c.kind = .symbol .assign →
    (Reader.assignment fuel p c).Parallel r r' n Expr.unplaced (Reader.assignment fuel' p' c')
  args : ∀ {fuel' n : Nat} {c c' : Cursor}, 4 * n + 3 < fuel ∧ 4 * n + 3 < fuel' →
    c.Parallel r r' n c' →
    (Reader.args fuel c).Parallel r r' n Args.unplaced (Reader.args fuel' c')
  elements : ∀ {p p' : Place} {fuel' n : Nat} {c c' : Cursor}, 4 * n < fuel ∧ 4 * n < fuel' →
    p.unplaced = p'.unplaced → c.Parallel r r' n c' →
    (Reader.elements fuel p c).Parallel r r' n Place.unplaced (Reader.elements fuel' p' c')
  castSuffix : ∀ {e e' : Expr} {fuel' n : Nat} {c c' : Cursor}, 4 * n < fuel ∧ 4 * n < fuel' →
    e.unplaced = e'.unplaced → c.Parallel r r' n c' →
    (Reader.castSuffix fuel e c).Parallel r r' n Expr.unplaced (Reader.castSuffix fuel' e' c')
  operators : ∀ minPrec {e e' : Expr} {fuel' n : Nat} {c c' : Cursor},
    4 * n < fuel ∧ 4 * n < fuel' → e.unplaced = e'.unplaced → c.Parallel r r' n c' →
    (Reader.operators fuel minPrec e c).Parallel r r' n Expr.unplaced
      (Reader.operators fuel' minPrec e' c')
  type : ∀ {fuel' n : Nat} {c c' : Cursor}, 4 * n < fuel ∧ 4 * n < fuel' →
    c.Parallel r r' n c' →
    (Reader.type fuel c).Parallel r r' n TypeExpr.unplaced (Reader.type fuel' c')
  suffixes : ∀ {t t' : TypeExpr} {fuel' n : Nat} {c c' : Cursor}, 4 * n < fuel ∧ 4 * n < fuel' →
    t.unplaced = t'.unplaced → c.Parallel r r' n c' →
    (Reader.suffixes fuel t c).Parallel r r' n TypeExpr.unplaced (Reader.suffixes fuel' t' c')

variable {r r' : List Lexeme} {fuel fuel' n : Nat} {c c' : Cursor}

theorem parallelAt (hseam : Seam r r') (fuel : Nat) : ParallelAt r r' fuel := by
  have hreads : hseam.lockstep.At fuel := Lockstep.reads_at fuel
  have hexpr : ∀ {e e' : Expr}, e.Alike .unplaced e' → e.unplaced = e'.unplaced :=
    fun h => Tree.expr.inj h.unplaced_eq
  have hplace : ∀ {p p' : Place}, p.Alike .unplaced p' → p.unplaced = p'.unplaced :=
    fun h => Tree.place.inj h.unplaced_eq
  have hargs : ∀ {as as' : Args}, as.Alike .unplaced as' → as.unplaced = as'.unplaced :=
    fun h => Tree.args.inj h.unplaced_eq
  have htype : ∀ {t t' : TypeExpr}, t.Alike .unplaced t' → t.unplaced = t'.unplaced :=
    fun h => Tree.type.inj h.unplaced_eq
  exact {
    expr := fun minPrec _ _ _ _ hfuel hc =>
      .of_lockstep (hreads.expr minPrec hfuel (hseam.near hc)) hexpr
    operand := fun hfuel hc => .of_lockstep (hreads.operand hfuel (hseam.near hc)) hexpr
    named := fun hfuel hid hc hk => .of_lockstep
      (hreads.named hfuel (Ident.alike_unplaced hid) (hseam.near hc) hk) hexpr
    assignment := fun hfuel hp hc hk => .of_lockstep (hreads.assignment hfuel
      (Tree.alike_of_unplaced (congrArg Tree.place hp)) (hseam.near hc) hk) hexpr
    args := fun hfuel hc => .of_lockstep (hreads.args hfuel (.inl (hseam.near hc))) hargs
    elements := fun hfuel hp hc => .of_lockstep (hreads.elements hfuel
      (Tree.alike_of_unplaced (congrArg Tree.place hp)) (hseam.near hc)) hplace
    castSuffix := fun hfuel he hc => .of_lockstep (hreads.castSuffix hfuel
      (Tree.alike_of_unplaced (congrArg Tree.expr he)) (hseam.near hc)) hexpr
    operators := fun minPrec _ _ _ _ _ _ hfuel he hc => .of_lockstep (hreads.operators minPrec hfuel
      (Tree.alike_of_unplaced (congrArg Tree.expr he)) (hseam.near hc)) hexpr
    type := fun hfuel hc => .of_lockstep (hreads.type hfuel (hseam.near hc)) htype
    suffixes := fun hfuel ht hc => .of_lockstep (hreads.suffixes hfuel
      (Tree.alike_of_unplaced (congrArg Tree.type ht)) (hseam.near hc)) htype }

/-! ## Declarations -/

theorem declList?_parallel (hseam : Seam r r') (hc : c.Parallel r r' n c') :
    ∃ m, (declList? c).Parallel r r' m (Option.map DeclList.unplaced) (declList? c') := by
  have hreads := Lockstep.declList? (P := hseam.lockstep) (fun _ _ _ _ => id) (hseam.near hc)
  cases hread : declList? c with
  | done t rest =>
      rw [hread] at hreads
      obtain ⟨t', rest', hread', ht, m, m', hrest⟩ := hreads
      exact ⟨min m m', t', rest', hread', DeclList.option_unplaced_eq ht, hrest⟩
  | stopped t why rest =>
      rw [hread] at hreads
      refine ⟨0, fun hr => ?_⟩
      obtain ⟨t', why', rest', hread', ht, hwhy⟩ := hreads (not_not_intro hr)
      exact ⟨t', why', rest', hread', DeclList.option_unplaced_eq ht, hwhy⟩

end Reader

end Tern
