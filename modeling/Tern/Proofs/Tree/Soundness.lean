import Tern.Proofs.Tree.Grammar
import Tern.Proofs.Tree.Spelling

/-!
# Reading follows the grammar

A phrase that is read to its end has a complete tree, without an error in it, and is derivable.
A phrase that stops leaves its error in the tree.
-/

namespace Tern

open Grammar (Derives)

mutual

/-- Nothing is missing in the expression. -/
def Expr.Complete : Expr → Prop
  | .missing _ => False
  | .integer .. | .char .. | .name _ => True
  | .call _ args => args.Complete
  | .element place => place.Complete
  | .assign target _ value => target.Complete ∧ value.Complete
  | .paren _ inner close => inner.Complete ∧ close = .ok ()
  | .reference _ operand | .negate _ operand => operand.Complete
  | .cast operand _ type => operand.Complete ∧ type.Complete
  | .binary _ _ lhs rhs => lhs.Complete ∧ rhs.Complete

def Place.Complete : Place → Prop
  | .var _ => True
  | .element array _ index close => array.Complete ∧ index.Complete ∧ close = .ok ()

def Args.Complete : Args → Prop
  | .close close => close = .ok ()
  | .cons arg rest => arg.Complete ∧ rest.Complete

def TypeExpr.Complete : TypeExpr → Prop
  | .missing _ | .stopped .. => False
  | .named _ => True
  | .pointer base => base.Complete
  | .array base _ count close => base.Complete ∧ count.Complete ∧ close = .ok ()

end

def Decl.Complete (d : Decl) : Prop := (∃ id, d.id = .ok id) ∧ d.colon = .ok () ∧ d.type.Complete

def DeclList.Complete (l : DeclList) : Prop := l.opening = .ok () ∧ ∀ d ∈ l.decls, d.Complete

def Block.Complete (b : Block) : Prop := (∀ e ∈ b.statements, e.Complete) ∧ b.close = .ok ()

def Program.Complete (p : Program) : Prop :=
  (∀ l ∈ p.globals, l.Complete) ∧ p.opening = .ok () ∧ (∀ l ∈ p.locals, l.Complete) ∧
    p.body.Complete ∧ p.finish = .ok ()

/-- An element is no statement, unlike all else that starts with an identifier. -/
def Expr.isElement : Expr → Bool
  | .element _ => true
  | _ => false

/-! ## Phrases -/

theorem Lexeme.eq_eof {l : Lexeme} (h : l.kind = .eof) : l = .eof := by
  cases l <;> cases h
  rfl

/-- In front of the cursor are tokens of these kinds, the end of the text included. -/
abbrev Cursor.Offers (c : Cursor) (ks : List Kind) : Prop := c.Spells Lexeme.kind ks

/-- A phrase that was read satisfies `P` and leaves what `D` allows.  One that stopped does not
satisfy `P`. -/
def Outcome.Sound {α : Type} (P : α → Prop) (D : α → List Kind → Prop) : Outcome α → Prop
  | .done tree rest => P tree ∧ ∃ r, rest.Offers r ∧ D tree r
  | .stopped tree _ _ => ¬ P tree

section

variable {α β : Type} {P : α → Prop} {Q : β → Prop} {D : α → List Kind → Prop}
  {F : β → List Kind → Prop} {c : Cursor} {k : Kind} {ks : List Kind}

namespace Cursor.Spells

theorem eq_cons (h : c.Offers ks) : ∃ ks', ks = c.kind :: ks' := by
  cases h with
  | eof h => exact ⟨[], by rw [Cursor.kind, Token.kind, h]⟩
  | cons => exact ⟨_, rfl⟩

theorem kind_eq (h : c.Offers (k :: ks)) : c.kind = k := h.head_eq

theorem ne_eof (h : c.Offers (k :: ks)) (hk : k ≠ .eof) : c.current.lexeme ≠ .eof := by
  intro heof
  have hkind : c.current.lexeme.kind = k := h.head_eq
  exact hk (by rw [← hkind, heof]; rfl)

end Cursor.Spells

namespace Outcome.Sound

theorem andThen {x : Outcome α} {cut : α → CompileError → β} {next : α → Cursor → Outcome β}
    (hx : x.Sound P D) (hcut : ∀ tree why, ¬ P tree → ¬ Q (cut tree why))
    (hnext : ∀ tree c r, P tree → c.Offers r → D tree r → (next tree c).Sound Q F) :
    (x.andThen cut next).Sound Q F := by
  cases x with
  | done tree rest =>
      obtain ⟨htree, r, hr, hD⟩ := hx
      exact hnext tree rest r htree hr hD
  | stopped tree why rest => exact hcut tree why hx

theorem map {x : Outcome α} {f : α → β} (hx : x.Sound P D) (hf : ∀ tree, Q (f tree) ↔ P tree)
    (hF : ∀ tree r, D tree r → F (f tree) r) : (x.map f).Sound Q F := by
  cases x with
  | done tree rest =>
      obtain ⟨htree, r, hr, hD⟩ := hx
      exact ⟨(hf tree).2 htree, r, hr, hF tree r hD⟩
  | stopped tree why rest => exact fun h => hx ((hf tree).1 h)

theorem mono {x : Outcome α} {D' : α → List Kind → Prop} (hx : x.Sound P D)
    (h : ∀ tree r, D tree r → D' tree r) : x.Sound P D' := by
  cases x with
  | done tree rest =>
      obtain ⟨htree, r, hr, hD⟩ := hx
      exact ⟨htree, r, hr, h tree r hD⟩
  | stopped tree why rest => exact hx

theorem step {cut : CompileError → α} {next : Cursor → Outcome α} (hc : c.Offers (k :: ks))
    (hk : k ≠ .eof) (hnext : ∀ c', c'.Offers ks → (next c').Sound P D) :
    (c.step cut next).Sound P D := by
  obtain ⟨c', hc', hstep⟩ := Cursor.Spells.step hc (hc.ne_eof hk)
  rw [hstep]
  exact hnext c' hc'

theorem stop {p : Problem} {cut : CompileError → α} (hcut : ∀ why, ¬ P (cut why)) :
    (c.stop p cut).Sound P D := hcut _

theorem expect {wanted : Kind} {cut : CompileError → α} {next : Outcome α}
    (hcut : ∀ why, ¬ P (cut why)) (hnext : c.kind = wanted → next.Sound P D) :
    (c.expect wanted cut next).Sound P D := by
  unfold Cursor.expect
  split
  · next hk => exact hnext hk
  · exact stop hcut

theorem pass {wanted : Kind} {cut : CompileError → α} {next : Cursor → Outcome α}
    (hc : c.Offers ks) (hwanted : wanted ≠ .eof) (hcut : ∀ why, ¬ P (cut why))
    (hnext : ∀ c' ks', ks = wanted :: ks' → c'.Offers ks' → (next c').Sound P D) :
    (c.pass wanted cut next).Sound P D := by
  obtain ⟨ks', rfl⟩ := hc.eq_cons
  refine expect hcut fun hk => ?_
  exact step hc (hk ▸ hwanted) fun c' hc' => hnext c' ks' (by rw [hk]) hc'

end Outcome.Sound

end

/-! ## Expressions and types -/

namespace Reader

open Grammar.Derives

/-- With `fuel` to spend, every phrase that can stand in an expression follows the grammar. -/
structure SoundAt (fuel : Nat) : Prop where
  expr : ∀ minPrec {c : Cursor} {ks : List Kind}, c.Offers ks →
    (Reader.expr fuel minPrec c).Sound Expr.Complete fun _ r => Derives .expr ks r
  operand : ∀ {c : Cursor} {ks : List Kind}, c.Offers ks →
    (Reader.operand fuel c).Sound Expr.Complete fun _ r => Derives .unary ks r
  named : ∀ id {c : Cursor} {ks : List Kind}, c.Offers (.identifier :: ks) →
    (Reader.named fuel id c).Sound Expr.Complete fun e r =>
      Derives .primary (.identifier :: ks) r ∧
        (e.isElement = false → Derives .stmt (.identifier :: ks) r)
  assignment : ∀ {p : Place} {c : Cursor} {ks : List Kind}, p.Complete →
    c.Offers (.symbol .assign :: ks) →
    (Reader.assignment fuel p c).Sound Expr.Complete fun _ r => Derives .expr ks r
  args : ∀ {c : Cursor} {ks : List Kind}, c.Offers ks →
    (Reader.args fuel c).Sound Args.Complete fun _ r => Derives .argList ks r
  elements : ∀ {p : Place} {c : Cursor} {ks : List Kind}, p.Complete → c.Offers ks →
    (Reader.elements fuel p c).Sound Place.Complete fun _ r =>
      (c.kind ≠ .symbol .lbracket ∧ r = ks) ∨ Derives .indexes ks r
  castSuffix : ∀ {e : Expr} {c : Cursor} {ks : List Kind}, e.Complete → c.Offers ks →
    (Reader.castSuffix fuel e c).Sound Expr.Complete fun _ r => Derives .cast ks r
  operators : ∀ minPrec {e : Expr} {c : Cursor} {ks : List Kind}, e.Complete → c.Offers ks →
    (Reader.operators fuel minPrec e c).Sound Expr.Complete fun _ r => Derives .chain ks r
  type : ∀ {c : Cursor} {ks : List Kind}, c.Offers ks →
    (Reader.type fuel c).Sound TypeExpr.Complete fun _ r => Derives .type ks r
  suffixes : ∀ {t : TypeExpr} {c : Cursor} {ks : List Kind}, t.Complete → c.Offers ks →
    (Reader.suffixes fuel t c).Sound TypeExpr.Complete fun _ r => Derives .suffixes ks r

theorem soundAt_zero : SoundAt 0 where
  expr _ _ _ _ := .stop fun _ h => h
  operand _ := .stop fun _ h => h
  named _ _ _ _ := .stop fun _ h => h
  assignment _ _ := .stop fun _ h => h
  args _ := .stop nofun
  elements _ _ := .stop fun _ h => h.2.1
  castSuffix _ _ := .stop fun _ h => h
  operators _ _ _ _ _ _ := .stop fun _ h => h
  type _ := .stop fun _ h => h
  suffixes _ _ := .stop fun _ h => h

variable {fuel : Nat} {c : Cursor} {ks : List Kind}

namespace SoundAt

theorem expr_succ (ih : SoundAt fuel) (minPrec : Nat) (hc : c.Offers ks) :
    (Reader.expr (fuel + 1) minPrec c).Sound Expr.Complete fun _ r => Derives .expr ks r := by
  simp only [Reader.expr]
  refine (ih.operand hc).andThen (fun _ _ h => h) fun e c r he hc hunary => ?_
  refine (ih.castSuffix he hc).andThen (fun _ _ h => h) fun e c r he hc hcast => ?_
  exact (ih.operators minPrec he hc).mono fun _ _ hchain => .expr hunary hcast hchain

theorem kind_of_lexeme {l : Lexeme} (h : c.current.lexeme = l) : c.kind = l.kind :=
  congrArg Lexeme.kind h

theorem operand_succ (ih : SoundAt fuel) (hc : c.Offers ks) :
    (Reader.operand (fuel + 1) c).Sound Expr.Complete fun _ r => Derives .unary ks r := by
  obtain ⟨ks, rfl⟩ := hc.eq_cons
  simp only [Reader.operand]
  split
  · next digits suffix hl =>
    rw [kind_of_lexeme hl] at hc ⊢
    exact .step hc (by rintro ⟨⟩) fun c hc => ⟨trivial, ks, hc, .primary .integer⟩
  · next value hl =>
    rw [kind_of_lexeme hl] at hc ⊢
    exact .step hc (by rintro ⟨⟩) fun c hc => ⟨trivial, ks, hc, .primary .char⟩
  · next name hl =>
    rw [kind_of_lexeme hl] at hc ⊢
    exact (ih.named _ hc).mono fun _ _ h => .primary h.1
  · next hl =>
    rw [kind_of_lexeme hl] at hc ⊢
    refine .step hc (by decide) fun c' hc => (ih.expr 0 hc).andThen (fun _ _ _ h => by cases h.2)
      fun e c r he hc hexpr => ?_
    refine .pass hc (by decide) (fun _ h => by cases h.2) fun c' r' hr hc => ?_
    exact ⟨⟨he, rfl⟩, r', hc, .primary (.paren (hr ▸ hexpr))⟩
  · next hl =>
    rw [kind_of_lexeme hl] at hc ⊢
    exact .step hc (by decide) fun c' hc =>
      (ih.operand hc).map (fun _ => Iff.rfl) fun _ _ h => .unary rfl h
  · next hl =>
    rw [kind_of_lexeme hl] at hc ⊢
    exact .step hc (by decide) fun c' hc =>
      (ih.operand hc).map (fun _ => Iff.rfl) fun _ _ h => .unary rfl h
  all_goals exact .stop fun _ h => h

theorem named_succ (ih : SoundAt fuel) (id : Ident) (hc : c.Offers (.identifier :: ks)) :
    (Reader.named (fuel + 1) id c).Sound Expr.Complete fun e r =>
      Derives .primary (.identifier :: ks) r ∧
        (e.isElement = false → Derives .stmt (.identifier :: ks) r) := by
  simp only [Reader.named]
  have hvar : (Place.var id).Complete := trivial
  refine .step hc (by decide) fun c hc => ?_
  obtain ⟨ks, rfl⟩ := hc.eq_cons
  split
  · next hk =>
    rw [hk] at hc ⊢
    exact (ih.assignment hvar hc).mono fun _ _ h => ⟨.assign h, fun _ => .stmtAssign h⟩
  · next hk =>
    rw [hk] at hc ⊢
    refine .step hc (by decide) fun c hc => ?_
    obtain ⟨ks, rfl⟩ := hc.eq_cons
    split
    · next hk =>
      rw [hk] at hc ⊢
      exact .step hc (by decide) fun c hc =>
        ⟨rfl, ks, hc, .call .noArgs, fun _ => .stmtCall .noArgs⟩
    · exact (ih.args hc).map (fun _ => Iff.rfl) fun _ _ h =>
        ⟨.call (.args h), fun _ => .stmtCall (.args h)⟩
  · next hk =>
    refine (ih.elements hvar hc).andThen (fun _ _ h => h) fun p c' r hp hc' hindexes => ?_
    obtain ⟨hne, -⟩ | hindexes := hindexes
    · exact absurd hk hne
    · obtain ⟨r', rfl⟩ := hc'.eq_cons
      split
      · next hk' =>
        rw [hk'] at hc' hindexes
        exact (ih.assignment hp hc').mono fun _ _ h =>
          ⟨.assignElement hindexes h, fun _ => .stmtAssignElement hindexes h⟩
      · exact ⟨hp, _, hc', .element hindexes, by rintro ⟨⟩⟩
  · exact ⟨trivial, _, hc, .name, fun _ => .stmtName⟩

theorem assignment_succ (ih : SoundAt fuel) {p : Place} (hp : p.Complete)
    (hc : c.Offers (.symbol .assign :: ks)) :
    (Reader.assignment (fuel + 1) p c).Sound Expr.Complete fun _ r => Derives .expr ks r := by
  simp only [Reader.assignment]
  exact .step hc (by decide) fun c' hc =>
    (ih.expr 0 hc).map (fun _ => ⟨And.right, fun h => ⟨hp, h⟩⟩) fun _ _ h => h

theorem args_succ (ih : SoundAt fuel) (hc : c.Offers ks) :
    (Reader.args (fuel + 1) c).Sound Args.Complete fun _ r => Derives .argList ks r := by
  simp only [Reader.args]
  refine (ih.expr 0 hc).andThen (fun _ _ _ h => by cases h.2) fun e c r he hc hexpr => ?_
  split
  · next hk =>
    obtain ⟨r, rfl⟩ := hc.eq_cons
    rw [hk] at hc hexpr
    exact .step hc (by decide) fun c' hc =>
      (ih.args hc).map (fun _ => ⟨And.right, fun h => ⟨he, h⟩⟩) fun _ _ h => .moreArgs hexpr h
  · refine .pass hc (by decide) (fun _ h => by cases h.2) fun c' r' hr hc => ?_
    exact ⟨⟨he, rfl⟩, r', hc, .lastArg (hr ▸ hexpr)⟩

theorem elements_succ (ih : SoundAt fuel) {p : Place} (hp : p.Complete) (hc : c.Offers ks) :
    (Reader.elements (fuel + 1) p c).Sound Place.Complete fun _ r =>
      (c.kind ≠ .symbol .lbracket ∧ r = ks) ∨ Derives .indexes ks r := by
  simp only [Reader.elements]
  split
  · next hk =>
    obtain ⟨ks, rfl⟩ := hc.eq_cons
    rw [hk] at hc ⊢
    refine .step hc (by decide) fun c' hc => (ih.expr 0 hc).andThen (fun _ _ _ h => by cases h.2.2)
      fun e c'' r he hc hexpr => ?_
    refine .pass hc (by decide) (fun _ h => by cases h.2.2) fun c'' r' hr hrest => ?_
    subst hr
    have hplace : (Place.element p c.pos e (.ok ())).Complete := ⟨hp, he, rfl⟩
    refine (ih.elements hplace hrest).mono fun _ _ h => ?_
    obtain ⟨-, rfl⟩ | h := h
    · exact .inr (.lastIndex hexpr)
    · exact .inr (.moreIndexes hexpr h)
  · next hk => exact ⟨hp, ks, hc, .inl ⟨hk, rfl⟩⟩

theorem castSuffix_succ (ih : SoundAt fuel) {e : Expr} (he : e.Complete) (hc : c.Offers ks) :
    (Reader.castSuffix (fuel + 1) e c).Sound Expr.Complete fun _ r => Derives .cast ks r := by
  simp only [Reader.castSuffix]
  split
  · next hk =>
    obtain ⟨ks, rfl⟩ := hc.eq_cons
    rw [hk] at hc ⊢
    exact .step hc (by decide) fun c' hc =>
      (ih.type hc).map (fun _ => ⟨And.right, fun h => ⟨he, h⟩⟩) fun _ _ h => .cast h
  · exact ⟨he, ks, hc, .noCast⟩

theorem operators_succ (ih : SoundAt fuel) (minPrec : Nat) {e : Expr} (he : e.Complete)
    (hc : c.Offers ks) :
    (Reader.operators (fuel + 1) minPrec e c).Sound Expr.Complete fun _ r =>
      Derives .chain ks r := by
  simp only [Reader.operators]
  split
  · exact ⟨he, ks, hc, .noChain⟩
  · next op hop =>
    split
    · exact ⟨he, ks, hc, .noChain⟩
    · obtain ⟨ks, rfl⟩ := hc.eq_cons
      have hsome : c.kind.binaryOp?.isSome = true := by rw [hop]; rfl
      have hne : c.kind ≠ .eof := fun heof => by rw [heof] at hop; cases hop
      refine .step hc hne fun c' hc => (ih.expr _ hc).andThen (fun _ _ h h' => h h'.2)
        fun e' c'' r he' hc hexpr => ?_
      have hboth : (Expr.binary op c.pos e e').Complete := ⟨he, he'⟩
      cases hexpr with
      | expr hunary hcast hchain =>
          exact (ih.operators minPrec hboth hc).mono fun _ _ h =>
            .chain hsome hunary hcast (hchain.chain_trans h)

theorem type_succ (ih : SoundAt fuel) (hc : c.Offers ks) :
    (Reader.type (fuel + 1) c).Sound TypeExpr.Complete fun _ r => Derives .type ks r := by
  simp only [Reader.type]
  split
  · next name hl =>
    obtain ⟨ks, rfl⟩ := hc.eq_cons
    rw [kind_of_lexeme hl] at hc ⊢
    have hnamed : (TypeExpr.named ⟨name, c.pos⟩).Complete := trivial
    exact .step hc (by rintro ⟨⟩) fun c' hc => (ih.suffixes hnamed hc).mono fun _ _ h => .type h
  · exact .stop fun _ h => h

theorem suffixes_succ (ih : SoundAt fuel) {t : TypeExpr} (ht : t.Complete) (hc : c.Offers ks) :
    (Reader.suffixes (fuel + 1) t c).Sound TypeExpr.Complete fun _ r =>
      Derives .suffixes ks r := by
  obtain ⟨ks, rfl⟩ := hc.eq_cons
  simp only [Reader.suffixes]
  split
  · next hk =>
    rw [hk] at hc ⊢
    refine .step hc (by decide) fun c hc => ?_
    split
    · exact .stop fun _ h => h
    · refine (ih.expr 0 hc).andThen (fun _ _ _ h => by cases h.2.2) fun e c' r he hc hexpr => ?_
      refine .pass hc (by decide) (fun _ h => by cases h.2.2) fun c'' r' hr hc => ?_
      have harray : (TypeExpr.array t c.pos e (.ok ())).Complete := ⟨ht, he, rfl⟩
      exact (ih.suffixes harray hc).mono fun _ _ h => .array (hr ▸ hexpr) h
  · next hk =>
    rw [hk] at hc ⊢
    have hpointer : (TypeExpr.pointer t).Complete := ht
    exact .step hc (by decide) fun c' hc => (ih.suffixes hpointer hc).mono fun _ _ h => .pointer h
  · next hbracket hstar =>
    refine ⟨ht, _, hc, .noSuffix (fun h => hbracket ?_) fun h => hstar ?_⟩
    · exact Option.some.inj h
    · exact Option.some.inj h

end SoundAt

theorem soundAt (fuel : Nat) : SoundAt fuel := by
  induction fuel with
  | zero => exact soundAt_zero
  | succ fuel ih =>
      exact {
        expr := fun minPrec _ _ => ih.expr_succ minPrec
        operand := ih.operand_succ
        named := fun id _ _ => ih.named_succ id
        assignment := ih.assignment_succ
        args := ih.args_succ
        elements := ih.elements_succ
        castSuffix := ih.castSuffix_succ
        operators := fun minPrec _ _ _ => ih.operators_succ minPrec
        type := ih.type_succ
        suffixes := ih.suffixes_succ }

/-! ## Programs -/

theorem declBody_sound (exported : Option Position) (hc : c.Offers ks) :
    (declBody fuel exported c).Sound Decl.Complete fun _ r =>
      ∃ ks', ks = .identifier :: .symbol .colon :: ks' ∧ Derives .type ks' r := by
  unfold declBody
  simp only
  split
  · next name hl =>
    obtain ⟨ks, rfl⟩ := hc.eq_cons
    rw [SoundAt.kind_of_lexeme hl] at hc ⊢
    refine .step hc (by rintro ⟨⟩) fun c' hc => .pass hc (by decide) (fun _ h => by cases h.2.1)
      fun c'' ks' hks hrest => ?_
    subst hks
    have hcomplete (id : Ident) (t : TypeExpr) :
        Decl.Complete ⟨exported, .ok id, .ok (), t⟩ ↔ t.Complete :=
      ⟨fun h => h.2.2, fun h => ⟨⟨id, rfl⟩, rfl, h⟩⟩
    exact ((soundAt fuel).type hrest).map (hcomplete _) fun _ _ h => ⟨ks', rfl, h⟩
  · exact .stop fun _ h => by cases h.2.1

theorem decl_sound (hc : c.Offers ks) :
    (decl fuel c).Sound Decl.Complete fun _ r => Derives .decl ks r := by
  unfold decl
  split
  · next hk =>
    obtain ⟨ks, rfl⟩ := hc.eq_cons
    rw [hk] at hc ⊢
    refine .step hc (by decide) fun c hc => (declBody_sound _ hc).mono fun _ _ h => ?_
    obtain ⟨ks', rfl, h⟩ := h
    exact .exportedDecl h
  · refine (declBody_sound _ hc).mono fun _ _ h => ?_
    obtain ⟨ks', rfl, h⟩ := h
    exact .decl h

theorem decls_sound (fuel : Nat) (hfuel : ks.length ≤ fuel) (hc : c.Offers ks) :
    (decls fuel c).Sound (fun ds => ∀ d ∈ ds, d.Complete) fun _ r => Derives .decls ks r := by
  induction fuel generalizing c ks with
  | zero =>
      obtain ⟨ks, rfl⟩ := hc.eq_cons
      cases hfuel
  | succ fuel ih =>
      unfold decls
      refine (decl_sound hc).andThen (fun d _ h h' => h (h' d List.mem_cons_self))
        fun d c r hd hc hdecl => ?_
      split
      · next hk =>
        obtain ⟨r, rfl⟩ := hc.eq_cons
        rw [hk] at hc hdecl
        have hlt := hdecl.length_lt rfl
        simp only [List.length_cons] at hlt
        refine .step hc (by decide) fun c hc => (ih (by omega) hc).map (fun ds => ?_) fun _ _ h =>
          .moreDecls hdecl h
        simp [hd]
      · exact ⟨by simpa using hd, r, hc, .lastDecl hdecl⟩

theorem declList?_sound (hc : c.Offers ks) :
    (declList? c).Sound (fun l => ∀ l' ∈ l, DeclList.Complete l') fun _ r =>
      Derives .declPart ks r := by
  unfold declList?
  split
  · next hk =>
    obtain ⟨ks, rfl⟩ := hc.eq_cons
    rw [hk] at hc ⊢
    have hlist : (declList c).Sound DeclList.Complete fun _ r => Derives .decls ks r := by
      refine .step hc (by decide) fun c hc => ?_
      have hbudget := hc.mul_length_le_budget
      exact (decls_sound _ (by omega) hc).map (fun _ => ⟨And.right, fun h => ⟨rfl, h⟩⟩)
        fun _ _ h => h
    exact hlist.map (by simp) fun _ _ h => .declPart h
  · exact ⟨by simp, ks, hc, .noDecls⟩

theorem statements_sound (fuel : Nat) (hc : c.Offers ks) :
    (statements fuel c).Sound Block.Complete fun b r =>
      (∃ r', r = .keyword .endWord :: r') ∧
        ((∀ e ∈ b.statements, e.isElement = false) → Derives .stmts ks r) := by
  have hnone : ∀ why : CompileError, ¬ Block.Complete ⟨[], .error why⟩ := fun _ h => by cases h.2
  induction fuel generalizing c ks with
  | zero => exact .stop hnone
  | succ fuel ih =>
      unfold statements
      obtain ⟨ks, rfl⟩ := hc.eq_cons
      split
      · next hl =>
        rw [SoundAt.kind_of_lexeme hl] at hc ⊢
        exact ⟨⟨by simp, rfl⟩, _, hc, ⟨ks, rfl⟩, fun _ => .noStmts⟩
      · next name hl =>
        rw [SoundAt.kind_of_lexeme hl] at hc ⊢
        refine ((soundAt fuel).named _ hc).andThen (fun e _ _ h => by cases h.2)
          fun e c r he hc hstmt => (ih hc).map (fun b => ?_) fun b r' h => ⟨h.1, fun hb => ?_⟩
        · simp [Block.Complete, he]
        · rw [List.forall_mem_cons] at hb
          exact .stmts (hstmt.2 hb.1) (h.2 hb.2)
      · exact .stop hnone
      · exact .stop hnone

/-- A program that is read to its end is complete, and it is derivable unless one of its
statements is an element. -/
theorem program_sound (hc : c.Offers ks) :
    (program c).Sound Program.Complete fun p _ =>
      (∀ e ∈ p.body.statements, e.isElement = false) → Grammar.IsProgram ks := by
  unfold program
  refine (declList?_sound hc).andThen (fun _ _ _ h => by cases h.2.1)
    fun gs c r hgs hc hglobals => ?_
  refine .pass hc (by decide) (fun _ h => by cases h.2.1) fun c r hr hrest => ?_
  subst hr
  refine (declList?_sound hrest).andThen (fun _ _ _ h => by cases h.2.2.2.1.2)
    fun ls c r hls hc hlocals => ?_
  refine (statements_sound _ hc).andThen (fun _ _ _ h => by cases h.2.2.2.2)
    fun b c r hb hc hbody => ?_
  obtain ⟨⟨r, rfl⟩, hbody⟩ := hbody
  refine .step hc (by decide) fun c hc => .expect (fun _ h => by cases h.2.2.2.2) fun hk => ?_
  have heof : c.current.lexeme = .eof := Lexeme.eq_eof hk
  obtain rfl := hc.eq_of_eof heof
  exact ⟨⟨hgs, rfl, hls, hb, rfl⟩, _, hc, fun h => .program hglobals hlocals (hbody h)⟩

end Reader

end Tern
