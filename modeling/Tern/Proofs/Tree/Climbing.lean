import Tern.Proofs.Tree.Precedence

/-!
# Precedence climbing

What is read without parentheses nests to the right only where operators bind tighter and
tighter.  There are three levels of operators, so that right operands nest at most three deep,
however long a chain of operators is.
-/

namespace Tern

/-- The operators that stand open in the expression bind at least as tightly as `n`, and those in
the right operand of an operator tighter than it.  The operands of unary operators and of casts
have no open operators. -/
def Expr.Climbs (n : Nat) : Expr → Prop
  | .binary op _ lhs rhs => n ≤ op.precedence ∧ lhs.Climbs n ∧ rhs.Climbs (op.precedence + 1)
  | .reference _ operand | .negate _ operand | .cast operand .. => operand.Climbs 3
  | .paren _ inner _ => inner.Climbs 0
  | .assign _ _ value => value.Climbs 0
  | .missing _ | .integer .. | .char .. | .name _ | .call .. | .element _ => True

theorem Expr.Climbs.mono {m n : Nat} (hle : m ≤ n) : ∀ {e : Expr}, e.Climbs n → e.Climbs m
  | .binary .., ⟨hop, hl, hr⟩ => ⟨hle.trans hop, hl.mono hle, hr⟩
  | .reference .., h | .negate .., h | .cast .., h | .paren .., h | .assign .., h => h
  | .missing _, _ | .integer .., _ | .char .., _ | .name _, _ | .call .., _ | .element _, _ =>
      trivial

namespace Outcome

variable {α β : Type} {Q : β → Prop}

theorem tree_andThen {x : Outcome α} {cut : α → CompileError → β}
    {next : α → Cursor → Outcome β} (hcut : ∀ why, Q (cut x.tree why))
    (hnext : ∀ c, Q (next x.tree c).tree) : Q (x.andThen cut next).tree := by
  cases x with
  | done tree rest => exact hnext rest
  | stopped tree why rest => exact hcut why

theorem tree_map (x : Outcome α) (f : α → β) : (x.map f).tree = f x.tree := by
  cases x <;> rfl

theorem tree_step {c : Cursor} {cut : CompileError → β} {next : Cursor → Outcome β}
    (hcut : ∀ why, Q (cut why)) (hnext : ∀ c, Q (next c).tree) : Q (c.step cut next).tree := by
  unfold Cursor.step
  split
  · exact hnext _
  · exact hcut _

theorem tree_expect {c : Cursor} {wanted : Kind} {cut : CompileError → β} {next : Outcome β}
    (hcut : ∀ why, Q (cut why)) (hnext : Q next.tree) : Q (c.expect wanted cut next).tree := by
  unfold Cursor.expect
  split
  · exact hnext
  · exact hcut _

theorem tree_pass {c : Cursor} {wanted : Kind} {cut : CompileError → β}
    {next : Cursor → Outcome β} (hcut : ∀ why, Q (cut why)) (hnext : ∀ c, Q (next c).tree) :
    Q (c.pass wanted cut next).tree :=
  tree_expect hcut (tree_step hcut hnext)

end Outcome

namespace Reader

open Outcome

/-- With `fuel` to spend, expressions are read by climbing. -/
structure ClimbsAt (fuel : Nat) : Prop where
  expr : ∀ n ≤ 3, ∀ c, (expr fuel n c).tree.Climbs n
  operand : ∀ c, (operand fuel c).tree.Climbs 3
  named : ∀ id c, (named fuel id c).tree.Climbs 3
  assignment : ∀ p c, (assignment fuel p c).tree.Climbs 3
  castSuffix : ∀ e c, e.Climbs 3 → (castSuffix fuel e c).tree.Climbs 3
  operators : ∀ n ≤ 3, ∀ e c, e.Climbs n → (operators fuel n e c).tree.Climbs n

theorem climbsAt_zero : ClimbsAt 0 where
  expr _ _ _ := trivial
  operand _ := trivial
  named _ _ := trivial
  assignment _ _ := trivial
  castSuffix _ _ _ := trivial
  operators _ _ _ _ _ := trivial

variable {fuel : Nat}

theorem expr_climbs (ih : ClimbsAt fuel) (n : Nat) (hn : n ≤ 3) (c : Cursor) :
    (expr (fuel + 1) n c).tree.Climbs n := by
  have hoperand := ih.operand c
  refine tree_andThen (fun _ => hoperand.mono hn) fun c => ?_
  have hcast := ih.castSuffix _ c hoperand
  exact tree_andThen (fun _ => hcast.mono hn) fun c => ih.operators n hn _ c (hcast.mono hn)

theorem operand_climbs (ih : ClimbsAt fuel) (c : Cursor) :
    (operand (fuel + 1) c).tree.Climbs 3 := by
  unfold operand
  split
  · exact tree_step (fun _ => trivial) fun _ => trivial
  · exact tree_step (fun _ => trivial) fun _ => trivial
  · exact ih.named _ c
  · refine tree_step (fun _ => trivial) fun inside => ?_
    have hinner : ((expr fuel 0 inside).tree).Climbs 0 := ih.expr 0 (by omega) inside
    exact tree_andThen (fun _ => hinner) fun rest => tree_pass (fun _ => hinner) fun _ => hinner
  · refine tree_step (fun _ => trivial) fun rest => ?_
    rw [tree_map]
    exact ih.operand rest
  · refine tree_step (fun _ => trivial) fun rest => ?_
    rw [tree_map]
    exact ih.operand rest
  all_goals trivial

theorem named_climbs (ih : ClimbsAt fuel) (id : Ident) (c : Cursor) :
    (named (fuel + 1) id c).tree.Climbs 3 := by
  refine tree_step (fun _ => trivial) fun c => ?_
  split
  · exact ih.assignment _ c
  · refine tree_step (fun _ => trivial) fun inside => ?_
    split
    · exact tree_step (fun _ => trivial) fun _ => trivial
    · rw [tree_map]
      trivial
  · refine tree_andThen (fun _ => trivial) fun c => ?_
    split
    · exact ih.assignment _ c
    · trivial
  · trivial

theorem assignment_climbs (ih : ClimbsAt fuel) (p : Place) (c : Cursor) :
    (assignment (fuel + 1) p c).tree.Climbs 3 := by
  refine tree_step (fun _ => trivial) fun rest => ?_
  rw [tree_map]
  exact ih.expr 0 (by omega) rest

theorem castSuffix_climbs (e : Expr) (c : Cursor) (he : e.Climbs 3) :
    (castSuffix (fuel + 1) e c).tree.Climbs 3 := by
  unfold castSuffix
  split
  · refine tree_step (fun _ => he) fun rest => ?_
    rw [tree_map]
    exact he
  · exact he

theorem operators_climbs (ih : ClimbsAt fuel) (n : Nat) (hn : n ≤ 3) (e : Expr) (c : Cursor)
    (he : e.Climbs n) : (operators (fuel + 1) n e c).tree.Climbs n := by
  unfold operators
  split
  · exact he
  · next op _ =>
    split
    · exact he
    · next hop =>
      have hprec := op.precedence_lt
      refine tree_step (fun _ => ⟨by omega, he, trivial⟩) fun rest => ?_
      have hrhs := ih.expr (op.precedence + 1) (by omega) rest
      have hwhole : (Expr.binary op c.pos e (expr fuel (op.precedence + 1) rest).tree).Climbs n :=
        ⟨by omega, he, hrhs⟩
      exact tree_andThen (fun _ => hwhole) fun rest => ih.operators n hn _ rest hwhole

theorem climbsAt (fuel : Nat) : ClimbsAt fuel := by
  induction fuel with
  | zero => exact climbsAt_zero
  | succ fuel ih =>
      exact ⟨expr_climbs ih, operand_climbs ih, named_climbs ih, assignment_climbs ih,
        castSuffix_climbs, operators_climbs ih⟩

end Reader

/-- The expression is read as a statement from some place of some text. -/
def Expr.IsStatement (e : Expr) : Prop :=
  ∃ fuel id c, (Reader.named fuel id c).tree = e

theorem Expr.IsStatement.climbs {p : Place} {pos : Position} {e : Expr}
    (h : (Expr.assign p pos e).IsStatement) : e.Climbs 0 := by
  obtain ⟨fuel, id, c, htree⟩ := h
  have hclimbs := (Reader.climbsAt fuel).named id c
  rwa [htree] at hclimbs

def Block.AllStatements (b : Block) : Prop := ∀ e ∈ b.statements, e.IsStatement

namespace Reader

open Outcome

theorem statements_allStatements (fuel : Nat) (c : Cursor) :
    (statements fuel c).tree.AllStatements := by
  have hnone : ∀ r, Block.AllStatements ⟨[], r⟩ := fun _ _ he => absurd he List.not_mem_nil
  induction fuel generalizing c with
  | zero => exact hnone _
  | succ fuel ih =>
      unfold statements
      split
      · exact hnone _
      · next name _ =>
        have hfirst : (named fuel ⟨name, c.pos⟩ c).tree.IsStatement := ⟨fuel, _, c, rfl⟩
        refine tree_andThen (fun _ => by simpa [Block.AllStatements] using hfirst) fun rest => ?_
        rw [tree_map]
        exact List.forall_mem_cons.2 ⟨hfirst, ih rest⟩
      · exact hnone _
      · exact hnone _

theorem program_allStatements (c : Cursor) : (program c).tree.body.AllStatements := by
  have hnone : ∀ r, Block.AllStatements ⟨[], r⟩ := fun _ _ he => absurd he List.not_mem_nil
  let Q : Program → Prop := fun p => p.body.AllStatements
  change Q (program c).tree
  refine tree_andThen (fun _ => hnone _) fun c => ?_
  refine tree_pass (fun _ => hnone _) fun c => ?_
  refine tree_andThen (fun _ => hnone _) fun c => ?_
  have hbody := statements_allStatements (budget c) c
  exact tree_andThen (fun _ => hbody) fun c =>
    tree_step (fun _ => hbody) fun c => tree_expect (fun _ => hbody) hbody

end Reader

end Tern
