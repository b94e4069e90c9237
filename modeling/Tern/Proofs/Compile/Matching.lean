import Tern.Proofs.Compile.Concurrence
import Tern.Proofs.Tree.Parallel

/-!
# Compiling the same tree elsewhere

What a tree compiles to does not depend on where in the text it stands, nor on the lines that
have been written before.  Trees that differ in their positions only, compiled in the same scopes
with the same registers in use, yield the same code or fail for the same reason.
-/

namespace Tern

def Failure.unplaced : Failure → Failure
  | .problem e => .problem e.unplaced
  | .fault f => .fault f

theorem Failure.Alike.unplaced_eq {respelt : Bool} {f f' : Failure}
    (h : f.Alike (.unplaced respelt) f') :
    f.unplaced = f'.unplaced := by
  cases h with
  | problem h => exact congrArg Failure.problem h
  | fault f => rfl

namespace Compile

variable {α β : Type} {front : Array Line} {c c' : Compilation}

/-- Results that agree, up to positions and the lines in front. -/
inductive Agree (front : Array Line) :
    EStateM.Result Failure Compilation α → EStateM.Result Failure Compilation α → Prop where
  | ok {v : α} {d d' : Compilation} (h : d.Behind front d') : Agree front (.ok v d) (.ok v d')
  | error {f f' : Failure} {d d' : Compilation} (h : f.unplaced = f'.unplaced) :
      Agree front (.error f d) (.error f' d')

/-- Both operations do the same, up to positions, whatever has been written before. -/
def Matches (x y : Compile α) : Prop :=
  ∀ (front : Array Line) (c c' : Compilation), c.Behind front c' → Agree front (x c) (y c')

namespace Agree

theorem of_tallies {r r' : EStateM.Result Failure Compilation α}
    (h : Tallies .unplaced front r r') : Agree front r r' := by
  cases h with
  | ok h => exact .ok h
  | error h => exact .error h.unplaced_eq

theorem exists_ok {r r' : EStateM.Result Failure Compilation α} {v : α} {d : Compilation}
    (h : Agree front r r') (hr : r = .ok v d) : ∃ d', r' = .ok v d' ∧ d.Behind front d' := by
  subst hr
  cases h with
  | ok h => exact ⟨_, rfl, h⟩

theorem exists_error {r r' : EStateM.Result Failure Compilation α} {f : Failure}
    {d : Compilation} (h : Agree front r r') (hr : r = .error f d) :
    ∃ f' d', r' = .error f' d' ∧ f.unplaced = f'.unplaced := by
  subst hr
  cases h with
  | error h => exact ⟨_, _, rfl, h⟩

theorem bind {x y : Compile α} {f g : α → Compile β} (hx : Agree front (x c) (y c'))
    (hf : ∀ v d d', x c = .ok v d → d.Behind front d' → Agree front (f v d) (g v d')) :
    Agree front ((x >>= f) c) ((y >>= g) c') := by
  simp only [Bind.bind, EStateM.bind]
  cases hxc : x c with
  | ok v d =>
      obtain ⟨d', hyc, hd⟩ := hx.exists_ok hxc
      rw [hyc]
      exact hf v d d' hxc hd
  | error e d =>
      obtain ⟨e', d', hyc, he⟩ := hx.exists_error hxc
      rw [hyc]
      exact .error he

end Agree

theorem Matches.of_concurs {x y : Compile α} (h : Concurs .unplaced x y) : Matches x y :=
  fun front c c' hc => .of_tallies (h front c c' hc)

theorem unplaced_pos {respelt : Bool} {e e' : CompileError}
    (_ : (Likeness.unplaced respelt).error e e') : e.pos.Alike (.unplaced respelt) e'.pos :=
  Likeness.unplaced_pos _ _

theorem statements_match {trees trees' : List Expr}
    (h : trees.map Expr.unplaced = trees'.map Expr.unplaced) (hc : c.Behind front c')
    (hfree : c.assembly.busy = []) :
    Agree front (statements trees c) (statements trees' c') :=
  .of_tallies (statements_concur unplaced_pos
    (forall₂_of_map_eq (fun _ _ => Expr.alike_of_unplaced) h) hc hfree)

end Compile

end Tern
