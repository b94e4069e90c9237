import Mathlib

/-!
# The parts of a text

A text that was put together of parts can be taken apart again where each part ends at a character
that it does not have.
-/

namespace Tern

namespace Text

def Over (P : Char → Bool) (x : String) : Prop := ∀ c ∈ x.toList, P c = true

-- Only the characters of the text are looked at, not all that there are.
instance (P : Char → Bool) (x : String) : Decidable (Over P x) := List.decidableBAll _ _

namespace Over

variable {P Q : Char → Bool} {x y : String} {c : Char}

theorem mono (h : Over P x) (hPQ : ∀ c, P c = true → Q c = true) : Over Q x :=
  fun c hc => hPQ c (h c hc)

theorem notMem (h : Over P x) (hc : P c = false) : c ∉ x.toList := by
  intro hmem
  rw [h c hmem] at hc
  cases hc

theorem without (h : Over P x) (hc : P c = false) : Over (· != c) x :=
  fun _ hmem => bne_iff_ne.2 (ne_of_mem_of_not_mem hmem (h.notMem hc))

theorem append (hx : Over P x) (hy : Over P y) : Over P (x ++ y) := by
  intro c hc
  rw [String.toList_append, List.mem_append] at hc
  exact hc.elim (hx c) (hy c)

theorem intercalate {xs : List String} (hx : Over P x) (hxs : ∀ y ∈ xs, Over P y) :
    Over P (x.intercalate xs) := by
  induction xs with
  | nil => exact List.forall_mem_nil _
  | cons y ys ih =>
      obtain ⟨hy, hys⟩ := List.forall_mem_cons.1 hxs
      cases ys with
      | nil => rwa [String.intercalate_singleton]
      | cons z zs =>
          rw [String.intercalate_cons_cons]
          exact (hy.append hx).append (ih hys)

theorem join {xs : List String} (hxs : ∀ y ∈ xs, Over P y) : Over P (String.join xs) := by
  induction xs with
  | nil => exact List.forall_mem_nil _
  | cons y ys ih =>
      rw [String.join_cons]
      exact append (hxs y List.mem_cons_self) (ih fun z hz => hxs z (List.mem_cons_of_mem y hz))

theorem natToString (n : Nat) : Over Char.isDigit (toString n) := by
  intro c hc
  rw [Nat.toString_eq_ofList_toDigits, String.toList_ofList] at hc
  exact Nat.isDigit_of_mem_toDigits (by decide) (by decide) hc

theorem intToString (n : Int) : Over (fun c => c.isDigit || c == '-') (toString n) := by
  rw [Int.toString_eq_repr, Int.repr_eq_if]
  split
  · exact (natToString _).mono fun c hc => by simp [hc]
  · exact append (by decide) ((natToString _).mono fun c hc => by simp [hc])

end Over

/-- Where a text goes on with a character that its first part does not have, the parts are
determined. -/
theorem append_inj_of_over {P : Char → Bool} {x x' : String} {y y' : List Char} (hx : Over P x)
    (hx' : Over P x') (hy : ∀ c ∈ y.head?, P c = false) (hy' : ∀ c ∈ y'.head?, P c = false)
    (h : x.toList ++ y = x'.toList ++ y') : x = x' ∧ y = y' := by
  have hrest : ∀ {z : List Char}, (∀ c ∈ z.head?, P c = false) →
      z.takeWhile P = [] ∧ z.dropWhile P = z := by
    intro z hz
    cases z with
    | nil => exact ⟨rfl, rfl⟩
    | cons c cs => simp [hz c rfl]
  have htake := congrArg (List.takeWhile P) h
  have hdrop := congrArg (List.dropWhile P) h
  rw [List.takeWhile_append_of_pos hx, List.takeWhile_append_of_pos hx', (hrest hy).1,
    (hrest hy').1, List.append_nil, List.append_nil] at htake
  rw [List.dropWhile_append_of_pos hx, List.dropWhile_append_of_pos hx', (hrest hy).2,
    (hrest hy').2] at hdrop
  exact ⟨String.toList_inj.1 htake, hdrop⟩

/-! ### Parts of a text -/

/-- The parts of a text between the places where `sep` stands, which are looked for from left to
right. -/
def split (sep : List Char) : List Char → List (List Char)
  | [] => [[]]
  | c :: cs =>
      if sep.isPrefixOf (c :: cs) then [] :: split sep (cs.drop (sep.length - 1))
      else (split sep cs).modifyHead (c :: ·)
termination_by cs => cs.length
decreasing_by
  all_goals
    simp only [List.length_drop, List.length_cons]
    omega

variable {c : Char} {sep line rest : List Char} {lines : List (List Char)}

theorem split_line (h : c ∉ line) :
    split (c :: sep) (line ++ c :: sep ++ rest) = line :: split (c :: sep) rest := by
  induction line with
  | nil =>
      rw [List.nil_append, List.cons_append, split, if_pos (by simp)]
      simp
  | cons x xs ih =>
      rw [List.mem_cons, not_or] at h
      have hprefix : (c :: sep).isPrefixOf (x :: (xs ++ c :: sep ++ rest)) = false := by
        simp [List.isPrefixOf, h.1]
      rw [List.cons_append, List.cons_append, split, hprefix, if_neg Bool.false_ne_true, ih h.2]
      rfl

theorem split_lines (h : ∀ l ∈ lines, c ∉ l) :
    split (c :: sep) (lines.flatMap (· ++ c :: sep)) = lines ++ [[]] := by
  induction lines with
  | nil => rw [List.flatMap_nil, split, List.nil_append]
  | cons l ls ih =>
      obtain ⟨hl, hls⟩ := List.forall_mem_cons.1 h
      rw [List.flatMap_cons, split_line hl, ih hls, List.cons_append]

theorem toList_intercalate_append (sep : String) {lines : List String} (h : lines ≠ []) :
    (sep.intercalate lines ++ sep).toList = lines.flatMap fun l => l.toList ++ sep.toList := by
  induction lines with
  | nil => exact absurd rfl h
  | cons l ls ih =>
      cases ls with
      | nil => simp
      | cons l' ls =>
          rw [String.intercalate_cons_cons, String.append_assoc, String.toList_append,
            String.toList_append, ih (by simp), List.flatMap_cons]
          simp

/-- Texts joined by a separator can be told apart, if its first character is in none of them. -/
theorem intercalate_inj {s : String} {xs ys : List String} (hs : s.toList = c :: sep)
    (hxs : xs ≠ []) (hys : ys ≠ []) (hx : ∀ x ∈ xs, c ∉ x.toList) (hy : ∀ y ∈ ys, c ∉ y.toList)
    (h : s.intercalate xs = s.intercalate ys) : xs = ys := by
  have hparts : ∀ {zs : List String}, zs ≠ [] → (∀ z ∈ zs, c ∉ z.toList) →
      split (c :: sep) (s.intercalate zs ++ s).toList = zs.map String.toList ++ [[]] := by
    intro zs hzs hz
    have hlines : split (c :: sep) ((zs.map String.toList).flatMap (· ++ c :: sep)) =
        zs.map String.toList ++ [[]] := split_lines (List.forall_mem_map.2 hz)
    rw [List.flatMap_map, ← hs, ← toList_intercalate_append s hzs] at hlines
    rw [← hs, hlines]
  have hsplit := hparts hxs hx
  rw [h, hparts hys hy] at hsplit
  exact (List.map_injective_iff.2 fun _ _ => String.toList_inj.1)
    (List.append_cancel_right hsplit).symm

end Text

theorem map_inj_of_forall {α β : Type} {f : α → β} {P : α → Prop}
    (hf : ∀ a b, P a → P b → f a = f b → a = b) {xs ys : List α} (hx : ∀ a ∈ xs, P a)
    (hy : ∀ a ∈ ys, P a) (h : xs.map f = ys.map f) : xs = ys := by
  induction xs generalizing ys with
  | nil => exact (List.map_eq_nil_iff.1 h.symm).symm
  | cons x xs ih =>
      cases ys with
      | nil => cases h
      | cons y ys =>
          obtain ⟨hx, hxs⟩ := List.forall_mem_cons.1 hx
          obtain ⟨hy, hys⟩ := List.forall_mem_cons.1 hy
          rw [List.map_cons, List.map_cons, List.cons.injEq] at h
          rw [hf x y hx hy h.1, ih hxs hys h.2]

end Tern
