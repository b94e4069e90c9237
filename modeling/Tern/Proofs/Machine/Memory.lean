import Mathlib
import Tern.Machine.Register

/-!
# Flat memory

Memory is a byte at every 64-bit address.  Numbers are stored with their low byte first, and
addresses wrap around.
-/

namespace Tern.Machine

abbrev Addr := BitVec 64

abbrev Memory := Addr → BitVec 8

/-- The number stored in the `n` bytes at `a`. -/
def load (m : Memory) (a : Addr) : Nat → Nat
  | 0 => 0
  | n + 1 => (m a).toNat + 2 ^ 8 * load m (a + 1) n

/-- The memory with the low `n` bytes of `v` at `a`. -/
def store (m : Memory) (a : Addr) (n v : Nat) : Memory := fun x =>
  if (x - a).toNat < n then BitVec.ofNat 8 (v / 2 ^ (8 * (x - a).toNat)) else m x

variable {m m' : Memory} {a b : Addr} {n k v : Nat}

theorem two_pow_bytes_succ (n : Nat) : 2 ^ (8 * (n + 1)) = 2 ^ 8 * 2 ^ (8 * n) := by
  rw [Nat.mul_add, Nat.mul_one, Nat.add_comm, Nat.pow_add]

theorem load_lt : load m a n < 2 ^ (8 * n) := by
  induction n generalizing a with
  | zero => simp [load]
  | succ n ih =>
      have hbyte : (m a).toNat < 2 ^ 8 := (m a).isLt
      have hrest : load m (a + 1) n < 2 ^ (8 * n) := ih
      rw [load, two_pow_bytes_succ]
      omega

theorem add_one_add_ofNat (i : Nat) : a + 1 + BitVec.ofNat 64 i = a + BitVec.ofNat 64 (i + 1) := by
  have hone : (1 : Addr).toNat = 1 := rfl
  apply BitVec.eq_of_toNat_eq
  simp only [BitVec.toNat_add, BitVec.toNat_ofNat, hone]
  omega

theorem load_congr (h : ∀ i < n, m (a + BitVec.ofNat 64 i) = m' (a + BitVec.ofNat 64 i)) :
    load m a n = load m' a n := by
  induction n generalizing a with
  | zero => rfl
  | succ n ih =>
      have hfirst : m a = m' a := by
        have h0 := h 0 (by omega)
        simpa using h0
      have hrest : load m (a + 1) n = load m' (a + 1) n := by
        apply ih
        intro i hi
        rw [add_one_add_ofNat]
        exact h (i + 1) (by omega)
      rw [load, load, hfirst, hrest]

theorem eq_of_load_eq (h : load m a n = load m' a n) :
    ∀ i < n, m (a + BitVec.ofNat 64 i) = m' (a + BitVec.ofNat 64 i) := by
  induction n generalizing a with
  | zero => omega
  | succ n ih =>
      intro i hi
      rw [load, load] at h
      have hbyte : (m a).toNat < 2 ^ 8 := (m a).isLt
      have hbyte' : (m' a).toNat < 2 ^ 8 := (m' a).isLt
      by_cases hzero : i = 0
      · have hfirst : m a = m' a := BitVec.eq_of_toNat_eq (by omega)
        simpa [hzero] using hfirst
      · have hrest := ih (by omega : load m (a + 1) n = load m' (a + 1) n) (i - 1) (by omega)
        rwa [add_one_add_ofNat, Nat.sub_add_cancel (by omega)] at hrest

theorem load_mod (h : k ≤ n) : load m a n % 2 ^ (8 * k) = load m a k := by
  induction k generalizing a n with
  | zero => simp [load, Nat.mod_one]
  | succ k ih =>
      cases n with
      | zero => omega
      | succ n =>
          have hbyte : (m a).toNat < 2 ^ 8 := (m a).isLt
          have hrest : load m (a + 1) n % 2 ^ (8 * k) = load m (a + 1) k := ih (by omega)
          rw [load, load, two_pow_bytes_succ, ← hrest, Nat.mod_mul]
          have hlow : ((m a).toNat + 2 ^ 8 * load m (a + 1) n) % 2 ^ 8 = (m a).toNat := by omega
          have hhigh : ((m a).toNat + 2 ^ 8 * load m (a + 1) n) / 2 ^ 8 = load m (a + 1) n := by
            omega
          rw [hlow, hhigh]

theorem add_ofNat_sub (i : Nat) (hi : i < 2 ^ 64) : (a + BitVec.ofNat 64 i - a).toNat = i := by
  have h : a + BitVec.ofNat 64 i - a = BitVec.ofNat 64 i := by
    rw [BitVec.add_comm, BitVec.add_sub_cancel]
  rw [h, BitVec.toNat_ofNat, Nat.mod_eq_of_lt hi]

theorem store_apply_of_lt {x : Addr} (h : (x - a).toNat < n) :
    store m a n v x = BitVec.ofNat 8 (v / 2 ^ (8 * (x - a).toNat)) := if_pos h

theorem store_apply_of_le {x : Addr} (h : n ≤ (x - a).toNat) : store m a n v x = m x :=
  if_neg (Nat.not_lt.2 h)

theorem load_store_at (i : Nat) (hik : i + k ≤ n) (hn : n ≤ 2 ^ 64) :
    load (store m a n v) (a + BitVec.ofNat 64 i) k = v / 2 ^ (8 * i) % 2 ^ (8 * k) := by
  induction k generalizing i with
  | zero => simp [load, Nat.mod_one]
  | succ k ih =>
      have hi : (a + BitVec.ofNat 64 i - a).toNat = i := add_ofNat_sub i (by omega)
      have hnext : a + BitVec.ofNat 64 i + 1 = a + BitVec.ofNat 64 (i + 1) := by
        rw [BitVec.add_assoc, BitVec.add_comm _ 1, ← BitVec.add_assoc, add_one_add_ofNat]
      have hbyte : (store m a n v (a + BitVec.ofNat 64 i)).toNat = v / 2 ^ (8 * i) % 2 ^ 8 := by
        rw [store_apply_of_lt (by omega), hi, BitVec.toNat_ofNat]
      rw [load, hbyte, hnext, ih (i + 1) (by omega), two_pow_bytes_succ i, two_pow_bytes_succ k,
        Nat.mod_mul (x := v / 2 ^ (8 * i)), Nat.div_div_eq_div_mul, Nat.mul_comm (2 ^ (8 * i))]

theorem load_store_same (hn : n ≤ 2 ^ 64) : load (store m a n v) a n = v % 2 ^ (8 * n) := by
  have h := load_store_at (m := m) (a := a) (v := v) 0 (k := n) (by omega) hn
  simpa using h

end Tern.Machine
