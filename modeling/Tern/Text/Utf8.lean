/-!
# UTF-8

Reading a file never fails on its bytes: where they are no UTF-8, the text has a replacement
character, one for each longest part that could have started a character.
-/

namespace Tern.Text

/-- A character of which some bytes are read: its bits so far, the number of bytes that it still
lacks, and the range of the next one. -/
structure Unfinished where
  bits : Nat
  lacks : Nat
  low : Nat := 0x80
  high : Nat := 0xBF

def Unfinished.start? (b : Nat) : Option Unfinished :=
  if b < 0x80 then some { bits := b, lacks := 0 }
  else if b < 0xC2 then none
  else if b < 0xE0 then some { bits := b % 32, lacks := 1 }
  -- The range of the second byte leaves out overlong forms, surrogates and what is too large.
  else if b < 0xF0 then
    some { bits := b % 16, lacks := 2, low := if b = 0xE0 then 0xA0 else 0x80,
           high := if b = 0xED then 0x9F else 0xBF }
  else if b < 0xF5 then
    some { bits := b % 8, lacks := 3, low := if b = 0xF0 then 0x90 else 0x80,
           high := if b = 0xF4 then 0x8F else 0xBF }
  else none

def Unfinished.next? (u : Unfinished) (b : Nat) : Option Unfinished :=
  if u.low ≤ b ∧ b ≤ u.high then some { bits := u.bits * 64 + b % 64, lacks := u.lacks - 1 }
  else none

def replacement : Char := Char.ofNat 0xFFFD

/-- The text that bytes spell, behind the first bytes of a character if there are some. -/
def decodeFrom : Option Unfinished → List UInt8 → List Char
  | none, [] => []
  | some _, [] => [replacement]
  | u?, b :: bs =>
      let deliver (u : Unfinished) : List Char :=
        if u.lacks = 0 then Char.ofNat u.bits :: decodeFrom none bs else decodeFrom (some u) bs
      let start : List Char :=
        (Unfinished.start? b.toNat).elim (replacement :: decodeFrom none bs) deliver
      match u? with
      | none => start
      | some u => (u.next? b.toNat).elim (replacement :: start) deliver

def decode (bytes : List UInt8) : List Char := decodeFrom none bytes

variable {v low high : Nat} {u : Unfinished} {bs : List UInt8}

theorem toNat_ofNat_of_lt (h : v < 256) : (UInt8.ofNat v).toNat = v := by
  simpa using Nat.mod_eq_of_lt h

theorem decodeFrom_start (hv : v < 256) (h : Unfinished.start? v = some u) :
    decodeFrom none (UInt8.ofNat v :: bs) =
      if u.lacks = 0 then Char.ofNat u.bits :: decodeFrom none bs else decodeFrom (some u) bs := by
  rw [← toNat_ofNat_of_lt hv] at h
  rw [decodeFrom, h]
  rfl

/-- A byte in range adds the last six bits. -/
theorem decodeFrom_next (lacks : Nat) (hlow : low ≤ v % 64 + 128) (hhigh : v % 64 + 128 ≤ high) :
    decodeFrom (some ⟨v / 64, lacks + 1, low, high⟩) (UInt8.ofNat (v % 64 + 128) :: bs) =
      if lacks = 0 then Char.ofNat v :: decodeFrom none bs
      else decodeFrom (some { bits := v, lacks }) bs := by
  have hbits : v / 64 * 64 + (v % 64 + 128) % 64 = v := by omega
  simp only [decodeFrom, toNat_ofNat_of_lt (show v % 64 + 128 < 256 by omega), Unfinished.next?,
    if_pos (And.intro hlow hhigh), Option.elim_some, hbits, Nat.add_sub_cancel]

theorem decodeFrom_utf8EncodeChar (c : Char) (bs : List UInt8) :
    decodeFrom none (String.utf8EncodeChar c ++ bs) = c :: decodeFrom none bs := by
  have hvalid : c.toNat < 0xD800 ∨ 0xDFFF < c.toNat ∧ c.toNat < 0x110000 := c.valid
  have hval : c.val.toNat = c.toNat := rfl
  suffices h : decodeFrom none (String.utf8EncodeChar c ++ bs) =
      Char.ofNat c.toNat :: decodeFrom none bs by
    rwa [Char.ofNat_toNat] at h
  simp only [String.utf8EncodeChar, hval]
  generalize c.toNat = v at hvalid
  split
  · have hstart : Unfinished.start? v = some { bits := v, lacks := 0 } := by
      rw [Unfinished.start?, if_pos (by omega)]
    rw [List.singleton_append, decodeFrom_start (by omega) hstart, if_pos rfl]
  · split
    · have hstart : Unfinished.start? (v / 64 % 32 + 192) = some { bits := v / 64, lacks := 1 } := by
        rw [Unfinished.start?, if_neg (by omega), if_neg (by omega), if_pos (by omega),
          show (v / 64 % 32 + 192) % 32 = v / 64 by omega]
      rw [List.cons_append, decodeFrom_start (by omega) hstart, if_neg (Nat.succ_ne_zero 0),
        List.singleton_append, decodeFrom_next 0 (by omega) (by omega), if_pos rfl]
    · split
      · have hstart : Unfinished.start? (v / 4096 % 16 + 224) =
            some { bits := v / 64 / 64, lacks := 2,
                   low := if v / 4096 % 16 + 224 = 0xE0 then 0xA0 else 0x80,
                   high := if v / 4096 % 16 + 224 = 0xED then 0x9F else 0xBF } := by
          rw [Unfinished.start?, if_neg (by omega), if_neg (by omega), if_neg (by omega),
            if_pos (by omega), show (v / 4096 % 16 + 224) % 16 = v / 64 / 64 by omega]
        rw [List.cons_append, decodeFrom_start (by omega) hstart, if_neg (Nat.succ_ne_zero 1),
          List.cons_append, decodeFrom_next 1 (by split <;> omega) (by split <;> omega),
          if_neg (Nat.succ_ne_zero 0), List.singleton_append,
          decodeFrom_next 0 (by omega) (by omega), if_pos rfl]
      · have hstart : Unfinished.start? (v / 262144 % 8 + 240) =
            some { bits := v / 4096 / 64, lacks := 3,
                   low := if v / 262144 % 8 + 240 = 0xF0 then 0x90 else 0x80,
                   high := if v / 262144 % 8 + 240 = 0xF4 then 0x8F else 0xBF } := by
          rw [Unfinished.start?, if_neg (by omega), if_neg (by omega), if_neg (by omega),
            if_neg (by omega), if_pos (by omega),
            show (v / 262144 % 8 + 240) % 8 = v / 4096 / 64 by omega]
        rw [List.cons_append, decodeFrom_start (by omega) hstart, if_neg (Nat.succ_ne_zero 2),
          List.cons_append, decodeFrom_next 2 (by split <;> omega) (by split <;> omega),
          if_neg (Nat.succ_ne_zero 1), List.cons_append,
          show v / 4096 = v / 64 / 64 by omega,
          decodeFrom_next 1 (by omega) (by omega),
          if_neg (Nat.succ_ne_zero 0), List.singleton_append,
          decodeFrom_next 0 (by omega) (by omega), if_pos rfl]

/-- Text that was encoded is read back. -/
theorem decode_utf8Encode (cs : List Char) : decode (cs.flatMap String.utf8EncodeChar) = cs := by
  unfold decode
  induction cs with
  | nil => rfl
  | cons c cs ih => rw [List.flatMap_cons, decodeFrom_utf8EncodeChar, ih]

end Tern.Text
