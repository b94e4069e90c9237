/-!
# UTF-16 units

Columns count UTF-16 code units, and a message that quotes a single unit may quote
half of a surrogate pair.  Half a pair is no character, so it is named by its code.
-/

namespace Tern.Text

/-- Number of UTF-16 units that spell a character. -/
def units (c : Char) : Nat :=
  if c.toNat < 0x10000 then 1 else 2

/-- The leading unit of a character that is spelt by a surrogate pair. -/
def highSurrogate (c : Char) : Nat :=
  0xD800 + (c.toNat - 0x10000) / 0x400

def hex (n : Nat) : String :=
  String.ofList ((Nat.toDigits 16 n).map Char.toUpper)

/-- The first UTF-16 unit of a character as text: the character itself, or the code of
its high surrogate in braces. -/
def firstUnit (c : Char) : String :=
  if c.toNat < 0x10000 then c.toString else "\x7bU+" ++ hex (highSurrogate c) ++ "\x7d"

theorem units_pos (c : Char) : 0 < units c := by
  unfold units
  split <;> omega

end Tern.Text
