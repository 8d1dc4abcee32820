/-!
# Ten-trit words

A machine word is a natural number below `3^10`, read as ten ternary digits
(trits) with the least significant first. Two operations act on it trit by
trit: a rotation by one place and the table-driven combine. Both accept any
sixteen-bit number; trits beyond the tenth are ignored by combine.
-/

namespace TernarySynth.TritWord

/-- A machine word. In a running machine it stays below `wordSize`. -/
abbrev Word := Nat

/-- Number of trits in a word. -/
def trits : Nat := 10

/-- Number of different words, and number of memory cells. -/
def wordSize : Nat := 59049

/-- What an input instruction loads once the input has ended. -/
def eofWord : Word := wordSize - 1

/-- The trit of a word at a position, counted from the least significant. -/
def trit : Word → Nat → Nat
  | w, 0 => w % 3
  | w, i + 1 => trit (w / 3) i

/-- Move every trit one place down; the lowest becomes the highest. -/
def rotateRight (w : Word) : Word := w / 3 + w % 3 * (wordSize / 3)

/-- Combine two trits: the row is chosen by `t2`, the column by `t1`. -/
def combineTrit (t1 t2 : Nat) : Nat :=
  match t2, t1 with
  | 0, 0 => 1
  | 0, _ => 0
  | 1, 0 => 1
  | 1, 1 => 0
  | 1, _ => 2
  | _, 0 => 2
  | _, 1 => 2
  | _, _ => 1

/-- Combine the lowest `n` trits of two numbers, lowest first. -/
def combineTrits : Nat → Word → Word → Word
  | 0, _, _ => 0
  | n + 1, t1, t2 => combineTrit (t1 % 3) (t2 % 3) + 3 * combineTrits n (t1 / 3) (t2 / 3)

/-- Combine two words at each of their ten trits. -/
def combine (t1 t2 : Word) : Word := combineTrits trits t1 t2

/-- A trit of a word is 0, 1 or 2. -/
theorem trit_lt (w : Word) (i : Nat) : trit w i < 3 := by
  induction i generalizing w with
  | zero => exact Nat.mod_lt w (by decide)
  | succ i ih => exact ih (w / 3)

/-- The table holds trits only. -/
theorem combineTrit_lt (t1 t2 : Nat) : combineTrit t1 t2 < 3 := by
  unfold combineTrit; split <;> decide

end TernarySynth.TritWord
