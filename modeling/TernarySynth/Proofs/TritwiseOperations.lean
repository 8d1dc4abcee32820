import TernarySynth.Proofs.FixedRange
import TernarySynth.Proofs.TritPlaces

/-!
# Combine and rotation in fixed size

A combine takes ten turns. Each of them looks up one trit in a table, weighs it by its
place and adds it to those below it. Here the turns are taken in numbers of 32 bits, and
the sum that they come to is a word of 16 bits; a rotation keeps within 16 bits all the
way. Neither leaves its range, and what they come to acts on the trits place by place.
-/

namespace TernarySynth.Proofs.TritwiseOperations

open TritWord FixedRange TritPlaces

section Table

/-- What two trits combine to: the row is for the trit of the second number, the column
for that of the first. -/
def combineTable : List (List Nat) := [[1, 0, 0], [1, 0, 2], [2, 2, 1]]

/-- The entry for two trits; none if there is no such row or column. -/
def entry (t1 t2 : Nat) : Option Nat := do
  let row ← combineTable[t2]?
  row[t1]?

/-- All trits have an entry, and it is what they combine to. -/
theorem entry_eq : ∀ t1 < 3, ∀ t2 < 3, entry t1 t2 = some (combineTrit t1 t2) := by decide

/-- The trits of a combine are the entries for the trits at their places. -/
theorem entry_trit {i : Nat} (hi : i < trits) (t1 t2 : Word) :
    entry (trit t1 i) (trit t2 i) = some (trit (combine t1 t2) i) := by
  rw [trit_combine hi]
  exact entry_eq _ (trit_lt t1 i) _ (trit_lt t2 i)

end Table

section Turns

/-- A combine under way. -/
structure Tally where
  /-- What is left of the first number. -/
  first : Word
  /-- What is left of the second number. -/
  second : Word
  /-- What a trit at the next place counts for. -/
  weight : Int
  /-- What all the trits below count for. -/
  sum : Int

/-- One turn, every result of it in 32 bits. What is left of the numbers only gets smaller. -/
def Tally.next (tally : Tally) : Option Tally := do
  let trit ← entry (tally.first % 3) (tally.second % 3)
  let share ← unsigned32.fit (trit * tally.weight)
  let sum ← unsigned32.fit (tally.sum + share)
  let weight ← unsigned32.fit (tally.weight * 3)
  return ⟨tally.first / 3, tally.second / 3, weight, sum⟩

/-- So many turns, one after the other. -/
def Tally.after : Nat → Tally → Option Tally
  | 0, tally => some tally
  | n + 1, tally => do
    let tally ← tally.next
    tally.after n

/-- A combine in ten turns, and the sum taken for a number of 16 bits. -/
def checkedCombine (t1 t2 : Word) : Option Int := do
  let tally ← Tally.after trits ⟨t1, t2, 1, 0⟩
  unsigned16.fit tally.sum

/-- A rotation, every step of it in 16 bits. -/
def checkedRotateRight (w : Word) : Option Int := do
  let top ← unsigned16.fit ((w : Nat) % 3 * (wordSize / 3 : Nat))
  unsigned16.fit ((w : Nat) / 3 + top)

/-- The tally of two numbers of which so many trits are combined. -/
def tallied (t1 t2 : Word) (k : Nat) : Tally :=
  ⟨t1 / 3 ^ k, t2 / 3 ^ k, (3 ^ k : Nat), (combineTrits k t1 t2 : Nat)⟩

variable {t1 t2 w : Word}

/-- A turn combines one trit more, and does not leave the range. -/
theorem next_tallied {k : Nat} (hk : k < trits) :
    (tallied t1 t2 k).next = some (tallied t1 t2 (k + 1)) := by
  have hentry : entry (t1 / 3 ^ k % 3) (t2 / 3 ^ k % 3) =
      some (combineTrit (trit t1 k) (trit t2 k)) := by
    rw [← trit_eq, ← trit_eq]
    exact entry_eq _ (trit_lt t1 k) _ (trit_lt t2 k)
  have hplaces : 3 ^ (k + 1) ≤ 59049 := Nat.pow_le_pow_right (by decide) hk
  have hsum := combineTrits_lt (k + 1) t1 t2
  rw [combineTrits_succ] at hsum
  rw [Nat.pow_succ] at hplaces hsum
  unfold tallied Tally.next
  rw [bind_of_eq_some hentry, combineTrits_succ, Nat.pow_succ, ← Nat.div_div_eq_div_mul,
    ← Nat.div_div_eq_div_mul]
  -- The bound of the new sum is a bound of both its parts, whatever the product stands for.
  generalize combineTrit (trit t1 k) (trit t2 k) = top at hsum ⊢
  generalize combineTrits k t1 t2 = below at hsum ⊢
  generalize 3 ^ k = weight at hplaces hsum ⊢
  dsimp only
  rw [← Int.natCast_mul]
  generalize top * weight = share at hsum ⊢
  unfold Word at *
  rw [bind_unsigned32 (by omega) (by omega), bind_unsigned32 (by omega) (by omega),
    bind_unsigned32 (by omega) (by omega)]
  rfl

/-- So many turns combine as many trits more, up to the ten of a word. -/
theorem after_tallied (n : Nat) {k : Nat} (h : k + n ≤ trits) :
    (tallied t1 t2 k).after n = some (tallied t1 t2 (k + n)) := by
  induction n generalizing k with
  | zero => rfl
  | succ n ih =>
    have hnext : (tallied t1 t2 k).next = some (tallied t1 t2 (k + 1)) :=
      next_tallied (by omega)
    have hrest := ih (k := k + 1) (by omega)
    rw [Tally.after, bind_of_eq_some hnext, hrest, Nat.add_right_comm, Nat.add_assoc]

/-- Ten turns come to the combine of the two numbers, and it has 16 bits. -/
theorem checkedCombine_eq (t1 t2 : Word) :
    checkedCombine t1 t2 = some ((combine t1 t2 : Nat) : Int) := by
  have hstart : (⟨t1, t2, 1, 0⟩ : Tally) = tallied t1 t2 0 := by
    rw [tallied, Nat.pow_zero, Nat.div_one, Nat.div_one]
    rfl
  have hturns : Tally.after trits ⟨t1, t2, 1, 0⟩ = some (tallied t1 t2 trits) := by
    rw [hstart, after_tallied trits (Nat.le_of_eq (Nat.zero_add trits)), Nat.zero_add]
  have hword := combine_lt t1 t2
  have hsum : (tallied t1 t2 trits).sum = ((combine t1 t2 : Nat) : Int) := rfl
  unfold checkedCombine
  rw [bind_of_eq_some hturns, hsum]
  unfold wordSize Word at *
  exact fit_unsigned16 (by omega) (by omega)

/-- A number of 16 bits is rotated without leaving them. -/
theorem checkedRotateRight_eq (h : w ≤ 65535) :
    checkedRotateRight w = some ((rotateRight w : Nat) : Int) := by
  unfold checkedRotateRight rotateRight wordSize
  unfold Word at *
  rw [bind_unsigned16 (by omega) (by omega)]
  exact fit_unsigned16 (by omega) (by omega)

end Turns

/-- Both operations act on words trit by trit. Two numbers combine, within the range of every
step, to a word each of whose trits stands in the table for the two at its place; what is
above the tenth trit has no part in it. A rotation of 16 bits does not leave them, and takes
the trits of a word one place down, the lowest one to the top. So any number of rotations
commutes with combining words. -/
theorem operations_act_on_trits (t1 t2 : Word) :
    (checkedCombine t1 t2 = some ((combine t1 t2 : Nat) : Int) ∧
      combine t1 t2 < wordSize ∧ combine (t1 % wordSize) (t2 % wordSize) = combine t1 t2 ∧
      ∀ i < trits, entry (trit t1 i) (trit t2 i) = some (trit (combine t1 t2) i)) ∧
    (t1 ≤ 65535 → checkedRotateRight t1 = some ((rotateRight t1 : Nat) : Int)) ∧
    (t1 < wordSize → rotateRight t1 < wordSize ∧
      ∀ i < trits, trit (rotateRight t1) i = trit t1 ((i + 1) % trits)) ∧
    (t1 < wordSize → t2 < wordSize → ∀ k,
      rotateRight^[k] (combine t1 t2) = combine (rotateRight^[k] t1) (rotateRight^[k] t2)) := by
  refine ⟨⟨checkedCombine_eq t1 t2, combine_lt t1 t2, combine_mod t1 t2,
    fun i hi => entry_trit hi t1 t2⟩, checkedRotateRight_eq, fun h1 => ?_,
    iterate_rotateRight_combine⟩
  exact ⟨rotateRight_lt h1, fun i hi => trit_rotateRight h1 hi⟩

/-- A lowest trit of 2 is rotated to the top, and there it combines with the lowest trit of
the other word; the table has a 1 for the two. -/
theorem operations_act_on_trits_of_low_trit :
    trit (combine 59048 2) 0 = 1 ∧ trit (rotateRight 2) 9 = 2 ∧
      checkedRotateRight 59048 = some 59048 ∧
      rotateRight^[1] (combine 59048 2) = combine 59048 39366 := by
  obtain ⟨⟨-, -, -, hentry⟩, hchecked, -, hcommutes⟩ := operations_act_on_trits 59048 2
  obtain ⟨-, -, hrotates, -⟩ := operations_act_on_trits 2 0
  have hlow := hentry 0 (by decide)
  have htop := (hrotates (by decide)).2 9 (by decide)
  exact ⟨(Option.some.inj hlow).symm, htop, hchecked (by decide),
    hcommutes (by decide) (by decide) 1⟩

end TernarySynth.Proofs.TritwiseOperations
