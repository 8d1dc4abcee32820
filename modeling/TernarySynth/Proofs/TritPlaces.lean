import Mathlib.Algebra.Group.Nat.Defs
import Mathlib.Logic.Function.Iterate
import TernarySynth.TritWord

/-!
# The trits of a word, place by place

A number of ten trits is settled by them. A combine looks each of its trits up by the two
that stand at the same place, and a rotation takes each trit to the place below, the lowest
one to the top. So it makes no difference whether two words are rotated before they are
combined or after.
-/

namespace TernarySynth.Proofs.TritPlaces

open TritWord

section Places

/-- The trit at a place is the lowest one after all below it are cut off. -/
theorem trit_eq (w : Word) (i : Nat) : trit w i = w / 3 ^ i % 3 := by
  induction i generalizing w with
  | zero => rw [trit, Nat.pow_zero, Nat.div_one]
  | succ i ih => rw [trit, ih, Nat.div_div_eq_div_mul, Nat.pow_succ']

/-- Numbers of so many trits are equal if their trits are. -/
theorem eq_of_trits {n w w' : Nat} (hw : w < 3 ^ n) (hw' : w' < 3 ^ n)
    (h : ∀ i < n, trit w i = trit w' i) : w = w' := by
  induction n generalizing w w' with
  | zero =>
    rw [Nat.pow_zero] at hw hw'
    omega
  | succ n ih =>
    rw [Nat.pow_succ] at hw hw'
    have hlow : w % 3 = w' % 3 := h 0 (Nat.succ_pos n)
    have hhigh : w / 3 = w' / 3 := by
      have hd : w / 3 < 3 ^ n := Nat.div_lt_of_lt_mul (by omega)
      have hd' : w' / 3 < 3 ^ n := Nat.div_lt_of_lt_mul (by omega)
      exact ih hd hd' fun i hi => h (i + 1) (Nat.succ_lt_succ hi)
    omega

/-- The trits below a place do not depend on what stands from there on. -/
theorem trit_add_mul_pow {n i : Nat} (h : i < n) (low high : Nat) :
    trit (low + high * 3 ^ n) i = trit low i := by
  induction n generalizing i low with
  | zero => exact absurd h (Nat.not_lt_zero i)
  | succ n ih =>
    have hpow : high * 3 ^ (n + 1) = high * 3 ^ n * 3 := by rw [Nat.pow_succ, Nat.mul_assoc]
    rw [hpow]
    cases i with
    | zero => exact Nat.add_mul_mod_self_right low (high * 3 ^ n) 3
    | succ i =>
      rw [trit, trit, Nat.add_mul_div_right _ _ (by decide)]
      exact ih (Nat.lt_of_succ_lt_succ h) (low / 3)

/-- The trit at a place is the lowest one of what stands from there on. -/
theorem trit_add_mul_pow_self {n low : Nat} (h : low < 3 ^ n) (high : Nat) :
    trit (low + high * 3 ^ n) n = high % 3 := by
  rw [trit_eq, Nat.add_mul_div_right _ _ (Nat.pow_pos (by decide)), Nat.div_eq_of_lt h,
    Nat.zero_add]

/-- The lowest trits stay where all the others are cut off. -/
theorem trit_mod_pow {n i : Nat} (h : i < n) (w : Word) : trit (w % 3 ^ n) i = trit w i := by
  have hcut := trit_add_mul_pow h (w % 3 ^ n) (w / 3 ^ n)
  rw [Nat.mod_add_div'] at hcut
  exact hcut.symm

end Places

section Combine

/-- The lowest trits of two numbers combine to as many trits. -/
theorem combineTrits_lt (n : Nat) (t1 t2 : Word) : combineTrits n t1 t2 < 3 ^ n := by
  induction n generalizing t1 t2 with
  | zero => exact Nat.one_pos
  | succ n ih =>
    have ht := combineTrit_lt (t1 % 3) (t2 % 3)
    have hr := ih (t1 / 3) (t2 / 3)
    rw [combineTrits, Nat.pow_succ]
    unfold Word at *
    omega

/-- Any two numbers combine to a word. -/
theorem combine_lt (t1 t2 : Word) : TritWord.combine t1 t2 < wordSize :=
  combineTrits_lt trits t1 t2

/-- Each of the trits that are combined is looked up by the trits at its place. -/
theorem trit_combineTrits {n i : Nat} (h : i < n) (t1 t2 : Word) :
    trit (combineTrits n t1 t2) i = combineTrit (trit t1 i) (trit t2 i) := by
  induction n generalizing i t1 t2 with
  | zero => omega
  | succ n ih =>
    have hlow := combineTrit_lt (t1 % 3) (t2 % 3)
    cases i with
    | zero =>
      simp only [combineTrits, trit]
      unfold Word at *
      omega
    | succ i =>
      have hrest := ih (Nat.lt_of_succ_lt_succ h) (t1 / 3) (t2 / 3)
      have hshift : combineTrits (n + 1) t1 t2 / 3 = combineTrits n (t1 / 3) (t2 / 3) := by
        rw [combineTrits]
        unfold Word at *
        omega
      simp only [trit, hshift]
      exact hrest

/-- The trits of a combine. -/
theorem trit_combine {i : Nat} (h : i < trits) (t1 t2 : Word) :
    trit (combine t1 t2) i = combineTrit (trit t1 i) (trit t2 i) :=
  trit_combineTrits h t1 t2

/-- One trit more stands above those that are combined already. -/
theorem combineTrits_succ (n : Nat) (t1 t2 : Word) : combineTrits (n + 1) t1 t2 =
    combineTrits n t1 t2 + combineTrit (trit t1 n) (trit t2 n) * 3 ^ n := by
  induction n generalizing t1 t2 with
  | zero => simp only [combineTrits, trit, Nat.pow_zero, Nat.mul_one, Nat.mul_zero, Nat.add_comm]
  | succ n ih =>
    have hrest := ih (t1 / 3) (t2 / 3)
    rw [combineTrits, hrest, combineTrits, trit, trit, Nat.pow_succ, Nat.mul_add]
    generalize combineTrit (trit (t1 / 3) n) (trit (t2 / 3) n) = top
    have hweight : 3 * (top * 3 ^ n) = top * (3 ^ n * 3) := by rw [Nat.mul_comm 3, Nat.mul_assoc]
    rw [hweight, Nat.add_assoc]

/-- What stands above the ten trits of a word takes no part in a combine. -/
theorem combine_mod (t1 t2 : Word) :
    combine (t1 % wordSize) (t2 % wordSize) = combine t1 t2 := by
  refine eq_of_trits (n := trits) (combine_lt _ _) (combine_lt _ _) fun i hi => ?_
  have h1 : trit (t1 % wordSize) i = trit t1 i := trit_mod_pow hi t1
  have h2 : trit (t2 % wordSize) i = trit t2 i := trit_mod_pow hi t2
  rw [trit_combine hi, trit_combine hi, h1, h2]

end Combine

section Rotation

variable {w : Word}

/-- A rotation of a word is a word. -/
theorem rotateRight_lt (h : w < wordSize) : TritWord.rotateRight w < wordSize := by
  unfold TritWord.rotateRight wordSize Word at *
  omega

/-- Each trit of a rotated word stood one place higher before, and the top one lowest. -/
theorem trit_rotateRight (h : w < wordSize) {i : Nat} (hi : i < trits) :
    trit (rotateRight w) i = trit w ((i + 1) % trits) := by
  have hrotate : rotateRight w = w / 3 + w % 3 * 3 ^ 9 := rfl
  have hrest : w / 3 < 3 ^ 9 := Nat.div_lt_of_lt_mul h
  rw [hrotate]
  rcases Nat.lt_or_eq_of_le (Nat.le_of_lt_succ hi) with hlow | rfl
  · have hnext : (i + 1) % trits = i + 1 := Nat.mod_eq_of_lt (Nat.succ_lt_succ hlow)
    rw [trit_add_mul_pow hlow, hnext]
    rfl
  · rw [trit_add_mul_pow_self hrest]
    exact Nat.mod_mod w 3

/-- However often a word is rotated, it stays a word. -/
theorem iterate_rotateRight_lt (h : w < wordSize) (k : Nat) : rotateRight^[k] w < wordSize := by
  induction k with
  | zero => exact h
  | succ k ih =>
    rw [Function.iterate_succ_apply']
    exact rotateRight_lt ih

/-- After some rotations each trit has gone down as many places, round and round. -/
theorem trit_iterate_rotateRight (h : w < wordSize) (k : Nat) {i : Nat} (hi : i < trits) :
    trit (rotateRight^[k] w) i = trit w ((i + k) % trits) := by
  induction k generalizing i with
  | zero => rw [Nat.add_zero, Nat.mod_eq_of_lt hi]; rfl
  | succ k ih =>
    have hnext : (i + 1) % trits < trits := Nat.mod_lt _ (by decide)
    rw [Function.iterate_succ_apply', trit_rotateRight (iterate_rotateRight_lt h k) hi, ih hnext,
      Nat.mod_add_mod, Nat.add_right_comm, Nat.add_assoc]

/-- Rotated words combine to what their combine is rotated to. -/
theorem iterate_rotateRight_combine {t1 t2 : Word} (h1 : t1 < wordSize) (h2 : t2 < wordSize)
    (k : Nat) :
    rotateRight^[k] (combine t1 t2) = combine (rotateRight^[k] t1) (rotateRight^[k] t2) := by
  refine eq_of_trits (n := trits) (iterate_rotateRight_lt (combine_lt t1 t2) k) (combine_lt _ _)
    fun i hi => ?_
  have hplace : (i + k) % trits < trits := Nat.mod_lt _ (by decide)
  calc trit (rotateRight^[k] (combine t1 t2)) i
      = trit (combine t1 t2) ((i + k) % trits) :=
        trit_iterate_rotateRight (combine_lt t1 t2) k hi
    _ = combineTrit (trit t1 ((i + k) % trits)) (trit t2 ((i + k) % trits)) :=
        trit_combine hplace t1 t2
    _ = combineTrit (trit (rotateRight^[k] t1) i) (trit (rotateRight^[k] t2) i) := by
        rw [trit_iterate_rotateRight h1 k hi, trit_iterate_rotateRight h2 k hi]
    _ = trit (combine (rotateRight^[k] t1) (rotateRight^[k] t2)) i := (trit_combine hi _ _).symm

end Rotation

end TernarySynth.Proofs.TritPlaces
