/-!
# Numbers of fixed size

A computation on numbers of a fixed size goes wrong where one of its results is not
among them. Here every single result is looked at: a computation that has a value has
not left the range anywhere on the way.
-/

namespace TernarySynth.Proofs.FixedRange

/-- The numbers of a fixed size, all those from the least to the greatest. -/
structure FixedRange where
  /-- The least of them. -/
  least : Int
  /-- The greatest of them. -/
  greatest : Int

/-- Numbers of 16 bits without a sign. -/
def unsigned16 : FixedRange := ⟨0, 65535⟩

/-- Numbers of 32 bits without a sign. -/
def unsigned32 : FixedRange := ⟨0, 4294967295⟩

/-- Numbers of 64 bits with a sign. -/
def signed64 : FixedRange := ⟨-9223372036854775808, 9223372036854775807⟩

/-- The result of an operation; none if it is not in the range. -/
def FixedRange.fit (range : FixedRange) (n : Int) : Option Int :=
  if range.least ≤ n ∧ n ≤ range.greatest then some n else none

variable {α β : Type} {range : FixedRange} {n : Int}

/-- A number of the range is a result. -/
theorem fit_of_mem (low : range.least ≤ n) (high : n ≤ range.greatest) : range.fit n = some n :=
  if_pos ⟨low, high⟩

/-- A number above the range is none. -/
theorem fit_of_lt (h : range.greatest < n) : range.fit n = none :=
  if_neg fun hmem => absurd hmem.2 (Int.not_le.mpr h)

/-- A computation goes on with a value that there is. -/
theorem bind_of_eq_some {value : α} {result : Option α} (h : result = some value)
    (next : α → Option β) : (result >>= next) = next value := by
  rw [h]
  rfl

/-- These are the numbers of 16 bits. -/
theorem fit_unsigned16 (low : 0 ≤ n) (high : n ≤ 65535) : unsigned16.fit n = some n :=
  fit_of_mem low high

/-- These are the numbers of 32 bits. -/
theorem fit_unsigned32 (low : 0 ≤ n) (high : n ≤ 4294967295) : unsigned32.fit n = some n :=
  fit_of_mem low high

/-- These are the numbers of 64 bits with a sign. -/
theorem fit_signed64 (low : -9223372036854775808 ≤ n) (high : n ≤ 9223372036854775807) :
    signed64.fit n = some n :=
  fit_of_mem low high

/-- A computation goes on with a number of 16 bits. -/
theorem bind_unsigned16 (low : 0 ≤ n) (high : n ≤ 65535) (next : Int → Option β) :
    (unsigned16.fit n >>= next) = next n :=
  bind_of_eq_some (fit_unsigned16 low high) next

/-- A computation goes on with a number of 32 bits. -/
theorem bind_unsigned32 (low : 0 ≤ n) (high : n ≤ 4294967295) (next : Int → Option β) :
    (unsigned32.fit n >>= next) = next n :=
  bind_of_eq_some (fit_unsigned32 low high) next

/-- A computation goes on with a number of 64 bits and a sign. -/
theorem bind_signed64 (low : -9223372036854775808 ≤ n) (high : n ≤ 9223372036854775807)
    (next : Int → Option β) : (signed64.fit n >>= next) = next n :=
  bind_of_eq_some (fit_signed64 low high) next

end TernarySynth.Proofs.FixedRange
