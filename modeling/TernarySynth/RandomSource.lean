import TernarySynth.KeyStream

/-!
# Random sources and fair choices

A random source answers every request for a choice below a bound. Shuffling a
list takes one choice for every position but the first, from the last position
down, and swaps the chosen element there. The choices are drawn first and
applied afterwards, so the arrangement is a function of the choices alone.

A `Generator` gives one 32-bit number after another. It makes a fair choice
from the upper half of a 64-bit product, and repeats a draw whose lower half
falls into the part that would favour some outcomes. Nothing in the numbers
forbids that every draw is refused. The draws then go on for ever, and nothing is
known of `accepted` but the equation of its loop: what is proved of searches takes
answered requests for granted, as it takes the source.
-/

namespace TernarySynth.RandomSource

open KeyStream

/-- Something that choices can be drawn from. Every request is answered: that a
draw is accepted in the end is what a source is relied on for. -/
class RandomSource (G : Type) where
  /-- A choice below a bound, and the source of the choices after it. -/
  below : Nat → G → Nat × G
  /-- A choice below a positive bound is below it. -/
  below_lt : ∀ (bound : Nat) (source : G), 0 < bound → (below bound source).1 < bound

/-- Where a generator takes its numbers from. -/
inductive Supply where
  /-- These numbers, and zeros after them. -/
  | given (numbers : List UInt32)
  /-- What is left of a block, and the blocks of a key from a number on. -/
  | keyed (waiting : List UInt32) (key : Key) (number : UInt64)
  deriving Inhabited

/-- The next number of a supply. -/
def Supply.next : Supply → UInt32 × Supply
  | .given [] => (0, .given [])
  | .given (number :: rest) => (number, .given rest)
  | .keyed (number :: rest) key count => (number, .keyed rest key count)
  | .keyed [] key count =>
    match block key count with
    | [] => (0, .keyed [] key (count + 1))
    | number :: rest => (number, .keyed rest key (count + 1))

/-- Number of values of a 32-bit number. -/
def wordRange : Nat := 4294967296

/-- The largest lower half of a product that is accepted for a bound: the bound
moved up against the topmost bit, less one. -/
def acceptedZone (bound : Nat) : Nat := bound <<< (31 - bound.log2) - 1

/-- A supply, and how much of it has been used. -/
structure Generator where
  /-- Numbers still to come. -/
  supply : Supply
  /-- How many numbers have been drawn. -/
  drawn : Nat
  deriving Inhabited

/-- A choice below a bound. It is any number if nothing is below the bound. -/
abbrev Choice (bound : Nat) := { choice : Nat // 0 < bound → choice < bound }

instance (bound : Nat) : Inhabited (Choice bound) := ⟨⟨0, id⟩⟩

namespace Generator

/-- A generator that gives the numbers of a list, and zeros after them. -/
def ofNumbers (numbers : List UInt32) : Generator := ⟨.given numbers, 0⟩

/-- The generator of a seed. -/
def ofSeed (seed : UInt64) : Generator := ⟨.keyed [] (keyOfSeed seed) 0, 0⟩

/-- Draw one number. -/
def next (generator : Generator) : UInt32 × Generator :=
  match generator with
  | ⟨supply, drawn⟩ =>
    match supply.next with
    | (number, supply) => (number, ⟨supply, drawn + 1⟩)

/-- What the next number comes to: the choice that it makes, or another draw. -/
def draw (bound : Nat) (generator : Generator) : Generator ⊕ Choice bound × Generator :=
  match generator.next with
  | (number, after) =>
    let product := number.toNat * bound
    if product % wordRange ≤ acceptedZone bound then
      .inr (⟨product / wordRange, fun positive =>
        Nat.div_lt_of_lt_mul (Nat.mul_lt_mul_of_pos_right number.toNat_lt positive)⟩, after)
    else .inl after

/-- Draw until a number is accepted. There is no limit to the draws behind the first. -/
def accepted (bound : Nat) (generator : Generator) : Choice bound × Generator :=
  match draw bound generator with
  | .inr answer => answer
  | .inl after => Id.run (repeatM (fun generator => pure (draw bound generator)) after)

/-- The next number makes the choice, or the draws go on behind it in the same way. -/
theorem accepted_eq (bound : Nat) (generator : Generator) :
    accepted bound generator =
      match draw bound generator with
      | .inr answer => answer
      | .inl after => accepted bound after := by
  have hloop (after : Generator) :
      Id.run (repeatM (fun generator => pure (draw bound generator)) after) =
        accepted bound after := by
    refine (repeatM_eq_of_monadTail after).trans ?_
    unfold repeatM.body accepted
    rw [pure_bind]
    cases draw bound after <;> rfl
  rw [accepted]
  cases draw bound generator with
  | inr answer => rfl
  | inl after => exact hloop after

instance : RandomSource Generator where
  below bound generator :=
    match accepted bound generator with
    | (choice, after) => (choice.val, after)
  below_lt bound generator positive := (accepted bound generator).1.property positive

/-- A request is answered by the next number if that is accepted, and like a request
behind it if not. -/
theorem below_of_next {bound : Nat} {generator after : Generator} {number : UInt32}
    (h : generator.next = (number, after)) :
    RandomSource.below bound generator =
      if number.toNat * bound % wordRange ≤ acceptedZone bound then
        (number.toNat * bound / wordRange, after)
      else RandomSource.below bound after := by
  change ((accepted bound generator).1.val, (accepted bound generator).2) = _
  rw [accepted_eq, draw, h]
  dsimp only
  by_cases fair : number.toNat * bound % wordRange ≤ acceptedZone bound
  · rw [if_pos fair, if_pos fair]
  · rw [if_neg fair, if_neg fair]
    rfl

end Generator

variable {G : Type} [RandomSource G]

/-- The choices for the positions from `position` down to 1, behind those that
were drawn before. The choice for a position is at most the position. -/
@[specialize] def drawChoices : Nat → Array Nat → G → Array Nat × G
  | 0, drawn, source => (drawn, source)
  | position + 1, drawn, source =>
    match RandomSource.below (position + 2) source with
    | (choice, source) => drawChoices position (drawn.push choice) source

/-- Swap the chosen elements into their positions, the first choice belonging
to `position` and every further one to the position before. -/
def arrange {α : Type} (items : Array α) : Nat → List Nat → Array α
  | _, [] => items
  | position, choice :: choices =>
    arrange (items.swapIfInBounds position choice) (position - 1) choices

/-- The arrangement of a list by the choices for its positions. -/
def arrangement {α : Type} (choices : List Nat) (items : List α) : List α :=
  (arrange items.toArray (items.length - 1) choices).toList

/-- Bring a list into a random order. -/
@[specialize] def shuffle {α : Type} (items : List α) (source : G) : List α × G :=
  match drawChoices (items.length - 1) #[] source with
  | (choices, source) => (arrangement choices.toList items, source)

/-- Swapping changes the order only. -/
theorem arrange_perm {α : Type} (choices : List Nat) (items : Array α) (position : Nat) :
    (arrange items position choices).toList.Perm items.toList := by
  induction choices generalizing items position with
  | nil => exact .refl _
  | cons choice choices ih =>
    refine (ih _ _).trans ?_
    unfold Array.swapIfInBounds
    split
    · split
      · exact (Array.swap_perm _ _).toList
      · exact .refl _
    · exact .refl _

/-- An arrangement has the same elements. -/
theorem arrangement_perm {α : Type} (choices : List Nat) (items : List α) :
    (arrangement choices items).Perm items :=
  arrange_perm choices items.toArray _

/-- A shuffled list has the same elements, whatever the source gives. -/
theorem shuffle_perm {α : Type} (items : List α) (source : G) :
    (shuffle items source).1.Perm items :=
  arrangement_perm _ _

end TernarySynth.RandomSource
