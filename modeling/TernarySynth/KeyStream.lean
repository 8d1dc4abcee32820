/-!
# Key streams

A stream of 32-bit numbers determined by a 256-bit key. Block number `n` of
the stream comes from a square of sixteen words: four constants, the key, `n`
in two words and two zeros. Twelve rounds of additions, exclusive ors and
rotations mix the square, and the square before them is added at the end. A
key can be expanded from a 64-bit seed, one word for each step of a linear
recurrence.
-/

namespace TernarySynth.KeyStream

/-- Sixteen words, four to a row. -/
abbrev Square := Vector UInt32 16

/-- Turn a word to the left. -/
def rotateLeft (x amount : UInt32) : UInt32 := x <<< amount ||| x >>> (32 - amount)

/-- Turn a word to the right. -/
def rotateRight (x amount : UInt32) : UInt32 := x >>> amount ||| x <<< (32 - amount)

/-- Mix the words at four positions. -/
def quarterRound (a b c d : Fin 16) (s : Square) : Square :=
  let s := s.set a (s[a] + s[b])
  let s := s.set d (rotateLeft (s[d] ^^^ s[a]) 16)
  let s := s.set c (s[c] + s[d])
  let s := s.set b (rotateLeft (s[b] ^^^ s[c]) 12)
  let s := s.set a (s[a] + s[b])
  let s := s.set d (rotateLeft (s[d] ^^^ s[a]) 8)
  let s := s.set c (s[c] + s[d])
  s.set b (rotateLeft (s[b] ^^^ s[c]) 7)

/-- One round along the columns and one along the diagonals. -/
def doubleRound (s : Square) : Square :=
  let s := quarterRound 0 4 8 12 s
  let s := quarterRound 1 5 9 13 s
  let s := quarterRound 2 6 10 14 s
  let s := quarterRound 3 7 11 15 s
  let s := quarterRound 0 5 10 15 s
  let s := quarterRound 1 6 11 12 s
  let s := quarterRound 2 7 8 13 s
  quarterRound 3 4 9 14 s

/-- Number of double rounds. -/
def doubleRounds : Nat := 6

/-- Repeat the double round. -/
def mix : Nat → Square → Square
  | 0, s => s
  | n + 1, s => mix n (doubleRound s)

/-- Eight words that determine a stream. -/
abbrev Key := Vector UInt32 8

/-- The square of a block before it is mixed. -/
def plainSquare (key : Key) (number : UInt64) : Square :=
  #v[0x61707865, 0x3320646e, 0x79622d32, 0x6b206574,
    key[0], key[1], key[2], key[3],
    key[4], key[5], key[6], key[7],
    number.toUInt32, (number >>> 32).toUInt32, 0, 0]

/-- The sixteen numbers of a block. -/
def block (key : Key) (number : UInt64) : List UInt32 :=
  let plain := plainSquare key number
  (plain.zipWith (· + ·) (mix doubleRounds plain)).toList

/-- One step of the recurrence that expands a seed. -/
def nextSeed (seed : UInt64) : UInt64 := seed * 6364136223846793005 + 11634580027462260723

/-- The word that a state of the recurrence stands for: its upper bits, folded
and turned by an amount that the topmost bits give. -/
def seedWord (seed : UInt64) : UInt32 :=
  rotateRight (((seed >>> 18) ^^^ seed) >>> 27).toUInt32 (seed >>> 59).toUInt32

/-- The words of the states after a seed. -/
def seedWords : Nat → UInt64 → List UInt32
  | 0, _ => []
  | n + 1, seed => seedWord (nextSeed seed) :: seedWords n (nextSeed seed)

/-- There are as many words as were asked for. -/
theorem seedWords_length (n : Nat) (seed : UInt64) : (seedWords n seed).length = n := by
  induction n generalizing seed with
  | zero => rfl
  | succ n ih => simp [seedWords, ih]

/-- The key that a seed expands to. -/
def keyOfSeed (seed : UInt64) : Key := ⟨(seedWords 8 seed).toArray, by simp [seedWords_length]⟩

end TernarySynth.KeyStream
