import TernarySynth.Proofs.TextLanguage
import TernarySynth.Proofs.TritPlaces

/-!
# The period of the filler

Behind a text every cell is the combine of the two before it. A combine acts on each
trit by itself, so each trit of the filler is a sequence of its own in which a trit is
looked up by the two before it. From any two trits this sequence runs at once into a
cycle of two or of three, so six cells on every cell is there again.
-/

namespace TernarySynth.Proofs.FillerPeriod

open TritWord MemoryImage SourceText
open TritPlaces TextLanguage

section Recurrence

/-- Two neighbouring trits, and the two that come one place later. -/
def nextTrits (pair : Nat × Nat) : Nat × Nat := (pair.2, combineTrit pair.2 pair.1)

/-- Six places later a trit is there again, whatever stood before it. -/
theorem nextTrits_six : ∀ before < 3, ∀ last < 3, (nextTrits^[6] (before, last)).2 = last := by
  decide

/-- A word with another one before it comes back after six cells of filler. -/
theorem eq_of_recurrence (cell : Nat → Word) (word : cell 1 < wordSize)
    (filler : ∀ k < 6, cell (k + 2) = combine (cell (k + 1)) (cell k)) : cell 7 = cell 1 := by
  have hword : cell 7 < wordSize := by
    rw [filler 5 (by omega)]
    exact combine_lt _ _
  refine eq_of_trits (n := trits) hword word fun i hi => ?_
  have hpair : ∀ k ≤ 6, (trit (cell k) i, trit (cell (k + 1)) i) =
      nextTrits^[k] (trit (cell 0) i, trit (cell 1) i) := by
    intro k hk
    induction k with
    | zero => rfl
    | succ k ih =>
      have hlast := ih (by omega)
      rw [Function.iterate_succ_apply', ← hlast, nextTrits, filler k (by omega), trit_combine hi]
  have hsix := nextTrits_six _ (trit_lt (cell 0) i) _ (trit_lt (cell 1) i)
  rw [← hpair 6 (by omega)] at hsix
  exact hsix

end Recurrence

variable {bytes : List UInt8} {image : Image}

/-- From the last cell of the text on, a cell is there again six cells later. -/
theorem read_add_six (h : Holds bytes image) (wide : 2 ≤ bytes.length) {i : Nat}
    (behind : bytes.length ≤ i + 1) (inside : i + 6 < wordSize) :
    image.read (i + 6) = image.read i := by
  have hread : ∀ k < wordSize, image.read k = some (image.cells.getD k 0) := by
    intro k hk
    have hsize : k < image.cells.size := by rw [image.size_eq]; exact hk
    unfold Image.read
    rw [Array.getD_eq_getD_getElem?, Array.getElem?_eq_getElem hsize, Option.getD_some]
  have hword : image.cells.getD i 0 < wordSize := h.lt (hread i (by omega))
  have hfiller : ∀ k < 6, image.cells.getD (i - 1 + (k + 2)) 0 =
      combine (image.cells.getD (i - 1 + (k + 1)) 0) (image.cells.getD (i - 1 + k) 0) := by
    intro k hk
    obtain ⟨last, before, hlast, hbefore, hcell⟩ :=
      h.filler (i - 1 + (k + 2)) (by omega) (by omega)
    rw [hread _ (by omega)] at hlast hbefore hcell
    rw [Option.some.inj hcell, ← Option.some.inj hlast, ← Option.some.inj hbefore]
    rfl
  have hsix := eq_of_recurrence (fun k => image.cells.getD (i - 1 + k) 0)
    (by rw [Nat.sub_add_cancel (by omega)]; exact hword) hfiller
  rw [hread _ inside, hread i (by omega)]
  have hstart : i - 1 + 1 = i := by omega
  have hend : i - 1 + 7 = i + 6 := by omega
  rw [hstart, hend] at hsix
  rw [hsix]

/-- So it is there again after any number of periods. -/
theorem read_add_periods (h : Holds bytes image) (wide : 2 ≤ bytes.length) (periods : Nat) {i : Nat}
    (behind : bytes.length ≤ i + 1) (inside : i + 6 * periods < wordSize) :
    image.read (i + 6 * periods) = image.read i := by
  induction periods with
  | zero => rfl
  | succ periods ih =>
    have hlast := read_add_six h wide (i := i + 6 * periods) (by omega) (by omega)
    have hfirst := ih (by omega)
    rw [Nat.mul_succ, ← Nat.add_assoc, hlast, hfirst]

/-- The filler of a text that loads has period six: each of its cells, and the last one of
the text, is there again six cells later. So the image is determined by the text and by
the six cells behind it. -/
theorem filler_has_period_six {source : SourceText.SourceText} {image : Image}
    (loads : source.load = .ok image) :
    (∀ i, source.cells.length ≤ i + 1 → i + 6 < wordSize →
      ∃ value, image.read i = some value ∧ image.read (i + 6) = some value) ∧
    (∀ i byte, source.cells[i]? = some byte → image.read i = some byte.toNat) ∧
    ∀ i, source.cells.length ≤ i → i < wordSize →
      image.read i = image.read (source.cells.length + (i - source.cells.length) % 6) := by
  obtain ⟨hloadable, hholds⟩ := holds_of_load loads
  refine ⟨fun i behind inside => ?_, hholds.text, fun i behind inside => ?_⟩
  · have hin : i < wordSize := by omega
    have hdecided : (image.read i).isSome := (Image.read_isSome_iff image i).mpr hin
    obtain ⟨value, hread⟩ := Option.isSome_iff_exists.mp hdecided
    exact ⟨value, hread, (read_add_six hholds hloadable.wide behind inside).trans hread⟩
  · let rest := (i - source.cells.length) % 6
    let periods := (i - source.cells.length) / 6
    have hi : source.cells.length + rest + 6 * periods = i := by omega
    have hperiods := read_add_periods hholds hloadable.wide periods
      (i := source.cells.length + rest) (by omega) (by omega)
    rw [hi] at hperiods
    exact hperiods

/-- Behind an output and an exit the same six cells follow up to the end of memory, and
the exit is one of them. -/
theorem filler_has_period_six_of_exit :
    ∃ image, SourceText.load ⟨[99, 80]⟩ = .ok image ∧ image.read 1 = some 80 ∧
      image.read 7 = some 80 ∧ image.read 59047 = some 80 := by
  have hloadable : Loadable (SourceText.cells ⟨[99, 80]⟩) := by
    refine ⟨by decide, by decide, fun i byte hb => ?_⟩
    rw [← isAdmissible_iff]
    match i with
    | 0 => cases hb; decide
    | 1 => cases hb; decide
    | i + 2 => cases hb
  obtain ⟨image, hload⟩ := exists_load hloadable
  obtain ⟨hperiod, htext, hall⟩ := filler_has_period_six hload
  have hlast : image.read 1 = some 80 := htext 1 80 rfl
  obtain ⟨value, hread, hlater⟩ := hperiod 1 (by decide) (by decide)
  rw [hlast] at hread
  cases hread
  exact ⟨image, hload, hlast, hlater, (hall 59047 (by decide) (by decide)).trans hlater⟩

end TernarySynth.Proofs.FillerPeriod
