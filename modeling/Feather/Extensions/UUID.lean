import Mathlib.Tactic

/-!
# UUIDs as numbers

`-unsignedLongValue` of `NSUUID+MPExtensions.m`, with an `int` of four bytes and an `unsigned long`
of eight.  A byte is promoted to `int` before the shift; `undefined` is what the platform makes of a
shift by the width or more.
-/

namespace Feather.Extensions

/-- The bytes of a `uuid_t`. -/
abbrev UUID := ℕ → BitVec 8

variable (undefined : BitVec 32 → ℕ → BitVec 32) (bytes : UUID)

/-- `<<` on an `int` -/
def shiftLeft (x : BitVec 32) (n : ℕ) : BitVec 32 := if n < 32 then x <<< n else undefined x n

/-- `for (size_t i = unsignedLongSize - 1; i > 0; i--)` -/
def byteIndexes : List ℕ := [7, 6, 5, 4, 3, 2, 1]

/-- The `int` is converted to an `unsigned long` with its sign. -/
def unsignedLongValue : BitVec 64 :=
  byteIndexes.foldl (fun v i =>
    v ||| (shiftLeft undefined ((bytes i).zeroExtend 32) (i <<< 3)).signExtend 64) 0

/-- No shift is too wide, and the value is that of the first eight bytes. -/
def ReadsBytes : Prop :=
  (∀ i ∈ byteIndexes, i <<< 3 < 32) ∧
    (unsignedLongValue undefined bytes).toNat = ∑ i ∈ Finset.range 8, (bytes i).toNat * 256 ^ i

/-- The first shift is too wide for every UUID, and the value does not depend on the first byte. -/
theorem unsignedLongValue_wrong (b : BitVec 8) :
    ¬ReadsBytes undefined bytes ∧
      unsignedLongValue undefined (Function.update bytes 0 b) = unsignedLongValue undefined bytes := by
  refine ⟨fun h => absurd (h.1 7 (by decide)) (by decide), ?_⟩
  unfold unsignedLongValue byteIndexes
  simp [Function.update]

/-- Where a shift is by the lowest five bits: byte 4 is read as byte 0, byte 0 is lost, and the sign
of byte 3 is smeared. -/
theorem unsignedLongValue_masked :
    let masked := fun (x : BitVec 32) (n : ℕ) => x <<< (n % 32)
    unsignedLongValue masked (fun i => if i = 4 then 1 else 0) = 1 ∧
      unsignedLongValue masked (fun i => if i = 0 then 1 else 0) = 0 ∧
      unsignedLongValue masked (fun i => if i = 3 then 0x80 else 0) = 0xFFFFFFFF80000000 := by
  decide

end Feather.Extensions
