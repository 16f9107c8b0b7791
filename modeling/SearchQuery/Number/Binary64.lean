/-!
# Binary floating point

A binary64 number as a sign and a magnitude. The magnitude is the word without its sign bit, so the
order of magnitudes is the order of the values, and neighbours are one apart. Nothing here uses the
machine's own floats: every value is an exact natural number of units of 2⁻¹⁰⁷⁴.
-/

namespace SearchQuery

structure Binary64 where
  negative : Bool
  magnitude : Nat
  magnitude_lt : magnitude < 0x8000000000000000
deriving DecidableEq

namespace Binary64

/-- The magnitude of infinity. Magnitudes above it belong to the NaNs. -/
def infinity : Nat := 0x7FF0000000000000

def isFinite (x : Binary64) : Bool := decide (x.magnitude < infinity)

def ofBits (bits : UInt64) : Binary64 where
  negative := decide (0x8000000000000000 ≤ bits.toNat)
  magnitude := bits.toNat % 0x8000000000000000
  magnitude_lt := Nat.mod_lt _ (by decide)

/-! ## Values -/

/-- How many of the smallest positive values of its format a finite magnitude is worth, when the
format has `fraction` fraction bits. Above the lowest exponent each word is scaled by a power of
two. -/
def unitsOf (fraction magnitude : Nat) : Nat :=
  let scale := magnitude / Nat.pow 2 fraction - 1
  (magnitude - scale * Nat.pow 2 fraction) * Nat.pow 2 scale

/-- The value of a finite number is `units / 2 ^ 1074`, but for its sign. -/
def units (x : Binary64) : Nat := unitsOf 52 x.magnitude

/-! ## Rounding -/

/-- The whole number nearest to `num / den`. A half goes to the even neighbour. -/
def roundQuotient (num den : Nat) : Nat :=
  let quotient := num / den
  let rest := num % den
  if 2 * rest < den then quotient
  else if den < 2 * rest then quotient + 1
  else quotient + quotient % 2

/-- The magnitude of the number nearest to `num / den`. A half goes to the even neighbour, and what
is too large becomes infinity.

The value is counted in units of 2⁻¹⁰⁷⁴ and scaled so that 53 bits are left of the point. A carry
out of these bits lands in the exponent, where it belongs. -/
def nearestMagnitude (num den : Nat) : Nat :=
  let scaled := num * Nat.pow 2 1074
  let scale := Nat.log2 (scaled / den) - 52
  min infinity (scale * Nat.pow 2 52 + roundQuotient scaled (den * Nat.pow 2 scale))

theorem nearestMagnitude_le (num den : Nat) : nearestMagnitude num den ≤ infinity :=
  Nat.min_le_left _ _

/-- The number nearest to `num / den`, with the given sign. -/
def ofRatio (negative : Bool) (num den : Nat) : Binary64 where
  negative := negative
  magnitude := nearestMagnitude num den
  magnitude_lt := Nat.lt_of_le_of_lt (nearestMagnitude_le num den) (by decide)

/-! ## From the narrower format -/

/-- The number with the bits of a binary32 number. Every binary32 value is a binary64 value, so a
finite one is kept exactly. -/
def ofBinary32Bits (bits : UInt32) : Binary64 :=
  let negative := decide (0x80000000 ≤ bits.toNat)
  let magnitude := bits.toNat % 0x80000000
  let top := 0x7F800000
  if magnitude < top then ofRatio negative (unitsOf 23 magnitude) (Nat.pow 2 149)
  else
    { negative := negative
      magnitude := infinity + (magnitude - top) % 0x800000 * 0x20000000
      magnitude_lt := by
        have h := Nat.mod_lt (magnitude - top) (y := 0x800000) (by decide)
        simp only [infinity]
        omega }

example : (ofRatio false 1 10).magnitude = 0x3FB999999999999A := by decide +kernel

/-- The halfway point between zero and the smallest number goes to zero. -/
example : (ofRatio false 1 (Nat.pow 2 1075)).magnitude = 0 := by decide +kernel

example : (ofBinary32Bits 0x3DCCCCCD).magnitude = 0x3FB99999A0000000 := by decide +kernel

end Binary64

end SearchQuery
