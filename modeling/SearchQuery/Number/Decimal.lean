import SearchQuery.Number.Binary64

/-!
# Fixed-point decimals

A mantissa of at most 96 bits and a number of decimal places, at most 28.
-/

namespace SearchQuery

/-- The number `mantissa / 10 ^ scale`. -/
structure Decimal where
  mantissa : Int
  scale : Nat
  mantissa_lt : mantissa.natAbs < Nat.pow 2 96
  scale_le : scale ≤ 28
deriving DecidableEq

namespace Decimal

/-- The value, when there is no fractional part. -/
def whole? (d : Decimal) : Option Int :=
  if d.mantissa % Int.pow 10 d.scale = 0 then some (d.mantissa / Int.pow 10 d.scale) else none

/-- The float nearest to the value, as if it were rounded once. -/
def nearest (d : Decimal) : Binary64 :=
  Binary64.ofRatio (decide (d.mantissa < 0)) d.mantissa.natAbs (Nat.pow 10 d.scale)

theorem whole?_eq_some_iff (d : Decimal) (n : Int) :
    d.whole? = some n ↔ d.mantissa = n * Int.pow 10 d.scale := by
  have hpos : 0 < Int.pow 10 d.scale := Int.pow_pos (by decide)
  unfold whole?
  constructor
  · intro h
    split at h
    · rename_i hmod
      have hdiv := Int.mul_ediv_add_emod d.mantissa (Int.pow 10 d.scale)
      simp only [Option.some.injEq] at h
      rw [hmod, h, Int.add_zero, Int.mul_comm] at hdiv
      exact hdiv.symm
    · simp at h
  · intro h
    rw [h, if_pos (Int.mul_emod_left _ _), Int.mul_ediv_cancel _ (Int.ne_of_gt hpos)]

end Decimal

end SearchQuery
