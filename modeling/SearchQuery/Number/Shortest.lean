import SearchQuery.Number.Binary64

/-!
# The fewest digits that read back

A float is written with as few decimal digits as still read back to it, and of those with the
digits nearest to its value. The search looks at coarser and finer decimal grids in turn and tests
the two grid points around the value, nearer one first.
-/

namespace SearchQuery

/-- The number `digits * 10 ^ exponent`. -/
structure Scientific where
  digits : Nat
  exponent : Int
deriving DecidableEq

namespace Scientific

/-- What the digits read back to: the magnitude of the nearest float. -/
def magnitude (s : Scientific) : Nat :=
  match s.exponent with
  | .ofNat e => Binary64.nearestMagnitude (s.digits * Nat.pow 10 e) 1
  | .negSucc e => Binary64.nearestMagnitude s.digits (Nat.pow 10 (e + 1))

/-- The two points around `s` on the grid that has `dropped` digits less, nearer one first. Of two
equally near points the even one comes first. -/
def neighbours (s : Scientific) (dropped : Nat) : List Scientific :=
  let step := Nat.pow 10 dropped
  let lower := s.digits / step
  let rest := s.digits % step
  let onGrid (digits : Nat) : Scientific := ⟨digits, s.exponent + dropped⟩
  if 2 * rest < step ∨ (2 * rest = step ∧ lower % 2 = 0) then [onGrid lower, onGrid (lower + 1)]
  else [onGrid (lower + 1), onGrid lower]

end Scientific

namespace Binary64

/-- All digits of the value, since 2⁻¹⁰⁷⁴ is 5¹⁰⁷⁴ · 10⁻¹⁰⁷⁴. -/
def exactDigits (x : Binary64) : Scientific := ⟨x.units * Nat.pow 5 1074, -1074⟩

/-- The grid points that are tried, those of the coarsest grid first. Seventeen digits are enough
for every float. -/
def candidates (x : Binary64) : List Scientific :=
  let exact := x.exactDigits
  let count := (Nat.toDigits 10 exact.digits).length
  (List.range 17).flatMap (fun n => exact.neighbours (count - (n + 1)))

/-- The fewest digits that read back to `x`, nearest to its value. -/
def shortest (x : Binary64) : Scientific :=
  (x.candidates.find? (fun s => s.magnitude = x.magnitude)).getD x.exactDigits

end Binary64

end SearchQuery
