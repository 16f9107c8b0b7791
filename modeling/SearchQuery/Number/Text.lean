import SearchQuery.Number
import SearchQuery.Number.Shortest

/-!
# The text of numbers

Whole numbers are written exactly. A float is written with the fewest digits that read back, and
always shows a point or an exponent, so that it does not read as a whole number.
-/

namespace SearchQuery

/-- The decimal exponents of the first digit for which a float is written without an exponent. -/
structure FloatLayout where
  lowestPlain : Int
  highestPlain : Int

namespace FloatLayout

/-- Floats of a document: from `0.00001` up to `1000000000000000.0` without an exponent. -/
def document : FloatLayout := ⟨-5, 15⟩

/-- The digits with a point in them. `first` is the decimal exponent of the first digit. Zeros fill
up to one digit on each side of the point. -/
def plain (first : Int) (digits : List Char) : List Char :=
  let whole := first.toNat + 1
  let digits := List.replicate (-first).toNat '0' ++ digits
  let digits := digits ++ List.replicate (whole + 1 - digits.length) '0'
  digits.take whole ++ '.' :: digits.drop whole

/-- One digit, the others after a point if there are any, and the exponent with its sign. -/
def withExponent (first : Int) (digits : List Char) : List Char :=
  let fraction := if digits.length ≤ 1 then [] else '.' :: digits.drop 1
  digits.take 1 ++ fraction ++
    'e' :: (if first < 0 then '-' else '+') :: Nat.toDigits 10 first.natAbs

def write (layout : FloatLayout) (first : Int) (digits : List Char) : List Char :=
  if layout.lowestPlain ≤ first ∧ first ≤ layout.highestPlain then plain first digits
  else withExponent first digits

end FloatLayout

/-- The digits without the zeros at their end, of which none says anything. -/
def trimZeros (digits : List Char) : List Char :=
  (digits.reverse.dropWhile (· = '0')).reverse

namespace Binary64

/-- The text of a finite magnitude. -/
def magnitudeText (layout : FloatLayout) (x : Binary64) : List Char :=
  if x.magnitude = 0 then ['0', '.', '0']
  else
    let shortest := x.shortest
    let digits := Nat.toDigits 10 shortest.digits
    layout.write (digits.length - 1 + shortest.exponent) (trimZeros digits)

def text (layout : FloatLayout) (x : Binary64) : List Char :=
  if x.negative then '-' :: x.magnitudeText layout else x.magnitudeText layout

end Binary64

def intText : Int → List Char
  | .ofNat n => Nat.toDigits 10 n
  | .negSucc n => '-' :: Nat.toDigits 10 (n + 1)

def Number.text : Number → List Char
  | .int n _ => intText n
  | .float x _ => x.text .document

/-! ## Where the layouts meet -/

example : (Binary64.ofRatio false 1 10).text .document = ['0', '.', '1'] := by decide +kernel

example : (Binary64.ofRatio true 3 2).text .document = ['-', '1', '.', '5'] := by decide +kernel

example : (Binary64.ofRatio false (Nat.pow 10 16) 1).text .document = ['1', 'e', '+', '1', '6'] := by
  decide +kernel

example : (Binary64.ofBits 1).text .document = ['5', 'e', '-', '3', '2', '4'] := by decide +kernel

end SearchQuery
