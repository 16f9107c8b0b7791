import SearchQuery.Document
import SearchQuery.Number.Decimal

/-!
# Values of a query under construction

A value has the shapes of a document and two freedoms more: a float may be a NaN or an infinity, and
a part may be deferred, to be replaced by what it resolves to when the document is finished.
-/

namespace SearchQuery

inductive Value where
  | null
  | bool (b : Bool)
  | float (x : Binary64)
  | integer (n : Int64)
  | unsigned (n : UInt64)
  | string (text : String)
  | array (items : List Value)
  | object (entries : List (String × Value))
  | deferred (resolved : Value)
deriving Inhabited

/-- 64 bits with a sign can hold it. -/
def FitsInt64 (n : Int) : Prop := -0x8000000000000000 ≤ n ∧ n < 0x8000000000000000

instance (n : Int) : Decidable (FitsInt64 n) := inferInstanceAs (Decidable (_ ∧ _))

namespace Value

/-! ## Making values -/

/-- An object with one entry. -/
def pair (key : String) (value : Value) : Value := .object [(key, value)]

/-- A whole number is signed if it can be. -/
def ofUInt64 (n : UInt64) : Value :=
  if n.toNat < 0x8000000000000000 then .integer (Int64.ofNat n.toNat) else .unsigned n

def ofInt32 (n : Int32) : Value := .integer n.toInt64

def ofUInt32 (n : UInt32) : Value := .integer (Int64.ofNat n.toNat)

def ofBinary32Bits (bits : UInt32) : Value := .float (.ofBinary32Bits bits)

/-- What a conversion to floats leaves. Where it gives no float, nothing stands there. -/
def ofFloat? (float? : Option Binary64) : Value := float?.elim .null .float

/-- A decimal without a fractional part stays a whole number if 64 bits with a sign can hold it. Any
other is left to the conversion to floats, which is not this library's and is taken as it comes. -/
def ofDecimalBy (toFloat? : Decimal → Option Binary64) (d : Decimal) : Value :=
  match d.whole? with
  | some n => if FitsInt64 n then .integer (Int64.ofInt n) else ofFloat? (toFloat? d)
  | none => ofFloat? (toFloat? d)

/-- Takes the nearest float for what the conversion gives. That is an idealisation: a conversion
that divides floats can miss the nearest by a unit, for small and for long fractions. What is proved
of decimals holds for every conversion. -/
def ofDecimal (d : Decimal) : Value := ofDecimalBy (fun d => some d.nearest) d

/-- Nothing is null. -/
def ofOption : Option Value → Value
  | some value => value
  | none => .null

/-! ## Looking at values -/

/-- What switches an option on: anything but null and false. -/
def isSet : Value → Bool
  | .null => false
  | .bool b => b
  | _ => true

def text? : Value → Option String
  | .string text => some text
  | _ => none

/-- The entries of an object. Anything else has none. -/
def entries : Value → Entries Value
  | .object entries => entries
  | _ => []

/-- The items of an array. Anything else has none. -/
def items : Value → List Value
  | .array items => items
  | _ => []

end Value

end SearchQuery
