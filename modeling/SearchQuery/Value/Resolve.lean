import SearchQuery.Value

/-!
# Between values and documents

A value becomes a document when its deferred parts are resolved and floats that no document can hold
have become null. A document is a value as it stands, and it comes back unchanged.
-/

namespace SearchQuery

/-! ## From values to documents -/

def Number.toDocument? (n : Option Number) : Document :=
  match n with
  | some n => .number n
  | none => .null

namespace Value

mutual

def resolve : Value → Document
  | .null => .null
  | .bool b => .bool b
  | .float x => Number.toDocument? (Number.ofBinary64? x)
  | .integer n => .number (.ofInt64 n)
  | .unsigned n => .number (.ofUInt64 n)
  | .string text => .string text
  | .array items => .array (resolveItems items)
  | .object entries => .object (resolveEntries entries)
  | .deferred value => value.resolve

def resolveItems : List Value → List Document
  | [] => []
  | value :: rest => value.resolve :: resolveItems rest

def resolveEntries : List (String × Value) → List (String × Document)
  | [] => []
  | (key, value) :: rest => (key, value.resolve) :: resolveEntries rest

end

end Value

/-! ## From documents to values -/

/-- A whole number is signed if it can be. -/
def Number.toValue : Number → Value
  | .int n _ =>
    if n < 0x8000000000000000 then .integer (Int64.ofInt n) else .unsigned (UInt64.ofNat n.toNat)
  | .float x _ => .float x

namespace Document

mutual

def toValue : Document → Value
  | .null => .null
  | .bool b => .bool b
  | .number n => n.toValue
  | .string text => .string text
  | .array items => .array (toValueItems items)
  | .object entries => .object (toValueEntries entries)

def toValueItems : List Document → List Value
  | [] => []
  | d :: rest => d.toValue :: toValueItems rest

def toValueEntries : List (String × Document) → List (String × Value)
  | [] => []
  | (key, d) :: rest => (key, d.toValue) :: toValueEntries rest

end

end Document

/-! ## A document comes back unchanged -/

theorem Number.resolve_toValue (n : Number) : n.toValue.resolve = .number n := by
  cases n with
  | int n h =>
    simp only [Number.toValue]
    split
    · simp only [Value.resolve, Number.ofInt64]
      congr 2
      rw [Int64.toInt_ofInt]
      exact Int.bmod_eq_of_le (by simp [Int64.size]; omega) (by simp [Int64.size]; omega)
    · simp only [Value.resolve, Number.ofUInt64]
      congr 2
      rw [UInt64.toNat_ofNat']
      omega
  | float x h => simp [Number.toValue, Value.resolve, Number.ofBinary64?, h, Number.toDocument?]

mutual

theorem Document.resolve_toValue : (d : Document) → d.toValue.resolve = d
  | .null => rfl
  | .bool _ => rfl
  | .number n => by rw [toValue]; exact n.resolve_toValue
  | .string _ => rfl
  | .array items => by rw [toValue, Value.resolve, resolve_toValueItems items]
  | .object entries => by rw [toValue, Value.resolve, resolve_toValueEntries entries]

theorem Document.resolve_toValueItems :
    (items : List Document) → Value.resolveItems (toValueItems items) = items
  | [] => rfl
  | d :: rest => by
    rw [toValueItems, Value.resolveItems, resolve_toValue d, resolve_toValueItems rest]

theorem Document.resolve_toValueEntries :
    (entries : List (String × Document)) →
      Value.resolveEntries (toValueEntries entries) = entries
  | [] => rfl
  | (key, d) :: rest => by
    rw [toValueEntries, Value.resolveEntries, resolve_toValue d, resolve_toValueEntries rest]

end

end SearchQuery
