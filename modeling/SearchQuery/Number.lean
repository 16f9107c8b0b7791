import SearchQuery.Number.Binary64

/-!
# Numbers of a document

A document tells whole numbers and floats apart. Whole numbers are those of 64 bits, signed or
unsigned, and a float is finite.
-/

namespace SearchQuery

inductive Number where
  | int (n : Int) (inRange : -0x8000000000000000 ≤ n ∧ n < 0x10000000000000000)
  | float (x : Binary64) (finite : x.isFinite = true)
deriving DecidableEq

namespace Number

def ofInt? (n : Int) : Option Number :=
  if h : -0x8000000000000000 ≤ n ∧ n < 0x10000000000000000 then some (.int n h) else none

def ofBinary64? (x : Binary64) : Option Number :=
  if h : x.isFinite = true then some (.float x h) else none

def ofInt64 (n : Int64) : Number :=
  .int n.toInt (by
    have := n.le_toInt
    have := n.toInt_lt
    omega)

def ofUInt64 (n : UInt64) : Number :=
  .int n.toNat (by
    have := n.toNat_lt
    omega)

end Number

end SearchQuery
