import SearchQuery.Value.Resolve

/-!
# Whole decimals

A decimal without a fractional part stays an integer if 64 bits with a sign can hold it, and it is
then the value that the integer itself gives. All others are left to the conversion to floats,
whatever that may give, so no integer comes of them. This leaves out the upper half of the integers
of 64 bits without a sign, which documents can hold.
-/

namespace SearchQuery

namespace Decimal

variable {d : Decimal} {n m : Int}

/-- The value is the whole number `n`. -/
def Equals (d : Decimal) (n : Int) : Prop := d.mantissa = n * Int.pow 10 d.scale

instance (d : Decimal) (n : Int) : Decidable (d.Equals n) := inferInstanceAs (Decidable (_ = _))

theorem whole?_eq_some_iff_equals : d.whole? = some n ↔ d.Equals n := whole?_eq_some_iff d n

theorem Equals.unique (h : d.Equals n) (h' : d.Equals m) : n = m :=
  Option.some.inj ((whole?_eq_some_iff_equals.2 h).symm.trans (whole?_eq_some_iff_equals.2 h'))

end Decimal

/-- The document is the integer `n`. -/
def Document.IsInteger (n : Int) (d : Document) : Prop := ∃ inRange, d = .number (.int n inRange)

theorem FitsInt64.toInt_ofInt {n : Int} (h : FitsInt64 n) : (Int64.ofInt n).toInt = n := by
  obtain ⟨hle, hlt⟩ := h
  rw [Int64.toInt_ofInt]
  exact Int.bmod_eq_of_le (by simp [Int64.size]; omega) (by simp [Int64.size]; omega)

namespace Value

variable {d : Decimal} {n m : Int}

/-! ## Integers -/

theorem isInteger_integer (h : FitsInt64 n) :
    (Value.integer (Int64.ofInt n)).resolve.IsInteger m ↔ n = m := by
  have hvalue : (Int64.ofInt n).toInt = n := h.toInt_ofInt
  unfold Document.IsInteger Value.resolve Number.ofInt64
  simp only [hvalue, Document.number.injEq, Number.int.injEq]
  constructor
  · rintro ⟨-, hn⟩
    exact hn
  · rintro rfl
    obtain ⟨hle, hlt⟩ := h
    exact ⟨by omega, rfl⟩

theorem isInteger_ofUInt64 (n : UInt64) : (Value.ofUInt64 n).resolve.IsInteger n.toNat := by
  unfold Value.ofUInt64
  split
  · rename_i hlt
    have hfits : FitsInt64 n.toNat := by
      unfold FitsInt64
      omega
    exact (isInteger_integer hfits).2 rfl
  · exact ⟨_, rfl⟩

theorem ofUInt64_of_fits (h : FitsInt64 n) (hpos : 0 ≤ n) :
    Value.ofUInt64 (UInt64.ofNat n.toNat) = .integer (Int64.ofInt n) := by
  obtain ⟨-, hlt⟩ := h
  have hnat : (UInt64.ofNat n.toNat).toNat = n.toNat := by
    rw [UInt64.toNat_ofNat']
    omega
  unfold Value.ofUInt64
  rw [hnat, if_pos (by omega), ← Int64.ofInt_eq_ofNat, Int.toNat_of_nonneg hpos]

theorem not_isInteger_ofFloat? (float? : Option Binary64) :
    ¬ (ofFloat? float?).resolve.IsInteger n := by
  rintro ⟨inRange, h⟩
  cases float? with
  | none => cases h
  | some x =>
    unfold ofFloat? Option.elim Value.resolve Number.ofBinary64? at h
    split at h <;> cases h

/-! ## Decimals -/

theorem ofDecimal_eq (d : Decimal) : ofDecimal d = ofDecimalBy (fun d => some d.nearest) d := rfl

variable {toFloat? : Decimal → Option Binary64}

theorem ofDecimalBy_of_fits (h : d.Equals n) (hfits : FitsInt64 n) :
    ofDecimalBy toFloat? d = .integer (Int64.ofInt n) := by
  unfold ofDecimalBy
  rw [Decimal.whole?_eq_some_iff_equals.2 h]
  exact if_pos hfits

theorem ofDecimalBy_of_not_fits (h : ∀ n, d.Equals n → ¬ FitsInt64 n) :
    ofDecimalBy toFloat? d = ofFloat? (toFloat? d) := by
  unfold ofDecimalBy
  split
  · rename_i n hwhole
    exact if_neg (h n (Decimal.whole?_eq_some_iff_equals.1 hwhole))
  · rfl

theorem isInteger_ofDecimalBy :
    (ofDecimalBy toFloat? d).resolve.IsInteger n ↔ d.Equals n ∧ FitsInt64 n := by
  by_cases hwhole : ∃ m, d.Equals m ∧ FitsInt64 m
  · obtain ⟨m, hequals, hfits⟩ := hwhole
    rw [ofDecimalBy_of_fits hequals hfits, isInteger_integer hfits]
    constructor
    · rintro rfl
      exact ⟨hequals, hfits⟩
    · exact fun h => hequals.unique h.1
  · have hnone : ∀ m, d.Equals m → ¬ FitsInt64 m := fun m hm hfits => hwhole ⟨m, hm, hfits⟩
    rw [ofDecimalBy_of_not_fits hnone]
    exact iff_of_false (not_isInteger_ofFloat? _) (fun h => hnone n h.1 h.2)

/-- A whole decimal that 64 bits with a sign can hold is the integer that it is equal to, just as
the integer itself would be, with a sign or without. No other decimal is an integer, and what
becomes of it is left to the conversion to floats. -/
theorem whole_decimals_stay_integers (toFloat? : Decimal → Option Binary64) (d : Decimal) :
    (∀ n, d.Equals n → FitsInt64 n →
      ofDecimalBy toFloat? d = .integer (Int64.ofInt n) ∧
      (0 ≤ n → ofDecimalBy toFloat? d = .ofUInt64 (UInt64.ofNat n.toNat))) ∧
    (∀ n, (ofDecimalBy toFloat? d).resolve.IsInteger n ↔ d.Equals n ∧ FitsInt64 n) ∧
    ((∀ n, d.Equals n → ¬ FitsInt64 n) → ofDecimalBy toFloat? d = ofFloat? (toFloat? d)) ∧
    ofDecimal d = ofDecimalBy (fun d => some d.nearest) d := by
  refine ⟨fun n hequals hfits => ?_, fun n => isInteger_ofDecimalBy, ofDecimalBy_of_not_fits,
    ofDecimal_eq d⟩
  have hinteger : ofDecimalBy toFloat? d = .integer (Int64.ofInt n) :=
    ofDecimalBy_of_fits hequals hfits
  exact ⟨hinteger, fun hpos => hinteger.trans (ofUInt64_of_fits hfits hpos).symm⟩

/-- `-9223372036854775808.0` is the lowest integer, `20.00` is one without a sign as well, and
`-10.50` is none. -/
theorem whole_decimals_stay_integers_lowest :
    let lowest : Decimal := ⟨-0x50000000000000000, 1, by decide, by decide⟩
    let twenty : Decimal := ⟨2000, 2, by decide, by decide⟩
    let fractional : Decimal := ⟨-1050, 2, by decide, by decide⟩
    ofDecimal lowest = .integer (Int64.ofInt (-0x8000000000000000)) ∧
    ofDecimal twenty = .ofUInt64 20 ∧
    ∀ n, ¬ (ofDecimal fractional).resolve.IsInteger n := by
  intro lowest twenty fractional
  refine ⟨?_, ?_, ?_⟩
  · have hequals : lowest.Equals (-0x8000000000000000) := by decide
    exact ((whole_decimals_stay_integers (fun d => some d.nearest) lowest).1 _ hequals
      (by decide)).1
  · have hequals : twenty.Equals 20 := by decide
    exact ((whole_decimals_stay_integers (fun d => some d.nearest) twenty).1 20 hequals
      (by decide)).2 (by decide)
  · intro n hinteger
    have hequals : fractional.Equals n :=
      (((whole_decimals_stay_integers (fun d => some d.nearest) fractional).2.1 n).1 hinteger).1
    have hscale : Int.pow 10 fractional.scale = 100 := rfl
    have hmantissa : fractional.mantissa = -1050 := rfl
    rw [Decimal.Equals, hscale, hmantissa] at hequals
    omega

/-- `18446744073709551615` is an integer of documents, and as a word without a sign it stays one. As
a decimal it becomes the float next to it, which is greater by one. -/
theorem large_decimal_is_rounded :
    let d : Decimal := ⟨0xFFFFFFFFFFFFFFFF, 0, by decide, by decide⟩
    d.Equals 0xFFFFFFFFFFFFFFFF ∧
    (ofUInt64 0xFFFFFFFFFFFFFFFF).resolve.IsInteger 0xFFFFFFFFFFFFFFFF ∧
    ofDecimal d = .float ⟨false, 0x43F0000000000000, by decide⟩ ∧
    ¬ (ofDecimal d).resolve.IsInteger 0xFFFFFFFFFFFFFFFF := by
  intro d
  have hequals : d.Equals 0xFFFFFFFFFFFFFFFF := by decide
  have hlarge : ∀ n, d.Equals n → ¬ FitsInt64 n := by
    rintro n hn hfits
    cases hn.unique hequals
    exact absurd hfits (by decide)
  have hnearest : d.nearest = ⟨false, 0x43F0000000000000, by decide⟩ := by decide +kernel
  refine ⟨hequals, isInteger_ofUInt64 0xFFFFFFFFFFFFFFFF, ?_, ?_⟩
  · rw [ofDecimal_eq, ofDecimalBy_of_not_fits hlarge, hnearest]
    rfl
  · rw [ofDecimal_eq, ofDecimalBy_of_not_fits hlarge]
    exact not_isInteger_ofFloat? _

end Value

end SearchQuery
