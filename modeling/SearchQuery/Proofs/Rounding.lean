import SearchQuery.Number.Shortest

/-!
# Rounding gives every float back

The number nearest to a quotient depends on the value of the quotient alone, and the number nearest
to a float is that float. So the digits that are written for a float read back to it.
-/

namespace SearchQuery

namespace Binary64

/-! ## Only the value of a quotient counts -/

theorem roundQuotient_mul_right {k : Nat} (hk : 0 < k) (num den : Nat) :
    roundQuotient (num * k) (den * k) = roundQuotient num den := by
  have hquotient : num * k / (den * k) = num / den := Nat.mul_div_mul_right num den hk
  have hrest : num * k % (den * k) = num % den * k := Nat.mul_mod_mul_right k num den
  have hbelow : 2 * (num % den * k) < den * k ↔ 2 * (num % den) < den := by
    rw [← Nat.mul_assoc]
    exact Nat.mul_lt_mul_right hk
  have habove : den * k < 2 * (num % den * k) ↔ den < 2 * (num % den) := by
    rw [← Nat.mul_assoc]
    exact Nat.mul_lt_mul_right hk
  unfold roundQuotient
  simp only [hquotient, hrest, hbelow, habove]

theorem roundQuotient_mul_self {den : Nat} (hden : 0 < den) (n : Nat) :
    roundQuotient (n * den) den = n := by
  unfold roundQuotient
  simp [Nat.mul_div_cancel n hden, hden]

theorem nearestMagnitude_mul_right {k : Nat} (hk : 0 < k) (num den : Nat) :
    nearestMagnitude (num * k) (den * k) = nearestMagnitude num den := by
  unfold nearestMagnitude
  generalize Nat.pow 2 1074 = unit
  rw [Nat.mul_right_comm num k unit]
  simp only [Nat.mul_div_mul_right _ _ hk, Nat.mul_right_comm den k, roundQuotient_mul_right hk]

theorem nearestMagnitude_congr {num den num' den' : Nat} (hden : 0 < den) (hden' : 0 < den')
    (h : num * den' = num' * den) : nearestMagnitude num den = nearestMagnitude num' den' :=
  calc nearestMagnitude num den
    _ = nearestMagnitude (num * den') (den * den') := (nearestMagnitude_mul_right hden' _ _).symm
    _ = nearestMagnitude (num' * den) (den' * den) := by rw [h, Nat.mul_comm den den']
    _ = nearestMagnitude num' den' := nearestMagnitude_mul_right hden _ _

theorem nearestMagnitude_zero (den : Nat) : nearestMagnitude 0 den = 0 := by
  unfold nearestMagnitude
  generalize Nat.pow 2 1074 = unit
  simp [roundQuotient]

/-! ## A float is nearest to itself -/

/-- The units of a magnitude are its significand, shifted by its scale. Above the lowest scale the
highest of the 53 bits of the significand is set. -/
theorem exists_significand (m : Nat) : ∃ scale significand,
    m = scale * 0x10000000000000 + significand ∧ significand < 0x20000000000000 ∧
      (scale = 0 ∨ 0x10000000000000 ≤ significand) ∧
      unitsOf 52 m = significand * Nat.pow 2 scale := by
  have hsplit := Nat.div_add_mod m 0x10000000000000
  have hrest := Nat.mod_lt m (by decide : 0 < 0x10000000000000)
  refine ⟨m / 0x10000000000000 - 1, m - (m / 0x10000000000000 - 1) * 0x10000000000000,
    ?_, ?_, ?_, rfl⟩ <;> omega

theorem log2_shift {scale significand : Nat} (hlt : significand < 0x20000000000000)
    (hle : scale = 0 ∨ 0x10000000000000 ≤ significand) :
    Nat.log2 (significand * Nat.pow 2 scale) - 52 = scale := by
  by_cases hzero : significand = 0
  · have hscale : scale = 0 := by omega
    rw [hzero, hscale]
    rfl
  · have hpos : 0 < Nat.pow 2 scale := Nat.pow_pos (by decide)
    have hne : significand * Nat.pow 2 scale ≠ 0 := Nat.mul_ne_zero hzero (Nat.ne_of_gt hpos)
    rcases hle with rfl | hle
    · have hlog : Nat.log2 (significand * Nat.pow 2 0) < 53 :=
        (Nat.log2_lt hne).2 (by simpa using hlt)
      omega
    · have hlog : Nat.log2 (significand * Nat.pow 2 scale) = 52 + scale := by
        refine (Nat.log2_eq_iff hne).2 ⟨?_, ?_⟩
        · rw [Nat.pow_add]
          exact Nat.mul_le_mul_right _ hle
        · rw [Nat.add_right_comm, Nat.pow_add]
          exact Nat.mul_lt_mul_of_pos_right hlt hpos
      omega

theorem nearestMagnitude_units {m : Nat} (hm : m < infinity) :
    nearestMagnitude (unitsOf 52 m) (Nat.pow 2 1074) = m := by
  obtain ⟨scale, significand, hsplit, hlt, hle, hunits⟩ := exists_significand m
  have hpos : ∀ n, 0 < Nat.pow 2 n := fun n => Nat.pow_pos (by decide)
  have hunit := hpos 1074
  unfold nearestMagnitude
  rw [hunits]
  generalize Nat.pow 2 1074 = unit at hunit
  have hround : roundQuotient (significand * Nat.pow 2 scale * unit) (unit * Nat.pow 2 scale) =
      significand := by
    rw [Nat.mul_assoc, Nat.mul_comm unit]
    exact roundQuotient_mul_self (Nat.mul_pos (hpos scale) hunit) significand
  simp only [Nat.mul_div_cancel _ hunit, log2_shift hlt hle, hround]
  rw [Nat.min_eq_right]
  · exact hsplit.symm
  · exact hsplit ▸ Nat.le_of_lt hm

end Binary64

/-! ## Written digits -/

namespace Scientific

theorem magnitude_eq (s : Scientific) : s.magnitude =
    Binary64.nearestMagnitude (s.digits * Nat.pow 10 s.exponent.toNat)
      (Nat.pow 10 (-s.exponent).toNat) := by
  obtain ⟨digits, exponent⟩ := s
  cases exponent with
  | ofNat e =>
    have hneg : (-(Int.ofNat e)).toNat = 0 := by simp
    rw [hneg]
    rfl
  | negSucc e => exact congrArg (Binary64.nearestMagnitude · _) (Nat.mul_one digits).symm

/-- Zeros at the end of the digits can as well be counted in the exponent. -/
theorem magnitude_shift (digits zeros : Nat) (exponent : Int) :
    magnitude ⟨digits * Nat.pow 10 zeros, exponent⟩ = magnitude ⟨digits, exponent + zeros⟩ := by
  have hpos : ∀ n, 0 < Nat.pow 10 n := fun n => Nat.pow_pos (by decide)
  rw [magnitude_eq, magnitude_eq]
  refine Binary64.nearestMagnitude_congr (hpos _) (hpos _) ?_
  have hadd : ∀ a b, Nat.pow 10 a * Nat.pow 10 b = Nat.pow 10 (a + b) :=
    fun a b => (Nat.pow_add 10 a b).symm
  have hexponents : zeros + exponent.toNat + (-(exponent + zeros)).toNat =
      (exponent + zeros).toNat + (-exponent).toNat := by omega
  calc digits * Nat.pow 10 zeros * Nat.pow 10 exponent.toNat *
        Nat.pow 10 (-(exponent + zeros)).toNat
    _ = digits * Nat.pow 10 (zeros + exponent.toNat + (-(exponent + zeros)).toNat) := by
      rw [Nat.mul_assoc, Nat.mul_assoc, hadd, hadd, Nat.add_assoc]
    _ = digits * Nat.pow 10 ((exponent + zeros).toNat + (-exponent).toNat) := by rw [hexponents]
    _ = digits * Nat.pow 10 (exponent + zeros).toNat * Nat.pow 10 (-exponent).toNat := by
      rw [Nat.mul_assoc, hadd]

/-- The decimal digits of a number of halves, quarters and so on. -/
theorem magnitude_halves (num n : Nat) :
    magnitude ⟨num * Nat.pow 5 n, -(n : Int)⟩ =
      Binary64.nearestMagnitude num (Nat.pow 2 n) := by
  have hnum : (-(n : Int)).toNat = 0 := by omega
  have hden : (-(-(n : Int))).toNat = n := by omega
  have hpow : Nat.pow 5 n * Nat.pow 2 n = Nat.pow 10 n := (Nat.mul_pow 5 2 n).symm
  rw [magnitude_eq, hnum, hden]
  refine Binary64.nearestMagnitude_congr (Nat.pow_pos (by decide)) (Nat.pow_pos (by decide)) ?_
  rw [← hpow, ← Nat.mul_assoc]
  exact congrArg (· * Nat.pow 2 n) (Nat.mul_one _)

theorem magnitude_zero (exponent : Int) : magnitude ⟨0, exponent⟩ = 0 := by
  rw [magnitude_eq, Nat.zero_mul]
  exact Binary64.nearestMagnitude_zero _

theorem magnitude_lt (s : Scientific) : s.magnitude < 0x8000000000000000 := by
  rw [magnitude_eq]
  exact Nat.lt_of_le_of_lt (Binary64.nearestMagnitude_le _ _) (by decide)

end Scientific

namespace Binary64

variable {x : Binary64}

theorem magnitude_exactDigits (h : x.isFinite = true) : x.exactDigits.magnitude = x.magnitude := by
  -- The exponent is kept under a name, so that the power is not computed.
  obtain ⟨n, hn, hdigits⟩ : ∃ n, n = 1074 ∧ x.exactDigits = ⟨x.units * Nat.pow 5 n, -(n : Int)⟩ :=
    ⟨1074, rfl, rfl⟩
  rw [hdigits, Scientific.magnitude_halves, hn]
  exact nearestMagnitude_units (of_decide_eq_true h)

/-- The digits that are written read back, also where the search for few digits finds none. -/
theorem magnitude_shortest (h : x.isFinite = true) : x.shortest.magnitude = x.magnitude := by
  unfold shortest
  cases hfound : x.candidates.find? (fun s => s.magnitude = x.magnitude) with
  | none => exact magnitude_exactDigits h
  | some s => simpa using List.find?_some hfound

end Binary64

end SearchQuery
