import SearchQuery.Number.Text
import SearchQuery.Proofs.Rounding

/-!
# Numbers as they are written

A numeral is a number in the grammar of documents: a sign, digits, a fraction and an exponent. Every
number is written as a numeral, and the numeral reads back to the number it was written for.
-/

namespace SearchQuery

/-- What the digits are worth. -/
def digitsValue (digits : List Char) : Nat := Nat.ofDigitChars 10 digits 0

structure Numeral where
  negative : Bool
  whole : List Char
  /-- The digits after the point. Without any there is no point. -/
  fraction : List Char
  /-- Whether the exponent is below zero, and its digits. -/
  exponent : Option (Bool × List Char)

namespace Numeral

/-! ## Reading -/

/-- One digit or more, and the text after them. -/
def takeDigits (text : List Char) : Option (List Char × List Char) :=
  let digits := text.takeWhile Char.isDigit
  if digits = [] then none else some (digits, text.dropWhile Char.isDigit)

def takeMinus : List Char → Bool × List Char
  | '-' :: rest => (true, rest)
  | text => (false, text)

/-- The digits before the point. More than one of them do not begin with a zero. -/
def takeWhole (text : List Char) : Option (List Char × List Char) :=
  (takeDigits text).filter (fun taken => taken.1.head? ≠ some '0' ∨ taken.1.length = 1)

def takeFraction : List Char → Option (List Char × List Char)
  | '.' :: rest => takeDigits rest
  | text => some ([], text)

/-- An exponent may have either sign or none. -/
def takeSign : List Char → Bool × List Char
  | '-' :: rest => (true, rest)
  | '+' :: rest => (false, rest)
  | text => (false, text)

def takeExponent : List Char → Option (Option (Bool × List Char) × List Char)
  | [] => some (none, [])
  | c :: rest =>
    if c = 'e' ∨ c = 'E' then
      let (negative, rest) := takeSign rest
      (takeDigits rest).map (fun taken => (some (negative, taken.1), taken.2))
    else some (none, c :: rest)

/-- A numeral at the start of a text, and the text after it. -/
def read? (text : List Char) : Option (Numeral × List Char) := do
  let (negative, text) := takeMinus text
  let (whole, text) ← takeWhole text
  let (fraction, text) ← takeFraction text
  let (exponent, text) ← takeExponent text
  some (⟨negative, whole, fraction, exponent⟩, text)

/-! ## Meaning -/

def exponentValue (n : Numeral) : Int :=
  match n.exponent with
  | none => 0
  | some (negative, digits) => if negative then -digitsValue digits else digitsValue digits

def scientific (n : Numeral) : Scientific :=
  ⟨digitsValue (n.whole ++ n.fraction), n.exponentValue - n.fraction.length⟩

/-- With a point or an exponent the nearest float, and otherwise a whole number. Numbers that no
document holds have no meaning. -/
def number? (n : Numeral) : Option Number :=
  if n.fraction = [] ∧ n.exponent = none then
    Number.ofInt? (if n.negative then -digitsValue n.whole else digitsValue n.whole)
  else Number.ofBinary64? ⟨n.negative, n.scientific.magnitude, n.scientific.magnitude_lt⟩

/-! ## Writing -/

def IsDigits (text : List Char) : Prop := text ≠ [] ∧ ∀ c ∈ text, c.isDigit = true

structure WellFormed (n : Numeral) : Prop where
  whole : IsDigits n.whole
  leading : n.whole.head? ≠ some '0' ∨ n.whole.length = 1
  fraction : ∀ c ∈ n.fraction, c.isDigit = true
  exponent : ∀ e ∈ n.exponent, IsDigits e.2

def fractionText (n : Numeral) : List Char :=
  if n.fraction = [] then [] else '.' :: n.fraction

def exponentText (n : Numeral) : List Char :=
  match n.exponent with
  | none => []
  | some (negative, digits) => 'e' :: (if negative then '-' else '+') :: digits

/-- The text but for the sign. -/
def unsigned (n : Numeral) : List Char := n.whole ++ n.fractionText ++ n.exponentText

def text (n : Numeral) : List Char := if n.negative then '-' :: n.unsigned else n.unsigned

theorem WellFormed.mem_text {n : Numeral} (h : n.WellFormed) {c : Char} (hc : c ∈ n.text) :
    c.isDigit = true ∨ c ∈ ['-', '+', '.', 'e'] := by
  have hwhole := h.whole.2 c
  have hfraction := h.fraction c
  have hexponent : ∀ e ∈ n.exponent, c ∈ e.2 → c.isDigit = true := fun e he => (h.exponent e he).2 c
  unfold text unsigned fractionText exponentText at hc
  cases hcase : n.exponent <;> grind

/-! ## A numeral reads back -/

/-- What may stand after a numeral: nothing that would belong to it. -/
def Ends (rest : List Char) : Prop :=
  ∀ c ∈ rest.head?, c.isDigit = false ∧ c ≠ '.' ∧ c ≠ 'e' ∧ c ≠ 'E'

theorem takeDigits_append {digits rest : List Char} (h : IsDigits digits)
    (hrest : ∀ c ∈ rest.head?, c.isDigit = false) :
    takeDigits (digits ++ rest) = some (digits, rest) := by
  have htake : rest.takeWhile Char.isDigit = [] := by
    cases rest with
    | nil => rfl
    | cons c rest => exact List.takeWhile_cons_of_neg (by simp [hrest c rfl])
  have hdrop : rest.dropWhile Char.isDigit = rest := by
    cases rest with
    | nil => rfl
    | cons c rest => exact List.dropWhile_cons_of_neg (by simp [hrest c rfl])
  unfold takeDigits
  rw [List.takeWhile_append_of_pos h.2, List.dropWhile_append_of_pos h.2, htake, hdrop,
    List.append_nil, if_neg h.1]

theorem takeMinus_of_head {text : List Char} (h : ∀ c ∈ text.head?, c.isDigit = true) :
    takeMinus text = (false, text) := by
  unfold takeMinus
  split
  · exact absurd (h '-' rfl) (by decide)
  · rfl

theorem isDigit_head {digits rest : List Char} (h : IsDigits digits) :
    ∀ c ∈ (digits ++ rest).head?, c.isDigit = true := by
  obtain ⟨hne, hdigits⟩ := h
  cases digits with
  | nil => exact absurd rfl hne
  | cons c more => simpa using hdigits c List.mem_cons_self

theorem takeExponent_text {n : Numeral} (h : n.WellFormed) {rest : List Char} (hrest : Ends rest) :
    takeExponent (n.exponentText ++ rest) = some (n.exponent, rest) := by
  unfold exponentText
  cases hexponent : n.exponent with
  | none =>
    cases rest with
    | nil => rfl
    | cons c rest =>
      obtain ⟨-, -, hlower, hupper⟩ := hrest c rfl
      exact if_neg (not_or.2 ⟨hlower, hupper⟩)
  | some exponent =>
    obtain ⟨negative, digits⟩ := exponent
    have hdigits : IsDigits digits := h.exponent _ hexponent
    have htake := takeDigits_append hdigits (fun c hc => (hrest c hc).1)
    cases negative <;> simp [takeExponent, takeSign, htake]

theorem takeFraction_text {n : Numeral} (h : n.WellFormed) {rest : List Char} (hrest : Ends rest) :
    takeFraction (n.fractionText ++ (n.exponentText ++ rest)) =
      some (n.fraction, n.exponentText ++ rest) := by
  have hends : ∀ c ∈ (n.exponentText ++ rest).head?, c.isDigit = false ∧ c ≠ '.' := by
    unfold exponentText
    cases n.exponent with
    | none => exact fun c hc => ⟨(hrest c hc).1, (hrest c hc).2.1⟩
    | some exponent =>
      intro c hc
      obtain rfl : 'e' = c := by simpa using hc
      decide
  unfold fractionText
  split
  · rename_i hnone
    rw [hnone, List.nil_append]
    unfold takeFraction
    split
    · rename_i heq
      exact absurd rfl (hends '.' (by rw [heq]; rfl)).2
    · rfl
  · rename_i hsome
    exact takeDigits_append ⟨hsome, h.fraction⟩ (fun c hc => (hends c hc).1)

theorem takeWhole_text {n : Numeral} (h : n.WellFormed) {rest : List Char} (hrest : Ends rest) :
    takeWhole (n.unsigned ++ rest) = some (n.whole, n.fractionText ++ (n.exponentText ++ rest)) := by
  have hends : ∀ c ∈ (n.fractionText ++ (n.exponentText ++ rest)).head?, c.isDigit = false := by
    intro c hc
    unfold fractionText exponentText at hc
    split at hc
    · cases hexponent : n.exponent with
      | none => exact (hrest c (by simpa [hexponent] using hc)).1
      | some exponent =>
        obtain rfl : 'e' = c := by simpa [hexponent] using hc
        decide
    · obtain rfl : '.' = c := by simpa using hc
      decide
  unfold takeWhole unsigned
  rw [List.append_assoc, List.append_assoc, takeDigits_append h.whole hends]
  exact if_pos (decide_eq_true h.leading)

theorem takeMinus_text {n : Numeral} (h : n.WellFormed) (rest : List Char) :
    takeMinus (n.text ++ rest) = (n.negative, n.unsigned ++ rest) := by
  unfold text
  cases n.negative with
  | true => rfl
  | false =>
    unfold unsigned
    rw [List.append_assoc, if_neg Bool.false_ne_true, List.append_assoc]
    exact takeMinus_of_head (isDigit_head h.whole)

theorem read?_text {n : Numeral} (h : n.WellFormed) {rest : List Char} (hrest : Ends rest) :
    read? (n.text ++ rest) = some (n, rest) := by
  simp [read?, takeMinus_text h, takeWhole_text h hrest, takeFraction_text h hrest,
    takeExponent_text h hrest]

end Numeral

/-! ## Digits -/

theorem digitsValue_append (first second : List Char) :
    digitsValue (first ++ second) =
      digitsValue first * Nat.pow 10 second.length + digitsValue second := by
  unfold digitsValue
  rw [Nat.ofDigitChars_append, Nat.ofDigitChars_eq_ofDigitChars_zero, Nat.mul_comm]
  rfl

theorem digitsValue_zeros (n : Nat) : digitsValue (List.replicate n '0') = 0 := by
  rw [digitsValue, Nat.ofDigitChars_replicate_zero, Nat.mul_zero]

theorem isDigits_toDigits (n : Nat) : Numeral.IsDigits (Nat.toDigits 10 n) :=
  ⟨Nat.toDigits_ne_nil, fun _ hc => Nat.isDigit_of_mem_toDigits (by decide) (by decide) hc⟩

theorem head?_toDigits_ne_zero {n : Nat} (h : 0 < n) : (Nat.toDigits 10 n).head? ≠ some '0' := by
  induction n using Nat.strongRecOn with
  | ind n ih =>
    by_cases hlt : n < 10
    · have hdigit : ∀ d < 10, 0 < d → some (Nat.digitChar d) ≠ some '0' := by decide
      rw [Nat.toDigits_of_lt_base hlt]
      exact hdigit n hlt h
    · have hhead := ih (n / 10) (by omega) (by omega)
      rw [Nat.toDigits_of_base_le (by decide) (by omega)]
      cases hdigits : Nat.toDigits 10 (n / 10) with
      | nil => exact absurd hdigits Nat.toDigits_ne_nil
      | cons d more => rwa [hdigits] at hhead

theorem trimZeros_append (digits : List Char) : ∃ zeros,
    digits = trimZeros digits ++ List.replicate zeros '0' := by
  have hzeros : ∀ c ∈ digits.reverse.takeWhile (· = '0'), c = '0' :=
    fun c hc => of_decide_eq_true (List.all_eq_true.1 List.all_takeWhile c hc)
  refine ⟨(digits.reverse.takeWhile (· = '0')).length, ?_⟩
  rw [trimZeros, ← List.reverse_replicate, ← List.eq_replicate_of_mem hzeros,
    ← List.reverse_append, List.takeWhile_append_dropWhile, List.reverse_reverse]

/-- What is left of the digits of a number without the zeros at their end. -/
theorem trimZeros_toDigits {n : Nat} (h : 0 < n) : ∃ zeros,
    Numeral.IsDigits (trimZeros (Nat.toDigits 10 n)) ∧
      (trimZeros (Nat.toDigits 10 n)).head? ≠ some '0' ∧
      (Nat.toDigits 10 n).length = (trimZeros (Nat.toDigits 10 n)).length + zeros ∧
      n = digitsValue (trimZeros (Nat.toDigits 10 n)) * Nat.pow 10 zeros := by
  have hvalue : digitsValue (Nat.toDigits 10 n) = n := Nat.ofDigitChars_ten_toDigits
  have hdigits := isDigits_toDigits n
  have hhead := head?_toDigits_ne_zero h
  obtain ⟨zeros, hsplit⟩ := trimZeros_append (Nat.toDigits 10 n)
  generalize trimZeros (Nat.toDigits 10 n) = trimmed at hsplit
  rw [hsplit] at hvalue hdigits hhead
  rw [digitsValue_append, digitsValue_zeros, List.length_replicate] at hvalue
  refine ⟨zeros, ⟨?_, fun c hc => hdigits.2 c (List.mem_append_left _ hc)⟩, ?_, ?_, hvalue.symm⟩
  · rintro rfl
    simp [digitsValue] at hvalue
    omega
  · cases trimmed with
    | nil => exact nofun
    | cons d more => exact hhead
  · rw [hsplit, List.length_append, List.length_replicate]

/-! ## Floats are written as numerals -/

/-- A text without its sign that reads as the float of this magnitude. -/
def WritesFloat (text : List Char) (magnitude : Nat) : Prop :=
  ∀ negative, ∃ n : Numeral, n.WellFormed ∧ n.negative = negative ∧ n.unsigned = text ∧
    ¬(n.fraction = [] ∧ n.exponent = none) ∧ n.scientific.magnitude = magnitude

theorem writesFloat_point {whole fraction : List Char} (hwhole : Numeral.IsDigits whole)
    (hleading : whole.head? ≠ some '0' ∨ whole.length = 1) (hfraction : Numeral.IsDigits fraction) :
    WritesFloat (whole ++ '.' :: fraction)
      (Scientific.magnitude ⟨digitsValue (whole ++ fraction), -fraction.length⟩) := by
  intro negative
  refine ⟨⟨negative, whole, fraction, none⟩, ⟨hwhole, hleading, hfraction.2, nofun⟩, rfl, ?_,
    fun h => hfraction.1 h.1, ?_⟩
  · simp [Numeral.unsigned, Numeral.fractionText, Numeral.exponentText, hfraction.1]
  · simp [Numeral.scientific, Numeral.exponentValue]

theorem writesFloat_exponent {whole fraction exponent : List Char} (negativeExponent : Bool)
    (hwhole : Numeral.IsDigits whole) (hleading : whole.head? ≠ some '0' ∨ whole.length = 1)
    (hfraction : ∀ c ∈ fraction, c.isDigit = true) (hexponent : Numeral.IsDigits exponent) :
    WritesFloat
      (whole ++ (if fraction = [] then [] else '.' :: fraction) ++
        'e' :: (if negativeExponent then '-' else '+') :: exponent)
      (Scientific.magnitude ⟨digitsValue (whole ++ fraction),
        (if negativeExponent then -(digitsValue exponent : Int) else digitsValue exponent) -
          fraction.length⟩) := by
  intro negative
  refine ⟨⟨negative, whole, fraction, some (negativeExponent, exponent)⟩,
    ⟨hwhole, hleading, hfraction, ?_⟩, rfl, rfl, nofun, rfl⟩
  intro e he
  rwa [← Option.some.inj he]

namespace FloatLayout

/-- The digits with the zeros that fill up to one digit on each side of the point. -/
def padded (first : Int) (digits : List Char) : List Char :=
  List.replicate (-first).toNat '0' ++ digits ++
    List.replicate (first.toNat + 2 - ((-first).toNat + digits.length)) '0'

theorem plain_eq (first : Int) (digits : List Char) :
    plain first digits = (padded first digits).take (first.toNat + 1) ++
      '.' :: (padded first digits).drop (first.toNat + 1) := by
  unfold plain padded
  simp

theorem length_padded (first : Int) (digits : List Char) :
    (padded first digits).length = (-first).toNat + digits.length +
      (first.toNat + 2 - ((-first).toNat + digits.length)) := by
  simp [padded, Nat.add_assoc]

theorem digitsValue_padded (first : Int) (digits : List Char) :
    digitsValue (padded first digits) = digitsValue digits *
      Nat.pow 10 (first.toNat + 2 - ((-first).toNat + digits.length)) := by
  unfold padded
  rw [digitsValue_append, digitsValue_append, digitsValue_zeros, digitsValue_zeros]
  simp

section

variable {digits : List Char} (hdigits : Numeral.IsDigits digits)

include hdigits

theorem isDigit_of_mem_padded (first : Int) : ∀ c ∈ padded first digits, c.isDigit = true := by
  intro c hc
  simp only [padded, List.mem_append, List.mem_replicate] at hc
  rcases hc with (⟨-, rfl⟩ | hc) | ⟨-, rfl⟩
  · rfl
  · exact hdigits.2 c hc
  · rfl

variable (hhead : digits.head? ≠ some '0') (first : Int)

include hhead

theorem leading_padded :
    ((padded first digits).take (first.toNat + 1)).head? ≠ some '0' ∨
      ((padded first digits).take (first.toNat + 1)).length = 1 := by
  by_cases h : first ≤ 0
  · have hlength := length_padded first digits
    exact .inr (by rw [List.length_take]; omega)
  · have hzeros : (-first).toNat = 0 := by omega
    refine .inl ?_
    rw [List.head?_take, if_neg (by omega), padded, hzeros]
    cases digits with
    | nil => exact absurd rfl hdigits.1
    | cons d more => exact hhead

theorem writesFloat_plain : WritesFloat (plain first digits)
    (Scientific.magnitude ⟨digitsValue digits, first + 1 - digits.length⟩) := by
  have hlength := length_padded first digits
  have hall := isDigit_of_mem_padded hdigits first
  have hwhole : Numeral.IsDigits ((padded first digits).take (first.toNat + 1)) :=
    ⟨List.ne_nil_of_length_pos (by rw [List.length_take]; omega),
      fun c hc => hall c (List.mem_of_mem_take hc)⟩
  have hfraction : Numeral.IsDigits ((padded first digits).drop (first.toNat + 1)) :=
    ⟨List.ne_nil_of_length_pos (by rw [List.length_drop]; omega),
      fun c hc => hall c (List.mem_of_mem_drop hc)⟩
  have hwrites := writesFloat_point hwhole (leading_padded hdigits hhead first) hfraction
  rw [List.take_append_drop, digitsValue_padded, Scientific.magnitude_shift, List.length_drop]
    at hwrites
  have hexponent : -(((padded first digits).length - (first.toNat + 1) : Nat) : Int) +
      (first.toNat + 2 - ((-first).toNat + digits.length) : Nat) =
        first + 1 - digits.length := by omega
  rwa [plain_eq, ← hexponent]

theorem writesFloat_withExponent : WritesFloat (withExponent first digits)
    (Scientific.magnitude ⟨digitsValue digits, first + 1 - digits.length⟩) := by
  obtain ⟨hne, hall⟩ := hdigits
  cases digits with
  | nil => exact absurd rfl hne
  | cons d more =>
    rw [List.forall_mem_cons] at hall
    have hwhole : Numeral.IsDigits [d] := ⟨nofun, by simpa using hall.1⟩
    have hwrites := writesFloat_exponent (decide (first < 0)) hwhole
      (.inr rfl) hall.2 (isDigits_toDigits first.natAbs)
    have hvalue : digitsValue (Nat.toDigits 10 first.natAbs) = first.natAbs :=
      Nat.ofDigitChars_ten_toDigits
    have hexponent : (if decide (first < 0) = true then -(first.natAbs : Int) else first.natAbs) -
        more.length = first + 1 - (d :: more).length := by
      rw [List.length_cons]
      simp only [decide_eq_true_iff]
      split <;> omega
    have htext : withExponent first (d :: more) =
        [d] ++ (if more = [] then [] else '.' :: more) ++
          'e' :: (if decide (first < 0) then '-' else '+') :: Nat.toDigits 10 first.natAbs := by
      unfold withExponent
      cases more <;> simp
    rwa [hvalue, hexponent, ← htext] at hwrites

theorem writesFloat_write (layout : FloatLayout) : WritesFloat (layout.write first digits)
    (Scientific.magnitude ⟨digitsValue digits, first + 1 - digits.length⟩) := by
  unfold write
  split
  · exact writesFloat_plain hdigits hhead first
  · exact writesFloat_withExponent hdigits hhead first

end

end FloatLayout

namespace Binary64

variable {x : Binary64}

theorem writesFloat_digits (layout : FloatLayout) {s : Scientific} (h : s.magnitude ≠ 0) :
    WritesFloat
      (layout.write ((Nat.toDigits 10 s.digits).length - 1 + s.exponent)
        (trimZeros (Nat.toDigits 10 s.digits)))
      s.magnitude := by
  obtain ⟨digits, exponent⟩ := s
  have hpos : 0 < digits := by
    refine Nat.pos_of_ne_zero ?_
    rintro rfl
    exact h (Scientific.magnitude_zero exponent)
  obtain ⟨zeros, hdigits, hhead, hlength, hvalue⟩ := trimZeros_toDigits hpos
  have hwrites := FloatLayout.writesFloat_write hdigits hhead
    ((Nat.toDigits 10 digits).length - 1 + exponent) layout
  have hexponent : ((Nat.toDigits 10 digits).length - 1 + exponent) + 1 -
      (trimZeros (Nat.toDigits 10 digits)).length = exponent + zeros := by omega
  rwa [hexponent, ← Scientific.magnitude_shift, ← hvalue] at hwrites

theorem writesFloat_magnitudeText (layout : FloatLayout) (h : x.isFinite = true) :
    WritesFloat (x.magnitudeText layout) x.magnitude := by
  have hshortest := magnitude_shortest h
  unfold magnitudeText
  generalize x.shortest = s at hshortest ⊢
  split
  · rename_i hzero
    have hdigit : Numeral.IsDigits ['0'] := isDigits_toDigits 0
    rw [hzero, ← Scientific.magnitude_zero]
    exact writesFloat_point hdigit (.inr rfl) hdigit
  · rename_i hne
    rw [← hshortest] at hne ⊢
    exact writesFloat_digits layout hne

end Binary64

/-! ## Every number is written as a numeral -/

theorem Numeral.text_eq {n : Numeral} {negative : Bool} {unsigned : List Char}
    (hnegative : n.negative = negative) (hunsigned : n.unsigned = unsigned) :
    n.text = if negative then '-' :: unsigned else unsigned := by
  rw [text, hnegative, hunsigned]

theorem intText_eq (n : Int) : intText n =
    if decide (n < 0) then '-' :: Nat.toDigits 10 n.natAbs else Nat.toDigits 10 n.natAbs := by
  cases n with
  | ofNat n => simp [intText]
  | negSucc n => simp [intText]

/-- The text of a number is a numeral that means this number. -/
theorem Number.exists_numeral (number : Number) : ∃ n : Numeral,
    n.WellFormed ∧ n.text = number.text ∧ n.number? = some number := by
  cases number with
  | int value hrange =>
    have hdigits := isDigits_toDigits value.natAbs
    have hleading : (Nat.toDigits 10 value.natAbs).head? ≠ some '0' ∨
        (Nat.toDigits 10 value.natAbs).length = 1 := by
      by_cases hzero : value.natAbs = 0
      · exact .inr (by rw [hzero, Nat.toDigits_zero]; rfl)
      · exact .inl (head?_toDigits_ne_zero (Nat.pos_of_ne_zero hzero))
    refine ⟨⟨decide (value < 0), Nat.toDigits 10 value.natAbs, [], none⟩,
      ⟨hdigits, hleading, nofun, nofun⟩, ?_, ?_⟩
    · rw [text, intText_eq]
      exact Numeral.text_eq rfl (by simp [Numeral.unsigned, Numeral.fractionText,
        Numeral.exponentText])
    · have hvalue : digitsValue (Nat.toDigits 10 value.natAbs) = value.natAbs :=
        Nat.ofDigitChars_ten_toDigits
      have hsigned : (if decide (value < 0) = true then -(value.natAbs : Int) else value.natAbs) =
          value := by
        simp only [decide_eq_true_iff]
        split <;> omega
      rw [Numeral.number?, if_pos ⟨rfl, rfl⟩, hvalue, hsigned, ofInt?, dif_pos hrange]
  | float x hfinite =>
    obtain ⟨n, hformed, hnegative, hunsigned, hpoint, hmagnitude⟩ :=
      Binary64.writesFloat_magnitudeText .document hfinite x.negative
    refine ⟨n, hformed, Numeral.text_eq hnegative hunsigned, ?_⟩
    have hx : (⟨n.negative, n.scientific.magnitude, n.scientific.magnitude_lt⟩ : Binary64) = x := by
      simp [hnegative, hmagnitude]
    rw [Numeral.number?, if_neg hpoint, hx, ofBinary64?, dif_pos hfinite]

/-- The text of a number begins with a digit or with a sign. -/
theorem Number.exists_text_eq_cons (number : Number) : ∃ c more,
    number.text = c :: more ∧ (c.isDigit = true ∨ c = '-') := by
  obtain ⟨n, hformed, htext, -⟩ := number.exists_numeral
  rw [← htext, Numeral.text]
  split
  · exact ⟨'-', n.unsigned, rfl, .inr rfl⟩
  · obtain ⟨hne, hdigits⟩ := hformed.whole
    cases hwhole : n.whole with
    | nil => exact absurd hwhole hne
    | cons c more =>
      refine ⟨c, more ++ n.fractionText ++ n.exponentText, ?_, .inl (hdigits c ?_)⟩
      · rw [Numeral.unsigned, hwhole, List.cons_append, List.cons_append]
      · rw [hwhole]
        exact List.mem_cons_self

/-- A number at the start of a text, and the text after it. -/
def Number.read? (text : List Char) : Option (Number × List Char) :=
  (Numeral.read? text).bind (fun taken => taken.1.number?.map (fun n => (n, taken.2)))

/-- A number reads back exactly, whole numbers and floats apart. -/
theorem Number.read?_text (number : Number) {rest : List Char} (hrest : Numeral.Ends rest) :
    read? (number.text ++ rest) = some (number, rest) := by
  obtain ⟨n, hformed, htext, hnumber⟩ := number.exists_numeral
  rw [← htext, read?, Numeral.read?_text hformed hrest, Option.bind_some, hnumber, Option.map_some]

end SearchQuery
