import TypedClient.Json.Token
import TypedClient.Proofs.Number.Digits

/-!
# Numerals of numbers

The text of a number is a numeral: digits without a leading zero, a fraction or an exponent
exactly for a floating-point number. Reading the numeral to the nearest number gives the
number back, with its sign.
-/

namespace TypedClient

section Digits

variable {digits : List Char} {n : ℕ}

/-- The digits of a natural number spell it. -/
theorem digitsValue_toDigits : digitsValue (Nat.toDigits 10 n) = n :=
  Nat.ofDigitChars_ten_toDigits

/-- A digit behind others counts once, and they ten times as much. -/
theorem digitsValue_append_replicate (digits : List Char) (count : ℕ) :
    digitsValue (digits ++ List.replicate count '0') = digitsValue digits * 10 ^ count := by
  induction count with
  | zero => simp
  | succ count ih =>
    rw [List.replicate_succ', ← List.append_assoc]
    have hlast : digitsValue (digits ++ List.replicate count '0' ++ ['0']) =
        10 * digitsValue (digits ++ List.replicate count '0') := by
      simp [digitsValue]
    rw [hlast, ih, pow_succ]
    ring

/-- Zeros in front of digits count nothing. -/
theorem digitsValue_replicate_append (count : ℕ) (digits : List Char) :
    digitsValue (List.replicate count '0' ++ digits) = digitsValue digits := by
  induction count with
  | zero => rfl
  | succ count ih => exact ih

/-- Every character is a digit. -/
def IsDigits (digits : List Char) : Prop := ∀ c ∈ digits, c.isDigit = true

theorem isDigits_toDigits : IsDigits (Nat.toDigits 10 n) := fun _ h =>
  Nat.isDigit_of_mem_toDigits (by decide) (by decide) h

theorem isDigits_replicate (count : ℕ) : IsDigits (List.replicate count '0') := fun _ h => by
  rw [List.eq_of_mem_replicate h]
  decide

theorem IsDigits.append {others : List Char} (h : IsDigits digits) (h' : IsDigits others) :
    IsDigits (digits ++ others) := fun c hc =>
  (List.mem_append.1 hc).elim (h c) (h' c)

/-- The characters in front that satisfy a test are split off. -/
theorem span_append {p : Char → Bool} {text rest : List Char} (h : ∀ c ∈ text, p c = true)
    (hrest : ∀ c ∈ rest.head?, p c = false) : (text ++ rest).span p = (text, rest) := by
  rw [List.span_eq_takeWhile_dropWhile, List.takeWhile_append_of_pos h,
    List.dropWhile_append_of_pos h]
  cases rest with
  | nil => simp
  | cons c rest => simp [hrest c rfl]

/-- Digits in front of a text that does not start with one are split off. -/
theorem digitSpan_append {rest : List Char} (h : IsDigits digits)
    (hrest : ∀ c ∈ rest.head?, c.isDigit = false) :
    Json.digitSpan (digits ++ rest) = (digits, rest) :=
  span_append h hrest

/-- The digits of a number do not start with a zero, unless the number is zero. -/
theorem head_toDigits_ne_zero (hn : 0 < n) : (Nat.toDigits 10 n).head? ≠ some '0' := by
  induction n using Nat.strong_induction_on with
  | _ n ih =>
    by_cases hsmall : n < 10
    · have hdigit : ∀ m < 10, 0 < m → [Nat.digitChar m].head? ≠ some '0' := by decide
      rw [Nat.toDigits_of_lt_base hsmall]
      exact hdigit n hsmall hn
    · rw [Nat.toDigits_of_base_le (by norm_num) (not_lt.1 hsmall),
        List.head?_append_of_ne_nil _ Nat.toDigits_ne_nil]
      exact ih (n / 10) (by omega) (by omega)

end Digits

namespace Numeral

variable {n : Numeral} {rest : List Char}

/-- How a sign is written. -/
def signText (negative : Bool) : List Char := if negative then ['-'] else []

/-- How a fraction is written. -/
def fractionText : Option (List Char) → List Char
  | none => []
  | some digits => '.' :: digits

/-- How an exponent is written, always with its sign. -/
def exponentText : Option (Bool × List Char) → List Char
  | none => []
  | some (negative, digits) => 'e' :: (if negative then '-' else '+') :: digits

/-- How a numeral is written. -/
def spelling (n : Numeral) : List Char :=
  signText n.negative ++ n.whole ++ fractionText n.fraction ++ exponentText n.exponent

/-- The parts of a numeral are digits, no part is empty, and no zero leads. -/
structure IsProper (n : Numeral) : Prop where
  /-- There are whole digits. -/
  nonempty : n.whole ≠ []
  /-- They are digits. -/
  whole : IsDigits n.whole
  /-- A zero in front stands alone. -/
  leading : n.whole = ['0'] ∨ n.whole.head? ≠ some '0'
  /-- The fraction has digits only. -/
  fraction : ∀ digits ∈ n.fraction, digits ≠ [] ∧ IsDigits digits
  /-- So has the exponent. -/
  exponent : ∀ e ∈ n.exponent, e.2 ≠ [] ∧ IsDigits e.2

/-- Whether a text does not continue a numeral. -/
def Ends (rest : List Char) : Prop :=
  ∀ c ∈ rest.head?, c.isDigit = false ∧ c ≠ '.' ∧ c ≠ 'e' ∧ c ≠ 'E'

/-- A fraction is read back. -/
theorem readFraction_fractionText {fraction : Option (List Char)}
    (h : ∀ digits ∈ fraction, digits ≠ [] ∧ IsDigits digits)
    (hrest : ∀ c ∈ rest.head?, c.isDigit = false ∧ c ≠ '.') :
    Json.readFraction (fractionText fraction ++ rest) = some (fraction, rest) := by
  cases fraction with
  | none =>
    rw [fractionText, List.nil_append]
    unfold Json.readFraction
    split
    · exact absurd rfl (hrest '.' rfl).2
    · rfl
  | some digits =>
    obtain ⟨hne, hdigits⟩ := h digits rfl
    obtain ⟨d, others, rfl⟩ := List.exists_cons_of_ne_nil hne
    rw [fractionText, List.cons_append]
    have hspan : Json.digitSpan (d :: (others ++ rest)) = (d :: others, rest) :=
      digitSpan_append hdigits fun c hc => (hrest c hc).1
    simp [Json.readFraction, hspan]

/-- An exponent is read back. -/
theorem readExponent_exponentText {exponent : Option (Bool × List Char)}
    (h : ∀ e ∈ exponent, e.2 ≠ [] ∧ IsDigits e.2) (hrest : Ends rest) :
    Json.readExponent (exponentText exponent ++ rest) = some (exponent, rest) := by
  cases exponent with
  | none =>
    rw [exponentText, List.nil_append]
    cases rest with
    | nil => rfl
    | cons c rest =>
      obtain ⟨-, -, hsmall, hlarge⟩ := hrest c rfl
      simp [Json.readExponent, hsmall, hlarge]
  | some e =>
    obtain ⟨negative, digits⟩ := e
    obtain ⟨hne, hdigits⟩ := h _ rfl
    obtain ⟨d, others, rfl⟩ := List.exists_cons_of_ne_nil hne
    have hspan : Json.digitSpan (d :: (others ++ rest)) = (d :: others, rest) :=
      digitSpan_append hdigits fun c hc => (hrest c hc).1
    cases negative <;> simp [exponentText, Json.readExponent, hspan]

/-- What follows the whole digits of a numeral is no digit. -/
theorem head_fractionText_append {fraction : Option (List Char)}
    {exponent : Option (Bool × List Char)} (hrest : Ends rest) :
    ∀ c ∈ (fractionText fraction ++ (exponentText exponent ++ rest)).head?, c.isDigit = false := by
  intro c hc
  cases fraction with
  | some digits =>
    obtain rfl : '.' = c := by simpa [fractionText] using hc
    rfl
  | none =>
    cases exponent with
    | some e =>
      obtain rfl : 'e' = c := by simpa [fractionText, exponentText] using hc
      rfl
    | none => exact (hrest c hc).1

/-- A numeral is read back from its spelling. -/
theorem readNumeral_spelling (h : n.IsProper) (hrest : Ends rest) :
    Json.readNumeral (n.spelling ++ rest) = some (n, rest) := by
  obtain ⟨negative, whole, fraction, exponent⟩ := n
  have hexponent := readExponent_exponentText h.exponent hrest
  have hfraction : Json.readFraction (fractionText fraction ++ (exponentText exponent ++ rest)) =
      some (fraction, exponentText exponent ++ rest) := by
    refine readFraction_fractionText h.fraction fun c hc => ?_
    cases exponent with
    | none => exact ⟨(hrest c hc).1, (hrest c hc).2.1⟩
    | some e =>
      obtain rfl : 'e' = c := by simpa [exponentText] using hc
      exact ⟨rfl, by decide⟩
  obtain ⟨d, others, hcons⟩ := List.exists_cons_of_ne_nil h.nonempty
  simp only at hcons
  subst hcons
  have hspan : Json.digitSpan
      (d :: (others ++ (fractionText fraction ++ (exponentText exponent ++ rest)))) =
        (d :: others, fractionText fraction ++ (exponentText exponent ++ rest)) :=
    digitSpan_append h.whole (head_fractionText_append hrest)
  have hminus : d ≠ '-' := by
    rintro rfl
    exact absurd (h.whole '-' List.mem_cons_self) (by decide)
  rw [spelling]
  rcases h.leading with hzero | hleading
  · obtain ⟨rfl, rfl⟩ := List.cons.inj hzero
    cases negative <;>
      simp [signText, Json.readNumeral, hfraction, hexponent]
  · have hd : d ≠ '0' := by simpa using hleading
    cases negative <;>
      simp [signText, Json.readNumeral, hfraction, hexponent, hspan, hd, hminus]

/-- Whether a numeral has neither a fraction nor an exponent. -/
def isWhole (n : Numeral) : Bool := n.fraction.isNone && n.exponent.isNone

/-- All digits of a numeral but those of the exponent, as one number. -/
def significand (n : Numeral) : ℕ := digitsValue (n.whole ++ n.fraction.getD [])

/-- The power of ten of the last of these digits. -/
def power (n : Numeral) : ℤ := exponentValue n.exponent - (n.fraction.getD []).length

/-- The number that a numeral is nearest to: an integer where it is whole, and otherwise a
floating-point number, rounded once. -/
def nearest? (n : Numeral) : Option Number :=
  if n.isWhole then
    some (.integer (if n.negative then -(digitsValue n.whole : ℤ) else digitsValue n.whole))
  else (Binary64.ofDecimal? n.negative n.significand n.power).map .float

/-- A text is a numeral, not a whole one, of a sign and a size. -/
def IsDecimal (text : List Char) (negative : Bool) (size : ℚ) : Prop :=
  ∃ n : Numeral, n.IsProper ∧ n.isWhole = false ∧ n.negative = negative ∧ n.spelling = text ∧
    n.significand * 10 ^ n.power = size

section Notations

variable {digits : List Char} {lead : ℤ} {negative : Bool}

/-- Digits behind the point keep their places. -/
theorem isDecimal_fraction (hne : digits ≠ []) (hdigits : IsDigits digits) (hlead : lead < 0) :
    IsDecimal (signText negative ++ Binary64.positional digits lead) negative
      (digitsValue digits * 10 ^ (lead + 1 - digits.length)) := by
  set zeros := List.replicate (-lead - 1).toNat '0' with hzeros
  have htext : Binary64.positional digits lead = '0' :: '.' :: (zeros ++ digits) := if_pos hlead
  refine ⟨⟨negative, ['0'], some (zeros ++ digits), none⟩,
    ⟨by simp, by simp [IsDigits], .inl rfl, ?_, by simp⟩, rfl, rfl, ?_, ?_⟩
  · rintro _ ⟨⟩
    exact ⟨by simp [hne], (isDigits_replicate _).append hdigits⟩
  · simp [spelling, fractionText, exponentText, htext]
  · have hsignificand : digitsValue (['0'] ++ (zeros ++ digits)) = digitsValue digits :=
      digitsValue_replicate_append ((-lead - 1).toNat + 1) digits
    have hpower : (0 : ℤ) - (zeros ++ digits).length = lead + 1 - digits.length := by
      rw [List.length_append, hzeros, List.length_replicate]
      omega
    simp only [significand, power, exponentValue, Option.getD_some]
    rw [hsignificand, hpower]

/-- Digits before the point keep their places, and zeros fill those that are left. -/
theorem isDecimal_whole (hne : digits ≠ []) (hdigits : IsDigits digits)
    (hleading : digits.head? ≠ some '0' ∨ digits = ['0'] ∧ lead = 0) (hlead : 0 ≤ lead)
    (hshort : digits.length ≤ lead.toNat + 1) :
    IsDecimal (signText negative ++ Binary64.positional digits lead) negative
      (digitsValue digits * 10 ^ (lead + 1 - digits.length)) := by
  have hpositive : 0 < digits.length := List.length_pos_of_ne_nil hne
  set zeros := List.replicate (lead.toNat + 1 - digits.length) '0' with hzeros
  have htext : Binary64.positional digits lead = digits ++ zeros ++ '.' :: ['0'] := by
    rw [Binary64.positional, if_neg (not_lt.2 hlead)]
    simp [List.take_of_length_le hshort, List.drop_of_length_le hshort, hzeros]
  refine ⟨⟨negative, digits ++ zeros, some ['0'], none⟩,
    ⟨by simp [hne], hdigits.append (isDigits_replicate _), ?_, ?_, by simp⟩, rfl, rfl, ?_, ?_⟩
  · rcases hleading with hleading | ⟨rfl, rfl⟩
    · exact .inr (by rwa [List.head?_append_of_ne_nil _ hne])
    · exact .inl (by simp [hzeros])
  · rintro _ ⟨⟩
    exact ⟨by simp, by simp [IsDigits]⟩
  · simp [spelling, fractionText, exponentText, htext]
  · have hsignificand : digitsValue (digits ++ zeros ++ ['0']) =
        digitsValue digits * 10 ^ (lead.toNat + 1 - digits.length + 1) := by
      rw [List.append_assoc, hzeros, ← List.replicate_succ', digitsValue_append_replicate]
    have hpower : lead + 1 - digits.length =
        ((lead.toNat + 1 - digits.length + 1 : ℕ) : ℤ) - 1 := by
      omega
    have hlast : (0 : ℤ) - (['0'] : List Char).length = -1 := rfl
    simp only [significand, power, exponentValue, Option.getD_some]
    rw [hsignificand, hpower, hlast, zpow_sub₀ (by norm_num), zpow_natCast, zpow_neg]
    push_cast
    ring

/-- Digits on both sides of the point keep their places. -/
theorem isDecimal_mixed (hdigits : IsDigits digits)
    (hleading : digits.head? ≠ some '0' ∨ digits = ['0'] ∧ lead = 0) (hlead : 0 ≤ lead)
    (hlong : lead.toNat + 1 < digits.length) :
    IsDecimal (signText negative ++ Binary64.positional digits lead) negative
      (digitsValue digits * 10 ^ (lead + 1 - digits.length)) := by
  set places := lead.toNat + 1 with hplaces
  have hdrop : digits.drop places ≠ [] := by
    rw [Ne, List.drop_eq_nil_iff]
    exact not_le.2 hlong
  have htake : digits.take places ≠ [] := by
    rw [Ne, List.take_eq_nil_iff]
    rintro (hzero | rfl)
    · exact Nat.succ_ne_zero lead.toNat hzero
    · exact absurd hlong (Nat.not_lt_zero _)
  have htext : Binary64.positional digits lead =
      digits.take places ++ '.' :: digits.drop places := by
    rw [Binary64.positional, if_neg (not_lt.2 hlead)]
    simp [← hplaces, hdrop, Nat.sub_eq_zero_of_le hlong.le]
  refine ⟨⟨negative, digits.take places, some (digits.drop places), none⟩,
    ⟨htake, fun c hc => hdigits c (List.mem_of_mem_take hc), .inr ?_, ?_, by simp⟩, rfl, rfl,
    ?_, ?_⟩
  · rcases hleading with hleading | ⟨rfl, rfl⟩
    · rwa [List.head?_take, if_neg (Nat.succ_ne_zero lead.toNat)]
    · simp at hlong
  · rintro _ ⟨⟩
    exact ⟨hdrop, fun c hc => hdigits c (List.mem_of_mem_drop hc)⟩
  · simp [spelling, fractionText, exponentText, htext]
  · have hpower : (0 : ℤ) - (digits.drop places).length = lead + 1 - digits.length := by
      rw [List.length_drop]
      omega
    simp only [significand, power, exponentValue, Option.getD_some, List.take_append_drop]
    rw [hpower]

/-- Positional notation keeps the digits and their places. -/
theorem isDecimal_positional (hne : digits ≠ []) (hdigits : IsDigits digits)
    (hleading : digits.head? ≠ some '0' ∨ digits = ['0'] ∧ lead = 0) :
    IsDecimal (signText negative ++ Binary64.positional digits lead) negative
      (digitsValue digits * 10 ^ (lead + 1 - digits.length)) := by
  rcases lt_or_ge lead 0 with hneg | hnonneg
  · exact isDecimal_fraction hne hdigits hneg
  · rcases le_or_gt digits.length (lead.toNat + 1) with hshort | hlong
    · exact isDecimal_whole hne hdigits hleading hnonneg hshort
    · exact isDecimal_mixed hdigits hleading hnonneg hlong

/-- Scientific notation keeps the digits and their places. -/
theorem isDecimal_scientific (hne : digits ≠ []) (hdigits : IsDigits digits)
    (hleading : digits.head? ≠ some '0') :
    IsDecimal (signText negative ++ Binary64.scientific digits lead) negative
      (digitsValue digits * 10 ^ (lead + 1 - digits.length)) := by
  obtain ⟨d, others, rfl⟩ := List.exists_cons_of_ne_nil hne
  have hd : d ≠ '0' := by simpa using hleading
  have hexponent : exponentValue (some (decide (lead < 0), Nat.toDigits 10 lead.natAbs)) =
      lead := by
    rw [exponentValue, digitsValue_toDigits]
    split <;> rename_i h <;> simp only [decide_eq_true_eq] at h <;> omega
  have hproper : ∀ fraction, (∀ ds ∈ fraction, ds ≠ [] ∧ IsDigits ds) →
      IsProper ⟨negative, [d], fraction,
        some (decide (lead < 0), Nat.toDigits 10 lead.natAbs)⟩ := by
    refine fun fraction hfraction => ⟨by simp, ?_, .inr (by simpa using hd), hfraction, ?_⟩
    · exact fun c hc => hdigits c (List.mem_cons.2 (.inl (List.mem_singleton.1 hc)))
    · rintro _ ⟨⟩
      exact ⟨Nat.toDigits_ne_nil, isDigits_toDigits⟩
  cases others with
  | nil =>
    refine ⟨_, hproper none (by simp), rfl, rfl, ?_, ?_⟩
    · simp [spelling, fractionText, exponentText, Binary64.scientific, Binary64.decimalDigits]
    · simp only [significand, power, hexponent]
      simp
  | cons d' others =>
    refine ⟨_, hproper (some (d' :: others)) ?_, rfl, rfl, ?_, ?_⟩
    · rintro _ ⟨⟩
      exact ⟨by simp, fun c hc => hdigits c (List.mem_cons_of_mem _ hc)⟩
    · simp [spelling, fractionText, exponentText, Binary64.scientific, Binary64.decimalDigits]
    · simp only [significand, power, hexponent, Option.getD_some, List.singleton_append]
      congr 2
      push_cast [List.length_cons]
      ring

end Notations

end Numeral

namespace Binary64

variable {x : Binary64}

/-- The text of a number is a numeral of its sign and of the size of its shortest digits. -/
theorem isDecimal_text (x : Binary64) (h : x.isZero = false → 0 < x.shortest.digits) :
    Numeral.IsDecimal x.text.toList x.negative x.shortest.value := by
  set digits := decimalDigits x.shortest.digits with hdigits
  set lead : ℤ := if x.isZero then 0 else x.shortest.power + digits.length - 1 with hlead
  have hsize : x.shortest.value = digitsValue digits * 10 ^ (lead + 1 - digits.length) := by
    have hpower : lead + 1 - digits.length = x.shortest.power := by
      by_cases hzero : x.isZero
      · have hshortest : x.shortest = ⟨0, 0⟩ := if_pos hzero
        rw [hlead, if_pos hzero, hdigits, hshortest]
        rfl
      · rw [hlead, if_neg hzero]
        ring
    rw [hpower, Decimal.value, hdigits, decimalDigits, digitsValue_toDigits]
  have hleading : digits.head? ≠ some '0' ∨ digits = ['0'] ∧ lead = 0 := by
    by_cases hzero : x.isZero
    · have hshortest : x.shortest = ⟨0, 0⟩ := if_pos hzero
      refine .inr ⟨?_, if_pos hzero⟩
      rw [hdigits, hshortest]
      rfl
    · exact .inl (head_toDigits_ne_zero (h (Bool.eq_false_iff.2 hzero)))
  have htext : x.text.toList = Numeral.signText x.negative ++
      (if leastPositional ≤ lead ∧ lead < beyondPositional then positional digits lead
        else scientific digits lead) := by
    rw [text, String.toList_ofList]
    simp only [Bool.and_eq_true, decide_eq_true_eq, ← hdigits, ← hlead]
    cases x.negative <;> rfl
  rw [htext, hsize]
  split
  · exact Numeral.isDecimal_positional Nat.toDigits_ne_nil isDigits_toDigits hleading
  · rename_i hfar
    refine Numeral.isDecimal_scientific Nat.toDigits_ne_nil isDigits_toDigits
      (hleading.resolve_right ?_)
    rintro ⟨-, hzero⟩
    rw [hzero] at hfar
    exact hfar (by decide)

/-- The text of a floating-point number is a numeral that is nearest to the number. -/
theorem exists_numeral (hx : x.IsCanonical) :
    ∃ n : Numeral, n.IsProper ∧ n.spelling = x.text.toList ∧ n.nearest? = some (.float x) := by
  have hpositive : x.isZero = false → 0 < x.significand := by
    rw [isZero, beq_eq_false_iff_ne]
    exact Nat.pos_of_ne_zero
  obtain ⟨n, hproper, hwhole, hsign, htext, hsize⟩ := isDecimal_text x fun hzero =>
    (receives_shortest (hpositive hzero) hx.bounded).1
  refine ⟨n, hproper, htext, ?_⟩
  have hnearest : ofDecimal? n.negative n.significand n.power = some x := by
    rw [hsign]
    cases hzero : x.isZero with
    | true =>
      have hshortest : x.shortest = ⟨0, 0⟩ := if_pos hzero
      have hnone : n.significand = 0 := by
        have hpower : (10 : ℚ) ^ n.power ≠ 0 := by positivity
        rw [hshortest, Decimal.value, Nat.cast_zero, zero_mul] at hsize
        exact_mod_cast (mul_eq_zero.1 hsize).resolve_right hpower
      have hsignificand : x.significand = 0 := by simpa [isZero] using hzero
      have hexponent : x.exponent = leastExponent := hx.full.resolve_right (by omega)
      have hx' : x = zero x.negative := by
        rw [zero, ← hsignificand, ← hexponent]
      rw [ofDecimal?, hnone]
      simp only [decide_true, Bool.true_or, if_true]
      rw [← hx']
    | false =>
      obtain ⟨hdigits, hreceives⟩ := receives_shortest (hpositive hzero) hx.bounded
      have hsome : 0 < n.significand := by
        have hpower : (0 : ℚ) < 10 ^ x.shortest.power := by positivity
        have hvalue : 0 < x.shortest.value := mul_pos (by exact_mod_cast hdigits) hpower
        by_contra hnone
        rw [Nat.eq_zero_of_not_pos hnone, Nat.cast_zero, zero_mul] at hsize
        exact hvalue.ne hsize
      exact ofDecimal?_eq_of_receives hx (hpositive hzero) hsome (hsize ▸ hreceives)
  rw [Numeral.nearest?, hwhole, hnearest]
  rfl

end Binary64

namespace Number

/-- A number in the form that its format has it in. -/
def IsCanonical : Number → Prop
  | .integer _ => True
  | .float x => x.IsCanonical

/-- The text of an integer is a whole numeral. -/
theorem exists_numeral_integer (value : ℤ) : ∃ n : Numeral, n.IsProper ∧
    n.spelling = (text (.integer value)).toList ∧ n.nearest? = some (.integer value) := by
  have hproper : ∀ (negative : Bool) (size : ℕ),
      Numeral.IsProper ⟨negative, Nat.toDigits 10 size, none, none⟩ := by
    refine fun negative size => ⟨Nat.toDigits_ne_nil, isDigits_toDigits, ?_, by simp, by simp⟩
    rcases Nat.eq_zero_or_pos size with rfl | hpos
    · exact .inl rfl
    · exact .inr (head_toDigits_ne_zero hpos)
  have hspelling : ∀ (negative : Bool) (size : ℕ),
      Numeral.spelling ⟨negative, Nat.toDigits 10 size, none, none⟩ =
        Numeral.signText negative ++ Nat.toDigits 10 size := by
    simp [Numeral.spelling, Numeral.fractionText, Numeral.exponentText]
  cases value with
  | ofNat size =>
    have htext : text (.integer (.ofNat size)) = String.ofList (Nat.toDigits 10 size) :=
      Nat.toString_eq_ofList_toDigits
    refine ⟨_, hproper false size, ?_, ?_⟩
    · rw [hspelling, htext, String.toList_ofList]
      rfl
    · simp [Numeral.nearest?, Numeral.isWhole, digitsValue_toDigits]
  | negSucc size =>
    have htext : text (.integer (.negSucc size)) =
        "-" ++ String.ofList (Nat.toDigits 10 (size + 1)) :=
      congrArg ("-" ++ ·) Nat.toString_eq_ofList_toDigits
    refine ⟨_, hproper true (size + 1), ?_, ?_⟩
    · simp [hspelling, htext, Numeral.signText]
    · simp [Numeral.nearest?, Numeral.isWhole, digitsValue_toDigits, Int.negSucc_eq]

/-- The text of a number is a numeral that is nearest to the number. -/
theorem exists_numeral {number : Number} (h : number.IsCanonical) : ∃ n : Numeral, n.IsProper ∧
    n.spelling = number.text.toList ∧ n.nearest? = some number := by
  cases number with
  | integer value => exact exists_numeral_integer value
  | float x => exact Binary64.exists_numeral h

end Number

end TypedClient
