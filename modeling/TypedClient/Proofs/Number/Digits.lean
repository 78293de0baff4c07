import TypedClient.Number.Shortest
import TypedClient.Proofs.Number.Rounding

/-!
# Shortest digits read back

The shortest digits of a number are those of a decimal that the number receives: every grid
is searched for such a decimal only, and a grid that is finer than half a unit of the last
place has one. So the nearest number to the decimal is the number itself.
-/

namespace TypedClient.Binary64

/-- The value of digits with a power of ten. -/
def Decimal.value (d : Decimal) : ℚ := d.digits * 10 ^ d.power

section Counts

variable {n : ℕ}

/-- The count of decimal digits bounds a natural number from both sides. -/
theorem length_toDigits_bounds (hn : 0 < n) :
    10 ^ ((Nat.toDigits 10 n).length - 1) ≤ n ∧ n < 10 ^ (Nat.toDigits 10 n).length := by
  have hlength : 0 < (Nat.toDigits 10 n).length := Nat.length_toDigits_pos
  refine ⟨?_, (Nat.length_toDigits_le_iff (by norm_num) hlength).1 le_rfl⟩
  by_contra hlt
  rcases Nat.eq_zero_or_pos ((Nat.toDigits 10 n).length - 1) with hzero | hpos
  · rw [hzero] at hlt
    omega
  · have := (Nat.length_toDigits_le_iff (by norm_num) hpos).2 (not_le.1 hlt)
    omega

/-- A decimal lies between two powers of ten. -/
theorem decimal_bounds (hn : 0 < n) (power : ℤ) :
    (10 : ℚ) ^ ((Nat.toDigits 10 n).length + power - 1) ≤ n * 10 ^ power ∧
      (n : ℚ) * 10 ^ power < 10 ^ ((Nat.toDigits 10 n).length + power) := by
  obtain ⟨hlow, hhigh⟩ := length_toDigits_bounds hn
  have hlength : 0 < (Nat.toDigits 10 n).length := Nat.length_toDigits_pos
  have hpower : (0 : ℚ) < 10 ^ power := by positivity
  have hlow' : (10 : ℚ) ^ (((Nat.toDigits 10 n).length - 1 : ℕ) : ℤ) ≤ n := by
    rw [zpow_natCast]
    exact_mod_cast hlow
  have hhigh' : (n : ℚ) < 10 ^ ((Nat.toDigits 10 n).length : ℤ) := by
    rw [zpow_natCast]
    exact_mod_cast hhigh
  constructor
  · have hsplit : ((Nat.toDigits 10 n).length : ℤ) + power - 1 =
        ((Nat.toDigits 10 n).length - 1 : ℕ) + power := by omega
    rw [hsplit, zpow_add₀ (by norm_num)]
    exact mul_le_mul_of_nonneg_right hlow' hpower.le
  · rw [zpow_add₀ (by norm_num)]
    exact mul_lt_mul_of_pos_right hhigh' hpower

end Counts

section Received

variable {x : Binary64} {v : ℚ}

/-- What a number receives is not below all numbers of the format. -/
theorem Receives.lower (hx : x.IsCanonical) (hpos : 0 < x.significand) (h : x.Receives v) :
    (2 : ℚ) ^ (-1075 : ℤ) ≤ v := by
  have hone : (1 : ℚ) ≤ x.significand := by exact_mod_cast hpos
  have hunit : (2 : ℚ) ^ (-1074 : ℤ) ≤ x.ulp := zpow_le_zpow_right₀ (by norm_num) hx.least
  have hreach := x.reach_le
  calc (2 : ℚ) ^ (-1075 : ℤ) = 1 / 2 * 2 ^ (-1074 : ℤ) := by
        rw [show (-1075 : ℤ) = -1 + -1074 by norm_num, zpow_add₀ (by norm_num)]
        norm_num
    _ ≤ 1 / 2 * x.ulp := by linarith
    _ ≤ (x.significand - x.reach) * x.ulp :=
        mul_le_mul_of_nonneg_right (by linarith) x.ulp_pos.le
    _ ≤ v := h.below

/-- What a number receives is not beyond all numbers of the format. -/
theorem Receives.upper (hx : x.IsCanonical) (h : x.Receives v) : v ≤ (2 : ℚ) ^ (1024 : ℤ) := by
  have hunit : x.ulp ≤ (2 : ℚ) ^ (971 : ℤ) := zpow_le_zpow_right₀ (by norm_num) hx.greatest
  have hsmall : (x.significand : ℚ) + 1 ≤ 2 ^ 53 := by exact_mod_cast hx.bounded
  calc v ≤ (x.significand + 1 / 2) * x.ulp := h.above
    _ ≤ 2 ^ 53 * x.ulp := mul_le_mul_of_nonneg_right (by linarith) x.ulp_pos.le
    _ ≤ 2 ^ 53 * (2 : ℚ) ^ (971 : ℤ) := by linarith
    _ = (2 : ℚ) ^ (1024 : ℤ) := by
        rw [show (1024 : ℤ) = 53 + 971 by norm_num, zpow_add₀ (by norm_num)]
        norm_num

/-- Less than half of the smallest number of the format. -/
theorem tiny_lt : (10 : ℚ) ^ (-331 : ℤ) < 2 ^ (-1075 : ℤ) := by
  have h : (2 : ℕ) ^ 1075 < 10 ^ 331 := by decide +kernel
  have h' : (2 : ℚ) ^ 1075 < 10 ^ 331 := by exact_mod_cast h
  rw [zpow_neg, zpow_neg]
  exact inv_strictAnti₀ (by positivity) (by exact_mod_cast h')

/-- More than the largest number of the format. -/
theorem lt_huge : (2 : ℚ) ^ (1024 : ℤ) < 10 ^ (310 : ℤ) := by
  have h : (2 : ℕ) ^ 1024 < 10 ^ 310 := by decide +kernel
  exact_mod_cast h

/-- The nearest number to a decimal is the one that receives its value. -/
theorem ofDecimal?_eq_of_receives (hx : x.IsCanonical) (hpos : 0 < x.significand) {digits : ℕ}
    {power : ℤ} (hdigits : 0 < digits) (h : x.Receives (digits * 10 ^ power)) :
    ofDecimal? x.negative digits power = some x := by
  obtain ⟨hlow, hhigh⟩ := decimal_bounds hdigits power
  have hnotsmall : ¬ ((Nat.toDigits 10 digits).length : ℤ) + power < -330 := by
    intro hsmall
    have hle : (10 : ℚ) ^ (((Nat.toDigits 10 digits).length : ℤ) + power) ≤ 10 ^ (-331 : ℤ) :=
      zpow_le_zpow_right₀ (by norm_num) (by omega)
    exact absurd (hhigh.trans_le hle) (not_lt.2 (tiny_lt.le.trans (h.lower hx hpos)))
  have hnotlarge : ¬ 310 < ((Nat.toDigits 10 digits).length : ℤ) + power := by
    intro hlarge
    have hle : (10 : ℚ) ^ (310 : ℤ) ≤ 10 ^ (((Nat.toDigits 10 digits).length : ℤ) + power - 1) :=
      zpow_le_zpow_right₀ (by norm_num) (by omega)
    exact absurd ((hle.trans hlow).trans (h.upper hx)) (not_le.2 lt_huge)
  unfold ofDecimal?
  simp only [hdigits.ne', hnotsmall, hnotlarge, decide_false, Bool.or_false, Bool.false_eq_true,
    if_false, Nat.pow_eq]
  split
  · rename_i hp
    refine nearest_eq_of_receives hx (by positivity) (by norm_num) ?_
    rw [zpow_of_nonneg _ hp] at h
    push_cast
    simpa using h
  · rename_i hp
    refine nearest_eq_of_receives hx hdigits (by positivity) ?_
    rw [zpow_of_neg _ hp, ← div_eq_mul_inv] at h
    push_cast
    exact h

end Received

section Grids

variable {x : Binary64} {power : ℤ} {k : ℕ}

/-- The rounding interval as rationals: the number in the middle, and the ends of what it
receives. -/
theorem interval_values (x : Binary64) (hpos : 0 < x.significand) :
    0 < x.interval.denominator ∧
      (x.interval.centre : ℚ) / x.interval.denominator = x.significand * x.ulp ∧
      (x.interval.low : ℚ) / x.interval.denominator = (x.significand - x.reach) * x.ulp ∧
      (x.interval.high : ℚ) / x.interval.denominator = (x.significand + 1 / 2) * x.ulp ∧
      (x.interval.closed = true ↔ x.significand % 2 = 0) := by
  obtain ⟨scale, denominator, hscale, hden, -, hpos', hvalue⟩ :=
    exists_scale Nat.two_pos (x.exponent - 2)
  have hquarter : (2 : ℚ) ^ (x.exponent - 2) = x.ulp / 4 := by
    rw [zpow_sub₀ (by norm_num), ulp]
    norm_num
  have hcast : ∀ n : ℕ, ((n * scale : ℕ) : ℚ) / denominator = n / 4 * x.ulp := by
    intro n
    rw [Nat.cast_mul, mul_div_assoc, hvalue, Nat.cast_two, hquarter]
    ring
  have hlow : ((4 * x.significand - (if x.significand == Nat.pow 2 52 &&
      decide (leastExponent < x.exponent) then 1 else 2) : ℕ) : ℚ) =
        4 * (x.significand - x.reach) := by
    unfold reach
    rw [Nat.pow_eq]
    by_cases hnarrow : x.significand = 2 ^ 52 ∧ leastExponent < x.exponent
    · rw [if_pos hnarrow, if_pos (by simpa using hnarrow), Nat.cast_sub (by omega)]
      push_cast
      ring
    · rw [if_neg hnarrow, if_neg (by simpa using hnarrow), Nat.cast_sub (by omega)]
      push_cast
      ring
  unfold interval
  simp only [hscale, hden]
  refine ⟨hpos', ?_, ?_, ?_, by simp⟩
  · rw [hcast]
    push_cast
    ring
  · rw [hcast, hlow]
    ring
  · rw [hcast]
    push_cast
    ring

/-- A positive fraction lies in the rounding interval exactly when the number receives it. -/
theorem holds_iff (hpos : 0 < x.significand) {n d : ℕ} (hd : 0 < d) :
    x.interval.holds n d = true ↔ x.Receives (n / d) := by
  obtain ⟨hden, -, hlow, hhigh, hclosed⟩ := interval_values x hpos
  have hd' : (0 : ℚ) < d := by exact_mod_cast hd
  have hden' : (0 : ℚ) < x.interval.denominator := by exact_mod_cast hden
  have hbelow : x.interval.low * d ≤ n * x.interval.denominator ↔
      (x.significand - x.reach) * x.ulp ≤ (n : ℚ) / d := by
    rw [← hlow, div_le_div_iff₀ hden' hd']
    exact_mod_cast Iff.rfl
  have hbelow' : x.interval.low * d < n * x.interval.denominator ↔
      (x.significand - x.reach) * x.ulp < (n : ℚ) / d := by
    rw [← hlow, div_lt_div_iff₀ hden' hd']
    exact_mod_cast Iff.rfl
  have habove : n * x.interval.denominator ≤ x.interval.high * d ↔
      (n : ℚ) / d ≤ (x.significand + 1 / 2) * x.ulp := by
    rw [← hhigh, div_le_div_iff₀ hd' hden']
    exact_mod_cast Iff.rfl
  have habove' : n * x.interval.denominator < x.interval.high * d ↔
      (n : ℚ) / d < (x.significand + 1 / 2) * x.ulp := by
    rw [← hhigh, div_lt_div_iff₀ hd' hden']
    exact_mod_cast Iff.rfl
  unfold Interval.holds
  by_cases heven : x.significand % 2 = 0
  · simp only [hclosed.2 heven, if_true, Bool.and_eq_true, decide_eq_true_eq, hbelow, habove]
    exact ⟨fun h => ⟨h.1, h.2, .inl heven⟩, fun h => ⟨h.below, h.above⟩⟩
  · have hopen : x.interval.closed = false := by
      rw [← Bool.not_eq_true]
      exact fun h => heven (hclosed.1 h)
    simp only [hopen, Bool.false_eq_true, if_false, Bool.and_eq_true, decide_eq_true_eq, hbelow',
      habove']
    exact ⟨fun h => ⟨h.1.le, h.2.le, .inr h⟩, fun h => h.ends.resolve_left heven⟩

/-- Every point that is found on a grid is received. -/
theorem receives_of_gridPoint? (hpos : 0 < x.significand)
    (h : x.interval.gridPoint? power = some k) : 0 < k ∧ x.Receives (k * 10 ^ power) := by
  obtain ⟨up, down, hup, hdown, hupos, hdpos, hscale⟩ := 
    exists_scale (by norm_num : 0 < 10) power
  rw [Nat.cast_ofNat] at hscale
  have hreceives : ∀ j : ℕ, x.interval.holds (j * up) down = true →
      x.Receives (j * 10 ^ power) := by
    intro j hj
    have := (holds_iff hpos hdpos).1 hj
    rwa [Nat.cast_mul, mul_div_assoc, hscale] at this
  unfold Interval.gridPoint? at h
  simp only [hup, hdown] at h
  set below := x.interval.centre * down / (x.interval.denominator * up)
  split at h
  · rename_i hboth
    simp only [Bool.and_eq_true, decide_eq_true_eq] at hboth
    obtain ⟨⟨hbelow, hlow⟩, hhigh⟩ := hboth
    have hk : k = below ∨ k = below + 1 := by
      have hsome := Option.some.inj h
      split at hsome
      · exact .inl hsome.symm
      · split at hsome <;> omega
    rcases hk with rfl | rfl
    · exact ⟨hbelow, hreceives _ hlow⟩
    · exact ⟨Nat.succ_pos _, hreceives _ hhigh⟩
  · split at h
    · rename_i hlow
      simp only [Bool.and_eq_true, decide_eq_true_eq] at hlow
      obtain rfl := Option.some.inj h
      exact ⟨hlow.1, hreceives _ hlow.2⟩
    · split at h
      · rename_i hhigh
        obtain rfl := Option.some.inj h
        exact ⟨Nat.succ_pos _, hreceives _ hhigh⟩
      · cases h

/-- A grid finer than half a unit of the last place has a point that is received. -/
theorem exists_gridPoint? (hpos : 0 < x.significand) (hfine : (10 : ℚ) ^ power < x.ulp / 2) :
    ∃ k, x.interval.gridPoint? power = some k := by
  obtain ⟨up, down, hup, hdown, hupos, hdpos, hscale⟩ := 
    exists_scale (by norm_num : 0 < 10) power
  rw [Nat.cast_ofNat] at hscale
  obtain ⟨hden, hcentre, -, -, -⟩ := interval_values x hpos
  have hupos' : (0 : ℚ) < up := by exact_mod_cast hupos
  have hdpos' : (0 : ℚ) < down := by exact_mod_cast hdpos
  have hden' : (0 : ℚ) < x.interval.denominator := by exact_mod_cast hden
  set n := x.interval.centre * down with hn
  set d := x.interval.denominator * up with hd
  have hd' : 0 < d := Nat.mul_pos hden hupos
  have hratio : (n : ℚ) / d = x.significand * x.ulp / 10 ^ power := by
    rw [← hcentre, ← hscale, hn, hd]
    push_cast
    field_simp
  have hpow : (0 : ℚ) < 10 ^ power := by positivity
  have hd'' : (0 : ℚ) < d := by exact_mod_cast hd'
  have hfloor : ((n / d : ℕ) : ℚ) ≤ (n : ℚ) / d := by
    rw [le_div_iff₀ hd'']
    exact_mod_cast Nat.div_mul_le_self n d
  have hceil : (n : ℚ) / d < (n / d : ℕ) + 1 := by
    rw [div_lt_iff₀ hd'', mul_comm]
    exact_mod_cast Nat.lt_mul_div_succ n hd'
  rw [hratio] at hfloor hceil
  rw [le_div_iff₀ hpow] at hfloor
  rw [div_lt_iff₀ hpow] at hceil
  -- the point right above the middle is less than half a unit away
  have hreceives : x.Receives (((n / d + 1 : ℕ) : ℚ) * 10 ^ power) := by
    have hulp := x.ulp_pos
    have hreach := x.reach_pos
    have hbelow : (x.significand - x.reach) * x.ulp < ((n / d + 1 : ℕ) : ℚ) * 10 ^ power := by
      push_cast
      nlinarith
    have habove : ((n / d + 1 : ℕ) : ℚ) * 10 ^ power < (x.significand + 1 / 2) * x.ulp := by
      push_cast
      linarith
    exact ⟨hbelow.le, habove.le, .inr ⟨hbelow, habove⟩⟩
  have hholds : x.interval.holds ((n / d + 1) * up) down = true := by
    rw [holds_iff hpos hdpos, Nat.cast_mul, mul_div_assoc, hscale]
    exact hreceives
  unfold Interval.gridPoint?
  simp only [hup, hdown, ← hn, ← hd, hholds, Bool.and_true, if_true]
  split
  · exact ⟨_, rfl⟩
  · exact ⟨_, rfl⟩

/-- What the search answers is received when it comes to a grid that is fine enough. -/
theorem receives_coarsest (hpos : 0 < x.significand) {fine : ℤ}
    (hfine : (10 : ℚ) ^ fine < x.ulp / 2) (fuel : ℕ) (power : ℤ) (hle : fine ≤ power)
    (hfuel : power - fine < fuel) :
    0 < (x.interval.coarsest fuel power).digits ∧
      x.Receives (x.interval.coarsest fuel power).value := by
  induction fuel generalizing power with
  | zero => omega
  | succ fuel ih =>
    unfold Interval.coarsest
    cases hgrid : x.interval.gridPoint? power with
    | some n => exact receives_of_gridPoint? hpos hgrid
    | none =>
      have hne : power ≠ fine := by
        rintro rfl
        obtain ⟨k, hk⟩ := exists_gridPoint? hpos hfine
        simp [hk] at hgrid
      exact ih (power - 1) (by omega) (by push_cast at hfuel; omega)

/-- Removing trailing zeros keeps the value, and that there are digits. -/
theorem value_stripZeros (fuel : ℕ) (d : Decimal) :
    (d.stripZeros fuel).value = d.value ∧ (0 < d.digits → 0 < (d.stripZeros fuel).digits) := by
  induction fuel generalizing d with
  | zero => exact ⟨rfl, id⟩
  | succ fuel ih =>
    unfold Decimal.stripZeros
    split
    · rename_i hzero
      simp only [ne_eq, Bool.and_eq_true, decide_eq_true_eq] at hzero
      obtain ⟨hvalue, hdigits⟩ := ih ⟨d.digits / 10, d.power + 1⟩
      refine ⟨hvalue.trans ?_, fun h => hdigits (by simp only; omega)⟩
      have hten : (d.digits : ℚ) = (d.digits / 10 : ℕ) * 10 := by
        exact_mod_cast (by omega : d.digits = d.digits / 10 * 10)
      rw [Decimal.value, Decimal.value, hten, zpow_add_one₀ (by norm_num)]
      ring
    · exact ⟨rfl, id⟩

/-- The eighteenth place after the leading one is finer than half a unit of the last place. -/
theorem fine_of_leadingPower (hpos : 0 < x.significand) (hbounded : x.significand < 2 ^ 53) :
    (10 : ℚ) ^ (leadingPower x.interval.centre x.interval.denominator - 18) < x.ulp / 2 := by
  obtain ⟨hden, hcentre, -⟩ := interval_values x hpos
  have hulp := x.ulp_pos
  have hden' : (0 : ℚ) < x.interval.denominator := by exact_mod_cast hden
  have hsignificand : (x.significand : ℚ) < 2 ^ 53 := by exact_mod_cast hbounded
  have hcentrePos : 0 < x.interval.centre := by
    by_contra hzero
    rw [Nat.eq_zero_of_not_pos hzero, Nat.cast_zero, zero_div] at hcentre
    have : (0 : ℚ) < x.significand * x.ulp := by positivity
    linarith
  set a := (Nat.toDigits 10 x.interval.centre).length
  set b := (Nat.toDigits 10 x.interval.denominator).length
  have hlow : (10 : ℚ) ^ ((a : ℤ) - 1) ≤ x.interval.centre := by
    simpa using (decimal_bounds hcentrePos 0).1
  have hhigh : (x.interval.denominator : ℚ) < 10 ^ (b : ℤ) := by
    simpa using (decimal_bounds hden 0).2
  have hlead : (10 : ℚ) ^ (leadingPower x.interval.centre x.interval.denominator - 1) <
      x.significand * x.ulp := by
    rw [← hcentre, lt_div_iff₀ hden']
    calc (10 : ℚ) ^ ((a : ℤ) - b - 1) * x.interval.denominator
        < 10 ^ ((a : ℤ) - b - 1) * 10 ^ (b : ℤ) := mul_lt_mul_of_pos_left hhigh (by positivity)
      _ = 10 ^ ((a : ℤ) - 1) := by
          rw [← zpow_add₀ (by norm_num)]
          congr 1
          ring
      _ ≤ x.interval.centre := hlow
  have hsplit : (10 : ℚ) ^ (leadingPower x.interval.centre x.interval.denominator - 1) =
      10 ^ (leadingPower x.interval.centre x.interval.denominator - 18) * 10 ^ 17 := by
    rw [← zpow_natCast, ← zpow_add₀ (by norm_num)]
    congr 1
    push_cast
    ring
  rw [hsplit] at hlead
  have hless : x.significand * x.ulp < 2 ^ 53 * x.ulp := mul_lt_mul_of_pos_right hsignificand hulp
  linarith

/-- A number receives its shortest digits. -/
theorem receives_shortest (hpos : 0 < x.significand) (hbounded : x.significand < 2 ^ 53) :
    0 < x.shortest.digits ∧ x.Receives x.shortest.value := by
  have hnonzero : ¬ x.isZero = true := by
    rw [isZero, beq_iff_eq]
    omega
  obtain ⟨hdigits, hreceives⟩ := receives_coarsest hpos (fine_of_leadingPower hpos hbounded) 24
    (leadingPower x.interval.centre x.interval.denominator + 2) (by omega) (by omega)
  unfold shortest
  rw [if_neg hnonzero]
  obtain ⟨hvalue, hkeeps⟩ := value_stripZeros 400 (x.interval.coarsest 24
    (leadingPower x.interval.centre x.interval.denominator + 2))
  exact ⟨hkeeps hdigits, hvalue ▸ hreceives⟩

end Grids

end TypedClient.Binary64
