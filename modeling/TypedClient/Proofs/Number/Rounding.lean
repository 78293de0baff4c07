import Mathlib.Algebra.Order.Field.Power
import Mathlib.Algebra.Order.Field.Rat
import Mathlib.Tactic.FieldSimp
import Mathlib.Tactic.Linarith
import Mathlib.Tactic.NormNum
import Mathlib.Tactic.Positivity
import Mathlib.Tactic.Ring
import TypedClient.Number.Binary64

/-!
# Rounding to binary floating-point numbers

Every number of the format receives the rationals of an interval around it: up to half a
unit of the last place above it and as far below it, and below a power of two, where the
neighbour is nearer, only a quarter. The ends belong to it when the significand is even.
The nearest number to a fraction is the one that receives the value of the fraction, so it
depends on the value alone and not on how the fraction is written.
-/

namespace TypedClient.Binary64

/-- A number in the form that the format has it in: finite, of at most 53 bits, and of fewer
only at the least exponent. -/
structure IsCanonical (x : Binary64) : Prop where
  /-- The exponent is not too small. -/
  least : leastExponent ≤ x.exponent
  /-- The exponent is not too large. -/
  greatest : x.exponent ≤ greatestExponent
  /-- The significand has at most 53 bits. -/
  bounded : x.significand < 2 ^ 53
  /-- It has 53 bits above the least exponent. -/
  full : x.exponent = leastExponent ∨ 2 ^ 52 ≤ x.significand

instance (x : Binary64) : Decidable x.IsCanonical :=
  decidable_of_iff (leastExponent ≤ x.exponent ∧ x.exponent ≤ greatestExponent ∧
      x.significand < 2 ^ 53 ∧ (x.exponent = leastExponent ∨ 2 ^ 52 ≤ x.significand))
    ⟨fun ⟨a, b, c, d⟩ => ⟨a, b, c, d⟩, fun ⟨a, b, c, d⟩ => ⟨a, b, c, d⟩⟩

/-- What one unit of the last place is worth. -/
def ulp (x : Binary64) : ℚ := 2 ^ x.exponent

/-- How many units below a number still round to it. -/
def reach (x : Binary64) : ℚ :=
  if x.significand = 2 ^ 52 ∧ leastExponent < x.exponent then 1 / 4 else 1 / 2

/-- A rational rounds to the size of a number. -/
structure Receives (x : Binary64) (v : ℚ) : Prop where
  /-- It is not too far below. -/
  below : (x.significand - x.reach) * x.ulp ≤ v
  /-- It is not too far above. -/
  above : v ≤ (x.significand + 1 / 2) * x.ulp
  /-- At an end the significand is even. -/
  ends : x.significand % 2 = 0 ∨
    ((x.significand - x.reach) * x.ulp < v ∧ v < (x.significand + 1 / 2) * x.ulp)

theorem ulp_pos (x : Binary64) : 0 < x.ulp := zpow_pos (by norm_num) _

theorem reach_pos (x : Binary64) : 0 < x.reach := by
  unfold reach
  split <;> norm_num

theorem reach_le (x : Binary64) : x.reach ≤ 1 / 2 := by
  unfold reach
  split <;> norm_num

section Powers

variable {power : ℤ}

/-- A power that is not negative is one of a natural number. -/
theorem zpow_of_nonneg (base : ℚ) (h : 0 ≤ power) : base ^ power = base ^ power.toNat := by
  conv_lhs => rw [← Int.toNat_of_nonneg h]
  exact zpow_natCast base power.toNat

/-- A negative power is the inverse of one of a natural number. -/
theorem zpow_of_neg (base : ℚ) (h : ¬ 0 ≤ power) : base ^ power = (base ^ (-power).toNat)⁻¹ := by
  have hneg : power = -((-power).toNat : ℤ) := by omega
  conv_lhs => rw [hneg]
  rw [zpow_neg, zpow_natCast]

/-- A power as a fraction of natural numbers one of which is 1. -/
theorem exists_scale {base : ℕ} (hbase : 0 < base) (power : ℤ) : ∃ up down : ℕ,
    (if 0 ≤ power then Nat.pow base power.toNat else 1) = up ∧
      (if 0 ≤ power then 1 else Nat.pow base (-power).toNat) = down ∧
      0 < up ∧ 0 < down ∧ (up : ℚ) / down = (base : ℚ) ^ power := by
  refine ⟨_, _, rfl, rfl, ?_⟩
  split
  · rename_i h
    refine ⟨Nat.pow_pos hbase, Nat.one_pos, ?_⟩
    rw [zpow_of_nonneg _ h, Nat.pow_eq, Nat.cast_pow, Nat.cast_one, div_one]
  · rename_i h
    refine ⟨Nat.one_pos, Nat.pow_pos hbase, ?_⟩
    rw [zpow_of_neg _ h, Nat.pow_eq, Nat.cast_pow, Nat.cast_one, one_div]

end Powers

section Quotients

variable {n d k : ℕ}

/-- The quotient without its rest is the natural number that is at most one half away, or the
one below it. -/
theorem div_eq_or_succ_eq (hd : 0 < d) (hbelow : 2 * (k * d) ≤ 2 * n + d)
    (habove : 2 * n ≤ 2 * (k * d) + d) : n / d = k ∨ n / d + 1 = k := by
  have hsplit : n = d * (n / d) + n % d := (Nat.div_add_mod n d).symm
  have hrest : n % d < d := Nat.mod_lt n hd
  have hle : n / d ≤ k := by
    by_contra hlt
    have hmul : d * (k + 1) ≤ d * (n / d) := Nat.mul_le_mul_left d (by omega)
    have hexpand : d * (k + 1) = k * d + d := by ring
    omega
  have hge : k ≤ n / d + 1 := by
    by_contra hlt
    have hmul : d * (n / d + 2) ≤ d * k := Nat.mul_le_mul_left d (by omega)
    have hexpand : d * (n / d + 2) = d * (n / d) + 2 * d := by ring
    have hcomm : d * k = k * d := Nat.mul_comm d k
    omega
  omega

/-- The rounded quotient is the natural number that is at most one half away, and at exactly
one half the even one. -/
theorem roundQuotient_eq_of_le (hd : 0 < d) (hbelow : 2 * (k * d) ≤ 2 * n + d)
    (habove : 2 * n ≤ 2 * (k * d) + d)
    (hties : k % 2 = 0 ∨ (2 * (k * d) < 2 * n + d ∧ 2 * n < 2 * (k * d) + d)) :
    roundQuotient n d = k := by
  have hsplit : n = d * (n / d) + n % d := (Nat.div_add_mod n d).symm
  have hrest : n % d < d := Nat.mod_lt n hd
  unfold roundQuotient
  rcases div_eq_or_succ_eq hd hbelow habove with hq | hq
  · have hk : d * (n / d) = k * d := by rw [hq, Nat.mul_comm]
    simp only [hq]
    split
    · rfl
    · split <;> omega
  · have hk : d * (n / d) + d = k * d := by rw [← hq]; ring
    have hparity : (n / d) % 2 = 1 ∨ k % 2 ≠ 0 := by omega
    simp only
    split
    · omega
    · split
      · exact hq
      · omega

/-- The same of the value of a fraction. -/
theorem roundQuotient_eq (hd : 0 < d) (hlow : (k : ℚ) - 1 / 2 ≤ n / d)
    (hhigh : (n : ℚ) / d ≤ k + 1 / 2)
    (hties : k % 2 = 0 ∨ ((k : ℚ) - 1 / 2 < n / d ∧ (n : ℚ) / d < k + 1 / 2)) :
    roundQuotient n d = k := by
  have hd' : (0 : ℚ) < d := by exact_mod_cast hd
  rw [le_div_iff₀ hd'] at hlow
  rw [div_le_iff₀ hd'] at hhigh
  have hbelow : (2 * (k * d) : ℚ) ≤ 2 * n + d := by linarith
  have habove : (2 * n : ℚ) ≤ 2 * (k * d) + d := by linarith
  refine roundQuotient_eq_of_le hd (by exact_mod_cast hbelow) (by exact_mod_cast habove) ?_
  refine hties.imp_right fun ⟨h, h'⟩ => ?_
  rw [lt_div_iff₀ hd'] at h
  rw [div_lt_iff₀ hd'] at h'
  have hbelow' : (2 * (k * d) : ℚ) < 2 * n + d := by linarith
  have habove' : (2 * n : ℚ) < 2 * (k * d) + d := by linarith
  exact ⟨by exact_mod_cast hbelow', by exact_mod_cast habove'⟩

/-- The value of a fraction in units of a power of two. -/
theorem unscaled_value (hd : 0 < d) (e : ℤ) :
    0 < (unscaled n d e).2 ∧
      ((unscaled n d e).1 : ℚ) / (unscaled n d e).2 = n / d / 2 ^ e := by
  have hd' : (d : ℚ) ≠ 0 := by exact_mod_cast hd.ne'
  unfold unscaled
  split
  · rename_i he
    refine ⟨Nat.mul_pos hd (Nat.pow_pos Nat.two_pos), ?_⟩
    rw [zpow_of_nonneg _ he, Nat.pow_eq]
    push_cast
    field_simp
  · rename_i he
    refine ⟨hd, ?_⟩
    rw [zpow_of_neg _ he, Nat.pow_eq]
    push_cast
    field_simp

end Quotients

/-- Whether a positive rational has a 53-bit integer part in units of `2 ^ e`, or fewer bits at
the least exponent. -/
structure Fits (v : ℚ) (e : ℤ) : Prop where
  /-- The exponent is not too small. -/
  least : leastExponent ≤ e
  /-- There are no more than 53 bits. -/
  bounded : v < 2 ^ 53 * 2 ^ e
  /-- There are not fewer above the least exponent. -/
  full : e = leastExponent ∨ 2 ^ 52 * 2 ^ e ≤ v

/-- A rational fits one exponent only. -/
theorem Fits.unique {v : ℚ} {e f : ℤ} (he : Fits v e) (hf : Fits v f) : e = f := by
  have hlt : ∀ {a b : ℤ}, Fits v a → Fits v b → ¬ a < b := by
    intro a b ha hb hab
    have hfull : (2 : ℚ) ^ 52 * 2 ^ b ≤ v := hb.full.resolve_left (by have := ha.least; omega)
    have hpow : (2 : ℚ) ^ (a + 1) ≤ 2 ^ b := zpow_le_zpow_right₀ (by norm_num) (by omega)
    rw [zpow_add_one₀ (by norm_num)] at hpow
    have hbounded := ha.bounded
    linarith
  have h := hlt he hf
  have h' := hlt hf he
  omega

/-- The logarithms of a fraction give its value up to a factor of two on either side. -/
theorem quotient_bounds {n d : ℕ} (hn : 0 < n) (hd : 0 < d) :
    (2 : ℚ) ^ ((n.log2 : ℤ) - d.log2 - 1) < n / d ∧
      (n : ℚ) / d < 2 ^ ((n.log2 : ℤ) - d.log2 + 1) := by
  have hd' : (0 : ℚ) < d := by exact_mod_cast hd
  have hnlow : (2 : ℚ) ^ n.log2 ≤ n := by exact_mod_cast Nat.log2_self_le hn.ne'
  have hnhigh : (n : ℚ) < 2 ^ (n.log2 + 1) := by exact_mod_cast Nat.lt_log2_self
  have hdlow : (2 : ℚ) ^ d.log2 ≤ d := by exact_mod_cast Nat.log2_self_le hd.ne'
  have hdhigh : (d : ℚ) < 2 ^ (d.log2 + 1) := by exact_mod_cast Nat.lt_log2_self
  constructor
  · rw [lt_div_iff₀ hd']
    calc (2 : ℚ) ^ ((n.log2 : ℤ) - d.log2 - 1) * d
        < 2 ^ ((n.log2 : ℤ) - d.log2 - 1) * 2 ^ (d.log2 + 1) :=
          mul_lt_mul_of_pos_left hdhigh (by positivity)
      _ = 2 ^ n.log2 := by
        rw [← zpow_natCast, ← zpow_natCast, ← zpow_add₀ (by norm_num)]
        congr 1
        push_cast
        ring
      _ ≤ n := hnlow
  · rw [div_lt_iff₀ hd']
    calc (n : ℚ) < 2 ^ (n.log2 + 1) := hnhigh
      _ = 2 ^ ((n.log2 : ℤ) - d.log2 + 1) * 2 ^ d.log2 := by
        rw [← zpow_natCast, ← zpow_natCast, ← zpow_add₀ (by norm_num)]
        congr 1
        push_cast
        ring
      _ ≤ 2 ^ ((n.log2 : ℤ) - d.log2 + 1) * d :=
          mul_le_mul_of_nonneg_left hdlow (by positivity)

/-- The exponent for a fraction is the one that its value fits. -/
theorem fits_exponentFor {n d : ℕ} (hn : 0 < n) (hd : 0 < d) :
    Fits (n / d) (exponentFor n d) := by
  obtain ⟨hlower, hupper⟩ := quotient_bounds hn hd
  set guess : ℤ := max ((n.log2 : ℤ) - d.log2 - 53) leastExponent with hguess
  obtain ⟨hpos, hvalue⟩ := unscaled_value (n := n) hd guess
  have hunit : (0 : ℚ) < 2 ^ guess := by positivity
  have hpos' : (0 : ℚ) < (unscaled n d guess).2 := by exact_mod_cast hpos
  have htest : (unscaled n d guess).1 / (unscaled n d guess).2 < 2 ^ 53 ↔
      (n : ℚ) / d < 2 ^ 53 * 2 ^ guess := by
    rw [Nat.div_lt_iff_lt_mul hpos, ← div_lt_iff₀ hunit, ← hvalue, div_lt_iff₀ hpos']
    exact_mod_cast Iff.rfl
  unfold exponentFor
  simp only [← hguess, Nat.pow_eq]
  have hscale : ∀ a : ℤ, (2 : ℚ) ^ (a + 53) = 2 ^ 53 * 2 ^ a := by
    intro a
    rw [zpow_add₀ (by norm_num), mul_comm]
    norm_num
  have hbelow : guess ≠ leastExponent → (2 : ℚ) ^ 52 * 2 ^ guess ≤ n / d := by
    intro hne
    have heq : (n.log2 : ℤ) - d.log2 - 1 = guess + 52 := by omega
    rw [heq, zpow_add₀ (by norm_num), mul_comm] at hlower
    exact le_of_lt (by exact_mod_cast hlower)
  split
  · rename_i hsmall
    exact ⟨le_max_right _ _, htest.1 hsmall, (em (guess = leastExponent)).imp_right hbelow⟩
  · rename_i hlarge
    have hge : (2 : ℚ) ^ 53 * 2 ^ guess ≤ n / d := not_lt.1 fun h => hlarge (htest.2 h)
    refine ⟨by have := le_max_right ((n.log2 : ℤ) - d.log2 - 53) leastExponent; omega, ?_, ?_⟩
    · have hle : (2 : ℚ) ^ ((n.log2 : ℤ) - d.log2 + 1) ≤ 2 ^ (guess + 1 + 53) :=
        zpow_le_zpow_right₀ (by norm_num) (by omega)
      rw [hscale] at hle
      exact hupper.trans_le hle
    · refine .inr ?_
      rw [zpow_add_one₀ (by norm_num)]
      linarith

/-- The number that a significand of at most 53 bits, or the first number beyond these, and an
exponent stand for. -/
def carried (negative : Bool) (k : ℕ) (e : ℤ) : Binary64 :=
  if k = 2 ^ 53 then ⟨negative, 2 ^ 52, e + 1⟩ else ⟨negative, k, e⟩

/-- The nearest number has the exponent that the value fits, and the natural number that is
nearest to the value in units of its power of two. -/
theorem nearest_eq_of_fits {negative : Bool} {n d k : ℕ} {e : ℤ} (hn : 0 < n) (hd : 0 < d)
    (hfits : Fits (n / d) e) (hlow : ((k : ℚ) - 1 / 2) * 2 ^ e ≤ n / d)
    (hhigh : (n : ℚ) / d ≤ (k + 1 / 2) * 2 ^ e)
    (hties : k % 2 = 0 ∨
      (((k : ℚ) - 1 / 2) * 2 ^ e < n / d ∧ (n : ℚ) / d < (k + 1 / 2) * 2 ^ e))
    (hfinite : (carried negative k e).exponent ≤ greatestExponent) :
    nearest negative n d = some (carried negative k e) := by
  have hunit : (0 : ℚ) < 2 ^ e := by positivity
  have he : exponentFor n d = e := (fits_exponentFor hn hd).unique hfits
  obtain ⟨hpos, hvalue⟩ := unscaled_value (n := n) hd e
  have hround : roundQuotient (unscaled n d e).1 (unscaled n d e).2 = k := by
    refine roundQuotient_eq hpos ?_ ?_ ?_ <;> rw [hvalue]
    · exact (le_div_iff₀ hunit).2 hlow
    · exact (div_le_iff₀ hunit).2 hhigh
    · exact hties.imp_right fun ⟨h, h'⟩ => ⟨(lt_div_iff₀ hunit).2 h, (div_lt_iff₀ hunit).2 h'⟩
  unfold nearest
  unfold carried at hfinite ⊢
  simp only [hn.ne', if_false, he, hround, Nat.pow_eq]
  split at hfinite <;> rename_i hk <;> simp only [hk, if_true, if_false]
  · exact if_neg (not_lt.2 hfinite)
  · exact if_neg (not_lt.2 hfinite)

/-- The nearest number to a fraction is the one that receives its value. -/
theorem nearest_eq_of_receives {x : Binary64} (hx : x.IsCanonical) {n d : ℕ} (hn : 0 < n)
    (hd : 0 < d) (h : x.Receives (n / d)) : nearest x.negative n d = some x := by
  have hulp := x.ulp_pos
  have hbelow := h.below
  have habove := h.above
  have hends := h.ends
  have hsmall : (x.significand : ℚ) + 1 ≤ 2 ^ 53 := by exact_mod_cast hx.bounded
  have hbounded : (n : ℚ) / d < 2 ^ 53 * x.ulp := by
    have : ((x.significand : ℚ) + 1 / 2) * x.ulp < 2 ^ 53 * x.ulp :=
      mul_lt_mul_of_pos_right (by linarith) hulp
    exact habove.trans_lt this
  have hreach : (x.significand - 1 / 2) * x.ulp ≤ (x.significand - x.reach) * x.ulp :=
    mul_le_mul_of_nonneg_right (by have := x.reach_le; linarith) hulp.le
  by_cases hlow : x.exponent = leastExponent ∨ 2 ^ 52 * x.ulp ≤ n / d
  · have hcarried : carried x.negative x.significand x.exponent = x :=
      if_neg (by have := hx.bounded; omega)
    have hfits : Fits (n / d) x.exponent := ⟨hx.least, hbounded, hlow⟩
    refine (nearest_eq_of_fits hn hd hfits (hreach.trans hbelow) habove
      (hends.imp_right fun ⟨h1, h2⟩ => ⟨hreach.trans_lt h1, h2⟩) ?_).trans
        (congrArg some hcarried)
    rw [hcarried]
    exact hx.greatest
  · -- the value lies below a power of two, where the unit is half as large
    obtain ⟨hne, hlt⟩ := not_or.1 hlow
    have hfull : 2 ^ 52 ≤ x.significand := hx.full.resolve_left hne
    have hleast : leastExponent < x.exponent := lt_of_le_of_ne hx.least (Ne.symm hne)
    have hpower : x.significand = 2 ^ 52 := by
      by_contra hother
      have hmore : (2 : ℚ) ^ 52 + 1 ≤ x.significand := by
        exact_mod_cast (by omega : 2 ^ 52 + 1 ≤ x.significand)
      have : (2 : ℚ) ^ 52 * x.ulp ≤ (x.significand - 1 / 2) * x.ulp :=
        mul_le_mul_of_nonneg_right (by linarith) hulp.le
      exact hlt (this.trans (hreach.trans hbelow))
    have hquarter : x.reach = 1 / 4 := if_pos ⟨hpower, hleast⟩
    have hhalf : x.ulp = 2 * 2 ^ (x.exponent - 1) := by
      rw [ulp, ← zpow_one_add₀ (by norm_num)]
      congr 1
      ring
    have hcarried : carried x.negative (2 ^ 53) (x.exponent - 1) = x := by
      have : x.exponent - 1 + 1 = x.exponent := by ring
      rw [carried, if_pos rfl, this, ← hpower]
    have hsignificand : (x.significand : ℚ) = 2 ^ 52 := by exact_mod_cast hpower
    rw [hquarter, hhalf, hsignificand] at hbelow
    rw [hhalf, not_le] at hlt
    have hpos : (0 : ℚ) < 2 ^ (x.exponent - 1) := by positivity
    have hfits : Fits (n / d) (x.exponent - 1) :=
      ⟨by omega, by linarith, .inr (by linarith)⟩
    have hnear : ((2 ^ 53 : ℕ) - 1 / 2 : ℚ) * 2 ^ (x.exponent - 1) ≤ n / d := by
      push_cast
      linarith
    have hnear' : (n : ℚ) / d ≤ ((2 ^ 53 : ℕ) + 1 / 2) * 2 ^ (x.exponent - 1) := by
      push_cast
      linarith
    refine (nearest_eq_of_fits hn hd hfits hnear hnear' (.inl (by norm_num)) ?_).trans
      (congrArg some hcarried)
    rw [hcarried]
    exact hx.greatest

end TypedClient.Binary64
