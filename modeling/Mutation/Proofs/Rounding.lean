import Mathlib.Algebra.Order.Field.Power
import Mathlib.Data.Rat.Cast.Order
import Mathlib.Tactic.NormNum
import Mathlib.Tactic.Positivity
import Mathlib.Tactic.Ring
import Mutation.Proofs.ArgumentText

/-!
# Rounding to binary64

Rounding a quotient depends on its value alone (`Double.ofRatio_mul`), and a finite number is the
rounding of its own value (`Double.ofRatio_ratio`). So a decimal rounds to the same number in any of
its forms (`Decimal.toDouble_mul_pow`), and the decimal that a finite number is written as rounds to
that number (`Double.toDouble_decimalOf`): the candidates for it are tried out, and the last resort
is its exact value.
-/

namespace Mutation

namespace Double

variable {num den c : Nat}

/-! ### Quotients -/

theorem roundDiv_mul (hc : 0 < c) : roundDiv (num * c) (den * c) = roundDiv num den := by
  have below : 2 * (num % den * c) < den * c ↔ 2 * (num % den) < den := by
    rw [← Nat.mul_assoc, Nat.mul_lt_mul_right hc]
  have above : den * c < 2 * (num % den * c) ↔ den < 2 * (num % den) := by
    rw [← Nat.mul_assoc, Nat.mul_lt_mul_right hc]
  simp only [roundDiv, Nat.mul_div_mul_right _ _ hc, Nat.mul_mod_mul_right, below, above]

theorem roundDiv_self (n : Nat) (hd : 0 < den) : roundDiv (n * den) den = n := by
  rw [roundDiv, Nat.mul_mod_left, Nat.mul_div_cancel _ hd]
  exact if_pos hd

/-- A power of two is at most the quotient. -/
theorem reached_iff (k : Int) :
    (if 0 ≤ k then den * Nat.pow 2 k.toNat ≤ num else den ≤ num * Nat.pow 2 (-k).toNat) ↔
      (2 : ℚ) ^ k * den ≤ num := by
  cases k with
  | ofNat n =>
    rw [Int.ofNat_eq_natCast, if_pos (Int.natCast_nonneg n), Int.toNat_natCast, zpow_natCast,
      Nat.pow_eq, mul_comm]
    exact_mod_cast Iff.rfl
  | negSucc n =>
    rw [if_neg (by omega), zpow_negSucc, inv_mul_le_iff₀ (by positivity), Nat.pow_eq,
      Int.neg_negSucc, Int.toNat_natCast, mul_comm num]
    exact_mod_cast Iff.rfl

/-- A quotient lies between two neighbouring powers of two. -/
theorem ratioLog2_spec (hn : 0 < num) (hd : 0 < den) :
    (2 : ℚ) ^ ratioLog2 num den * den ≤ num ∧ num < (2 : ℚ) ^ (ratioLog2 num den + 1) * den := by
  have two : (2 : ℚ) ≠ 0 := two_ne_zero
  have numLow : (2 : ℚ) ^ (num.log2 : Int) ≤ num := by
    rw [zpow_natCast]
    exact_mod_cast Nat.log2_self_le hn.ne'
  have numHigh : (num : ℚ) < 2 ^ ((num.log2 : Int) + 1) := by
    rw [← Nat.cast_succ, zpow_natCast]
    exact_mod_cast Nat.lt_log2_self
  have denLow : (2 : ℚ) ^ (den.log2 : Int) ≤ den := by
    rw [zpow_natCast]
    exact_mod_cast Nat.log2_self_le hd.ne'
  have denHigh : (den : ℚ) < 2 ^ ((den.log2 : Int) + 1) := by
    rw [← Nat.cast_succ, zpow_natCast]
    exact_mod_cast Nat.lt_log2_self
  unfold ratioLog2
  dsimp only
  rw [if_congr (reached_iff _) rfl rfl]
  split
  · rename_i reached
    refine ⟨reached, numHigh.trans_le ?_⟩
    calc (2 : ℚ) ^ ((num.log2 : Int) + 1)
        = 2 ^ ((num.log2 : Int) - den.log2 + 1) * 2 ^ (den.log2 : Int) := by
          rw [← zpow_add₀ two]; congr 1; ring
      _ ≤ 2 ^ ((num.log2 : Int) - den.log2 + 1) * den := by gcongr
  · rename_i missed
    refine ⟨?_, by simpa using missed⟩
    calc (2 : ℚ) ^ ((num.log2 : Int) - den.log2 - 1) * den
        ≤ 2 ^ ((num.log2 : Int) - den.log2 - 1) * 2 ^ ((den.log2 : Int) + 1) := by gcongr
      _ = 2 ^ (num.log2 : Int) := by rw [← zpow_add₀ two]; congr 1; ring
      _ ≤ num := numLow

theorem ratioLog2_eq (hn : 0 < num) (hd : 0 < den) {k : Int} (low : (2 : ℚ) ^ k * den ≤ num)
    (high : num < (2 : ℚ) ^ (k + 1) * den) : ratioLog2 num den = k := by
  obtain ⟨low', high'⟩ := ratioLog2_spec hn hd
  have den_pos : (0 : ℚ) < den := by exact_mod_cast hd
  have le {i j : Int} (low : (2 : ℚ) ^ i * den ≤ num) (high : num < (2 : ℚ) ^ (j + 1) * den) :
      i ≤ j := by
    have powers := lt_of_mul_lt_mul_right (low.trans_lt high) den_pos.le
    exact Int.lt_add_one_iff.1 ((zpow_lt_zpow_iff_right₀ one_lt_two).1 powers)
  exact Int.le_antisymm (le low' high) (le low high')

theorem ratioLog2_mul (hn : 0 < num) (hd : 0 < den) (hc : 0 < c) :
    ratioLog2 (num * c) (den * c) = ratioLog2 num den := by
  obtain ⟨low, high⟩ := ratioLog2_spec hn hd
  have pos : (0 : ℚ) < c := by exact_mod_cast hc
  refine ratioLog2_eq (Nat.mul_pos hn hc) (Nat.mul_pos hd hc) ?_ ?_
  · rw [Nat.cast_mul, Nat.cast_mul, ← mul_assoc]
    exact mul_le_mul_of_nonneg_right low pos.le
  · rw [Nat.cast_mul, Nat.cast_mul, ← mul_assoc]
    exact mul_lt_mul_of_pos_right high pos

/-- Rounding a quotient does not depend on how it is written. -/
theorem ofRatio_mul (negative : Bool) (hd : 0 < den) (hc : 0 < c) :
    ofRatio negative (num * c) (den * c) = ofRatio negative num den := by
  rcases Nat.eq_zero_or_pos num with rfl | hn
  · rw [Nat.zero_mul, ofRatio, ofRatio, if_pos rfl, if_pos rfl]
  · have up (k : Nat) : den * c * k = den * k * c := Nat.mul_right_comm ..
    have down (k : Nat) : num * c * k = num * k * c := Nat.mul_right_comm ..
    have positive : num * c ≠ 0 := (Nat.mul_pos hn hc).ne'
    simp only [ofRatio, if_neg hn.ne', if_neg positive, ratioLog2_mul hn hd hc, up, down,
      roundDiv_mul hc]

/-! ### Numbers as sign and magnitude -/

theorem ofMagnitude_self (x : Double) : ofMagnitude x.negative x.magnitude = x := by
  obtain ⟨bits⟩ := x
  have bound := bits.toNat_lt
  have back : bits.toNat % Nat.pow 2 63 + (if Nat.pow 2 63 ≤ bits.toNat then Nat.pow 2 63 else 0) =
      bits.toNat := by
    rw [Nat.pow_eq]
    split <;> omega
  simp only [ofMagnitude, negative, magnitude, decide_eq_true_eq, back, UInt64.ofNat_toNat]

theorem ofMagnitude_inj {a b : Nat} (ha : a ≤ infinite) (hb : b ≤ infinite)
    (same : ofMagnitude false a = ofMagnitude false b) : a = b := by
  have small : infinite < UInt64.size := by decide
  have bits := congrArg (fun x : Double => x.bits.toNat) same
  simpa [ofMagnitude, UInt64.toNat_ofNat_of_lt' (Nat.lt_of_le_of_lt ha small),
    UInt64.toNat_ofNat_of_lt' (Nat.lt_of_le_of_lt hb small)] using bits

/-- What the significand and the scale of a finite number are made of. -/
theorem significand_spec {x : Double} (finite : x.isFinite = true) :
    (x.significand < Nat.pow 2 52 ∧ x.scale = -1074 ∧ x.magnitude = x.significand) ∨
      (Nat.pow 2 52 ≤ x.significand ∧ x.significand < Nat.pow 2 53 ∧ -1074 ≤ x.scale ∧
        x.scale ≤ 971 ∧ x.magnitude = (x.scale + 1074).toNat * Nat.pow 2 52 + x.significand) := by
  have bound : x.magnitude < 2047 * 2 ^ 52 := of_decide_eq_true finite
  simp only [significand, scale, Nat.pow_eq]
  split <;> omega

/-- The leading bit of the value is that of the significand, moved by the scale. -/
theorem ratioLog2_ratio {x : Double} (positive : 0 < x.significand) :
    ratioLog2 x.ratio.1 x.ratio.2 = (x.significand.log2 : Int) + x.scale := by
  have two : (2 : ℚ) ≠ 0 := two_ne_zero
  have low : (2 : ℚ) ^ (x.significand.log2 : Int) ≤ x.significand := by
    rw [zpow_natCast]
    exact_mod_cast Nat.log2_self_le positive.ne'
  have high : (x.significand : ℚ) < 2 ^ ((x.significand.log2 : Int) + 1) := by
    rw [← Nat.cast_succ, zpow_natCast]
    exact_mod_cast Nat.lt_log2_self
  by_cases up : 0 ≤ x.scale
  · have pair : x.ratio = (x.significand * Nat.pow 2 x.scale.toNat, 1) := if_pos up
    have power : 0 < Nat.pow 2 x.scale.toNat := Nat.pow_pos Nat.two_pos
    have cast : ((Nat.pow 2 x.scale.toNat : Nat) : ℚ) = 2 ^ x.scale := by
      rw [Nat.pow_eq, Nat.cast_pow, Nat.cast_ofNat, ← zpow_natCast, Int.toNat_of_nonneg up]
    rw [pair]
    refine ratioLog2_eq (Nat.mul_pos positive power) Nat.one_pos ?_ ?_
    · rw [Nat.cast_mul, cast, Nat.cast_one, mul_one, zpow_add₀ two]
      gcongr
    · rw [Nat.cast_mul, cast, Nat.cast_one, mul_one, add_right_comm, zpow_add₀ two]
      gcongr
  · have pair : x.ratio = (x.significand, Nat.pow 2 (-x.scale).toNat) := if_neg up
    have power : 0 < Nat.pow 2 (-x.scale).toNat := Nat.pow_pos Nat.two_pos
    have cast : ((Nat.pow 2 (-x.scale).toNat : Nat) : ℚ) = 2 ^ (-x.scale) := by
      rw [Nat.pow_eq, Nat.cast_pow, Nat.cast_ofNat, ← zpow_natCast, Int.toNat_of_nonneg (by omega)]
    rw [pair]
    refine ratioLog2_eq positive power ?_ ?_
    · rw [cast, ← zpow_add₀ two, add_neg_cancel_right]
      exact low
    · rw [cast, add_right_comm, ← zpow_add₀ two, add_neg_cancel_right]
      exact high

/-- The scale is the one that rounding chooses for that leading bit. -/
theorem max_log2_significand {x : Double} (finite : x.isFinite = true)
    (positive : 0 < x.significand) :
    max ((x.significand.log2 : Int) + x.scale - 52) (-1074) = x.scale := by
  rcases significand_spec finite with ⟨small, scale, -⟩ | ⟨lower, upper, least, -, -⟩
  · have bits : x.significand.log2 < 52 := (Nat.log2_lt positive.ne').2 small
    omega
  · have bits : x.significand.log2 < 53 := (Nat.log2_lt positive.ne').2 upper
    have reached : 52 ≤ x.significand.log2 := (Nat.le_log2 positive.ne').2 lower
    omega

/-- A finite number is the rounding of its own value. -/
theorem ofRatio_ratio {x : Double} (finite : x.isFinite = true) (negative : Bool) :
    ofRatio negative x.ratio.1 x.ratio.2 = ofMagnitude negative x.magnitude := by
  have spec := significand_spec finite
  rcases Nat.eq_zero_or_pos x.significand with zero | positive
  · have none : x.magnitude = 0 := by
      simp only [Nat.pow_eq] at spec
      omega
    have num : x.ratio.1 = 0 := by
      unfold ratio
      split <;> simp [zero]
    rw [ofRatio, if_pos num, none]
  · have log := ratioLog2_ratio positive
    have leading := max_log2_significand finite positive
    have magnitude : (x.scale + 1074).toNat * Nat.pow 2 52 + x.significand = x.magnitude := by
      rcases spec with ⟨-, scale, same⟩ | ⟨-, -, -, -, same⟩
      · simp [scale, same]
      · exact same.symm
    have bounded : min x.magnitude infinite = x.magnitude :=
      Nat.min_eq_left (of_decide_eq_true finite : x.magnitude < infinite).le
    -- the division by the scale is exact, so nothing is rounded
    by_cases up : 0 ≤ x.scale
    · have pair : x.ratio = (x.significand * Nat.pow 2 x.scale.toNat, 1) := if_pos up
      have power : 0 < Nat.pow 2 x.scale.toNat := Nat.pow_pos Nat.two_pos
      rw [pair] at log ⊢
      rw [ofRatio, if_neg (Nat.mul_pos positive power).ne', log, leading]
      dsimp only
      rw [if_pos up, Nat.one_mul, roundDiv_self _ power, magnitude, bounded]
    · have pair : x.ratio = (x.significand, Nat.pow 2 (-x.scale).toNat) := if_neg up
      have power : 0 < Nat.pow 2 (-x.scale).toNat := Nat.pow_pos Nat.two_pos
      rw [pair] at log ⊢
      rw [ofRatio, if_neg positive.ne', log, leading]
      dsimp only
      rw [if_neg up, roundDiv_self _ power, magnitude, bounded]

end Double

namespace Text

theorem natChars_mul_ten {m : Nat} (h : 0 < m) : natChars (m * 10) = natChars m ++ ['0'] := by
  rw [natChars, natChars, ← Nat.toDigits_zero 10,
    Nat.toDigits_append_toDigits (by decide) h (by decide), Nat.add_zero, Nat.mul_comm]

theorem length_natChars_le_iff {m k : Nat} (hk : 0 < k) :
    (natChars m).length ≤ k ↔ m < Nat.pow 10 k :=
  Nat.length_toDigits_le_iff (by decide) hk

end Text

namespace Decimal

variable {negative : Bool} {m : Nat} {e : Int}

/-- The value of a decimal may be rounded with any power of ten below the line that takes up a
negative exponent. -/
theorem round_eq {k : Nat} (h : 0 ≤ e + k) :
    (if 0 ≤ e then Double.ofRatio negative (m * Nat.pow 10 e.toNat) 1
      else Double.ofRatio negative m (Nat.pow 10 (-e).toNat)) =
    Double.ofRatio negative (m * Nat.pow 10 (e + k).toNat) (Nat.pow 10 k) := by
  have power (n : Nat) : 0 < Nat.pow 10 n := Nat.pow_pos (by decide)
  split
  · have split : (e + k).toNat = e.toNat + k := by omega
    rw [← Double.ofRatio_mul negative Nat.one_pos (power k), Nat.one_mul, Nat.mul_assoc, split]
    simp only [Nat.pow_eq, Nat.pow_add]
  · have split : k = (-e).toNat + (e + k).toNat := by omega
    rw [← Double.ofRatio_mul negative (power _) (power (e + k).toNat)]
    conv_rhs => rw [split]
    simp only [Nat.pow_eq, Nat.pow_add]
    congr 4
    omega

/-- A zero at the end of the mantissa makes up for one less in the exponent. -/
theorem toDouble_mul_ten : toDouble negative ⟨m * 10, e - 1⟩ = toDouble negative ⟨m, e⟩ := by
  rcases Nat.eq_zero_or_pos m with rfl | pos
  · simp [toDouble]
  · have size : e - 1 + ((Text.natChars (m * 10)).length : Int) = e + (Text.natChars m).length := by
      rw [Text.natChars_mul_ten pos, List.length_append, List.length_singleton]
      omega
    have num : m * 10 * Nat.pow 10 (e - 1 + ((-e).toNat + 1 : Nat)).toNat =
        m * Nat.pow 10 (e + (-e).toNat).toNat * 10 := by
      rw [Nat.mul_right_comm]
      congr 3
      omega
    have positive : m * 10 ≠ 0 := by omega
    simp only [toDouble, size, pos.ne', positive]
    rw [round_eq (e := e - 1) (k := (-e).toNat + 1) (by omega), num,
      round_eq (e := e) (k := (-e).toNat) (by omega), Nat.pow_eq, Nat.pow_eq, Nat.pow_eq,
      Nat.pow_succ, Double.ofRatio_mul negative (Nat.pow_pos (by decide)) (by decide)]

/-- Any number of zeros at the end of the mantissa make up for as much less in the exponent. -/
theorem toDouble_mul_pow (k : Nat) :
    toDouble negative ⟨m * 10 ^ k, e - k⟩ = toDouble negative ⟨m, e⟩ := by
  induction k with
  | zero => simp
  | succ k ih =>
    rw [← ih, ← toDouble_mul_ten (m := m * 10 ^ k), Nat.pow_succ, ← Nat.mul_assoc]
    congr 2
    omega

theorem toDouble_dropZeros (fuel : Nat) (d : Decimal) :
    (dropZeros fuel d).toDouble negative = d.toDouble negative := by
  induction fuel generalizing d with
  | zero => rfl
  | succ fuel ih =>
    rw [dropZeros]
    split
    · rename_i zeros
      rw [ih, ← toDouble_mul_ten, Nat.div_mul_cancel (Nat.dvd_of_mod_eq_zero zeros.2),
        Int.add_sub_cancel]
    · rfl

/-- The value of a decimal with neither a huge nor a tiny exponent is rounded. -/
theorem toDouble_eq {k : Nat} (positive : 0 < m) (low : -400 ≤ e + (Text.natChars m).length)
    (high : e + (Text.natChars m).length ≤ 400) (h : 0 ≤ e + k) :
    toDouble negative ⟨m, e⟩ =
      Double.ofRatio negative (m * Nat.pow 10 (e + k).toNat) (Nat.pow 10 k) := by
  unfold toDouble
  dsimp only
  rw [if_neg (by omega), if_neg (by omega), round_eq h]

/-- The number of digits of the exact value of a binary fraction. -/
theorem length_exact {num k limit : Nat} (positive : 0 < num) (small : num < 10 ^ limit)
    (few : 2 ^ k ≤ 10 ^ limit) :
    (Text.natChars (num * 5 ^ k)).length ≤ limit + k ∧
      k ≤ (Text.natChars (num * 5 ^ k)).length + limit := by
  constructor
  · rcases Nat.eq_zero_or_pos (limit + k) with none | some
    · rw [Nat.eq_zero_of_add_eq_zero_right none, Nat.pow_zero] at small
      omega
    · apply (Text.length_natChars_le_iff some).2
      calc num * 5 ^ k
          < 10 ^ limit * 5 ^ k := Nat.mul_lt_mul_of_pos_right small (by positivity)
        _ ≤ 10 ^ limit * 10 ^ k := Nat.mul_le_mul_left _ (Nat.pow_le_pow_left (by decide) k)
        _ = 10 ^ (limit + k) := (Nat.pow_add ..).symm
  · by_contra tiny
    have digits : 0 < (Text.natChars (num * 5 ^ k)).length := Nat.length_toDigits_pos
    have short := (Text.length_natChars_le_iff (m := num * 5 ^ k) (k := k - limit) (by omega)).1
      (by omega)
    have bound : 10 ^ (k - limit) * 10 ^ limit ≤ num * 5 ^ k * 10 ^ limit := by
      calc 10 ^ (k - limit) * 10 ^ limit
          = 2 ^ k * 5 ^ k := by rw [← Nat.pow_add, Nat.sub_add_cancel (by omega), ← Nat.mul_pow]
        _ ≤ 10 ^ limit * 5 ^ k := Nat.mul_le_mul_right _ few
        _ = 5 ^ k * 10 ^ limit := Nat.mul_comm ..
        _ ≤ num * 5 ^ k * 10 ^ limit :=
          Nat.mul_le_mul_right _ (Nat.le_mul_of_pos_left _ positive)
    have reached := Nat.le_of_mul_le_mul_right bound (by positivity)
    exact absurd short (Nat.not_lt.2 reached)

/-- The exact value of a binary fraction is rounded when it is neither huge nor tiny. -/
theorem toDouble_exact {num k : Nat} (positive : 0 < num) (small : num < 10 ^ 400)
    (few : 2 ^ k ≤ 10 ^ 400) :
    (exact num k).toDouble negative = Double.ofRatio negative num (Nat.pow 2 k) := by
  obtain ⟨high, low⟩ := length_exact positive small few
  have power : 0 < 5 ^ k := by positivity
  have ten : 10 ^ k = 2 ^ k * 5 ^ k := by rw [← Nat.mul_pow]
  clear small few
  unfold exact
  rw [Nat.pow_eq, toDouble_eq (k := k) (Nat.mul_pos positive power) (by omega) (by omega)
    (by omega), Int.add_left_neg, Int.toNat_zero, Nat.pow_eq, Nat.pow_zero, Nat.mul_one,
    Nat.pow_eq, ten]
  exact Double.ofRatio_mul negative (Nat.pow_pos Nat.two_pos) power

/-- The sign of a decimal is all that it contributes to the sign of its number. -/
theorem toDouble_spec (d : Decimal) :
    ∃ magnitude ≤ Double.infinite, ∀ negative,
      d.toDouble negative = Double.ofMagnitude negative magnitude := by
  have ratio (num den : Nat) : ∃ magnitude ≤ Double.infinite, ∀ negative,
      Double.ofRatio negative num den = Double.ofMagnitude negative magnitude := by
    unfold Double.ofRatio
    split
    · exact ⟨0, Nat.zero_le _, fun _ => rfl⟩
    · exact ⟨_, Nat.min_le_right .., fun _ => rfl⟩
  unfold toDouble
  dsimp only
  split
  · exact ⟨0, Nat.zero_le _, fun _ => rfl⟩
  split
  · exact ⟨Double.infinite, Nat.le_refl _, fun _ => rfl⟩
  split
  · exact ratio ..
  · exact ratio ..

/-- A decimal that rounds to a number rounds, with any sign, to a number of that magnitude. -/
theorem toDouble_of_reads {d : Decimal} {x : Double} (finite : x.isFinite = true)
    (reads : d.toDouble false = Double.ofMagnitude false x.magnitude) :
    d.toDouble negative = Double.ofMagnitude negative x.magnitude := by
  obtain ⟨magnitude, bound, spec⟩ := toDouble_spec d
  have small : x.magnitude < Double.infinite := of_decide_eq_true finite
  rw [spec, Double.ofMagnitude_inj bound small.le ((spec false).symm.trans reads)]

theorem reads_of_onGrid? {tie : Tie} {reads : Decimal → Bool} {num den size : Nat} {p : Int}
    {d : Decimal} (h : onGrid? tie reads num den p size = some d) : reads d = true := by
  unfold onGrid? at h
  dsimp only at h
  split at h
  · rename_i below above
    rw [← Option.some.inj h, apply_ite reads, below, above, ite_self]
  · rename_i below _
    rw [← Option.some.inj h]
    exact below
  · rename_i above
    rw [← Option.some.inj h]
    exact above
  · cases h

end Decimal

namespace Double

variable {x : Double} {negative : Bool}

/-- The exact decimal value of a finite number rounds to it. -/
theorem toDouble_exact (finite : x.isFinite = true) (positive : x.isZero = false) :
    (Decimal.exact x.ratio.1 (-x.scale).toNat).toDouble negative =
      ofMagnitude negative x.magnitude := by
  have spec := significand_spec finite
  have nonzero : x.magnitude ≠ 0 := by simpa [isZero] using positive
  have significand : 0 < x.significand ∧ x.significand < 2 ^ 53 := by
    simp only [Nat.pow_eq] at spec
    omega
  rw [← ofRatio_ratio finite]
  by_cases up : 0 ≤ x.scale
  · have pair : x.ratio = (x.significand * Nat.pow 2 x.scale.toNat, 1) := if_pos up
    have power : 2 ^ x.scale.toNat ≤ 2 ^ 971 := pow_le_pow_right₀ one_le_two (by omega)
    have whole : (-x.scale).toNat = 0 := by omega
    rw [pair, whole]
    apply Decimal.toDouble_exact (k := 0)
    · exact Nat.mul_pos significand.1 (Nat.pow_pos Nat.two_pos)
    · calc x.significand * 2 ^ x.scale.toNat
          < 2 ^ 53 * 2 ^ x.scale.toNat :=
            Nat.mul_lt_mul_of_pos_right significand.2 (by positivity)
        _ ≤ 2 ^ 53 * 2 ^ 971 := Nat.mul_le_mul_left _ power
        _ ≤ 10 ^ 400 := by decide +kernel
    · decide +kernel
  · have pair : x.ratio = (x.significand, Nat.pow 2 (-x.scale).toNat) := if_neg up
    have few : 2 ^ (-x.scale).toNat ≤ 2 ^ 1074 := pow_le_pow_right₀ one_le_two (by omega)
    rw [pair]
    apply Decimal.toDouble_exact significand.1
    · exact significand.2.trans (by decide +kernel)
    · exact few.trans (by decide +kernel)

/-- The decimal that a finite number is written as rounds to it. -/
theorem toDouble_decimalOf (finite : x.isFinite = true) (negative : Bool) (tie : Tie) :
    (x.decimalOf tie).toDouble negative = ofMagnitude negative x.magnitude := by
  unfold decimalOf
  split
  · rename_i zero
    rw [beq_iff_eq.1 zero]
    rfl
  dsimp only
  split
  · rename_i d found
    obtain ⟨k, -, grid⟩ := List.exists_of_findSome?_eq_some found
    rw [Decimal.toDouble_dropZeros]
    exact Decimal.toDouble_of_reads finite (beq_iff_eq.1 (Decimal.reads_of_onGrid? grid))
  · rename_i positive _ _
    exact toDouble_exact finite (Bool.eq_false_of_not_eq_true positive)

/-- A zero is written without an exponent. -/
theorem exponent_decimalOf (finite : x.isFinite = true) {tie : Tie}
    (zero : (x.decimalOf tie).mantissa = 0) : (x.decimalOf tie).exponent = 0 := by
  have rounded := toDouble_decimalOf finite false tie
  rw [Decimal.toDouble, zero, if_pos (.inl rfl)] at rounded
  have none : 0 = x.magnitude := ofMagnitude_inj (Nat.zero_le _)
    (Nat.le_of_lt (of_decide_eq_true finite : x.magnitude < infinite)) rounded
  have isZero : x.isZero = true := beq_iff_eq.2 none.symm
  rw [decimalOf, if_pos isZero]

end Double

end Mutation
