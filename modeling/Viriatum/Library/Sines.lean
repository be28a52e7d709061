import Mathlib.Analysis.Complex.Basic
import Mathlib.Analysis.Complex.Exponential
import Mathlib.Analysis.Complex.Trigonometric
import Mathlib.Tactic.LinearCombination

/-!
# Scaled sines of the whole numbers

The integer part of `2 ^ 32` times the absolute value of a sine, from the powers of a point of the complex plane with
integer coordinates that is close to the sine and the cosine of one, each scaled by `2 ^ 60`.
-/

namespace Viriatum.Library.Sines

open Complex

/-- The real and the imaginary part of the first terms of the exponential series. -/
theorem sum_exp_I (n : ℕ) : ∑ m ∈ Finset.range (2 * n), I ^ m / (m.factorial : ℂ) =
    ((∑ k ∈ Finset.range n, (-1 : ℚ) ^ k / ((2 * k).factorial : ℚ) : ℚ) : ℂ) +
      ((∑ k ∈ Finset.range n, (-1 : ℚ) ^ k / ((2 * k + 1).factorial : ℚ) : ℚ) : ℂ) * I := by
  induction n with
  | zero => simp
  | succ n ih =>
      rw [Nat.mul_succ, Finset.sum_range_succ, Finset.sum_range_succ, ih, Finset.sum_range_succ,
        Finset.sum_range_succ, pow_succ, pow_mul, I_sq]
      push_cast
      ring

/-- The cosine of one, scaled. -/
def cosine : ℤ := 622926147424044489

/-- The sine of one, scaled. -/
def sine : ℤ := 970149993887725314

/-- The coordinates of a power of the point. -/
def power : ℕ → ℤ × ℤ
  | 0 => (1, 0)
  | n + 1 =>
      let (x, y) := power n
      (x * cosine - y * sine, x * sine + y * cosine)

/-- The point with some coordinates. -/
noncomputable def point (p : ℤ × ℤ) : ℂ := p.1 + p.2 * Complex.I

/-! ## The point and the exponential -/

theorem norm_exp_sub_sum : ‖exp I - ∑ m ∈ Finset.range 22, I ^ m / (m.factorial : ℂ)‖ ≤ 1 / 2 ^ 59 := by
  refine (Complex.exp_bound (by simp) (by norm_num)).trans ?_
  simp
  norm_num [Nat.factorial]

theorem abs_cast_le {q : ℚ} (h : |q| ≤ 1 / 2 ^ 60) : |(q : ℝ)| ≤ 1 / 2 ^ 60 := by
  have hcast := (Rat.cast_le (K := ℝ)).mpr h
  rw [Rat.cast_abs] at hcast
  simpa using hcast

theorem norm_sum_sub :
    ‖∑ m ∈ Finset.range 22, I ^ m / (m.factorial : ℂ) - point (cosine, sine) / 2 ^ 60‖ ≤ 1 / 2 ^ 59 := by
  have hcos : |(∑ k ∈ Finset.range 11, (-1 : ℚ) ^ k / ((2 * k).factorial : ℚ)) - cosine / 2 ^ 60| ≤ 1 / 2 ^ 60 := by
    norm_num [Finset.sum_range_succ, Nat.factorial, cosine, abs_le]
  have hsin : |(∑ k ∈ Finset.range 11, (-1 : ℚ) ^ k / ((2 * k + 1).factorial : ℚ)) - sine / 2 ^ 60| ≤ 1 / 2 ^ 60 := by
    norm_num [Finset.sum_range_succ, Nat.factorial, sine, abs_le]
  rw [show 22 = 2 * 11 from rfl, sum_exp_I]
  generalize (∑ k ∈ Finset.range 11, (-1 : ℚ) ^ k / ((2 * k).factorial : ℚ)) = c at *
  generalize (∑ k ∈ Finset.range 11, (-1 : ℚ) ^ k / ((2 * k + 1).factorial : ℚ)) = s at *
  have heq : (c : ℂ) + s * I - point (cosine, sine) / 2 ^ 60 =
      (((c - cosine / 2 ^ 60 : ℚ) : ℝ) : ℂ) + (((s - sine / 2 ^ 60 : ℚ) : ℝ) : ℂ) * I := by
    simp only [point]
    push_cast
    ring
  rw [heq]
  have hcos' : |((c - cosine / 2 ^ 60 : ℚ) : ℝ)| ≤ 1 / 2 ^ 60 := abs_cast_le hcos
  have hsin' : |((s - sine / 2 ^ 60 : ℚ) : ℝ)| ≤ 1 / 2 ^ 60 := abs_cast_le hsin
  calc _ ≤ ‖(((c - cosine / 2 ^ 60 : ℚ) : ℝ) : ℂ)‖ + ‖(((s - sine / 2 ^ 60 : ℚ) : ℝ) : ℂ) * I‖ := norm_add_le _ _
    _ = |((c - cosine / 2 ^ 60 : ℚ) : ℝ)| + |((s - sine / 2 ^ 60 : ℚ) : ℝ)| := by
        rw [norm_mul, Complex.norm_I, mul_one, Complex.norm_real, Complex.norm_real]
        rfl
    _ ≤ 1 / 2 ^ 59 := by linarith

theorem norm_exp_sub : ‖exp I - point (cosine, sine) / 2 ^ 60‖ ≤ 1 / 2 ^ 58 := by
  calc _ ≤ _ := norm_sub_le_norm_sub_add_norm_sub _ (∑ m ∈ Finset.range 22, I ^ m / (m.factorial : ℂ)) _
    _ ≤ 1 / 2 ^ 59 + 1 / 2 ^ 59 := add_le_add norm_exp_sub_sum norm_sum_sub
    _ = 1 / 2 ^ 58 := by norm_num

theorem point_power (n : ℕ) : point (power n) = point (cosine, sine) ^ n := by
  induction n with
  | zero => simp [point, power]
  | succ n ih =>
      rw [pow_succ, ← ih]
      simp only [point, power]
      push_cast
      linear_combination -((power n).2 * sine : ℂ) * Complex.I_sq

theorem norm_point_le : ‖point (cosine, sine) / 2 ^ 60‖ ≤ 1 := by
  have h : ‖point (cosine, sine)‖ ^ 2 = (cosine ^ 2 + sine ^ 2 : ℤ) := by
    rw [← Complex.normSq_eq_norm_sq, point]
    have := Complex.normSq_add_mul_I (cosine : ℝ) (sine : ℝ)
    push_cast
    exact_mod_cast this
  have hle : ‖point (cosine, sine)‖ ≤ 2 ^ 60 := by
    apply le_of_sq_le_sq _ (by positivity)
    rw [h]
    norm_num [cosine, sine]
  rw [norm_div]
  simp
  linarith

theorem norm_pow_sub_pow_le {z w : ℂ} (hz : ‖z‖ ≤ 1) (hw : ‖w‖ ≤ 1) (n : ℕ) : ‖z ^ n - w ^ n‖ ≤ n * ‖z - w‖ := by
  induction n with
  | zero => simp
  | succ n ih =>
      have heq : z ^ (n + 1) - w ^ (n + 1) = z ^ n * (z - w) + (z ^ n - w ^ n) * w := by ring
      have hpow : ‖z ^ n‖ ≤ 1 := by
        rw [norm_pow]
        exact pow_le_one₀ (norm_nonneg z) hz
      calc ‖z ^ (n + 1) - w ^ (n + 1)‖ ≤ ‖z ^ n‖ * ‖z - w‖ + ‖z ^ n - w ^ n‖ * ‖w‖ := by
            rw [heq, ← norm_mul, ← norm_mul]
            exact norm_add_le _ _
        _ ≤ 1 * ‖z - w‖ + n * ‖z - w‖ * 1 := by gcongr
        _ = (n + 1 : ℕ) * ‖z - w‖ := by push_cast; ring

theorem abs_sin_sub_le (n : ℕ) : |Real.sin n - ((power n).2 : ℝ) / (2 ^ 60) ^ n| ≤ (n : ℝ) / 2 ^ 58 := by
  have hexp : Complex.exp I ^ n = Complex.exp (n * I) := (Complex.exp_nat_mul I n).symm
  have hsin : (Complex.exp (n * I)).im = Real.sin n := by
    rw [← Complex.ofReal_natCast, Complex.exp_ofReal_mul_I_im]
  have him : ((point (cosine, sine) / 2 ^ 60) ^ n).im = ((power n).2 : ℝ) / (2 ^ 60) ^ n := by
    rw [div_pow, ← point_power]
    have : point (power n) / (2 ^ 60) ^ n = (((power n).1 / (2 ^ 60) ^ n : ℝ) : ℂ) + (((power n).2 / (2 ^ 60) ^ n : ℝ) : ℂ) * I := by
      simp only [point]
      push_cast
      ring
    rw [this]
    simp only [Complex.add_im, Complex.ofReal_im, Complex.mul_im, Complex.I_im, Complex.ofReal_re, Complex.I_re]
    ring
  rw [← hsin, ← hexp, ← him, ← Complex.sub_im]
  calc _ ≤ ‖exp I ^ n - (point (cosine, sine) / 2 ^ 60) ^ n‖ := Complex.abs_im_le_norm _
    _ ≤ n * ‖exp I - point (cosine, sine) / 2 ^ 60‖ :=
        norm_pow_sub_pow_le (by rw [Complex.norm_exp]; simp) norm_point_le n
    _ ≤ n * (1 / 2 ^ 58) := by gcongr; exact norm_exp_sub
    _ = n / 2 ^ 58 := by ring

/-- The power tells that the sine of a number, scaled by `2 ^ 32`, has a given integer part. -/
def Near (n t : ℕ) : Prop :=
  t * 2 ^ (60 * n + 26) + n * 2 ^ (60 * n) ≤ 2 ^ 58 * (power n).2.natAbs ∧
    2 ^ 58 * (power n).2.natAbs + n * 2 ^ (60 * n) < (t + 1) * 2 ^ (60 * n + 26)

instance (n t : ℕ) : Decidable (Near n t) := inferInstanceAs (Decidable (_ ∧ _))

theorem abs_scaled_sin_sub_le (n : ℕ) :
    |(2 ^ 58 * ((2 ^ 60) ^ n * |Real.sin n|) - 2 ^ 58 * ((power n).2.natAbs : ℝ))| ≤ (n : ℝ) * (2 ^ 60) ^ n := by
  have hpos : (0 : ℝ) < (2 ^ 60) ^ n := by positivity
  have habs : ((power n).2.natAbs : ℝ) / (2 ^ 60) ^ n = |((power n).2 : ℝ) / (2 ^ 60) ^ n| := by
    rw [abs_div, abs_of_pos hpos, Nat.cast_natAbs, Int.cast_abs]
  have hdiff : |(|Real.sin n| - ((power n).2.natAbs : ℝ) / (2 ^ 60) ^ n)| ≤ (n : ℝ) / 2 ^ 58 := by
    rw [habs]
    exact (abs_abs_sub_abs_le_abs_sub _ _).trans (abs_sin_sub_le n)
  have hfactor : 2 ^ 58 * ((2 ^ 60) ^ n * |Real.sin n|) - 2 ^ 58 * ((power n).2.natAbs : ℝ) =
      (2 ^ 58 * (2 ^ 60) ^ n : ℝ) * (|Real.sin n| - ((power n).2.natAbs : ℝ) / (2 ^ 60) ^ n) := by field_simp
  rw [hfactor, abs_mul, abs_of_pos (by positivity)]
  calc _ ≤ (2 ^ 58 * (2 ^ 60) ^ n : ℝ) * ((n : ℝ) / 2 ^ 58) := by gcongr
    _ = (n : ℝ) * (2 ^ 60) ^ n := by field_simp

theorem floor_sin {n t : ℕ} (h : Near n t) : ⌊4294967296 * |Real.sin n|⌋₊ = t := by
  obtain ⟨hlow, hhigh⟩ := h
  obtain ⟨h1, h2⟩ := abs_le.mp (abs_scaled_sin_sub_le n)
  generalize (power n).2.natAbs = b at *
  have hlow' : (t : ℝ) * (2 ^ 60) ^ n * 2 ^ 26 + n * (2 ^ 60) ^ n ≤ 2 ^ 58 * b := by
    rw [pow_add, pow_mul] at hlow
    rw [mul_assoc]
    exact_mod_cast hlow
  have hhigh' : 2 ^ 58 * (b : ℝ) + n * (2 ^ 60) ^ n < (t + 1) * (2 ^ 60) ^ n * 2 ^ 26 := by
    rw [pow_add, pow_mul] at hhigh
    rw [mul_assoc]
    exact_mod_cast hhigh
  rw [Nat.floor_eq_iff (by positivity)]
  constructor
  · have : (t : ℝ) * ((2 ^ 60) ^ n * 2 ^ 26) ≤ (4294967296 * |Real.sin n|) * ((2 ^ 60) ^ n * 2 ^ 26) := by linarith
    exact le_of_mul_le_mul_right this (by positivity)
  · have : (4294967296 * |Real.sin n|) * ((2 ^ 60) ^ n * 2 ^ 26) < (t + 1) * ((2 ^ 60) ^ n * 2 ^ 26) := by linarith
    exact lt_of_mul_lt_mul_right this (by positivity)

end Viriatum.Library.Sines
