import Mathlib.Algebra.Order.BigOperators.Group.List
import Mathlib.Data.Int.Log
import Procluster.Library.DecimalText

/-!
Binary floating point over the rationals. A value is rounded to so many significant bits,
a tie going to the even mantissa; the exponent has no bounds, so nothing underflows or
overflows. A rational stands for the float nearest to it, as a decimal literal does.
-/
namespace FloatRounding
open DecimalText

def unit (p : ℕ) (x : ℚ) : ℚ := 2 ^ (Int.log 2 |x| + 1 - p)

def nearest (p : ℕ) (x : ℚ) : ℚ := roundHalfEven (x / unit p x) * unit p x

/-- The value of the IEEE 754 double nearest to a rational. -/
def float64 (x : ℚ) : ℚ := nearest 53 x

/- The operators of Go and JavaScript on two doubles: the exact result, rounded once. -/
def fadd (a b : ℚ) : ℚ := float64 (float64 a + float64 b)

def fsub (a b : ℚ) : ℚ := float64 (float64 a - float64 b)

def fmul (a b : ℚ) : ℚ := float64 (float64 a * float64 b)

def fdiv (a b : ℚ) : ℚ := float64 (float64 a / float64 b)

/-- The decimal of so many digits that is nearest to a value. -/
def decimal (digits : ℕ) (x : ℚ) : ℚ :=
  let place := (10 : ℚ) ^ (Int.log 10 |x| + 1 - digits)
  roundHalfEven (x / place) * place

/-- The decimal that is printed for a double: the fewest digits that name it, and every
    double has a name of seventeen. -/
def shortest (x : ℚ) : ℚ :=
  (((List.range 17).map fun d => decimal (d + 1) (float64 x)).find? fun y => float64 y = float64 x).getD
    (float64 x)

section Rounded
variable {p : ℕ}

theorem unit_pos (x : ℚ) : 0 < unit p x := zpow_pos (by norm_num) _

theorem unit_neg (x : ℚ) : unit p (-x) = unit p x := by rw [unit, unit, abs_neg]

@[simp] theorem nearest_zero : nearest p 0 = 0 := by
  have zero : roundHalfEven 0 = 0 := by exact_mod_cast roundHalfEven_intCast 0
  rw [nearest, zero_div, zero, Int.cast_zero, zero_mul]

@[simp] theorem nearest_neg (x : ℚ) : nearest p (-x) = -nearest p x := by
  rw [nearest, unit_neg, neg_div, roundHalfEven_neg, nearest]
  push_cast
  ring

theorem unit_scale {x : ℚ} (positive : 0 < x) :
    2 ^ ((p : ℤ) - 1) * unit p x ≤ x ∧ x < 2 ^ (p : ℤ) * unit p x := by
  have low := Int.zpow_log_le_self (b := 2) (by norm_num) positive
  have high := Int.lt_zpow_succ_log_self (b := 2) (by norm_num) x
  push_cast at low high
  rw [unit, abs_of_pos positive, ← zpow_add₀ (by norm_num), ← zpow_add₀ (by norm_num),
    show (p : ℤ) - 1 + (Int.log 2 x + 1 - p) = Int.log 2 x by ring,
    show (p : ℤ) + (Int.log 2 x + 1 - p) = Int.log 2 x + 1 by ring]
  exact ⟨low, high⟩

theorem nearest_error (x : ℚ) : |x - nearest p x| ≤ unit p x / 2 := by
  have positive := unit_pos (p := p) x
  have scaled : x - nearest p x = (x / unit p x - roundHalfEven (x / unit p x)) * unit p x := by
    rw [nearest, sub_mul, div_mul_cancel₀ _ positive.ne']
  rw [scaled, abs_mul, abs_of_pos positive]
  have near := roundHalfEven_near (x / unit p x)
  nlinarith

/-- The relative error is at most a half in the last bit. -/
theorem nearest_relative (x : ℚ) : |x - nearest p x| ≤ |x| / 2 ^ p := by
  rcases eq_or_ne x 0 with rfl | nonzero
  · simp
  · have absolute := nearest_error (p := p) x
    have positive := abs_pos.mpr nonzero
    have scale := (unit_scale (p := p) positive).1
    have same : unit p |x| = unit p x := by rw [unit, unit, abs_abs]
    rw [same, zpow_sub₀ (by norm_num), zpow_natCast, zpow_one] at scale
    have power : (0 : ℚ) < 2 ^ p := by positivity
    rw [le_div_iff₀ power]
    nlinarith

theorem nearest_nonneg {x : ℚ} (nonneg : 0 ≤ x) : 0 ≤ nearest p x := by
  have mantissa := roundHalfEven_nonneg (div_nonneg nonneg (unit_pos (p := p) x).le)
  exact mul_nonneg (by exact_mod_cast mantissa) (unit_pos x).le

theorem mantissa_bounds {x : ℚ} (positive : 0 < x) (some_bits : 1 ≤ p) :
    2 ^ (p - 1) ≤ roundHalfEven (x / unit p x) ∧ roundHalfEven (x / unit p x) ≤ 2 ^ p := by
  obtain ⟨low, high⟩ := unit_scale (p := p) positive
  have scale := unit_pos (p := p) x
  have below : ((2 ^ (p - 1) : ℤ) : ℚ) ≤ x / unit p x := by
    rw [le_div_iff₀ scale]
    rw [show (p : ℤ) - 1 = ((p - 1 : ℕ) : ℤ) by omega, zpow_natCast] at low
    push_cast
    exact low
  have above : x / unit p x ≤ ((2 ^ p : ℤ) : ℚ) := by
    rw [div_le_iff₀ scale]
    rw [zpow_natCast] at high
    push_cast
    exact high.le
  have least := nearest_mono roundHalfEven_near below
  have most := nearest_mono roundHalfEven_near above
  rw [roundHalfEven_intCast] at least most
  exact ⟨least, most⟩

/- In one binade the mantissas keep the order, and a lower binade ends where the next one
   begins. -/
theorem nearest_mono_pos (some_bits : 1 ≤ p) {x y : ℚ} (positive : 0 < x) (below : x ≤ y) :
    nearest p x ≤ nearest p y := by
  have later := positive.trans_le below
  have order : Int.log 2 |x| ≤ Int.log 2 |y| := by
    rw [abs_of_pos positive, abs_of_pos later]
    exact Int.log_mono_right positive below
  rcases order.eq_or_lt with same | apart
  · have unit_eq : unit p x = unit p y := by rw [unit, unit, same]
    rw [nearest, nearest, unit_eq]
    have quotients := div_le_div_of_nonneg_right below (unit_pos (p := p) y).le
    have mantissas := nearest_mono roundHalfEven_near quotients
    exact mul_le_mul_of_nonneg_right (by exact_mod_cast mantissas) (unit_pos y).le
  · have most := (mantissa_bounds positive some_bits).2
    have least := (mantissa_bounds later some_bits).1
    have ends : 2 ^ p * unit p x ≤ 2 ^ (p - 1) * unit p y := by
      rw [unit, unit, ← zpow_natCast, ← zpow_natCast, ← zpow_add₀ (by norm_num), ← zpow_add₀ (by norm_num)]
      exact zpow_le_zpow_right₀ (by norm_num) (by push_cast [some_bits]; omega)
    calc nearest p x ≤ 2 ^ p * unit p x :=
          mul_le_mul_of_nonneg_right (by exact_mod_cast most) (unit_pos x).le
      _ ≤ 2 ^ (p - 1) * unit p y := ends
      _ ≤ nearest p y := mul_le_mul_of_nonneg_right (by exact_mod_cast least) (unit_pos y).le

theorem nearest_monotone (some_bits : 1 ≤ p) : Monotone (nearest p) := by
  intro x y below
  rcases lt_trichotomy x 0 with negative | rfl | positive
  · by_cases crosses : 0 ≤ y
    · have mirrored := nearest_nonneg (p := p) (neg_nonneg.mpr negative.le)
      rw [nearest_neg] at mirrored
      linarith [nearest_nonneg (p := p) crosses]
    · have mirrored := nearest_mono_pos some_bits (neg_pos.mpr (not_le.mp crosses)) (neg_le_neg below)
      rw [nearest_neg, nearest_neg] at mirrored
      linarith
  · rw [nearest_zero]
    exact nearest_nonneg below
  · exact nearest_mono_pos some_bits positive below

/- A value with at most so many bits is its own float: below the last of them it has none. -/
theorem nearest_of_bits {m k : ℤ} (short : |m| < 2 ^ p) : nearest p (m * 2 ^ k) = m * 2 ^ k := by
  rcases eq_or_ne m 0 with rfl | nonzero
  · simp
  · have size : Int.log 2 |(m : ℚ) * 2 ^ k| < p + k := by
      have some_value : (m : ℚ) * 2 ^ k ≠ 0 :=
        mul_ne_zero (Int.cast_ne_zero.mpr nonzero) (zpow_ne_zero _ (by norm_num))
      have positive : 0 < |(m : ℚ) * 2 ^ k| := abs_pos.mpr some_value
      rw [← Int.lt_zpow_iff_log_lt (by norm_num) positive]
      have cast : (|m| : ℚ) < 2 ^ p := by exact_mod_cast short
      push_cast
      rw [zpow_add₀ (by norm_num), zpow_natCast, abs_mul, abs_of_pos (zpow_pos (by norm_num : (0 : ℚ) < 2) k)]
      exact mul_lt_mul_of_pos_right cast (zpow_pos (by norm_num) k)
    obtain ⟨d, places⟩ : ∃ d : ℕ, k = Int.log 2 |(m : ℚ) * 2 ^ k| + 1 - p + d :=
      ⟨(k - (Int.log 2 |(m : ℚ) * 2 ^ k| + 1 - p)).toNat, by omega⟩
    have whole : (m : ℚ) * 2 ^ k / unit p (m * 2 ^ k) = ((m * 2 ^ d : ℤ) : ℚ) := by
      rw [div_eq_iff (unit_pos _).ne', unit]
      push_cast
      rw [mul_assoc, ← zpow_natCast, ← zpow_add₀ (by norm_num)]
      congr 2
      omega
    rw [nearest, whole, roundHalfEven_intCast, ← whole, div_mul_cancel₀ _ (unit_pos _).ne']

/- A float is its own nearest float; a mantissa of 2 ^ p is one of the next binade. -/
theorem nearest_nearest (some_bits : 1 ≤ p) (x : ℚ) :
    nearest p (nearest p x) = nearest p x := by
  have own : ∀ {y : ℚ}, 0 < y → nearest p (nearest p y) = nearest p y := by
    intro y positive
    obtain ⟨least, most⟩ := mantissa_bounds positive some_bits
    have nonneg : (0 : ℤ) ≤ 2 ^ (p - 1) := by positivity
    rcases most.eq_or_lt with top | short
    · have next : nearest p y = ((1 : ℤ) : ℚ) * 2 ^ ((p : ℤ) + (Int.log 2 |y| + 1 - p)) := by
        rw [nearest, top, unit, zpow_add₀ (by norm_num), zpow_natCast]
        push_cast
        ring
      rw [next]
      apply nearest_of_bits
      rw [abs_one]
      exact one_lt_pow₀ (by norm_num) (by omega)
    · have value : nearest p y =
          (roundHalfEven (y / unit p y) : ℚ) * 2 ^ (Int.log 2 |y| + 1 - (p : ℤ)) := rfl
      rw [value]
      apply nearest_of_bits
      rw [abs_of_nonneg (nonneg.trans least)]
      exact short
  rcases lt_trichotomy x 0 with negative | rfl | positive
  · have mirrored := own (neg_pos.mpr negative)
    simpa using mirrored
  · simp
  · exact own positive

end Rounded

section Double

theorem float64_mono : Monotone float64 := nearest_monotone (by norm_num)

@[simp] theorem float64_zero : float64 0 = 0 := nearest_zero

@[simp] theorem float64_neg (x : ℚ) : float64 (-x) = -float64 x := nearest_neg x

@[simp] theorem float64_float64 (x : ℚ) : float64 (float64 x) = float64 x :=
  nearest_nearest (by norm_num) x

theorem float64_relative (x : ℚ) : |x - float64 x| ≤ |x| / 2 ^ 53 := nearest_relative x

theorem log_twice {x : ℚ} (positive : 0 < x) : Int.log 2 (2 * x) = Int.log 2 x + 1 := by
  have low := Int.zpow_log_le_self (b := 2) (by norm_num) positive
  have high := Int.lt_zpow_succ_log_self (b := 2) (by norm_num) x
  have double : 0 < 2 * x := by linarith
  push_cast at low high
  apply le_antisymm
  · rw [← Int.lt_add_one_iff, ← Int.lt_zpow_iff_log_lt (by norm_num) double]
    push_cast
    rw [zpow_add₀ (by norm_num), zpow_one]
    linarith
  · rw [← Int.zpow_le_iff_le_log (by norm_num) double]
    push_cast
    rw [zpow_add₀ (by norm_num), zpow_one]
    linarith

theorem float64_intCast {m : ℤ} (short : |m| < 2 ^ 53) : float64 m = m := by
  have same := nearest_of_bits (k := 0) short
  rwa [zpow_zero, mul_one] at same

theorem float64_twice (x : ℚ) : float64 (2 * x) = 2 * float64 x := by
  rcases eq_or_ne x 0 with rfl | nonzero
  · simp
  · have positive := abs_pos.mpr nonzero
    have power : Int.log 2 |2 * x| = Int.log 2 |x| + 1 := by
      rw [abs_mul, abs_of_pos (by norm_num : (0 : ℚ) < 2)]
      exact log_twice positive
    have scaled : unit 53 (2 * x) = 2 * unit 53 x := by
      rw [unit, unit, power, show Int.log 2 |x| + 1 + 1 - (53 : ℕ) = 1 + (Int.log 2 |x| + 1 - (53 : ℕ)) by ring,
        zpow_add₀ (by norm_num), zpow_one]
    rw [float64, float64, nearest, nearest, scaled, mul_div_mul_left _ _ (by norm_num)]
    ring

@[simp] theorem float64_pos {x : ℚ} : 0 < float64 x ↔ 0 < x := by
  have near := abs_le.mp (float64_relative x)
  constructor
  · intro positive
    by_contra not_pos
    have below := float64_mono (not_lt.mp not_pos)
    rw [float64_zero] at below
    exact absurd positive (not_lt.mpr below)
  · intro positive
    rw [abs_of_pos positive] at near
    have part : x / 2 ^ 53 < x := div_lt_self positive (by norm_num)
    linarith

@[simp] theorem float64_eq_zero {x : ℚ} : float64 x = 0 ↔ x = 0 := by
  constructor
  · intro zero
    have negative : ¬ 0 < float64 (-x) := by rw [float64_neg, zero, neg_zero]; exact lt_irrefl 0
    rw [float64_pos, neg_pos] at negative
    have positive : ¬ 0 < float64 x := by rw [zero]; exact lt_irrefl 0
    rw [float64_pos] at positive
    exact le_antisymm (not_lt.mp positive) (not_lt.mp negative)
  · rintro rfl
    exact float64_zero

theorem float64_nonneg {x : ℚ} (nonneg : 0 ≤ x) : 0 ≤ float64 x := nearest_nonneg nonneg

theorem float64_le {x : ℚ} (nonneg : 0 ≤ x) : float64 x ≤ x * (1 + 1 / 2 ^ 53) := by
  have near := (abs_le.mp (float64_relative x)).1
  rw [abs_of_nonneg nonneg] at near
  linarith

theorem le_float64 {x : ℚ} (nonneg : 0 ≤ x) : x * (1 - 1 / 2 ^ 53) ≤ float64 x := by
  have near := (abs_le.mp (float64_relative x)).2
  rw [abs_of_nonneg nonneg] at near
  linarith

/- Every addend takes at most one rounding from a running sum of amounts. -/
theorem le_running_sum {xs : List ℚ} (nonneg : ∀ x ∈ xs, 0 ≤ x) (short : xs.length ≤ 2 ^ 53) {s : ℚ}
    (start : 0 ≤ s) (double : float64 s = s) :
    (s + (xs.map float64).sum) * (1 - xs.length / 2 ^ 53) ≤ xs.foldl fadd s := by
  induction xs generalizing s with
  | nil => simp
  | cons x xs ih =>
    obtain ⟨first, later⟩ := List.forall_mem_cons.mp nonneg
    rw [List.length_cons] at short
    have addend := float64_nonneg first
    have total : 0 ≤ (xs.map float64).sum :=
      List.sum_nonneg (List.forall_mem_map.mpr fun y hy => float64_nonneg (later y hy))
    have sum : (s + float64 x) * (1 - 1 / 2 ^ 53) ≤ fadd s x := by
      rw [fadd, double]
      exact le_float64 (add_nonneg start addend)
    have room : ((xs.length + 1 : ℕ) : ℚ) ≤ 2 ^ 53 := by exact_mod_cast short
    have left : (0 : ℚ) ≤ 1 - xs.length / 2 ^ 53 := by
      push_cast at room
      rw [sub_nonneg, div_le_one (by norm_num)]
      linarith
    have next := ih later (by omega) (float64_nonneg (add_nonneg (double.symm ▸ start) addend))
      (float64_float64 (float64 s + float64 x))
    rw [List.foldl_cons, List.map_cons, List.sum_cons, List.length_cons]
    refine le_trans ?_ next
    have kept := mul_le_mul_of_nonneg_right (add_le_add_left sum (xs.map float64).sum) left
    refine le_trans ?_ kept
    push_cast
    have whole : 0 ≤ s + float64 x := add_nonneg start addend
    have count : (0 : ℚ) ≤ xs.length := Nat.cast_nonneg _
    nlinarith [mul_nonneg whole count, total]

theorem log_eq {x : ℚ} {k : ℤ} (low : 2 ^ k ≤ x) (high : x < 2 ^ (k + 1)) : Int.log 2 x = k := by
  have positive : 0 < x := lt_of_lt_of_le (zpow_pos (by norm_num) k) low
  apply le_antisymm
  · rw [← Int.lt_add_one_iff, ← Int.lt_zpow_iff_log_lt (by norm_num) positive]
    exact_mod_cast high
  · rw [← Int.zpow_le_iff_le_log (by norm_num) positive]
    exact_mod_cast low

theorem float64_of_near {z : ℚ} {k e : ℤ} (least : 2 ^ 52 < k) (most : k < 2 ^ 53)
    (near : |z - k * 2 ^ e| < 2 ^ e / 2) : float64 z = k * 2 ^ e := by
  have place : (0 : ℚ) < 2 ^ e := zpow_pos (by norm_num) e
  obtain ⟨low, high⟩ := abs_lt.mp near
  have first : ((2 ^ 52 + 1 : ℤ) : ℚ) * 2 ^ e ≤ k * 2 ^ e :=
    mul_le_mul_of_nonneg_right (by exact_mod_cast least) place.le
  have last : (k : ℚ) * 2 ^ e ≤ ((2 ^ 53 - 1 : ℤ) : ℚ) * 2 ^ e :=
    mul_le_mul_of_nonneg_right (by exact_mod_cast Int.le_sub_one_of_lt most) place.le
  push_cast at first last
  have begins : (2 : ℚ) ^ (52 + e) = 2 ^ 52 * 2 ^ e := by rw [zpow_add₀ (by norm_num)]; norm_num
  have ends : (2 : ℚ) ^ (52 + e + 1) = 2 ^ 53 * 2 ^ e := by
    rw [show 52 + e + 1 = 53 + e by ring, zpow_add₀ (by norm_num)]; norm_num
  have lowZ : 2 ^ (52 + e) ≤ z := by rw [begins]; linarith
  have positive : 0 < z := lt_of_lt_of_le (zpow_pos (by norm_num) _) lowZ
  have scale : unit 53 z = 2 ^ e := by
    rw [unit, abs_of_pos positive, log_eq lowZ (by rw [ends]; linarith)]
    congr 1
    push_cast
    ring
  have mantissa : roundHalfEven (z / 2 ^ e) = k := by
    rw [roundHalfEven_eq_iff]
    left
    rw [show z / 2 ^ e - k = (z - k * 2 ^ e) / 2 ^ e by field_simp, abs_div, abs_of_pos place, div_lt_iff₀ place]
    linarith
  rw [float64, nearest, scale, mantissa]

theorem printed_whole {x : ℚ} (double : float64 x = x) {n : ℤ} (whole : 10 * x = n) :
    float64 ((roundHalfEven (10 * x) : ℚ) / 10) = x := by
  rw [whole, roundHalfEven_intCast, ← whole, mul_div_cancel_left₀ _ (by norm_num : (10 : ℚ) ≠ 0), double]

/- Where the last place of a double is a sixteenth or less, it is nearer to its own tenth
   than to any other. -/
theorem printed_fine {m e : ℤ} (scale : unit 53 ((m : ℚ) / 10) = 2 ^ e) (fine : e ≤ -4) :
    roundHalfEven (10 * float64 ((m : ℚ) / 10)) = m := by
  have error : |(m : ℚ) / 10 - float64 (m / 10)| ≤ unit 53 (m / 10) / 2 := nearest_error _
  have small : (2 : ℚ) ^ e ≤ 2 ^ (-4 : ℤ) := zpow_le_zpow_right₀ (by norm_num) fine
  rw [scale] at error
  rw [roundHalfEven_eq_iff]
  left
  rw [abs_sub_comm, show (m : ℚ) - 10 * float64 (m / 10) = 10 * (m / 10 - float64 (m / 10)) by ring, abs_mul]
  norm_num at small ⊢
  linarith

/- Where it is an eighth or more, the printed tenth is nearer to the double than half of
   the place, unless the double begins a binade: then it is an integer. -/
theorem printed_coarse {x : ℚ} {k e : ℤ} (double : float64 x = x) (value : x = k * 2 ^ e) (coarse : -3 ≤ e)
    (least : 2 ^ 52 ≤ k) (most : k ≤ 2 ^ 53) : float64 ((roundHalfEven (10 * x) : ℚ) / 10) = x := by
  obtain ⟨d, power⟩ : ∃ d : ℕ, (2 : ℚ) ^ 52 * 2 ^ e = ((2 ^ d : ℤ) : ℚ) := by
    refine ⟨(52 + e).toNat, ?_⟩
    rw [Int.cast_pow, Int.cast_ofNat, ← zpow_natCast 2 (52 + e).toNat, Int.toNat_of_nonneg (by omega),
      zpow_add₀ (by norm_num)]
    norm_num
  push_cast at power
  rcases least.eq_or_lt with bottom | above
  · apply printed_whole double (n := 10 * 2 ^ d)
    rw [value, ← bottom]
    push_cast
    linarith
  · rcases most.eq_or_lt with top | below
    · apply printed_whole double (n := 20 * 2 ^ d)
      rw [value, top]
      push_cast
      linarith
    · have place : (2 : ℚ) ^ (-3 : ℤ) ≤ 2 ^ e := zpow_le_zpow_right₀ (by norm_num) coarse
      have near := roundHalfEven_near (10 * x)
      rw [value] at near ⊢
      apply float64_of_near above below
      rw [abs_sub_comm, show (k : ℚ) * 2 ^ e - roundHalfEven (10 * (k * 2 ^ e)) / 10 =
        (10 * (k * 2 ^ e) - roundHalfEven (10 * (k * 2 ^ e))) / 10 by ring, abs_div]
      norm_num at place near ⊢
      linarith

theorem printed_positive {m : ℤ} (positive : 0 < m) :
    float64 ((roundHalfEven (10 * float64 ((m : ℚ) / 10)) : ℚ) / 10) = float64 (m / 10) := by
  have tenth : (0 : ℚ) < m / 10 := div_pos (by exact_mod_cast positive) (by norm_num)
  obtain ⟨least, most⟩ := mantissa_bounds (p := 53) tenth (by norm_num)
  by_cases fine : Int.log 2 |(m : ℚ) / 10| + 1 - (53 : ℕ) ≤ -4
  · rw [printed_fine rfl fine]
  · exact printed_coarse (float64_float64 _) rfl (by omega) least most

/- The tenth that is printed for a double names it if any tenth does. -/
theorem float64_printed_tenth {x : ℚ} {m : ℤ} (named : float64 (m / 10) = x) :
    float64 ((roundHalfEven (10 * x) : ℚ) / 10) = x := by
  subst named
  rcases lt_trichotomy m 0 with negative | rfl | positive
  · have mirrored : float64 ((-m : ℤ) / 10 : ℚ) = -float64 (m / 10) := by
      rw [← float64_neg]
      push_cast
      ring_nf
    have printed := printed_positive (neg_pos.mpr negative)
    rw [mirrored, mul_neg, roundHalfEven_neg] at printed
    push_cast at printed
    rw [neg_div, float64_neg] at printed
    exact neg_inj.mp printed
  · have zero : roundHalfEven 0 = 0 := by exact_mod_cast roundHalfEven_intCast 0
    simp [zero]
  · exact printed_positive positive

theorem abs_float64_le (x : ℚ) : |float64 x| ≤ |x| * (1 + 1 / 2 ^ 53) := by
  have near := float64_relative x
  have split := abs_sub_abs_le_abs_sub (float64 x) x
  rw [abs_sub_comm] at split
  linarith

variable (x a b : ℚ)

theorem fadd_error : |fadd a b - (a + b)| ≤ (|a| + |b|) / 2 ^ 51 := by
  have first := float64_relative a
  have second := float64_relative b
  have sum := float64_relative (float64 a + float64 b)
  have size := abs_add_le (float64 a) (float64 b)
  have sizeA := abs_float64_le a
  have sizeB := abs_float64_le b
  have parts : |fadd a b - (a + b)| ≤
      |a - float64 a| + |b - float64 b| + |float64 a + float64 b - fadd a b| := by
    rw [show fadd a b - (a + b) = -((a - float64 a) + (b - float64 b) + (float64 a + float64 b - fadd a b)) by ring,
      abs_neg]
    exact abs_add_three _ _ _
  rw [fadd] at parts ⊢
  linarith [abs_nonneg a, abs_nonneg b]

@[simp] theorem float64_fadd : float64 (fadd a b) = fadd a b := float64_float64 _

@[simp] theorem float64_fmul : float64 (fmul a b) = fmul a b := float64_float64 _

@[simp] theorem float64_shortest : float64 (shortest x) = float64 x := by
  unfold shortest
  cases found : ((List.range 17).map fun d => decimal (d + 1) (float64 x)).find?
      fun y => float64 y = float64 x with
  | none => exact float64_float64 x
  | some y =>
    have names := List.find?_some found
    exact of_decide_eq_true names

theorem decimal_neg (digits : ℕ) : decimal digits (-x) = -decimal digits x := by
  rw [decimal, decimal, abs_neg, neg_div, roundHalfEven_neg]
  push_cast
  ring

@[simp] theorem shortest_neg : shortest (-x) = -shortest x := by
  unfold shortest
  have mirrored : ((List.range 17).map fun d => decimal (d + 1) (float64 (-x))) =
      ((List.range 17).map fun d => decimal (d + 1) (float64 x)).map (- ·) := by
    rw [List.map_map]
    exact List.map_congr_left fun d _ => by rw [float64_neg]; exact decimal_neg _ _
  have names : ((fun y => decide (float64 y = float64 (-x))) ∘ fun y => -y) =
      fun y => decide (float64 y = float64 x) := by
    funext y
    simp
  rw [mirrored, List.find?_map, names, float64_neg]
  cases List.find? (fun y => decide (float64 y = float64 x)) _ <;> rfl

theorem fsub_pos : 0 < fsub a b ↔ float64 b < float64 a := by rw [fsub, float64_pos, sub_pos]

end Double

end FloatRounding
