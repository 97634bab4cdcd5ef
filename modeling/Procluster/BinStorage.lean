import Procluster.RedisCache

/-!
The two encoders of a price bin: the hash field that IncrCell prints and the price
that BatchInsert stores as Decimal(18, 1). Both keep one decimal place of a grid
whose step is the compression times the tick size. A zero step makes every bin NaN.
-/
namespace BinStorage
open Aggregate DecimalText RedisCache

/-- BinPriceLow as a float64; none is NaN, an infinite quotient times zero. -/
def bin (price tickSize : ℚ) (compression : UInt32) : Option ℚ :=
  if (compression.toNat : ℚ) * tickSize = 0 then none
  else some (binPriceLow price tickSize compression)

/-- The operator != on float64: NaN differs from itself, as it does as a map key. -/
def differ : Option ℚ → Option ℚ → Bool
  | some a, some b => a ≠ b
  | _, _ => true

/-- strconv.FormatFloat(priceLow, 'f', 1, 64) -/
def hashField : Option ℚ → Text
  | none => ['N', 'a', 'N']
  | some v => formatFixed1 v

section Decimal
/- The tenths that decimal.NewFromFloat(v).Round(1) keeps of v. -/
variable (tenthsOf : ℚ → ℤ)

def toDecimal18 (v : Option ℚ) : Option ℤ := v.map tenthsOf

/-- Two trades of one candle whose bins differ are kept apart by both encoders. -/
def BinsKept (tickSize : ℚ) (compression : UInt32) : Prop :=
  ∀ (tf : String) (t u : Trade),
    candleTimeUnix t.tradeTimeMs tf = candleTimeUnix u.tradeTimeMs tf →
    differ (bin t.price tickSize compression) (bin u.price tickSize compression) →
      hashField (bin t.price tickSize compression) ≠ hashField (bin u.price tickSize compression) ∧
      toDecimal18 tenthsOf (bin t.price tickSize compression) ≠
        toDecimal18 tenthsOf (bin u.price tickSize compression)

end Decimal

theorem bin_zero {tickSize : ℚ} {compression : UInt32}
    (zero : (compression.toNat : ℚ) * tickSize = 0) (price : ℚ) :
    bin price tickSize compression = none := by
  simp [bin, zero]

theorem bin_multiple {tickSize : ℚ} {compression : UInt32}
    (step : (compression.toNat : ℚ) * tickSize ≠ 0) (k : ℕ) :
    bin (k * |(compression.toNat : ℚ) * tickSize|) tickSize compression =
      some (k * |(compression.toNat : ℚ) * tickSize|) := by
  simp only [bin, step, ↓reduceIte, binPriceLow, Option.some.injEq]
  generalize (compression.toNat : ℚ) * tickSize = w at step
  rcases abs_choice w with same | flipped
  · rw [same, mul_div_cancel_right₀ _ step, Int.floor_natCast]
    push_cast
    rfl
  · rw [flipped, mul_neg, neg_div, mul_div_cancel_right₀ _ step, ← Int.cast_natCast, ← Int.cast_neg,
      Int.floor_intCast]
    push_cast
    ring

theorem bin_on_grid {price tickSize v : ℚ} {compression : UInt32}
    (value : bin price tickSize compression = some v) :
    ∃ k : ℤ, v = k * ((compression.toNat : ℚ) * tickSize) := by
  unfold bin at value
  split at value
  · cases value
  · exact ⟨⌊price / ((compression.toNat : ℚ) * tickSize)⌋, (Option.some.inj value).symm⟩

theorem hashField_rounding {a b : ℚ} (same : hashField (some a) = hashField (some b)) :
    roundHalfEven (10 * a) = roundHalfEven (10 * b) := by
  have read := congrArg parsePlain same
  simp only [hashField, parsePlain_formatFixed1, Option.some.injEq] at read
  exact_mod_cast (div_left_inj' (by norm_num : (10 : ℚ) ≠ 0)).mp read

section NearestTenth
variable {tenthsOf : ℚ → ℤ} (nearest : ∀ v, |10 * v - tenthsOf v| ≤ 1 / 2)
include nearest

theorem scaled_nearest : ∀ x, |x - tenthsOf (x / 10)| ≤ 1 / 2 := by
  intro x
  have scaled := nearest (x / 10)
  rwa [show 10 * (x / 10) = x by ring] at scaled

theorem kept_of_wide {tickSize : ℚ} {compression : UInt32}
    (wide : 1 / 10 ≤ |(compression.toNat : ℚ) * tickSize|) : BinsKept tenthsOf tickSize compression := by
  intro tf t u _ apart
  have step : (compression.toNat : ℚ) * tickSize ≠ 0 := by
    intro zero
    rw [zero, abs_zero] at wide
    norm_num at wide
  have ten : 1 ≤ |10 * ((compression.toNat : ℚ) * tickSize)| := by
    rw [abs_mul, abs_of_pos (by norm_num : (0 : ℚ) < 10)]
    linarith
  cases first : bin t.price tickSize compression with
  | none => simp [bin, step] at first
  | some a =>
    cases second : bin u.price tickSize compression with
    | none => simp [bin, step] at second
    | some b =>
      obtain ⟨k, rfl⟩ := bin_on_grid first
      obtain ⟨m, rfl⟩ := bin_on_grid second
      have differs : k ≠ m := by
        rintro rfl
        simp [first, second, differ] at apart
      constructor
      · intro same
        have rounded := hashField_rounding same
        rw [mul_left_comm 10 (k : ℚ), mul_left_comm 10 (m : ℚ)] at rounded
        exact differs (nearest_spaced roundHalfEven_near ten rounded)
      · intro same
        have back : ∀ j : ℤ, (j : ℚ) * (10 * ((compression.toNat : ℚ) * tickSize)) / 10 =
            j * ((compression.toNat : ℚ) * tickSize) := by
          intro j
          ring
        refine differs (nearest_spaced (scaled_nearest nearest) ten ?_)
        rw [back, back]
        exact Option.some.inj same

end NearestTenth

theorem not_kept_of_narrow (tenthsOf : ℚ → ℤ) {tickSize : ℚ} {compression : UInt32}
    (narrow : |(compression.toNat : ℚ) * tickSize| < 1 / 10) :
    ¬ BinsKept tenthsOf tickSize compression := by
  intro kept
  have collide : ∀ p q : ℚ, differ (bin p tickSize compression) (bin q tickSize compression) →
      hashField (bin p tickSize compression) ≠ hashField (bin q tickSize compression) :=
    fun p q apart => (kept "1m" ⟨1, p, 1, 0, false⟩ ⟨2, q, 1, 0, false⟩ rfl apart).1
  by_cases step : (compression.toNat : ℚ) * tickSize = 0
  · -- every price gives NaN
    have nan := collide 1 1
    rw [bin_zero step] at nan
    exact nan rfl rfl
  · have width : 0 ≤ 10 * |(compression.toNat : ℚ) * tickSize| := by positivity
    obtain ⟨k, same⟩ := nearest_collides roundHalfEven_near width (by linarith)
    have two := collide (k * |(compression.toNat : ℚ) * tickSize|)
      ((k + 1 : ℕ) * |(compression.toNat : ℚ) * tickSize|)
    rw [bin_multiple step, bin_multiple step] at two
    refine two ?_ (formatFixed1_congr (by positivity) (by positivity) ?_)
    · simpa [differ] using step
    · rwa [mul_left_comm 10, mul_left_comm 10]

/-- No two bins of a candle share a hash field or a stored price exactly when the bins
    are at least a tenth wide. -/
theorem bins_never_collide_iff (tenthsOf : ℚ → ℤ) (nearest : ∀ v, |10 * v - tenthsOf v| ≤ 1 / 2)
    (tickSize : ℚ) (compression : UInt32) :
    BinsKept tenthsOf tickSize compression ↔
      1 / 10 ≤ |(compression.toNat : ℚ) * tickSize| := by
  constructor
  · intro kept
    by_contra narrow
    exact not_kept_of_narrow tenthsOf (not_le.mp narrow) kept
  · exact kept_of_wide nearest

/- decimal.Round rounds half away from zero. -/
theorem bins_kept_at_quarter_compression :
    BinsKept (fun v => roundHalfAway (10 * v)) (1 / 10) 25 :=
  (bins_never_collide_iff (fun v => roundHalfAway (10 * v))
    (fun v => roundHalfAway_near (10 * v)) (1 / 10) 25).mpr (by decide +kernel)

/-- A tick of 0.01 at compression 1: 100.00 and 100.01 are two bins, one field, one key. -/
theorem cent_bins_collide : ¬ BinsKept (fun v => roundHalfAway (10 * v)) (1 / 100) 1 := by
  intro kept
  have apart := kept "1m" ⟨1, 100, 1, 0, false⟩ ⟨2, 10001 / 100, 1, 0, false⟩ rfl
    (by decide +kernel)
  exact apart.1 (by decide +kernel)

end BinStorage
