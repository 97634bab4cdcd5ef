import Procluster.CandlesApi
import Procluster.Library.ShortestDecimal
import Procluster.MergeApprox

/-!
RoundHalfUp on the digit characters that strconv prints, against the arithmetic that the
aggregator's model takes for it. A float64 is the finite decimal of its shortest text,
and the last sum is exact.
-/
namespace DigitRounding
open QueryCandles (Tenths)
open CandlesApi (parseDigits parseDigits_toDigits)
open DecimalText

/-- What strconv.ParseInt(s, 10, 64) returns beside its error: zero for no number, the
    nearest bound for one out of range. -/
def parseInt (s : List Char) : ℤ :=
  match s with
  | '-' :: cs => max (-2 ^ 63) (-((parseDigits cs).getD 0 : ℕ))
  | '+' :: cs => min (2 ^ 63 - 1) ((parseDigits cs).getD 0 : ℕ)
  | cs => min (2 ^ 63 - 1) ((parseDigits cs).getD 0 : ℕ)

def digitOf (c : Char) : ℤ := (c.toUInt8 - '0'.toUInt8).toNat

def roundHalfUp (v : ℚ) : ℚ :=
  if v = 0 then 0
  else
    let sign : ℚ := if v < 0 then -1 else 1
    let abs := if v < 0 then -v else v
    let s := formatShortest abs
    match s.findIdx? (· = '.') with
    | none => v
    | some dotIdx =>
      match s.drop (dotIdx + 1) with
      | c1 :: c2 :: _ =>
        let d1 := digitOf c1
        let d2 := digitOf c2
        let d1 := if 5 ≤ d2 then d1 + 1 else d1
        let intPart := parseInt (s.take dotIdx)
        let intPart := if 10 ≤ d1 then intPart + 1 else intPart
        let d1 := if 10 ≤ d1 then 0 else d1
        sign * ((intPart : ℚ) + (d1 : ℚ) / 10)
      -- dotIdx + 2 is not below the length
      | _ => v

/-- A decimal that the function may see: float64 holds every integer below 2^53. -/
def Roundable (v : ℚ) : Prop := FiniteDecimal v ∧ |v| < 2 ^ 53

structure HalfAway (v : ℚ) : Prop where
  printed : parsePlain (formatShortest |v|) = some |v|
  value : roundHalfUp v = SignType.sign v * (⌊10 * |v| + 1 / 2⌋ : ℚ) / 10
  idempotent : roundHalfUp (roundHalfUp v) = roundHalfUp v
  odd : roundHalfUp (-v) = -roundHalfUp v
  monotone : ∀ w, Roundable w → v ≤ w → roundHalfUp v ≤ roundHalfUp w
  unchanged : Tenths v → roundHalfUp v = v
  near : |v - roundHalfUp v| ≤ 1 / 20

theorem digitOf_digitChar {d : ℕ} (digit : d < 10) : digitOf (Nat.digitChar d) = d := by
  have all : ∀ d < 10, digitOf (Nat.digitChar d) = (d : ℤ) := by decide
  exact all d digit

theorem parseInt_toDigits {n : ℕ} (small : n < 2 ^ 63) : parseInt (Nat.toDigits 10 n) = n := by
  unfold parseInt
  split
  · rename_i cs shape
    have digit := toDigits_are_digits n '-' (shape ▸ List.mem_cons_self)
    exact absurd digit (by decide)
  · rename_i cs shape
    have digit := toDigits_are_digits n '+' (shape ▸ List.mem_cons_self)
    exact absurd digit (by decide)
  · rw [parseDigits_toDigits, Option.getD_some]
    exact min_eq_right (by omega)

theorem no_dot (n : ℕ) : (Nat.toDigits 10 n).findIdx? (· = '.') = none := by
  apply List.findIdx?_eq_none_iff.mpr
  intro c member
  apply decide_eq_false
  intro same
  have digit := toDigits_are_digits n c member
  rw [same] at digit
  exact absurd digit (by decide)

theorem dot_behind_digits (n : ℕ) (rest : List Char) :
    (Nat.toDigits 10 n ++ '.' :: rest).findIdx? (· = '.') = some (Nat.toDigits 10 n).length := by
  rw [List.findIdx?_append, no_dot]
  simp [List.findIdx?_cons]

theorem floor_mod_ten (x : ℚ) : ⌊10 * x⌋ % 10 = ⌊10 * Int.fract x⌋ := by
  obtain ⟨d, digit, floor, -⟩ := digit_floor (Int.fract_nonneg x) (Int.fract_lt_one x)
  have split : 10 * x = ((10 * ⌊x⌋ : ℤ) : ℚ) + 10 * Int.fract x := by
    push_cast
    linarith [Int.floor_add_fract x]
  rw [split, Int.floor_intCast_add, floor]
  omega

theorem fract_tenfold (x : ℚ) : Int.fract (10 * Int.fract x) = Int.fract (10 * x) := by
  have split : 10 * Int.fract x = 10 * x - ((10 * ⌊x⌋ : ℤ) : ℚ) := by
    rw [Int.fract]
    push_cast
    ring
  rw [split, Int.fract_sub_intCast]

theorem fractionText_zero (fuel : ℕ) : fractionText fuel 0 = [] := by
  cases fuel with
  | zero => rfl
  | succ fuel => simp [fractionText]

theorem fraction_den {x : ℚ} (some_fraction : Int.fract x ≠ 0) : ∃ k, (Int.fract x).den = k + 2 := by
  have positive := (Int.fract x).den_pos
  have several : (Int.fract x).den ≠ 1 := by
    intro one
    have whole := (Rat.den_eq_one_iff _).mp one
    have low := Int.fract_nonneg x
    have high := Int.fract_lt_one x
    rw [← whole] at low high some_fraction
    have least : 0 ≤ (Int.fract x).num := by exact_mod_cast low
    have most : (Int.fract x).num < 1 := by exact_mod_cast high
    exact some_fraction (by exact_mod_cast (by omega : (Int.fract x).num = 0))
  exact ⟨(Int.fract x).den - 2, by omega⟩

section Magnitude
variable {a : ℚ} (nonneg : 0 ≤ a)
include nonneg

theorem text_whole (whole : Int.fract a = 0) : formatShortest a = Nat.toDigits 10 ⌊a⌋.toNat := by
  simp [formatShortest, abs_of_nonneg nonneg, nonneg.not_gt, whole]

theorem text_first {k : ℕ} (den : (Int.fract a).den = k + 2) (some_fraction : Int.fract a ≠ 0) :
    formatShortest a = Nat.toDigits 10 ⌊a⌋.toNat ++ '.' :: Nat.digitChar (⌊10 * a⌋ % 10).toNat ::
      fractionText (k + 1) (Int.fract (10 * a)) := by
  simp only [formatShortest, abs_of_nonneg nonneg, nonneg.not_gt, some_fraction, ↓reduceIte, List.nil_append, den]
  rw [fractionText, if_neg some_fraction, ← floor_mod_ten, fract_tenfold]

theorem text_tenths (some_fraction : Int.fract a ≠ 0) (whole : Int.fract (10 * a) = 0) :
    formatShortest a = Nat.toDigits 10 ⌊a⌋.toNat ++ ['.', Nat.digitChar (⌊10 * a⌋ % 10).toNat] := by
  obtain ⟨k, den⟩ := fraction_den some_fraction
  rw [text_first nonneg den some_fraction, whole, fractionText_zero]

theorem text_digits (more : Int.fract (10 * a) ≠ 0) : ∃ rest, formatShortest a =
    Nat.toDigits 10 ⌊a⌋.toNat ++ '.' :: Nat.digitChar (⌊10 * a⌋ % 10).toNat ::
      Nat.digitChar (⌊100 * a⌋ % 10).toNat :: rest := by
  have some_fraction : Int.fract a ≠ 0 := by
    intro whole
    rw [← fract_tenfold, whole, mul_zero, Int.fract_zero] at more
    exact more rfl
  obtain ⟨k, den⟩ := fraction_den some_fraction
  have hundredths : ⌊10 * Int.fract (10 * a)⌋ = ⌊100 * a⌋ % 10 := by
    rw [← floor_mod_ten, ← mul_assoc]
    norm_num
  rw [text_first nonneg den some_fraction, fractionText, if_neg more, hundredths]
  exact ⟨_, rfl⟩

end Magnitude

theorem tenths_iff (v : ℚ) : Tenths v ↔ Int.fract (10 * |v|) = 0 := by
  rw [Int.fract_eq_zero_iff]
  constructor
  · rintro ⟨k, rfl⟩
    refine ⟨|k|, ?_⟩
    rw [abs_div, abs_of_pos (by norm_num : (0 : ℚ) < 10), Int.cast_abs]
    ring
  · rintro ⟨n, same⟩
    rcases abs_choice v with positive | negative
    · exact ⟨n, by linarith⟩
    · exact ⟨-n, by push_cast; linarith⟩

theorem magnitude (v : ℚ) : (if v < 0 then -v else v) = |v| := by
  split_ifs with negative
  · exact (abs_of_neg negative).symm
  · exact (abs_of_nonneg (not_lt.mp negative)).symm

theorem roundHalfUp_tenths {v : ℚ} (tenths : Tenths v) : roundHalfUp v = v := by
  have tenth := (tenths_iff v).mp tenths
  unfold roundHalfUp
  by_cases zero : v = 0
  · rw [if_pos zero, zero]
  · rw [if_neg zero]
    simp only [magnitude]
    by_cases whole : Int.fract |v| = 0
    · rw [text_whole (abs_nonneg v) whole, no_dot]
    · rw [text_tenths (abs_nonneg v) whole tenth, dot_behind_digits]
      simp

theorem roundHalfUp_digits {v : ℚ} (small : |v| < 2 ^ 53) : roundHalfUp v = Aggregate.roundHalfUp v := by
  by_cases tenths : Tenths v
  · rw [roundHalfUp_tenths tenths, Aggregate.roundHalfUp_tenths tenths]
  · have nonneg := abs_nonneg v
    have floor_nonneg := Int.floor_nonneg.mpr nonneg
    have floor_small : ⌊|v|⌋ < 2 ^ 53 := Int.floor_lt.mpr (by exact_mod_cast small)
    have more := mt (tenths_iff v).mpr tenths
    have zero : v ≠ 0 := by
      rintro rfl
      exact tenths ⟨0, by simp⟩
    have several : (10 * |v|).den ≠ 1 := by
      intro one
      have integer := (Rat.den_eq_one_iff _).mp one
      exact more (Int.fract_eq_zero_iff.mpr ⟨_, integer⟩)
    obtain ⟨rest, text⟩ := text_digits nonneg more
    have front : (formatShortest |v|).take (Nat.toDigits 10 ⌊|v|⌋.toNat).length =
        Nat.toDigits 10 ⌊|v|⌋.toNat := by rw [text, List.take_left]
    have behind : (formatShortest |v|).drop ((Nat.toDigits 10 ⌊|v|⌋.toNat).length + 1) =
        Nat.digitChar (⌊10 * |v|⌋ % 10).toNat :: Nat.digitChar (⌊100 * |v|⌋ % 10).toNat :: rest := by
      rw [text, List.drop_append, List.drop_eq_nil_of_le (by omega)]
      simp
    have dot : (formatShortest |v|).findIdx? (· = '.') = some (Nat.toDigits 10 ⌊|v|⌋.toNat).length := by
      rw [text, dot_behind_digits]
    have digit (x : ℚ) : digitOf (Nat.digitChar (⌊x⌋ % 10).toNat) = ⌊x⌋ % 10 := by
      rw [digitOf_digitChar (by omega)]
      omega
    have whole : parseInt (Nat.toDigits 10 ⌊|v|⌋.toNat) = ⌊|v|⌋ := by
      rw [parseInt_toDigits (by omega)]
      omega
    unfold roundHalfUp Aggregate.roundHalfUp
    rw [if_neg zero, if_neg zero]
    simp only [magnitude, several, ↓reduceIte, dot, behind, front, digit, whole]
    split_ifs <;> simp

theorem roundHalfAway_sign (x : ℚ) : (roundHalfAway x : ℚ) = SignType.sign x * (⌊|x| + 1 / 2⌋ : ℚ) := by
  unfold roundHalfAway
  rcases lt_trichotomy x 0 with negative | rfl | positive
  · simp [negative, sign_neg negative, abs_of_neg negative]
  · norm_num
  · simp [positive.not_gt, sign_pos positive, abs_of_pos positive]

theorem roundHalfUp_value {v : ℚ} (small : |v| < 2 ^ 53) :
    roundHalfUp v = SignType.sign v * (⌊10 * |v| + 1 / 2⌋ : ℚ) / 10 := by
  have sign : SignType.sign (10 * v) = SignType.sign v := by
    rw [sign_mul, sign_pos (by norm_num : (0 : ℚ) < 10), one_mul]
  rw [roundHalfUp_digits small, Aggregate.roundHalfUp_eq, roundHalfAway_sign, sign, abs_mul,
    abs_of_pos (by norm_num : (0 : ℚ) < 10)]

/-- RoundHalfUp is exact rounding to tenths, half away from zero. -/
theorem roundHalfUp_exact {v : ℚ} (roundable : Roundable v) : HalfAway v := by
  obtain ⟨decimal, small⟩ := roundable
  have digits := roundHalfUp_digits small
  refine ⟨parsePlain_formatShortest (finiteDecimal_abs decimal), roundHalfUp_value small, ?_, ?_, ?_, roundHalfUp_tenths, ?_⟩
  · rw [digits]
    exact roundHalfUp_tenths (Aggregate.tenths_roundHalfUp v)
  · rw [roundHalfUp_value small, roundHalfUp_value (by rwa [abs_neg]), Left.sign_neg, abs_neg]
    push_cast
    ring
  · intro w ⟨_, small'⟩ below
    have order := nearest_mono roundHalfAway_near (show 10 * v ≤ 10 * w by linarith)
    rw [digits, roundHalfUp_digits small', Aggregate.roundHalfUp_eq, Aggregate.roundHalfUp_eq]
    exact div_le_div_of_nonneg_right (by exact_mod_cast order) (by norm_num)
  · rw [digits]
    exact Aggregate.roundHalfUp_near v

/- A carry through all digits. -/
theorem nines_rounded : HalfAway (9999 / 100) ∧ roundHalfUp (9999 / 100) = 100 :=
  ⟨roundHalfUp_exact ⟨⟨9999, 2, by norm_num⟩, by norm_num⟩, by decide +kernel⟩

example : [51256, 56270, 56500, 125, 8500, 500, 400, 999900, -500, -17500].map (fun n : ℤ => roundHalfUp (n / 10000)) =
    [51 / 10, 56 / 10, 57 / 10, 0, 9 / 10, 1 / 10, 0, 100, -1 / 10, -18 / 10] := by decide +kernel

end DigitRounding
