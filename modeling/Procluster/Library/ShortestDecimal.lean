import Mathlib.RingTheory.Radical.NatInt
import Mathlib.Tactic.LinearCombination
import Procluster.Library.DecimalText

/- The shortest plain decimal text of an exact rational: the whole part, and behind a
   point the digits of the fraction up to the last one that is not zero. Of a rational
   with a finite decimal expansion nothing is lost. -/
namespace DecimalText

/-- A rational with finitely many decimal places. -/
def FiniteDecimal (x : ℚ) : Prop := ∃ (m : ℤ) (k : ℕ), x = m / 10 ^ k

def fractionText : ℕ → ℚ → List Char
  | 0, _ => []
  | fuel + 1, f => if f = 0 then [] else Nat.digitChar ⌊10 * f⌋.toNat :: fractionText fuel (Int.fract (10 * f))

/-- strconv.FormatFloat(x, 'f', -1, 64), on the value that the shortest text has; a
    finite expansion has fewer places than the denominator counts. -/
def formatShortest (x : ℚ) : List Char :=
  let fraction := Int.fract |x|
  (if x < 0 then ['-'] else []) ++ (Nat.toDigits 10 ⌊|x|⌋.toNat ++
    if fraction = 0 then [] else '.' :: fractionText fraction.den fraction)

theorem finiteDecimal_neg {x : ℚ} (decimal : FiniteDecimal x) : FiniteDecimal (-x) := by
  obtain ⟨m, k, rfl⟩ := decimal
  exact ⟨-m, k, by push_cast; ring⟩

theorem digit_floor {f : ℚ} (nonneg : 0 ≤ f) (small : f < 1) :
    ∃ d : ℕ, d < 10 ∧ ⌊10 * f⌋ = d ∧ 10 * f = d + Int.fract (10 * f) := by
  have low : 0 ≤ ⌊10 * f⌋ := Int.floor_nonneg.mpr (by linarith)
  have high : ⌊10 * f⌋ < 10 := Int.floor_lt.mpr (by push_cast; linarith)
  refine ⟨⌊10 * f⌋.toNat, by omega, (Int.toNat_of_nonneg low).symm, ?_⟩
  have split := (Int.floor_add_fract (10 * f)).symm
  have cast : ((⌊10 * f⌋.toNat : ℕ) : ℚ) = (⌊10 * f⌋ : ℚ) := by
    exact_mod_cast congrArg (Int.cast : ℤ → ℚ) (Int.toNat_of_nonneg low)
  rwa [cast]

theorem fractionText_digits (fuel : ℕ) {f : ℚ} (nonneg : 0 ≤ f) (small : f < 1) :
    ∀ c ∈ fractionText fuel f, c.isDigit := by
  induction fuel generalizing f with
  | zero => simp [fractionText]
  | succ fuel ih =>
    obtain ⟨d, digit, floor, -⟩ := digit_floor nonneg small
    have rest := ih (Int.fract_nonneg (10 * f)) (Int.fract_lt_one _)
    intro c member
    rw [fractionText] at member
    split at member
    · cases member
    · rcases List.mem_cons.mp member with rfl | later
      · rw [floor, Int.toNat_natCast, Nat.isDigit_digitChar]
        exact decide_eq_true digit
      · exact rest c later

theorem fractionText_value {fuel : ℕ} {f : ℚ} (nonneg : 0 ≤ f) (small : f < 1) {m : ℤ}
    (places : f * 10 ^ fuel = m) :
    (Nat.ofDigitChars 10 (fractionText fuel f) 0 : ℚ) / 10 ^ (fractionText fuel f).length = f := by
  induction fuel generalizing f m with
  | zero =>
    rw [pow_zero, mul_one] at places
    rw [places] at nonneg small ⊢
    have zero : m = 0 := by
      have low : 0 ≤ m := by exact_mod_cast nonneg
      have high : m < 1 := by exact_mod_cast small
      omega
    simp [fractionText, zero]
  | succ fuel ih =>
    by_cases zero : f = 0
    · simp [fractionText, zero]
    · obtain ⟨d, digit, floor, split⟩ := digit_floor nonneg small
      have later : Int.fract (10 * f) * 10 ^ fuel = ((m - d * 10 ^ fuel : ℤ) : ℚ) := by
        push_cast
        rw [← places]
        linear_combination (-(10 : ℚ) ^ fuel) * split
      have rest := ih (Int.fract_nonneg (10 * f)) (Int.fract_lt_one _) later
      rw [fractionText, if_neg zero, floor, Int.toNat_natCast, List.length_cons,
        Nat.ofDigitChars_cons_digitChar_of_lt_ten digit, Nat.ofDigitChars_eq_ofDigitChars_zero]
      generalize fractionText fuel (Int.fract (10 * f)) = text at rest ⊢
      have power : (10 : ℚ) ^ text.length ≠ 0 := by positivity
      rw [div_eq_iff power] at rest
      push_cast
      rw [rest, pow_succ]
      field_simp
      linarith

/- The denominator has only the prime factors of ten, each less often than itself. -/
theorem places_of_decimal {x : ℚ} (decimal : FiniteDecimal x) : ∃ m : ℤ, x * 10 ^ x.den = m := by
  obtain ⟨m, k, value⟩ := decimal
  have divides : x.den ∣ 10 ^ k := by
    have cast : x = Rat.divInt m ((10 ^ k : ℕ) : ℤ) := by
      rw [value, Rat.divInt_eq_div]
      push_cast
      rfl
    rw [cast]
    exact_mod_cast Rat.den_dvd m ((10 ^ k : ℕ) : ℤ)
  have primes : UniqueFactorizationMonoid.radical x.den ∣ 10 :=
    (UniqueFactorizationMonoid.radical_dvd_radical divides (by positivity)).trans
      (UniqueFactorizationMonoid.radical_pow_dvd.trans UniqueFactorizationMonoid.radical_dvd_self)
  obtain ⟨c, factor⟩ := (Nat.dvd_radical_pow_self x.den_nz).trans (pow_dvd_pow_of_dvd primes x.den)
  have cast : ((10 : ℚ)) ^ x.den = x.den * c := by exact_mod_cast factor
  refine ⟨x.num * c, ?_⟩
  push_cast
  rw [cast, ← mul_assoc, Rat.mul_den_eq_num]

theorem finiteDecimal_abs {x : ℚ} (decimal : FiniteDecimal x) : FiniteDecimal |x| := by
  rcases abs_choice x with same | flipped
  · rwa [same]
  · rw [flipped]
    exact finiteDecimal_neg decimal

theorem finiteDecimal_fract {x : ℚ} (decimal : FiniteDecimal x) : FiniteDecimal (Int.fract x) := by
  obtain ⟨m, k, value⟩ := decimal
  refine ⟨m - ⌊x⌋ * 10 ^ k, k, ?_⟩
  rw [Int.fract, value]
  push_cast
  field_simp

theorem parseUnsigned_shortest {x : ℚ} (decimal : FiniteDecimal x) :
    parseUnsigned (Nat.toDigits 10 ⌊|x|⌋.toNat ++ if Int.fract |x| = 0 then []
      else '.' :: fractionText (Int.fract |x|).den (Int.fract |x|)) = some |x| := by
  have nonneg := Int.fract_nonneg |x|
  have small := Int.fract_lt_one |x|
  have whole : ((⌊|x|⌋.toNat : ℕ) : ℚ) = (⌊|x|⌋ : ℚ) := by
    exact_mod_cast congrArg (Int.cast : ℤ → ℚ) (Int.toNat_of_nonneg (Int.floor_nonneg.mpr (abs_nonneg x)))
  have parts := Int.floor_add_fract |x|
  by_cases zero : Int.fract |x| = 0
  · have digits := takeDigits_digits (Nat.toDigits 10 ⌊|x|⌋.toNat) [] (toDigits_are_digits _) (by simp)
    rw [List.append_nil] at digits
    rw [zero, add_zero] at parts
    simp [parseUnsigned, zero, digits, Nat.toDigits_ne_nil, Nat.ofDigitChars_ten_toDigits, whole, parts]
  · obtain ⟨m, places⟩ := places_of_decimal (finiteDecimal_fract (finiteDecimal_abs decimal))
    have value := fractionText_value nonneg small places
    have fraction := fractionText_digits (Int.fract |x|).den nonneg small
    rw [if_neg zero]
    generalize fractionText (Int.fract |x|).den (Int.fract |x|) = text at value fraction ⊢
    have part := takeDigits_digits text [] fraction (by simp)
    rw [List.append_nil] at part
    have digits := takeDigits_digits (Nat.toDigits 10 ⌊|x|⌋.toNat) ('.' :: text) (toDigits_are_digits _) (by simp)
    simp [parseUnsigned, digits, part, Nat.toDigits_ne_nil, Nat.ofDigitChars_ten_toDigits, whole, value, parts]

theorem parsePlain_formatShortest {x : ℚ} (decimal : FiniteDecimal x) :
    parsePlain (formatShortest x) = some x := by
  have unsigned := parseUnsigned_shortest decimal
  unfold formatShortest
  by_cases negative : x < 0
  · simp only [negative, ↓reduceIte, List.cons_append, List.nil_append, parsePlain]
    rw [unsigned, Option.map_some, abs_of_neg negative, neg_neg]
  · obtain ⟨d, ds, text⟩ := List.exists_cons_of_ne_nil (Nat.toDigits_ne_nil (n := ⌊|x|⌋.toNat) (b := 10))
    have digit : d.isDigit := toDigits_are_digits _ d (by rw [text]; simp)
    simp only [negative, ↓reduceIte, List.nil_append]
    rw [text, List.cons_append] at unsigned ⊢
    rw [parsePlain_of_digit digit, unsigned, abs_of_nonneg (not_lt.mp negative)]

end DecimalText
