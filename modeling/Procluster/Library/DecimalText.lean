import Mathlib.Algebra.Order.Round
import Mathlib.Data.Rat.Floor
import Mathlib.Tactic.Linarith
import Mathlib.Tactic.Ring
import Mathlib.Tactic.FieldSimp
import Mathlib.Algebra.Order.Ring.Abs
import Mathlib.Algebra.Order.Archimedean.Basic

/- Decimal text of exact rationals: rounding to an integer with ties to even, the
   text with one decimal place, and a reader of plain decimal text. Reading what
   was written gives the written value rounded to a tenth. -/
namespace DecimalText

def roundHalfEven (x : ℚ) : ℤ :=
  if Int.fract x < 1 / 2 then ⌊x⌋
  else if 1 / 2 < Int.fract x then ⌊x⌋ + 1
  else if ⌊x⌋ % 2 = 0 then ⌊x⌋ else ⌊x⌋ + 1

/-- x lies in the half-open distance of n that rounds to n. -/
def RoundsTo (x : ℚ) (n : ℤ) : Prop :=
  |x - n| < 1 / 2 ∨ (|x - n| = 1 / 2 ∧ n % 2 = 0)

theorem roundHalfEven_roundsTo (x : ℚ) : RoundsTo x (roundHalfEven x) := by
  have split : x = ⌊x⌋ + Int.fract x := (Int.floor_add_fract x).symm
  have low := Int.fract_nonneg x
  have high := Int.fract_lt_one x
  unfold roundHalfEven RoundsTo
  split_ifs with below above even
  · left
    rw [show x - (⌊x⌋ : ℚ) = Int.fract x by linarith, abs_of_nonneg low]
    exact below
  · left
    push_cast
    rw [show x - ((⌊x⌋ : ℚ) + 1) = Int.fract x - 1 by linarith, abs_of_neg (by linarith)]
    linarith
  · right
    have tie : Int.fract x = 1 / 2 := le_antisymm (not_lt.mp above) (not_lt.mp below)
    refine ⟨?_, even⟩
    rw [show x - (⌊x⌋ : ℚ) = 1 / 2 by linarith]
    norm_num
  · right
    have tie : Int.fract x = 1 / 2 := le_antisymm (not_lt.mp above) (not_lt.mp below)
    refine ⟨?_, by omega⟩
    push_cast
    rw [show x - ((⌊x⌋ : ℚ) + 1) = -(1 / 2) by linarith]
    norm_num

theorem roundsTo_unique {x : ℚ} {n m : ℤ} (hn : RoundsTo x n) (hm : RoundsTo x m) : n = m := by
  have bounds : ∀ k : ℤ, RoundsTo x k → (k : ℚ) ≤ x + 1 / 2 ∧ x - 1 / 2 ≤ k := by
    intro k hk
    have near : |x - k| ≤ 1 / 2 := by
      rcases hk with near | ⟨near, _⟩
      · exact near.le
      · exact near.le
    obtain ⟨lo, hi⟩ := abs_le.mp near
    exact ⟨by linarith, by linarith⟩
  by_contra differ
  wlog less : n < m generalizing n m
  · exact this hm hn (Ne.symm differ) (lt_of_le_of_ne (not_lt.mp less) (Ne.symm differ))
  have step : (n : ℚ) + 1 ≤ m := by exact_mod_cast less
  obtain ⟨_, lowN⟩ := bounds n hn
  obtain ⟨highM, _⟩ := bounds m hm
  have atN : x - n = 1 / 2 := by linarith
  have atM : x - m = -(1 / 2) := by linarith
  have evenN : n % 2 = 0 := by
    rcases hn with near | ⟨_, even⟩
    · rw [atN] at near; norm_num at near
    · exact even
  have evenM : m % 2 = 0 := by
    rcases hm with near | ⟨_, even⟩
    · rw [atM] at near; norm_num at near
    · exact even
  have next : (m : ℚ) = (n : ℚ) + 1 := by linarith
  have next' : m = n + 1 := by exact_mod_cast next
  omega

theorem roundHalfEven_eq_iff {x : ℚ} {n : ℤ} : roundHalfEven x = n ↔ RoundsTo x n := by
  constructor
  · rintro rfl; exact roundHalfEven_roundsTo x
  · exact roundsTo_unique (roundHalfEven_roundsTo x)

theorem roundHalfEven_intCast (n : ℤ) : roundHalfEven n = n := by
  rw [roundHalfEven_eq_iff]
  left
  simp

theorem roundHalfEven_neg (x : ℚ) : roundHalfEven (-x) = -roundHalfEven x := by
  rw [roundHalfEven_eq_iff]
  have mirrored : |(-x) - ((-roundHalfEven x : ℤ) : ℚ)| = |x - roundHalfEven x| := by
    rw [← abs_neg]
    congr 1
    push_cast
    ring
  rcases roundHalfEven_roundsTo x with near | ⟨near, even⟩
  · left; rw [mirrored]; exact near
  · right; rw [mirrored]; exact ⟨near, by omega⟩

theorem roundHalfEven_nonneg {x : ℚ} (h : 0 ≤ x) : 0 ≤ roundHalfEven x := by
  have whole : 0 ≤ ⌊x⌋ := Int.floor_nonneg.mpr h
  unfold roundHalfEven
  split_ifs <;> omega

theorem roundHalfEven_near (x : ℚ) : |x - roundHalfEven x| ≤ 1 / 2 := by
  rcases roundHalfEven_roundsTo x with near | ⟨near, _⟩
  · exact near.le
  · exact near.le

def roundHalfAway (x : ℚ) : ℤ := if x < 0 then -⌊-x + 1 / 2⌋ else ⌊x + 1 / 2⌋

theorem floor_half_near (x : ℚ) : |x - ⌊x + 1 / 2⌋| ≤ 1 / 2 := by
  have low := Int.floor_le (x + 1 / 2)
  have high := Int.lt_floor_add_one (x + 1 / 2)
  rw [abs_le]
  constructor <;> linarith

theorem roundHalfAway_near (x : ℚ) : |x - roundHalfAway x| ≤ 1 / 2 := by
  unfold roundHalfAway
  split
  · rw [← abs_neg]
    have mirrored := floor_half_near (-x)
    push_cast
    rwa [show -(x - -(⌊-x + 1 / 2⌋ : ℚ)) = -x - ⌊-x + 1 / 2⌋ by ring]
  · exact floor_half_near x

section Nearest
variable {f : ℚ → ℤ} (nearest : ∀ x, |x - f x| ≤ 1 / 2)
include nearest

theorem nearest_mono {x y : ℚ} (below : x ≤ y) : f x ≤ f y := by
  rcases eq_or_lt_of_le below with rfl | less
  · exact le_rfl
  · have atX := abs_le.mp (nearest x)
    have atY := abs_le.mp (nearest y)
    have near : ((f x : ℤ) : ℚ) < f y + 1 := by linarith [atX.1, atY.2]
    exact Int.lt_add_one_iff.mp (by exact_mod_cast near)

theorem nearest_intCast (n : ℤ) : f n = n := by
  have close : |((n - f n : ℤ) : ℚ)| < 1 := by
    push_cast
    linarith [nearest n]
  have zero := Int.abs_lt_one_iff.mp (by exact_mod_cast close)
  omega

/- Two multiples that round to the same integer are at most one apart; if they are
   exactly one apart the step is one, and integers keep their own value. -/
theorem nearest_spaced {w : ℚ} (wide : 1 ≤ |w|) {k m : ℤ} (same : f (k * w) = f (m * w)) :
    k = m := by
  by_contra differ
  have atK := abs_le.mp (nearest (k * w))
  have atM := abs_le.mp (nearest (m * w))
  rw [same] at atK
  have steps : (1 : ℚ) ≤ |(k : ℚ) - m| := by
    have whole : 1 ≤ |k - m| := Int.one_le_abs (sub_ne_zero.mpr differ)
    exact_mod_cast whole
  have apart : |(k : ℚ) - m| * |w| ≤ 1 := by
    rw [← abs_mul, sub_mul, abs_le]
    constructor <;> linarith [atK.1, atK.2, atM.1, atM.2]
  have unit : |w| = 1 := by nlinarith [abs_nonneg w]
  rcases (abs_eq (by norm_num)).mp unit with rfl | rfl
  · rw [mul_one, mul_one, nearest_intCast nearest, nearest_intCast nearest] at same
    exact differ same
  · have negated : ∀ j : ℤ, (j : ℚ) * -1 = ((-j : ℤ) : ℚ) := by intro j; push_cast; ring
    rw [negated, negated, nearest_intCast nearest, nearest_intCast nearest] at same
    omega

/-- Below a step of one, some two neighbouring multiples round to the same integer. -/
theorem nearest_collides {w : ℚ} (nonneg : 0 ≤ w) (narrow : w < 1) :
    ∃ k : ℕ, f (k * w) = f ((k + 1 : ℕ) * w) := by
  by_contra none
  push Not at none
  have climbs : ∀ k : ℕ, f 0 + k ≤ f (k * w) := by
    intro k
    induction k with
    | zero => simp
    | succ k ih =>
      have order : (k : ℚ) * w ≤ (k + 1 : ℕ) * w := by
        push_cast
        nlinarith
      have step := lt_of_le_of_ne (nearest_mono nearest order) (none k)
      push_cast at step ⊢
      omega
  obtain ⟨k, large⟩ := exists_nat_gt (1 / (1 - w))
  have gap : 0 < 1 - w := by linarith
  have start := (abs_le.mp (nearest 0)).2
  have top := (abs_le.mp (nearest (k * w))).1
  have climbed : ((f 0 : ℤ) : ℚ) + k ≤ f (k * w) := by exact_mod_cast climbs k
  have more : 1 < k * (1 - w) := (div_lt_iff₀ gap).mp large
  linarith

end Nearest

/-- strconv.FormatFloat(x, 'f', 1, 64) and the verb %.1f, on the exact value. -/
def formatFixed1 (x : ℚ) : List Char :=
  let n := (roundHalfEven (10 * |x|)).toNat
  (if x < 0 then ['-'] else []) ++ (Nat.toDigits 10 (n / 10) ++ '.' :: Nat.toDigits 10 (n % 10))

def takeDigits : List Char → List Char × List Char
  | [] => ([], [])
  | c :: cs => if c.isDigit then let p := takeDigits cs; (c :: p.1, p.2) else ([], c :: cs)

def parseUnsigned (cs : List Char) : Option ℚ :=
  let (whole, rest) := takeDigits cs
  match rest with
  | [] => if whole = [] then none else some (Nat.ofDigitChars 10 whole 0)
  | '.' :: rest =>
    let (part, tail) := takeDigits rest
    if tail ≠ [] ∨ (whole = [] ∧ part = []) then none
    else some (Nat.ofDigitChars 10 whole 0 + Nat.ofDigitChars 10 part 0 / 10 ^ part.length)
  | _ => none

/-- The value strconv.ParseFloat gives plain decimal text; none where it fails. -/
def parsePlain : List Char → Option ℚ
  | '-' :: cs => (parseUnsigned cs).map fun v => -v
  | '+' :: cs => parseUnsigned cs
  | cs => parseUnsigned cs

theorem takeDigits_digits (ds rest : List Char) (digits : ∀ c ∈ ds, c.isDigit)
    (stop : ∀ c ∈ rest.head?, c.isDigit = false) : takeDigits (ds ++ rest) = (ds, rest) := by
  induction ds with
  | nil =>
    cases rest with
    | nil => rfl
    | cons c cs => simp [takeDigits, stop c (by simp)]
  | cons d ds ih =>
    have first := digits d (by simp)
    simp [takeDigits, first, ih (fun c hc => digits c (by simp [hc]))]

theorem toDigits_are_digits (n : ℕ) : ∀ c ∈ Nat.toDigits 10 n, c.isDigit := fun _ member =>
  Nat.isDigit_of_mem_toDigits (by decide) (by decide) member

theorem parseUnsigned_fixed (n : ℕ) :
    parseUnsigned (Nat.toDigits 10 (n / 10) ++ '.' :: Nat.toDigits 10 (n % 10)) =
      some ((n : ℚ) / 10) := by
  have one : (Nat.toDigits 10 (n % 10)).length = 1 := by
    rw [Nat.toDigits_of_lt_base (Nat.mod_lt n (by decide))]
    rfl
  have whole := takeDigits_digits (Nat.toDigits 10 (n / 10)) ('.' :: Nat.toDigits 10 (n % 10))
    (toDigits_are_digits _) (by simp)
  have part := takeDigits_digits (Nat.toDigits 10 (n % 10)) [] (toDigits_are_digits _) (by simp)
  rw [List.append_nil] at part
  have join : ((n / 10 : ℕ) : ℚ) + ((n % 10 : ℕ) : ℚ) / 10 = (n : ℚ) / 10 := by
    have parts : (n : ℚ) = 10 * ((n / 10 : ℕ) : ℚ) + ((n % 10 : ℕ) : ℚ) := by
      exact_mod_cast (Nat.div_add_mod n 10).symm
    rw [parts]; ring
  simp [parseUnsigned, whole, part, one, Nat.ofDigitChars_ten_toDigits, Nat.toDigits_ne_nil, join]

theorem parsePlain_of_digit {d : Char} {ds : List Char} (digit : d.isDigit) :
    parsePlain (d :: ds) = parseUnsigned (d :: ds) := by
  unfold parsePlain
  split
  · simp_all [Char.isDigit]
  · simp_all [Char.isDigit]
  · rfl

theorem formatFixed1_congr {x y : ℚ} (nonnegX : 0 ≤ x) (nonnegY : 0 ≤ y)
    (same : roundHalfEven (10 * x) = roundHalfEven (10 * y)) : formatFixed1 x = formatFixed1 y := by
  simp only [formatFixed1, abs_of_nonneg nonnegX, abs_of_nonneg nonnegY, nonnegX.not_gt,
    nonnegY.not_gt, same]

theorem parsePlain_formatFixed1 (x : ℚ) :
    parsePlain (formatFixed1 x) = some ((roundHalfEven (10 * x) : ℚ) / 10) := by
  have unsigned := parseUnsigned_fixed (roundHalfEven (10 * |x|)).toNat
  have back : (((roundHalfEven (10 * |x|)).toNat : ℕ) : ℚ) = (roundHalfEven (10 * |x|) : ℚ) := by
    have nonneg := roundHalfEven_nonneg (x := 10 * |x|) (by positivity)
    exact_mod_cast congrArg (Int.cast : ℤ → ℚ) (Int.toNat_of_nonneg nonneg)
  rw [back] at unsigned
  unfold formatFixed1
  by_cases negative : x < 0
  · simp only [negative, ↓reduceIte, List.cons_append, List.nil_append, parsePlain, unsigned,
      Option.map_some, Option.some.injEq]
    rw [abs_of_neg negative, show 10 * -x = -(10 * x) by ring, roundHalfEven_neg]
    push_cast
    ring
  · simp only [negative, ↓reduceIte, List.nil_append]
    rw [abs_of_nonneg (not_lt.mp negative)] at unsigned ⊢
    obtain ⟨d, ds, text⟩ := List.exists_cons_of_ne_nil
      (Nat.toDigits_ne_nil (n := (roundHalfEven (10 * x)).toNat / 10) (b := 10))
    have digit : d.isDigit := toDigits_are_digits _ d (by rw [text]; simp)
    rw [text, List.cons_append] at unsigned ⊢
    rw [parsePlain_of_digit digit, unsigned]

theorem comma_not_in_formatFixed1 (x : ℚ) : ',' ∉ formatFixed1 x := by
  have noDigit : ∀ n : ℕ, ',' ∉ Nat.toDigits 10 n := by
    intro n member
    have := toDigits_are_digits n _ member
    simp [Char.isDigit] at this
  unfold formatFixed1
  split <;> simp [noDigit]

end DecimalText
