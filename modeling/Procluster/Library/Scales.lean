import Mathlib.Algebra.Order.Field.Basic
import Mathlib.Algebra.Order.Floor.Ring
import Mathlib.Tactic.FieldSimp
import Mathlib.Tactic.LinearCombination
import Mathlib.Tactic.Ring

/- Scales of an axis. On a linear one a value stands at origin + value * unit: zooming
   changes the unit, panning the origin. On a grid a value is rounded down to the start of
   the bin that contains it. -/
namespace LinearScale
universe u
variable {K : Type u} [Field K]

structure Scale (K : Type u) where
  origin : K
  unit : K

def Scale.place (a : Scale K) (v : K) : K := a.origin + v * a.unit

def Scale.under (a : Scale K) (p : K) : K := (p - a.origin) / a.unit

theorem place_under {a : Scale K} (unit : a.unit ≠ 0) (p : K) : a.place (a.under p) = p := by
  simp only [Scale.place, Scale.under]
  field_simp
  ring

theorem under_place {a : Scale K} (unit : a.unit ≠ 0) (v : K) : a.under (a.place v) = v := by
  simp only [Scale.place, Scale.under]
  field_simp
  ring

/-- A value stays at its place, or moves from p to q, for one origin of the new scale. -/
theorem under_eq_iff {a b : Scale K} (unit : a.unit ≠ 0) (unit' : b.unit ≠ 0) (p q : K) :
    b.under q = a.under p ↔ b.origin = q - (p - a.origin) * (b.unit / a.unit) := by
  simp only [Scale.under]
  rw [div_eq_div_iff unit' unit]
  constructor
  · intro same
    field_simp
    linear_combination -same
  · intro moved
    rw [moved]
    field_simp
    ring

/-- With the unit kept the origin goes along with the value. -/
theorem under_shift_iff {a b : Scale K} (unit : a.unit ≠ 0) (same : b.unit = a.unit) (p q : K) :
    b.under q = a.under p ↔ b.origin - a.origin = q - p := by
  rw [under_eq_iff unit (same ▸ unit), same, div_self unit, mul_one]
  constructor
  · intro moved
    rw [moved]
    ring
  · intro shift
    linear_combination shift

theorem under_zoom {a b : Scale K} {m : K} (unit : a.unit ≠ 0) (nonzero : m ≠ 0)
    (factor : b.unit = a.unit * m) {p mid : K}
    (moved : b.under mid = a.under p - (a.under p - a.under mid) / m) : b.under p = a.under p := by
  simp only [Scale.under, factor] at moved ⊢
  field_simp at moved ⊢
  linear_combination moved

end LinearScale

namespace FloorGrid
universe u
variable {Value : Type u} [Field Value] [LinearOrder Value] [IsStrictOrderedRing Value] [FloorRing Value]
  {width : Value}

theorem floor_mul_iff (positive : 0 < width) (x : Value) (k : ℤ) :
    (⌊x / width⌋ : Value) * width = k * width ↔ k * width ≤ x ∧ x < k * width + width := by
  rw [mul_left_inj' positive.ne', Int.cast_inj, Int.floor_eq_iff, le_div_iff₀ positive, div_lt_iff₀ positive,
    add_mul, one_mul]

end FloorGrid
