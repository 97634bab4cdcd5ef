import Mathlib.Data.List.Basic
import Mathlib.Order.Lattice

/- Neighbours in a list whose keys strictly ascend: two items are next to each other
   exactly when no key lies between theirs, and the position of an item follows from
   its key. -/
namespace Neighbours
universe u v
variable {Item : Type u} {Key : Type v}

def Adjacent (xs : List Item) (a b : Item) : Prop := ∃ i, xs[i]? = some a ∧ xs[i + 1]? = some b

theorem Adjacent.left_mem {xs : List Item} {a b : Item} (next : Adjacent xs a b) : a ∈ xs := by
  obtain ⟨i, first, _⟩ := next
  exact List.mem_of_getElem? first

theorem Adjacent.right_mem {xs : List Item} {a b : Item} (next : Adjacent xs a b) : b ∈ xs := by
  obtain ⟨i, _, second⟩ := next
  exact List.mem_of_getElem? second

variable [LinearOrder Key] {key : Item → Key} {xs : List Item}
  (ascending : xs.Pairwise fun a b => key a < key b)
include ascending

theorem key_lt_iff {i j : ℕ} {a b : Item} (first : xs[i]? = some a) (second : xs[j]? = some b) :
    key a < key b ↔ i < j := by
  obtain ⟨inside, rfl⟩ := List.getElem?_eq_some_iff.mp first
  obtain ⟨insideToo, rfl⟩ := List.getElem?_eq_some_iff.mp second
  have order := List.pairwise_iff_getElem.mp ascending
  constructor
  · intro less
    by_contra notBefore
    rcases Nat.lt_or_eq_of_le (Nat.le_of_not_lt notBefore) with later | same
    · exact lt_asymm less (order j i insideToo inside later)
    · subst same
      exact lt_irrefl _ less
  · exact order i j inside insideToo

theorem position_unique {i j : ℕ} {a b : Item} (first : xs[i]? = some a)
    (second : xs[j]? = some b) (same : key a = key b) : i = j := by
  have notBefore := mt (key_lt_iff ascending first second).mpr (same ▸ lt_irrefl _)
  have notAfter := mt (key_lt_iff ascending second first).mpr (same ▸ lt_irrefl _)
  omega

theorem adjacent_iff {a b : Item} : Adjacent xs a b ↔
    a ∈ xs ∧ b ∈ xs ∧ key a < key b ∧ ∀ c ∈ xs, ¬ (key a < key c ∧ key c < key b) := by
  constructor
  · rintro ⟨i, first, second⟩
    refine ⟨List.mem_of_getElem? first, List.mem_of_getElem? second,
      (key_lt_iff ascending first second).mpr (Nat.lt_succ_self i), ?_⟩
    rintro c hc ⟨above, below⟩
    obtain ⟨j, found⟩ := List.getElem?_of_mem hc
    have after := (key_lt_iff ascending first found).mp above
    have before := (key_lt_iff ascending found second).mp below
    omega
  · rintro ⟨ha, hb, less, nothing⟩
    obtain ⟨i, first⟩ := List.getElem?_of_mem ha
    obtain ⟨j, second⟩ := List.getElem?_of_mem hb
    have before := (key_lt_iff ascending first second).mp less
    by_cases next : j = i + 1
    · subst next
      exact ⟨i, first, second⟩
    · obtain ⟨inside, _⟩ := List.getElem?_eq_some_iff.mp second
      have found : xs[i + 1]? = some xs[i + 1] := List.getElem?_eq_getElem (by omega)
      refine absurd ⟨?_, ?_⟩ (nothing xs[i + 1] (List.getElem_mem _))
      · exact (key_lt_iff ascending first found).mpr (Nat.lt_succ_self i)
      · exact (key_lt_iff ascending found second).mpr (by omega)

theorem exists_before {a b : Item} (ha : a ∈ xs) (hb : b ∈ xs) (less : key a < key b) :
    ∃ c, Adjacent xs c b := by
  obtain ⟨i, first⟩ := List.getElem?_of_mem ha
  obtain ⟨j, second⟩ := List.getElem?_of_mem hb
  have before := (key_lt_iff ascending first second).mp less
  obtain ⟨inside, _⟩ := List.getElem?_eq_some_iff.mp second
  refine ⟨xs[j - 1], j - 1, List.getElem?_eq_getElem (by omega), ?_⟩
  rwa [Nat.sub_add_cancel (by omega)]

theorem exists_after {a b : Item} (ha : a ∈ xs) (hb : b ∈ xs) (less : key a < key b) :
    ∃ c, Adjacent xs a c := by
  obtain ⟨i, first⟩ := List.getElem?_of_mem ha
  obtain ⟨j, second⟩ := List.getElem?_of_mem hb
  have before := (key_lt_iff ascending first second).mp less
  obtain ⟨inside, _⟩ := List.getElem?_eq_some_iff.mp second
  exact ⟨xs[i + 1], i, first, List.getElem?_eq_getElem (by omega)⟩

theorem before_iff {i : ℕ} {b : Item} (at_b : xs[i]? = some b) (holds : Item → Prop) :
    (0 < i ∧ ∃ a, xs[i - 1]? = some a ∧ holds a) ↔ ∃ a, Adjacent xs a b ∧ holds a := by
  constructor
  · rintro ⟨positive, a, found, held⟩
    refine ⟨a, ⟨i - 1, found, ?_⟩, held⟩
    rwa [Nat.sub_add_cancel positive]
  · rintro ⟨a, ⟨j, found, second⟩, held⟩
    obtain rfl := position_unique ascending at_b second rfl
    exact ⟨Nat.succ_pos j, a, found, held⟩

theorem after_iff {i : ℕ} {a : Item} (at_a : xs[i]? = some a) (holds : Item → Prop) :
    (∃ b, xs[i + 1]? = some b ∧ holds b) ↔ ∃ b, Adjacent xs a b ∧ holds b := by
  constructor
  · rintro ⟨b, found, held⟩
    exact ⟨b, ⟨i, at_a, found⟩, held⟩
  · rintro ⟨b, ⟨j, first, second⟩, held⟩
    obtain rfl := position_unique ascending at_a first rfl
    exact ⟨b, second, held⟩

end Neighbours
