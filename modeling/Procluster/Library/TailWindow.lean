import Mathlib.Data.List.Nodup
import Mathlib.Order.Lattice

/- The last elements of a list, as a negative slice takes them: zero keeps all. Where
   the keys ascend, an element is in the window exactly when fewer than the window's
   size of the keys are newer. -/
namespace TailWindow
universe u v
variable {Item : Type u}

def keepLast (n : ℕ) (xs : List Item) : List Item := if n = 0 then xs else xs.drop (xs.length - n)

/-- What the window over a list and its continuation keeps of the list. -/
def keptBefore (n : ℕ) (xs ys : List Item) : List Item :=
  if n = 0 then xs else xs.drop (xs.length + ys.length - n)

theorem keepLast_sublist (n : ℕ) (xs : List Item) : (keepLast n xs).Sublist xs := by
  unfold keepLast
  split
  · exact .refl xs
  · exact List.drop_sublist _ xs

theorem keepLast_append (n : ℕ) (xs ys : List Item) :
    keepLast n (xs ++ ys) = keptBefore n xs ys ++ keepLast n ys := by
  unfold keepLast keptBefore
  split
  · rfl
  · rw [List.drop_append, List.length_append]
    congr 2
    omega

theorem keptBefore_sublist (n : ℕ) (xs ys : List Item) : (keptBefore n xs ys).Sublist xs := by
  unfold keptBefore
  split
  · exact .refl xs
  · exact List.drop_sublist _ xs

theorem keepLast_of_kept {n : ℕ} {xs ys : List Item} {x : Item} (kept : x ∈ keptBefore n xs ys) :
    keepLast n ys = ys := by
  unfold keepLast
  unfold keptBefore at kept
  split at kept
  · rename_i zero
    exact if_pos zero
  · rename_i positive
    have inside := List.length_pos_of_mem kept
    rw [List.length_drop] at inside
    rw [if_neg positive, show ys.length - n = 0 by omega, List.drop_zero]

theorem keepLast_singleton (n : ℕ) (x : Item) : keepLast n [x] = [x] := by
  unfold keepLast
  split
  · rfl
  · rename_i positive
    rw [List.length_singleton, show 1 - n = 0 by omega, List.drop_zero]

theorem last_kept (n : ℕ) (xs : List Item) (x : Item) : x ∈ keepLast n (xs ++ [x]) := by
  rw [keepLast_append, keepLast_singleton]
  exact List.mem_append_right _ (List.mem_singleton_self x)

theorem head_kept_iff (n : ℕ) {x : Item} {xs : List Item} (fresh : x ∉ xs) :
    x ∈ keepLast n (x :: xs) ↔ n = 0 ∨ xs.length < n := by
  unfold keepLast
  split
  · rename_i zero
    simp [zero]
  · rename_i positive
    by_cases room : xs.length < n
    · rw [List.length_cons, show xs.length + 1 - n = 0 by omega]
      simp [room]
    · rw [List.length_cons, show xs.length + 1 - n = (xs.length - n) + 1 by omega,
        List.drop_succ_cons]
      simp only [positive, room, or_self, iff_false]
      intro later
      exact fresh (List.drop_subset _ _ later)

theorem map_keepLast {Key : Type v} (key : Item → Key) (n : ℕ) (xs : List Item) :
    (keepLast n xs).map key = keepLast n (xs.map key) := by
  unfold keepLast
  split
  · rfl
  · rw [List.map_drop, List.length_map]

section Keys
variable {Key : Type v} [LinearOrder Key]

/-- Fewer than n of the keys are newer, where n counts. -/
def InWindow (n : ℕ) (keys : List Key) (k : Key) : Prop :=
  n = 0 ∨ (keys.filter fun j => k < j).length < n

theorem newer_keys {older newer : List Key} {k : Key}
    (ascending : (older ++ k :: newer).Pairwise (· < ·)) :
    (older ++ k :: newer).filter (fun j => k < j) = newer := by
  obtain ⟨-, tail, apart⟩ := List.pairwise_append.mp ascending
  have below : older.filter (fun j => k < j) = [] := by
    apply List.filter_eq_nil_iff.mpr
    intro j hj
    simpa using (apart j hj k List.mem_cons_self).le
  have above : newer.filter (fun j => k < j) = newer := by
    apply List.filter_eq_self.mpr
    intro j hj
    simpa using (List.pairwise_cons.mp tail).1 j hj
  rw [List.filter_append, List.filter_cons_of_neg (by simp), below, above, List.nil_append]

variable {keys : List Key} (ascending : keys.Pairwise (· < ·))
include ascending

theorem mem_keepLast_iff (n : ℕ) (k : Key) :
    k ∈ keepLast n keys ↔ k ∈ keys ∧ InWindow n keys k := by
  by_cases member : k ∈ keys
  · obtain ⟨older, newer, rfl⟩ := List.append_of_mem member
    obtain ⟨-, tail, apart⟩ := List.pairwise_append.mp ascending
    have notOlder : k ∉ keptBefore n older (k :: newer) := by
      intro kept
      exact lt_irrefl k (apart k ((keptBefore_sublist n older _).subset kept) k List.mem_cons_self)
    have notNewer : k ∉ newer := fun later => lt_irrefl k ((List.pairwise_cons.mp tail).1 k later)
    rw [keepLast_append, List.mem_append, or_iff_right notOlder, head_kept_iff n notNewer, InWindow,
      newer_keys ascending, and_iff_right member]
  · constructor
    · intro kept
      exact absurd ((keepLast_sublist n keys).subset kept) member
    · intro both
      exact absurd both.1 member

/- Cutting the list to the window does not change what is in the window. -/
theorem inWindow_keepLast_iff (n : ℕ) (k : Key) :
    InWindow n (keepLast n keys) k ↔ InWindow n keys k := by
  by_cases zero : n = 0
  · simp [InWindow, zero]
  · have parts : keys.take (keys.length - n) ++ keepLast n keys = keys := by
      rw [keepLast, if_neg zero, List.take_append_drop]
    have length : (keepLast n keys).length = min n keys.length := by
      rw [keepLast, if_neg zero, List.length_drop]
      omega
    rw [← parts] at ascending
    obtain ⟨-, -, apart⟩ := List.pairwise_append.mp ascending
    simp only [InWindow, zero, false_or]
    conv_rhs => rw [← parts, List.filter_append, List.length_append]
    constructor
    · intro inside
      -- a full window with a key not newer than k has only older keys in front of it
      have cut : (keys.take (keys.length - n)).filter (fun j => k < j) = [] := by
        apply List.filter_eq_nil_iff.mpr
        intro d hd
        have full : (keepLast n keys).length = n := by
          have some_cut := List.length_pos_of_mem hd
          rw [List.length_take] at some_cut
          omega
        have shorter : ((keepLast n keys).filter fun j => k < j).length < (keepLast n keys).length := by
          rw [full]
          exact inside
        obtain ⟨j, hj, notNewer⟩ := List.length_filter_lt_length_iff_exists.mp shorter
        simp only [decide_eq_true_eq, not_lt] at notNewer
        simpa using (apart d hd j hj).le.trans notNewer
      rw [cut, List.length_nil, Nat.zero_add]
      exact inside
    · intro inside
      omega

end Keys

end TailWindow
