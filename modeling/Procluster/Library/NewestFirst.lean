import Mathlib
import Procluster.Library.KeyedFold

/- Items grouped by a key that is read in descending order, and a cut after some
   number of items. The newest keys form an upward closed set, so the items that
   have one of them are a prefix of any descending list. -/
namespace NewestFirst
open KeyedFold
universe u v w
variable {Key : Type u} {Entry : Type v} {Item : Type w} [LinearOrder Key]

def ascending (ks : List Key) : List Key := ks.dedup.insertionSort (· ≤ ·)

/-- The n greatest of the keys, in ascending order. -/
def newest (ks : List Key) (n : ℕ) : List Key := (ascending ks).drop ((ascending ks).length - n)

theorem mem_ascending {ks : List Key} {k : Key} : k ∈ ascending ks ↔ k ∈ ks := by
  rw [ascending, List.mem_insertionSort, List.mem_dedup]

theorem ascending_strict (ks : List Key) : (ascending ks).Pairwise (· < ·) := by
  have distinct : (ascending ks).Nodup :=
    (List.perm_insertionSort _ _).nodup_iff.mpr (List.nodup_dedup ks)
  have sorted : (ascending ks).Pairwise (· ≤ ·) := List.pairwise_insertionSort _ _
  exact (sorted.and distinct).imp fun h => lt_of_le_of_ne h.1 h.2

theorem newest_ascending (ks : List Key) (n : ℕ) : (newest ks n).Pairwise (· < ·) :=
  (ascending_strict ks).sublist (List.drop_sublist _ _)

theorem mem_of_newest {ks : List Key} {n : ℕ} {k : Key} (member : k ∈ newest ks n) : k ∈ ks :=
  mem_ascending.mp (List.mem_of_mem_drop member)

theorem newest_above {ks : List Key} {n : ℕ} {j k : Key} (member : j ∈ newest ks n)
    (present : k ∈ ks) (above : j ≤ k) : k ∈ newest ks n := by
  have sorted := ascending_strict ks
  have inside := mem_ascending.mpr present
  unfold newest at member ⊢
  generalize ascending ks = times at *
  rw [← List.take_append_drop (times.length - n) times] at sorted inside
  cases List.mem_append.mp inside with
  | inl older =>
    have below := (List.pairwise_append.mp sorted).2.2 k older j member
    exact absurd above (not_le.mpr below)
  | inr newer => exact newer

theorem ascending_unique {xs ys : List Key} (hx : xs.Pairwise (· < ·)) (hy : ys.Pairwise (· < ·))
    (same : ∀ k, k ∈ xs ↔ k ∈ ys) : xs = ys := by
  have perm : xs.Perm ys :=
    (List.perm_ext_iff_of_nodup (hx.imp fun h => h.ne) (hy.imp fun h => h.ne)).mpr same
  exact perm.eq_of_pairwise (fun a b _ _ hab hba => absurd hab (not_lt.mpr hba.le)) hx hy

/-- A test that only gets harder along a list passes exactly on a prefix. -/
theorem filter_eq_take {test : Item → Bool} {xs : List Item}
    (ordered : xs.Pairwise fun x y => test y = true → test x = true) :
    xs.filter test = xs.take (xs.filter test).length := by
  induction xs with
  | nil => rfl
  | cons x xs ih =>
    obtain ⟨first, rest⟩ := List.pairwise_cons.mp ordered
    by_cases passes : test x = true
    · rw [List.filter_cons_of_pos passes, List.length_cons, List.take_succ_cons, ← ih rest]
    · have empty : xs.filter test = [] := by
        apply List.filter_eq_nil_iff.mpr
        intro y hy later
        exact passes (first y hy later)
      rw [List.filter_cons_of_neg passes, empty]
      rfl

theorem filter_take {test : Item → Bool} {xs : List Item}
    (ordered : xs.Pairwise fun x y => test y = true → test x = true) (n : ℕ) :
    (xs.take n).filter test = (xs.filter test).take n := by
  induction xs generalizing n with
  | nil => simp
  | cons x xs ih =>
    obtain ⟨first, rest⟩ := List.pairwise_cons.mp ordered
    cases n with
    | zero => simp
    | succ n =>
      by_cases passes : test x = true
      · rw [List.take_succ_cons, List.filter_cons_of_pos passes, List.filter_cons_of_pos passes,
          List.take_succ_cons, ih rest]
      · have empty : (x :: xs).filter test = [] := by
          apply List.filter_eq_nil_iff.mpr
          intro y hy later
          rcases List.mem_cons.mp hy with rfl | hy
          · exact passes later
          · exact passes (first y hy later)
        rw [empty, List.take_nil]
        exact List.eq_nil_of_sublist_nil (empty ▸ (List.take_sublist _ _).filter test)

theorem ascending_iff_of_descending {xs : List Key} (descending : xs.Pairwise (· ≥ ·)) :
    xs.Pairwise (· < ·) ↔ xs.length ≤ 1 := by
  cases xs with
  | nil => simp
  | cons x xs =>
    cases xs with
    | nil => simp
    | cons y ys =>
      have above := (List.pairwise_cons.mp descending).1 y (by simp)
      constructor
      · intro ascending
        exact absurd ((List.pairwise_cons.mp ascending).1 y (by simp)) (not_lt.mpr above)
      · intro short
        simp at short

theorem gather_keys_descending {key : Item → Key} (f : Item → Option Entry → Entry)
    {items : List Item} (ordered : items.Pairwise fun x y => key y ≤ key x) :
    (keys (gather key f items)).Pairwise (· > ·) := by
  induction items using List.reverseRecOn with
  | nil => simp [gather]
  | append_singleton items x ih =>
    obtain ⟨earlier, _, last⟩ := List.pairwise_append.mp ordered
    rw [gather_append_one, keys_upsert]
    split
    · exact ih earlier
    · rename_i fresh
      refine List.pairwise_append.mpr ⟨ih earlier, List.pairwise_singleton _ _, ?_⟩
      intro k hk j hj
      simp only [List.mem_singleton] at hj
      subst hj
      obtain ⟨y, hy, same⟩ := (mem_gather_keys key f items k).mp hk
      have atLeast : key x ≤ k := same ▸ last y hy x (by simp)
      have differ : key x ≠ k := by
        intro equal
        exact fresh (equal ▸ hk)
      exact lt_of_le_of_ne atLeast differ

theorem filter_cons_length (key : Item → Key) (items : List Item) {k : Key} {ks : List Key}
    (fresh : k ∉ ks) : (items.filter fun x => key x ∈ k :: ks).length =
      (items.filter fun x => key x = k).length + (items.filter fun x => key x ∈ ks).length := by
  induction items with
  | nil => rfl
  | cons x items ih =>
    by_cases mine : key x = k
    · subst mine
      simp only [List.mem_cons, true_or, decide_true, List.filter_cons_of_pos, List.length_cons,
        fresh, decide_false, Bool.false_eq_true, not_false_eq_true, List.filter_cons_of_neg] at ih ⊢
      omega
    · by_cases other : key x ∈ ks
      · simp only [List.mem_cons, mine, other, or_true, decide_true, List.filter_cons_of_pos,
          List.length_cons, decide_false, Bool.false_eq_true, not_false_eq_true,
          List.filter_cons_of_neg] at ih ⊢
        omega
      · simp only [List.mem_cons, mine, other, or_self, decide_false, Bool.false_eq_true,
          not_false_eq_true, List.filter_cons_of_neg] at ih ⊢
        exact ih

theorem sum_group_lengths (key : Item → Key) (items : List Item) {ks : List Key}
    (distinct : ks.Nodup) : (ks.map fun k => (items.filter fun x => key x = k).length).sum =
      (items.filter fun x => key x ∈ ks).length := by
  induction ks with
  | nil => simp
  | cons k ks ih =>
    obtain ⟨fresh, distinct⟩ := List.nodup_cons.mp distinct
    rw [List.map_cons, List.sum_cons, ih distinct, filter_cons_length key items fresh]

end NewestFirst
