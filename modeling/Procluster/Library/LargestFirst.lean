import Mathlib.Algebra.Order.BigOperators.Group.List
import Mathlib.Data.List.Perm.Subperm

/- Items by weight. The first of the heaviest items is what a forward scan with a strict
   comparison finds and what a stable descending sort puts first. Taking items in
   descending order until a target is reached takes the fewest items that reach it. -/
namespace LargestFirst
universe u v
variable {Item : Type u} {M : Type v} [LinearOrder M]

/-- The first of the heaviest items. -/
def FirstMost (weight : Item → M) (xs : List Item) (x : Item) : Prop :=
  ∃ before after, xs = before ++ x :: after ∧ (∀ y ∈ before, weight y < weight x) ∧
    ∀ y ∈ after, weight y ≤ weight x

variable {weight : Item → M}

theorem FirstMost.mem {xs : List Item} {x : Item} (first : FirstMost weight xs x) : x ∈ xs := by
  obtain ⟨before, after, rfl, _, _⟩ := first
  simp

theorem FirstMost.most {xs : List Item} {x : Item} (first : FirstMost weight xs x) :
    ∀ y ∈ xs, weight y ≤ weight x := by
  obtain ⟨before, after, rfl, smaller, atMost⟩ := first
  intro y hy
  rcases List.mem_append.mp hy with early | late
  · exact (smaller y early).le
  · rcases List.mem_cons.mp late with rfl | later
    · exact le_rfl
    · exact atMost y later

theorem FirstMost.filter {xs : List Item} {x : Item} (first : FirstMost weight xs x)
    (keep : Item → Bool) (kept : keep x = true) : FirstMost weight (xs.filter keep) x := by
  obtain ⟨before, after, rfl, smaller, atMost⟩ := first
  refine ⟨before.filter keep, after.filter keep, ?_, ?_, ?_⟩
  · rw [List.filter_append, List.filter_cons_of_pos kept]
  · exact fun y hy => smaller y (List.mem_of_mem_filter hy)
  · exact fun y hy => atMost y (List.mem_of_mem_filter hy)

theorem FirstMost.map {Other : Type*} {weight' : Other → M} {f : Item → Other} {xs : List Item}
    {x : Item} (first : FirstMost weight xs x) (same : ∀ y ∈ xs, weight' (f y) = weight y) :
    FirstMost weight' (xs.map f) (f x) := by
  have own := same x first.mem
  obtain ⟨before, after, rfl, smaller, atMost⟩ := first
  refine ⟨before.map f, after.map f, by simp, ?_, ?_⟩
  · rw [List.forall_mem_map]
    intro y hy
    rw [own, same y (by simp [hy])]
    exact smaller y hy
  · rw [List.forall_mem_map]
    intro y hy
    rw [own, same y (by simp [hy])]
    exact atMost y hy

theorem FirstMost.append {xs ys : List Item} {x : Item} (first : FirstMost weight xs x)
    (light : ∀ y ∈ ys, weight y ≤ weight x) : FirstMost weight (xs ++ ys) x := by
  obtain ⟨before, after, rfl, smaller, atMost⟩ := first
  refine ⟨before, after ++ ys, by simp, smaller, ?_⟩
  intro y hy
  rcases List.mem_append.mp hy with near | behind
  · exact atMost y near
  · exact light y behind

theorem exists_firstMost {xs : List Item} (nonempty : xs ≠ []) : ∃ x, FirstMost weight xs x := by
  induction xs with
  | nil => exact absurd rfl nonempty
  | cons y xs ih =>
    by_cases only : xs = []
    · subst only
      exact ⟨y, [], [], rfl, by simp, by simp⟩
    · obtain ⟨x, first⟩ := ih only
      by_cases smaller : weight y < weight x
      · obtain ⟨before, after, rfl, less, atMost⟩ := first
        exact ⟨x, y :: before, after, rfl, List.forall_mem_cons.mpr ⟨smaller, less⟩, atMost⟩
      · refine ⟨y, [], xs, rfl, by simp, ?_⟩
        intro z hz
        exact (first.most z hz).trans (not_lt.mp smaller)

def descending (weight : Item → M) (xs : List Item) : List Item :=
  xs.mergeSort fun a b => weight b ≤ weight a

theorem descending_pairwise (weight : Item → M) (xs : List Item) :
    (descending weight xs).Pairwise fun a b => weight b ≤ weight a := by
  have sorted : (descending weight xs).Pairwise fun a b => decide (weight b ≤ weight a) = true :=
    List.pairwise_mergeSort
      (fun a b c ab bc => decide_eq_true ((of_decide_eq_true bc).trans (of_decide_eq_true ab)))
      (fun a b => by simpa using le_total (weight b) (weight a)) xs
  exact sorted.imp of_decide_eq_true

theorem descending_cons (weight : Item → M) (y : Item) (ys : List Item) :
    ∃ l₁ l₂, descending weight (y :: ys) = l₁ ++ y :: l₂ ∧ descending weight ys = l₁ ++ l₂ ∧
      ∀ z ∈ l₁, weight y < weight z := by
  have inserted : ∃ l₁ l₂, descending weight (y :: ys) = l₁ ++ y :: l₂ ∧
      descending weight ys = l₁ ++ l₂ ∧ ∀ z ∈ l₁, (!decide (weight z ≤ weight y)) = true :=
    List.mergeSort_cons
      (fun a b c ab bc => decide_eq_true ((of_decide_eq_true bc).trans (of_decide_eq_true ab)))
      (fun a b => by simpa using le_total (weight b) (weight a)) y ys
  obtain ⟨l₁, l₂, whole, rest, above⟩ := inserted
  exact ⟨l₁, l₂, whole, rest, fun z hz => by simpa using above z hz⟩

theorem head_descending {xs : List Item} {x : Item} (first : FirstMost weight xs x) :
    (descending weight xs).head? = some x := by
  obtain ⟨before, after, rfl, smaller, atMost⟩ := first
  induction before with
  | nil =>
    obtain ⟨l₁, l₂, whole, rest, above⟩ := descending_cons weight x after
    cases l₁ with
    | nil =>
      rw [List.nil_append, whole]
      rfl
    | cons z l₁ =>
      have inside : z ∈ descending weight after := rest ▸ by simp
      exact absurd (above z (by simp)) (not_lt.mpr (atMost z (List.mem_mergeSort.mp inside)))
  | cons y before ih =>
    obtain ⟨less, later⟩ := List.forall_mem_cons.mp smaller
    obtain ⟨l₁, l₂, whole, rest, _⟩ := descending_cons weight y (before ++ x :: after)
    have front := ih later
    rw [rest] at front
    rw [List.cons_append, whole]
    cases l₁ with
    | nil =>
      have sorted := descending_pairwise weight (y :: (before ++ x :: after))
      rw [whole] at sorted
      have behind : x ∈ l₂ := List.mem_of_mem_head? front
      exact absurd (List.rel_of_pairwise_cons sorted behind) (not_le.mpr less)
    | cons z l₁ => exact front

section Scan
variable [Zero M]

/-- The forward scan for an item heavier than zero and everything before it. -/
def scan (weight : Item → M) (xs : List Item) : Option Item :=
  (xs.foldl (fun (best : M × Option Item) x =>
    if best.1 < weight x then (weight x, some x) else best) (0, none)).2

/- The scan keeps the best so far, which only a heavier item replaces. -/
theorem scan_firstMost {xs : List Item} {x : Item} (first : FirstMost weight xs x)
    (positive : 0 < weight x) : scan weight xs = some x := by
  obtain ⟨before, after, rfl, smaller, atMost⟩ := first
  unfold scan
  rw [List.foldl_append, List.foldl_cons]
  have below : (before.foldl (fun (best : M × Option Item) y =>
      if best.1 < weight y then (weight y, some y) else best) (0, none)).1 < weight x := by
    apply List.foldlRecOn (motive := fun best : M × Option Item => best.1 < weight x) before _ positive
    intro best less y hy
    split
    · exact smaller y hy
    · exact less
  rw [if_pos below]
  have stays : after.foldl (fun (best : M × Option Item) y =>
      if best.1 < weight y then (weight y, some y) else best) (weight x, some x) =
        (weight x, some x) := by
    apply List.foldlRecOn (motive := fun best : M × Option Item => best = (weight x, some x)) after _ rfl
    intro best same y hy
    rw [same]
    exact if_neg (not_lt.mpr (atMost y hy))
  rw [stays]

theorem scan_none {xs : List Item} (light : ∀ x ∈ xs, weight x ≤ 0) : scan weight xs = none := by
  unfold scan
  have stays : xs.foldl (fun (best : M × Option Item) y =>
      if best.1 < weight y then (weight y, some y) else best) (0, none) = (0, none) := by
    apply List.foldlRecOn (motive := fun best : M × Option Item => best = (0, none)) xs _ rfl
    intro best same y hy
    rw [same]
    exact if_neg (not_lt.mpr (light y hy))
  rw [stays]

end Scan

section Take
variable {S : Type*} (reached : S → Bool) (step : S → Item → S)

/-- Items are taken, and the running state is stepped, until the state has reached its
    target. -/
def takeUntil : S → List Item → List Item
  | _, [] => []
  | s, x :: xs => x :: if reached (step s x) then [] else takeUntil (step s x) xs

variable {reached step}

theorem takeUntil_front (s : S) (xs : List Item) : takeUntil reached step s xs <+: xs := by
  induction xs generalizing s with
  | nil => exact List.prefix_rfl
  | cons x xs ih =>
    rw [takeUntil, List.prefix_cons_inj]
    split
    · exact List.nil_prefix
    · exact ih _

theorem takeUntil_ne_nil {s : S} {xs : List Item} (some_items : xs ≠ []) :
    takeUntil reached step s xs ≠ [] := by
  obtain ⟨x, xs, rfl⟩ := List.exists_cons_of_ne_nil some_items
  exact List.cons_ne_nil _ _

theorem takeUntil_reaches {s : S} {xs : List Item} (some_items : xs ≠ [])
    (enough : reached (xs.foldl step s) = true) :
    reached ((takeUntil reached step s xs).foldl step s) = true := by
  induction xs generalizing s with
  | nil => exact absurd rfl some_items
  | cons x xs ih =>
    rw [takeUntil]
    split
    · rename_i now
      exact now
    · rename_i later
      by_cases only : xs = []
      · subst only
        exact absurd enough later
      · exact ih only enough

theorem takeUntil_total {target : M} {add : M → Item → M} {s : M} {xs : List Item} (some_items : xs ≠ [])
    (enough : target ≤ xs.foldl add s) :
    target ≤ (takeUntil (fun s => decide (target ≤ s)) add s xs).foldl add s := by
  let passed : M → Bool := fun s => decide (target ≤ s)
  have whole : passed (xs.foldl add s) = true := decide_eq_true enough
  have reached : passed ((takeUntil passed add s xs).foldl add s) = true := takeUntil_reaches some_items whole
  exact of_decide_eq_true reached

theorem takeUntil_short {s : S} {xs front : List Item} (part : front <+: takeUntil reached step s xs)
    (shorter : front.length < (takeUntil reached step s xs).length) (nonempty : front ≠ []) :
    reached (front.foldl step s) = false := by
  induction xs generalizing s front with
  | nil => exact absurd shorter (Nat.not_lt_zero _)
  | cons x xs ih =>
    obtain ⟨y, front, rfl⟩ := List.exists_cons_of_ne_nil nonempty
    rw [takeUntil] at part shorter
    obtain ⟨rfl, rest⟩ := List.cons_prefix_cons.mp part
    split at rest
    · rename_i now
      rw [if_pos now, List.prefix_nil.mp rest] at shorter
      exact absurd shorter (lt_irrefl _)
    · rename_i later
      rw [if_neg later, List.length_cons, List.length_cons, Nat.add_lt_add_iff_right] at shorter
      by_cases only : front = []
      · subst only
        exact Bool.eq_false_iff.mpr later
      · rw [List.foldl_cons]
        exact ih rest shorter only

theorem takeUntil_congr {T : Type*} {reached' : T → Bool} {step' : T → Item → T} {s : S} {t : T}
    {xs : List Item} (alike : ∀ front, front <+: xs → front ≠ [] →
      reached (front.foldl step s) = reached' (front.foldl step' t)) :
    takeUntil reached step s xs = takeUntil reached' step' t xs := by
  induction xs generalizing s t with
  | nil => rfl
  | cons x xs ih =>
    have first : reached (step s x) = reached' (step' t x) := alike [x] (by simp) (by simp)
    rw [takeUntil, takeUntil, first]
    congr 2
    apply ih
    intro front part nonempty
    exact alike (x :: front) (List.cons_prefix_cons.mpr ⟨rfl, part⟩) (by simp)

theorem mem_takeUntil {s : S} {xs : List Item} {x : Item} : x ∈ takeUntil reached step s xs ↔
    ∃ before after, xs = before ++ x :: after ∧
      ∀ front, front <+: before → front ≠ [] → reached (front.foldl step s) = false := by
  induction xs generalizing s with
  | nil => simp [takeUntil]
  | cons y xs ih =>
    rw [takeUntil, List.mem_cons]
    constructor
    · rintro (rfl | later)
      · refine ⟨[], xs, rfl, ?_⟩
        intro front inside nonempty
        exact absurd (List.prefix_nil.mp inside) nonempty
      · split at later
        · cases later
        · rename_i short
          obtain ⟨before, after, rfl, each⟩ := ih.mp later
          refine ⟨y :: before, after, rfl, ?_⟩
          intro front inside nonempty
          obtain ⟨z, rest, rfl⟩ := List.exists_cons_of_ne_nil nonempty
          obtain ⟨rfl, restInside⟩ := List.cons_prefix_cons.mp inside
          by_cases only : rest = []
          · subst only
            exact Bool.eq_false_iff.mpr short
          · exact each rest restInside only
    · rintro ⟨before, after, split, each⟩
      cases before with
      | nil =>
        obtain ⟨rfl, -⟩ := List.cons.inj split
        exact .inl rfl
      | cons z before =>
        obtain ⟨rfl, rest⟩ := List.cons.inj split
        have short : ¬ reached (step s y) = true := Bool.eq_false_iff.mp (each [y] (by simp) (by simp))
        rw [if_neg short]
        refine .inr (ih.mpr ⟨before, after, rest, ?_⟩)
        intro front inside nonempty
        exact each (y :: front) (List.cons_prefix_cons.mpr ⟨rfl, inside⟩) (by simp)

end Take

section Fewest
variable [AddCommMonoid M]

omit [LinearOrder M] in
theorem foldl_weights (running : M) (xs : List Item) :
    xs.foldl (fun s x => s + weight x) running = running + (xs.map weight).sum := by
  induction xs generalizing running with
  | nil => simp
  | cons x xs ih => rw [List.foldl_cons, ih, List.map_cons, List.sum_cons, add_assoc]

variable [IsOrderedAddMonoid M]

/- Among descending weights no selection outweighs as many items from the front. -/
theorem take_after_largest {x : Item} {xs : List Item}
    (sorted : (x :: xs).Pairwise fun a b => weight b ≤ weight a) {n : ℕ} (inside : n ≤ xs.length) :
    ((xs.take n).map weight).sum ≤ (((x :: xs).take n).map weight).sum := by
  induction n generalizing x xs with
  | zero => simp
  | succ n ih =>
    cases xs with
    | nil => simp at inside
    | cons y xs =>
      obtain ⟨largest, rest⟩ := List.pairwise_cons.mp sorted
      rw [List.take_succ_cons, List.take_succ_cons, List.map_cons, List.map_cons, List.sum_cons,
        List.sum_cons]
      exact add_le_add (largest y (by simp)) (ih rest (Nat.le_of_succ_le_succ inside))

theorem sum_le_take {xs ys : List Item} (sorted : xs.Pairwise fun a b => weight b ≤ weight a)
    (selection : ys.Subperm xs) : (ys.map weight).sum ≤ ((xs.take ys.length).map weight).sum := by
  obtain ⟨zs, perm, sublist⟩ := selection
  rw [← (perm.map weight).sum_eq, ← perm.length_eq]
  clear perm
  induction sublist with
  | slnil => simp
  | @cons zs xs x sublist ih =>
    exact (ih sorted.of_cons).trans (take_after_largest sorted sublist.length_le)
  | @cons_cons zs xs x sublist ih =>
    rw [List.length_cons, List.take_succ_cons, List.map_cons, List.map_cons, List.sum_cons,
      List.sum_cons]
    exact add_le_add le_rfl (ih sorted.of_cons)

/-- What is taken from descending weights is a smallest selection that reaches the target. -/
theorem takeUntil_fewest {target : M} (positive : 0 < target) {xs ys : List Item}
    (sorted : xs.Pairwise fun a b => weight b ≤ weight a) (selection : ys.Subperm xs)
    (reaches : target ≤ (ys.map weight).sum) :
    (takeUntil (fun s => decide (target ≤ s)) (fun s x => s + weight x) 0 xs).length ≤ ys.length := by
  generalize kept : takeUntil (fun s => decide (target ≤ s)) (fun s x => s + weight x) 0 xs = taken
  have whole : taken <+: xs := kept ▸ takeUntil_front 0 xs
  by_contra longer
  have fewer := Nat.lt_of_not_le longer
  have front : taken.take ys.length = xs.take ys.length := by
    conv_lhs => rw [List.prefix_iff_eq_take.mp whole]
    rw [List.take_take, min_eq_left fewer.le]
  have most := reaches.trans (sum_le_take sorted selection)
  rw [← front] at most
  by_cases none : ys = []
  · rw [none] at reaches
    exact absurd reaches (not_le.mpr positive)
  · have short : (taken.take ys.length).length = ys.length := List.length_take_of_le fewer.le
    have some_taken : taken.take ys.length ≠ [] := by
      intro empty
      rw [empty, List.length_nil] at short
      exact none (List.length_eq_zero_iff.mp short.symm)
    have part : taken.take ys.length <+: taken := List.take_prefix _ _
    subst kept
    have below := takeUntil_short part (short.trans_lt fewer) some_taken
    rw [foldl_weights, zero_add] at below
    exact of_decide_eq_false below most

end Fewest

end LargestFirst
