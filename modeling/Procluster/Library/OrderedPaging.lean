import Procluster.Library.CursorPaging

/- Reading an ascending list page by page, each page being the next items from the cursor
   on. The loop always ends; what it has collected is an initial part of the items in the
   range, and all of them when every page it asked for arrived. -/
namespace OrderedPaging
open CursorPaging
universe u w
variable {Item : Type u} {Err : Type w} (mark : Item → ℤ) (last : ℤ)

def Asks (fetch : ℕ → ℤ → Fetched Err Item) : ℕ → ℕ → ℤ → ℕ → Prop
  | 0, _, _, _ => False
  | fuel + 1, k, current, j =>
    ¬ last < current ∧ (j = k ∨ ∃ batch more cursor, fetch k current = .page batch ∧ batch ≠ [] ∧
      readPage mark last [] current batch = (more, some cursor) ∧ Asks fetch fuel (k + 1) cursor j)

def after (content : List Item) (c : ℤ) : List Item := content.filter fun x => c ≤ mark x

def within (content : List Item) (c : ℤ) : List Item :=
  content.filter fun x => c ≤ mark x ∧ mark x ≤ last

/-- A page that arrives brings the next items from the cursor on, at least one of them
    when there are any. -/
structure ServesNext (content : List Item) (lowest : ℤ) (arrives : ℕ → Prop)
    (fetch : ℕ → ℤ → Fetched Err Item) : Prop where
  page : ∀ k c, lowest ≤ c → arrives k →
    ∃ size > 0, fetch k c = .page ((after mark content c).take size)
  missing : ∀ k c, ¬ arrives k → fetch k c = .gaveUp

variable {mark last}

theorem readPage_inside {batch : List Item} (inside : ∀ x ∈ batch, mark x ≤ last) (all : List Item)
    (current : ℤ) : readPage mark last all current batch =
      (all ++ batch, some ((batch.getLast?.map fun x => mark x + 1).getD current)) := by
  induction batch generalizing all current with
  | nil => simp [readPage]
  | cons x batch ih =>
    obtain ⟨here, later⟩ := List.forall_mem_cons.mp inside
    rw [readPage, if_neg (not_lt.mpr here), ih later, List.append_assoc]
    cases batch with
    | nil => rfl
    | cons y batch => simp [List.getLast?_eq_some_getLast]

theorem readPage_past {front : List Item} (inside : ∀ x ∈ front, mark x ≤ last) {y : Item}
    (behind : last < mark y) (rest : List Item) (all : List Item) (current : ℤ) :
    readPage mark last all current (front ++ y :: rest) = (all ++ front, none) := by
  induction front generalizing all current with
  | nil => rw [List.nil_append, readPage, if_pos behind, List.append_nil]
  | cons x front ih =>
    obtain ⟨here, later⟩ := List.forall_mem_cons.mp inside
    rw [List.cons_append, readPage, if_neg (not_lt.mpr here), ih later, List.append_assoc]
    rfl

theorem within_after (content : List Item) (c : ℤ) : within mark last content c =
    (after mark content c).filter fun x => mark x ≤ last := by
  rw [within, after, List.filter_filter]
  apply List.filter_congr
  intro x _
  rw [Bool.decide_and, Bool.and_comm]

variable {content : List Item} {lowest : ℤ} {arrives : ℕ → Prop}
  {fetch : ℕ → ℤ → Fetched Err Item}

/-- The outcome of a run from page k and a cursor. -/
def Collects (mark : Item → ℤ) (last : ℤ) (content : List Item) (arrives : ℕ → Prop)
    (fetch : ℕ → ℤ → Fetched Err Item) (k : ℕ) (c : ℤ) (fuel : ℕ) (R : List Item) : Prop :=
  collect mark last fetch fuel k [] c = some (.ok R) ∧ R <+: within mark last content c ∧
    ((∀ j, Asks mark last fetch fuel k c j → arrives j) → R = within mark last content c)

theorem collects_all {k : ℕ} {c : ℤ} {fuel : ℕ} {R : List Item}
    (done : collect mark last fetch fuel k [] c = some (.ok R))
    (whole : R = within mark last content c) :
    Collects mark last content arrives fetch k c fuel R :=
  ⟨done, whole ▸ List.prefix_rfl, fun _ => whole⟩

section Ascending
variable (ascending : content.Pairwise fun x y => mark x < mark y)
include ascending

theorem after_last {c : ℤ} {front rest : List Item} {y : Item}
    (split : after mark content c = front ++ y :: rest) : after mark content (mark y + 1) = rest := by
  have inside : y ∈ after mark content c := split ▸ by simp
  have reached : c ≤ mark y := by simpa using (List.mem_filter.mp inside).2
  have twice : after mark content (mark y + 1) =
      (after mark content c).filter fun x => mark y + 1 ≤ mark x := by
    rw [after, after, List.filter_filter]
    apply List.filter_congr
    intro x _
    by_cases later : mark y + 1 ≤ mark x
    · have also : c ≤ mark x := by omega
      simp [later, also]
    · simp [later]
  have sorted : (front ++ y :: rest).Pairwise fun x y => mark x < mark y :=
    split ▸ ascending.filter _
  obtain ⟨_, tail, across⟩ := List.pairwise_append.mp sorted
  have before : front.filter (fun x => decide (mark y + 1 ≤ mark x)) = [] := by
    apply List.filter_eq_nil_iff.mpr
    intro x hx
    have less := across x hx y (by simp)
    simp only [decide_eq_true_eq]
    omega
  have behind : rest.filter (fun x => decide (mark y + 1 ≤ mark x)) = rest := by
    apply List.filter_eq_self.mpr
    intro x hx
    have more := List.rel_of_pairwise_cons tail hx
    simp only [decide_eq_true_eq]
    omega
  rw [twice, split, List.filter_append, before, List.filter_cons_of_neg (by simp), behind,
    List.nil_append]

theorem within_page {c : ℤ} {front rest : List Item} {y : Item}
    (split : after mark content c = front ++ y :: rest) (inside : ∀ x ∈ front ++ [y], mark x ≤ last) :
    within mark last content c = (front ++ [y]) ++ within mark last content (mark y + 1) := by
  have whole : (front ++ [y]).filter (fun x => decide (mark x ≤ last)) = front ++ [y] :=
    List.filter_eq_self.mpr fun x hx => decide_eq_true (inside x hx)
  rw [within_after, within_after _ (mark y + 1), after_last ascending split, split,
    List.append_cons, List.filter_append, whole]

theorem within_end {c : ℤ} {front rest : List Item} {y : Item}
    (split : after mark content c = front ++ y :: rest) (inside : ∀ x ∈ front, mark x ≤ last)
    (behind : last < mark y) : within mark last content c = front := by
  have sorted : (front ++ y :: rest).Pairwise fun x y => mark x < mark y :=
    split ▸ ascending.filter _
  have tail := (List.pairwise_append.mp sorted).2.1
  have whole : front.filter (fun x => decide (mark x ≤ last)) = front :=
    List.filter_eq_self.mpr fun x hx => decide_eq_true (inside x hx)
  have nothing : rest.filter (fun x => decide (mark x ≤ last)) = [] := by
    apply List.filter_eq_nil_iff.mpr
    intro x hx
    have more := List.rel_of_pairwise_cons tail hx
    simp only [decide_eq_true_eq]
    omega
  rw [within_after, split, List.filter_append, whole, List.filter_cons_of_neg (by simpa using behind),
    nothing, List.append_nil]

theorem collects_page {k : ℕ} {c : ℤ} {front rest : List Item} {y : Item} (open_range : ¬ last < c)
    (page : fetch k c = .page (front ++ [y])) (split : after mark content c = front ++ y :: rest)
    (inside : ∀ x ∈ front ++ [y], mark x ≤ last) {fuel : ℕ} {R : List Item}
    (later : Collects mark last content arrives fetch (k + 1) (mark y + 1) fuel R) :
    Collects mark last content arrives fetch k c (fuel + 1) (front ++ [y] ++ R) := by
  obtain ⟨done, part, complete⟩ := later
  have read : readPage mark last [] c (front ++ [y]) = (front ++ [y], some (mark y + 1)) := by
    rw [readPage_inside inside, List.getLast?_concat]
    rfl
  have filled : (front ++ [y]).isEmpty = false := by simp
  have range := within_page ascending split inside
  refine ⟨?_, ?_, ?_⟩
  · simp only [collect, if_neg open_range, page, filled, read]
    rw [collect_all, done]
    rfl
  · rw [range]
    exact List.prefix_append_right_inj _ |>.mpr part
  · intro arrived
    rw [range, complete]
    intro j asked
    exact arrived j ⟨open_range, .inr ⟨_, _, _, page, by simp, read, asked⟩⟩

theorem page_cases {k : ℕ} {c : ℤ} {batch rest : List Item} (open_range : ¬ last < c)
    (page : fetch k c = .page batch) (parts : after mark content c = batch ++ rest)
    (filled : batch ≠ []) : (∃ R, Collects mark last content arrives fetch k c 1 R) ∨
      ∃ front y, batch = front ++ [y] ∧ ∀ x ∈ batch, mark x ≤ last := by
  cases past : batch.find? fun z => decide (last < mark z) with
  | some z =>
    obtain ⟨behind, front, others, rfl, before⟩ := List.find?_eq_some_iff_append.mp past
    have outside := of_decide_eq_true behind
    have inside : ∀ x ∈ front, mark x ≤ last := by
      intro x hx
      simpa using before x hx
    rw [List.append_assoc, List.cons_append] at parts
    refine .inl ⟨front, collects_all ?_ (within_end ascending parts inside outside).symm⟩
    simp only [collect, if_neg open_range, page, readPage_past inside outside]
    simp
  | none =>
    refine .inr ⟨_, _, (List.dropLast_concat_getLast filled).symm, ?_⟩
    intro x hx
    simpa using List.find?_eq_none.mp past x hx

/-- Some fuel suffices, and the run collects an initial part of the range, all of it when
    every page it asks for arrives. -/
theorem collect_within (serves : ServesNext mark content lowest arrives fetch) (k : ℕ) {c : ℤ}
    (asked : lowest ≤ c) :
    ∃ fuel R, Collects mark last content arrives fetch k c fuel R := by
  induction left : (after mark content c).length using Nat.strongRecOn generalizing k c with
  | ind n ih =>
    by_cases passed : last < c
    · refine ⟨1, [], collects_all (by rw [collect, if_pos passed]) ?_⟩
      symm
      apply List.filter_eq_nil_iff.mpr
      intro x _
      simp only [decide_eq_true_eq]
      omega
    by_cases arrived : arrives k
    · obtain ⟨size, some_items, page⟩ := serves.page k c asked arrived
      have parts := (List.take_append_drop size (after mark content c)).symm
      by_cases filled : (after mark content c).take size = []
      · have nothing : after mark content c = [] := by simpa [some_items.ne'] using filled
        refine ⟨1, [], collects_all ?_ ?_⟩
        · simp [collect, passed, page, filled]
        · rw [within_after, nothing, List.filter_nil]
      generalize (after mark content c).drop size = rest at parts
      generalize (after mark content c).take size = batch at page parts filled
      rcases page_cases ascending passed page parts filled with ended | ⟨front, y, rfl, inside⟩
      · exact ⟨1, ended⟩
      · rw [List.append_assoc, List.cons_append, List.nil_append] at parts
        have cursor : lowest ≤ mark y + 1 := by
          have member : y ∈ after mark content c := parts ▸ by simp
          have reached : c ≤ mark y := by simpa using (List.mem_filter.mp member).2
          omega
        have fewer : (after mark content (mark y + 1)).length < n := by
          rw [after_last ascending parts, ← left, parts, List.length_append, List.length_cons]
          omega
        obtain ⟨fuel, R, later⟩ := ih _ fewer (k + 1) cursor rfl
        exact ⟨_, _, collects_page ascending passed page parts inside later⟩
    · refine ⟨1, [], ?_, List.nil_prefix, ?_⟩
      · simp [collect, passed, serves.missing k c arrived]
      · intro all
        exact absurd (all k ⟨passed, .inl rfl⟩) arrived

end Ascending

end OrderedPaging
