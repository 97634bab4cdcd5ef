import Mathlib.Algebra.BigOperators.Group.List.Lemmas
import Mathlib.Data.List.Dedup
import Mathlib.Data.List.Lookmap

/- Keyed tables as insertion-ordered association lists: upsert, lookup and erase,
   and the table a list of items builds when each item updates the entry of its
   own key. Entries of a missing key are created from `none`. `firsts` keeps of a
   list the items whose key no earlier item has. -/
namespace KeyedFold
universe u v w
variable {Key : Type u} {Entry : Type v} {Item : Type w}

def keys (table : List (Key × Entry)) : List Key := table.map Prod.fst

@[simp] theorem keys_nil : keys ([] : List (Key × Entry)) = [] := rfl

@[simp] theorem keys_cons (j : Key) (b : Entry) (rest : List (Key × Entry)) :
    keys ((j, b) :: rest) = j :: keys rest := rfl

variable [DecidableEq Key]

def upsert (k : Key) (f : Option Entry → Entry) : List (Key × Entry) → List (Key × Entry)
  | [] => [(k, f none)]
  | (j, b) :: rest => if j = k then (j, f (some b)) :: rest else (j, b) :: upsert k f rest

def find (k : Key) : List (Key × Entry) → Option Entry
  | [] => none
  | (j, b) :: rest => if j = k then some b else find k rest

def erase (k : Key) : List (Key × Entry) → List (Key × Entry)
  | [] => []
  | (j, b) :: rest => if j = k then erase k rest else (j, b) :: erase k rest

/-- The table built by folding each item into the entry of its key. -/
def gather (key : Item → Key) (f : Item → Option Entry → Entry) (items : List Item) :
    List (Key × Entry) :=
  items.foldl (fun table x => upsert (key x) (f x) table) []

@[simp] theorem find_nil (k : Key) : find k ([] : List (Key × Entry)) = none := rfl

@[simp] theorem find_upsert_self (k : Key) (f : Option Entry → Entry)
    (table : List (Key × Entry)) : find k (upsert k f table) = some (f (find k table)) := by
  induction table with
  | nil => simp [upsert, find]
  | cons p rest ih =>
    obtain ⟨j, b⟩ := p
    by_cases same : j = k
    · simp [upsert, find, same]
    · simp [upsert, find, same, ih]

theorem find_upsert_other {k j : Key} (f : Option Entry → Entry)
    (table : List (Key × Entry)) (other : j ≠ k) :
    find j (upsert k f table) = find j table := by
  induction table with
  | nil => simp [upsert, find, Ne.symm other]
  | cons p rest ih =>
    obtain ⟨i, b⟩ := p
    by_cases same : i = k
    · simp [upsert, find, same, Ne.symm other]
    · simp [upsert, find, same, ih]

theorem find_upsert (k j : Key) (f : Option Entry → Entry) (table : List (Key × Entry)) :
    find j (upsert k f table) = if j = k then some (f (find k table)) else find j table := by
  by_cases same : j = k
  · subst same; simp
  · simp [same, find_upsert_other f table same]

theorem find_erase (k j : Key) (table : List (Key × Entry)) :
    find j (erase k table) = if j = k then none else find j table := by
  induction table with
  | nil => simp [erase]
  | cons p rest ih =>
    obtain ⟨i, b⟩ := p
    by_cases gone : i = k
    · by_cases same : j = k
      · subst same; simpa [erase, gone] using ih
      · simp [erase, find, ih, gone, same, Ne.symm same]
    · by_cases same : i = j
      · subst same; simp [erase, find, gone]
      · simp [erase, find, gone, same, ih]

theorem erase_sublist (k : Key) (table : List (Key × Entry)) : (erase k table).Sublist table := by
  induction table with
  | nil => exact List.Sublist.refl _
  | cons p rest ih =>
    obtain ⟨j, b⟩ := p
    rw [erase]
    split
    · exact ih.cons _
    · exact ih.cons_cons _

theorem mem_keys_iff (k : Key) (table : List (Key × Entry)) :
    k ∈ keys table ↔ (find k table).isSome := by
  induction table with
  | nil => simp
  | cons p rest ih =>
    obtain ⟨j, b⟩ := p
    by_cases same : j = k
    · simp [find, same]
    · simp [find, same, Ne.symm same, ih]

theorem keys_upsert (k : Key) (f : Option Entry → Entry) (table : List (Key × Entry)) :
    keys (upsert k f table) = if k ∈ keys table then keys table else keys table ++ [k] := by
  induction table with
  | nil => simp [upsert]
  | cons p rest ih =>
    obtain ⟨j, b⟩ := p
    by_cases same : j = k
    · simp [upsert, same]
    · by_cases present : k ∈ keys rest
      · simp [upsert, same, ih, present]
      · simp [upsert, same, Ne.symm same, ih, present]

theorem keys_upsert_nodup (k : Key) (f : Option Entry → Entry) (table : List (Key × Entry))
    (distinct : (keys table).Nodup) : (keys (upsert k f table)).Nodup := by
  rw [keys_upsert]
  split
  · exact distinct
  · rename_i fresh
    exact List.nodup_append.mpr ⟨distinct, by simp, by
      intro a ha b hb same
      simp only [List.mem_singleton] at hb
      exact fresh (hb ▸ same ▸ ha)⟩

theorem find_of_mem {table : List (Key × Entry)} (distinct : (keys table).Nodup)
    {k : Key} {b : Entry} (member : (k, b) ∈ table) : find k table = some b := by
  induction table with
  | nil => simp at member
  | cons p rest ih =>
    obtain ⟨j, c⟩ := p
    obtain ⟨fresh, distinct⟩ := List.nodup_cons.mp distinct
    rcases List.mem_cons.mp member with same | later
    · simp only [Prod.mk.injEq] at same
      simp [find, same.1, same.2]
    · have other : j ≠ k := by
        rintro rfl
        exact fresh (List.mem_map.mpr ⟨_, later, rfl⟩)
      simp [find, other, ih distinct later]

theorem mem_of_find {table : List (Key × Entry)} {k : Key} {b : Entry}
    (found : find k table = some b) : (k, b) ∈ table := by
  induction table with
  | nil => simp at found
  | cons p rest ih =>
    obtain ⟨j, c⟩ := p
    by_cases same : j = k
    · simp only [find, same, ↓reduceIte, Option.some.injEq] at found
      simp [same, found]
    · simp only [find, same, ↓reduceIte] at found
      exact List.mem_cons_of_mem _ (ih found)

theorem find_perm {table other : List (Key × Entry)} (distinct : (keys table).Nodup)
    (perm : table.Perm other) (k : Key) : find k table = find k other := by
  have distinct' : (keys other).Nodup := (perm.map Prod.fst).nodup distinct
  ext b
  constructor
  · intro found
    exact find_of_mem distinct' (perm.mem_iff.mp (mem_of_find found))
  · intro found
    exact find_of_mem distinct (perm.mem_iff.mpr (mem_of_find found))

theorem find_map_entries {Entry' : Type*} (f : Entry → Entry') (k : Key) (table : List (Key × Entry)) :
    find k (table.map fun p => (p.1, f p.2)) = (find k table).map f := by
  induction table with
  | nil => rfl
  | cons p rest ih =>
    obtain ⟨j, b⟩ := p
    by_cases same : j = k
    · simp [find, same]
    · simpa [find, same] using ih

theorem upsert_find (k : Key) (f : Option Entry → Entry) (table : List (Key × Entry)) :
    upsert k (fun _ => f (find k table)) table = upsert k f table := by
  induction table with
  | nil => rfl
  | cons p rest ih =>
    obtain ⟨j, b⟩ := p
    by_cases same : j = k
    · simp [upsert, find, same]
    · simpa [upsert, find, same] using ih

theorem upsert_fresh {k : Key} {table : List (Key × Entry)} (fresh : k ∉ keys table)
    (f : Option Entry → Entry) : upsert k f table = table ++ [(k, f none)] := by
  induction table with
  | nil => rfl
  | cons p rest ih =>
    obtain ⟨j, b⟩ := p
    rw [keys_cons, List.mem_cons, not_or] at fresh
    rw [upsert, if_neg (Ne.symm fresh.1), ih fresh.2, List.cons_append]

theorem upsert_upsert (k : Key) (f g : Option Entry → Entry) (table : List (Key × Entry)) :
    upsert k g (upsert k f table) = upsert k (fun old => g (some (f old))) table := by
  induction table with
  | nil => simp [upsert]
  | cons p rest ih =>
    obtain ⟨j, b⟩ := p
    by_cases same : j = k
    · simp [upsert, same]
    · simpa [upsert, same] using ih

theorem upsert_same {k : Key} {b : Entry} {table : List (Key × Entry)}
    (found : find k table = some b) : upsert k (fun _ => b) table = table := by
  induction table with
  | nil => cases found
  | cons p rest ih =>
    obtain ⟨j, c⟩ := p
    by_cases same : j = k
    · simp only [find, same, ↓reduceIte, Option.some.injEq] at found
      simp [upsert, same, found]
    · simp only [find, same, ↓reduceIte] at found
      simp [upsert, same, ih found]

theorem erase_upsert {k : Key} {table : List (Key × Entry)} (absent : find k table = none)
    (f : Option Entry → Entry) : erase k (upsert k f table) = table := by
  induction table with
  | nil => simp [upsert, erase]
  | cons p rest ih =>
    obtain ⟨j, b⟩ := p
    by_cases same : j = k
    · simp [find, same] at absent
    · simp only [find, same, ↓reduceIte] at absent
      simp [upsert, erase, same, ih absent]

omit [DecidableEq Key] in
theorem select_own_row {Row : Type w} (row : Key × Entry → Option Row) (test : Row → Bool)
    {table : List (Key × Entry)} (distinct : (keys table).Nodup) {k : Key} {b : Entry} {r : Row}
    (member : (k, b) ∈ table) (own : row (k, b) = some r) (passes : test r = true)
    (others : ∀ p ∈ table, p.1 ≠ k → ∀ q ∈ row p, test q = false) :
    (table.filterMap row).filter test = [r] := by
  induction table with
  | nil => cases member
  | cons p rest ih =>
    obtain ⟨fresh, distinct⟩ := List.nodup_cons.mp distinct
    have later : ∀ q ∈ rest, q.1 ≠ k → ∀ r ∈ row q, test r = false :=
      fun q hq => others q (List.mem_cons_of_mem _ hq)
    cases List.mem_cons.mp member with
    | inl same =>
      subst same
      have none_left : (rest.filterMap row).filter test = [] := by
        apply List.filter_eq_nil_iff.mpr
        intro q hq
        obtain ⟨p, hp, made⟩ := List.mem_filterMap.mp hq
        have other : p.1 ≠ k := by
          intro same
          exact fresh (List.mem_map.mpr ⟨p, hp, same⟩)
        simp [later p hp other q made]
      rw [List.filterMap_cons_some own, List.filter_cons_of_pos passes, none_left]
    | inr inside =>
      have other : p.1 ≠ k := by
        intro same
        exact fresh (List.mem_map.mpr ⟨_, inside, same.symm⟩)
      cases made : row p with
      | none => rw [List.filterMap_cons_none made]; exact ih distinct inside later
      | some q =>
        have fails := others p List.mem_cons_self other q made
        rw [List.filterMap_cons_some made, List.filter_cons_of_neg (by simp [fails])]
        exact ih distinct inside later

theorem select_own_rows {Row : Type w} (rows : Key × Entry → List Row) (test : Row → Bool) {k : Key}
    {table : List (Key × Entry)} (distinct : (keys table).Nodup)
    (others : ∀ p ∈ table, p.1 ≠ k → ∀ r ∈ rows p, test r = false) :
    (table.flatMap rows).filter test =
      match find k table with
      | none => []
      | some b => (rows (k, b)).filter test := by
  induction table with
  | nil => rfl
  | cons p rest ih =>
    obtain ⟨fresh, distinct⟩ := List.nodup_cons.mp distinct
    have later := ih distinct fun q hq => others q (List.mem_cons_of_mem _ hq)
    obtain ⟨j, b⟩ := p
    rw [List.flatMap_cons, List.filter_append, later]
    by_cases same : j = k
    · subst same
      have absent : find j rest = none := by
        cases found : find j rest with
        | none => rfl
        | some c => exact absurd (List.mem_map_of_mem (mem_of_find found)) fresh
      simp only [find, ↓reduceIte, absent, List.append_nil]
    · have nothing : (rows (j, b)).filter test = [] := by
        apply List.filter_eq_nil_iff.mpr
        intro r hr
        simp [others (j, b) List.mem_cons_self same r hr]
      simp only [find, same, ↓reduceIte, nothing, List.nil_append]

theorem sum_upsert {M : Type*} [AddCommMonoid M] (weight : Entry → M) (k : Key) (d : M)
    (f : Option Entry → Entry) (fresh : weight (f none) = d)
    (old : ∀ b, weight (f (some b)) = weight b + d) (table : List (Key × Entry)) :
    ((upsert k f table).map fun p => weight p.2).sum =
      (table.map fun p => weight p.2).sum + d := by
  induction table with
  | nil => simp [upsert, fresh]
  | cons p rest ih =>
    obtain ⟨j, b⟩ := p
    by_cases same : j = k
    · simp only [upsert, same, ↓reduceIte, List.map_cons, List.sum_cons, old]
      rw [add_assoc, add_assoc, add_comm d]
    · simp only [upsert, same, ↓reduceIte, List.map_cons, List.sum_cons, ih, add_assoc]

theorem gather_append_one (key : Item → Key) (f : Item → Option Entry → Entry)
    (items : List Item) (x : Item) :
    gather key f (items ++ [x]) = upsert (key x) (f x) (gather key f items) := by
  simp [gather]

theorem gather_keys_nodup (key : Item → Key) (f : Item → Option Entry → Entry)
    (items : List Item) : (keys (gather key f items)).Nodup := by
  induction items using List.reverseRecOn with
  | nil => simp [gather, keys]
  | append_singleton items x ih =>
    rw [gather_append_one]
    exact keys_upsert_nodup _ _ _ ih

theorem mem_gather_keys (key : Item → Key) (f : Item → Option Entry → Entry)
    (items : List Item) (k : Key) :
    k ∈ keys (gather key f items) ↔ ∃ x ∈ items, key x = k := by
  induction items using List.reverseRecOn with
  | nil => simp [gather, keys]
  | append_singleton items x ih =>
    rw [gather_append_one, keys_upsert]
    split
    · rename_i present
      rw [ih]
      constructor
      · rintro ⟨y, hy, same⟩; exact ⟨y, by simp [hy], same⟩
      · rintro ⟨y, hy, same⟩
        rcases List.mem_append.mp hy with hy | hy
        · exact ⟨y, hy, same⟩
        · simp only [List.mem_singleton] at hy
          subst hy
          exact ih.mp (same ▸ present)
    · simp only [List.mem_append, List.mem_singleton, ih]
      constructor
      · rintro (⟨y, hy, same⟩ | same)
        · exact ⟨y, Or.inl hy, same⟩
        · exact ⟨x, Or.inr rfl, same.symm⟩
      · rintro ⟨y, hy | hy, same⟩
        · exact Or.inl ⟨y, hy, same⟩
        · exact Or.inr (by rw [← same, hy])

/-- The entry of a key only depends on the items of that key, in their order. -/
theorem find_gather (key : Item → Key) (f : Item → Option Entry → Entry)
    (items : List Item) (k : Key) :
    find k (gather key f items) =
      (items.filter fun x => key x = k).foldl (fun b x => some (f x b)) none := by
  induction items using List.reverseRecOn with
  | nil => rfl
  | append_singleton items x ih =>
    rw [gather_append_one, find_upsert, List.filter_append, List.foldl_append]
    by_cases mine : key x = k
    · subst mine
      simp [ih]
    · simp [mine, Ne.symm mine, ih]

theorem find_gather_last (key : Item → Key) (f : Item → Entry) (items : List Item) (k : Key) (b : Entry) :
    find k (gather key (fun x _ => f x) items) = some b ↔
      ∃ before x after, items = before ++ x :: after ∧ key x = k ∧ f x = b ∧ ∀ y ∈ after, key y ≠ k := by
  induction items using List.reverseRecOn with
  | nil => simp [gather]
  | append_singleton items z ih =>
    rw [gather_append_one, find_upsert]
    by_cases mine : k = key z
    · rw [if_pos mine, Option.some.injEq]
      constructor
      · intro value
        exact ⟨items, z, [], rfl, mine.symm, value, by simp⟩
      · rintro ⟨before, x, after, split, -, value, others⟩
        rcases List.eq_nil_or_concat' after with rfl | ⟨init, y, rfl⟩
        · rw [← value, (List.append_inj' split rfl).2 |> List.singleton_inj.mp]
        · rw [← List.cons_append, ← List.append_assoc] at split
          obtain rfl := List.singleton_inj.mp (List.append_inj' split rfl).2
          exact absurd mine.symm (others z (by simp))
    · rw [if_neg mine, ih]
      constructor
      · rintro ⟨before, x, after, rfl, own, value, others⟩
        refine ⟨before, x, after ++ [z], by simp, own, value, fun y member => ?_⟩
        rcases List.mem_append.mp member with earlier | last
        · exact others y earlier
        · rw [List.mem_singleton.mp last]
          exact Ne.symm mine
      · rintro ⟨before, x, after, split, own, value, others⟩
        rcases List.eq_nil_or_concat' after with rfl | ⟨init, y, rfl⟩
        · obtain rfl := List.singleton_inj.mp (List.append_inj' split rfl).2
          exact absurd own.symm mine
        · rw [← List.cons_append, ← List.append_assoc] at split
          exact ⟨before, x, init, (List.append_inj' split rfl).1, own, value,
            fun y member => others y (List.mem_append_left _ member)⟩

theorem upsert_entries (holds : Key → Entry → Prop) {k : Key} {f : Option Entry → Entry}
    (fresh : holds k (f none)) (kept : ∀ b, holds k b → holds k (f (some b)))
    {table : List (Key × Entry)} (each : ∀ p ∈ table, holds p.1 p.2) :
    ∀ p ∈ upsert k f table, holds p.1 p.2 := by
  induction table with
  | nil =>
    intro p hp
    obtain rfl := List.mem_singleton.mp hp
    exact fresh
  | cons q rest ih =>
    obtain ⟨j, b⟩ := q
    obtain ⟨first, later⟩ := List.forall_mem_cons.mp each
    by_cases same : j = k
    · subst same
      rw [upsert, if_pos rfl]
      exact List.forall_mem_cons.mpr ⟨kept b first, later⟩
    · rw [upsert, if_neg same]
      exact List.forall_mem_cons.mpr ⟨first, ih later⟩

theorem gather_entries (holds : Key → Entry → Prop) {key : Item → Key}
    {f : Item → Option Entry → Entry} {items : List Item}
    (fresh : ∀ x ∈ items, holds (key x) (f x none))
    (kept : ∀ x ∈ items, ∀ b, holds (key x) b → holds (key x) (f x (some b))) :
    ∀ p ∈ gather key f items, holds p.1 p.2 := by
  induction items using List.reverseRecOn with
  | nil => simp [gather]
  | append_singleton items x ih =>
    rw [gather_append_one]
    apply upsert_entries holds (fresh x (by simp)) (kept x (by simp))
    exact ih (fun y hy => fresh y (by simp [hy])) fun y hy => kept y (by simp [hy])

theorem sum_gather {M : Type*} [AddCommMonoid M] (weight : Entry → M) (share : Item → M)
    {key : Item → Key} {f : Item → Option Entry → Entry}
    (fresh : ∀ x, weight (f x none) = share x)
    (old : ∀ x b, weight (f x (some b)) = weight b + share x) (items : List Item) :
    ((gather key f items).map fun p => weight p.2).sum = (items.map share).sum := by
  induction items using List.reverseRecOn with
  | nil => simp [gather]
  | append_singleton items x ih =>
    rw [gather_append_one, sum_upsert weight _ (share x) _ (fresh x) (old x), ih, List.map_append,
      List.sum_append]
    simp

theorem weight_gather {M : Type*} [AddCommMonoid M] (weight : Entry → M) (share : Item → M)
    {key : Item → Key} {f : Item → Option Entry → Entry}
    (fresh : ∀ x, weight (f x none) = share x)
    (old : ∀ x b, weight (f x (some b)) = weight b + share x) {items : List Item} {k : Key} {b : Entry}
    (found : find k (gather key f items) = some b) :
    weight b = ((items.filter fun x => key x = k).map share).sum := by
  rw [find_gather] at found
  generalize items.filter (fun x => key x = k) = mine at found ⊢
  induction mine using List.reverseRecOn generalizing b with
  | nil => cases found
  | append_singleton mine x ih =>
    simp only [List.foldl_append, List.foldl_cons, List.foldl_nil, Option.some.injEq] at found
    rw [List.map_append, List.sum_append, List.map_singleton, List.sum_singleton, ← found]
    cases before : mine.foldl (fun b x => some (f x b)) none with
    | none =>
      have nothing : mine = [] := by
        cases mine using List.reverseRecOn with
        | nil => rfl
        | append_singleton mine y => simp at before
      rw [nothing, fresh, List.map_nil, List.sum_nil, zero_add]
    | some c => rw [old, ih before]

theorem gather_perm_of_find {key : Item → Key} {f : Item → Option Entry → Entry}
    {items others : List Item}
    (same : ∀ k, find k (gather key f items) = find k (gather key f others)) :
    (gather key f items).Perm (gather key f others) := by
  have distinct : ∀ xs, (gather key f xs).Nodup :=
    fun xs => List.Nodup.of_map Prod.fst (gather_keys_nodup key f xs)
  refine (List.perm_ext_iff_of_nodup (distinct _) (distinct _)).mpr ?_
  intro p
  have entry : ∀ xs, p ∈ gather key f xs ↔ find p.1 (gather key f xs) = some p.2 :=
    fun xs => ⟨find_of_mem (gather_keys_nodup key f xs), mem_of_find⟩
  rw [entry, entry, same]

theorem gather_perm {key : Item → Key} {f : Item → Option Entry → Entry}
    (commute : ∀ x y b, key x = key y → f y (some (f x b)) = f x (some (f y b)))
    {items others : List Item} (perm : items.Perm others) :
    (gather key f items).Perm (gather key f others) := by
  apply gather_perm_of_find
  intro k
  rw [find_gather, find_gather]
  apply (perm.filter _).foldl_eq'
  intro x hx y hy b
  have atX : key x = k := by simpa using (List.mem_filter.mp hx).2
  have atY : key y = k := by simpa using (List.mem_filter.mp hy).2
  rw [commute x y b (atX.trans atY.symm)]

def firsts (key : Item → Key) : List Item → List Item
  | [] => []
  | x :: xs => x :: (firsts key xs).filter fun y => key y ≠ key x

theorem mem_of_firsts {key : Item → Key} {items : List Item} {x : Item}
    (first : x ∈ firsts key items) : x ∈ items := by
  induction items with
  | nil => exact first
  | cons y ys ih =>
    rcases List.mem_cons.mp first with same | later
    · exact List.mem_cons.mpr (.inl same)
    · exact List.mem_cons_of_mem y (ih (List.mem_filter.mp later).1)

theorem mem_firsts_keys (key : Item → Key) (items : List Item) (k : Key) :
    k ∈ (firsts key items).map key ↔ k ∈ items.map key := by
  induction items with
  | nil => simp [firsts]
  | cons x xs ih =>
    simp only [List.mem_map] at ih
    simp only [firsts, List.map_cons, List.mem_cons, List.mem_map, List.mem_filter,
      decide_eq_true_eq]
    constructor
    · rintro (same | ⟨y, ⟨hy, _⟩, same⟩)
      · exact Or.inl same
      · exact Or.inr (ih.mp ⟨y, hy, same⟩)
    · rintro (same | later)
      · exact Or.inl same
      · by_cases same : k = key x
        · exact Or.inl same
        · obtain ⟨y, hy, rfl⟩ := ih.mpr later
          exact Or.inr ⟨y, ⟨hy, same⟩, rfl⟩

theorem firsts_keys_nodup (key : Item → Key) (items : List Item) :
    ((firsts key items).map key).Nodup := by
  induction items with
  | nil => simp [firsts]
  | cons x xs ih =>
    simp only [firsts, List.map_cons, List.nodup_cons, List.mem_map, List.mem_filter,
      decide_eq_true_eq]
    constructor
    · rintro ⟨y, ⟨_, other⟩, same⟩
      exact other same
    · exact ih.sublist (List.filter_sublist.map key)

theorem mem_firsts {key : Item → Key} {items : List Item} {x : Item} (inside : x ∈ items)
    (alone : ∀ y ∈ items, key y = key x → y = x) : x ∈ firsts key items := by
  obtain ⟨y, first, same⟩ := List.mem_map.mp ((mem_firsts_keys key items (key x)).mpr
    (List.mem_map_of_mem inside))
  exact alone y (mem_of_firsts first) same ▸ first

theorem firsts_append (key : Item → Key) (xs ys : List Item) :
    firsts key (xs ++ ys) =
      firsts key xs ++ (firsts key ys).filter fun y => key y ∉ xs.map key := by
  induction xs with
  | nil => simp [firsts]
  | cons x xs ih =>
    simp only [List.cons_append, firsts, ih, List.filter_append, List.filter_filter, List.map_cons,
      List.mem_cons, not_or]
    congr 2
    apply List.filter_congr
    intro y _
    simp

theorem firsts_append_one (key : Item → Key) (items : List Item) (x : Item) :
    firsts key (items ++ [x]) = firsts key items ++ if key x ∈ items.map key then [] else [x] := by
  rw [firsts_append]
  by_cases old : key x ∈ items.map key
  · rw [if_pos old, firsts, firsts, List.filter_nil, List.filter_cons_of_neg (by simpa using old),
      List.filter_nil]
  · rw [if_neg old, firsts, firsts, List.filter_nil, List.filter_cons_of_pos (by simpa using old),
      List.filter_nil]

/- Repeating items of different keys in place changes nothing. -/
theorem firsts_repeated {key : Item → Key} {items : List Item} (distinct : (items.map key).Nodup)
    (n : ℕ) : firsts key (items.flatMap fun x => List.replicate (n + 1) x) = items := by
  have alone : ∀ (m : ℕ) (x : Item), firsts key (List.replicate (m + 1) x) = [x] := by
    intro m x
    induction m with
    | zero => rfl
    | succ m ih => rw [List.replicate_succ, firsts, ih, List.filter_cons_of_neg (by simp), List.filter_nil]
  induction items with
  | nil => rfl
  | cons x items ih =>
    obtain ⟨apart, rest⟩ := List.nodup_cons.mp distinct
    rw [List.flatMap_cons, firsts_append, alone, ih rest]
    refine congrArg (x :: ·) (List.filter_eq_self.mpr ?_)
    intro y hy
    rw [decide_eq_true_eq, List.mem_map]
    rintro ⟨z, hz, same⟩
    rw [List.eq_of_mem_replicate hz] at same
    exact apart (same ▸ List.mem_map_of_mem hy)

section Tally
variable (p : Entry → Prop) [DecidablePred p]

def tally (table : List (Key × Entry)) : ℕ := table.countP fun row => p row.2

omit [DecidableEq Key] in
theorem tally_cons (j : Key) (b : Entry) (rest : List (Key × Entry)) :
    tally p ((j, b) :: rest) = tally p rest + if p b then 1 else 0 := by
  simp [tally, List.countP_cons]

omit [DecidableEq Key] in
theorem tally_split {q r : Entry → Prop} [DecidablePred q] [DecidablePred r]
    (split : ∀ b, (if p b then 1 else 0) = (if q b then 1 else 0) + if r b then 1 else 0)
    (table : List (Key × Entry)) : tally p table = tally q table + tally r table := by
  induction table with
  | nil => rfl
  | cons row rest ih =>
    have here := split row.2
    rw [tally_cons, tally_cons, tally_cons]
    omega

theorem tally_upsert_new {k : Key} {table : List (Key × Entry)} (absent : find k table = none)
    (f : Option Entry → Entry) :
    tally p (upsert k f table) = tally p table + if p (f none) then 1 else 0 := by
  induction table with
  | nil => simp [upsert, tally_cons]
  | cons row rest ih =>
    obtain ⟨j, b⟩ := row
    by_cases same : j = k
    · simp [find, same] at absent
    · simp only [find, same, ↓reduceIte] at absent
      rw [upsert, if_neg same, tally_cons, tally_cons, ih absent]
      omega

theorem tally_upsert_old {k : Key} {b : Entry} {table : List (Key × Entry)}
    (found : find k table = some b) (f : Option Entry → Entry) :
    tally p (upsert k f table) + (if p b then 1 else 0) =
      tally p table + if p (f (some b)) then 1 else 0 := by
  induction table with
  | nil => cases found
  | cons row rest ih =>
    obtain ⟨j, c⟩ := row
    by_cases same : j = k
    · simp only [find, same, ↓reduceIte, Option.some.injEq] at found
      rw [upsert, if_pos same, tally_cons, tally_cons, found]
      omega
    · simp only [find, same, ↓reduceIte] at found
      have later := ih found
      rw [upsert, if_neg same, tally_cons, tally_cons]
      omega

theorem erase_absent {k : Key} {table : List (Key × Entry)} (absent : k ∉ keys table) :
    erase k table = table := by
  induction table with
  | nil => rfl
  | cons row rest ih =>
    obtain ⟨j, b⟩ := row
    rw [keys_cons, List.mem_cons, not_or] at absent
    rw [erase, if_neg (Ne.symm absent.1), ih absent.2]

theorem tally_erase {k : Key} {b : Entry} {table : List (Key × Entry)}
    (distinct : (keys table).Nodup) (found : find k table = some b) :
    tally p (erase k table) + (if p b then 1 else 0) = tally p table := by
  induction table with
  | nil => cases found
  | cons row rest ih =>
    obtain ⟨j, c⟩ := row
    obtain ⟨fresh, distinct⟩ := List.nodup_cons.mp distinct
    by_cases same : j = k
    · subst same
      simp only [find, ↓reduceIte, Option.some.injEq] at found
      rw [erase, if_pos rfl, erase_absent fresh, tally_cons, found]
    · simp only [find, same, ↓reduceIte] at found
      have later := ih distinct found
      rw [erase, if_neg same, tally_cons, tally_cons]
      omega

theorem tally_pos {k : Key} {b : Entry} {table : List (Key × Entry)}
    (found : find k table = some b) (holds : p b) : 0 < tally p table := by
  refine List.countP_pos_iff.mpr ⟨(k, b), mem_of_find found, ?_⟩
  simpa using holds

end Tally

end KeyedFold
