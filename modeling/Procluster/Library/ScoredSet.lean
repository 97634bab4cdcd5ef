import Mathlib
import Procluster.Library.TailWindow

/- A sorted set as Redis documents it: each member has one score, the entries ascend by
   score and, where scores are equal, by member. After every write the set is cut to the
   entries of the highest ranks, so it holds the top of all that was ever written. Where
   a key is written with several contents, these compete for the ranks. -/
namespace ScoredSet
open TailWindow
universe u v

section Top
variable {Item : Type u} [LinearOrder Item]

def newer (items : Finset Item) (x : Item) : ℕ := (items.filter (x < ·)).card

def top (k : ℕ) (items : Finset Item) : Finset Item := items.filter fun x => newer items x < k

theorem mem_top {k : ℕ} {items : Finset Item} {x : Item} :
    x ∈ top k items ↔ x ∈ items ∧ newer items x < k := Finset.mem_filter

theorem newer_lt_of_lt {items : Finset Item} {x y : Item} (less : x < y) (member : y ∈ items) :
    newer items y < newer items x := by
  apply Finset.card_lt_card
  refine Finset.ssubset_iff_of_subset ?_ |>.mpr ⟨y, ?_, ?_⟩
  · intro z above
    simp only [Finset.mem_filter] at above ⊢
    exact ⟨above.1, less.trans above.2⟩
  · simp [member, less]
  · simp

theorem top_upward {k : ℕ} {items : Finset Item} {x y : Item} (inside : x ∈ top k items)
    (member : y ∈ items) (above : x ≤ y) : y ∈ top k items := by
  rcases above.eq_or_lt with rfl | less
  · exact inside
  · exact mem_top.mpr ⟨member, (newer_lt_of_lt less member).trans (mem_top.mp inside).2⟩

theorem newer_insert_max {items : Finset Item} {m x : Item} (above : ∀ y ∈ items, y < m)
    (member : x ∈ items) : newer (insert m items) x = newer items x + 1 := by
  have fresh : m ∉ items.filter (x < ·) := by
    intro inside
    exact lt_irrefl m (above m (Finset.mem_filter.mp inside).1)
  rw [newer, Finset.filter_insert, if_pos (above x member), Finset.card_insert_of_notMem fresh, newer]

theorem top_insert_max {items : Finset Item} {m : Item} (above : ∀ y ∈ items, y < m) (k : ℕ) :
    top (k + 1) (insert m items) = insert m (top k items) := by
  have first : newer (insert m items) m = 0 := by
    rw [newer, Finset.card_eq_zero, Finset.filter_eq_empty_iff]
    intro y inside after
    rcases Finset.mem_insert.mp inside with rfl | member
    · exact lt_irrefl _ after
    · exact lt_asymm after (above y member)
  ext x
  rw [mem_top, Finset.mem_insert, Finset.mem_insert, mem_top]
  by_cases last : x = m
  · simp [last, first]
  · simp only [last, false_or]
    refine and_congr_right fun member => ?_
    rw [newer_insert_max above member]
    omega

theorem card_top (k : ℕ) (items : Finset Item) : (top k items).card = min k items.card := by
  induction items using Finset.induction_on_max generalizing k with
  | empty => simp [top]
  | insert m items above ih =>
    have fresh : m ∉ items := fun inside => lt_irrefl m (above m inside)
    rw [Finset.card_insert_of_notMem fresh]
    cases k with
    | zero => simp [top]
    | succ k =>
      rw [top_insert_max above, Finset.card_insert_of_notMem (fun inside => fresh (mem_top.mp inside).1), ih]
      omega

theorem newer_top {k : ℕ} {items : Finset Item} {x : Item} (few : newer items x < k) :
    newer (top k items) x = newer items x := by
  unfold newer
  congr 1
  ext y
  simp only [Finset.mem_filter, mem_top]
  constructor
  · rintro ⟨⟨member, -⟩, after⟩
    exact ⟨member, after⟩
  · rintro ⟨member, after⟩
    exact ⟨⟨member, (newer_lt_of_lt after member).trans few⟩, after⟩

theorem newer_top_lt_iff {k : ℕ} {items : Finset Item} {x : Item} :
    newer (top k items) x < k ↔ newer items x < k := by
  constructor
  · intro few
    by_contra many
    -- then the whole top, k items, is newer than x
    have whole : top k items = (top k items).filter (x < ·) := by
      symm
      apply Finset.filter_true_of_mem
      intro y inside
      by_contra notAfter
      have least : newer items x ≤ newer items y := by
        apply Finset.card_le_card
        intro z above
        simp only [Finset.mem_filter] at above ⊢
        exact ⟨above.1, (not_lt.mp notAfter).trans_lt above.2⟩
      exact absurd (mem_top.mp inside).2 (by omega)
    have enough : newer items x ≤ items.card := Finset.card_le_card (Finset.filter_subset _ _)
    rw [newer, ← whole, card_top] at few
    omega
  · intro few
    rw [newer_top few]
    exact few

/-- Items that fell out of the top do not come back with the next one. -/
theorem top_insert_top (k : ℕ) (items : Finset Item) (x : Item) :
    top k (insert x (top k items)) = top k (insert x items) := by
  have bound (y : Item) : newer (insert x (top k items)) y ≤ newer (insert x items) y := by
    apply Finset.card_le_card
    apply Finset.filter_subset_filter
    exact Finset.insert_subset_insert _ (Finset.filter_subset _ _)
  have inner (y : Item) : newer (top k items) y ≤ newer (insert x (top k items)) y :=
    Finset.card_le_card (Finset.filter_subset_filter _ (Finset.subset_insert _ _))
  have outer (y : Item) : newer items y ≤ newer (insert x items) y :=
    Finset.card_le_card (Finset.filter_subset_filter _ (Finset.subset_insert _ _))
  have agree {y : Item} (few : newer items y < k) :
      newer (insert x (top k items)) y = newer (insert x items) y := by
    unfold newer
    congr 1
    ext z
    simp only [Finset.mem_filter, Finset.mem_insert, mem_top]
    refine and_congr_left fun after => or_congr_right ?_
    refine and_iff_left_of_imp fun member => ?_
    exact (newer_lt_of_lt after member).trans few
  ext y
  simp only [mem_top, Finset.mem_insert]
  constructor
  · rintro ⟨rfl | inside, few⟩
    · exact ⟨.inl rfl, agree (newer_top_lt_iff.mp ((inner y).trans_lt few)) ▸ few⟩
    · exact ⟨.inr inside.1, agree inside.2 ▸ few⟩
  · rintro ⟨rfl | member, few⟩
    · exact ⟨.inl rfl, (bound y).trans_lt few⟩
    · exact ⟨.inr ⟨member, (outer y).trans_lt few⟩, (bound y).trans_lt few⟩

theorem mem_keepLast_top {items : List Item} (ascending : items.Pairwise (· < ·)) {k : ℕ} (positive : 0 < k)
    (x : Item) : x ∈ keepLast k items ↔ x ∈ top k items.toFinset := by
  have distinct : items.Nodup := ascending.imp ne_of_lt
  have counted : (items.filter fun y => x < y).length = newer items.toFinset x := by
    rw [← List.toFinset_card_of_nodup (distinct.filter _), newer]
    congr 1
    ext y
    simp
  rw [mem_keepLast_iff ascending, mem_top, InWindow, counted, List.mem_toFinset]
  simp [positive.ne']

end Top

section Entries
variable {Score : Type u} {Member : Type v} [LinearOrder Score] [LinearOrder Member]

structure SortedSet (Score : Type u) (Member : Type v) [LinearOrder Score] [LinearOrder Member] where
  entries : List (Score ×ₗ Member)
  ascending : entries.Pairwise (· < ·)

def SortedSet.empty : SortedSet Score Member := ⟨[], .nil⟩

theorem insert_ascending {entries : List (Score ×ₗ Member)} {e : Score ×ₗ Member}
    (ascending : entries.Pairwise (· < ·)) (fresh : e ∉ entries) :
    (entries.orderedInsert (· ≤ ·) e).Pairwise (· < ·) := by
  have sorted : (entries.orderedInsert (· ≤ ·) e).Pairwise (· ≤ ·) :=
    (ascending.imp le_of_lt).orderedInsert e entries
  have distinct : (entries.orderedInsert (· ≤ ·) e).Nodup := by
    rw [(List.perm_orderedInsert _ e entries).nodup_iff]
    exact List.nodup_cons.mpr ⟨fresh, ascending.imp ne_of_lt⟩
  exact (sorted.and distinct).imp fun h => lt_of_le_of_ne h.1 h.2

/-- ZADD: a member that is there gets the new score. -/
def zAdd (set : SortedSet Score Member) (score : Score) (member : Member) : SortedSet Score Member where
  entries := (set.entries.filter fun e => (ofLex e).2 ≠ member).orderedInsert (· ≤ ·) (toLex (score, member))
  ascending := insert_ascending (set.ascending.sublist List.filter_sublist) (by simp)

/-- A negative rank counts from the highest one, which is -1. -/
def rankOf (length : ℕ) (rank : ℤ) : ℤ := if rank < 0 then length + rank else rank

def removeRanks {Entry : Type u} (entries : List Entry) (start stop : ℤ) : List Entry :=
  let first := max (rankOf entries.length start) 0
  let last := rankOf entries.length stop
  if first ≤ last then entries.take first.toNat ++ entries.drop (last + 1).toNat else entries

theorem removeRanks_sublist {Entry : Type u} (entries : List Entry) (start stop : ℤ) :
    (removeRanks entries start stop).Sublist entries := by
  unfold removeRanks
  extract_lets first last
  split
  · rename_i inRange
    have order : first.toNat ≤ (last + 1).toNat := by omega
    conv_rhs => rw [← List.take_append_drop first.toNat entries]
    exact (List.Sublist.refl _).append (List.drop_sublist_drop_left entries order)
  · exact .refl entries

/-- ZREMRANGEBYRANK: the ranks from start to stop go, both included. -/
def zRemRangeByRank (set : SortedSet Score Member) (start stop : ℤ) : SortedSet Score Member where
  entries := removeRanks set.entries start stop
  ascending := set.ascending.sublist (removeRanks_sublist set.entries start stop)

/-- ZREVRANGEBYSCORE from +inf to -inf with a positive count. -/
def zRevRange (set : SortedSet Score Member) (count : ℕ) : List (Score ×ₗ Member) :=
  set.entries.reverse.take count

theorem removeRanks_lowest {Entry : Type u} (entries : List Entry) {k : ℕ} (positive : 0 < k) :
    removeRanks entries 0 (-(k + 1 : ℕ)) = keepLast k entries := by
  have first : rankOf entries.length 0 = 0 := rfl
  have last : rankOf entries.length (-(k + 1 : ℕ)) = entries.length - (k + 1 : ℕ) := by
    rw [rankOf, if_pos (by omega)]
    ring
  simp only [removeRanks, keepLast, first, last, max_self, positive.ne', ↓reduceIte, Int.toNat_zero,
    List.take_zero, List.nil_append]
  split
  · congr 1
    omega
  · rw [show entries.length - k = 0 by omega, List.drop_zero]

/-- One write, then the set is cut to the k highest ranks. -/
def addCapped (k : ℕ) (set : SortedSet Score Member) (score : Score) (member : Member) : SortedSet Score Member :=
  zRemRangeByRank (zAdd set score member) 0 (-(k + 1 : ℕ))

theorem addCapped_entries {k : ℕ} (positive : 0 < k) (set : SortedSet Score Member) {score : Score}
    {member : Member} (same : ∀ e ∈ set.entries, (ofLex e).2 = member → e = toLex (score, member)) :
    (addCapped k set score member).entries.toFinset =
      top k (insert (toLex (score, member)) set.entries.toFinset) := by
  have added : (zAdd set score member).entries.toFinset =
      insert (toLex (score, member)) set.entries.toFinset := by
    ext e
    simp only [zAdd, List.mem_toFinset, List.mem_orderedInsert, List.mem_filter, Finset.mem_insert,
      decide_not, Bool.not_eq_true', decide_eq_false_iff_not]
    constructor
    · rintro (new | ⟨old, -⟩)
      · exact .inl new
      · exact .inr old
    · rintro (new | old)
      · exact .inl new
      · by_cases mine : (ofLex e).2 = member
        · exact .inl (same e old mine)
        · exact .inr ⟨old, mine⟩
  ext e
  rw [List.mem_toFinset, ← added]
  simp only [addCapped, zRemRangeByRank]
  rw [removeRanks_lowest _ positive]
  exact mem_keepLast_top (zAdd set score member).ascending positive e

/-- A capped set holds the top of everything that was written, if every member was
    always written with one score. -/
theorem entries_of_writes {k : ℕ} (positive : 0 < k) {writes : List (Score ×ₗ Member)}
    (same : ∀ e ∈ writes, ∀ f ∈ writes, (ofLex e).2 = (ofLex f).2 → e = f)
    {items : Finset (Score ×ₗ Member)} (all : ∀ e, e ∈ items ↔ e ∈ writes) (e : Score ×ₗ Member) :
    e ∈ (writes.foldl (fun set e => addCapped k set (ofLex e).1 (ofLex e).2) .empty).entries ↔
      e ∈ top k items := by
  suffices whole : (writes.foldl (fun set e => addCapped k set (ofLex e).1 (ofLex e).2) .empty).entries.toFinset =
      top k writes.toFinset by
    have given : items = writes.toFinset := by
      ext f
      rw [all, List.mem_toFinset]
    rw [given, ← whole, List.mem_toFinset]
  clear all
  induction writes using List.reverseRecOn with
  | nil => rfl
  | append_singleton writes e ih =>
    have before := ih fun f hf g hg => same f (List.mem_append_left _ hf) g (List.mem_append_left _ hg)
    rw [List.foldl_append, List.foldl_cons, List.foldl_nil, addCapped_entries positive, before]
    · have all : (writes ++ [e]).toFinset = insert e writes.toFinset := by
        ext f
        simp
      rw [all]
      exact top_insert_top k writes.toFinset e
    · intro f held mine
      rw [← List.mem_toFinset, before, mem_top, List.mem_toFinset] at held
      exact same f (List.mem_append_left _ held.1) e (by simp) mine

end Entries

section Contents
variable {Key : Type u} {Content : Type v} [LinearOrder Key] [LinearOrder Content]

def keysOf (items : Finset (Key ×ₗ Content)) : Finset Key := items.image fun e => (ofLex e).1

/-- The top is one item for each of the k greatest keys, with the chosen contents. -/
def OneForEachKey (k : ℕ) (items : Finset (Key ×ₗ Content)) (chosen : Key → Content) : Prop :=
  ∀ e, e ∈ top k items ↔ (ofLex e).1 ∈ top k (keysOf items) ∧ (ofLex e).2 = chosen (ofLex e).1

/-- Only the k-th greatest key may have other contents, all of them lower. -/
def OthersBelow (k : ℕ) (items : Finset (Key ×ₗ Content)) (chosen : Key → Content) : Prop :=
  ∀ e ∈ items, (newer (keysOf items) (ofLex e).1 + 1 < k → (ofLex e).2 = chosen (ofLex e).1) ∧
    (newer (keysOf items) (ofLex e).1 + 1 = k → (ofLex e).2 ≤ chosen (ofLex e).1)

variable {items : Finset (Key ×ₗ Content)} {chosen : Key → Content} {k : ℕ}

omit [LinearOrder Content] in
theorem mem_keysOf {t : Key} : t ∈ keysOf items ↔ ∃ e ∈ items, (ofLex e).1 = t := by
  simp [keysOf]

theorem lex_lt {e f : Key ×ₗ Content} :
    e < f ↔ (ofLex e).1 < (ofLex f).1 ∨ (ofLex e).1 = (ofLex f).1 ∧ (ofLex e).2 < (ofLex f).2 :=
  Prod.Lex.lt_iff

omit [LinearOrder Key] [LinearOrder Content] in
theorem lex_ext {e f : Key ×ₗ Content} (key : (ofLex e).1 = (ofLex f).1)
    (content : (ofLex e).2 = (ofLex f).2) : e = f := Prod.ext key content

theorem newer_keys_le (e : Key ×ₗ Content) : newer (keysOf items) (ofLex e).1 ≤ newer items e := by
  have covered : (keysOf items).filter ((ofLex e).1 < ·) ⊆
      (items.filter (e < ·)).image fun f => (ofLex f).1 := by
    intro t above
    obtain ⟨present, above⟩ := Finset.mem_filter.mp above
    obtain ⟨f, member, rfl⟩ := mem_keysOf.mp present
    exact Finset.mem_image_of_mem _ (Finset.mem_filter.mpr ⟨member, lex_lt.mpr (.inl above)⟩)
  exact (Finset.card_le_card covered).trans Finset.card_image_le

/- Where every newer key has its chosen contents only, the items are as many as the keys. -/
theorem newer_of_single {e : Key ×ₗ Content}
    (single : ∀ f ∈ items, (ofLex e).1 < (ofLex f).1 → (ofLex f).2 = chosen (ofLex f).1)
    (greatest : ∀ f ∈ items, (ofLex f).1 = (ofLex e).1 → (ofLex f).2 ≤ (ofLex e).2) :
    newer items e = newer (keysOf items) (ofLex e).1 := by
  apply le_antisymm _ (newer_keys_le e)
  apply Finset.card_le_card_of_injOn (fun f => (ofLex f).1)
  · intro f above
    obtain ⟨member, above⟩ := Finset.mem_filter.mp above
    rcases lex_lt.mp above with later | ⟨same, higher⟩
    · exact Finset.mem_filter.mpr ⟨mem_keysOf.mpr ⟨f, member, rfl⟩, later⟩
    · exact absurd (greatest f member same.symm) (not_le.mpr higher)
  · intro f hf g hg sameKey
    obtain ⟨member, above⟩ := Finset.mem_filter.mp hf
    obtain ⟨member', above'⟩ := Finset.mem_filter.mp hg
    have later : (ofLex e).1 < (ofLex f).1 := by
      rcases lex_lt.mp above with later | ⟨same, higher⟩
      · exact later
      · exact absurd (greatest f member same.symm) (not_le.mpr higher)
    have sameKey : (ofLex f).1 = (ofLex g).1 := sameKey
    have sameContent : (ofLex f).2 = (ofLex g).2 := by
      rw [single f member later, single g member' (sameKey ▸ later), sameKey]
    exact lex_ext sameKey sameContent

theorem one_for_each_of_others_below
    (written : ∀ t ∈ keysOf items, toLex (t, chosen t) ∈ items) (below : OthersBelow k items chosen) :
    OneForEachKey k items chosen := by
  intro e
  by_cases member : e ∈ items
  · have present : (ofLex e).1 ∈ keysOf items := mem_keysOf.mpr ⟨e, member, rfl⟩
    rw [mem_top, mem_top, and_iff_right member, and_iff_right present]
    by_cases far : k ≤ newer (keysOf items) (ofLex e).1
    · have many : newer (keysOf items) (ofLex e).1 ≤ newer items e := newer_keys_le e
      constructor
      · intro few
        omega
      · rintro ⟨few, -⟩
        omega
    · have single : ∀ f ∈ items, (ofLex e).1 < (ofLex f).1 → (ofLex f).2 = chosen (ofLex f).1 := by
        intro f hf later
        have fewer := newer_lt_of_lt later (mem_keysOf.mpr ⟨f, hf, rfl⟩)
        exact (below f hf).1 (by omega)
      have lower : ∀ f ∈ items, (ofLex f).1 = (ofLex e).1 → (ofLex f).2 ≤ chosen (ofLex e).1 := by
        intro f hf same
        have both := below f hf
        rw [same] at both
        by_cases edge : newer (keysOf items) (ofLex e).1 + 1 = k
        · exact both.2 edge
        · exact (both.1 (by omega)).le
      by_cases own : (ofLex e).2 = chosen (ofLex e).1
      · rw [newer_of_single single (own ▸ lower), and_iff_left own]
      · -- the chosen contents of the last key in the top push e out
        have higher : e < toLex ((ofLex e).1, chosen (ofLex e).1) :=
          lex_lt.mpr (.inr ⟨rfl, lt_of_le_of_ne (lower e member rfl) own⟩)
        have more := newer_lt_of_lt higher (written _ present)
        rw [newer_of_single (e := toLex ((ofLex e).1, chosen (ofLex e).1)) single lower] at more
        have edge : newer (keysOf items) (ofLex e).1 + 1 = k := by
          by_contra inner
          exact own ((below e member).1 (by omega))
        simp only [ofLex_toLex] at more
        constructor
        · intro few
          omega
        · rintro ⟨-, same⟩
          exact absurd same own
  · constructor
    · intro inside
      exact absurd (mem_top.mp inside).1 member
    · rintro ⟨inside, content⟩
      have own := written _ (mem_top.mp inside).1
      rw [← content] at own
      exact absurd own member

theorem others_below_of_one_for_each (one : OneForEachKey k items chosen) : OthersBelow k items chosen := by
  intro e member
  have present : (ofLex e).1 ∈ keysOf items := mem_keysOf.mpr ⟨e, member, rfl⟩
  constructor
  · intro inner
    by_contra other
    have out : ¬ newer (top k items) e < k := by
      rw [newer_top_lt_iff]
      intro few
      exact other ((one e).mp (mem_top.mpr ⟨member, few⟩)).2
    -- in the top the keys from that of e on have one item each, too few for k
    have few : newer (top k items) e ≤ newer (keysOf items) (ofLex e).1 + 1 := by
      have covered : Set.MapsTo (fun f : Key ×ₗ Content => (ofLex f).1) ((top k items).filter (e < ·))
          (insert (ofLex e).1 ((keysOf items).filter ((ofLex e).1 < ·)) : Finset Key) := by
        intro f above
        obtain ⟨inside, above⟩ := Finset.mem_filter.mp above
        rw [Finset.mem_coe, Finset.mem_insert, Finset.mem_filter]
        rcases lex_lt.mp above with later | ⟨same, -⟩
        · exact .inr ⟨mem_keysOf.mpr ⟨f, (mem_top.mp inside).1, rfl⟩, later⟩
        · exact .inl same.symm
      refine (Finset.card_le_card_of_injOn (fun f => (ofLex f).1) covered ?_).trans
        (Finset.card_insert_le _ _)
      intro f hf g hg sameKey
      have contents := ((one f).mp (Finset.mem_filter.mp hf).1).2
      have contents' := ((one g).mp (Finset.mem_filter.mp hg).1).2
      have sameKey : (ofLex f).1 = (ofLex g).1 := sameKey
      exact lex_ext sameKey (by rw [contents, contents', sameKey])
    omega
  · intro edge
    by_contra above
    have few : newer (keysOf items) (ofLex e).1 < k := by omega
    have own : toLex ((ofLex e).1, chosen (ofLex e).1) ∈ top k items :=
      (one _).mpr ⟨mem_top.mpr ⟨present, few⟩, rfl⟩
    have higher : toLex ((ofLex e).1, chosen (ofLex e).1) < e := lex_lt.mpr (.inr ⟨rfl, not_le.mp above⟩)
    have inside := top_upward own member higher.le
    exact above ((one e).mp inside).2.le

/-- The top tells the contents of each key exactly if the others stay below it. -/
theorem one_for_each_iff (written : ∀ t ∈ keysOf items, toLex (t, chosen t) ∈ items) :
    OneForEachKey k items chosen ↔ OthersBelow k items chosen :=
  ⟨others_below_of_one_for_each, one_for_each_of_others_below written⟩

end Contents

end ScoredSet
