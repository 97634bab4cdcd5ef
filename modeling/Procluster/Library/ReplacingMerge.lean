import Mathlib
import Procluster.Library.KeyedFold

/- Versioned rows of a table that keeps one row for each key, in the end. A merge drops
   the older of two rows of one key; the final view has the newest row of every key.
   Whatever merges ran before, the final view is the same. -/
namespace ReplacingMerge
open KeyedFold
universe u v w
variable {Row : Type u} {Key : Type v} {Version : Type w} [DecidableEq Key] [LinearOrder Version]
  (key : Row → Key) (version : Row → Version)

/-- Of two rows of a key the newer one stays, on equal versions the later one. -/
def newer (x : Row) : Option Row → Row
  | none => x
  | some kept => if version x < version kept then kept else x

def final (rows : List Row) : List Row := (gather key (newer version) rows).map Prod.snd

def collapse (rows : List Row) (i j : ℕ) : Option (List Row) :=
  match rows[i]?, rows[j]? with
  | some x, some y =>
    if i < j ∧ key x = key y then
      some (rows.eraseIdx (if version y < version x then j else i))
    else none
  | _, _ => none

variable {key version}

theorem newer_some (x kept : Row) : newer version x (some kept) =
    if version x < version kept then kept else x := rfl

theorem gather_newer_keys (rows : List Row) :
    ∀ p ∈ gather key (newer version) rows, key p.2 = p.1 := by
  apply gather_entries fun k x => key x = k
  · intro x _
    rfl
  · intro x _ kept own
    rw [newer_some]
    split
    · exact own
    · rfl

theorem final_keys (rows : List Row) :
    (final key version rows).map key = keys (gather key (newer version) rows) := by
  rw [final, List.map_map, keys]
  apply List.map_congr_left
  intro p hp
  exact gather_newer_keys rows p hp

theorem final_keys_nodup (rows : List Row) : ((final key version rows).map key).Nodup := by
  rw [final_keys]
  exact gather_keys_nodup _ _ _

theorem final_of_distinct {rows : List Row} (distinct : (rows.map key).Nodup) :
    final key version rows = rows := by
  induction rows using List.reverseRecOn with
  | nil => rfl
  | append_singleton rows x ih =>
    rw [List.map_append, List.map_singleton, List.nodup_append] at distinct
    obtain ⟨earlier, -, apart⟩ := distinct
    have fresh : key x ∉ keys (gather key (newer version) rows) := by
      rw [mem_gather_keys]
      rintro ⟨y, hy, same⟩
      exact apart _ (List.mem_map_of_mem hy) _ (List.mem_singleton_self _) same
    rw [final, gather_append_one, upsert_fresh fresh, List.map_append]
    exact congrArg (· ++ [x]) (ih earlier)

def newest (version : Row → Version) (kept : Option Row) (rows : List Row) : Option Row :=
  rows.foldl (fun kept x => some (newer version x kept)) kept

theorem newest_append (kept : Option Row) (xs ys : List Row) :
    newest version kept (xs ++ ys) = newest version (newest version kept xs) ys :=
  List.foldl_append

theorem newest_cons (kept : Option Row) (x : Row) (xs : List Row) :
    newest version kept (x :: xs) = newest version (some (newer version x kept)) xs := rfl

theorem newer_not_older (x : Row) (kept : Option Row) :
    version x ≤ version (newer version x kept) := by
  cases kept with
  | none => exact le_rfl
  | some kept =>
    rw [newer_some]
    split
    · rename_i older
      exact older.le
    · exact le_rfl

theorem newer_keeps {y kept : Row} (older : version y < version kept) :
    newer version y (some kept) = kept := if_pos older

theorem newer_replaces {y : Row} {kept : Option Row} (covered : ∀ z ∈ kept, version z ≤ version y) :
    newer version y kept = y := by
  cases kept with
  | none => rfl
  | some kept => exact if_neg (not_lt.mpr (covered kept rfl))

theorem newest_not_older (kept : Row) (rows : List Row) :
    ∃ m, newest version (some kept) rows = some m ∧ version kept ≤ version m := by
  induction rows generalizing kept with
  | nil => exact ⟨kept, rfl, le_rfl⟩
  | cons x rows ih =>
    obtain ⟨m, found, above⟩ := ih (newer version x (some kept))
    refine ⟨m, found, le_trans ?_ above⟩
    rw [newer_some]
    split
    · exact le_rfl
    · rename_i notOlder
      exact not_lt.mp notOlder

theorem newest_drop_later {x y : Row} (older : version y < version x) (kept : Option Row)
    (a b c : List Row) :
    newest version kept (a ++ x :: (b ++ y :: c)) = newest version kept (a ++ x :: (b ++ c)) := by
  simp only [newest_append, newest_cons]
  obtain ⟨m, found, above⟩ : ∃ m, newest version (some (newer version x (newest version kept a))) b =
      some m ∧ version (newer version x (newest version kept a)) ≤ version m := newest_not_older _ b
  rw [found, newer_keeps (lt_of_lt_of_le older ((newer_not_older x _).trans above))]

/-- Two candidates that a row of y's version replaces alike. -/
def AlikeBelow (version : Row → Version) (y : Row) (kept other : Option Row) : Prop :=
  kept = other ∨ (∀ z ∈ kept, version z ≤ version y) ∧ ∀ z ∈ other, version z ≤ version y

theorem alike_step {y : Row} {kept other : Option Row} (alike : AlikeBelow version y kept other)
    (x : Row) :
    AlikeBelow version y (some (newer version x kept)) (some (newer version x other)) := by
  rcases alike with rfl | ⟨low, otherLow⟩
  · exact .inl rfl
  · by_cases above : version x ≤ version y
    · have below : ∀ {k : Option Row}, (∀ z ∈ k, version z ≤ version y) →
          version (newer version x k) ≤ version y := by
        intro k each
        cases k with
        | none => exact above
        | some k =>
          rw [newer_some]
          split
          · exact each k rfl
          · exact above
      right
      simp only [Option.mem_some_iff, forall_eq']
      exact ⟨below low, below otherLow⟩
    · left
      have higher : ∀ {k : Option Row}, (∀ z ∈ k, version z ≤ version y) →
          newer version x k = x :=
        fun each => newer_replaces fun z hz => (each z hz).trans (not_le.mp above).le
      rw [higher low, higher otherLow]

theorem alike_run {y : Row} {kept other : Option Row} (alike : AlikeBelow version y kept other)
    (rows : List Row) : AlikeBelow version y (newest version kept rows) (newest version other rows) := by
  induction rows generalizing kept other with
  | nil => exact alike
  | cons x rows ih => exact ih (alike_step alike x)

theorem newest_drop_earlier {x y : Row} (notNewer : version x ≤ version y) (kept : Option Row)
    (a b c : List Row) :
    newest version kept (a ++ x :: (b ++ y :: c)) = newest version kept (a ++ (b ++ y :: c)) := by
  simp only [newest_append, newest_cons]
  have start : AlikeBelow version y (some (newer version x (newest version kept a)))
      (newest version kept a) := by
    cases earlier : newest version kept a with
    | none => exact .inr ⟨by simpa [newer] using notNewer, by simp⟩
    | some z =>
      by_cases older : version x < version z
      · exact .inl (by rw [newer_keeps older])
      · have below : version z ≤ version y := (not_lt.mp older).trans notNewer
        rw [newer_replaces (by simpa using not_lt.mp older)]
        exact .inr ⟨by simpa using notNewer, by simpa using below⟩
  rcases alike_run start b with same | ⟨low, otherLow⟩
  · rw [same]
  · rw [newer_replaces low, newer_replaces otherLow]

theorem find_final (rows : List Row) (k : Key) :
    find k (gather key (newer version) rows) =
      newest version none (rows.filter fun x => key x = k) := find_gather _ _ _ _

theorem final_drop {x y : Row} (same : key x = key y) (a b c : List Row) :
    (final key version (a ++ (if version y < version x then x :: (b ++ c) else b ++ y :: c))).Perm
      (final key version (a ++ x :: (b ++ y :: c))) := by
  apply List.Perm.map
  apply gather_perm_of_find
  intro k
  rw [find_final, find_final]
  by_cases mine : key x = k
  · have also : key y = k := same.symm.trans mine
    split
    · rename_i older
      simp only [List.filter_append, List.filter_cons, mine, also, decide_true, ↓reduceIte]
      exact (newest_drop_later older none _ _ _).symm
    · rename_i notOlder
      simp only [List.filter_append, List.filter_cons, mine, also, decide_true, ↓reduceIte]
      exact (newest_drop_earlier (not_lt.mp notOlder) none _ _ _).symm
  · have also : key y ≠ k := same ▸ mine
    split <;> simp [mine, also]

theorem split_at {rows : List Row} {i : ℕ} {x : Row} (found : rows[i]? = some x) :
    ∃ a b, rows = a ++ x :: b ∧ a.length = i := by
  obtain ⟨inside, rfl⟩ := List.getElem?_eq_some_iff.mp found
  refine ⟨rows.take i, rows.drop (i + 1), ?_, by simp; omega⟩
  rw [List.getElem_cons_drop, List.take_append_drop]

theorem collapse_cases {rows merged : List Row} {i j : ℕ}
    (done : collapse key version rows i j = some merged) :
    ∃ a x b y c, rows = a ++ x :: (b ++ y :: c) ∧ key x = key y ∧
      merged = (a ++ if version y < version x then x :: (b ++ c) else b ++ y :: c) ∧
      rows[i]? = some x ∧ rows[j]? = some y := by
  unfold collapse at done
  split at done
  · rename_i x y first second
    split at done
    · rename_i ordered
      have at_i := first
      have at_j := second
      obtain ⟨a, rest, rfl, rfl⟩ := split_at first
      obtain ⟨d, rfl⟩ := Nat.exists_eq_add_of_lt ordered.1
      rw [List.getElem?_append_right (by omega), show a.length + d + 1 - a.length = d + 1 by omega,
        List.getElem?_cons_succ] at second
      obtain ⟨b, c, rfl, rfl⟩ := split_at second
      refine ⟨a, x, b, y, c, rfl, ordered.2, ?_, at_i, at_j⟩
      rw [← Option.some.inj done]
      split
      · rw [List.eraseIdx_append_of_length_le (by omega),
          show a.length + b.length + 1 - a.length = b.length + 1 by omega, List.eraseIdx_cons_succ,
          List.eraseIdx_append_of_length_le (by omega), Nat.sub_self, List.eraseIdx_cons_zero]
      · rw [List.eraseIdx_append_of_length_le (by omega), Nat.sub_self, List.eraseIdx_cons_zero]
    · cases done
  · cases done

theorem final_collapse {rows merged : List Row} {i j : ℕ}
    (done : collapse key version rows i j = some merged) :
    (final key version merged).Perm (final key version rows) := by
  obtain ⟨a, x, b, y, c, rfl, same, rfl, -⟩ := collapse_cases done
  exact final_drop same a b c

theorem collapse_sublist {rows merged : List Row} {i j : ℕ}
    (done : collapse key version rows i j = some merged) : merged.Sublist rows := by
  obtain ⟨a, x, b, y, c, rfl, -, rfl, -⟩ := collapse_cases done
  apply List.Sublist.append_left
  split
  · exact ((List.sublist_cons_self y c).append_left b).cons_cons x
  · exact List.sublist_cons_self x _

theorem gather_of_final (rows : List Row) : gather key (newer version) rows =
    (final key version rows).map fun x => (key x, x) := by
  rw [final, List.map_map]
  conv_lhs => rw [← List.map_id (gather key (newer version) rows)]
  apply List.map_congr_left
  intro p hp
  exact Prod.ext (gather_newer_keys rows p hp).symm rfl

theorem final_append {rows others : List Row}
    (same : (final key version rows).Perm (final key version others)) (more : List Row) :
    (final key version (rows ++ more)).Perm (final key version (others ++ more)) := by
  have tables : (gather key (newer version) rows).Perm (gather key (newer version) others) := by
    rw [gather_of_final, gather_of_final others]
    exact same.map _
  apply List.Perm.map
  apply gather_perm_of_find
  intro k
  have earlier := find_perm (gather_keys_nodup _ _ _) tables k
  rw [find_final, find_final] at earlier
  rw [find_final, find_final, List.filter_append, List.filter_append, newest_append, newest_append,
    earlier]

omit [DecidableEq Key] in
theorem pair_of_duplicate {rows : List Row} (duplicate : ¬ (rows.map key).Nodup) :
    ∃ x y, [x, y].Sublist rows ∧ key y = key x := by
  obtain ⟨k, twice⟩ := List.exists_duplicate_iff_not_nodup.mpr duplicate
  obtain ⟨pair, inside, keys⟩ := List.sublist_map_iff.mp (List.duplicate_iff_sublist.mp twice)
  obtain ⟨x, rest, rfl, keyX, tail⟩ := List.map_eq_cons_iff.mp keys.symm
  obtain ⟨y, rest, rfl, keyY, tail⟩ := List.map_eq_cons_iff.mp tail
  obtain rfl := List.map_eq_nil_iff.mp tail
  exact ⟨x, y, inside, keyY.trans keyX.symm⟩

theorem find_last_of_ascending (key : Row → Key) {rows : List Row}
    (ascending : rows.Pairwise fun x y => version x ≤ version y) (k : Key) :
    find k (gather key (newer version) rows) = (rows.filter fun x => key x = k).getLast? := by
  induction rows using List.reverseRecOn with
  | nil => rfl
  | append_singleton rows x ih =>
    obtain ⟨earlier, -, below⟩ := List.pairwise_append.mp ascending
    have before := ih earlier
    rw [gather_append_one, find_upsert, List.filter_append]
    by_cases own : key x = k
    · rw [if_pos own.symm, own, before, List.filter_cons_of_pos (by simpa using own), List.filter_nil,
        List.getLast?_append_of_ne_nil _ (List.cons_ne_nil x []), List.getLast?_singleton]
      cases last : (rows.filter fun x => key x = k).getLast? with
      | none => rfl
      | some kept =>
        have inside := List.mem_of_mem_filter (List.mem_of_getLast? last)
        rw [newer_some, if_neg (not_lt.mpr (below kept inside x (by simp)))]
    · rw [if_neg (Ne.symm own), before, List.filter_cons_of_neg (by simpa using own), List.filter_nil,
        List.append_nil]

end ReplacingMerge
