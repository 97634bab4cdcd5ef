import Procluster.Library.ReplacingMerge

/- Versioned rows of a table whose deletions are carried out later, row by row. A deletion
   reaches the rows of its key that were inserted before it. Beside the merges this goes on
   in the background; what a key will have when all of it is done does not change. -/
namespace PendingDeletions
open KeyedFold ReplacingMerge
universe u v w
variable {Row : Type u} {Key : Type v} {Version : Type w}

structure Stored (Row : Type u) where
  block : ℕ
  row : Row

structure Deletion (Key : Type v) where
  key : Key
  before : ℕ

structure Table (Row : Type u) (Key : Type v) where
  rows : List (Stored Row)
  nextBlock : ℕ
  deletions : List (Deletion Key)

def Table.insert (t : Table Row Key) (rows : List Row) : Table Row Key where
  rows := t.rows ++ rows.map fun r => ⟨t.nextBlock, r⟩
  nextBlock := t.nextBlock + 1
  deletions := t.deletions

def Table.delete (t : Table Row Key) (k : Key) : Table Row Key where
  rows := t.rows
  nextBlock := t.nextBlock
  deletions := t.deletions ++ [⟨k, t.nextBlock⟩]

/-- A deletion takes out a row, the first deletion has none left, two rows are merged. -/
inductive Work where
  | drop (i : ℕ)
  | finish
  | merge (i j : ℕ)

section Ordered
variable [LinearOrder Version] (version : Row → Version)

/-- Inserts with versions that never go back. -/
structure Ordered (t : Table Row Key) : Prop where
  ascending : t.rows.Pairwise fun x y => version x.row ≤ version y.row
  blocks : ∀ r ∈ t.rows, r.block < t.nextBlock
  reach : ∀ d ∈ t.deletions, d.before ≤ t.nextBlock

variable {version} {t : Table Row Key}

theorem ordered_insert (ordered : Ordered version t) {rows : List Row}
    (level : rows.Pairwise fun x y => version x ≤ version y)
    (later : ∀ old ∈ t.rows, ∀ r ∈ rows, version old.row ≤ version r) : Ordered version (t.insert rows) := by
  obtain ⟨ascending, blocks, reach⟩ := ordered
  constructor
  · rw [Table.insert, List.pairwise_append, List.pairwise_map]
    refine ⟨ascending, level, ?_⟩
    intro x inside y new
    obtain ⟨r, given, rfl⟩ := List.mem_map.mp new
    exact later x inside r given
  · intro r member
    rcases List.mem_append.mp member with old | new
    · have before := blocks r old
      simp only [Table.insert]
      omega
    · obtain ⟨given, -, rfl⟩ := List.mem_map.mp new
      simp [Table.insert]
  · intro d pending
    have before := reach d pending
    simp only [Table.insert]
    omega

theorem ordered_delete (ordered : Ordered version t) (k : Key) : Ordered version (t.delete k) := by
  obtain ⟨ascending, blocks, reach⟩ := ordered
  refine ⟨ascending, blocks, ?_⟩
  intro d pending
  rcases List.mem_append.mp pending with old | new
  · exact reach d old
  · obtain rfl := List.mem_singleton.mp new
    exact le_rfl

end Ordered

variable [DecidableEq Key] [LinearOrder Version] (key : Row → Key) (version : Row → Version)

def Covers (d : Deletion Key) (r : Stored Row) : Prop := key r.row = d.key ∧ r.block < d.before

def Doomed (deletions : List (Deletion Key)) (r : Stored Row) : Prop := ∃ d ∈ deletions, Covers key d r

instance (d : Deletion Key) (r : Stored Row) : Decidable (Covers key d r) := inferInstanceAs (Decidable (_ ∧ _))

instance (deletions : List (Deletion Key)) (r : Stored Row) : Decidable (Doomed key deletions r) :=
  inferInstanceAs (Decidable (∃ d ∈ deletions, Covers key d r))

/-- Rows are merged only if the same deletions reach them. -/
def Table.work (t : Table Row Key) : Work → Option (Table Row Key)
  | .drop i =>
    match t.rows[i]? with
    | some r => if Doomed key t.deletions r then some { t with rows := t.rows.eraseIdx i } else none
    | none => none
  | .finish =>
    match t.deletions with
    | d :: rest => if ∀ r ∈ t.rows, ¬ Covers key d r then some { t with deletions := rest } else none
    | [] => none
  | .merge i j =>
    match t.rows[i]?, t.rows[j]? with
    | some x, some y =>
      if ∀ d ∈ t.deletions, Covers key d x ↔ Covers key d y then
        (collapse (fun r => key r.row) (fun r => version r.row) t.rows i j).map fun rows =>
          { t with rows := rows }
      else none
    | _, _ => none

def Stays (deletions : List (Deletion Key)) (k : Key) (r : Stored Row) : Prop :=
  key r.row = k ∧ ¬ Doomed key deletions r

instance (deletions : List (Deletion Key)) (k : Key) (r : Stored Row) : Decidable (Stays key deletions k r) :=
  inferInstanceAs (Decidable (_ ∧ _))

/-- What a key has in the end. -/
def Table.current (t : Table Row Key) (k : Key) : Option Row :=
  ((t.rows.filter fun r => Stays key t.deletions k r).getLast?).map Stored.row

variable {key version} {t t' : Table Row Key}

section Current

omit [DecidableEq Key] [LinearOrder Version] in
theorem not_doomed_new (reach : ∀ d ∈ t.deletions, d.before ≤ t.nextBlock) (r : Row) :
    ¬ Doomed key t.deletions ⟨t.nextBlock, r⟩ := by
  rintro ⟨d, pending, -, earlier⟩
  have bound := reach d pending
  simp only at earlier
  omega

theorem current_insert (ordered : Ordered version t) (rows : List Row) (k : Key) :
    (t.insert rows).current key k = ((rows.filter fun r => key r = k).getLast?).or (t.current key k) := by
  have new : (rows.map fun r => (⟨t.nextBlock, r⟩ : Stored Row)).filter (fun r => Stays key t.deletions k r) =
      (rows.filter fun r => key r = k).map fun r => ⟨t.nextBlock, r⟩ := by
    rw [List.filter_map]
    congr 1
    apply List.filter_congr
    intro r _
    simp [Stays, not_doomed_new ordered.reach r]
  rw [Table.current, Table.insert, List.filter_append, new, List.getLast?_append, Option.map_or,
    List.getLast?_map, Option.map_map]
  simp [Table.current, Function.comp_def]

theorem current_delete (ordered : Ordered version t) (k k' : Key) :
    (t.delete k).current key k' = if k' = k then none else t.current key k' := by
  have stays : ∀ r ∈ t.rows, Stays key (t.deletions ++ [⟨k, t.nextBlock⟩]) k' r ↔
      Stays key t.deletions k' r ∧ k' ≠ k := by
    intro r member
    have before := ordered.blocks r member
    simp only [Stays, Doomed, Covers, List.mem_append, List.mem_singleton]
    constructor
    · rintro ⟨rfl, free⟩
      refine ⟨⟨rfl, ?_⟩, ?_⟩
      · rintro ⟨d, pending, reached⟩
        exact free ⟨d, .inl pending, reached⟩
      · rintro rfl
        exact free ⟨_, .inr rfl, rfl, before⟩
    · rintro ⟨⟨rfl, free⟩, other⟩
      refine ⟨rfl, ?_⟩
      rintro ⟨d, pending | rfl, reached⟩
      · exact free ⟨d, pending, reached⟩
      · exact other reached.1
  have kept : t.rows.filter (fun r => Stays key (t.deletions ++ [⟨k, t.nextBlock⟩]) k' r) =
      t.rows.filter fun r => Stays key t.deletions k' r ∧ k' ≠ k := by
    apply List.filter_congr
    intro r member
    exact decide_eq_decide.mpr (stays r member)
  rw [Table.current, Table.delete, kept]
  split
  · rename_i same
    simp [same]
  · rename_i other
    simp [other, Table.current]

theorem current_work (ordered : Ordered version t) {w : Work} (done : t.work key version w = some t') (k : Key) :
    t'.current key k = t.current key k := by
  cases w with
  | drop i =>
    simp only [Table.work] at done
    split at done
    · rename_i r found
      split at done
      · rename_i doomed
        obtain rfl := Option.some.inj done
        obtain ⟨a, b, rows, rfl⟩ := split_at found
        have gone : ¬ Stays key t.deletions k r := fun stays => stays.2 doomed
        simp only [Table.current, rows, List.eraseIdx_append_of_length_le le_rfl, Nat.sub_self,
          List.eraseIdx_cons_zero, List.filter_append, List.filter_cons, gone, decide_false, Bool.false_eq_true,
          ↓reduceIte]
      · cases done
    · cases done
  | finish =>
    simp only [Table.work] at done
    split at done
    · rename_i d rest pending
      split at done
      · rename_i clear
        obtain rfl := Option.some.inj done
        simp only [Table.current]
        congr 2
        apply List.filter_congr
        intro r member
        simp [Stays, Doomed, pending, clear r member]
      · cases done
    · cases done
  | merge i j =>
    simp only [Table.work] at done
    split at done
    · rename_i x y first second
      split at done
      · rename_i alike
        obtain ⟨rows, merged, rfl⟩ := Option.map_eq_some_iff.mp done
        obtain ⟨a, x', b, y', c, parts, same, rfl, first', second'⟩ := collapse_cases merged
        obtain rfl : x = x' := Option.some.inj (first.symm.trans first')
        obtain rfl : y = y' := Option.some.inj (second.symm.trans second')
        have ascending := ordered.ascending
        rw [parts] at ascending
        have newer : ¬ version y.row < version x.row := by
          have tail := (List.pairwise_append.mp ascending).2.1
          exact not_lt.mpr ((List.pairwise_cons.mp tail).1 y (by simp))
        have together : Stays key t.deletions k x ↔ Stays key t.deletions k y := by
          have fate : Doomed key t.deletions x ↔ Doomed key t.deletions y := by
            constructor
            · rintro ⟨d, pending, reached⟩
              exact ⟨d, pending, (alike d pending).mp reached⟩
            · rintro ⟨d, pending, reached⟩
              exact ⟨d, pending, (alike d pending).mpr reached⟩
          rw [Stays, Stays, fate, same]
        rw [if_neg newer]
        simp only [Table.current, parts, List.filter_append, List.filter_cons]
        congr 1
        -- Where the earlier row would count, the later one comes after it.
        by_cases counts : Stays key t.deletions k y
        · have last : ∀ l rest : List (Stored Row), (l ++ y :: rest).getLast? = (y :: rest).getLast? :=
            fun l rest => List.getLast?_append_of_ne_nil l (List.cons_ne_nil y rest)
          simp only [together, counts, decide_true, ↓reduceIte]
          rw [← List.append_assoc, last, ← List.cons_append]
          exact ((congrArg List.getLast? (List.append_assoc ..)).symm.trans (last _ _)).symm
        · simp [together, counts]
      · cases done
    · cases done

theorem work_rows {w : Work} (done : t.work key version w = some t') {r : Stored Row} (member : r ∈ t'.rows) :
    r ∈ t.rows := by
  cases w with
  | drop i =>
    simp only [Table.work] at done
    split at done
    · split at done
      · obtain rfl := Option.some.inj done
        exact (List.eraseIdx_sublist ..).subset member
      · cases done
    · cases done
  | finish =>
    simp only [Table.work] at done
    split at done
    · split at done
      · obtain rfl := Option.some.inj done
        exact member
      · cases done
    · cases done
  | merge i j =>
    simp only [Table.work] at done
    split at done
    · split at done
      · obtain ⟨rows, merged, rfl⟩ := Option.map_eq_some_iff.mp done
        exact (collapse_sublist merged).subset member
      · cases done
    · cases done

theorem ordered_work (ordered : Ordered version t) {w : Work} (done : t.work key version w = some t') :
    Ordered version t' := by
  obtain ⟨ascending, blocks, reach⟩ := ordered
  have fewer : ∀ {rows : List (Stored Row)}, rows.Sublist t.rows → Ordered version { t with rows := rows } := by
    intro rows sub
    exact ⟨ascending.sublist sub, fun r member => blocks r (sub.subset member), reach⟩
  cases w with
  | drop i =>
    simp only [Table.work] at done
    split at done
    · split at done
      · obtain rfl := Option.some.inj done
        exact fewer (List.eraseIdx_sublist ..)
      · cases done
    · cases done
  | finish =>
    simp only [Table.work] at done
    split at done
    · rename_i d rest pending
      split at done
      · obtain rfl := Option.some.inj done
        exact ⟨ascending, blocks, fun e later => reach e (pending ▸ List.mem_cons_of_mem d later)⟩
      · cases done
    · cases done
  | merge i j =>
    simp only [Table.work] at done
    split at done
    · split at done
      · obtain ⟨rows, merged, rfl⟩ := Option.map_eq_some_iff.mp done
        exact fewer (collapse_sublist merged)
      · cases done
    · cases done

theorem current_final (ordered : Ordered version t) {k : Key} (settled : ∀ d ∈ t.deletions, d.key ≠ k) :
    find k (gather key (newer version) (t.rows.map Stored.row)) = t.current key k := by
  rw [find_last_of_ascending key (List.pairwise_map.mpr ordered.ascending), List.filter_map, List.getLast?_map,
    Table.current]
  congr 2
  apply List.filter_congr
  intro r _
  apply decide_eq_decide.mpr
  constructor
  · rintro own
    refine ⟨own, ?_⟩
    rintro ⟨d, pending, reached⟩
    exact settled d pending (reached.1.symm.trans own)
  · exact And.left

end Current

end PendingDeletions
