import Mathlib.Logic.Function.Basic
import Procluster.Library.KeyedFold

/- A table of counts, one for each key that is held at all. Acquiring counts the key
   up and releasing counts it down; a count that is not positive leaves the table, so
   the release of a key that nobody holds changes no count. -/
namespace ReferenceCounts
open KeyedFold
universe u
variable {Key : Type u} [DecidableEq Key]

def count (k : Key) (table : List (Key × ℤ)) : ℤ := (find k table).getD 0

def acquire (k : Key) (table : List (Key × ℤ)) : List (Key × ℤ) :=
  upsert k (fun old => old.getD 0 + 1) table

def release (k : Key) (table : List (Key × ℤ)) : List (Key × ℤ) :=
  let lower := upsert k (fun old => old.getD 0 - 1) table
  if count k lower ≤ 0 then erase k lower else lower

/-- The table says how many holders each key has, and lists the held keys only. -/
structure Counts (holders : Key → ℕ) (table : List (Key × ℤ)) : Prop where
  distinct : (keys table).Nodup
  exact_count : ∀ k, count k table = holders k
  positive : ∀ k n, find k table = some n → 0 < n

theorem counts_empty : Counts (fun _ : Key => 0) [] :=
  ⟨List.nodup_nil, fun _ => rfl, fun _ _ found => by cases found⟩

variable {holders : Key → ℕ} {table : List (Key × ℤ)}

theorem counts_entries (counts : Counts holders table) : ∀ p ∈ table, 0 < p.2 := by
  intro p member
  exact counts.positive p.1 p.2 (find_of_mem counts.distinct member)

theorem counts_absent (counts : Counts holders table) {k : Key} (unheld : holders k = 0) :
    k ∉ keys table := by
  intro listed
  obtain ⟨n, found⟩ := Option.isSome_iff_exists.mp ((mem_keys_iff k table).mp listed)
  have total := counts.exact_count k
  rw [count, found, unheld] at total
  have positive := counts.positive k n found
  simp only [Option.getD_some] at total
  omega

theorem counts_changed (counts : Counts holders table) {table' : List (Key × ℤ)} {k : Key} {n : ℕ}
    (distinct : (keys table').Nodup)
    (own : find k table' = if n = 0 then none else some (n : ℤ))
    (others : ∀ j, j ≠ k → find j table' = find j table) :
    Counts (Function.update holders k n) table' := by
  refine ⟨distinct, ?_, ?_⟩
  · intro j
    by_cases same : j = k
    · subst same
      rw [count, own, Function.update_self]
      split
      · rename_i zero
        rw [zero]
        rfl
      · rfl
    · rw [count, others j same, Function.update_of_ne same]
      exact counts.exact_count j
  · intro j m found
    by_cases same : j = k
    · subst same
      rw [own] at found
      split at found
      · cases found
      · rw [Option.some.injEq] at found
        omega
    · rw [others j same] at found
      exact counts.positive j m found

theorem counts_acquire (counts : Counts holders table) (k : Key) :
    Counts (Function.update holders k (holders k + 1)) (acquire k table) := by
  have before := counts.exact_count k
  rw [count] at before
  refine counts_changed counts (keys_upsert_nodup _ _ _ counts.distinct) ?_ ?_
  · rw [acquire, find_upsert_self, before, if_neg (Nat.succ_ne_zero _)]
    rfl
  · intro j other
    exact find_upsert_other _ _ other

theorem counts_release (counts : Counts holders table) (k : Key) :
    Counts (Function.update holders k (holders k - 1)) (release k table) := by
  have before := counts.exact_count k
  rw [count] at before
  have lowered : find k (upsert k (fun old => old.getD 0 - 1) table) = some ((holders k : ℤ) - 1) := by
    rw [find_upsert_self, before]
  have distinct := keys_upsert_nodup k (fun old => old.getD 0 - 1) table counts.distinct
  unfold release
  dsimp only
  rw [count, lowered, Option.getD_some]
  split
  · refine counts_changed counts (((erase_sublist k _).map Prod.fst).nodup distinct) ?_ ?_
    · rw [find_erase, if_pos rfl, if_pos (by omega)]
    · intro j other
      rw [find_erase, if_neg other, find_upsert_other _ _ other]
  · refine counts_changed counts distinct ?_ ?_
    · rw [lowered, if_neg (by omega), Option.some.injEq]
      omega
    · intro j other
      exact find_upsert_other _ _ other

end ReferenceCounts
