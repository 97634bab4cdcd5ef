import Mathlib.Data.List.Nodup
import Mathlib.Tactic.Common

/- Items that several senders put into one sequence, each in its own order. Senders
   with different names on their items do not disturb each other: what has one name
   comes out as its sender wrote it. -/
namespace Interleaving
universe u v w
variable {Item : Type u} {Name : Type v} {Sender : Type w}

inductive Shuffle : List Item → List Item → List Item → Prop where
  | done : Shuffle [] [] []
  | left {x : Item} {xs ys out : List Item} : Shuffle xs ys out → Shuffle (x :: xs) ys (x :: out)
  | right {y : Item} {xs ys out : List Item} : Shuffle xs ys out → Shuffle xs (y :: ys) (y :: out)

/-- A sequence that takes every list in its own order. -/
def Interleaves : List (List Item) → List Item → Prop
  | [], out => out = []
  | items :: others, out => ∃ rest, Interleaves others rest ∧ Shuffle items rest out

variable {xs ys out : List Item}

theorem shuffle_nil_left (shuffle : Shuffle [] ys out) : out = ys := by
  induction ys generalizing out with
  | nil =>
    cases shuffle
    rfl
  | cons y ys ih =>
    cases shuffle with
    | right later => rw [ih later]

theorem shuffle_nil_right (shuffle : Shuffle xs [] out) : out = xs := by
  induction xs generalizing out with
  | nil =>
    cases shuffle
    rfl
  | cons x xs ih =>
    cases shuffle with
    | left later => rw [ih later]

theorem shuffle_filter (p : Item → Bool) (shuffle : Shuffle xs ys out) :
    Shuffle (xs.filter p) (ys.filter p) (out.filter p) := by
  induction shuffle with
  | done => exact .done
  | @left x xs ys out _ ih =>
    by_cases kept : p x
    · simpa [kept] using ih.left
    · simpa [kept] using ih
  | @right y xs ys out _ ih =>
    by_cases kept : p y
    · simpa [kept] using ih.right
    · simpa [kept] using ih

section Named
variable [DecidableEq Name] {name : Item → Name} {sender : Sender → Name}
  {items : Sender → List Item}

theorem filter_other {n k : Name} (own : ∀ x ∈ xs, name x = k) (other : k ≠ n) :
    xs.filter (fun x => name x = n) = [] := by
  apply List.filter_eq_nil_iff.mpr
  intro x member
  simpa [own x member] using other

theorem interleaves_unnamed {senders : List Sender}
    (named : ∀ s ∈ senders, ∀ x ∈ items s, name x = sender s)
    (interleaves : Interleaves (senders.map items) out) {n : Name}
    (unknown : ∀ s ∈ senders, sender s ≠ n) : out.filter (fun x => name x = n) = [] := by
  induction senders generalizing out with
  | nil =>
    obtain rfl : out = [] := interleaves
    rfl
  | cons s senders ih =>
    obtain ⟨rest, later, shuffle⟩ := interleaves
    obtain ⟨own, others⟩ := List.forall_mem_cons.mp named
    obtain ⟨other, unknown⟩ := List.forall_mem_cons.mp unknown
    have filtered := shuffle_filter (fun x => decide (name x = n)) shuffle
    rw [filter_other own other, ih others later unknown] at filtered
    exact shuffle_nil_left filtered

theorem interleaves_own {senders : List Sender} (distinct : (senders.map sender).Nodup)
    (named : ∀ s ∈ senders, ∀ x ∈ items s, name x = sender s)
    (interleaves : Interleaves (senders.map items) out) {s : Sender} (known : s ∈ senders) :
    out.filter (fun x => name x = sender s) = items s := by
  induction senders generalizing out with
  | nil => cases known
  | cons first senders ih =>
    obtain ⟨rest, later, shuffle⟩ := interleaves
    obtain ⟨own, others⟩ := List.forall_mem_cons.mp named
    obtain ⟨fresh, distinct⟩ := List.nodup_cons.mp distinct
    have filtered := shuffle_filter (fun x => decide (name x = sender s)) shuffle
    rcases List.mem_cons.mp known with rfl | behind
    · have absent : ∀ t ∈ senders, sender t ≠ sender s :=
        fun t member same => fresh (List.mem_map.mpr ⟨t, member, same⟩)
      rw [interleaves_unnamed others later absent] at filtered
      rw [shuffle_nil_right filtered]
      exact List.filter_eq_self.mpr fun x member => decide_eq_true (own x member)
    · have other : sender first ≠ sender s :=
        fun same => fresh (List.mem_map.mpr ⟨s, behind, same.symm⟩)
      rw [filter_other own other, ih distinct others later behind] at filtered
      exact shuffle_nil_left filtered

end Named

end Interleaving
