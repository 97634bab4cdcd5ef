import Mathlib.Algebra.Order.Field.Basic
import Mathlib.Data.List.Basic
import Mathlib.Order.Lattice
import Mathlib.Tactic.Linarith

/- A loop over the windows of a list that keeps or skips each of them and may fail, and
   the windows of neighbouring keys in a list whose keys are at least one step apart. -/
namespace SlidingWindows
universe u v
variable {Item : Type u} {Out : Type v}

/-- What the loop keeps; none in the body fails the loop, some none skips. -/
def scan (body : ℕ → Option (Option Out)) : List ℕ → Option (List Out)
  | [] => some []
  | i :: rest =>
    match body i with
    | none => none
    | some none => scan body rest
    | some (some out) => (scan body rest).map (out :: ·)

section Cons
variable {body : ℕ → Option (Option Out)} {i : ℕ} (rest : List ℕ)

theorem scan_fail (here : body i = none) : scan body (i :: rest) = none := by
  simp [scan, here]

theorem scan_skip (here : body i = some none) : scan body (i :: rest) = scan body rest := by
  rw [scan, here]

theorem scan_keep {out : Out} (here : body i = some (some out)) :
    scan body (i :: rest) = (scan body rest).map (out :: ·) := by
  simp [scan, here]

end Cons

theorem map_skip {View : Type*} (c : Prop) [Decidable c] (f : Out → View) (rest : Option (Option Out)) :
    (if c then some none else rest).map (Option.map f) =
      if c then some none else rest.map (Option.map f) := by
  split_ifs <;> rfl

theorem scan_map {Other : Type*} {View : Type*} {body : ℕ → Option (Option Out)}
    {other : ℕ → Option (Option Other)} {f : Out → View} {g : Other → View} {is : List ℕ}
    (agree : ∀ i ∈ is, (body i).map (Option.map f) = (other i).map (Option.map g)) :
    (scan body is).map (List.map f) = (scan other is).map (List.map g) := by
  induction is with
  | nil => rfl
  | cons i rest ih =>
    have here := agree i List.mem_cons_self
    have later := ih fun j member => agree j (List.mem_cons_of_mem i member)
    rcases left : body i with _ | _ | out <;> rcases right : other i with _ | _ | out' <;>
      simp only [left, right, Option.map_none, Option.map_some, reduceCtorEq, Option.some.injEq] at here
    · rw [scan_fail rest left, scan_fail rest right]
      rfl
    · rw [scan_skip rest left, scan_skip rest right, later]
    · have tails := congrArg (Option.map (f out :: ·)) later
      rw [scan_keep rest left, scan_keep rest right]
      simp only [Option.map_map, Function.comp_def, List.map_cons] at tails ⊢
      rw [tails, here]

theorem scan_meant {body : ℕ → Option (Option Out)} {meant : ℕ → Option Out} {is : List ℕ}
    (same : ∀ i ∈ is, body i = some (meant i)) : scan body is = some (is.filterMap meant) := by
  induction is with
  | nil => rfl
  | cons i rest ih =>
    obtain ⟨here, later⟩ := List.forall_mem_cons.mp same
    cases wanted : meant i with
    | none => rw [scan_skip rest (here.trans (congrArg some wanted)), ih later, List.filterMap_cons_none wanted]
    | some out =>
      rw [scan_keep rest (here.trans (congrArg some wanted)), ih later, List.filterMap_cons_some wanted]
      rfl

theorem window_head {xs : List Item} {i : ℕ} {x : Item} (found : xs[i]? = some x) (n : ℕ) :
    (xs.drop i).take (n + 1) = x :: (xs.drop (i + 1)).take n := by
  obtain ⟨inside, rfl⟩ := List.getElem?_eq_some_iff.mp found
  rw [List.drop_eq_getElem_cons inside, List.take_succ_cons]

theorem filterMap_range (xs : List Item) (f : Item → Option Out) (n : ℕ) :
    ((List.range n).filterMap fun i => xs[i]?.bind f) = (xs.take n).filterMap f := by
  induction n with
  | zero => rfl
  | succ n ih =>
    rw [List.range_succ, List.filterMap_append, ih, List.take_add_one, List.filterMap_append]
    cases here : xs[n]? <;> simp [List.filterMap_cons, here]

section Runs
variable {Key : Type*} [Field Key] [LinearOrder Key] (step : Key) (key : Item → Key)

/-- From the first item down, the keys are at least one step apart. -/
def Spaced (xs : List Item) : Prop := xs.Pairwise fun a b => key b + step ≤ key a

def Consecutive (xs : List Item) : Prop := xs.IsChain fun a b => key b = key a - step

instance (xs : List Item) : Decidable (Consecutive step key xs) :=
  inferInstanceAs (Decidable (List.IsChain _ xs))

/-- The items at p, one step below it, and so on, n in all. -/
def runFrom (xs : List Item) : ℕ → Key → Option (List Item)
  | 0, _ => some []
  | n + 1, p => (xs.find? fun x => key x = p).bind fun x => (runFrom xs n (p - step)).map (x :: ·)

variable {step key}

theorem runFrom_head {xs w : List Item} {n : ℕ} {p : Key} (run : runFrom step key xs (n + 1) p = some w) :
    ∃ x ∈ xs, key x = p := by
  simp only [runFrom, Option.bind_eq_some_iff] at run
  obtain ⟨x, first, -⟩ := run
  exact ⟨x, List.mem_of_find?_eq_some first, by simpa using List.find?_some first⟩

omit [LinearOrder Key] in
theorem window_next_iff {xs : List Item} {i n : ℕ} {x : Item} (w : List Item) :
    (w = x :: (xs.drop (i + 1)).take (n + 1) ∧ w.length = n + 2 ∧ Consecutive step key w) ↔
      ∃ tail, x :: tail = w ∧ ∃ y, xs[i + 1]? = some y ∧ key y = key x - step ∧
        tail = (xs.drop (i + 1)).take (n + 1) ∧ tail.length = n + 1 ∧ Consecutive step key tail := by
  constructor
  · rintro ⟨rfl, length, chain⟩
    have length' : ((xs.drop (i + 1)).take (n + 1)).length = n + 1 := by simpa using length
    have inside : i + 1 < xs.length := by
      rw [List.length_take, List.length_drop] at length'
      omega
    have next : xs[i + 1]? = some xs[i + 1] := List.getElem?_eq_getElem inside
    unfold Consecutive at chain
    rw [window_head next] at chain
    refine ⟨_, rfl, _, next, (List.isChain_cons_cons.mp chain).1, rfl, length', ?_⟩
    unfold Consecutive
    rw [window_head next]
    exact (List.isChain_cons_cons.mp chain).2
  · rintro ⟨tail, rfl, y, next, below, rfl, length, chain⟩
    refine ⟨rfl, by rw [List.length_cons, length], ?_⟩
    unfold Consecutive at chain ⊢
    rw [window_head next] at chain ⊢
    exact List.isChain_cons_cons.mpr ⟨below, chain⟩

variable {xs : List Item} (spaced : Spaced step key xs)
include spaced

theorem key_lt {i j : ℕ} {a b : Item} (first : xs[i]? = some a) (second : xs[j]? = some b) (before : i < j) :
    key b + step ≤ key a := by
  obtain ⟨inside, rfl⟩ := List.getElem?_eq_some_iff.mp first
  obtain ⟨insideToo, rfl⟩ := List.getElem?_eq_some_iff.mp second
  exact List.pairwise_iff_getElem.mp spaced i j inside insideToo before

variable [IsStrictOrderedRing Key] (positive : 0 < step)
include positive

theorem position_of_key {i j : ℕ} {a b : Item} (first : xs[i]? = some a) (second : xs[j]? = some b)
    (same : key a = key b) : i = j := by
  rcases lt_trichotomy i j with before | same' | after
  · have gap := key_lt spaced first second before
    linarith
  · exact same'
  · have gap := key_lt spaced second first after
    linarith

theorem find_key {i : ℕ} {x : Item} (found : xs[i]? = some x) :
    (xs.find? fun y => key y = key x) = some x := by
  have member : x ∈ xs := List.mem_of_getElem? found
  obtain ⟨y, first⟩ := Option.isSome_iff_exists.mp
    (List.find?_isSome.mpr ⟨x, member, by simp⟩ : (xs.find? fun y => key y = key x).isSome = true)
  have same : key y = key x := by simpa using List.find?_some first
  obtain ⟨j, position⟩ := List.getElem?_of_mem (List.mem_of_find?_eq_some first)
  obtain rfl := position_of_key spaced positive position found same
  rw [first, ← position, found]

theorem before_of_key_lt {i j : ℕ} {a b : Item} (first : xs[i]? = some a) (second : xs[j]? = some b)
    (below : key b < key a) : i < j := by
  rcases lt_trichotomy i j with before | same | after
  · exact before
  · subst same
    obtain rfl := Option.some.inj (first.symm.trans second)
    exact absurd below (lt_irrefl _)
  · have gap := key_lt spaced second first after
    linarith

theorem next_of_key {i : ℕ} {x y : Item} (found : xs[i]? = some x) (member : y ∈ xs)
    (below : key y = key x - step) : xs[i + 1]? = some y := by
  obtain ⟨j, position⟩ := List.getElem?_of_mem member
  obtain ⟨inside, _⟩ := List.getElem?_eq_some_iff.mp position
  have after : i < j := before_of_key_lt spaced positive found position (by linarith)
  by_cases next : j = i + 1
  · rw [← next, position]
  · have between : xs[i + 1]? = some xs[i + 1] := List.getElem?_eq_getElem (by omega)
    have above := key_lt spaced found between (Nat.lt_succ_self i)
    have under := key_lt spaced between position (by omega)
    linarith

theorem runFrom_next_iff {i n : ℕ} {x : Item} (found : xs[i]? = some x) (tail : List Item) :
    runFrom step key xs (n + 1) (key x - step) = some tail ↔
      ∃ y, xs[i + 1]? = some y ∧ key y = key x - step ∧
        runFrom step key xs (n + 1) (key y) = some tail := by
  constructor
  · intro run
    obtain ⟨y, member, below⟩ := runFrom_head run
    exact ⟨y, next_of_key spaced positive found member below, below, by rw [below, run]⟩
  · rintro ⟨y, -, below, run⟩
    rw [← below, run]

/- A run from an item is the window of the list that begins there, if its keys are
   consecutive; induction on the length, the window moving on by one. -/
theorem runFrom_iff (n : ℕ) {i : ℕ} {x : Item} (found : xs[i]? = some x) (w : List Item) :
    runFrom step key xs n (key x) = some w ↔
      w = (xs.drop i).take n ∧ w.length = n ∧ Consecutive step key w := by
  induction n generalizing i x w with
  | zero =>
    simp only [runFrom, Option.some.injEq, List.take_zero]
    constructor
    · rintro rfl
      exact ⟨rfl, rfl, .nil⟩
    · rintro ⟨rfl, -⟩
      rfl
  | succ n ih =>
    simp only [runFrom, find_key spaced positive found, Option.bind_some, Option.map_eq_some_iff,
      window_head found]
    cases n with
    | zero =>
      simp only [runFrom, Option.some.injEq, List.take_zero]
      constructor
      · rintro ⟨_, rfl, rfl⟩
        exact ⟨rfl, rfl, .singleton x⟩
      · rintro ⟨rfl, -⟩
        exact ⟨[], rfl, rfl⟩
    | succ n =>
      rw [window_next_iff]
      constructor
      · rintro ⟨tail, run, rfl⟩
        obtain ⟨y, next, below, again⟩ := (runFrom_next_iff spaced positive found tail).mp run
        exact ⟨tail, rfl, y, next, below, (ih next tail).mp again⟩
      · rintro ⟨tail, rfl, y, next, below, window⟩
        exact ⟨tail, (runFrom_next_iff spaced positive found tail).mpr
          ⟨y, next, below, (ih next tail).mpr window⟩, rfl⟩

theorem runs_eq_windows {n : ℕ} (some_length : 1 ≤ n) :
    (xs.filterMap fun x => runFrom step key xs n (key x)) =
      (List.range (xs.length + 1 - n)).filterMap fun i =>
        if Consecutive step key ((xs.drop i).take n) then some ((xs.drop i).take n) else none := by
  have late : ∀ i x, xs.length + 1 - n ≤ i → xs[i]? = some x → runFrom step key xs n (key x) = none := by
    intro i x position found
    apply Option.eq_none_iff_forall_not_mem.mpr
    intro w run
    obtain ⟨rfl, length, -⟩ := (runFrom_iff spaced positive n found w).mp run
    rw [List.length_take, List.length_drop] at length
    omega
  have split : (xs.filterMap fun x => runFrom step key xs n (key x)) =
      (xs.take (xs.length + 1 - n)).filterMap fun x => runFrom step key xs n (key x) := by
    conv_lhs => rw [← List.take_append_drop (xs.length + 1 - n) xs, List.filterMap_append]
    rw [List.take_append_drop]
    have rest : ((xs.drop (xs.length + 1 - n)).filterMap fun x => runFrom step key xs n (key x)) = [] := by
      apply List.filterMap_eq_nil_iff.mpr
      intro x member
      obtain ⟨j, found⟩ := List.getElem?_of_mem member
      rw [List.getElem?_drop] at found
      exact late _ x (Nat.le_add_right _ _) found
    rw [rest, List.append_nil]
  rw [split, ← filterMap_range]
  apply List.filterMap_congr
  intro i member
  have inside : i < xs.length + 1 - n := List.mem_range.mp member
  have found : xs[i]? = some xs[i] := List.getElem?_eq_getElem (by omega)
  rw [found, Option.bind_some]
  have run := runFrom_iff spaced positive n found ((xs.drop i).take n)
  have length : ((xs.drop i).take n).length = n := by
    rw [List.length_take, List.length_drop]
    omega
  split_ifs with consecutive
  · exact run.mpr ⟨rfl, length, consecutive⟩
  · apply Option.eq_none_iff_forall_not_mem.mpr
    intro w other
    obtain ⟨rfl, -, chain⟩ := (runFrom_iff spaced positive n found w).mp other
    exact consecutive chain

end Runs

end SlidingWindows
