import Mathlib.Data.List.Count
import Mathlib.Algebra.Order.Group.Int
import Mathlib.Tactic.Common

/- Reading a numbered sequence page by page up to a bound. A page is asked for by a
   number; what is read moves the cursor by another number, the end of the last item.
   Item i covers the marks from begins i up to begins (i + 1). The pages deliver the
   items of a range exactly once if and only if every page the range needs arrives and
   its request, made with the mark reached, names the item that comes next. -/
namespace CursorPaging
universe u v w
variable {Item : Type u} {Other : Type v} {Err : Type w}

inductive Fetched (Err : Type w) (Item : Type u) where
  | page (items : List Item)
  | gaveUp
  | failed (err : Err)

def Fetched.map (f : Item → Other) : Fetched Err Item → Fetched Err Other
  | .page items => .page (items.map f)
  | .gaveUp => .gaveUp
  | .failed err => .failed err

section Loop
variable (mark : Item → ℤ) (last : ℤ)

/-- Adds the items of a page up to the bound; no cursor is left where one lies behind it. -/
def readPage (all : List Item) (current : ℤ) : List Item → List Item × Option ℤ
  | [] => (all, some current)
  | x :: batch => if last < mark x then (all, none) else readPage (all ++ [x]) (mark x + 1) batch

/-- Page after page from a cursor; none where the fuel does not suffice. -/
def collect (fetch : ℕ → ℤ → Fetched Err Item) :
    ℕ → ℕ → List Item → ℤ → Option (Except Err (List Item))
  | 0, _, _, _ => none
  | fuel + 1, k, all, current =>
    if last < current then some (.ok all)
    else
      match fetch k current with
      | .failed err => some (.error err)
      | .gaveUp => some (.ok all)
      | .page batch =>
        if batch.isEmpty then some (.ok all)
        else
          match readPage mark last all current batch with
          | (all, none) => some (.ok all)
          | (all, some current) => collect fetch fuel (k + 1) all current

end Loop

section Naturality
variable {mark : Item → ℤ} {name : Other → ℤ} {f : Item → Other} {last : ℤ}

theorem readPage_map (names : ∀ x, name (f x) = mark x) (all : List Item) (current : ℤ)
    (batch : List Item) : readPage name last (all.map f) current (batch.map f) =
      ((readPage mark last all current batch).1.map f, (readPage mark last all current batch).2) := by
  induction batch generalizing all current with
  | nil => rfl
  | cons x batch ih =>
    rw [List.map_cons, readPage, readPage, names]
    split
    · rfl
    · rw [← ih, List.map_append]
      rfl

theorem collect_map (names : ∀ x, name (f x) = mark x) (fetch : ℕ → ℤ → Fetched Err Item)
    (fuel k : ℕ) (all : List Item) (current : ℤ) :
    collect name last (fun k c => (fetch k c).map f) fuel k (all.map f) current =
      (collect mark last fetch fuel k all current).map fun r => r.map (List.map f) := by
  induction fuel generalizing k all current with
  | zero => rfl
  | succ fuel ih =>
    rw [collect, collect]
    split
    · rfl
    · cases fetch k current with
      | failed err => rfl
      | gaveUp => rfl
      | page batch =>
        simp only [Fetched.map, List.isEmpty_map, readPage_map names]
        split
        · rfl
        · rcases readPage mark last all current batch with ⟨more, cursor⟩
          cases cursor with
          | none => rfl
          | some current => exact ih (k + 1) more current

end Naturality

section Fetches
variable {mark : Item → ℤ} {last : ℤ} {fetch : ℕ → ℤ → Fetched Err Item}

theorem readPage_all (all : List Item) (current : ℤ) (batch : List Item) :
    readPage mark last all current batch =
      (all ++ (readPage mark last [] current batch).1, (readPage mark last [] current batch).2) := by
  induction batch generalizing all current with
  | nil => simp [readPage]
  | cons x batch ih =>
    rw [readPage, readPage]
    split
    · simp
    · rw [ih (all ++ [x]), ih ([] ++ [x])]
      simp

theorem collect_all (fuel k : ℕ) (all : List Item) (current : ℤ) :
    collect mark last fetch fuel k all current =
      (collect mark last fetch fuel k [] current).map fun r => r.map (all ++ ·) := by
  induction fuel generalizing k all current with
  | zero => rfl
  | succ fuel ih =>
    rw [collect, collect]
    split
    · simp [Except.map]
    · cases fetch k current with
      | failed err => rfl
      | gaveUp => simp [Except.map]
      | page batch =>
        dsimp only
        split
        · simp [Except.map]
        · rw [readPage_all]
          rcases readPage mark last [] current batch with ⟨more, cursor⟩
          cases cursor with
          | none => rfl
          | some current =>
            dsimp only
            rw [ih _ (all ++ more), ih _ more, Option.map_map]
            congr 1
            funext r
            cases r with
            | error err => rfl
            | ok rest => simp [Except.map]

theorem collect_fuel {fuel k : ℕ} {all : List Item} {current : ℤ} {r : Except Err (List Item)}
    (done : collect mark last fetch fuel k all current = some r) :
    collect mark last fetch (fuel + 1) k all current = some r := by
  induction fuel generalizing k all current with
  | zero => cases done
  | succ fuel ih =>
    rw [collect] at done ⊢
    split at done
    · rename_i passed
      rw [if_pos passed]
      exact done
    · rename_i inside
      rw [if_neg inside]
      cases answer : fetch k current with
      | failed err => simpa [answer] using done
      | gaveUp => simpa [answer] using done
      | page batch =>
        simp only [answer] at done ⊢
        split at done
        · rename_i empty
          rw [if_pos empty]
          exact done
        · rename_i items
          rw [if_neg items]
          generalize readPage mark last all current batch = read at done ⊢
          obtain ⟨more, cursor⟩ := read
          cases cursor with
          | none => exact done
          | some current => exact ih done

theorem collect_mono {fuel more k : ℕ} (enough : fuel ≤ more) {all : List Item} {current : ℤ}
    {r : Except Err (List Item)} (done : collect mark last fetch fuel k all current = some r) :
    collect mark last fetch more k all current = some r := by
  induction more, enough using Nat.le_induction with
  | base => exact done
  | succ more _ ih => exact collect_fuel ih

theorem readPage_forall {P : Item → Prop} {all batch : List Item} (current : ℤ)
    (before : ∀ x ∈ all, P x) (each : ∀ x ∈ batch, P x) :
    ∀ x ∈ (readPage mark last all current batch).1, P x := by
  induction batch generalizing all current with
  | nil => exact before
  | cons y batch ih =>
    obtain ⟨here, later⟩ := List.forall_mem_cons.mp each
    rw [readPage]
    split
    · exact before
    · exact ih _ (List.forall_mem_append.mpr ⟨before, by simpa using here⟩) later

theorem collect_forall {P : Item → Prop} {fuel k : ℕ} {all R : List Item} {current : ℤ}
    (pages : ∀ k c batch, fetch k c = .page batch → ∀ x ∈ batch, P x) (before : ∀ x ∈ all, P x)
    (done : collect mark last fetch fuel k all current = some (.ok R)) : ∀ x ∈ R, P x := by
  induction fuel generalizing k all current with
  | zero => cases done
  | succ fuel ih =>
    rw [collect] at done
    split at done
    · exact Except.ok.inj (Option.some.inj done) ▸ before
    · cases answer : fetch k current with
      | failed err => simp [answer] at done
      | gaveUp =>
        simp only [answer] at done
        exact Except.ok.inj (Option.some.inj done) ▸ before
      | page batch =>
        simp only [answer] at done
        split at done
        · exact Except.ok.inj (Option.some.inj done) ▸ before
        · have read : ∀ x ∈ (readPage mark last all current batch).1, P x :=
            readPage_forall current before (pages k current batch answer)
          generalize readPage mark last all current batch = result at done read
          obtain ⟨more, cursor⟩ := result
          cases cursor with
          | none => exact Except.ok.inj (Option.some.inj done) ▸ read
          | some current => exact ih read done

theorem collect_unique {fuel other k : ℕ} {all : List Item} {current : ℤ}
    {r q : Except Err (List Item)} (done : collect mark last fetch fuel k all current = some r)
    (also : collect mark last fetch other k all current = some q) : r = q := by
  have first := collect_mono (le_max_left fuel other) done
  have second := collect_mono (le_max_right fuel other) also
  exact Option.some.inj (first.symm.trans second)

end Fetches

section Numbered
variable (begins : ℕ → ℤ) (n limit : ℕ) (base : ℤ)

def ends (i : ℕ) : ℤ := begins (i + 1) - 1

def firstFrom (c : ℤ) : ℕ := (c - base).toNat

def pageFrom (c : ℤ) : List ℕ :=
  List.range' (firstFrom base c) (min limit (n - firstFrom base c))

/-- Every page that is needed from item m on arrives and starts with the item due. -/
def Aligned (arrives : ℕ → Prop) (q k m : ℕ) : Prop :=
  ∀ j, m + limit * j < q →
    arrives (k + j) ∧ firstFrom base (begins (m + limit * j)) = m + limit * j

/-- Requests from the lowest number on are answered by the page they name, if at all. -/
structure Serves (arrives : ℕ → Prop) (lowest : ℤ) (fetch : ℕ → ℤ → Fetched Err ℕ) : Prop where
  answered : ∀ k c, lowest ≤ c → arrives k → fetch k c = .page (pageFrom n limit base c)
  refused : ∀ k c, ¬ arrives k → fetch k c = .gaveUp ∨ ∃ err, fetch k c = .failed err

end Numbered

section Exact
variable {begins : ℕ → ℤ} {n limit q : ℕ} {base lowest : ℤ} {arrives : ℕ → Prop}
  {fetch : ℕ → ℤ → Fetched Err ℕ}

theorem firstFrom_mono {c d : ℤ} (below : c ≤ d) : firstFrom base c ≤ firstFrom base d := by
  unfold firstFrom
  omega

theorem aligned_cons {k m : ℕ} (here : arrives k ∧ firstFrom base (begins m) = m)
    (later : Aligned begins limit base arrives q (k + 1) (m + limit)) :
    Aligned begins limit base arrives q k m := by
  intro j inside
  cases j with
  | zero => simpa using here
  | succ j =>
    have split : m + limit * (j + 1) = m + limit + limit * j := by rw [Nat.mul_succ]; omega
    rw [split] at inside ⊢
    have next := later j inside
    rwa [show k + 1 + j = k + (j + 1) by omega] at next

theorem aligned_last {k m : ℕ} (short : q ≤ m + limit)
    (here : arrives k ∧ firstFrom base (begins m) = m) :
    Aligned begins limit base arrives q k m := by
  intro j inside
  cases j with
  | zero => simpa using here
  | succ j =>
    rw [Nat.mul_succ] at inside
    omega

theorem count_behind {m len i : ℕ} {R : List ℕ}
    (counted : (List.range' m len ++ R).count i = if m ≤ i ∧ i < q then 1 else 0) :
    R.count i = if m + len ≤ i ∧ i < q then 1 else 0 := by
  rw [List.count_append, List.count_range_1'] at counted
  split at counted <;> split at counted <;> split <;> omega

section Increasing
variable (increasing : ∀ i < n, begins i < begins (i + 1))
include increasing

theorem begins_lt {i j : ℕ} (less : i < j) (inside : j ≤ n) : begins i < begins j := by
  induction j, less using Nat.le_induction with
  | base => exact increasing i (by omega)
  | succ j less ih => exact (ih (by omega)).trans (increasing j (by omega))

theorem begins_le {i j : ℕ} (less : i ≤ j) (inside : j ≤ n) : begins i ≤ begins j := by
  rcases less.eq_or_lt with rfl | less
  · exact le_rfl
  · exact (begins_lt increasing less inside).le

variable (bounded : q ≤ n)
include bounded

theorem passes_iff {i : ℕ} (inside : i < n) : begins q - 1 < ends begins i ↔ q ≤ i := by
  unfold ends
  constructor
  · intro passes
    by_contra before
    have := begins_le increasing (show i + 1 ≤ q by omega) bounded
    omega
  · intro behind
    have := begins_lt increasing (show q < i + 1 by omega) inside
    omega

theorem readPage_through {b len : ℕ} (some_items : 0 < len) (inside : b + len ≤ q) (all : List ℕ)
    (current : ℤ) : readPage (ends begins) (begins q - 1) all current (List.range' b len) =
      (all ++ List.range' b len, some (begins (b + len))) := by
  induction len generalizing b all current with
  | zero => omega
  | succ len ih =>
    have stays : ¬ begins q - 1 < ends begins b := by
      rw [passes_iff increasing bounded (by omega)]
      omega
    rw [List.range'_succ, readPage, if_neg stays]
    cases len with
    | zero => simp [readPage, ends]
    | succ len =>
      rw [ih (by omega) (by omega), List.append_assoc, show b + 1 + (len + 1) = b + (len + 1 + 1) by omega]
      rfl

theorem readPage_stops {b len : ℕ} (some_items : 0 < len) (behind : q < b + len) (inside : b + len ≤ n) (all : List ℕ)
    (current : ℤ) : readPage (ends begins) (begins q - 1) all current (List.range' b len) =
      (all ++ List.range' b (q - b), none) := by
  induction len generalizing b all current with
  | zero => omega
  | succ len ih =>
    rw [List.range'_succ, readPage]
    by_cases passed : q ≤ b
    · rw [if_pos ((passes_iff increasing bounded (by omega)).mpr passed), Nat.sub_eq_zero_of_le passed]
      simp
    · have stays : ¬ begins q - 1 < ends begins b := by
        rwa [passes_iff increasing bounded (by omega)]
      rw [if_neg stays, ih (by omega) (by omega) (by omega), List.append_assoc,
        show q - b = q - (b + 1) + 1 by omega, List.range'_succ]
      rfl

section Pages
variable (serves : Serves n limit base arrives lowest fetch) (positive : 0 < limit)
include serves positive

theorem collect_page (fuel : ℕ) {k : ℕ} {c : ℤ} (asked : lowest ≤ c) (inside : c ≤ begins q - 1)
    (arrived : arrives k) :
    let b := firstFrom base c
    (n ≤ b ∧ collect (ends begins) (begins q - 1) fetch (fuel + 1) k [] c = some (.ok [])) ∨
    (b < n ∧ q < b + min limit (n - b) ∧
      collect (ends begins) (begins q - 1) fetch (fuel + 1) k [] c =
        some (.ok (List.range' b (q - b)))) ∨
    (b < n ∧ b + min limit (n - b) ≤ q ∧
      collect (ends begins) (begins q - 1) fetch (fuel + 1) k [] c =
        (collect (ends begins) (begins q - 1) fetch fuel (k + 1) [] (begins (b + min limit (n - b)))).map
          fun r => r.map (List.range' b (min limit (n - b)) ++ ·)) := by
  intro b
  have answer : fetch k c = .page (List.range' b (min limit (n - b))) :=
    serves.answered k c asked arrived
  rw [collect, if_neg (not_lt.mpr inside), answer]
  dsimp only
  by_cases outside : n ≤ b
  · left
    refine ⟨outside, ?_⟩
    rw [show min limit (n - b) = 0 by omega]
    rfl
  · have items : 0 < min limit (n - b) := by omega
    have nonempty : ¬ (List.range' b (min limit (n - b))).isEmpty := by
      rw [List.isEmpty_iff, List.range'_eq_nil_iff]
      omega
    rw [if_neg nonempty]
    by_cases through : b + min limit (n - b) ≤ q
    · right
      right
      refine ⟨by omega, through, ?_⟩
      rw [readPage_through increasing bounded items through]
      exact collect_all _ _ _ _
    · right
      left
      refine ⟨by omega, by omega, ?_⟩
      rw [readPage_stops increasing bounded items (by omega) (by omega)]
      rfl

theorem collect_aligned (k m : ℕ) (reached : m ≤ q) (asked : ∀ i, m ≤ i → i ≤ n → lowest ≤ begins i)
    (aligned : Aligned begins limit base arrives q k m) :
    ∃ fuel, collect (ends begins) (begins q - 1) fetch fuel k [] (begins m) =
      some (.ok (List.range' m (q - m))) := by
  induction left : q - m using Nat.strong_induction_on generalizing k m with
  | h rest ih =>
    subst left
    by_cases finished : m = q
    · subst finished
      refine ⟨1, ?_⟩
      rw [collect, if_pos (by omega), Nat.sub_self]
      rfl
    · obtain ⟨arrived, here⟩ := aligned 0 (by omega)
      rw [Nat.add_zero] at arrived
      rw [Nat.mul_zero, Nat.add_zero] at here
      have started := begins_lt increasing (show m < q by omega) bounded
      have page := fun fuel => collect_page increasing bounded serves positive fuel
        (asked m le_rfl (by omega)) (show begins m ≤ begins q - 1 by omega) arrived
      simp only [here] at page
      by_cases through : m + min limit (n - m) ≤ q
      · have later : Aligned begins limit base arrives q (k + 1) (m + min limit (n - m)) := by
          by_cases full : limit ≤ n - m
          · rw [min_eq_left full]
            intro j inside
            have split : m + limit * (j + 1) = m + limit + limit * j := by
              rw [Nat.mul_succ]
              omega
            have next := aligned (j + 1) (by omega)
            rwa [split, show k + (j + 1) = k + 1 + j by omega] at next
          · intro j inside
            rw [min_eq_right (by omega)] at inside
            omega
        obtain ⟨fuel, done⟩ := ih (q - (m + min limit (n - m))) (by omega) _ _ through
          (fun i after => asked i (by omega)) later rfl
        refine ⟨fuel + 1, ?_⟩
        rcases page fuel with ⟨outside, -⟩ | ⟨-, stops, -⟩ | ⟨-, -, read⟩
        · omega
        · omega
        · rw [read, done]
          simp only [Option.map_some, Except.map, List.range'_append_1]
          congr 3
          omega
      · refine ⟨1, ?_⟩
        rcases page 0 with ⟨outside, -⟩ | ⟨-, -, read⟩ | ⟨-, past, -⟩
        · omega
        · exact read
        · omega

/- A loop that has moved behind item b never comes back before it. -/
theorem collected_from {fuel k b : ℕ} {c : ℤ} {R : List ℕ}
    (asked : lowest ≤ c) (floor : ∀ i < n, lowest ≤ begins (i + 1)) (reached : b ≤ firstFrom base c)
    (later : ∀ d, begins (b + 1) ≤ d → b ≤ firstFrom base d)
    (done : collect (ends begins) (begins q - 1) fetch fuel k [] c = some (.ok R)) :
    ∀ i ∈ R, b ≤ i := by
  induction fuel generalizing k c R with
  | zero => cases done
  | succ fuel ih =>
    by_cases inside : c ≤ begins q - 1
    · by_cases arrived : arrives k
      · rcases collect_page increasing bounded serves positive fuel asked inside arrived
          with ⟨-, read⟩ | ⟨-, -, read⟩ | ⟨known, through, read⟩
        · simp only [read, Option.some.injEq, Except.ok.injEq] at done
          simp [← done]
        · simp only [read, Option.some.injEq, Except.ok.injEq] at done
          intro i hi
          rw [← done, List.mem_range'_1] at hi
          omega
        · rw [read] at done
          obtain ⟨r, rest, done⟩ := Option.map_eq_some_iff.mp done
          cases r with
          | error err => cases done
          | ok more =>
            obtain rfl := Except.ok.inj done
            have items : 0 < min limit (n - firstFrom base c) := by omega
            obtain ⟨e, ending⟩ : ∃ e, firstFrom base c + min limit (n - firstFrom base c) = e + 1 :=
              ⟨firstFrom base c + min limit (n - firstFrom base c) - 1, by omega⟩
            have beyond : begins (b + 1) ≤ begins (e + 1) :=
              begins_le increasing (by omega) (by omega)
            rw [ending] at rest
            have tail := ih (floor e (by omega)) (later _ beyond) rest
            intro i hi
            rcases List.mem_append.mp hi with here | after
            · rw [List.mem_range'_1] at here
              omega
            · exact tail i after
      · rw [collect, if_neg (not_lt.mpr inside)] at done
        rcases serves.refused k c arrived with refused | ⟨err, refused⟩
        · simp only [refused, Option.some.injEq, Except.ok.injEq] at done
          simp [← done]
        · simp [refused] at done
    · rw [collect, if_pos (not_le.mp inside)] at done
      simp only [Option.some.injEq, Except.ok.injEq] at done
      simp [← done]

theorem aligned_of_exact {fuel k m : ℕ} {R : List ℕ} (asked : lowest ≤ begins m)
    (floor : ∀ i < n, lowest ≤ begins (i + 1))
    (exact_once : ∀ i, R.count i = if m ≤ i ∧ i < q then 1 else 0)
    (done : collect (ends begins) (begins q - 1) fetch fuel k [] (begins m) = some (.ok R)) :
    Aligned begins limit base arrives q k m := by
  induction fuel generalizing k m R with
  | zero => cases done
  | succ fuel ih =>
    by_cases finished : q ≤ m
    · intro j inside
      omega
    · have member : ∀ i, m ≤ i → i < q → i ∈ R := fun i after before =>
        List.count_pos_iff.mp (by rw [exact_once i, if_pos ⟨after, before⟩]; omega)
      have inRange : ∀ i ∈ R, m ≤ i ∧ i < q := by
        intro i hi
        by_contra outside
        have none := exact_once i
        rw [if_neg outside] at none
        exact List.count_eq_zero.mp none hi
      have due := member m le_rfl (by omega)
      have started := begins_lt increasing (show m < q by omega) bounded
      have inside : begins m ≤ begins q - 1 := by omega
      by_cases arrived : arrives k
      · rcases collect_page increasing bounded serves positive fuel asked inside arrived
          with ⟨-, read⟩ | ⟨known, stops, read⟩ | ⟨known, through, read⟩
        · simp only [read, Option.some.injEq, Except.ok.injEq] at done
          simp [← done] at due
        · rw [read, Option.some.injEq, Except.ok.injEq] at done
          subst done
          rw [List.mem_range'_1] at due
          have first := inRange (firstFrom base (begins m)) (by rw [List.mem_range'_1]; omega)
          exact aligned_last (by omega) ⟨arrived, by omega⟩
        · have first : firstFrom base (begins m) ∈ R := by
            rw [read] at done
            obtain ⟨r, -, done⟩ := Option.map_eq_some_iff.mp done
            cases r with
            | error err => cases done
            | ok more =>
              obtain rfl := Except.ok.inj done
              exact List.mem_append_left _ (List.mem_range'_1.mpr (by omega))
          have notBefore := (inRange _ first).1
          have here : firstFrom base (begins m) = m := by
            refine le_antisymm ?_ notBefore
            refine collected_from increasing bounded serves positive asked floor le_rfl ?_ done m due
            intro d beyond
            have := begins_lt increasing (show m < firstFrom base (begins m) + 1 by omega) (by omega)
            exact firstFrom_mono (by omega)
          by_cases full : m + limit < q
          · rw [here, min_eq_left (by omega)] at read
            rw [read] at done
            obtain ⟨r, rest, done⟩ := Option.map_eq_some_iff.mp done
            cases r with
            | error err => cases done
            | ok more =>
              obtain rfl := Except.ok.inj done
              obtain ⟨e, ending⟩ : ∃ e, m + limit = e + 1 := ⟨m + limit - 1, by omega⟩
              have cursor : lowest ≤ begins (m + limit) := ending ▸ floor e (by omega)
              exact aligned_cons ⟨arrived, here⟩
                (ih cursor (fun i => count_behind (exact_once i)) rest)
          · exact aligned_last (by omega) ⟨arrived, here⟩
      · rw [collect, if_neg (not_lt.mpr inside)] at done
        rcases serves.refused k (begins m) arrived with refused | ⟨err, refused⟩
        · simp only [refused, Option.some.injEq, Except.ok.injEq] at done
          simp [← done] at due
        · simp [refused] at done

/-- A range is collected exactly once if and only if its pages are aligned. -/
theorem collect_exact_iff {fuel m : ℕ} {R : List ℕ} (reached : m ≤ q) (asked : lowest ≤ begins m)
    (floor : ∀ i < n, lowest ≤ begins (i + 1))
    (done : collect (ends begins) (begins q - 1) fetch fuel 0 [] (begins m) = some (.ok R)) :
    (∀ i, R.count i = if m ≤ i ∧ i < q then 1 else 0) ↔
      Aligned begins limit base arrives q 0 m := by
  constructor
  · intro exact_once
    exact aligned_of_exact increasing bounded serves positive asked floor exact_once done
  · intro aligned i
    have cursors : ∀ i, m ≤ i → i ≤ n → lowest ≤ begins i := fun i after inside =>
      asked.trans (begins_le increasing after inside)
    obtain ⟨enough, delivered⟩ :=
      collect_aligned increasing bounded serves positive 0 m reached cursors aligned
    obtain rfl := Except.ok.inj (collect_unique done delivered)
    rw [List.count_range_1', Nat.add_sub_cancel' reached]

end Pages

end Increasing

end Exact

end CursorPaging
