import Procluster.Aggregate
import Procluster.Library.FloatRounding

/-!
Package cache: the live aggregation hashes. A hash maps the printed price of a bin
to its printed bid and ask, so every increment reads, adds doubles and prints again.
-/
namespace RedisCache
open Aggregate KeyedFold DecimalText FloatRounding

abbrev Text := List Char

abbrev Hash := List (Text × Text)

abbrev Store := List (String × Hash)

def hGetAll (s : Store) (key : String) : Hash := (find key s).getD []

def hGet (s : Store) (key : String) (field : Text) : Option Text := find field (hGetAll s key)

def hSet (s : Store) (key : String) (field value : Text) : Store :=
  upsert key (fun hash => upsert field (fun _ => value) (hash.getD [])) s

/-- strconv.ParseFloat with its error ignored. -/
def parseFloat (text : Text) : ℚ := (parsePlain text).getD 0

/-- strings.Split(val, ","), used only where it has two parts. -/
def splitPair (val : Text) : Option (ℚ × ℚ) :=
  match val.splitOn ',' with
  | [bid, ask] => some (parseFloat bid, parseFloat ask)
  | _ => none

/-- strconv.FormatFloat(priceLow, 'f', 1, 64) -/
def fieldOf (priceLow : ℚ) : Text := formatFixed1 (float64 priceLow)

/-- fmt.Sprintf("%.1f,%.1f", bid, ask) -/
def pairText (bid ask : ℚ) : Text := formatFixed1 (float64 bid) ++ ',' :: formatFixed1 (float64 ask)

def incrCell (s : Store) (key : String) (priceLow bidDelta askDelta : ℚ) : Store :=
  let field := fieldOf priceLow
  let current := match hGet s key field with
    | none => (0, 0)
    | some val => (splitPair val).getD (0, 0)
  hSet s key field (pairText (fadd current.1 bidDelta) (fadd current.2 askDelta))

def getAggCells (data : Hash) : List ClusterCell :=
  data.filterMap fun p =>
    match parsePlain p.1, splitPair p.2 with
    | some price, some (bid, ask) => some ⟨price, bid, ask⟩
    | _, _ => none

def delAggKey (s : Store) (key : String) : Store := erase key s

structure Increment where
  bin : ℚ
  bidDelta : ℚ
  askDelta : ℚ
  deriving DecidableEq

def incrAll (s : Store) (key : String) (incs : List Increment) : Store :=
  incs.foldl (fun s i => incrCell s key i.bin i.bidDelta i.askDelta) s

def ofBin (incs : List Increment) (bin : ℚ) : List Increment :=
  incs.filter fun i => float64 i.bin = float64 bin

def bidsOf (incs : List Increment) (bin : ℚ) : List ℚ := (ofBin incs bin).map Increment.bidDelta

def asksOf (incs : List Increment) (bin : ℚ) : List ℚ := (ofBin incs bin).map Increment.askDelta

/-- Whatever the order of HGETALL, each bin comes back as one cell whose bid and ask
    are the exact sums of its increments up to one rounding to a tenth. -/
def WithinOneRounding (s : Store) (key : String) (incs : List Increment) : Prop :=
  ∀ i ∈ incs, ∀ data, data.Perm (hGetAll (incrAll s key incs) key) →
    ∃ cell, (getAggCells data).filter (fun c => float64 c.price = float64 i.bin) = [cell] ∧
      |cell.bid - (bidsOf incs i.bin).sum| ≤ 1 / 20 ∧
      |cell.ask - (asksOf incs i.bin).sum| ≤ 1 / 20

/-- The whole tenths by which an increment moves a total of tenths: the nearest to the
    increment; within the errors of a double sum from half-way, those that are printed. -/
def moved (total : ℤ) (delta : ℚ) : ℤ :=
  if (|(total : ℚ)| + |10 * delta|) / 2 ^ 51 < |Int.fract (10 * delta) - 1 / 2| then round (10 * delta)
  else roundHalfEven (10 * fadd (total / 10) delta) - total

/-- What the increments of one side are moved too far, in tenths, from a total on. -/
def drift : ℤ → List ℚ → ℚ
  | _, [] => 0
  | total, delta :: deltas => moved total delta - 10 * delta + drift (total + moved total delta) deltas

/-- The tenth that is printed for a bin names it. -/
def PrintsBack (bin : ℚ) : Prop :=
  float64 ((roundHalfEven (10 * float64 bin) : ℚ) / 10) = float64 bin

/-- Every bin comes back from its field, and on each of its sides the roundings of the
    single increments cancel to at most half a tenth. -/
def RoundingsCancel (incs : List Increment) : Prop :=
  ∀ i ∈ incs, PrintsBack i.bin ∧ |drift 0 (bidsOf incs i.bin)| ≤ 1 / 2 ∧ |drift 0 (asksOf incs i.bin)| ≤ 1 / 2

def incrValue (i : Increment) (old : Option Text) : Text :=
  let current := match old with
    | none => (0, 0)
    | some val => (splitPair val).getD (0, 0)
  pairText (fadd current.1 i.bidDelta) (fadd current.2 i.askDelta)

theorem incrCell_eq (s : Store) (key : String) (i : Increment) :
    incrCell s key i.bin i.bidDelta i.askDelta = hSet s key (fieldOf i.bin)
      (incrValue i (hGet s key (fieldOf i.bin))) := rfl

theorem hGetAll_incrCell (s : Store) (key : String) (i : Increment) :
    hGetAll (incrCell s key i.bin i.bidDelta i.askDelta) key =
      upsert (fieldOf i.bin) (incrValue i) (hGetAll s key) := by
  rw [← upsert_find]
  simp only [incrCell, hSet, hGetAll, hGet, find_upsert_self, Option.getD_some, incrValue]

theorem hGetAll_incrAll {s : Store} {key : String} (absent : find key s = none)
    (incs : List Increment) :
    hGetAll (incrAll s key incs) key = gather (fun i => fieldOf i.bin) incrValue incs := by
  induction incs using List.reverseRecOn with
  | nil => simp [incrAll, hGetAll, absent, gather]
  | append_singleton incs i ih =>
    rw [gather_append_one, ← ih, ← hGetAll_incrCell, incrAll, List.foldl_append]
    rfl

theorem splitPair_pairText (bid ask : ℚ) : splitPair (pairText bid ask) =
    some ((roundHalfEven (10 * float64 bid) : ℚ) / 10, (roundHalfEven (10 * float64 ask) : ℚ) / 10) := by
  have parts : (pairText bid ask).splitOn ',' = [formatFixed1 (float64 bid), formatFixed1 (float64 ask)] := by
    rw [pairText, List.splitOn_append_cons_self,
      List.splitOn_eq_singleton (comma_not_in_formatFixed1 _),
      List.splitOn_eq_singleton (comma_not_in_formatFixed1 _), List.singleton_append]
  simp only [splitPair, parts, parseFloat, parsePlain_formatFixed1, Option.getD_some]

section Drift

def tenths (deltas : List ℚ) : ℤ :=
  deltas.foldl (fun (n : ℤ) d => roundHalfEven (10 * fadd (n / 10) d)) 0

theorem tenths_append_one (deltas : List ℚ) (d : ℚ) :
    tenths (deltas ++ [d]) = roundHalfEven (10 * fadd (tenths deltas / 10) d) := by
  simp [tenths]

/- Off half-way by more than the errors of the sum, an increment counts by itself. -/
theorem printed_eq (total : ℤ) (d : ℚ) :
    roundHalfEven (10 * fadd (total / 10) d) = total + moved total d := by
  unfold moved
  split_ifs with clear
  · have error := fadd_error (total / 10) d
    have scaled : |10 * fadd (total / 10) d - (total + 10 * d)| ≤ (|(total : ℚ)| + |10 * d|) / 2 ^ 51 := by
      rw [show 10 * fadd (total / 10) d - (total + 10 * d) = 10 * (fadd (total / 10) d - (total / 10 + d)) by ring,
        abs_mul]
      rw [abs_div] at error
      rw [abs_mul]
      norm_num at error ⊢
      linarith
    have nearest := abs_sub_round_eq_min (10 * d)
    have half : min (Int.fract (10 * d)) (1 - Int.fract (10 * d)) + |Int.fract (10 * d) - 1 / 2| = 1 / 2 := by
      rcases le_total (Int.fract (10 * d)) (1 / 2) with low | high
      · rw [min_eq_left (by linarith), abs_of_nonpos (by linarith)]
        ring
      · rw [min_eq_right (by linarith), abs_of_nonneg (by linarith)]
        ring
    rw [roundHalfEven_eq_iff]
    left
    push_cast
    calc |10 * fadd (total / 10) d - (total + round (10 * d))|
        ≤ |10 * fadd (total / 10) d - (total + 10 * d)| + |10 * d - round (10 * d)| := by
          rw [show 10 * fadd (total / 10) d - (total + round (10 * d) : ℚ) =
            10 * fadd (total / 10) d - (total + 10 * d) + (10 * d - round (10 * d)) by ring]
          exact abs_add_le _ _
      _ < 1 / 2 := by linarith
  · omega

theorem running_drift (deltas : List ℚ) (total : ℤ) :
    ((deltas.foldl (fun (n : ℤ) d => roundHalfEven (10 * fadd (n / 10) d)) total : ℤ) : ℚ) =
      total + 10 * deltas.sum + drift total deltas := by
  induction deltas generalizing total with
  | nil => simp [drift]
  | cons d deltas ih =>
    rw [List.foldl_cons, printed_eq, ih, List.sum_cons, drift]
    push_cast
    ring

theorem tenths_near_iff (deltas : List ℚ) :
    |(tenths deltas : ℚ) / 10 - deltas.sum| ≤ 1 / 20 ↔ |drift 0 deltas| ≤ 1 / 2 := by
  have total : (tenths deltas : ℚ) = 10 * deltas.sum + drift 0 deltas := by
    rw [tenths, running_drift, Int.cast_zero, zero_add]
  rw [total, abs_le, abs_le]
  constructor
  · intro near
    exact ⟨by linarith [near.1], by linarith [near.2]⟩
  · intro near
    exact ⟨by linarith [near.1], by linarith [near.2]⟩

end Drift

theorem value_of_increments {incs : List Increment} (some_inc : incs ≠ []) :
    ∃ bid ask, incs.foldl (fun old i => some (incrValue i old)) none = some (pairText bid ask) ∧
      roundHalfEven (10 * float64 bid) = tenths (incs.map Increment.bidDelta) ∧
      roundHalfEven (10 * float64 ask) = tenths (incs.map Increment.askDelta) := by
  induction incs using List.reverseRecOn with
  | nil => exact absurd rfl some_inc
  | append_singleton incs i ih =>
    rw [List.foldl_append, List.map_append, List.map_append]
    simp only [List.map_cons, List.map_nil, tenths_append_one]
    cases incs with
    | nil => exact ⟨fadd 0 i.bidDelta, fadd 0 i.askDelta, by simp [incrValue], by simp [tenths], by simp [tenths]⟩
    | cons first rest =>
      obtain ⟨bid, ask, text, bids, asks⟩ := ih (by simp)
      rw [text, ← bids, ← asks]
      refine ⟨fadd (roundHalfEven (10 * float64 bid) / 10) i.bidDelta,
        fadd (roundHalfEven (10 * float64 ask) / 10) i.askDelta, ?_, ?_, ?_⟩
      · simp only [List.foldl_cons, List.foldl_nil, incrValue, splitPair_pairText, Option.getD_some]
      · rw [float64_fadd]
      · rw [float64_fadd]

theorem field_injective {b c : ℚ} (hb : PrintsBack b) (hc : PrintsBack c)
    (same : fieldOf b = fieldOf c) : float64 b = float64 c := by
  have read := congrArg parsePlain same
  rw [fieldOf, fieldOf, parsePlain_formatFixed1, parsePlain_formatFixed1, Option.some.injEq] at read
  rw [← hb, read, hc]

theorem fieldOf_congr {b c : ℚ} (same : float64 b = float64 c) : fieldOf b = fieldOf c := by
  rw [fieldOf, fieldOf, same]

theorem ofBin_fields {incs : List Increment} (whole : ∀ i ∈ incs, PrintsBack i.bin)
    {i : Increment} (member : i ∈ incs) :
    incs.filter (fun j => fieldOf j.bin = fieldOf i.bin) = ofBin incs i.bin := by
  apply List.filter_congr
  intro j hj
  rw [decide_eq_decide]
  exact ⟨field_injective (whole j hj) (whole i member), fieldOf_congr⟩

/- When bins come back the fields keep them apart, and the cell of a bin holds the
   running tenths of its own increments. -/
theorem cell_of_bin {incs : List Increment} (whole : ∀ i ∈ incs, PrintsBack i.bin)
    {i : Increment} (member : i ∈ incs) {data : Hash}
    (listed : data.Perm (gather (fun i => fieldOf i.bin) incrValue incs)) :
    (getAggCells data).filter (fun c => float64 c.price = float64 i.bin) =
      [⟨roundHalfEven (10 * float64 i.bin) / 10, tenths (bidsOf incs i.bin) / 10,
        tenths (asksOf incs i.bin) / 10⟩] := by
  have mine : ofBin incs i.bin ≠ [] := List.ne_nil_of_mem (List.mem_filter.mpr ⟨member, by simp⟩)
  obtain ⟨bid, ask, text, bids, asks⟩ := value_of_increments mine
  have found : find (fieldOf i.bin) (gather (fun i => fieldOf i.bin) incrValue incs) =
      some (pairText bid ask) := by
    rw [find_gather, ofBin_fields whole member, text]
  have distinct : (keys data).Nodup :=
    (listed.map Prod.fst).nodup_iff.mpr (gather_keys_nodup _ _ _)
  apply select_own_row _ _ distinct (listed.mem_iff.mpr (mem_of_find found))
  · simp only [fieldOf, parsePlain_formatFixed1, splitPair_pairText, bids, asks, bidsOf, asksOf]
  · exact decide_eq_true (whole i member)
  · intro p hp other q made
    obtain ⟨j, hj, field⟩ := (mem_gather_keys _ _ _ p.1).mp
      (List.mem_map.mpr ⟨p, listed.mem_iff.mp hp, rfl⟩)
    simp only [← field, fieldOf, parsePlain_formatFixed1, Option.mem_def] at made
    cases values : splitPair p.2 with
    | none => simp [values] at made
    | some pair =>
      simp only [values, Option.some.injEq] at made
      simp only [← made, decide_eq_false_iff_not]
      intro same
      rw [whole j hj] at same
      exact other (field.symm.trans (fieldOf_congr same))

/- The price of a returned cell is a tenth, and a tenth that names a bin is printed for it. -/
theorem bin_of_cell {incs : List Increment} {i : Increment} {cell : ClusterCell}
    (returned : cell ∈ getAggCells (gather (fun i => fieldOf i.bin) incrValue incs))
    (price : float64 cell.price = float64 i.bin) : PrintsBack i.bin := by
  obtain ⟨p, hp, made⟩ := List.mem_filterMap.mp returned
  obtain ⟨j, _, field⟩ := (mem_gather_keys _ _ _ p.1).mp (List.mem_map.mpr ⟨p, hp, rfl⟩)
  simp only [← field, fieldOf, parsePlain_formatFixed1] at made
  cases values : splitPair p.2 with
  | none => simp [values] at made
  | some pair =>
    simp only [values, Option.some.injEq] at made
    rw [← made] at price
    exact float64_printed_tenth price

/-- IncrCell and GetAggCells stay within one rounding exactly when the roundings cancel. -/
theorem within_one_rounding_iff {s : Store} {key : String} (absent : find key s = none)
    (incs : List Increment) : WithinOneRounding s key incs ↔ RoundingsCancel incs := by
  unfold WithinOneRounding
  rw [hGetAll_incrAll absent]
  constructor
  · intro near
    have whole : ∀ i ∈ incs, PrintsBack i.bin := by
      intro i member
      obtain ⟨cell, only, _⟩ := near i member _ (List.Perm.refl _)
      have inside : cell ∈ [cell] := by simp
      rw [← only] at inside
      obtain ⟨returned, price⟩ := List.mem_filter.mp inside
      exact bin_of_cell returned (by simpa using price)
    intro i member
    obtain ⟨cell, only, bids, asks⟩ := near i member _ (List.Perm.refl _)
    rw [cell_of_bin whole member (List.Perm.refl _), List.cons.injEq] at only
    rw [← only.1] at bids asks
    exact ⟨whole i member, (tenths_near_iff _).mp bids, (tenths_near_iff _).mp asks⟩
  · intro cancel i member data listed
    obtain ⟨_, bids, asks⟩ := cancel i member
    exact ⟨_, cell_of_bin (fun j hj => (cancel j hj).1) member listed,
      (tenths_near_iff _).mpr bids, (tenths_near_iff _).mpr asks⟩

theorem within_one_rounding_balanced :
    WithinOneRounding [] "agg:futures:BTCUSDT:1m:60"
      [⟨100, 3 / 100, 0⟩, ⟨100, 7 / 100, 2 / 10⟩] :=
  (within_one_rounding_iff rfl _).mpr (by unfold RoundingsCancel PrintsBack; decide +kernel)

/-- Three increments of 0.04 leave nothing of 0.12. -/
theorem small_increments_vanish :
    ¬ WithinOneRounding [] "agg:futures:BTCUSDT:1m:60"
      [⟨100, 4 / 100, 0⟩, ⟨100, 4 / 100, 0⟩, ⟨100, 4 / 100, 0⟩] := by
  intro near
  obtain ⟨cell, only, bids, _⟩ := near ⟨100, 4 / 100, 0⟩ (by simp) _ (List.Perm.refl _)
  have vanished : (getAggCells (hGetAll (incrAll [] "agg:futures:BTCUSDT:1m:60"
      [⟨100, 4 / 100, 0⟩, ⟨100, 4 / 100, 0⟩, ⟨100, 4 / 100, 0⟩]) "agg:futures:BTCUSDT:1m:60")).filter
      (fun c => float64 c.price = float64 100) = [⟨100, 0, 0⟩] := by decide +kernel
  rw [vanished, List.cons.injEq] at only
  rw [← only.1] at bids
  revert bids
  decide +kernel

end RedisCache
