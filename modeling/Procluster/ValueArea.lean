import Procluster.MapCandle
import Procluster.MergedBins
import Procluster.ServedHistory
import Procluster.Library.LargestFirst

/-!
POC and value area of a REST candle. The client scans for the POC and fills the value
area from the cells sorted by volume; handleCandles flags the POC by its index, before
all-zero cells are dropped and volumes are rounded.
-/
namespace ValueArea
open Aggregate KeyedFold QueryCandles CandlesApi MapCandle LargestFirst FloatRounding

def vaCells (targetVol : MapCandle.Num) : MapCandle.Num → List BackendCell → List BackendCell
  | _, [] => []
  | runningVol, c :: cells =>
    let runningVol := add runningVol c.volume
    c :: if atMost targetVol runningVol then [] else vaCells targetVol runningVol cells

def selectedCells (bc : BackendCandle) : List BackendCell :=
  vaCells (some (fmul bc.volume (7 / 10))) (some 0) (sortByVol bc.cells)

theorem vaPrices_cells (targetVol runningVol : MapCandle.Num) (cells : List BackendCell) :
    vaPrices targetVol runningVol cells = (vaCells targetVol runningVol cells).map BackendCell.price := by
  induction cells generalizing runningVol with
  | nil => rfl
  | cons c cells ih =>
    rw [vaPrices, vaCells, List.map_cons]
    split
    · rfl
    · rw [ih]

def volumeOf (c : CellJSON) : ℚ := float64 c.volume

def runningVol (cells : List CellJSON) : ℚ := cells.foldl (fun running c => fadd running c.volume) 0

/-- 70 % of the candle's volume are reached, as the loop tests it. -/
def Reaches (j : CandleJSON) (cells : List CellJSON) : Prop := fmul j.volume (7 / 10) ≤ runningVol cells

def ReachesExactly (j : CandleJSON) (cells : List CellJSON) : Prop :=
  j.volume * (7 / 10) ≤ (cells.map CellJSON.volume).sum

/-- A POC of the greatest volume inside the shortest front of the cells, the largest one
    first, whose running sum reaches 70 %; where rounding changes neither the comparison
    nor the order of the volumes it is the smallest set that holds 70 %. -/
structure SmallestArea (j : CandleJSON) (chart : ChartCandle) (selected : List CellJSON) : Prop where
  taken : selectedCells (restJSON j) = selected.map restCell
  poc : ∃ c ∈ j.cells, c.price = chart.pocPrice ∧ ∀ d ∈ j.cells, volumeOf d ≤ volumeOf c
  inside : chart.val ≤ chart.pocPrice ∧ chart.pocPrice ≤ chart.vah
  front : selected <+: descending volumeOf j.cells
  reaches : Reaches j selected
  shortest : ∀ other, other <+: descending volumeOf j.cells → other ≠ [] → Reaches j other →
    selected.length ≤ other.length
  fewest : (∀ other, other <+: descending volumeOf j.cells → other ≠ [] →
      (Reaches j other ↔ ReachesExactly j other)) →
    (∀ c ∈ j.cells, ∀ d ∈ j.cells, volumeOf c ≤ volumeOf d → c.volume ≤ d.volume) →
    ReachesExactly j selected ∧
      ∀ other : List CellJSON, other.Subperm j.cells → ReachesExactly j other → selected.length ≤ other.length
  val : chart.val ∈ selected.map CellJSON.price ∧ ∀ c ∈ selected, chart.val ≤ c.price
  vah : chart.vah ∈ selected.map CellJSON.price ∧ ∀ c ∈ selected, c.price ≤ chart.vah

theorem pocLoop_scan (openPrice : ℚ) (cells : List CellJSON) :
    pocLoop openPrice (cells.map restCell) =
      ((LargestFirst.scan volumeOf cells).map CellJSON.price).getD openPrice := by
  have scans : ∀ (best : ℚ × Option CellJSON) (number : ℚ), float64 number = best.1 →
      ((cells.map restCell).foldl (fun (best : MapCandle.Num × ℚ) c =>
        if less best.1 c.volume then (c.volume, c.price) else best)
          (some number, (best.2.map CellJSON.price).getD openPrice)).2 =
        ((cells.foldl (fun (best : ℚ × Option CellJSON) c =>
          if best.1 < volumeOf c then (volumeOf c, some c) else best) best).2.map CellJSON.price).getD
            openPrice := by
    induction cells with
    | nil =>
      intro best number _
      rfl
    | cons c cells ih =>
      intro best number same
      have compared : less (some number) (restCell c).volume = decide (best.1 < volumeOf c) := by
        rw [restCell, less, same]
        rfl
      rw [List.map_cons, List.foldl_cons, List.foldl_cons, compared]
      by_cases greater : best.1 < volumeOf c
      · simp only [greater, decide_true, ↓reduceIte]
        exact ih (volumeOf c, some c) c.volume rfl
      · simp only [greater, decide_false, Bool.false_eq_true, ↓reduceIte]
        exact ih best number same
  exact scans (0, none) 0 float64_zero

theorem sortByVol_rest (cells : List CellJSON) :
    sortByVol (cells.map restCell) = (descending volumeOf cells).map restCell := by
  rw [sortByVol, descending, List.map_mergeSort]
  intro a _ b _
  have behind : float64 0 < float64 (fsub b.volume a.volume) ↔ volumeOf a < volumeOf b := by
    rw [float64_zero, float64_pos, fsub_pos]
    rfl
  simp only [restCell, sub, less, behind]
  rw [← decide_not, decide_eq_decide, not_lt]

theorem vaCells_rest (target running : ℚ) (cells : List CellJSON) :
    vaCells (some target) (some running) (cells.map restCell) =
      (takeUntil (fun s => decide (float64 target ≤ float64 s)) (fun s c => fadd s c.volume) running
        cells).map restCell := by
  induction cells generalizing running with
  | nil => rfl
  | cons c cells ih =>
    have sum : add (some running) (restCell c).volume = some (fadd running c.volume) := rfl
    rw [List.map_cons, vaCells, takeUntil, List.map_cons, sum, ih]
    by_cases reached : float64 target ≤ float64 (fadd running c.volume)
    · simp only [atMost, reached, decide_true, ↓reduceIte, List.map_nil]
    · simp only [atMost, reached, decide_false, Bool.false_eq_true, ↓reduceIte]

section Chart
variable (j : CandleJSON)

theorem chart_poc : (apiMapBackendCandle (restJSON j)).pocPrice =
    ((LargestFirst.scan volumeOf j.cells).map CellJSON.price).getD j.openPrice :=
  pocLoop_scan j.openPrice j.cells

def chosen : List CellJSON :=
  takeUntil (fun s => decide (fmul j.volume (7 / 10) ≤ s)) (fun s c => fadd s c.volume) 0
    (descending volumeOf j.cells)

theorem float64_running {front : List CellJSON} (nonempty : front ≠ []) (s : ℚ) :
    float64 (front.foldl (fun running c => fadd running c.volume) s) =
      front.foldl (fun running c => fadd running c.volume) s := by
  obtain ⟨before, c, rfl⟩ := (List.eq_nil_or_concat front).resolve_left nonempty
  rw [List.concat_eq_append, List.foldl_append, List.foldl_cons, List.foldl_nil, float64_fadd]

theorem selected_chosen : selectedCells (restJSON j) = (chosen j).map restCell := by
  have same : chosen j = takeUntil (fun s => decide (float64 (fmul j.volume (7 / 10)) ≤ float64 s))
      (fun s c => fadd s c.volume) 0 (descending volumeOf j.cells) := by
    apply takeUntil_congr
    intro front _ nonempty
    rw [float64_fmul, float64_running nonempty]
  rw [selectedCells, restJSON, sortByVol_rest, vaCells_rest, same]

theorem chart_area : (apiMapBackendCandle (restJSON j)).val =
      ((chosen j).map CellJSON.price).min?.getD j.low ∧
    (apiMapBackendCandle (restJSON j)).vah = ((chosen j).map CellJSON.price).max?.getD j.high := by
  have prices : vaPrices (some (fmul (restJSON j).volume (7 / 10))) (some 0) (sortByVol (restJSON j).cells) =
      (chosen j).map CellJSON.price := by
    rw [vaPrices_cells]
    change (selectedCells (restJSON j)).map BackendCell.price = _
    rw [selected_chosen, List.map_map]
    rfl
  constructor
  · rw [← prices]
    rfl
  · rw [← prices]
    rfl

/- The first cell of the greatest volume comes first in the sort as well. -/
theorem busiest_chosen {c : CellJSON} (first : FirstMost volumeOf j.cells c) : c ∈ chosen j := by
  obtain ⟨rest, sorted⟩ := List.head?_eq_some_iff.mp (head_descending first)
  rw [chosen, sorted, takeUntil]
  exact List.mem_cons_self

theorem chosen_shortest {other : List CellJSON} (part : other <+: descending volumeOf j.cells)
    (nonempty : other ≠ []) (reaches : Reaches j other) : (chosen j).length ≤ other.length := by
  by_contra longer
  have inside : other <+: chosen j := by
    exact List.prefix_of_prefix_length_le part (takeUntil_front _ _) (Nat.le_of_lt (Nat.lt_of_not_le longer))
  have below := takeUntil_short (s := 0) inside (Nat.lt_of_not_le longer) nonempty
  exact of_decide_eq_false below reaches

theorem chosen_reaches (some_cells : descending volumeOf j.cells ≠ [])
    (all : Reaches j (descending volumeOf j.cells)) : Reaches j (chosen j) :=
  takeUntil_total some_cells all

/- The running sum over all cells loses a part of at most their number in 2 ^ 53, which is
   far less than the 30 % that are not needed. -/
theorem all_reach (nonneg : ∀ c ∈ j.cells, 0 ≤ c.volume) (short : j.cells.length < 2 ^ 32)
    (total : j.volume = (j.cells.map CellJSON.volume).sum) : Reaches j (descending volumeOf j.cells) := by
  have sorted : (descending volumeOf j.cells).Perm j.cells := List.mergeSort_perm _ _
  have amounts : ∀ x ∈ (descending volumeOf j.cells).map CellJSON.volume, 0 ≤ x :=
    List.forall_mem_map.mpr fun c hc => nonneg c (sorted.mem_iff.mp hc)
  have length : ((descending volumeOf j.cells).map CellJSON.volume).length = j.cells.length := by
    rw [List.length_map, sorted.length_eq]
  have running := le_running_sum amounts (by omega) le_rfl float64_zero
  rw [List.foldl_map, length, zero_add, List.map_map] at running
  have each : (j.cells.map fun c => c.volume * (1 - 1 / 2 ^ 53)).sum ≤ (j.cells.map volumeOf).sum :=
    List.sum_le_sum fun c hc => le_float64 (nonneg c hc)
  rw [List.sum_map_mul_right, ← total, ← (sorted.map volumeOf).sum_eq] at each
  have whole : 0 ≤ j.volume := by
    rw [total]
    exact List.sum_nonneg (List.forall_mem_map.mpr nonneg)
  have product : fmul j.volume (7 / 10) ≤ j.volume * (1 + 1 / 2 ^ 53) * (7 / 10 * (1 + 1 / 2 ^ 53)) *
      (1 + 1 / 2 ^ 53) := by
    have seventy : (0 : ℚ) ≤ 7 / 10 := by norm_num
    have factors := mul_le_mul (float64_le whole) (float64_le seventy) (float64_nonneg seventy) (by positivity)
    refine (float64_le (mul_nonneg (float64_nonneg whole) (float64_nonneg seventy))).trans ?_
    exact mul_le_mul_of_nonneg_right factors (by norm_num)
  have few : (j.cells.length : ℚ) ≤ 2 ^ 32 := by exact_mod_cast short.le
  have lost : (1 : ℚ) - 1 / 2 ^ 21 ≤ 1 - j.cells.length / 2 ^ 53 := by linarith
  have kept := mul_le_mul each lost (by norm_num) ((by positivity : (0 : ℚ) ≤ j.volume * (1 - 1 / 2 ^ 53)).trans each)
  refine product.trans (le_trans ?_ (kept.trans running))
  linarith

end Chart

theorem chosen_exact (j : CandleJSON) (alike : ∀ other, other <+: descending volumeOf j.cells →
    other ≠ [] → (Reaches j other ↔ ReachesExactly j other))
    (ordered : ∀ c ∈ j.cells, ∀ d ∈ j.cells, volumeOf c ≤ volumeOf d → c.volume ≤ d.volume) :
    chosen j = takeUntil (fun s => decide (j.volume * (7 / 10) ≤ s)) (fun s c => s + c.volume) 0
      (descending CellJSON.volume j.cells) := by
  have sorts : descending volumeOf j.cells = descending CellJSON.volume j.cells := by
    have sorted := List.map_mergeSort (f := id) (l := j.cells) (r := fun a b => decide (volumeOf b ≤ volumeOf a))
      (s := fun a b => decide (b.volume ≤ a.volume))
      (fun a ha b hb => decide_eq_decide.mpr ⟨ordered b hb a ha, fun less => float64_mono less⟩)
    rwa [List.map_id, List.map_id] at sorted
  rw [chosen, ← sorts]
  apply takeUntil_congr
  intro front part nonempty
  rw [foldl_weights, zero_add, decide_eq_decide]
  exact alike front part nonempty

theorem chosen_fewest (j : CandleJSON) (some_volume : 0 < j.volume)
    (total : j.volume = (j.cells.map CellJSON.volume).sum) (some_cells : j.cells ≠ [])
    (alike : ∀ other, other <+: descending volumeOf j.cells → other ≠ [] → (Reaches j other ↔ ReachesExactly j other))
    (ordered : ∀ c ∈ j.cells, ∀ d ∈ j.cells, volumeOf c ≤ volumeOf d → c.volume ≤ d.volume) :
    ReachesExactly j (chosen j) ∧ ∀ other : List CellJSON, other.Subperm j.cells → ReachesExactly j other →
      (chosen j).length ≤ other.length := by
  have exactly := chosen_exact j alike ordered
  have order : (descending CellJSON.volume j.cells).Perm j.cells := List.mergeSort_perm _ _
  constructor
  · have enough : j.volume * (7 / 10) ≤ ((descending CellJSON.volume j.cells).map CellJSON.volume).sum := by
      rw [(order.map _).sum_eq, ← total]
      linarith
    rw [← zero_add (List.sum _), ← foldl_weights] at enough
    have nonempty : descending CellJSON.volume j.cells ≠ [] := fun none =>
      some_cells (List.nil_perm.mp (none ▸ order))
    have reached := takeUntil_total nonempty enough
    rw [← exactly, foldl_weights, zero_add] at reached
    exact reached
  · intro other part reaches
    rw [exactly]
    exact takeUntil_fewest (by linarith) (descending_pairwise _ _) (part.trans order.symm.subperm) reaches

/-- The value area is a shortest front of the cells whose running sum reaches 70 % of the
    volume, and holds the POC. An array has fewer than 2 ^ 32 elements. -/
theorem value_area_smallest (j : CandleJSON) (nonneg : ∀ c ∈ j.cells, 0 ≤ c.volume)
    (traded : ∃ c ∈ j.cells, 0 < c.volume) (short : j.cells.length < 2 ^ 32)
    (total : j.volume = (j.cells.map CellJSON.volume).sum) :
    ∃ selected, SmallestArea j (apiMapBackendCandle (restJSON j)) selected := by
  obtain ⟨d, hd, positive⟩ := traded
  obtain ⟨c, first⟩ : ∃ c, FirstMost volumeOf j.cells c := exists_firstMost (List.ne_nil_of_mem hd)
  have busiest : 0 < volumeOf c := lt_of_lt_of_le (float64_pos.mpr positive) (first.most d hd)
  have some_volume : 0 < j.volume := by
    rw [total]
    exact positive.trans_le
      (List.single_le_sum (List.forall_mem_map.mpr nonneg) _ (List.mem_map_of_mem hd))
  have poc : (apiMapBackendCandle (restJSON j)).pocPrice = c.price := by
    rw [chart_poc, scan_firstMost first busiest]
    rfl
  have sorted : (descending volumeOf j.cells).Perm j.cells := List.mergeSort_perm _ _
  have some_cells : descending volumeOf j.cells ≠ [] :=
    List.ne_nil_of_mem (sorted.mem_iff.mpr hd)
  have prices : (chosen j).map CellJSON.price ≠ [] :=
    List.ne_nil_of_mem (List.mem_map_of_mem (busiest_chosen j first))
  obtain ⟨low, lowest⟩ := Option.isSome_iff_exists.mp (List.isSome_min?_of_ne_nil prices)
  obtain ⟨high, highest⟩ := Option.isSome_iff_exists.mp (List.isSome_max?_of_ne_nil prices)
  have val : (apiMapBackendCandle (restJSON j)).val = low := by rw [(chart_area j).1, lowest]; rfl
  have vah : (apiMapBackendCandle (restJSON j)).vah = high := by rw [(chart_area j).2, highest]; rfl
  obtain ⟨lowInside, atLeast⟩ := List.min?_eq_some_iff.mp lowest
  obtain ⟨highInside, atMost⟩ := List.max?_eq_some_iff.mp highest
  have pocInside := List.mem_map_of_mem (f := CellJSON.price) (busiest_chosen j first)
  refine ⟨chosen j, selected_chosen j, ⟨c, first.mem, poc.symm, first.most⟩, ?_, takeUntil_front _ _, ?_,
    fun other => chosen_shortest j, ?_, ?_, ?_⟩
  · rw [val, vah, poc]
    exact ⟨atLeast _ pocInside, atMost _ pocInside⟩
  · exact chosen_reaches j some_cells (all_reach j nonneg short total)
  · intro alike ordered
    exact chosen_fewest j some_volume total (List.ne_nil_of_mem hd) alike ordered
  · rw [val]
    exact ⟨lowInside, fun e he => atLeast _ (List.mem_map_of_mem he)⟩
  · rw [vah]
    exact ⟨highInside, fun e he => atMost _ (List.mem_map_of_mem he)⟩

def threeLevels : CandleJSON where
  time := 60
  openPrice := 100
  high := 105
  low := 100
  close := 105
  volume := 10
  delta := 0
  cells := [⟨100, 1, 1, 2, false, false, false⟩, ⟨205 / 2, 3, 3, 6, true, false, false⟩,
    ⟨105, 1, 1, 2, false, false, false⟩]

/-- The busiest cell has 60 %, and one of two equal cells completes the area. -/
theorem two_cells_selected :
    ∃ selected, SmallestArea threeLevels (apiMapBackendCandle (restJSON threeLevels)) selected := by
  refine value_area_smallest threeLevels ?_ ?_ ?_ ?_
  · decide +kernel
  · exact ⟨⟨205 / 2, 3, 3, 6, true, false, false⟩, by simp [threeLevels], by norm_num⟩
  · decide
  · decide +kernel

def tenthVolumes : CandleJSON where
  time := 60
  openPrice := 100
  high := 104
  low := 100
  close := 104
  volume := 5
  delta := 0
  cells := [⟨100, 0, 0, 14 / 10, true, false, false⟩, ⟨101, 0, 0, 12 / 10, false, false, false⟩,
    ⟨102, 0, 0, 9 / 10, false, false, false⟩, ⟨103, 0, 0, 8 / 10, false, false, false⟩,
    ⟨104, 0, 0, 7 / 10, false, false, false⟩]

/-- Three cells have exactly 70 %, but their running sum is a double below 3.5. -/
theorem four_cells_taken : (selectedCells (restJSON tenthVolumes)).length = 4 ∧
    ReachesExactly tenthVolumes (tenthVolumes.cells.take 3) := by
  constructor
  · rw [selected_chosen, List.length_map]
    have sorted : descending volumeOf tenthVolumes.cells = tenthVolumes.cells :=
      List.mergeSort_of_pairwise (by decide +kernel)
    rw [chosen, sorted]
    decide +kernel
  · unfold ReachesExactly
    decide +kernel

section Flagged
variable (cells : List ClusterCell)

def indexedVolume (p : ClusterCell × ℕ) : ℚ := fadd p.1.bid p.1.ask

theorem pocIdx_scan : pocIdx cells =
    (LargestFirst.scan indexedVolume cells.zipIdx).map Prod.snd := by
  let seen (best : ℚ × Option (ClusterCell × ℕ)) : ℚ × Option ℕ := (best.1, best.2.map Prod.snd)
  have start : ((0, none) : ℚ × Option ℕ) = seen (0, none) := rfl
  rw [pocIdx, LargestFirst.scan, start, List.foldl_hom seen]
  intro best p
  by_cases greater : best.1 < fadd p.1.bid p.1.ask
  · simp [seen, indexedVolume, greater]
  · simp [seen, indexedVolume, greater]

def keptCells : List (ClusterCell × ℕ) :=
  cells.zipIdx.filter fun p => ¬ (p.1.price = 0 ∧ p.1.bid = 0 ∧ p.1.ask = 0)

theorem cellsJSON_filter : cellsJSON cells = (keptCells cells).map fun p => cellJSON cells p.2 p.1 := by
  rw [cellsJSON, keptCells]
  induction cells.zipIdx with
  | nil => rfl
  | cons p rest ih =>
    by_cases zero : p.1.price = 0 ∧ p.1.bid = 0 ∧ p.1.ask = 0
    · rw [List.filter_cons_of_neg (by simp [zero]), ← ih]
      simp only [List.filterMap_cons, if_pos zero]
    · have keep : (decide ¬ (p.1.price = 0 ∧ p.1.bid = 0 ∧ p.1.ask = 0)) = true := decide_eq_true zero
      simp only [List.filterMap_cons, if_neg zero, List.filter_cons, keep, ↓reduceIte, List.map_cons, ih]

/- Positions are distinct, so one flag at most is set. -/
theorem flags_atMost : (cellsJSON cells).countP (fun c => c.isPoc) ≤ 1 := by
  rw [cellsJSON_filter, List.countP_map]
  have positions : (cells.zipIdx.map Prod.snd).Nodup := by
    rw [List.zipIdx_map_snd]
    exact List.nodup_range' _
  have kept : ((keptCells cells).map Prod.snd).Nodup :=
    positions.sublist (List.filter_sublist.map Prod.snd)
  cases poc : pocIdx cells with
  | none =>
    rw [List.countP_eq_zero.mpr]
    · decide
    · intro p _
      simp [cellJSON, poc]
  | some i =>
    have counted : (keptCells cells).countP ((fun c => c.isPoc) ∘ fun p => cellJSON cells p.2 p.1) =
        ((keptCells cells).map Prod.snd).count i := by
      rw [List.count, List.countP_map]
      apply List.countP_congr
      intro p _
      simp only [Function.comp_apply, cellJSON, poc, Option.some.injEq, decide_eq_true_eq, beq_iff_eq]
      exact eq_comm
    rw [counted]
    exact List.nodup_iff_count_le_one.mp kept i

end Flagged

/-- One flag where a cell has volume, and the client's POC at its price. -/
structure OnePoc (j : CandleJSON) : Prop where
  atMost : j.cells.countP (fun c => c.isPoc) ≤ 1
  flagged : j.cells.countP (fun c => c.isPoc) = 1 ↔ ∃ c ∈ j.cells, 0 < c.volume
  client : ∀ c ∈ j.cells, c.isPoc = true → (apiMapBackendCandle (restJSON j)).pocPrice = c.price

section Served

def servedVolume (c : ClusterCell) : ℚ := float64 (CandlesApi.round1 fmul (fadd c.bid c.ask))

def OneDecimal (cells : List ClusterCell) : Prop :=
  TenthCells cells ∧ ∀ c ∈ cells, 0 ≤ c.bid ∧ 0 ≤ c.ask

/-- In front of the first cell with the greatest sum of bid and ask no volume is rounded to
    the same tenth. -/
def NoneTied (cells : List ClusterCell) : Prop :=
  ∀ before c after, cells = before ++ c :: after →
    (∀ d ∈ before, fadd d.bid d.ask < fadd c.bid c.ask) →
      (∀ d ∈ after, fadd d.bid d.ask ≤ fadd c.bid c.ask) → ∀ d ∈ before, servedVolume d ≠ servedVolume c

theorem round1_mono : Monotone (CandlesApi.round1 fmul) := by
  intro v w below
  have ten : (0 : ℚ) ≤ float64 10 := float64_nonneg (by norm_num)
  have products := float64_mono (mul_le_mul_of_nonneg_right (float64_mono below) ten)
  have tenths := DecimalText.nearest_mono DecimalText.roundHalfAway_near products
  rw [CandlesApi.round1, CandlesApi.round1]
  exact div_le_div_of_nonneg_right (by exact_mod_cast tenths) (by norm_num)

theorem servedVolume_mono {c d : ClusterCell} (below : fadd d.bid d.ask ≤ fadd c.bid c.ask) :
    servedVolume d ≤ servedVolume c := float64_mono (round1_mono below)

theorem fadd_mono {a b c d : ℚ} (first : a ≤ c) (second : b ≤ d) : fadd a b ≤ fadd c d :=
  float64_mono (add_le_add (float64_mono first) (float64_mono second))

theorem fadd_nonneg {a b : ℚ} (first : 0 ≤ a) (second : 0 ≤ b) : 0 ≤ fadd a b :=
  float64_nonneg (add_nonneg (float64_nonneg first) (float64_nonneg second))

/- A sum of tenths that is not zero is at least one tenth, and stays so when it is rounded. -/
theorem servedVolume_pos {c : ClusterCell} (tenths : Tenths c.bid ∧ Tenths c.ask)
    (nonneg : 0 ≤ c.bid ∧ 0 ≤ c.ask) : 0 < servedVolume c ↔ 0 < fadd c.bid c.ask := by
  have tenth : ∀ {v : ℚ}, Tenths v → 0 < v → 1 / 10 ≤ v := by
    rintro v ⟨k, rfl⟩ positive
    have whole : (1 : ℚ) ≤ k := by
      have above : (0 : ℚ) < k := by linarith
      exact_mod_cast Int.add_one_le_of_lt (by exact_mod_cast above : 0 < k)
    linarith
  have least : CandlesApi.round1 fmul (fadd (1 / 10) 0) = 1 / 10 := by decide +kernel
  have least' : CandlesApi.round1 fmul (fadd 0 (1 / 10)) = 1 / 10 := by decide +kernel
  have nothing : CandlesApi.round1 fmul 0 = 0 := by decide +kernel
  rw [servedVolume, float64_pos]
  constructor
  · intro positive
    by_contra none
    have rounded := round1_mono (not_lt.mp none)
    rw [nothing] at rounded
    exact absurd positive (not_lt.mpr rounded)
  · intro positive
    by_cases bid : 0 < c.bid
    · have rounded := round1_mono (fadd_mono (tenth tenths.1 bid) nonneg.2)
      rw [least] at rounded
      linarith
    · have noBid : c.bid = 0 := le_antisymm (not_lt.mp bid) nonneg.1
      have ask : 0 < c.ask := by
        by_contra noAsk
        rw [noBid, le_antisymm (not_lt.mp noAsk) nonneg.2] at positive
        exact absurd positive (by decide +kernel)
      have rounded := round1_mono (fadd_mono nonneg.1 (tenth tenths.2 ask))
      rw [least'] at rounded
      linarith

variable {c : ClusterCandle} (amounts : OneDecimal c.cells)
include amounts

theorem served_pos {p : ClusterCell × ℕ} (listed : p ∈ c.cells.zipIdx) :
    0 < servedVolume p.1 ↔ 0 < indexedVolume p :=
  (forall_zipIdx fun d => 0 < servedVolume d ↔ 0 < fadd d.bid d.ask).mpr
    (fun d hd => servedVolume_pos (amounts.1 d hd) (amounts.2 d hd)) p listed

theorem indexedVolume_nonneg {p : ClusterCell × ℕ} (listed : p ∈ c.cells.zipIdx) : 0 ≤ indexedVolume p :=
  (forall_zipIdx fun d => 0 ≤ fadd d.bid d.ask).mpr
    (fun d hd => fadd_nonneg (amounts.2 d hd).1 (amounts.2 d hd).2) p listed

omit amounts in
theorem traded_kept {p : ClusterCell × ℕ} (traded : 0 < indexedVolume p) :
    decide (¬ (p.1.price = 0 ∧ p.1.bid = 0 ∧ p.1.ask = 0)) = true := by
  apply decide_eq_true
  rintro ⟨_, bid, ask⟩
  rw [indexedVolume, bid, ask] at traded
  exact absurd traded (by decide +kernel)

theorem positive_served : (∃ cell ∈ (candleJSON c).cells, 0 < cell.volume) ↔
    ∃ p ∈ c.cells.zipIdx, 0 < indexedVolume p := by
  change (∃ cell ∈ cellsJSON c.cells, 0 < cell.volume) ↔ _
  rw [cellsJSON_filter]
  constructor
  · rintro ⟨cell, inside, positive⟩
    obtain ⟨p, hp, rfl⟩ := List.mem_map.mp inside
    have listed := List.mem_of_mem_filter hp
    exact ⟨p, listed, (served_pos amounts listed).mp (float64_pos.mpr positive)⟩
  · rintro ⟨p, listed, positive⟩
    refine ⟨_, List.mem_map_of_mem (List.mem_filter.mpr ⟨listed, traded_kept positive⟩), ?_⟩
    exact float64_pos.mp ((served_pos amounts listed).mpr positive)

section Busiest
variable {p : ClusterCell × ℕ} (first : FirstMost indexedVolume c.cells.zipIdx p)
  (busiest : 0 < indexedVolume p)
include first busiest

omit amounts in
theorem flag_set : (cellJSON c.cells p.2 p.1).isPoc = true ∧
    cellJSON c.cells p.2 p.1 ∈ cellsJSON c.cells := by
  have poc : pocIdx c.cells = some p.2 := by
    rw [pocIdx_scan, scan_firstMost first busiest]
    rfl
  refine ⟨decide_eq_true poc, ?_⟩
  rw [cellsJSON_filter]
  exact List.mem_map_of_mem (List.mem_filter.mpr ⟨first.mem, traded_kept busiest⟩)

theorem client_poc (untied : NoneTied c.cells) :
    (apiMapBackendCandle (restJSON (candleJSON c))).pocPrice = p.1.price := by
  obtain ⟨before, after, split, less, atMost⟩ := first
  have listed : p ∈ c.cells.zipIdx := by rw [split]; simp
  have cells := congrArg (List.map Prod.fst) split
  rw [List.zipIdx_map_fst, List.map_append, List.map_cons] at cells
  have apart := untied _ _ _ cells (List.forall_mem_map.mpr less) (List.forall_mem_map.mpr atMost)
  have served : FirstMost (fun q : ClusterCell × ℕ => servedVolume q.1) c.cells.zipIdx p := by
    refine ⟨before, after, split, ?_, fun q hq => servedVolume_mono (atMost q hq)⟩
    intro q hq
    exact lt_of_le_of_ne (servedVolume_mono (less q hq).le) (apart q.1 (List.mem_map_of_mem hq))
  have inJSON : FirstMost volumeOf (candleJSON c).cells (cellJSON c.cells p.2 p.1) := by
    change FirstMost volumeOf (cellsJSON c.cells) _
    rw [cellsJSON_filter]
    exact (served.filter _ (traded_kept busiest)).map fun _ _ => rfl
  rw [chart_poc, scan_firstMost inJSON ((served_pos amounts listed).mpr busiest)]
  rfl

theorem tie_moves_client (distinct : (c.cells.map ClusterCell.price).Nodup) {before after : List (ClusterCell × ℕ)}
    (split : c.cells.zipIdx = before ++ p :: after) {q : ClusterCell × ℕ} (front : q ∈ before)
    (tied : servedVolume q.1 = servedVolume p.1) :
    (apiMapBackendCandle (restJSON (candleJSON c))).pocPrice ≠ p.1.price := by
  have inside : ∀ y ∈ before, y ∈ c.cells.zipIdx := fun y hy => by rw [split]; simp [hy]
  have positive : 0 < servedVolume q.1 := tied ▸ (served_pos amounts first.mem).mpr busiest
  have some_volume := (served_pos amounts (inside q front)).mp positive
  let keep : ClusterCell × ℕ → Bool := fun p => ¬ (p.1.price = 0 ∧ p.1.bid = 0 ∧ p.1.ask = 0)
  let sent : ClusterCell × ℕ → CellJSON := fun p => cellJSON c.cells p.2 p.1
  have kept : q ∈ before.filter keep := List.mem_filter.mpr ⟨front, traded_kept some_volume⟩
  obtain ⟨y, firstFront⟩ : ∃ y, FirstMost (volumeOf ∘ sent) (before.filter keep) y :=
    exists_firstMost (List.ne_nil_of_mem kept)
  have most : servedVolume q.1 ≤ volumeOf (sent y) := firstFront.most q kept
  have hy : y ∈ before := List.mem_of_mem_filter firstFront.mem
  have whole : FirstMost volumeOf (candleJSON c).cells (sent y) := by
    change FirstMost volumeOf (cellsJSON c.cells) _
    rw [cellsJSON_filter, keptCells, split, List.filter_append, List.map_append]
    have moved : FirstMost volumeOf ((before.filter keep).map sent) (sent y) := firstFront.map fun _ _ => rfl
    refine moved.append ?_
    intro z hz
    obtain ⟨w, hw, rfl⟩ := List.mem_map.mp hz
    have listed : w ∈ c.cells.zipIdx := by
      rw [split]
      exact List.mem_append_right _ (List.mem_of_mem_filter hw)
    have below : servedVolume w.1 ≤ servedVolume p.1 := servedVolume_mono (first.most w listed)
    exact (below.trans_eq tied.symm).trans most
  have chosen : (apiMapBackendCandle (restJSON (candleJSON c))).pocPrice = y.1.price := by
    rw [chart_poc, scan_firstMost whole (positive.trans_le most)]
    rfl
  rw [chosen]
  have prices : (c.cells.zipIdx.map fun p => p.1.price).Nodup := by
    rwa [← List.zipIdx_map_fst 0 c.cells, List.map_map] at distinct
  rw [split, List.map_append, List.map_cons] at prices
  have apart := (List.nodup_append.mp prices).2.2
  exact apart y.1.price (List.mem_map_of_mem hy) p.1.price List.mem_cons_self

end Busiest

theorem untied_of_onePoc (distinct : (c.cells.map ClusterCell.price).Nodup) (one : OnePoc (candleJSON c)) :
    NoneTied c.cells := by
  intro before d after split less atMost e he tied
  have indexed := congrArg List.zipIdx split
  rw [List.zipIdx_append, List.zipIdx_cons] at indexed
  have member : ∀ {n : ℕ} {xs : List ClusterCell} {q : ClusterCell × ℕ},
      q ∈ xs.zipIdx n → q.1 ∈ xs := fun hq => List.fst_mem_of_mem_zipIdx hq
  have first : FirstMost indexedVolume c.cells.zipIdx (d, 0 + before.length) :=
    ⟨_, _, indexed, fun q hq => less q.1 (member hq), fun q hq => atMost q.1 (member hq)⟩
  obtain ⟨n, here⟩ := List.getElem?_of_mem he
  have front : (e, n) ∈ before.zipIdx := List.mem_zipIdx_iff_getElem?.mpr here
  have listed : (e, n) ∈ c.cells.zipIdx := by
    rw [indexed]
    exact List.mem_append_left _ front
  have busiest : 0 < indexedVolume (d, 0 + before.length) :=
    (indexedVolume_nonneg amounts listed).trans_lt (less e he)
  obtain ⟨flag, inside⟩ := flag_set first busiest
  exact tie_moves_client amounts first busiest distinct indexed front tied (one.client _ inside flag)

theorem onePoc_traded (untied : NoneTied c.cells) {q : ClusterCell × ℕ} (listed : q ∈ c.cells.zipIdx)
    (positive : 0 < indexedVolume q) : OnePoc (candleJSON c) := by
  obtain ⟨p, first⟩ : ∃ p, FirstMost indexedVolume c.cells.zipIdx p :=
    exists_firstMost (List.ne_nil_of_mem listed)
  have busiest : 0 < indexedVolume p := lt_of_lt_of_le positive (first.most q listed)
  obtain ⟨flag, inside⟩ := flag_set first busiest
  refine ⟨flags_atMost c.cells, iff_of_true ?_ ((positive_served amounts).mpr ⟨q, listed, positive⟩), ?_⟩
  · exact le_antisymm (flags_atMost c.cells) (List.countP_pos_iff.mpr ⟨_, inside, flag⟩)
  · intro cell hcell marked
    change cell ∈ cellsJSON c.cells at hcell
    rw [cellsJSON_filter] at hcell
    obtain ⟨y, hy, rfl⟩ := List.mem_map.mp hcell
    have position : some p.2 = some y.2 := (of_decide_eq_true flag).symm.trans (of_decide_eq_true marked)
    have here := List.mem_zipIdx_iff_getElem?.mp (List.mem_of_mem_filter hy)
    rw [← Option.some.inj position, List.mem_zipIdx_iff_getElem?.mp first.mem] at here
    rw [client_poc amounts first busiest untied, Option.some.inj here]
    rfl

theorem onePoc_untraded (untraded : ¬ ∃ p ∈ c.cells.zipIdx, 0 < indexedVolume p) : OnePoc (candleJSON c) := by
  have light : ∀ p ∈ c.cells.zipIdx, indexedVolume p ≤ 0 :=
    fun p hp => not_lt.mp fun positive => untraded ⟨p, hp, positive⟩
  have poc : pocIdx c.cells = none := by
    rw [pocIdx_scan, scan_none light]
    rfl
  have unmarked : ∀ cell ∈ (candleJSON c).cells, ¬ cell.isPoc = true := by
    intro cell hcell marked
    change cell ∈ cellsJSON c.cells at hcell
    rw [cellsJSON_filter] at hcell
    obtain ⟨y, _, rfl⟩ := List.mem_map.mp hcell
    have position : none = some y.2 := poc.symm.trans (of_decide_eq_true marked)
    cases position
  have none_marked : (candleJSON c).cells.countP (fun cell => cell.isPoc) = 0 := List.countP_eq_zero.mpr unmarked
  refine ⟨flags_atMost c.cells, iff_of_false ?_ (mt (positive_served amounts).mp untraded), ?_⟩
  · rw [none_marked]
    decide
  · exact fun cell hcell marked => absurd marked (unmarked cell hcell)

theorem onePoc_iff (distinct : (c.cells.map ClusterCell.price).Nodup) :
    OnePoc (candleJSON c) ↔ NoneTied c.cells := by
  constructor
  · exact untied_of_onePoc amounts distinct
  · intro untied
    by_cases traded : ∃ p ∈ c.cells.zipIdx, 0 < indexedVolume p
    · obtain ⟨q, listed, positive⟩ := traded
      exact onePoc_traded amounts untied listed positive
    · exact onePoc_untraded amounts traded

end Served

/-- On one-decimal cells server and client name one POC at a compression exactly if no cell
    in front of the busiest one is tied with it by rounding. -/
theorem poc_named_iff (m : Validate.CaseMap) (v : Validate.Validator) (r : Request) (p : Params)
    (c : ClusterCandle) (valid : readParams m v r = .ok p) (amounts : OneDecimal c.cells)
    (distinct : (c.cells.map ClusterCell.price).Nodup) :
    OnePoc (candleJSON (mergeCandleBy doubleBin p c)) ↔ NoneTied (mergeCandleBy doubleBin p c).cells := by
  unfold mergeCandleBy
  split
  · rename_i above
    simp only [mergeCellsBy_eq _ _ (quotient_ne_zero (readParams_divides valid above) above)]
    apply onePoc_iff
    · exact ⟨mergeInto_tenths amounts.1, mergeInto_nonneg amounts.1 amounts.2⟩
    · exact List.pairwise_map.mpr ((mergeInto_strict c.cells).imp ne_of_lt)
  · exact onePoc_iff amounts distinct

/-- An all-zero cell in front and a tie behind it. -/
theorem tied_poc_named : OnePoc (candleJSON (mergeCandleBy doubleBin ServedHistory.sampleParams
    ⟨60, 100, 205 / 2, 100, 205 / 2, 4, 0, [⟨0, 0, 0⟩, ⟨100, 1, 1⟩, ⟨205 / 2, 2, 0⟩]⟩)) := by
  refine (poc_named_iff ServedHistory.asciiCase (Validate.newValidator [ServedHistory.sampleConfig])
    ServedHistory.sampleRequest ServedHistory.sampleParams _ ServedHistory.sampleRequest_params ⟨?_, ?_⟩ ?_).mpr ?_
  · simp only [TenthCells, List.forall_mem_cons, List.not_mem_nil, IsEmpty.forall_iff, implies_true,
      and_true]
    exact ⟨⟨⟨0, by norm_num⟩, ⟨0, by norm_num⟩⟩, ⟨⟨10, by norm_num⟩, ⟨10, by norm_num⟩⟩,
      ⟨⟨20, by norm_num⟩, ⟨0, by norm_num⟩⟩⟩
  · decide +kernel
  · decide +kernel
  · intro before d after split less atMost e he
    have served : (mergeCandleBy doubleBin ServedHistory.sampleParams
        ⟨60, 100, 205 / 2, 100, 205 / 2, 4, 0, [⟨0, 0, 0⟩, ⟨100, 1, 1⟩, ⟨205 / 2, 2, 0⟩]⟩).cells =
          [⟨0, 0, 0⟩, ⟨100, 1, 1⟩, ⟨205 / 2, 2, 0⟩] := rfl
    rw [served] at split
    rcases before with _ | ⟨z, _ | ⟨y, _ | ⟨x, before⟩⟩⟩
    · cases he
    · obtain ⟨rfl, rest⟩ := List.cons.inj split
      obtain ⟨rfl, -⟩ := List.cons.inj rest
      obtain rfl := List.mem_singleton.mp he
      decide +kernel
    · obtain ⟨rfl, rest⟩ := List.cons.inj split
      obtain ⟨rfl, last⟩ := List.cons.inj rest
      obtain ⟨rfl, -⟩ := List.cons.inj last
      exact absurd (less ⟨100, 1, 1⟩ (by simp)) (by decide +kernel)
    · have count := congrArg List.length split
      simp at count

/-- 0.3 and 0.1 + 0.2 are both sent as 0.3, but the server's sums differ. -/
theorem rounded_tie_parts : ¬ OnePoc (candleJSON (mergeCandleBy doubleBin ServedHistory.sampleParams
    ⟨60, 100, 205 / 2, 100, 205 / 2, 6 / 10, 0, [⟨100, 3 / 10, 0⟩, ⟨205 / 2, 1 / 10, 2 / 10⟩]⟩)) := by
  intro one
  have flagged := one.client
    (cellJSON [⟨100, 3 / 10, 0⟩, ⟨205 / 2, 1 / 10, 2 / 10⟩] 1 ⟨205 / 2, 1 / 10, 2 / 10⟩)
    (by decide +kernel) (by decide +kernel)
  revert flagged
  decide +kernel

end ValueArea
