import Procluster.QueryCandles

/-!
What the merge into a higher compression and the summary loop compute from a list of
cells: the merged cells depend on the cells as a set, ascend in price and keep the
totals; the loop takes open and close from the ends of the list as it stands.
-/
namespace Aggregate
open KeyedFold QueryCandles

def totalDelta (cells : List ClusterCell) : ℚ := (cells.map fun c => c.ask - c.bid).sum

def TenthCells (cells : List ClusterCell) : Prop := ∀ c ∈ cells, Tenths c.bid ∧ Tenths c.ask

section Bins
variable {groupSize : UInt32} (tick : ℚ) (base : UInt32) (some_group : groupSize ≠ 0)
  (cells : List ClusterCell)
include some_group

theorem mergeCellsBy_eq (bins : UInt32 → ℚ → UInt32 → ℚ → ℚ) :
    mergeCellsBy bins cells groupSize tick base = mergeInto (bins groupSize tick base) cells := by
  unfold mergeCellsBy
  split
  · rename_i nothing
    rw [nothing.resolve_right some_group]
    rfl
  · rfl

theorem mergeCells_eq : mergeCells cells groupSize tick base = mergeInto (coarseBin groupSize tick base) cells :=
  mergeCellsBy_eq tick base some_group cells coarseBin

end Bins

section Merge
variable (newBin : ℚ → ℚ)

def addCell (bin : ClusterCell → ℚ) (c : ClusterCell) (cell : Option ClusterCell) : ClusterCell :=
  let cell := cell.getD ⟨bin c, 0, 0⟩
  { cell with bid := cell.bid + c.bid, ask := cell.ask + c.ask }

def roundCell (c : ClusterCell) : ClusterCell := ⟨c.price, roundHalfUp c.bid, roundHalfUp c.ask⟩

def mergedTable (base : List ClusterCell) : List (ℚ × ClusterCell) :=
  gather (fun c : ClusterCell => newBin c.price) (addCell fun c => newBin c.price) base

variable (base : List ClusterCell)

theorem mergeInto_eq : mergeInto newBin base =
    ((mergedTable newBin base).map fun p => roundCell p.2).insertionSort fun c d => c.price ≤ d.price := rfl

theorem mergedTable_price : ∀ p ∈ mergedTable newBin base, p.2.price = p.1 := by
  apply gather_entries (fun (bin : ℚ) (cell : ClusterCell) => cell.price = bin)
  · intro c _
    rfl
  · intro c _ cell own
    exact own

theorem mergedTable_perm {base other : List ClusterCell} (perm : base.Perm other) :
    (mergedTable newBin base).Perm (mergedTable newBin other) := by
  apply gather_perm _ perm
  intro c d cell same
  cases cell with
  | none => simp [addCell, same, add_comm]
  | some cell => simp [addCell, add_right_comm]

theorem mergedTable_prices :
    ((mergedTable newBin base).map fun p => (roundCell p.2).price) = keys (mergedTable newBin base) := by
  apply List.map_congr_left
  intro p hp
  exact mergedTable_price newBin base p hp

theorem sorted_cells_unique {cells others : List ClusterCell} (perm : cells.Perm others)
    (distinct : (cells.map ClusterCell.price).Nodup) :
    (cells.insertionSort fun c d => c.price ≤ d.price) =
      others.insertionSort fun c d => c.price ≤ d.price := by
  have sorted : ∀ xs : List ClusterCell,
      (xs.insertionSort fun c d => c.price ≤ d.price).Pairwise fun c d => c.price ≤ d.price :=
    fun xs => List.pairwise_insertionSort _ xs
  refine List.Perm.eq_of_pairwise ?_ (sorted cells) (sorted others)
    ((List.perm_insertionSort _ cells).trans (perm.trans (List.perm_insertionSort _ others).symm))
  intro c d hc hd below above
  have inCells : ∀ e, e ∈ others.insertionSort (fun c d => c.price ≤ d.price) → e ∈ cells :=
    fun e he => perm.mem_iff.mpr ((List.perm_insertionSort _ others).mem_iff.mp he)
  exact List.inj_on_of_nodup_map distinct ((List.perm_insertionSort _ cells).mem_iff.mp hc)
    (inCells d hd) (le_antisymm below above)

theorem mergeInto_perm {base other : List ClusterCell} (perm : base.Perm other) :
    mergeInto newBin base = mergeInto newBin other := by
  rw [mergeInto_eq, mergeInto_eq]
  apply sorted_cells_unique ((mergedTable_perm newBin perm).map _)
  rw [List.map_map]
  exact (mergedTable_prices newBin base) ▸ gather_keys_nodup _ _ _

theorem mergeInto_nonempty (nonempty : base ≠ []) : mergeInto newBin base ≠ [] := by
  obtain ⟨c, hc⟩ := List.exists_mem_of_ne_nil base nonempty
  have present := (mem_gather_keys (fun c : ClusterCell => newBin c.price)
    (addCell fun c => newBin c.price) base _).mpr ⟨c, hc, rfl⟩
  rw [mergeInto_eq]
  intro empty
  have length := congrArg List.length empty
  rw [List.length_insertionSort, List.length_map, List.length_nil, List.length_eq_zero_iff] at length
  unfold mergedTable at length
  rw [length] at present
  cases present

theorem mergeInto_sorted : (mergeInto newBin base).Pairwise fun c d => c.price ≤ d.price := by
  rw [mergeInto_eq]
  exact List.pairwise_insertionSort _ _

end Merge

theorem roundHalfUp_tenths {v : ℚ} (tenths : Tenths v) : roundHalfUp v = v := by
  obtain ⟨k, rfl⟩ := tenths
  unfold roundHalfUp
  by_cases zero : (k : ℚ) / 10 = 0
  · rw [if_pos zero, zero]
  · have whole : (10 * (if (k : ℚ) / 10 < 0 then -((k : ℚ) / 10) else k / 10)).den = 1 := by
      split
      · rw [show 10 * -((k : ℚ) / 10) = ((-k : ℤ) : ℚ) by push_cast; ring]
        exact Rat.den_intCast (-k)
      · rw [show 10 * ((k : ℚ) / 10) = (k : ℚ) by ring]
        exact Rat.den_intCast k
    simp only [zero, ↓reduceIte, whole]

theorem tenths_add {v w : ℚ} (tenthsV : Tenths v) (tenthsW : Tenths w) : Tenths (v + w) := by
  obtain ⟨k, rfl⟩ := tenthsV
  obtain ⟨m, rfl⟩ := tenthsW
  exact ⟨k + m, by push_cast; ring⟩

section Totals
variable (newBin : ℚ → ℚ) {base : List ClusterCell} (tenths : TenthCells base)
include tenths

theorem mergedTable_tenths : ∀ p ∈ mergedTable newBin base, Tenths p.2.bid ∧ Tenths p.2.ask := by
  apply gather_entries (fun (_ : ℚ) (cell : ClusterCell) => Tenths cell.bid ∧ Tenths cell.ask)
  · intro c hc
    simpa [addCell] using tenths c hc
  · intro c hc cell kept
    exact ⟨tenths_add kept.1 (tenths c hc).1, tenths_add kept.2 (tenths c hc).2⟩

theorem mergeInto_perm_table : (mergeInto newBin base).Perm ((mergedTable newBin base).map Prod.snd) := by
  rw [mergeInto_eq]
  refine (List.perm_insertionSort _ _).trans (List.Perm.of_eq ?_)
  apply List.map_congr_left
  intro p hp
  obtain ⟨bid, ask⟩ := mergedTable_tenths newBin tenths p hp
  rw [roundCell, roundHalfUp_tenths bid, roundHalfUp_tenths ask]

theorem mergeInto_delta : totalDelta (mergeInto newBin base) = totalDelta base := by
  have perm := mergeInto_perm_table newBin tenths
  rw [totalDelta, (perm.map _).sum_eq, List.map_map]
  apply sum_gather (fun cell : ClusterCell => cell.ask - cell.bid)
  · intro c
    simp [addCell]
  · intro c cell
    simp only [addCell, Option.getD_some]
    ring

end Totals

theorem quotient_ne_zero {a b : UInt32} (nonzero : b ≠ 0) (below : b < a) : a / b ≠ 0 := by
  intro zero
  have value := congrArg UInt32.toNat zero
  rw [UInt32.toNat_div, UInt32.toNat_zero] at value
  have positive : 0 < b.toNat := by
    rcases Nat.eq_zero_or_pos b.toNat with none | some_bits
    · exact absurd (UInt32.toNat_inj.mp none) nonzero
    · exact some_bits
  have above := UInt32.lt_iff_toNat_lt.mp below
  rw [Nat.div_eq_zero_iff] at value
  omega

section Loop
variable (closeOf : ClusterCell → ℚ)

def loopStep (candle : ClusterCandle) (cell : ClusterCell) : ClusterCandle :=
  { candle with
    volume := candle.volume + (cell.bid + cell.ask)
    delta := candle.delta + (cell.ask - cell.bid)
    low := if candle.openPrice = 0 ∨ cell.price < candle.low then cell.price else candle.low
    high := if candle.high < cell.price then cell.price else candle.high
    openPrice := if candle.openPrice = 0 then cell.price else candle.openPrice
    close := closeOf cell }

theorem candleLoop_eq (time : ℤ) (cells : List ClusterCell) : candleLoop closeOf time cells =
    cells.foldl (loopStep closeOf) ⟨time, 0, 0, 0, 0, 0, 0, cells⟩ := rfl

theorem loop_delta (cells : List ClusterCell) (init : ClusterCandle) :
    (cells.foldl (loopStep closeOf) init).delta = init.delta + totalDelta cells := by
  induction cells generalizing init with
  | nil => simp [totalDelta]
  | cons c cells ih =>
    rw [List.foldl_cons, ih]
    simp only [loopStep, totalDelta, List.map_cons, List.sum_cons]
    ring

theorem loop_close (cells : List ClusterCell) (init : ClusterCandle) :
    (cells.foldl (loopStep closeOf) init).close =
      (cells.getLast?.map closeOf).getD init.close := by
  induction cells using List.reverseRecOn with
  | nil => rfl
  | append_singleton cells c ih => simp [loopStep]

theorem candleLoop_delta (time : ℤ) (cells : List ClusterCell) :
    (candleLoop closeOf time cells).delta = totalDelta cells := by
  rw [candleLoop_eq, loop_delta, zero_add]

theorem candleLoop_close (time : ℤ) {cells : List ClusterCell} {last : ClusterCell}
    (ends : cells.getLast? = some last) : (candleLoop closeOf time cells).close = closeOf last := by
  rw [candleLoop_eq, loop_close, ends]
  rfl

theorem loopStep_above {candle : ClusterCandle} {d : ClusterCell} (set : candle.openPrice ≠ 0)
    (low : candle.low ≤ d.price) (high : candle.high ≤ d.price) :
    (loopStep closeOf candle d).openPrice = candle.openPrice ∧
      (loopStep closeOf candle d).low = candle.low ∧
      (loopStep closeOf candle d).high = d.price := by
  simp only [loopStep, set, false_or, not_lt.mpr low, ↓reduceIte, true_and]
  split
  · rfl
  · rename_i notAbove
    exact le_antisymm high (not_lt.mp notAbove)

theorem loop_sorted {init : ClusterCandle} (unset : init.openPrice = 0) (bottom : init.high = 0)
    {first last : ClusterCell} {cells : List ClusterCell}
    (sorted : (first :: cells).Pairwise fun c d => c.price ≤ d.price)
    (positive : 0 < first.price) (ends : (first :: cells).getLast? = some last) :
    ((first :: cells).foldl (loopStep closeOf) init).openPrice = first.price ∧
      ((first :: cells).foldl (loopStep closeOf) init).low = first.price ∧
      ((first :: cells).foldl (loopStep closeOf) init).high = last.price := by
  induction cells using List.reverseRecOn generalizing last with
  | nil =>
    have same : first = last := Option.some.inj ends
    subst same
    simp [loopStep, unset, bottom, positive]
  | append_singleton cells d ih =>
    rw [← List.cons_append] at sorted ends ⊢
    have same : d = last := by
      rw [List.getLast?_concat] at ends
      exact Option.some.inj ends
    subst same
    obtain ⟨previous, found⟩ : ∃ previous, (first :: cells).getLast? = some previous :=
      ⟨_, List.getLast?_eq_some_getLast (by simp)⟩
    obtain ⟨earlier, _, below⟩ := List.pairwise_append.mp sorted
    obtain ⟨openPrice, low, high⟩ := ih earlier found
    rw [List.foldl_append]
    generalize (first :: cells).foldl (loopStep closeOf) init = candle at openPrice low high ⊢
    have aboveFirst : candle.low ≤ d.price := low ▸ below first (by simp) d (by simp)
    have aboveLast : candle.high ≤ d.price :=
      high ▸ below previous (List.mem_of_getLast? found) d (by simp)
    obtain ⟨keptOpen, keptLow, newHigh⟩ :=
      loopStep_above closeOf (openPrice ▸ positive.ne') aboveFirst aboveLast
    exact ⟨keptOpen.trans openPrice, keptLow.trans low, newHigh⟩
/-- On ascending positive prices the loop takes open and low from the first cell, high and
    close from the last one. -/
theorem candleLoop_sorted (time : ℤ) {first last : ClusterCell} {cells : List ClusterCell}
    (sorted : (first :: cells).Pairwise fun c d => c.price ≤ d.price)
    (positive : 0 < first.price) (ends : (first :: cells).getLast? = some last) :
    (candleLoop closeOf time (first :: cells)).openPrice = first.price ∧
      (candleLoop closeOf time (first :: cells)).low = first.price ∧
      (candleLoop closeOf time (first :: cells)).high = last.price :=
  loop_sorted closeOf rfl rfl sorted positive ends

end Loop

end Aggregate
