import Procluster.MapCandle
import Procluster.MergedBins
import Procluster.Library.Neighbours

/-!
Diagonal imbalances. handleCandles compares a cell with its neighbours in the ascending
list, ClusterChart with the neighbours of the list it got, the next one being the cell
below; the definition compares with the cells one bin below and above.
-/
namespace Imbalances
open Aggregate KeyedFold QueryCandles CandlesApi MapCandle Neighbours

/-- isDiagonalBuyImbalance of ClusterChart, for the cell at cellIdx. -/
def isDiagonalBuyImbalance (candleCells : List BackendCell) (cellIdx : ℕ) (cell : BackendCell) :
    Bool :=
  match candleCells[cellIdx + 1]? with
  | some cellBelow => ExceedsThrice cell.ask cellBelow.bid ∧ 0 < cell.ask
  | none => false

/-- isDiagonalSellImbalance of ClusterChart; the index -1 has no cell. -/
def isDiagonalSellImbalance (candleCells : List BackendCell) (cellIdx : ℕ) (cell : BackendCell) :
    Bool :=
  match if cellIdx = 0 then none else candleCells[cellIdx - 1]? with
  | some cellAbove => ExceedsThrice cell.bid cellAbove.ask ∧ 0 < cell.bid
  | none => false

structure DrawsFlags (candle : ChartCandle) : Prop where
  buy : ∀ i cell, candle.cells[i]? = some cell →
    cell.isBuyImbalance = some (isDiagonalBuyImbalance candle.cells i cell)
  sell : ∀ i cell, candle.cells[i]? = some cell →
    cell.isSellImbalance = some (isDiagonalSellImbalance candle.cells i cell)

/-- The volumes of a cell exceed three times the other side of both its neighbours or of
    neither; at the ends of the candle of neither. -/
structure EvenSided (cells : List ClusterCell) : Prop where
  asks : ∀ (i : ℕ) (below cell above : ClusterCell), cells[i]? = some below → cells[i + 1]? = some cell →
    cells[i + 2]? = some above →
      ¬ ExceedsThrice cell.ask (min below.bid above.bid) ∨ ExceedsThrice cell.ask (max below.bid above.bid)
  bids : ∀ (i : ℕ) (below cell above : ClusterCell), cells[i]? = some below → cells[i + 1]? = some cell →
    cells[i + 2]? = some above →
      ¬ ExceedsThrice cell.bid (min below.ask above.ask) ∨ ExceedsThrice cell.bid (max below.ask above.ask)
  lowest : ∀ cell above : ClusterCell, cells[0]? = some cell → cells[1]? = some above →
    ¬ ExceedsThrice cell.ask above.bid ∧ ¬ ExceedsThrice cell.bid above.ask
  highest : ∀ (i : ℕ) (below cell : ClusterCell), cells[i]? = some below → cells[i + 1]? = some cell →
    cells[i + 2]? = none → ¬ ExceedsThrice cell.ask below.bid ∧ ¬ ExceedsThrice cell.bid below.ask

def Exceeds (amount : ℚ) (volume : ClusterCell → ℚ) (other : Option ClusterCell) : Prop :=
  ∃ d ∈ other, ExceedsThrice amount (volume d)

def cellBefore (cells : List ClusterCell) (i : ℕ) : Option ClusterCell :=
  if i = 0 then none else cells[i - 1]?

section Chart
variable {cells : List ClusterCell}

theorem sent_cells (r : ClusterCandle) (kept : ∀ c ∈ r.cells, ¬ AllZero c) :
    (apiMapBackendCandle (restJSON (candleJSON r))).cells =
      r.cells.zipIdx.map fun p => restCell (cellJSON r.cells p.2 p.1) := by
  rw [apiMapBackendCandle, mapBackendCandle, restJSON, candleJSON, cellsJSON_kept kept, List.map_map,
    List.map_map]
  rfl

theorem sent_at {r : ClusterCandle} (kept : ∀ c ∈ r.cells, ¬ AllZero c) (i : ℕ) :
    (apiMapBackendCandle (restJSON (candleJSON r))).cells[i]? =
      r.cells[i]?.map fun c => restCell (cellJSON r.cells i c) := by
  rw [sent_cells r kept, List.getElem?_map, List.getElem?_zipIdx, Option.map_map]
  simp [Function.comp_def]

variable (positive : ∀ c ∈ cells, 0 < c.bid ∧ 0 < c.ask)
include positive

theorem buy_flag (i : ℕ) (c : ClusterCell) :
    (cellJSON cells i c).isBuyImbalance = true ↔ Exceeds c.ask ClusterCell.bid (cellBefore cells i) := by
  unfold cellJSON Exceeds cellBefore
  by_cases first : i = 0
  · simp [first]
  · simp only [Nat.pos_of_ne_zero first, ↓reduceIte, first]
    cases found : cells[i - 1]? with
    | none => simp
    | some d => simp [(positive d (List.mem_of_getElem? found)).1]

theorem sell_flag (i : ℕ) (c : ClusterCell) :
    (cellJSON cells i c).isSellImbalance = true ↔ Exceeds c.bid ClusterCell.ask cells[i + 1]? := by
  unfold cellJSON Exceeds
  cases found : cells[i + 1]? with
  | none => simp
  | some d => simp [(positive d (List.mem_of_getElem? found)).2]

end Chart

section Drawn
variable {r : ClusterCandle} (positive : ∀ c ∈ r.cells, 0 < c.bid ∧ 0 < c.ask)
include positive

theorem positive_kept : ∀ c ∈ r.cells, ¬ AllZero c := by
  intro c hc zero
  exact (positive c hc).1.ne' zero.2.1

theorem drawn_buy {i : ℕ} {c : ClusterCell} (found : r.cells[i]? = some c) :
    isDiagonalBuyImbalance (apiMapBackendCandle (restJSON (candleJSON r))).cells i
      (restCell (cellJSON r.cells i c)) = true ↔ Exceeds c.ask ClusterCell.bid r.cells[i + 1]? := by
  have ask := (positive c (List.mem_of_getElem? found)).2
  unfold isDiagonalBuyImbalance Exceeds
  rw [sent_at (positive_kept positive)]
  cases r.cells[i + 1]? with
  | none => simp
  | some d => simp [restCell, cellJSON, ask]

theorem drawn_sell {i : ℕ} {c : ClusterCell} (found : r.cells[i]? = some c) :
    isDiagonalSellImbalance (apiMapBackendCandle (restJSON (candleJSON r))).cells i
      (restCell (cellJSON r.cells i c)) = true ↔ Exceeds c.bid ClusterCell.ask (cellBefore r.cells i) := by
  have bid := (positive c (List.mem_of_getElem? found)).1
  unfold isDiagonalSellImbalance Exceeds cellBefore
  rw [sent_at (positive_kept positive)]
  by_cases first : i = 0
  · simp [first]
  · simp only [first, ↓reduceIte]
    cases r.cells[i - 1]? with
    | none => simp
    | some d => simp [restCell, cellJSON, bid]

theorem drawsFlags_iff : DrawsFlags (apiMapBackendCandle (restJSON (candleJSON r))) ↔
    ∀ i c, r.cells[i]? = some c →
      (Exceeds c.ask ClusterCell.bid (cellBefore r.cells i) ↔
        Exceeds c.ask ClusterCell.bid r.cells[i + 1]?) ∧
      (Exceeds c.bid ClusterCell.ask r.cells[i + 1]? ↔
        Exceeds c.bid ClusterCell.ask (cellBefore r.cells i)) := by
  have buy : ∀ i c, r.cells[i]? = some c → ((restCell (cellJSON r.cells i c)).isBuyImbalance =
      some (isDiagonalBuyImbalance (apiMapBackendCandle (restJSON (candleJSON r))).cells i
        (restCell (cellJSON r.cells i c))) ↔ (Exceeds c.ask ClusterCell.bid (cellBefore r.cells i) ↔
          Exceeds c.ask ClusterCell.bid r.cells[i + 1]?)) := by
    intro i c found
    rw [← buy_flag positive, ← drawn_buy positive found, ← Bool.eq_iff_iff]
    exact Option.some_inj
  have sell : ∀ i c, r.cells[i]? = some c → ((restCell (cellJSON r.cells i c)).isSellImbalance =
      some (isDiagonalSellImbalance (apiMapBackendCandle (restJSON (candleJSON r))).cells i
        (restCell (cellJSON r.cells i c))) ↔ (Exceeds c.bid ClusterCell.ask r.cells[i + 1]? ↔
          Exceeds c.bid ClusterCell.ask (cellBefore r.cells i))) := by
    intro i c found
    rw [← sell_flag positive, ← drawn_sell positive found, ← Bool.eq_iff_iff]
    exact Option.some_inj
  constructor
  · intro drawn i c found
    have sent : (apiMapBackendCandle (restJSON (candleJSON r))).cells[i]? =
        some (restCell (cellJSON r.cells i c)) := by
      rw [sent_at (positive_kept positive), found, Option.map_some]
    exact ⟨(buy i c found).mp (drawn.buy i _ sent), (sell i c found).mp (drawn.sell i _ sent)⟩
  · intro alike
    constructor
    · intro i cell sent
      rw [sent_at (positive_kept positive), Option.map_eq_some_iff] at sent
      obtain ⟨c, found, rfl⟩ := sent
      exact (buy i c found).mpr (alike i c found).1
    · intro i cell sent
      rw [sent_at (positive_kept positive), Option.map_eq_some_iff] at sent
      obtain ⟨c, found, rfl⟩ := sent
      exact (sell i c found).mpr (alike i c found).2

end Drawn

section Alike
variable (amount : ℚ) (volume : ClusterCell → ℚ) (below above : ClusterCell)

theorem exceeds_some : Exceeds amount volume (some below) ↔ ExceedsThrice amount (volume below) := by
  simp [Exceeds]

theorem exceeds_none : ¬ Exceeds amount volume none := by simp [Exceeds]

theorem alike_inner : (Exceeds amount volume (some below) ↔ Exceeds amount volume (some above)) ↔
    ¬ ExceedsThrice amount (min (volume below) (volume above)) ∨
      ExceedsThrice amount (max (volume below) (volume above)) := by
  rw [exceeds_some, exceeds_some]
  constructor
  · intro same
    by_cases exceeds : ExceedsThrice amount (volume below)
    · right
      rcases max_choice (volume below) (volume above) with most | most
      · rwa [most]
      · rw [most]
        exact same.mp exceeds
    · left
      rcases min_choice (volume below) (volume above) with least | least
      · rwa [least]
      · rw [least]
        exact mt same.mpr exceeds
  · rintro (neither | both)
    · exact iff_of_false (fun exceeds => neither (exceeds.mono (min_le_left _ _)))
        (fun exceeds => neither (exceeds.mono (min_le_right _ _)))
    · exact iff_of_true (both.mono (le_max_left _ _)) (both.mono (le_max_right _ _))

theorem alike_end : (Exceeds amount volume none ↔ Exceeds amount volume (some above)) ↔
    ¬ ExceedsThrice amount (volume above) := by
  rw [exceeds_some, iff_false_left (exceeds_none amount volume)]

end Alike

/-- For a candle of positive volumes the chart draws the flags of handleCandles exactly when
    every cell exceeds the cells next to it alike. -/
theorem chart_flags_iff (r : ClusterCandle) (positive : ∀ c ∈ r.cells, 0 < c.bid ∧ 0 < c.ask) :
    DrawsFlags (apiMapBackendCandle (restJSON (candleJSON r))) ↔ EvenSided r.cells := by
  rw [drawsFlags_iff positive]
  constructor
  · intro alike
    constructor
    · intro i below cell above first second third
      have same := (alike (i + 1) cell second).1
      rw [third] at same
      exact (alike_inner cell.ask ClusterCell.bid below above).mp (first ▸ same)
    · intro i below cell above first second third
      have same := (alike (i + 1) cell second).2
      rw [third] at same
      exact (alike_inner cell.bid ClusterCell.ask below above).mp (first ▸ same.symm)
    · intro cell above first second
      have same := alike 0 cell first
      rw [second] at same
      exact ⟨(alike_end cell.ask ClusterCell.bid above).mp same.1,
        (alike_end cell.bid ClusterCell.ask above).mp same.2.symm⟩
    · intro i below cell first second third
      have same := alike (i + 1) cell second
      rw [third] at same
      exact ⟨(alike_end cell.ask ClusterCell.bid below).mp (first ▸ same.1.symm),
        (alike_end cell.bid ClusterCell.ask below).mp (first ▸ same.2)⟩
  · intro even i c found
    cases i with
    | zero =>
      change (Exceeds c.ask _ none ↔ _) ∧ (_ ↔ Exceeds c.bid _ none)
      cases next : r.cells[0 + 1]? with
      | none => exact ⟨Iff.rfl, Iff.rfl⟩
      | some above =>
        obtain ⟨ask, bid⟩ := even.lowest c above found next
        exact ⟨(alike_end _ _ above).mpr ask, ((alike_end _ _ above).mpr bid).symm⟩
    | succ i =>
      change (Exceeds c.ask _ r.cells[i]? ↔ _) ∧ (_ ↔ Exceeds c.bid _ r.cells[i]?)
      obtain ⟨inside, _⟩ := List.getElem?_eq_some_iff.mp found
      have previous : r.cells[i]? = some r.cells[i] := List.getElem?_eq_getElem (by omega)
      rw [previous]
      cases next : r.cells[i + 1 + 1]? with
      | none =>
        obtain ⟨ask, bid⟩ := even.highest i _ c previous found next
        exact ⟨((alike_end _ _ _).mpr ask).symm, (alike_end _ _ _).mpr bid⟩
      | some above =>
        have asks := even.asks i _ c above previous found next
        have bids := even.bids i _ c above previous found next
        exact ⟨(alike_inner _ _ _ above).mpr asks, ((alike_inner _ _ _ above).mpr bids).symm⟩

def threeCells (ask : ℚ) (upperBid : ℚ) : ClusterCandle :=
  ⟨60, 100, 105, 100, 105, 0, 0, [⟨100, 1, 1⟩, ⟨205 / 2, 1, ask⟩, ⟨105, upperBid, 1⟩]⟩

theorem even_candle_drawn : DrawsFlags (apiMapBackendCandle (restJSON (candleJSON (threeCells 4 1)))) := by
  refine (chart_flags_iff (threeCells 4 1) (by decide +kernel)).mpr ⟨?_, ?_, ?_, ?_⟩
  · rintro (_ | i) below cell above first second third
    · cases first
      cases second
      cases third
      decide +kernel
    · cases third
  · rintro (_ | i) below cell above first second third
    · cases first
      cases second
      cases third
      decide +kernel
    · cases third
  · intro cell above first second
    cases first
    cases second
    decide +kernel
  · rintro (_ | _ | i) below cell first second third
    · cases third
    · cases first
      cases second
      decide +kernel
    · cases second

def Consecutive (width : ℚ) (cells : List ClusterCell) : Prop :=
  cells.IsChain fun c d => d.price = c.price + width

/-- An ask far above the bid below it, but not above the bid over it. -/
theorem neighbours_swapped : ¬ ∀ (width : ℚ) (r : ClusterCandle), Consecutive width r.cells →
    (∀ c ∈ r.cells, 0 < c.bid ∧ 0 < c.ask) →
      DrawsFlags (apiMapBackendCandle (restJSON (candleJSON r))) := by
  intro drawn
  have consecutive : Consecutive (5 / 2) (threeCells 10 10).cells := by
    unfold Consecutive
    decide +kernel
  have positive : ∀ c ∈ (threeCells 10 10).cells, 0 < c.bid ∧ 0 < c.ask := by decide +kernel
  have alike := (drawsFlags_iff positive).mp (drawn (5 / 2) (threeCells 10 10) consecutive positive)
  have ask := (alike_inner 10 ClusterCell.bid ⟨100, 1, 1⟩ ⟨105, 10, 1⟩).mp (alike 1 ⟨205 / 2, 1, 10⟩ rfl).1
  revert ask
  decide +kernel

end Imbalances
