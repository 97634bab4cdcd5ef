import Procluster.MapCandle
import Procluster.MergedBins
import Procluster.ServedHistory
import Procluster.Library.Neighbours

/-!
The imbalance flags of handleCandles against the diagonal definition, which compares a
cell with the cells one bin below and above in exact numbers. The code takes the
neighbours of the list and multiplies doubles.
-/
namespace SparseBins
open Aggregate KeyedFold QueryCandles CandlesApi MapCandle Neighbours Validate ServedHistory FloatRounding

def Imbalance (amount other : ℚ) : Prop := 0 < other ∧ 3 * other < amount

/-- The flags as defined by price, a bin being width wide. -/
structure Diagonal (width : ℚ) (cells : List CellJSON) : Prop where
  buy : ∀ cell ∈ cells, cell.isBuyImbalance = true ↔
    ∃ d ∈ cells, d.price = cell.price - width ∧ Imbalance cell.ask d.bid
  sell : ∀ cell ∈ cells, cell.isSellImbalance = true ↔
    ∃ d ∈ cells, d.price = cell.price + width ∧ Imbalance cell.bid d.ask

instance (amount other : ℚ) : Decidable (Imbalance amount other) := inferInstanceAs (Decidable (_ ∧ _))

def Flagged (amount other : ℚ) : Prop := ExceedsThrice amount other ∧ 0 < other

instance (amount other : ℚ) : Decidable (Flagged amount other) := inferInstanceAs (Decidable (_ ∧ _))

theorem mem_cellsJSON {cells : List ClusterCell} {cell : CellJSON} : cell ∈ cellsJSON cells ↔
    ∃ i c, cells[i]? = some c ∧ ¬ AllZero c ∧ cell = cellJSON cells i c := by
  rw [cellsJSON, List.mem_filterMap]
  constructor
  · rintro ⟨⟨c, i⟩, inside, kept⟩
    split at kept
    · cases kept
    · rename_i nonzero
      exact ⟨i, c, List.mem_zipIdx_iff_getElem?.mp inside, nonzero, (Option.some.inj kept).symm⟩
  · rintro ⟨i, c, found, nonzero, rfl⟩
    exact ⟨(c, i), List.mem_zipIdx_iff_getElem?.mpr found, if_neg nonzero⟩

theorem flagged_zero (other : ℚ) : ¬ Flagged 0 other := by
  rintro ⟨exceeds, positive⟩
  have three : (0 : ℚ) ≤ float64 3 := float64_nonneg (by norm_num)
  have product := float64_nonneg (mul_nonneg (float64_nonneg positive.le) three)
  rw [ExceedsThrice, float64_zero] at exceeds
  exact absurd exceeds (not_lt.mpr product)

theorem imbalance_zero (other : ℚ) : ¬ Imbalance 0 other := fun imbalance => by
  linarith [imbalance.1, imbalance.2]

section Flags
variable {cells : List ClusterCell} (ascending : cells.Pairwise fun c d => c.price < d.price)
  {i : ℕ} {c : ClusterCell} (found : cells[i]? = some c)
include ascending found

theorem buy_iff : (cellJSON cells i c).isBuyImbalance = true ↔
    ∃ d, Adjacent cells d c ∧ Flagged c.ask d.bid := by
  rw [← before_iff ascending found]
  unfold cellJSON Flagged
  by_cases first : 0 < i
  · cases previous : cells[i - 1]? with
    | none => simp [first]
    | some d => simp [first]
  · simp [first]

theorem sell_iff : (cellJSON cells i c).isSellImbalance = true ↔
    ∃ d, Adjacent cells c d ∧ Flagged c.bid d.ask := by
  rw [← after_iff ascending found]
  unfold cellJSON Flagged
  cases next : cells[i + 1]? with
  | none => simp
  | some d => simp

end Flags

def binSize (p : Params) : ℚ := (p.compression.toNat : ℚ) * p.tc.tickSize

/-- The bin of the answer that a base price falls into. -/
def servedBin (p : Params) : ℚ → ℚ :=
  if p.tc.baseCompression < p.compression then
    doubleBin (p.compression / p.tc.baseCompression) p.tc.tickSize p.tc.baseCompression
  else id

section Traded
variable (p : Params) (cells : List ClusterCell)

def Traded (bin : ℚ) : Prop := ∃ c ∈ cells, servedBin p c.price = bin

structure NextBin (low high : ℚ) : Prop where
  lower : Traded p cells low
  upper : Traded p cells high
  below : low < high
  nothing : ∀ bin, Traded p cells bin → ¬ (low < bin ∧ bin < high)

def bidOf (bin : ℚ) : ℚ := cellSum (servedBin p) true cells bin

def askOf (bin : ℚ) : ℚ := cellSum (servedBin p) false cells bin

/-- Where no bin was traded one bin size away, the next traded one does not outweigh in
    the code's comparison; where one was, that comparison gives what exact numbers give. -/
structure Undisturbed : Prop where
  buyGap : ∀ low high, NextBin p cells low high → ¬ Traded p cells (high - binSize p) →
    ¬ Flagged (askOf p cells high) (bidOf p cells low)
  buyStep : ∀ low high, NextBin p cells low high → Traded p cells (high - binSize p) →
    (Flagged (askOf p cells high) (bidOf p cells low) ↔
      Imbalance (askOf p cells high) (bidOf p cells (high - binSize p)))
  sellGap : ∀ low high, NextBin p cells low high → ¬ Traded p cells (low + binSize p) →
    ¬ Flagged (bidOf p cells low) (askOf p cells high)
  sellStep : ∀ low high, NextBin p cells low high → Traded p cells (low + binSize p) →
    (Flagged (bidOf p cells low) (askOf p cells high) ↔
      Imbalance (bidOf p cells low) (askOf p cells (low + binSize p)))

end Traded

section Served
variable {p : Params} (based : p.tc.baseCompression < p.compression → p.tc.baseCompression ≠ 0)
  {c : ClusterCandle} (ascending : c.cells.Pairwise fun a b => a.price < b.price)
  (tenths : TenthCells c.cells)
include ascending

/- At the base compression a bin is the price of a single cell. -/
theorem cellSum_alone (base : ¬ p.tc.baseCompression < p.compression) {b : ClusterCell} (hb : b ∈ c.cells)
    (maker : Bool) : cellSum (servedBin p) maker c.cells b.price = side maker b := by
  have bins : servedBin p = id := if_neg base
  have distinct : c.cells.Nodup := ascending.imp fun below same => by simp [same] at below
  have filtered : (c.cells.filter fun d => servedBin p d.price = b.price) = [b] := by
    have same : ∀ d ∈ c.cells, decide (servedBin p d.price = b.price) = decide (d = b) := by
      intro d hd
      rw [decide_eq_decide, bins, id]
      constructor
      · intro equal
        obtain ⟨i, first⟩ := List.getElem?_of_mem hd
        obtain ⟨j, second⟩ := List.getElem?_of_mem hb
        obtain rfl := position_unique ascending first second equal
        exact Option.some.inj (first.symm.trans second)
      · rintro rfl
        rfl
    rw [List.filter_congr same, List.filter_eq, List.count_eq_one_of_mem distinct hb]
    rfl
  rw [cellSum, filtered, List.map_singleton, List.sum_singleton]

include based

theorem served_ascending :
    (mergeCandleBy doubleBin p c).cells.Pairwise fun a b => a.price < b.price := by
  unfold mergeCandleBy
  split
  · rename_i above
    simp only [mergeCellsBy_eq _ _ (quotient_ne_zero (based above) above)]
    exact mergeInto_strict c.cells
  · exact ascending

include tenths

theorem mem_served (cell : ClusterCell) : cell ∈ (mergeCandleBy doubleBin p c).cells ↔
    ∃ bin, Traded p c.cells bin ∧ cell = ⟨bin, bidOf p c.cells bin, askOf p c.cells bin⟩ := by
  by_cases above : p.tc.baseCompression < p.compression
  · have bins : servedBin p = doubleBin (p.compression / p.tc.baseCompression) p.tc.tickSize
        p.tc.baseCompression := if_pos above
    have sums : ∀ maker bin, roundHalfUp (cellSum (servedBin p) maker c.cells bin) =
        cellSum (servedBin p) maker c.cells bin := fun maker bin =>
      roundHalfUp_tenths (cellSum_tenths tenths maker bin)
    simp only [mergeCandleBy, above, ↓reduceIte, mergeCellsBy_eq _ _ (quotient_ne_zero (based above) above),
      ← bins]
    rw [mem_mergeInto]
    constructor
    · rintro ⟨⟨b, hb, bin⟩, same⟩
      refine ⟨cell.price, ⟨b, hb, bin⟩, ?_⟩
      rw [same, roundCell, mergedAt, sums true, sums false]
      rfl
    · rintro ⟨bin, traded, rfl⟩
      refine ⟨traded, ?_⟩
      rw [roundCell, mergedAt, sums true, sums false]
      rfl
  · have bins : servedBin p = id := if_neg above
    have own : ∀ b ∈ c.cells, (⟨b.price, bidOf p c.cells b.price, askOf p c.cells b.price⟩ : ClusterCell) = b := by
      intro b hb
      rw [bidOf, askOf, cellSum_alone ascending above hb, cellSum_alone ascending above hb]
      rfl
    simp only [mergeCandleBy, above, ↓reduceIte]
    constructor
    · intro hcell
      exact ⟨cell.price, ⟨cell, hcell, by rw [bins, id]⟩, (own cell hcell).symm⟩
    · rintro ⟨bin, ⟨b, hb, same⟩, rfl⟩
      rw [bins, id] at same
      rw [← same, own b hb]
      exact hb

theorem adjacent_served {low high : ℚ} : NextBin p c.cells low high ↔
    Adjacent (mergeCandleBy doubleBin p c).cells ⟨low, bidOf p c.cells low, askOf p c.cells low⟩
      ⟨high, bidOf p c.cells high, askOf p c.cells high⟩ := by
  have listed := mem_served based ascending tenths
  rw [adjacent_iff (served_ascending based ascending)]
  constructor
  · intro next
    refine ⟨(listed _).mpr ⟨low, next.lower, rfl⟩, (listed _).mpr ⟨high, next.upper, rfl⟩, next.below, ?_⟩
    intro e he
    obtain ⟨bin, traded, rfl⟩ := (listed e).mp he
    exact next.nothing bin traded
  · rintro ⟨first, second, below, nothing⟩
    obtain ⟨_, lowTraded, lowSame⟩ := (listed _).mp first
    obtain ⟨_, highTraded, highSame⟩ := (listed _).mp second
    obtain rfl := (ClusterCell.mk.inj lowSame).1
    obtain rfl := (ClusterCell.mk.inj highSame).1
    refine ⟨lowTraded, highTraded, below, ?_⟩
    intro bin traded
    exact nothing _ ((listed _).mpr ⟨bin, traded, rfl⟩)

theorem sent_iff {cell : CellJSON} : cell ∈ (candleJSON (mergeCandleBy doubleBin p c)).cells ↔
    ∃ bin i, (mergeCandleBy doubleBin p c).cells[i]? = some ⟨bin, bidOf p c.cells bin, askOf p c.cells bin⟩ ∧
      ¬ AllZero ⟨bin, bidOf p c.cells bin, askOf p c.cells bin⟩ ∧
      cell = cellJSON (mergeCandleBy doubleBin p c).cells i ⟨bin, bidOf p c.cells bin, askOf p c.cells bin⟩ := by
  change cell ∈ cellsJSON _ ↔ _
  rw [mem_cellsJSON]
  constructor
  · rintro ⟨i, d, found, nonzero, rfl⟩
    obtain ⟨bin, _, rfl⟩ := (mem_served based ascending tenths d).mp (List.mem_of_getElem? found)
    exact ⟨bin, i, found, nonzero, rfl⟩
  · rintro ⟨bin, i, found, nonzero, rfl⟩
    exact ⟨i, _, found, nonzero, rfl⟩

theorem buy_served {bin : ℚ} {i : ℕ} (found : (mergeCandleBy doubleBin p c).cells[i]? =
      some ⟨bin, bidOf p c.cells bin, askOf p c.cells bin⟩) :
    (cellJSON (mergeCandleBy doubleBin p c).cells i
        ⟨bin, bidOf p c.cells bin, askOf p c.cells bin⟩).isBuyImbalance = true ↔
      ∃ low, NextBin p c.cells low bin ∧ Flagged (askOf p c.cells bin) (bidOf p c.cells low) := by
  rw [buy_iff (served_ascending based ascending) found]
  constructor
  · rintro ⟨d, next, flagged⟩
    obtain ⟨low, _, rfl⟩ := (mem_served based ascending tenths d).mp next.left_mem
    exact ⟨low, (adjacent_served based ascending tenths).mpr next, flagged⟩
  · rintro ⟨low, next, flagged⟩
    exact ⟨_, (adjacent_served based ascending tenths).mp next, flagged⟩

theorem sell_served {bin : ℚ} {i : ℕ} (found : (mergeCandleBy doubleBin p c).cells[i]? =
      some ⟨bin, bidOf p c.cells bin, askOf p c.cells bin⟩) :
    (cellJSON (mergeCandleBy doubleBin p c).cells i
        ⟨bin, bidOf p c.cells bin, askOf p c.cells bin⟩).isSellImbalance = true ↔
      ∃ high, NextBin p c.cells bin high ∧ Flagged (bidOf p c.cells bin) (askOf p c.cells high) := by
  rw [sell_iff (served_ascending based ascending) found]
  constructor
  · rintro ⟨d, next, flagged⟩
    obtain ⟨high, _, rfl⟩ := (mem_served based ascending tenths d).mp next.right_mem
    exact ⟨high, (adjacent_served based ascending tenths).mpr next, flagged⟩
  · rintro ⟨high, next, flagged⟩
    exact ⟨_, (adjacent_served based ascending tenths).mp next, flagged⟩

theorem defined_iff (bin amount : ℚ) (other : ClusterCell → ℚ) (sentOther : CellJSON → ℚ)
    (same : ∀ cells i d, sentOther (cellJSON cells i d) = other d)
    (nonzero : ∀ d, 0 < other d → ¬ AllZero d) :
    (∃ d ∈ (candleJSON (mergeCandleBy doubleBin p c)).cells, d.price = bin ∧ Imbalance amount (sentOther d)) ↔
      Traded p c.cells bin ∧ Imbalance amount (other ⟨bin, bidOf p c.cells bin, askOf p c.cells bin⟩) := by
  constructor
  · rintro ⟨d, sent, price, imbalance⟩
    obtain ⟨own, i, found, _, rfl⟩ := (sent_iff based ascending tenths).mp sent
    obtain ⟨_, traded, same'⟩ := (mem_served based ascending tenths _).mp (List.mem_of_getElem? found)
    obtain rfl := (ClusterCell.mk.inj same').1
    obtain rfl : own = bin := price
    rw [same] at imbalance
    exact ⟨traded, imbalance⟩
  · rintro ⟨traded, imbalance⟩
    obtain ⟨i, found⟩ := List.getElem?_of_mem ((mem_served based ascending tenths _).mpr ⟨bin, traded, rfl⟩)
    refine ⟨_, (sent_iff based ascending tenths).mpr ⟨bin, i, found, nonzero _ imbalance.1, rfl⟩, rfl, ?_⟩
    rwa [same]

/- The definition holds when each traded bin is flagged as it says; of a cell that is not
   sent neither comparison is true. -/
theorem diagonal_bins : Diagonal (binSize p) (candleJSON (mergeCandleBy doubleBin p c)).cells ↔
    ∀ bin, Traded p c.cells bin →
      ((∃ low, NextBin p c.cells low bin ∧ Flagged (askOf p c.cells bin) (bidOf p c.cells low)) ↔
        Traded p c.cells (bin - binSize p) ∧
          Imbalance (askOf p c.cells bin) (bidOf p c.cells (bin - binSize p))) ∧
      ((∃ high, NextBin p c.cells bin high ∧ Flagged (bidOf p c.cells bin) (askOf p c.cells high)) ↔
        Traded p c.cells (bin + binSize p) ∧
          Imbalance (bidOf p c.cells bin) (askOf p c.cells (bin + binSize p))) := by
  have below := fun bin amount => defined_iff based ascending tenths bin amount ClusterCell.bid CellJSON.bid
    (fun _ _ _ => rfl) (fun d positive zero => positive.ne' zero.2.1)
  have above := fun bin amount => defined_iff based ascending tenths bin amount ClusterCell.ask CellJSON.ask
    (fun _ _ _ => rfl) (fun d positive zero => positive.ne' zero.2.2)
  constructor
  · rintro ⟨buy, sell⟩ bin traded
    obtain ⟨i, found⟩ := List.getElem?_of_mem ((mem_served based ascending tenths _).mpr ⟨bin, traded, rfl⟩)
    by_cases zero : AllZero ⟨bin, bidOf p c.cells bin, askOf p c.cells bin⟩
    · have bid : bidOf p c.cells bin = 0 := zero.2.1
      have ask : askOf p c.cells bin = 0 := zero.2.2
      rw [bid, ask]
      simp only [flagged_zero, imbalance_zero, and_false, exists_false, and_self]
    · have sent := (sent_iff based ascending tenths).mpr ⟨bin, i, found, zero, rfl⟩
      have bought := buy _ sent
      have sold := sell _ sent
      rw [buy_served based ascending tenths found] at bought
      rw [sell_served based ascending tenths found] at sold
      exact ⟨bought.trans (below _ _), sold.trans (above _ _)⟩
  · intro agree
    have each : ∀ cell ∈ (candleJSON (mergeCandleBy doubleBin p c)).cells, ∃ bin i,
        Traded p c.cells bin ∧ (mergeCandleBy doubleBin p c).cells[i]? =
          some ⟨bin, bidOf p c.cells bin, askOf p c.cells bin⟩ ∧
        cell = cellJSON (mergeCandleBy doubleBin p c).cells i ⟨bin, bidOf p c.cells bin, askOf p c.cells bin⟩ := by
      intro cell sent
      obtain ⟨bin, i, found, _, rfl⟩ := (sent_iff based ascending tenths).mp sent
      obtain ⟨_, traded, same⟩ := (mem_served based ascending tenths _).mp (List.mem_of_getElem? found)
      obtain rfl := (ClusterCell.mk.inj same).1
      exact ⟨bin, i, traded, found, rfl⟩
    constructor
    · intro cell sent
      obtain ⟨bin, i, traded, found, rfl⟩ := each cell sent
      rw [buy_served based ascending tenths found]
      exact (agree bin traded).1.trans (below _ _).symm
    · intro cell sent
      obtain ⟨bin, i, traded, found, rfl⟩ := each cell sent
      rw [sell_served based ascending tenths found]
      exact (agree bin traded).2.trans (above _ _).symm

theorem nextBin_below {low high : ℚ} (first : Traded p c.cells low) (second : Traded p c.cells high)
    (less : low < high) : ∃ near, NextBin p c.cells near high := by
  have listed := fun bin traded => (mem_served based ascending tenths _).mpr ⟨bin, traded, rfl⟩
  obtain ⟨d, next⟩ := exists_before (served_ascending based ascending) (listed low first) (listed high second) less
  obtain ⟨near, _, rfl⟩ := (mem_served based ascending tenths d).mp next.left_mem
  exact ⟨near, (adjacent_served based ascending tenths).mpr next⟩

theorem nextBin_above {low high : ℚ} (first : Traded p c.cells low) (second : Traded p c.cells high)
    (less : low < high) : ∃ near, NextBin p c.cells low near := by
  have listed := fun bin traded => (mem_served based ascending tenths _).mpr ⟨bin, traded, rfl⟩
  obtain ⟨d, next⟩ := exists_after (served_ascending based ascending) (listed low first) (listed high second) less
  obtain ⟨near, _, rfl⟩ := (mem_served based ascending tenths d).mp next.right_mem
  exact ⟨near, (adjacent_served based ascending tenths).mpr next⟩

end Served

theorem NextBin.below_unique {p : Params} {cells : List ClusterCell} {a b high : ℚ}
    (first : NextBin p cells a high) (second : NextBin p cells b high) : a = b := by
  rcases lt_trichotomy a b with less | same | greater
  · exact absurd ⟨less, second.below⟩ (first.nothing b second.lower)
  · exact same
  · exact absurd ⟨greater, first.below⟩ (second.nothing a first.lower)

theorem NextBin.above_unique {p : Params} {cells : List ClusterCell} {low a b : ℚ}
    (first : NextBin p cells low a) (second : NextBin p cells low b) : a = b := by
  rcases lt_trichotomy a b with less | same | greater
  · exact absurd ⟨first.below, less⟩ (second.nothing a first.upper)
  · exact same
  · exact absurd ⟨second.below, greater⟩ (first.nothing b second.upper)

theorem neighbour_agrees {Near Test : ℚ → Prop} {there value : Prop}
    (one : ∀ a b, Near a → Near b → a = b) (exists_near : there → ∃ a, Near a) :
    ((∃ a, Near a ∧ Test a) ↔ there ∧ value) ↔
      (∀ a, Near a → ¬ there → ¬ Test a) ∧ ∀ a, Near a → there → (Test a ↔ value) := by
  constructor
  · intro agrees
    constructor
    · intro a near absent tested
      exact absent (agrees.mp ⟨a, near, tested⟩).1
    · intro a near present
      constructor
      · intro tested
        exact (agrees.mp ⟨a, near, tested⟩).2
      · intro holds
        obtain ⟨b, nearB, tested⟩ := agrees.mpr ⟨present, holds⟩
        exact one b a nearB near ▸ tested
  · rintro ⟨absent, present⟩
    constructor
    · rintro ⟨a, near, tested⟩
      by_cases stands : there
      · exact ⟨stands, (present a near stands).mp tested⟩
      · exact absurd tested (absent a near stands)
    · rintro ⟨stands, holds⟩
      obtain ⟨a, near⟩ := exists_near stands
      exact ⟨a, near, (present a near stands).mpr holds⟩

theorem traded_base {cells : List ClusterCell} {bin : ℚ} : Traded sampleParams cells bin ↔
    bin ∈ cells.map ClusterCell.price := by
  have bins : servedBin sampleParams = id := rfl
  rw [Traded, bins, List.mem_map]
  rfl

def threeBins : ClusterCandle :=
  ⟨60, 100, 215 / 2, 100, 215 / 2, 7, 3, [⟨100, 1, 0⟩, ⟨205 / 2, 0, 4⟩, ⟨215 / 2, 1, 1⟩]⟩

end SparseBins
