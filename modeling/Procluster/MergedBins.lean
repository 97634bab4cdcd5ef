import Procluster.Library.Scales
import Procluster.MergeApprox

/-!
MergeCells as a partition: the bins of the higher compression are half-open, each base
cell lies in one of them, and on whole tenths the merged cells carry the exact sums.
-/
namespace Aggregate
open KeyedFold QueryCandles

section Bins
variable (groupSize : UInt32) (tick : ℚ) (base : UInt32)

def binWidth : ℚ := (groupSize.toNat : ℚ) * (base.toNat : ℚ) * tick

def InBin (width low price : ℚ) : Prop := low ≤ price ∧ price < low + width

instance (width low price : ℚ) : Decidable (InBin width low price) :=
  inferInstanceAs (Decidable (_ ∧ _))

variable {groupSize tick base}

theorem binWidth_pos (positive : 0 < tick) (some_group : groupSize ≠ 0) (based : base ≠ 0) :
    0 < binWidth groupSize tick base := by
  have group : (0 : ℚ) < groupSize.toNat := by
    exact_mod_cast UInt32.pos_iff_ne_zero.mpr some_group
  have comp : (0 : ℚ) < base.toNat := by exact_mod_cast UInt32.pos_iff_ne_zero.mpr based
  exact mul_pos (mul_pos group comp) positive

theorem coarseBin_grid (q : ℚ) :
    ∃ k : ℤ, coarseBin groupSize tick base q = k * binWidth groupSize tick base := ⟨_, rfl⟩

theorem coarseBin_eq_iff (width : 0 < binWidth groupSize tick base) (k : ℤ) (q : ℚ) :
    coarseBin groupSize tick base q = k * binWidth groupSize tick base ↔
      InBin (binWidth groupSize tick base) (k * binWidth groupSize tick base) q :=
  FloorGrid.floor_mul_iff width q k

end Bins

/-- The merged cells are an exact partition of the base cells into bins of one width. -/
structure Partitions (width : ℚ) (base merged : List ClusterCell) : Prop where
  ascending : merged.Pairwise fun c d => c.price < d.price
  grid : ∀ c ∈ merged, ∃ k : ℤ, c.price = k * width
  bid : ∀ c ∈ merged, c.bid =
    ((base.filter fun b => InBin width c.price b.price).map ClusterCell.bid).sum
  ask : ∀ c ∈ merged, c.ask =
    ((base.filter fun b => InBin width c.price b.price).map ClusterCell.ask).sum
  once : ∀ b ∈ base, ∃! c, c ∈ merged ∧ InBin width c.price b.price
  totalBid : (merged.map ClusterCell.bid).sum = (base.map ClusterCell.bid).sum
  totalAsk : (merged.map ClusterCell.ask).sum = (base.map ClusterCell.ask).sum

section Merge
variable {newBin : ℚ → ℚ} (cells : List ClusterCell)

theorem mergeInto_prices : (mergeInto newBin cells).map ClusterCell.price =
    (cells.map fun c => newBin c.price).toFinset.sort := by
  rw [mergeInto_listed, List.map_map]
  exact List.map_id _

theorem mergeInto_strict : (mergeInto newBin cells).Pairwise fun c d => c.price < d.price := by
  have ascending := (Finset.sortedLT_sort (cells.map fun c => newBin c.price).toFinset).pairwise
  rw [← mergeInto_prices] at ascending
  exact List.pairwise_map.mp ascending

theorem mem_mergeInto {c : ClusterCell} : c ∈ mergeInto newBin cells ↔
    (∃ b ∈ cells, newBin b.price = c.price) ∧ c = roundCell (mergedAt newBin cells c.price) := by
  rw [mergeInto_listed]
  simp only [List.mem_map, Finset.mem_sort, List.mem_toFinset]
  constructor
  · rintro ⟨p, hit, rfl⟩
    exact ⟨hit, rfl⟩
  · rintro ⟨hit, same⟩
    exact ⟨c.price, hit, same.symm⟩

variable {cells} (tenths : TenthCells cells)
include tenths

theorem cellSum_tenths (maker : Bool) (p : ℚ) : Tenths (cellSum newBin maker cells p) := by
  apply tenths_sum
  intro x hx
  obtain ⟨c, hc, rfl⟩ := List.mem_map.mp hx
  obtain ⟨bid, ask⟩ := tenths c (List.mem_of_mem_filter hc)
  cases maker
  · exact ask
  · exact bid

theorem merged_side (maker : Bool) {c : ClusterCell} (member : c ∈ mergeInto newBin cells) :
    side maker c = cellSum newBin maker cells c.price := by
  obtain ⟨_, same⟩ := (mem_mergeInto cells).mp member
  have whole : Tenths (cellSum newBin maker cells c.price) := cellSum_tenths tenths maker c.price
  rw [same]
  cases maker
  · exact roundHalfUp_tenths whole
  · exact roundHalfUp_tenths whole

theorem mergeInto_tenths : TenthCells (mergeInto newBin cells) := by
  intro c hc
  have bid := merged_side tenths true hc
  have ask := merged_side tenths false hc
  simp only [side, ↓reduceIte, Bool.false_eq_true] at bid ask
  rw [bid, ask]
  exact ⟨cellSum_tenths tenths true _, cellSum_tenths tenths false _⟩

theorem mergeInto_nonneg (nonneg : ∀ c ∈ cells, 0 ≤ c.bid ∧ 0 ≤ c.ask) :
    ∀ c ∈ mergeInto newBin cells, 0 ≤ c.bid ∧ 0 ≤ c.ask := by
  intro c hc
  have sums : ∀ maker, 0 ≤ side maker c := by
    intro maker
    rw [merged_side tenths maker hc, cellSum]
    apply List.sum_nonneg
    intro x hx
    obtain ⟨b, hb, rfl⟩ := List.mem_map.mp hx
    have amounts := nonneg b (List.mem_of_mem_filter hb)
    cases maker
    · exact amounts.2
    · exact amounts.1
  exact ⟨sums true, sums false⟩

theorem merged_total (maker : Bool) :
    ((mergeInto newBin cells).map (side maker)).sum = (cells.map (side maker)).sum := by
  have perm := mergeInto_perm_table newBin tenths
  rw [(perm.map _).sum_eq, List.map_map]
  apply sum_gather (side maker)
  · intro c
    cases maker <;> simp [addCell, side]
  · intro c cell
    cases maker <;> simp [addCell, side]

end Merge

/-- MergeCells on one-decimal cells is an exact partition. -/
theorem mergeCells_partitions {cells : List ClusterCell} (tenths : TenthCells cells)
    {groupSize base : UInt32} {tick : ℚ} (some_group : groupSize ≠ 0) (positive : 0 < tick)
    (based : base ≠ 0) :
    Partitions (binWidth groupSize tick base) cells (mergeCells cells groupSize tick base) := by
  rw [mergeCells_eq tick base some_group]
  have width := binWidth_pos positive some_group based
  have grid : ∀ c ∈ mergeInto (coarseBin groupSize tick base) cells,
      ∃ k : ℤ, c.price = k * binWidth groupSize tick base := by
    intro c hc
    obtain ⟨⟨b, _, same⟩, _⟩ := (mem_mergeInto cells).mp hc
    exact same ▸ coarseBin_grid b.price
  have inside : ∀ c ∈ mergeInto (coarseBin groupSize tick base) cells, ∀ q,
      coarseBin groupSize tick base q = c.price ↔ InBin (binWidth groupSize tick base) c.price q := by
    intro c hc q
    obtain ⟨k, number⟩ := grid c hc
    rw [number]
    exact coarseBin_eq_iff width k q
  have sums : ∀ maker, ∀ c ∈ mergeInto (coarseBin groupSize tick base) cells, side maker c =
      ((cells.filter fun b => InBin (binWidth groupSize tick base) c.price b.price).map
        (side maker)).sum := by
    intro maker c hc
    rw [merged_side tenths maker hc, cellSum]
    simp only [inside c hc]
  refine ⟨mergeInto_strict cells, grid, sums true, sums false, ?_,
    merged_total tenths true, merged_total tenths false⟩
  intro b hb
  have listed : coarseBin groupSize tick base b.price ∈
      (mergeInto (coarseBin groupSize tick base) cells).map ClusterCell.price := by
    rw [mergeInto_prices, Finset.mem_sort, List.mem_toFinset]
    exact List.mem_map_of_mem hb
  obtain ⟨c, hc, price⟩ := List.mem_map.mp listed
  refine ⟨c, ⟨hc, (inside c hc b.price).mp price.symm⟩, ?_⟩
  rintro d ⟨hd, covers⟩
  have same : d.price = c.price := ((inside d hd b.price).mpr covers).symm.trans price.symm
  rw [((mem_mergeInto cells).mp hd).2, ((mem_mergeInto cells).mp hc).2, same]

/-- Unsorted cells, one price twice and one below zero. -/
theorem five_cells_partition : Partitions (binWidth 2 (1 / 10) 25)
    [⟨105, 5, 6⟩, ⟨100, 1, 2⟩, ⟨205 / 2, 3, 4⟩, ⟨100, 1 / 10, 0⟩, ⟨-5 / 2, 1, 0⟩]
    (mergeCells [⟨105, 5, 6⟩, ⟨100, 1, 2⟩, ⟨205 / 2, 3, 4⟩, ⟨100, 1 / 10, 0⟩, ⟨-5 / 2, 1, 0⟩] 2
      (1 / 10) 25) := by
  refine mergeCells_partitions ?_ (by decide) (by norm_num) (by decide)
  simp only [TenthCells, List.forall_mem_cons, List.not_mem_nil, IsEmpty.forall_iff, implies_true,
    and_true]
  exact ⟨⟨⟨50, by norm_num⟩, ⟨60, by norm_num⟩⟩, ⟨⟨10, by norm_num⟩, ⟨20, by norm_num⟩⟩,
    ⟨⟨30, by norm_num⟩, ⟨40, by norm_num⟩⟩, ⟨⟨1, by norm_num⟩, ⟨0, by norm_num⟩⟩,
    ⟨⟨10, by norm_num⟩, ⟨0, by norm_num⟩⟩⟩

end Aggregate
