import Procluster.Library.DecimalText
import Procluster.TradeCells

/-!
Base clusters merged into a higher compression against an aggregator that ran at that
compression. Both have the same bins, because the floors nest, and a merged cell is off
by the roundings of the at most groupSize cells below it and of its own sum.
-/
namespace Aggregate
open KeyedFold QueryCandles DecimalText

theorem digits_half_up (a : ℚ) :
    (let d1 := ⌊10 * a⌋ % 10
     let d2 := ⌊100 * a⌋ % 10
     let d1 := if 5 ≤ d2 then d1 + 1 else d1
     if 10 ≤ d1 then ((⌊a⌋ + 1 : ℤ) : ℚ) else (⌊a⌋ : ℚ) + (d1 : ℚ) / 10) = (⌊10 * a + 1 / 2⌋ : ℚ) / 10 := by
  have tens := Int.floor_div_natCast (100 * a) 10
  have units := Int.floor_div_natCast (100 * a) 100
  have half := Int.floor_div_natCast (100 * a + (5 : ℤ)) 10
  rw [Int.floor_add_intCast] at half
  rw [show 100 * a / ((10 : ℕ) : ℚ) = 10 * a by push_cast; ring] at tens
  rw [show 100 * a / ((100 : ℕ) : ℚ) = a by push_cast; ring] at units
  rw [show (100 * a + (5 : ℤ)) / ((10 : ℕ) : ℚ) = 10 * a + 1 / 2 by push_cast; ring] at half
  rw [tens, units, half]
  generalize ⌊100 * a⌋ = m
  dsimp only
  split_ifs with up carry carry'
  · have whole : 10 * (m / 100 + 1) = (m + 5) / 10 := by omega
    have cast : (10 : ℚ) * ((m / 100 + 1 : ℤ) : ℚ) = ((m + 5) / 10 : ℤ) := by exact_mod_cast whole
    push_cast at cast ⊢
    linarith
  · have whole : 10 * (m / 100) + (m / ((10 : ℕ) : ℤ) % 10 + 1) = (m + 5) / 10 := by omega
    have cast : (10 : ℚ) * (m / 100 : ℤ) + ((m / ((10 : ℕ) : ℤ) % 10 + 1 : ℤ) : ℚ) = ((m + 5) / 10 : ℤ) := by
      exact_mod_cast whole
    push_cast at cast ⊢
    linarith
  · omega
  · have whole : 10 * (m / 100) + m / ((10 : ℕ) : ℤ) % 10 = (m + 5) / 10 := by omega
    have cast : (10 : ℚ) * (m / 100 : ℤ) + ((m / ((10 : ℕ) : ℤ) % 10 : ℤ) : ℚ) = ((m + 5) / 10 : ℤ) := by
      exact_mod_cast whole
    push_cast at cast ⊢
    linarith

/- The digits are those of a tenth at or next to the magnitude, so RoundHalfUp is the
   nearest tenth, a tie going away from zero. -/
theorem roundHalfUp_eq (v : ℚ) : roundHalfUp v = (roundHalfAway (10 * v) : ℚ) / 10 := by
  by_cases whole : (10 * |v|).den = 1
  · have integer := Rat.coe_int_num_of_den_eq_one whole
    obtain ⟨k, rfl⟩ : Tenths v := by
      rcases abs_choice v with same | flipped
      · exact ⟨(10 * |v|).num, by rw [integer, same]; ring⟩
      · exact ⟨-(10 * |v|).num, by rw [Int.cast_neg, integer, flipped]; ring⟩
    rw [roundHalfUp_tenths ⟨k, rfl⟩, show 10 * ((k : ℚ) / 10) = k by ring,
      nearest_intCast roundHalfAway_near]
  · have nonzero : v ≠ 0 := by
      rintro rfl
      exact whole (by simp)
    unfold roundHalfUp roundHalfAway
    rw [if_neg nonzero]
    rcases lt_or_ge v 0 with negative | positive
    · rw [abs_of_neg negative] at whole
      have tenfold : 10 * v < 0 := by linarith
      have digits := digits_half_up (-v)
      simp only [negative, tenfold, whole, ↓reduceIte] at digits ⊢
      rw [← mul_neg, Int.cast_neg, neg_div, ← digits]
      split_ifs <;> ring
    · rw [abs_of_nonneg positive] at whole
      have tenfold : ¬ 10 * v < 0 := by linarith
      have digits := digits_half_up v
      simp only [positive.not_gt, tenfold, whole, ↓reduceIte] at digits ⊢
      rw [← digits]
      split_ifs <;> ring

theorem roundHalfUp_near (v : ℚ) : |v - roundHalfUp v| ≤ 1 / 20 := by
  have near := roundHalfAway_near (10 * v)
  rw [roundHalfUp_eq, show v - (roundHalfAway (10 * v) : ℚ) / 10 =
    (10 * v - roundHalfAway (10 * v)) / 10 by ring, abs_div, abs_of_pos (by norm_num : (0 : ℚ) < 10)]
  linarith

theorem tenths_roundHalfUp (v : ℚ) : Tenths (roundHalfUp v) := ⟨roundHalfAway (10 * v), roundHalfUp_eq v⟩

theorem rounded_parts_near {Part : Type*} (parts : Finset Part) (amount : Part → ℚ) :
    |(∑ q ∈ parts, roundHalfUp (amount q)) - roundHalfUp (∑ q ∈ parts, amount q)| ≤
      1 / 20 * (parts.card + 1) := by
  have each : |(∑ q ∈ parts, roundHalfUp (amount q)) - ∑ q ∈ parts, amount q| ≤ parts.card * (1 / 20) := by
    rw [← Finset.sum_sub_distrib, ← nsmul_eq_mul]
    apply (Finset.abs_sum_le_sum_abs _ _).trans
    apply Finset.sum_le_card_nsmul
    intro q _
    rw [abs_sub_comm]
    exact roundHalfUp_near (amount q)
  have whole := roundHalfUp_near (∑ q ∈ parts, amount q)
  have both := abs_sub_le (∑ q ∈ parts, roundHalfUp (amount q)) (∑ q ∈ parts, amount q)
    (roundHalfUp (∑ q ∈ parts, amount q))
  linarith

theorem sideSum_of_bins (bin : Trade → ℚ) (coarse : ℚ → ℚ) (maker : Bool) (p : ℚ) {bins : Finset ℚ}
    {trades : List Trade} (hit : ∀ t ∈ trades, bin t ∈ bins) :
    ∑ q ∈ bins with coarse q = p, sideSum bin maker trades q =
      sideSum (fun t => coarse (bin t)) maker trades p := by
  induction trades with
  | nil => simp [sideSum]
  | cons t trades ih =>
    have own : ∀ (b : Trade → ℚ) (q : ℚ), sideSum b maker (t :: trades) q =
        (if b t = q then (if t.isBuyerMaker = maker then t.qty else 0) else 0) + sideSum b maker trades q := by
      intro b q
      by_cases same : b t = q
      · simp [sideSum, same]
      · simp [sideSum, same]
    simp only [own, Finset.sum_add_distrib, ih fun u hu => hit u (by simp [hu])]
    congr 1
    rw [Finset.sum_ite_eq]
    simp [hit t (by simp)]

section Listed
variable (newBin : ℚ → ℚ)

def cellSum (maker : Bool) (cells : List ClusterCell) (p : ℚ) : ℚ :=
  ((cells.filter fun c => newBin c.price = p).map (side maker)).sum

def mergedAt (cells : List ClusterCell) (p : ℚ) : ClusterCell :=
  ⟨p, cellSum newBin true cells p, cellSum newBin false cells p⟩

variable {newBin}

theorem find_mergedTable {cells : List ClusterCell} {p : ℚ} {cell : ClusterCell}
    (found : find p (mergedTable newBin cells) = some cell) : cell = mergedAt newBin cells p := by
  have sums : ∀ maker, side maker cell = cellSum newBin maker cells p := by
    intro maker
    refine weight_gather (side maker) (side maker) ?_ ?_ found
    · intro c
      cases maker <;> simp [addCell, side]
    · intro c d
      cases maker <;> simp [addCell, side]
  have price := mergedTable_price newBin cells _ (mem_of_find found)
  cases cell
  exact ClusterCell.mk.injEq .. ▸ ⟨price, sums true, sums false⟩

theorem mergeInto_listed (cells : List ClusterCell) : mergeInto newBin cells =
    ((cells.map fun c => newBin c.price).toFinset.sort).map fun p => roundCell (mergedAt newBin cells p) := by
  have perm := List.perm_insertionSort (fun c d : ClusterCell => c.price ≤ d.price)
    ((mergedTable newBin cells).map fun p => roundCell p.2)
  rw [mergeInto_eq]
  exact sorted_gather (fun _ => rfl) (fun _ _ found => find_mergedTable found) perm
    (List.pairwise_insertionSort _ _)

end Listed

section Merge
variable {groupSize : UInt32} {tick : ℚ} {base : UInt32}

theorem cellSum_book (bin : Trade → ℚ) (maker : Bool) (trades : List Trade) (p : ℚ) :
    cellSum (coarseBin groupSize tick base) maker (book bin trades) p =
      ∑ q ∈ (trades.map bin).toFinset with coarseBin groupSize tick base q = p,
        roundHalfUp (sideSum bin maker trades q) := by
  have rounded : ∀ q, side maker (roundCell (cellAt bin trades q)) =
      roundHalfUp (sideSum bin maker trades q) := by
    intro q
    cases maker <;> rfl
  have listed := List.sum_toFinset (fun q => roundHalfUp (sideSum bin maker trades q))
    ((Finset.sort_nodup (trades.map bin).toFinset (· ≤ ·)).filter fun q =>
      coarseBin groupSize tick base q = p)
  rw [List.toFinset_filter, Finset.sort_toFinset] at listed
  simp only [decide_eq_true_eq] at listed
  rw [listed, cellSum, book, List.filter_map, List.map_map]
  congr 1
  exact List.map_congr_left fun q _ => rounded q

/- The floors nest: the base bin of a price lies in the bin that the price falls into. -/
theorem coarseBin_bin {comp : UInt32} (product : comp.toNat = groupSize.toNat * base.toNat)
    (positive : 0 < tick) (based : base ≠ 0) (t : Trade) :
    coarseBin groupSize tick base (tradeBin tick base t) = tradeBin tick comp t := by
  have width : (0 : ℚ) < base.toNat * tick :=
    mul_pos (by exact_mod_cast UInt32.pos_iff_ne_zero.mpr based) positive
  simp only [coarseBin, tradeBin, binPriceLow, product, Nat.cast_mul, mul_assoc]
  generalize (base.toNat : ℚ) * tick = w at width
  rw [mul_comm (groupSize.toNat : ℚ) w, mul_comm _ w, ← div_div, ← div_div,
    mul_div_cancel_left₀ _ width.ne', Int.floor_div_natCast, Int.floor_div_natCast, Int.floor_intCast]

theorem fine_bins_card (positive : 0 < tick) (based : base ≠ 0) (some_group : groupSize ≠ 0)
    (bins : Finset ℚ) (grid : ∀ q ∈ bins, ∃ k : ℤ, q = k * ((base.toNat : ℚ) * tick)) (p : ℚ) :
    (bins.filter fun q => coarseBin groupSize tick base q = p).card ≤ groupSize.toNat := by
  have width : (0 : ℚ) < base.toNat * tick :=
    mul_pos (by exact_mod_cast UInt32.pos_iff_ne_zero.mpr based) positive
  have group : (0 : ℚ) < groupSize.toNat := by exact_mod_cast UInt32.pos_iff_ne_zero.mpr some_group
  simp only [coarseBin, mul_assoc]
  generalize (base.toNat : ℚ) * tick = w at grid width
  have number : ∀ k : ℤ, ⌊(k : ℚ) * w / w⌋ = k := fun k => by
    rw [mul_div_cancel_right₀ _ width.ne', Int.floor_intCast]
  have below : ∀ q ∈ bins.filter (fun q => (⌊q / (groupSize.toNat * w)⌋ : ℚ) * (groupSize.toNat * w) = p),
      ⌊q / w⌋ ∈ Finset.Ico (⌊p / (groupSize.toNat * w)⌋ * groupSize.toNat)
        (⌊p / (groupSize.toNat * w)⌋ * groupSize.toNat + groupSize.toNat) := by
    intro q hq
    obtain ⟨inside, lies⟩ := Finset.mem_filter.mp hq
    obtain ⟨k, rfl⟩ := grid q inside
    have quotient : ⌊p / (groupSize.toNat * w)⌋ = k / groupSize.toNat := by
      rw [← lies, mul_div_cancel_right₀ _ (mul_pos group width).ne', Int.floor_intCast,
        mul_comm (groupSize.toNat : ℚ) w, ← div_div, mul_div_cancel_right₀ _ width.ne',
        Int.floor_div_natCast, Int.floor_intCast]
    rw [number, quotient, Finset.mem_Ico]
    have size : (0 : ℤ) < groupSize.toNat := by exact_mod_cast group
    have low := Int.ediv_mul_le k size.ne'
    have high := Int.lt_ediv_add_one_mul_self k size
    constructor
    · exact low
    · linarith
  have apart : Set.InjOn (fun q : ℚ => ⌊q / w⌋)
      (bins.filter fun q => (⌊q / (groupSize.toNat * w)⌋ : ℚ) * (groupSize.toNat * w) = p) := by
    intro q hq r hr same
    obtain ⟨k, rfl⟩ := grid q (Finset.mem_filter.mp hq).1
    obtain ⟨m, rfl⟩ := grid r (Finset.mem_filter.mp hr).1
    simp only [number] at same
    rw [same]
  have counted := Finset.card_le_card_of_injOn _ below apart
  simpa [Int.card_Ico] using counted

theorem merged_side_near {comp : UInt32} (product : comp.toNat = groupSize.toNat * base.toNat)
    (positive : 0 < tick) (based : base ≠ 0) (some_group : groupSize ≠ 0) (maker : Bool)
    (trades : List Trade) (p : ℚ) :
    |roundHalfUp (cellSum (coarseBin groupSize tick base) maker (book (tradeBin tick base) trades) p) -
        roundHalfUp (sideSum (tradeBin tick comp) maker trades p)| ≤ 1 / 20 * (groupSize.toNat + 1) := by
  have coarse : (fun t => coarseBin groupSize tick base (tradeBin tick base t)) = tradeBin tick comp :=
    funext (coarseBin_bin product positive based)
  have whole : sideSum (tradeBin tick comp) maker trades p =
      ∑ q ∈ (trades.map (tradeBin tick base)).toFinset with coarseBin groupSize tick base q = p,
        sideSum (tradeBin tick base) maker trades q := by
    rw [sideSum_of_bins (tradeBin tick base) (coarseBin groupSize tick base) maker p, coarse]
    exact fun t inside => List.mem_toFinset.mpr (List.mem_map_of_mem inside)
  have grid : ∀ q ∈ (trades.map (tradeBin tick base)).toFinset,
      ∃ k : ℤ, q = k * ((base.toNat : ℚ) * tick) := by
    intro q hq
    obtain ⟨t, -, rfl⟩ := List.mem_map.mp (List.mem_toFinset.mp hq)
    exact ⟨_, rfl⟩
  have few := fine_bins_card positive based some_group _ grid p
  have near := rounded_parts_near ((trades.map (tradeBin tick base)).toFinset.filter fun q =>
    coarseBin groupSize tick base q = p) (sideSum (tradeBin tick base) maker trades)
  have sums : Tenths (cellSum (coarseBin groupSize tick base) maker (book (tradeBin tick base) trades) p) := by
    apply tenths_sum
    intro x hx
    obtain ⟨c, hc, rfl⟩ := List.mem_map.mp hx
    rw [((mem_book _).mp (List.mem_of_mem_filter hc)).2]
    cases maker <;> exact tenths_roundHalfUp _
  rw [roundHalfUp_tenths sums, cellSum_book, whole]
  have bound : (((trades.map (tradeBin tick base)).toFinset.filter fun q =>
      coarseBin groupSize tick base q = p).card : ℚ) ≤ groupSize.toNat := by exact_mod_cast few
  linarith

theorem merged_bins_eq {comp : UInt32} (product : comp.toNat = groupSize.toNat * base.toNat)
    (positive : 0 < tick) (based : base ≠ 0) (trades : List Trade) :
    ((book (tradeBin tick base) trades).map fun c => coarseBin groupSize tick base c.price).toFinset =
      (trades.map (tradeBin tick comp)).toFinset := by
  have prices := congrArg (List.map (coarseBin groupSize tick base)) (book_prices (tradeBin tick base) trades)
  rw [List.map_map] at prices
  ext p
  rw [List.mem_toFinset, List.mem_toFinset]
  change p ∈ (book (tradeBin tick base) trades).map (coarseBin groupSize tick base ∘ ClusterCell.price) ↔ _
  rw [prices]
  simp only [List.mem_map, Finset.mem_sort, List.mem_toFinset]
  constructor
  · rintro ⟨q, ⟨t, inside, rfl⟩, rfl⟩
    exact ⟨t, inside, (coarseBin_bin product positive based t).symm⟩
  · rintro ⟨t, inside, rfl⟩
    exact ⟨_, ⟨t, inside, rfl⟩, coarseBin_bin product positive based t⟩

/-- Merged base clusters have the prices of an aggregation at the higher compression, and
    each volume within a twentieth for every cell below it and one more. -/
theorem merge_near_direct {groupSize base comp : UInt32} {tick : ℚ} (positive : 0 < tick)
    (based : 1 ≤ base) (grouped : 1 ≤ groupSize) (product : comp.toNat = groupSize.toNat * base.toNat)
    (symbol market tf : String) (trades : List Trade) :
    let merged := mergeCells (flush (feed exactly (newAggregator symbol market tf tick base) trades)).1
      groupSize tick base
    let direct := (flush (feed exactly (newAggregator symbol market tf tick comp) trades)).1
    merged.map ClusterCell.price = direct.map ClusterCell.price ∧
      List.Forall₂ (fun c d => |c.bid - d.bid| ≤ (1 / 20 : ℚ) * (groupSize.toNat + 1) ∧
        |c.ask - d.ask| ≤ (1 / 20 : ℚ) * (groupSize.toNat + 1)) merged direct := by
  intro merged direct
  have some_base : base ≠ 0 := UInt32.pos_iff_ne_zero.mp (UInt32.lt_of_lt_of_le (by decide) based)
  have some_group : groupSize ≠ 0 :=
    UInt32.pos_iff_ne_zero.mp (UInt32.lt_of_lt_of_le (by decide) grouped)
  have fine := currentCells_book (holds_book (holds_feed (holds_new exactly symbol market tf tick base) trades))
  have coarse := currentCells_book (holds_book (holds_feed (holds_new exactly symbol market tf tick comp) trades))
  generalize firsts Trade.tradeID trades = held at fine coarse
  have lists : direct = ((held.map (tradeBin tick comp)).toFinset.sort).map fun p =>
      roundCell (cellAt (tradeBin tick comp) held p) := coarse
  have listed : merged = (((book (tradeBin tick base) held).map fun c =>
      coarseBin groupSize tick base c.price).toFinset.sort).map fun p =>
        roundCell (mergedAt (coarseBin groupSize tick base) (book (tradeBin tick base) held) p) := by
    rw [← mergeInto_listed, ← mergeCells_eq tick base some_group, ← fine]
    rfl
  rw [merged_bins_eq product positive some_base held] at listed
  rw [listed, lists]
  constructor
  · simp [roundCell, mergedAt, cellAt, Function.comp_def]
  · rw [List.forall₂_map_left_iff, List.forall₂_map_right_iff, List.forall₂_same]
    intro p _
    exact ⟨merged_side_near product positive some_base some_group true held p,
      merged_side_near product positive some_base some_group false held p⟩

/- Two trades of 0.04 in two bins of one group: nothing left of them in the merge of the
   base cells, 0.1 in the direct aggregation. -/
theorem small_volumes_merged :
    let trades : List Trade := [⟨1, 100, 1 / 25, 0, true⟩, ⟨2, 103, 1 / 25, 1, true⟩]
    List.Forall₂ (fun c d : ClusterCell => |c.bid - d.bid| ≤ (1 / 20 : ℚ) * ((2 : UInt32).toNat + 1) ∧
        |c.ask - d.ask| ≤ (1 / 20 : ℚ) * ((2 : UInt32).toNat + 1))
      (mergeCells (flush (feed exactly (newAggregator "BTCUSDT" "futures" "1m" (1 / 10) 25) trades)).1 2 (1 / 10) 25)
      (flush (feed exactly (newAggregator "BTCUSDT" "futures" "1m" (1 / 10) 50) trades)).1 := by
  intro trades
  have product : (50 : UInt32).toNat = (2 : UInt32).toNat * (25 : UInt32).toNat := by decide
  have tick : (0 : ℚ) < 1 / 10 := by norm_num
  exact (merge_near_direct tick (by decide) (by decide) product "BTCUSDT" "futures" "1m" trades).2

end Merge

end Aggregate
