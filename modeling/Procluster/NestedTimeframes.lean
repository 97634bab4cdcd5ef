import Procluster.HistoryLoad
import Procluster.MergeApprox

/-!
Package history: the rows of two timeframes where the longer one is a multiple of the
shorter. Each is aggregated from the trades on its own; the candle times are nested, so
the longer candles carry the sums of the shorter ones, up to one rounding of every row.
-/
namespace HistoryLoad
open Aggregate
open LiveIngest (ClusterRow)

/- The start of a candle lies in a longer candle exactly if its trades do. -/
theorem nested_floor {fine coarse s start : ℤ} (positive : 0 < fine) (divides : fine ∣ coarse)
    (wide : 0 < coarse) (grid : coarse ∣ start) :
    s / coarse * coarse = start ↔ start ≤ s / fine * fine ∧ s / fine * fine < start + coarse := by
  obtain ⟨k, rfl⟩ := grid
  obtain ⟨n, rfl⟩ := divides
  have inside : s / (fine * n) * (fine * n) = fine * n * k ↔
      fine * n * k ≤ s ∧ s < fine * n * k + fine * n := by
    rw [Int.mul_comm, mul_right_inj' wide.ne', Int.ediv_eq_iff_of_pos wide, Int.mul_comm k]
  have below : fine * n * k ≤ s / fine * fine ↔ fine * n * k ≤ s := by
    rw [show fine * n * k = n * k * fine by ring, mul_le_mul_iff_left₀ positive, Int.le_ediv_iff_mul_le positive]
  have above : s / fine * fine < fine * n * k + fine * n ↔ s < fine * n * k + fine * n := by
    rw [show fine * n * k + fine * n = (n * k + n) * fine by ring, mul_lt_mul_iff_left₀ positive,
      Int.ediv_lt_iff_lt_mul positive]
  rw [inside, below, above]

def rowsWithin (rows : List ClusterRow) (tf : String) (ct length : ℤ) (bin : ℚ) : List ClusterRow :=
  rows.filter fun r => r.timeframe = tf ∧ (ct ≤ r.candleTime ∧ r.candleTime < ct + length) ∧ r.price = bin

def rowTimes (rows : List ClusterRow) (tf : String) (ct length : ℤ) (bin : ℚ) : List ℤ :=
  (rowsWithin rows tf ct length bin).map ClusterRow.candleTime

structure Consistent (rows : List ClusterRow) (tf₁ tf₂ : String) (length₂ ct : ℤ) (bin : ℚ) : Prop where
  present : (tf₂, ct, bin) ∈ rows.map rowKey ↔ rowsWithin rows tf₁ ct length₂ bin ≠ []
  bid : ∀ r ∈ rows, rowKey r = (tf₂, ct, bin) →
    |r.bid - ((rowsWithin rows tf₁ ct length₂ bin).map ClusterRow.bid).sum| ≤
      5 / 100 * ((rowsWithin rows tf₁ ct length₂ bin).length + 1)
  ask : ∀ r ∈ rows, rowKey r = (tf₂, ct, bin) →
    |r.ask - ((rowsWithin rows tf₁ ct length₂ bin).map ClusterRow.ask).sum| ≤
      5 / 100 * ((rowsWithin rows tf₁ ct length₂ bin).length + 1)

variable {rows : List ClusterRow}

theorem mem_rowTimes {tf : String} {start length c : ℤ} {bin : ℚ} : c ∈ rowTimes rows tf start length bin ↔
    (start ≤ c ∧ c < start + length) ∧ (tf, c, bin) ∈ rows.map rowKey := by
  rw [rowTimes, List.mem_map]
  constructor
  · rintro ⟨r, inside, rfl⟩
    obtain ⟨member, passes⟩ := List.mem_filter.mp inside
    obtain ⟨frame, window, price⟩ := of_decide_eq_true passes
    exact ⟨window, List.mem_map.mpr ⟨r, member, by rw [rowKey, frame, price]⟩⟩
  · rintro ⟨window, key⟩
    obtain ⟨r, member, same⟩ := List.mem_map.mp key
    simp only [rowKey, Prod.mk.injEq] at same
    obtain ⟨frame, rfl, price⟩ := same
    exact ⟨r, List.mem_filter.mpr ⟨member, decide_eq_true ⟨frame, window, price⟩⟩, rfl⟩

theorem rowTimes_nodup (once : (rows.map rowKey).Nodup) (tf : String) (start length : ℤ) (bin : ℚ) :
    (rowTimes rows tf start length bin).Nodup := by
  have keys : ((rowsWithin rows tf start length bin).map rowKey).Nodup :=
    once.sublist (List.filter_sublist.map rowKey)
  have times : (rowsWithin rows tf start length bin).map rowKey =
      (rowTimes rows tf start length bin).map fun c => (tf, c, bin) := by
    rw [rowTimes, List.map_map]
    apply List.map_congr_left
    intro r member
    obtain ⟨frame, -, price⟩ := of_decide_eq_true (List.mem_filter.mp member).2
    simp only [rowKey, frame, price, Function.comp_apply]
  rw [times] at keys
  exact List.Nodup.of_map _ keys

section Nested
variable {cfg : HistoryConfig} {trades : List Trade} (distinct : (trades.map Trade.tradeID).Nodup)
  (past : ∀ t ∈ trades, 0 ≤ t.tradeTimeMs) (handed : HandsOver exactly cfg trades rows)
  {tf₁ tf₂ : String} (listed₁ : tf₁ ∈ cfg.timeframes) (listed₂ : tf₂ ∈ cfg.timeframes)
  {length₁ length₂ : ℤ} (known₁ : tfSeconds tf₁ = some length₁) (known₂ : tfSeconds tf₂ = some length₂)
  (divides : length₁ ∣ length₂) {ct : ℤ} (candle : length₂ ∣ ct) (bin : ℚ)

include past known₁ known₂ divides candle in
theorem in_longer_candle {t : Trade} (member : t ∈ trades) : candleTimeUnix t.tradeTimeMs tf₂ = ct ↔
    ct ≤ candleTimeUnix t.tradeTimeMs tf₁ ∧ candleTimeUnix t.tradeTimeMs tf₁ < ct + length₂ := by
  rw [candleTimeUnix_of_nonneg known₁ (past t member), candleTimeUnix_of_nonneg known₂ (past t member)]
  exact nested_floor (tfSeconds_pos known₁) divides (tfSeconds_pos known₂) candle

include distinct past handed listed₁ known₁ known₂ divides candle

include listed₂ in
theorem longer_row_iff : (tf₂, ct, bin) ∈ rows.map rowKey ↔ rowsWithin rows tf₁ ct length₂ bin ≠ [] := by
  have some_time : rowsWithin rows tf₁ ct length₂ bin ≠ [] ↔ ∃ c, c ∈ rowTimes rows tf₁ ct length₂ bin := by
    constructor
    · intro some_row
      obtain ⟨r, inside⟩ := List.exists_mem_of_ne_nil _ some_row
      exact ⟨_, List.mem_map_of_mem inside⟩
    · rintro ⟨c, recorded⟩ empty
      rw [rowTimes, empty] at recorded
      cases recorded
  rw [handed_key_iff distinct handed, some_time, and_iff_right listed₂]
  constructor
  · rintro ⟨t, member, inside, same⟩
    refine ⟨candleTimeUnix t.tradeTimeMs tf₁, mem_rowTimes.mpr
      ⟨(in_longer_candle past known₁ known₂ divides candle member).mp inside, ?_⟩⟩
    exact (handed_key_iff distinct handed _ _ _).mpr ⟨listed₁, t, member, rfl, same⟩
  · rintro ⟨c, recorded⟩
    obtain ⟨window, key⟩ := mem_rowTimes.mp recorded
    obtain ⟨-, t, member, rfl, same⟩ := (handed_key_iff distinct handed _ _ _).mp key
    exact ⟨t, member, (in_longer_candle past known₁ known₂ divides candle member).mpr window, same⟩

theorem longer_sum_split (takes : Trade → Prop) [DecidablePred takes] :
    ∑ c ∈ (rowTimes rows tf₁ ct length₂ bin).toFinset, (∑ t ∈ trades.toFinset with
      candleTimeUnix t.tradeTimeMs tf₁ = c ∧ cfg.bin t = bin ∧ takes t, t.qty) =
    ∑ t ∈ trades.toFinset with
      candleTimeUnix t.tradeTimeMs tf₂ = ct ∧ cfg.bin t = bin ∧ takes t, t.qty := by
  have reached : ∀ t ∈ trades.toFinset.filter fun t => candleTimeUnix t.tradeTimeMs tf₂ = ct ∧
      cfg.bin t = bin ∧ takes t,
      candleTimeUnix t.tradeTimeMs tf₁ ∈ (rowTimes rows tf₁ ct length₂ bin).toFinset := by
    intro t inside
    obtain ⟨member, inside, same, -⟩ := Finset.mem_filter.mp inside
    have member := List.mem_toFinset.mp member
    rw [List.mem_toFinset, mem_rowTimes]
    exact ⟨(in_longer_candle past known₁ known₂ divides candle member).mp inside,
      (handed_key_iff distinct handed _ _ _).mpr ⟨listed₁, t, member, rfl, same⟩⟩
  rw [← Finset.sum_fiberwise_of_maps_to reached]
  apply Finset.sum_congr rfl
  intro c recorded
  obtain ⟨window, -⟩ := mem_rowTimes.mp (List.mem_toFinset.mp recorded)
  rw [Finset.filter_filter]
  apply Finset.sum_congr _ fun _ _ => rfl
  apply Finset.filter_congr
  intro t member
  rw [in_longer_candle past known₁ known₂ divides candle (List.mem_toFinset.mp member)]
  constructor
  · rintro ⟨rfl, rest⟩
    exact ⟨⟨window, rest⟩, rfl⟩
  · rintro ⟨⟨-, rest⟩, start⟩
    exact ⟨start, rest⟩

/- One side of the bin: one rounding for the sum and one for each of its parts. -/
theorem longer_side_near (side : ClusterRow → ℚ) (takes : Trade → Prop) [DecidablePred takes]
    (volume : ∀ r ∈ rows, side r = roundHalfUp (∑ t ∈ trades.toFinset with
      candleTimeUnix t.tradeTimeMs r.timeframe = r.candleTime ∧ cfg.bin t = r.price ∧ takes t, t.qty))
    {r : ClusterRow} (member : r ∈ rows) (key : rowKey r = (tf₂, ct, bin)) :
    |side r - ((rowsWithin rows tf₁ ct length₂ bin).map side).sum| ≤
      5 / 100 * ((rowsWithin rows tf₁ ct length₂ bin).length + 1) := by
  have once := rowTimes_nodup (handed_once distinct handed) tf₁ ct length₂ bin
  have parts : (rowsWithin rows tf₁ ct length₂ bin).map side = (rowTimes rows tf₁ ct length₂ bin).map
      fun c => roundHalfUp (∑ t ∈ trades.toFinset with
        candleTimeUnix t.tradeTimeMs tf₁ = c ∧ cfg.bin t = bin ∧ takes t, t.qty) := by
    rw [rowTimes, List.map_map]
    apply List.map_congr_left
    intro q inside
    obtain ⟨held, passes⟩ := List.mem_filter.mp inside
    obtain ⟨frame, -, price⟩ := of_decide_eq_true passes
    rw [volume q held, frame, price, Function.comp_apply]
  have near := rounded_parts_near (rowTimes rows tf₁ ct length₂ bin).toFinset fun c =>
    ∑ t ∈ trades.toFinset with candleTimeUnix t.tradeTimeMs tf₁ = c ∧ cfg.bin t = bin ∧ takes t, t.qty
  simp only [rowKey, Prod.mk.injEq] at key
  obtain ⟨frame, time, price⟩ := key
  rw [longer_sum_split distinct past handed listed₁ known₁ known₂ divides candle bin takes,
    List.toFinset_card_of_nodup once, rowTimes, List.length_map] at near
  rw [parts, ← List.sum_toFinset _ once, volume r member, frame, time, price, abs_sub_comm, rowTimes]
  norm_num at near ⊢
  exact near

include listed₂ in
/-- A longer candle has a row for a bin exactly if one of its shorter candles has, and
    its volumes are theirs up to a twentieth for each row and one for its own. -/
theorem timeframes_consistent : Consistent rows tf₁ tf₂ length₂ ct bin := by
  refine ⟨longer_row_iff distinct past handed listed₁ listed₂ known₁ known₂ divides candle bin, ?_, ?_⟩
  · intro r member key
    exact longer_side_near distinct past handed listed₁ known₁ known₂ divides candle bin ClusterRow.bid
      (fun t => t.isBuyerMaker) (fun q held => (handed_volumes distinct handed held).1) member key
  · intro r member key
    exact longer_side_near distinct past handed listed₁ known₁ known₂ divides candle bin ClusterRow.ask
      (fun t => ¬ t.isBuyerMaker) (fun q held => (handed_volumes distinct handed held).2) member key

end Nested

/- The bin 100 of a five-minute candle and of its two minutes. -/
theorem two_minutes_consistent :
    Consistent (allRows btcHistory (aggregate exactly btcHistory twoMinutes)) "1m" "5m" 300 0 100 := by
  have handed : HandsOver exactly btcHistory twoMinutes (allRows btcHistory (aggregate exactly btcHistory twoMinutes)) :=
    ⟨_, .refl _, rfl⟩
  exact timeframes_consistent (by decide) (by decide) handed (by decide) (by decide) rfl rfl (by decide)
    (by decide) 100

end HistoryLoad
