import Procluster.CandleEnds
import Procluster.Library.FloatRounding
import Procluster.LiveIngest
import Procluster.TradeCells

/-!
Package history: the rows that aggregateAndInsert makes of a day's trades. The nested
loop creates an aggregator for each candle of each timeframe when its first trade
comes; afterwards the map is read in any order. The rows are found for every arithmetic
of the aggregators, doubles among them.
-/
namespace HistoryLoad
open Aggregate KeyedFold CandleEnds FloatRounding
open LiveIngest (ClusterRow)

structure HistoryConfig where
  symbol : String
  market : String
  tickSize : ℚ
  compression : UInt32
  timeframes : List String

@[ext] structure CandleKey where
  candleTime : ℤ
  tf : String
  deriving DecidableEq

abbrev AggMap := List (CandleKey × Aggregator)

def candleKey (t : Trade) (tf : String) : CandleKey := ⟨candleTimeUnix t.tradeTimeMs tf, tf⟩

/-- A double is the number that is printed for it. -/
def doubles : Arithmetic where
  bin price tickSize compression :=
    let binSize := fmul compression.toNat tickSize
    shortest (fmul ⌊fdiv price binSize⌋ binSize)
  plus a b := shortest (fadd a b)

section Loop
variable (arith : Arithmetic)

def processInto (cfg : HistoryConfig) (t : Trade) (tf : String) (agg : Option Aggregator) : Aggregator :=
  (processTradeBy arith
    (agg.getD (newAggregator cfg.symbol cfg.market tf cfg.tickSize cfg.compression)) t).1

def aggregate (cfg : HistoryConfig) (trades : List Trade) : AggMap :=
  trades.foldl (fun aggMap t => cfg.timeframes.foldl (fun aggMap tf =>
    upsert (candleKey t tf) (processInto arith cfg t tf) aggMap) aggMap) []

end Loop

/-- The open and close price are read after the Flush, which leaves them. -/
def rowsOf (cfg : HistoryConfig) (key : CandleKey) (agg : Aggregator) : List ClusterRow :=
  let (cells, agg) := flush agg
  cells.map fun c => ⟨cfg.symbol, key.tf, key.candleTime, c.price, c.bid, c.ask, openPrice agg,
    closePrice agg⟩

/-- The rows in the order in which the loop found the entries of the map. -/
def allRows (cfg : HistoryConfig) (entries : AggMap) : List ClusterRow :=
  entries.flatMap fun p => rowsOf cfg p.1 p.2

/-- Rows that aggregateAndInsert may hand to BatchInsert. -/
def HandsOver (arith : Arithmetic) (cfg : HistoryConfig) (trades : List Trade) (rows : List ClusterRow) :
    Prop := ∃ entries, entries.Perm (aggregate arith cfg trades) ∧ rows = allRows cfg entries

def rowKey (r : ClusterRow) : String × ℤ × ℚ := (r.timeframe, r.candleTime, r.price)

def HistoryConfig.binBy (arith : Arithmetic) (cfg : HistoryConfig) (t : Trade) : ℚ :=
  arith.tradeBin cfg.tickSize cfg.compression t

def HistoryConfig.bin (cfg : HistoryConfig) (t : Trade) : ℚ := tradeBin cfg.tickSize cfg.compression t

def inCandle (trades : List Trade) (key : CandleKey) : List Trade :=
  trades.filter fun t => candleTimeUnix t.tradeTimeMs key.tf = key.candleTime

/-- The row of a bin: its volumes, added up in the order of the trades, and the ends of its
    whole candle. -/
structure RowOf (arith : Arithmetic) (cfg : HistoryConfig) (trades : List Trade) (r : ClusterRow) :
    Prop where
  symbol : r.symbol = cfg.symbol
  bid : r.bid = roundHalfUp (runningSum arith.plus (cfg.binBy arith) true
    (inCandle trades ⟨r.candleTime, r.timeframe⟩) r.price)
  ask : r.ask = roundHalfUp (runningSum arith.plus (cfg.binBy arith) false
    (inCandle trades ⟨r.candleTime, r.timeframe⟩) r.price)
  opened : ∃ t ∈ inCandle trades ⟨r.candleTime, r.timeframe⟩, r.openPrice = t.price ∧
    ∀ u ∈ inCandle trades ⟨r.candleTime, r.timeframe⟩, t.tradeID ≤ u.tradeID
  closed : ∃ t ∈ inCandle trades ⟨r.candleTime, r.timeframe⟩, r.closePrice = t.price ∧
    ∀ u ∈ inCandle trades ⟨r.candleTime, r.timeframe⟩, u.tradeID ≤ t.tradeID

structure SpecifiedRows (arith : Arithmetic) (cfg : HistoryConfig) (trades : List Trade)
    (rows : List ClusterRow) : Prop where
  once : (rows.map rowKey).Nodup
  keys : ∀ tf ct p, (tf, ct, p) ∈ rows.map rowKey ↔
    tf ∈ cfg.timeframes ∧ ∃ t ∈ trades, candleTimeUnix t.tradeTimeMs tf = ct ∧ cfg.binBy arith t = p
  each : ∀ r ∈ rows, RowOf arith cfg trades r

theorem aggregate_eq (arith : Arithmetic) (cfg : HistoryConfig) (trades : List Trade) :
    aggregate arith cfg trades = gather (fun p : Trade × String => candleKey p.1 p.2)
      (fun p => processInto arith cfg p.1 p.2)
      (trades.flatMap fun t => cfg.timeframes.map fun tf => (t, tf)) := by
  simp only [aggregate, gather, List.foldl_flatMap, List.foldl_map]

theorem aggregate_keys_nodup (arith : Arithmetic) (cfg : HistoryConfig) (trades : List Trade) :
    (keys (aggregate arith cfg trades)).Nodup := by
  rw [aggregate_eq]
  exact gather_keys_nodup _ _ _

theorem candleKey_eq (t : Trade) (tf : String) (key : CandleKey) :
    candleKey t tf = key ↔ candleTimeUnix t.tradeTimeMs key.tf = key.candleTime ∧ tf = key.tf := by
  obtain ⟨time, name⟩ := key
  simp only [candleKey, CandleKey.mk.injEq]
  constructor
  · rintro ⟨same, rfl⟩
    exact ⟨same, rfl⟩
  · rintro ⟨same, rfl⟩
    exact ⟨same, rfl⟩

/- The trades that reach a candle: each of its trades once for every time its timeframe
   is listed. -/
theorem reaching_trades (cfg : HistoryConfig) (trades : List Trade) (key : CandleKey) :
    ((trades.flatMap fun t => cfg.timeframes.map fun tf => (t, tf)).filter fun p =>
      candleKey p.1 p.2 = key) =
      ((inCandle trades key).flatMap fun t => List.replicate (cfg.timeframes.count key.tf) t).map
        fun t => (t, key.tf) := by
  induction trades with
  | nil => rfl
  | cons t trades ih =>
    rw [List.flatMap_cons, List.filter_append, ih]
    by_cases inside : candleTimeUnix t.tradeTimeMs key.tf = key.candleTime
    · have own : ((cfg.timeframes.map fun tf => (t, tf)).filter fun p => candleKey p.1 p.2 = key) =
          List.replicate (cfg.timeframes.count key.tf) (t, key.tf) := by
        simp only [List.filter_map, Function.comp_def, candleKey_eq, inside, true_and]
        rw [List.filter_eq, List.map_replicate]
      have held : inCandle (t :: trades) key = t :: inCandle trades key :=
        List.filter_cons_of_pos (by simpa using inside)
      rw [own, held, List.flatMap_cons, List.map_append, List.map_replicate]
    · have own : ((cfg.timeframes.map fun tf => (t, tf)).filter fun p => candleKey p.1 p.2 = key) = [] := by
        simp [List.filter_map, Function.comp_def, candleKey_eq, inside]
      have held : inCandle (t :: trades) key = inCandle trades key :=
        List.filter_cons_of_neg (by simpa using inside)
      rw [own, held, List.nil_append]

theorem fold_processInto (arith : Arithmetic) (cfg : HistoryConfig) (tf : String) (trades : List Trade) :
    ((trades.map fun t => (t, tf)).foldl (fun b p => some (processInto arith cfg p.1 p.2 b)) none) =
      if trades = [] then none else
        some (feed arith (newAggregator cfg.symbol cfg.market tf cfg.tickSize cfg.compression) trades) := by
  induction trades using List.reverseRecOn with
  | nil => rfl
  | append_singleton trades t ih =>
    rw [List.map_append, List.foldl_append, ih, if_neg (List.append_ne_nil_of_right_ne_nil _ (by simp)),
      feed_append_one]
    by_cases first : trades = []
    · subst first
      rfl
    · rw [if_neg first]
      rfl

theorem find_aggregate (arith : Arithmetic) (cfg : HistoryConfig) (trades : List Trade) (key : CandleKey) :
    find key (aggregate arith cfg trades) =
      if key.tf ∈ cfg.timeframes ∧ inCandle trades key ≠ [] then
        some (feed arith (newAggregator cfg.symbol cfg.market key.tf cfg.tickSize cfg.compression)
          ((inCandle trades key).flatMap fun t => List.replicate (cfg.timeframes.count key.tf) t))
      else none := by
  rw [aggregate_eq, find_gather, reaching_trades, fold_processInto]
  have reached : (inCandle trades key).flatMap (fun t => List.replicate (cfg.timeframes.count key.tf) t) = [] ↔
      ¬ (key.tf ∈ cfg.timeframes ∧ inCandle trades key ≠ []) := by
    rw [List.flatMap_eq_nil_iff, not_and_or, not_not]
    constructor
    · intro empty
      by_cases listed : key.tf ∈ cfg.timeframes
      · right
        by_contra some
        obtain ⟨t, inside⟩ := List.exists_mem_of_ne_nil _ some
        have count : cfg.timeframes.count key.tf = 0 := by simpa using congrArg List.length (empty t inside)
        exact List.count_eq_zero.mp count listed
      · exact .inl listed
    · rintro (unlisted | nothing) t inside
      · rw [List.count_eq_zero_of_not_mem unlisted, List.replicate_zero]
      · rw [nothing] at inside
        cases inside
  by_cases some : key.tf ∈ cfg.timeframes ∧ inCandle trades key ≠ []
  · rw [if_pos some, if_neg (fun empty => reached.mp empty some)]
  · rw [if_neg some, if_pos (reached.mpr some)]

theorem ends_ascending {arith : Arithmetic} {tickSize : ℚ} {comp : UInt32} {agg : Aggregator} {held : List Trade}
    (holds : Holds arith tickSize comp agg held) (ascending : held.Pairwise fun t u => t.tradeID < u.tradeID)
    (some : held ≠ []) :
    (∃ t ∈ held, agg.firstTradePrice = t.price ∧ ∀ u ∈ held, t.tradeID ≤ u.tradeID) ∧
      ∃ t ∈ held, agg.lastTradePrice = t.price ∧ ∀ u ∈ held, u.tradeID ≤ t.tradeID := by
  constructor
  · obtain ⟨t, later, rfl⟩ := List.exists_cons_of_ne_nil some
    refine ⟨t, List.mem_cons_self, holds.opened t rfl, ?_⟩
    intro u hu
    rcases List.mem_cons.mp hu with rfl | after
    · exact le_rfl
    · exact ((List.pairwise_cons.mp ascending).1 u after).le
  · obtain ⟨earlier, t, split⟩ := (List.eq_nil_or_concat held).resolve_left some
    rw [List.concat_eq_append] at split
    subst split
    refine ⟨t, by simp, holds.closed t (by simp), ?_⟩
    intro u hu
    rcases List.mem_append.mp hu with before | last
    · exact ((List.pairwise_append.mp ascending).2.2 u before t (by simp)).le
    · rw [List.mem_singleton.mp last]

/- The aggregator of an entry holds the first of each trade id that reached it. -/
theorem entry_fed {arith : Arithmetic} {cfg : HistoryConfig} {trades : List Trade}
    {p : CandleKey × Aggregator} (member : p ∈ aggregate arith cfg trades) :
    p.1.tf ∈ cfg.timeframes ∧ inCandle trades p.1 ≠ [] ∧
      Holds arith cfg.tickSize cfg.compression p.2 (firsts Trade.tradeID
        ((inCandle trades p.1).flatMap fun t => List.replicate (cfg.timeframes.count p.1.tf) t)) := by
  have found := find_of_mem (aggregate_keys_nodup arith cfg trades) member
  rw [find_aggregate] at found
  split at found
  · rename_i reached
    have holds := holds_feed (holds_new arith cfg.symbol cfg.market p.1.tf cfg.tickSize cfg.compression)
      ((inCandle trades p.1).flatMap fun t => List.replicate (cfg.timeframes.count p.1.tf) t)
    rw [Option.some.inj found] at holds
    exact ⟨reached.1, reached.2, holds⟩
  · cases found

theorem rowsOf_bookBy {arith : Arithmetic} {cfg : HistoryConfig} {key : CandleKey} {agg : Aggregator}
    {held : List Trade} (holds : Holds arith cfg.tickSize cfg.compression agg held) :
    rowsOf cfg key agg = (bookBy arith.plus (cfg.binBy arith) held).map fun c =>
      ⟨cfg.symbol, key.tf, key.candleTime, c.price, c.bid, c.ask, agg.firstTradePrice,
        agg.lastTradePrice⟩ := by
  have cells : agg.currentCells = bookBy arith.plus (cfg.binBy arith) held := currentCells_bookBy holds.cells
  simp only [rowsOf, flush, openPrice, closePrice, cells]

theorem rowsOf_book {cfg : HistoryConfig} {key : CandleKey} {agg : Aggregator} {held : List Trade}
    (holds : Holds exactly cfg.tickSize cfg.compression agg held) :
    rowsOf cfg key agg = (book cfg.bin held).map fun c =>
      ⟨cfg.symbol, key.tf, key.candleTime, c.price, c.bid, c.ask, agg.firstTradePrice,
        agg.lastTradePrice⟩ := by
  rw [← bookBy_exact]
  exact rowsOf_bookBy holds

section Distinct
variable {arith : Arithmetic} {cfg : HistoryConfig} {trades : List Trade}
  (distinct : (trades.map Trade.tradeID).Nodup)
include distinct

theorem entry_holds {p : CandleKey × Aggregator} (member : p ∈ aggregate arith cfg trades) :
    p.1.tf ∈ cfg.timeframes ∧ inCandle trades p.1 ≠ [] ∧
      Holds arith cfg.tickSize cfg.compression p.2 (inCandle trades p.1) := by
  obtain ⟨listed, reached, holds⟩ := entry_fed member
  refine ⟨listed, reached, ?_⟩
  have apart : ((inCandle trades p.1).map Trade.tradeID).Nodup :=
    distinct.sublist (List.filter_sublist.map Trade.tradeID)
  obtain ⟨n, count⟩ := Nat.exists_eq_succ_of_ne_zero (List.count_pos_iff.mpr listed).ne'
  rw [count, firsts_repeated apart] at holds
  exact holds

theorem rowsOf_entry {p : CandleKey × Aggregator} (member : p ∈ aggregate arith cfg trades) :
    (rowsOf cfg p.1 p.2).map rowKey = (((inCandle trades p.1).map (cfg.binBy arith)).toFinset.sort).map
      fun bin => (p.1.tf, p.1.candleTime, bin) := by
  obtain ⟨-, -, holds⟩ := entry_holds distinct member
  rw [rowsOf_bookBy holds, ← bookBy_prices arith.plus, List.map_map, List.map_map]
  rfl

theorem row_volumes {p : CandleKey × Aggregator} (member : p ∈ aggregate arith cfg trades) {r : ClusterRow}
    (row : r ∈ rowsOf cfg p.1 p.2) :
    r.bid = roundHalfUp (runningSum arith.plus (cfg.binBy arith) true
        (inCandle trades ⟨r.candleTime, r.timeframe⟩) r.price) ∧
      r.ask = roundHalfUp (runningSum arith.plus (cfg.binBy arith) false
        (inCandle trades ⟨r.candleTime, r.timeframe⟩) r.price) := by
  obtain ⟨-, -, holds⟩ := entry_holds distinct member
  rw [rowsOf_bookBy holds] at row
  obtain ⟨c, hc, rfl⟩ := List.mem_map.mp row
  have sums := ((mem_bookBy arith.plus (cfg.binBy arith)).mp hc).2
  exact ⟨congrArg ClusterCell.bid sums, congrArg ClusterCell.ask sums⟩

theorem handed_keys {entries : AggMap} (perm : entries.Perm (aggregate arith cfg trades)) :
    (allRows cfg entries).map rowKey = entries.flatMap fun p =>
      (((inCandle trades p.1).map (cfg.binBy arith)).toFinset.sort).map
        fun bin => (p.1.tf, p.1.candleTime, bin) := by
  rw [allRows, List.map_flatMap]
  exact List.flatMap_congr fun p hp => rowsOf_entry distinct (perm.mem_iff.mp hp)

theorem handed_once {rows : List ClusterRow} (handed : HandsOver arith cfg trades rows) :
    (rows.map rowKey).Nodup := by
  obtain ⟨entries, perm, rfl⟩ := handed
  rw [handed_keys distinct perm, List.nodup_flatMap]
  constructor
  · intro p _
    exact (Finset.sort_nodup _ _).map fun a b same => by simpa using same
  · have apart : (entries.map Prod.fst).Nodup := (perm.map Prod.fst).nodup_iff.mpr
      (aggregate_keys_nodup arith cfg trades)
    refine (List.pairwise_map.mp apart).imp ?_
    intro p q differ
    rw [Function.onFun, List.disjoint_left]
    intro x hp hq
    obtain ⟨a, -, rfl⟩ := List.mem_map.mp hp
    obtain ⟨b, -, same⟩ := List.mem_map.mp hq
    simp only [Prod.mk.injEq] at same
    exact differ (CandleKey.ext same.2.1.symm same.1.symm)

theorem handed_keyBy_iff {rows : List ClusterRow} (handed : HandsOver arith cfg trades rows) (tf : String)
    (ct : ℤ) (bin : ℚ) : (tf, ct, bin) ∈ rows.map rowKey ↔
      tf ∈ cfg.timeframes ∧ ∃ t ∈ trades, candleTimeUnix t.tradeTimeMs tf = ct ∧ cfg.binBy arith t = bin := by
  obtain ⟨entries, perm, rfl⟩ := handed
  rw [handed_keys distinct perm, List.mem_flatMap]
  constructor
  · rintro ⟨p, hp, inside⟩
    obtain ⟨b, hit, same⟩ := List.mem_map.mp inside
    obtain ⟨rfl, rfl, rfl⟩ : p.1.tf = tf ∧ p.1.candleTime = ct ∧ b = bin := by simpa using same
    obtain ⟨t, ht, rfl⟩ := List.mem_map.mp (List.mem_toFinset.mp ((Finset.mem_sort _).mp hit))
    obtain ⟨inside, falls⟩ := List.mem_filter.mp ht
    exact ⟨(entry_holds distinct (perm.mem_iff.mp hp)).1, t, inside, by simpa using falls, rfl⟩
  · rintro ⟨listedTf, t, inside, rfl, rfl⟩
    have own : t ∈ inCandle trades (candleKey t tf) := List.mem_filter.mpr ⟨inside, by simp [candleKey]⟩
    have found := find_aggregate arith cfg trades (candleKey t tf)
    rw [if_pos ⟨listedTf, List.ne_nil_of_mem own⟩] at found
    refine ⟨_, perm.mem_iff.mpr (mem_of_find found), List.mem_map.mpr ⟨cfg.binBy arith t, ?_, rfl⟩⟩
    rw [Finset.mem_sort, List.mem_toFinset]
    exact List.mem_map_of_mem own

theorem handed_key_iff {rows : List ClusterRow} (handed : HandsOver exactly cfg trades rows) (tf : String)
    (ct : ℤ) (bin : ℚ) : (tf, ct, bin) ∈ rows.map rowKey ↔
      tf ∈ cfg.timeframes ∧ ∃ t ∈ trades, candleTimeUnix t.tradeTimeMs tf = ct ∧ cfg.bin t = bin :=
  handed_keyBy_iff distinct handed tf ct bin

theorem handed_volumes {rows : List ClusterRow} (handed : HandsOver exactly cfg trades rows) {r : ClusterRow}
    (member : r ∈ rows) :
    r.bid = roundHalfUp (∑ t ∈ trades.toFinset with
      candleTimeUnix t.tradeTimeMs r.timeframe = r.candleTime ∧ cfg.bin t = r.price ∧ t.isBuyerMaker, t.qty) ∧
    r.ask = roundHalfUp (∑ t ∈ trades.toFinset with
      candleTimeUnix t.tradeTimeMs r.timeframe = r.candleTime ∧ cfg.bin t = r.price ∧ ¬ t.isBuyerMaker, t.qty) := by
  obtain ⟨entries, perm, rfl⟩ := handed
  obtain ⟨p, hp, row⟩ := List.mem_flatMap.mp member
  obtain ⟨bid, ask⟩ := row_volumes distinct (perm.mem_iff.mp hp) row
  let held := inCandle trades ⟨r.candleTime, r.timeframe⟩
  have apart : held.Nodup :=
    List.Nodup.of_map Trade.tradeID (distinct.sublist (List.filter_sublist.map Trade.tradeID))
  have whole : held.toFinset =
      trades.toFinset.filter fun t => candleTimeUnix t.tradeTimeMs r.timeframe = r.candleTime := by
    simp [held, inCandle, List.toFinset_filter]
  have sums : ∀ maker, runningSum exactly.plus (cfg.binBy exactly) maker held r.price =
      ∑ t ∈ trades.toFinset with candleTimeUnix t.tradeTimeMs r.timeframe = r.candleTime ∧
        cfg.bin t = r.price ∧ t.isBuyerMaker = maker, t.qty := by
    intro maker
    rw [← Finset.filter_filter, ← whole, ← sideSum_toFinset cfg.bin maker apart]
    exact sideFold_exact maker _
  rw [sums] at bid ask
  exact ⟨bid, by simpa using ask⟩

end Distinct

section Sorted
variable {arith : Arithmetic} {cfg : HistoryConfig} {trades : List Trade}
  (sorted : trades.Pairwise fun t u => t.tradeID < u.tradeID)
include sorted

omit arith cfg in
theorem ids_distinct : (trades.map Trade.tradeID).Nodup := List.pairwise_map.mpr (sorted.imp ne_of_lt)

theorem handed_row {rows : List ClusterRow} (handed : HandsOver arith cfg trades rows) {r : ClusterRow}
    (member : r ∈ rows) : RowOf arith cfg trades r := by
  obtain ⟨entries, perm, rfl⟩ := handed
  obtain ⟨p, hp, row⟩ := List.mem_flatMap.mp member
  obtain ⟨bid, ask⟩ := row_volumes (ids_distinct sorted) (perm.mem_iff.mp hp) row
  obtain ⟨-, some, holds⟩ := entry_holds (ids_distinct sorted) (perm.mem_iff.mp hp)
  have ascending : (inCandle trades p.1).Pairwise fun t u => t.tradeID < u.tradeID :=
    sorted.sublist List.filter_sublist
  obtain ⟨opened, closed⟩ := ends_ascending holds ascending some
  rw [rowsOf_bookBy holds] at row
  obtain ⟨c, -, rfl⟩ := List.mem_map.mp row
  exact ⟨rfl, bid, ask, opened, closed⟩

/-- aggregateAndInsert hands over one row for each bin of each candle that some trade
    falls into, with the volumes of the bin and the ends of the candle. -/
theorem rows_specified {rows : List ClusterRow} (handed : HandsOver arith cfg trades rows) :
    SpecifiedRows arith cfg trades rows where
  once := handed_once (ids_distinct sorted) handed
  keys := handed_keyBy_iff (ids_distinct sorted) handed
  each _ member := handed_row sorted handed member

end Sorted

def btcHistory : HistoryConfig := ⟨"BTCUSDT", "futures", 1 / 10, 25, ["1m", "5m", "1m"]⟩

def twoMinutes : List Trade :=
  [⟨1, 100, 3 / 2, 0, true⟩, ⟨2, 101, 1, 59999, false⟩, ⟨5, 104, 2, 60000, true⟩]

/- Three trades of two minutes, with a timeframe listed twice. -/
theorem two_minutes_specified : SpecifiedRows doubles btcHistory twoMinutes
    (allRows btcHistory (aggregate doubles btcHistory twoMinutes)) :=
  rows_specified (by decide +kernel) ⟨_, .refl _, rfl⟩

def threeMakers : List Trade :=
  [⟨1, 100, 24 / 100, 0, true⟩, ⟨2, 100, 23 / 100, 1, true⟩, ⟨3, 100, 8 / 100, 2, true⟩]

/- The running sum is 0.5499999999999999 and the row has 0.5, the sum is 0.55. -/
theorem three_makers_cut : ¬ ∀ rows, HandsOver doubles btcHistory threeMakers rows →
    ∀ r ∈ rows, r.bid = roundHalfUp (∑ t ∈ threeMakers.toFinset with
      candleTimeUnix t.tradeTimeMs r.timeframe = r.candleTime ∧ btcHistory.binBy doubles t = r.price ∧
        t.isBuyerMaker, t.qty) := by
  intro exact_sums
  have row : (⟨"BTCUSDT", "1m", 0, 100, 1 / 2, 0, 100, 100⟩ : ClusterRow) ∈
      allRows btcHistory (aggregate doubles btcHistory threeMakers) := by decide +kernel
  have sum := exact_sums _ ⟨_, .refl _, rfl⟩ _ row
  revert sum
  decide +kernel

end HistoryLoad
