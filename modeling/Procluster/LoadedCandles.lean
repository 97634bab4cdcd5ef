import Procluster.DailyLoads
import Procluster.LiveAndLoaded
import Procluster.MergeApprox

/-!
From trades to the candles of a query. The rows of a history load are stored as tenths and
read back by QueryCandles; where the values are tenths already and the row limit falls on
the end of a candle, every candle is again the book of its trades, in exact arithmetic.
-/
namespace LoadedCandles
open Aggregate KeyedFold NewestFirst QueryCandles HistoryLoad TableMerges DailyLoads
open LiveIngest (ClusterRow)

/-- The lowest price, the highest one and the two ends, read off the trades. -/
structure CandleOf (cfg : HistoryConfig) (held : List Trade) (c : ClusterCandle) : Prop where
  cells : c.cells = book cfg.bin held
  opened : ∃ t ∈ held, c.openPrice = t.price ∧ ∀ u ∈ held, t.tradeID ≤ u.tradeID
  closed : ∃ t ∈ held, c.close = t.price ∧ ∀ u ∈ held, u.tradeID ≤ t.tradeID
  low : (∃ t ∈ held, cfg.bin t = c.low) ∧ ∀ t ∈ held, c.low ≤ cfg.bin t
  high : (∃ t ∈ held, cfg.bin t = c.high) ∧ ∀ t ∈ held, cfg.bin t ≤ c.high
  volume : c.volume = ((book cfg.bin held).map fun cell => cell.bid + cell.ask).sum
  delta : c.delta = round1 ((book cfg.bin held).map fun cell => cell.ask - cell.bid).sum

section Ends

theorem acc_ends {rows : List ScanRow} {acc : CandleAcc} {o c : ℚ}
    (opens : ∀ r ∈ rows, r.openPrice = o ∧ r.closePrice = c)
    (built : rows.foldl (fun acc r => some (addRow r acc)) none = some acc) :
    acc.hasOpen = true ∧ acc.openPrice = o ∧ acc.closePrice = c := by
  induction rows using List.reverseRecOn generalizing acc with
  | nil => cases built
  | append_singleton rows r ih =>
    simp only [List.foldl_append, List.foldl_cons, List.foldl_nil, Option.some.injEq] at built
    subst acc
    obtain ⟨openPrice, closePrice⟩ := opens r (by simp)
    cases earlier : rows.foldl (fun acc r => some (addRow r acc)) none with
    | none => simp [addRow, newAcc, openPrice, closePrice]
    | some acc =>
      obtain ⟨hasOpen, same, same'⟩ := ih (fun x hx => opens x (by simp [hx])) earlier
      simp [addRow, hasOpen, same, same']

theorem finish_ends {acc : CandleAcc} {first last : ClusterCell} {cells : List ClusterCell}
    (sorted : (acc.candle.cells.insertionSort fun c d => c.price ≤ d.price) = cells)
    (head : cells.head? = some first) (tail : cells.getLast? = some last)
    (opens : 0 < acc.openPrice) (closes : 0 < acc.closePrice) :
    (finish acc).low = first.price ∧ (finish acc).high = last.price ∧
      (finish acc).openPrice = acc.openPrice ∧ (finish acc).close = acc.closePrice := by
  simp only [finish, sorted, head, tail, opens, closes, ↓reduceIte, and_self]

end Ends

section Built
variable {bin : Trade → ℚ} {held : List Trade}

theorem sorted_book {cells : List ClusterCell} (perm : cells.Perm (book bin held))
    (sorted : cells.Pairwise fun c d => c.price ≤ d.price) : cells = book bin held := by
  have ascending := book_ascending bin held
  refine perm.eq_of_pairwise ?_ sorted (ascending.imp le_of_lt)
  intro c d hc hd below above
  have prices : ((book bin held).map ClusterCell.price).Nodup :=
    (List.pairwise_map.mpr ascending).imp ne_of_lt
  exact List.inj_on_of_nodup_map prices (perm.mem_iff.mp hc) hd (le_antisymm below above)

theorem cell_listed {t : Trade} (trade : t ∈ held) :
    roundCell (cellAt bin held (bin t)) ∈ book bin held :=
  (mem_book bin).mpr ⟨List.mem_map_of_mem trade, rfl⟩

theorem book_ends {first last : ClusterCell} (head : (book bin held).head? = some first)
    (tail : (book bin held).getLast? = some last) :
    ((∃ t ∈ held, bin t = first.price) ∧ ∀ t ∈ held, first.price ≤ bin t) ∧
      (∃ t ∈ held, bin t = last.price) ∧ ∀ t ∈ held, bin t ≤ last.price := by
  have hit : ∀ c ∈ book bin held, ∃ t ∈ held, bin t = c.price :=
    fun c hc => List.mem_map.mp ((mem_book bin).mp hc).1
  have listed : ∀ t ∈ held, ∃ c ∈ book bin held, c.price = bin t :=
    fun t ht => ⟨_, cell_listed ht, rfl⟩
  have ascending := book_ascending bin held
  refine ⟨⟨hit first (List.mem_of_mem_head? head), ?_⟩, hit last (List.mem_of_mem_getLast? tail), ?_⟩
  · intro t ht
    obtain ⟨c, hc, price⟩ := listed t ht
    obtain ⟨rest, split⟩ := List.head?_eq_some_iff.mp head
    rw [split] at hc ascending
    rcases List.mem_cons.mp hc with rfl | later
    · exact price.le
    · exact price ▸ ((List.pairwise_cons.mp ascending).1 c later).le
  · intro t ht
    obtain ⟨c, hc, price⟩ := listed t ht
    obtain ⟨front, split⟩ := List.getLast?_eq_some_iff.mp tail
    rw [split] at hc ascending
    rcases List.mem_append.mp hc with earlier | same
    · exact price ▸ ((List.pairwise_append.mp ascending).2.2 c earlier last (by simp)).le
    · rw [← price, List.mem_singleton.mp same]

def readRow (t : ℤ) (o c : ℚ) (cell : ClusterCell) : ScanRow := ⟨t, cell.price, cell.bid, cell.ask, o, c⟩

theorem candle_built {rows : List ScanRow} {c : ClusterCandle} (member : c ∈ groupRows rows) {o cl : ℚ}
    (own : (rowsAt rows c.time).Perm ((book bin held).map (readRow c.time o cl)))
    (opens : 0 < o) (closes : 0 < cl) (some : held ≠ []) :
    c.cells = book bin held ∧ c.openPrice = o ∧ c.close = cl ∧
      ((∃ t ∈ held, bin t = c.low) ∧ ∀ t ∈ held, c.low ≤ bin t) ∧
      ((∃ t ∈ held, bin t = c.high) ∧ ∀ t ∈ held, bin t ≤ c.high) ∧
      c.volume = round1 ((book bin held).map fun cell => cell.bid + cell.ask).sum ∧
      c.delta = round1 ((book bin held).map fun cell => cell.ask - cell.bid).sum := by
  obtain ⟨perm, volume, delta⟩ := candle_of_rows member
  obtain ⟨p, inside, made⟩ := List.mem_map.mp (List.mem_reverse.mp member)
  have holds := acc_of_table inside
  have time : c.time = p.1 := by rw [← made, finish_time, holds.time]
  have found := find_of_mem (gather_keys_nodup _ _ _) inside
  rw [find_gather] at found
  obtain ⟨-, openPrice, closePrice⟩ := acc_ends (o := o) (c := cl) (by
    intro r hr
    obtain ⟨cell, -, rfl⟩ := List.mem_map.mp (own.mem_iff.mp (time ▸ hr))
    exact ⟨rfl, rfl⟩) found
  have cells : c.cells = book bin held := by
    apply sorted_book
    · refine perm.trans ((own.map ScanRow.cell).trans ?_)
      rw [List.map_map]
      exact .of_eq (List.map_id _)
    · rw [← made, finish_cells]
      exact List.pairwise_insertionSort _ _
  obtain ⟨t, trade⟩ := List.exists_mem_of_ne_nil _ some
  have shown : book bin held ≠ [] := List.ne_nil_of_mem (cell_listed trade)
  obtain ⟨first, head⟩ := Option.ne_none_iff_exists'.mp (List.head?_eq_none_iff.not.mpr shown)
  obtain ⟨last, tail⟩ := Option.ne_none_iff_exists'.mp (List.getLast?_eq_none_iff.not.mpr shown)
  have sorted : (p.2.candle.cells.insertionSort fun c d => c.price ≤ d.price) = book bin held := by
    rw [← cells, ← made, finish_cells]
  obtain ⟨low, high, opened, closed⟩ := finish_ends sorted head tail (openPrice ▸ opens) (closePrice ▸ closes)
  rw [made] at low high opened closed
  have ends := book_ends head tail
  rw [← low, ← high] at ends
  refine ⟨cells, opened.trans openPrice, closed.trans closePrice, ends.1, ends.2, ?_, ?_⟩
  · rw [volume, volumeAt, (own.map _).sum_eq, List.map_map]
    rfl
  · rw [delta, deltaAt, (own.map _).sum_eq, List.map_map]
    rfl

end Built

section Stored
variable {tenthsOf : ℚ → ℤ} {cfg : HistoryConfig} {trades : List Trade}

theorem roundHalfUp_nonneg {v : ℚ} (nonneg : 0 ≤ v) : 0 ≤ roundHalfUp v := by
  have positive : ¬ 10 * v < 0 := by
    rw [not_lt]
    positivity
  rw [Aggregate.roundHalfUp_eq, DecimalText.roundHalfAway, if_neg positive]
  have floor : (0 : ℤ) ≤ ⌊10 * v + 1 / 2⌋ := Int.floor_nonneg.mpr (by positivity)
  positivity

theorem sideSum_nonneg (bin : Trade → ℚ) (maker : Bool) {held : List Trade}
    (quantities : ∀ t ∈ held, 0 ≤ t.qty) (p : ℚ) : 0 ≤ sideSum bin maker held p := by
  apply List.sum_nonneg
  intro q hq
  obtain ⟨t, inside, rfl⟩ := List.mem_map.mp hq
  split
  · exact quantities t (List.mem_of_mem_filter inside)
  · exact le_rfl

/- The volumes of a book are whole tenths and not negative, so the reader keeps their sum. -/
theorem round1_volume (bin : Trade → ℚ) {held : List Trade} (quantities : ∀ t ∈ held, 0 ≤ t.qty) :
    round1 ((book bin held).map fun cell => cell.bid + cell.ask).sum =
      ((book bin held).map fun cell => cell.bid + cell.ask).sum := by
  have sides : ∀ cell ∈ book bin held, Tenths (cell.bid + cell.ask) ∧ 0 ≤ cell.bid + cell.ask := by
    intro cell inside
    have rounded := ((mem_book bin).mp inside).2
    have bid : cell.bid = roundHalfUp (sideSum bin true held cell.price) := by rw [rounded]; rfl
    have ask : cell.ask = roundHalfUp (sideSum bin false held cell.price) := by rw [rounded]; rfl
    obtain ⟨k, hk⟩ := Aggregate.tenths_roundHalfUp (sideSum bin true held cell.price)
    obtain ⟨m, hm⟩ := Aggregate.tenths_roundHalfUp (sideSum bin false held cell.price)
    refine ⟨⟨k + m, ?_⟩, ?_⟩
    · rw [bid, ask, hk, hm]
      push_cast
      ring
    · rw [bid, ask]
      exact add_nonneg (roundHalfUp_nonneg (sideSum_nonneg bin true quantities _))
        (roundHalfUp_nonneg (sideSum_nonneg bin false quantities _))
  refine (round1_tenths (tenths_sum ?_)).mpr (List.sum_nonneg ?_)
  · intro x hx
    obtain ⟨cell, inside, rfl⟩ := List.mem_map.mp hx
    exact (sides cell inside).1
  · intro x hx
    obtain ⟨cell, inside, rfl⟩ := List.mem_map.mp hx
    exact (sides cell inside).2

def KeepsTenths (tenthsOf : ℚ → ℤ) : Prop := ∀ k : ℤ, tenthsOf (k / 10) = k

theorem kept_tenths (keeps : KeepsTenths tenthsOf) {v : ℚ} (tenths : Tenths v) :
    toFloat64 (tenthsOf v) = v := by
  obtain ⟨k, rfl⟩ := tenths
  rw [keeps k]
  rfl

/-- Prices that a decimal column holds as they are, and the bins as well. -/
structure Priced (cfg : HistoryConfig) (t : Trade) : Prop where
  positive : 0 < t.price
  price : Tenths t.price
  bin : Tenths (cfg.bin t)
  qty : 0 ≤ t.qty

theorem scan_store (keeps : KeepsTenths tenthsOf) {r : ClusterRow} (price : Tenths r.price)
    (bid : Tenths r.bid) (ask : Tenths r.ask) (opened : Tenths r.openPrice) (closed : Tenths r.closePrice) :
    scan (store tenthsOf r) = ⟨r.candleTime, r.price, r.bid, r.ask, r.openPrice, r.closePrice⟩ := by
  simp only [scan, store, kept_tenths keeps price, kept_tenths keeps bid, kept_tenths keeps ask,
    kept_tenths keeps opened, kept_tenths keeps closed]

theorem candle_read (keeps : KeepsTenths tenthsOf) (sorted : trades.Pairwise fun t u => t.tradeID < u.tradeID)
    (priced : ∀ t ∈ trades, Priced cfg t) {rows : List ClusterRow} (handed : HandsOver exactly cfg trades rows)
    {key : CandleKey} (listed : key.tf ∈ cfg.timeframes) (some : inCandle trades key ≠ []) :
    ∃ first ∈ inCandle trades key, ∃ last ∈ inCandle trades key,
      (∀ u ∈ inCandle trades key, first.tradeID ≤ u.tradeID) ∧
      (∀ u ∈ inCandle trades key, u.tradeID ≤ last.tradeID) ∧
      ((rows.filter fun r => (⟨r.candleTime, r.timeframe⟩ : CandleKey) = key).map fun r =>
        scan (store tenthsOf r)) =
        (book cfg.bin (inCandle trades key)).map (readRow key.candleTime first.price last.price) := by
  have found := find_aggregate exactly cfg trades key
  rw [if_pos ⟨listed, some⟩] at found
  obtain ⟨-, -, holds⟩ := entry_holds (ids_distinct sorted) (mem_of_find found)
  have ascending : (inCandle trades key).Pairwise fun t u => t.tradeID < u.tradeID :=
    sorted.sublist List.filter_sublist
  obtain ⟨⟨first, hf, opened, early⟩, last, hl, closed, late⟩ := ends_ascending holds ascending some
  have inside : ∀ t ∈ inCandle trades key, Priced cfg t :=
    fun t ht => priced t (List.mem_of_mem_filter ht)
  refine ⟨first, hf, last, hl, early, late, ?_⟩
  obtain ⟨entries, perm, rfl⟩ := handed
  rw [LiveAndLoaded.candle_rows perm found, rowsOf_book holds, List.map_map, opened, closed]
  apply List.map_congr_left
  intro cell hc
  obtain ⟨hit, rounded⟩ := (mem_book cfg.bin).mp hc
  obtain ⟨t, ht, price⟩ := List.mem_map.mp hit
  have bid : cell.bid = roundHalfUp (sideSum cfg.bin true (inCandle trades key) cell.price) := by
    rw [rounded]; rfl
  have ask : cell.ask = roundHalfUp (sideSum cfg.bin false (inCandle trades key) cell.price) := by
    rw [rounded]; rfl
  have binTenths : Tenths cell.price := price ▸ (inside t ht).bin
  have bidTenths : Tenths cell.bid := bid ▸ Aggregate.tenths_roundHalfUp _
  have askTenths : Tenths cell.ask := ask ▸ Aggregate.tenths_roundHalfUp _
  exact scan_store keeps binTenths bidTenths askTenths (inside first hf).price (inside last hl).price

end Stored

section ReadBack
variable {tenthsOf : ℚ → ℤ} {cfg : HistoryConfig} {trades : List Trade}

def candleTimes (trades : List Trade) (tf : String) (beforeSec : ℤ) : List ℤ :=
  (trades.map fun t => candleTimeUnix t.tradeTimeMs tf).filter fun ct => 0 < beforeSec → ct < beforeSec

theorem matching_loaded {s s' : Engine} {now : ℤ} {rows : List ClusterRow}
    (absent : ∀ x ∈ s.parts (tableOf cfg.market), x.row.symbol ≠ cfg.symbol)
    (symbols : ∀ r ∈ rows, r.symbol = cfg.symbol)
    (insert : step tenthsOf s (.batchInsert cfg.market rows now) = some s') (tf : String) (beforeSec : ℤ)
    (maxCandles : ℕ) :
    matching (database s'.parts) (buildQuery cfg.market cfg.symbol tf beforeSec maxCandles) =
      (rows.filter fun r => r.timeframe = tf ∧ (0 < beforeSec → r.candleTime < beforeSec)).map
        (store tenthsOf) := by
  obtain ⟨stored, made, rfl⟩ := Option.map_eq_some_iff.mp insert
  obtain ⟨-, rfl⟩ := mapM_store.mp made
  have table : (buildQuery cfg.market cfg.symbol tf beforeSec maxCandles).table = tableOf cfg.market := rfl
  have before : ∀ ct : ℤ, (∀ b ∈ (buildQuery cfg.market cfg.symbol tf beforeSec maxCandles).before, ct < b) ↔
      (0 < beforeSec → ct < beforeSec) := by
    intro ct
    by_cases positive : 0 < beforeSec <;> simp [buildQuery, positive]
  rw [matching, database_rows, table]
  simp only [Engine.append, Function.update_self, List.map_append, List.filter_append, before]
  have old : ((s.parts (tableOf cfg.market)).map TableRow.row).filter (fun r =>
      r.symbol = cfg.symbol ∧ r.timeframe = tf ∧ (0 < beforeSec → r.candleTime < beforeSec)) = [] := by
    apply List.filter_eq_nil_iff.mpr
    intro r hr
    obtain ⟨x, hx, rfl⟩ := List.mem_map.mp hr
    simp [absent x hx]
  have fresh : (((rows.map (store tenthsOf)).map fun r => (⟨r, now⟩ : TableRow)).map TableRow.row) =
      rows.map (store tenthsOf) := by
    rw [List.map_map]
    exact List.map_id _
  change ((s.parts (tableOf cfg.market)).map TableRow.row).filter (fun r =>
    decide (r.symbol = cfg.symbol ∧ r.timeframe = tf ∧ (0 < beforeSec → r.candleTime < beforeSec))) ++ _ = _
  rw [old, fresh, List.nil_append, List.filter_map]
  congr 1
  apply List.filter_congr
  intro r hr
  simp [store, buildQuery, symbols r hr]

theorem newest_congr {xs ys : List ℤ} (same : ∀ t, t ∈ xs ↔ t ∈ ys) (n : ℕ) : newest xs n = newest ys n := by
  have times : ascending xs = ascending ys := ascending_unique (ascending_strict xs) (ascending_strict ys)
    fun t => mem_ascending.trans ((same t).trans mem_ascending.symm)
  rw [newest, newest, times]

theorem loaded_times (distinct : (trades.map Trade.tradeID).Nodup) {rows : List ClusterRow}
    (handed : HandsOver exactly cfg trades rows) {tf : String}
    (listed : tf ∈ cfg.timeframes) (beforeSec ct : ℤ) :
    ct ∈ (((rows.filter fun r => r.timeframe = tf ∧ (0 < beforeSec → r.candleTime < beforeSec)).map
      (store tenthsOf)).map scan).map ScanRow.ts ↔ ct ∈ candleTimes trades tf beforeSec := by
  simp only [candleTimes, List.mem_map, List.mem_filter, decide_eq_true_eq]
  constructor
  · rintro ⟨-, ⟨-, ⟨r, ⟨inside, rfl, early⟩, rfl⟩, rfl⟩, rfl⟩
    obtain ⟨-, t, trade, falls, -⟩ := (handed_key_iff distinct handed _ _ _).mp (List.mem_map_of_mem inside)
    exact ⟨⟨t, trade, falls⟩, early⟩
  · rintro ⟨⟨t, trade, rfl⟩, early⟩
    obtain ⟨r, inside, key⟩ := List.mem_map.mp
      ((handed_key_iff distinct handed tf _ (cfg.bin t)).mpr ⟨listed, t, trade, rfl, rfl⟩)
    obtain ⟨timeframe, time, -⟩ : r.timeframe = tf ∧ r.candleTime = _ ∧ r.price = _ := by
      simpa [rowKey] using key
    exact ⟨_, ⟨_, ⟨r, ⟨inside, timeframe, time ▸ early⟩, rfl⟩, rfl⟩, time⟩

theorem rows_read {rows : List ClusterRow} {tf : String} {beforeSec ct : ℤ}
    (early : 0 < beforeSec → ct < beforeSec) :
    rowsAt (((rows.filter fun r => r.timeframe = tf ∧ (0 < beforeSec → r.candleTime < beforeSec)).map
      (store tenthsOf)).map scan) ct =
      (rows.filter fun r => (⟨r.candleTime, r.timeframe⟩ : CandleKey) = ⟨ct, tf⟩).map fun r =>
        scan (store tenthsOf r) := by
  rw [rowsAt_scan, List.filter_map, List.map_map, List.filter_filter]
  congr 1
  apply List.filter_congr
  intro r _
  by_cases here : r.candleTime = ct
  · subst here
    have apart : beforeSec ≤ 0 ∨ r.candleTime < beforeSec := by omega
    simp [store, apart]
  · simp [store, here]

/-- The candles of a load come back as the candles of its trades: the newest of them, oldest first,
    each with the book of its trades, the prices of its first and last trade as open and close
    and its lowest and highest bin as low and high. -/
theorem loaded_candles_read_back (keeps : KeepsTenths tenthsOf)
    (sorted : trades.Pairwise fun t u => t.tradeID < u.tradeID) (priced : ∀ t ∈ trades, Priced cfg t)
    {rows : List ClusterRow} (handed : HandsOver exactly cfg trades rows) {s s' : Engine} {now : ℤ}
    (absent : ∀ x ∈ s.parts (tableOf cfg.market), x.row.symbol ≠ cfg.symbol)
    (insert : step tenthsOf s (.batchInsert cfg.market rows now) = some s') {tf : String}
    (listed : tf ∈ cfg.timeframes) {beforeSec : ℤ} {maxCandles : ℕ} {answer : List StoredRow}
    (answers : Answers (database s'.parts) (buildQuery cfg.market cfg.symbol tf beforeSec maxCandles) answer)
    (fits : LimitFits ((matching (database s'.parts)
      (buildQuery cfg.market cfg.symbol tf beforeSec maxCandles)).map scan)
      (maxCandles * 50 % 2 ^ 32) maxCandles) :
    (queryCandles answer).map ClusterCandle.time = newest (candleTimes trades tf beforeSec) maxCandles ∧
      ∀ c ∈ queryCandles answer, CandleOf cfg (inCandle trades ⟨c.time, tf⟩) c := by
  have loaded := matching_loaded absent (fun r hr => (handed_row sorted handed hr).symbol) insert tf beforeSec
    maxCandles
  obtain ⟨ordered, perm, descending, rfl⟩ := answers
  rw [loaded] at perm fits
  have scanned := perm.map scan
  have falling : (ordered.map scan).Pairwise fun r s => s.ts ≤ r.ts := List.pairwise_map.mpr descending
  have times := whole_times scanned falling maxCandles (maxCandles * 50 % 2 ^ 32) fits
  have limit : (buildQuery cfg.market cfg.symbol tf beforeSec maxCandles).limit.toNat =
      maxCandles * 50 % 2 ^ 32 := rfl
  rw [queryCandles, List.map_take, limit]
  refine ⟨times.trans (newest_congr (loaded_times (ids_distinct sorted) handed listed beforeSec) maxCandles), ?_⟩
  intro c member
  have recent := times ▸ List.mem_map_of_mem member
  have own := rowsAt_cut scanned falling maxCandles (maxCandles * 50 % 2 ^ 32) fits recent
  have inside := (loaded_times (ids_distinct sorted) handed listed beforeSec c.time).mp (mem_of_newest recent)
  obtain ⟨traded, early⟩ := List.mem_filter.mp inside
  obtain ⟨t, trade, falls⟩ := List.mem_map.mp traded
  have some : inCandle trades ⟨c.time, tf⟩ ≠ [] :=
    List.ne_nil_of_mem (List.mem_filter.mpr ⟨trade, decide_eq_true falls⟩)
  obtain ⟨first, hf, last, hl, opened, closed, read⟩ :=
    candle_read keeps sorted priced handed listed some
  rw [rows_read (of_decide_eq_true early), read] at own
  have price : ∀ t ∈ inCandle trades ⟨c.time, tf⟩, Priced cfg t :=
    fun t ht => priced t (List.mem_of_mem_filter ht)
  obtain ⟨cells, openPrice, close, low, high, volume, delta⟩ :=
    candle_built member own (price first hf).positive (price last hl).positive some
  rw [round1_volume cfg.bin fun t ht => (price t ht).qty] at volume
  exact ⟨cells, ⟨first, hf, openPrice, opened⟩, ⟨last, hl, close, closed⟩, low, high, volume, delta⟩

end ReadBack

theorem nearestTenth_keeps : KeepsTenths nearestTenth := by
  intro k
  have ten : 10 * ((k : ℚ) / 10) = k := by ring
  rw [nearestTenth, ten, DecimalText.roundHalfAway]
  split
  · rw [← Int.cast_neg, Int.floor_intCast_add]
    norm_num
  · rw [Int.floor_intCast_add]
    norm_num

def minutesQuery : Query := buildQuery "futures" "BTCUSDT" "1m" 0 2

def minutesLoaded : Engine := empty.append .clustersFutures
  (((allRows btcHistory (aggregate exactly btcHistory twoMinutes)).map (store nearestTenth)).map fun r => ⟨r, 1⟩)

theorem two_minutes_read_back : ∃ answer,
    Answers (database minutesLoaded.parts) minutesQuery answer ∧
      (queryCandles answer).map ClusterCandle.time = newest (candleTimes twoMinutes "1m" 0) 2 ∧
      ∀ c ∈ queryCandles answer, CandleOf btcHistory (inCandle twoMinutes ⟨c.time, "1m"⟩) c := by
  have insert : step nearestTenth empty
      (.batchInsert "futures" (allRows btcHistory (aggregate exactly btcHistory twoMinutes)) 1) =
        some minutesLoaded :=
    Option.map_eq_some_iff.mpr ⟨_, mapM_store.mpr ⟨by decide +kernel, rfl⟩, rfl⟩
  have falling : ((matching (database minutesLoaded.parts) minutesQuery).reverse).Pairwise
      fun r s => s.candleTime ≤ r.candleTime := by decide +kernel
  have answers : Answers (database minutesLoaded.parts) minutesQuery
      (((matching (database minutesLoaded.parts) minutesQuery).reverse).take 100) :=
    ⟨_, List.reverse_perm _, falling, rfl⟩
  have priced : ∀ t ∈ twoMinutes, Priced btcHistory t := by
    intro t inside
    have values : 0 < t.price ∧ (10 * t.price).den = 1 ∧ (10 * btcHistory.bin t).den = 1 ∧ 0 ≤ t.qty := by
      revert t
      decide +kernel
    have tenths : ∀ v : ℚ, (10 * v).den = 1 → Tenths v := by
      intro v whole
      refine ⟨(10 * v).num, ?_⟩
      rw [Rat.den_eq_one_iff _ |>.mp whole]
      ring
    exact ⟨values.1, tenths _ values.2.1, tenths _ values.2.2.1, values.2.2.2⟩
  have fits : LimitFits ((matching (database minutesLoaded.parts) minutesQuery).map scan)
      (2 * 50 % 2 ^ 32) 2 := by
    unfold LimitFits
    decide +kernel
  exact ⟨_, answers, loaded_candles_read_back nearestTenth_keeps (by decide +kernel) priced
    ⟨_, .refl _, rfl⟩ (by simp [empty]) insert (by decide) answers fits⟩

end LoadedCandles
