import Procluster.DeltaTotals
import Procluster.LiveIngest

/-!
Open, High, Low and Close of one list of cells on every path that summarises it: the
update and the close of the hub, the candle the closer caches and the candle that
handleCandles serves from rows without open and close prices.
-/
namespace CandleSummary
open Aggregate KeyedFold QueryCandles CandlesApi ServedHistory DeltaTotals
open WsHub (TickEnv SubMessage SendCloseOpen updateMessage closeMessage updateCandle closeCandle
  effective mergeUp updateMessage_built closeMessage_built)

structure Prices where
  openPrice : ℚ
  high : ℚ
  low : ℚ
  close : ℚ

def pricesOf (c : ClusterCandle) : Prices := ⟨c.openPrice, c.high, c.low, c.close⟩

def width (tc : TickerConfig) (compression : UInt32) : ℚ := compression.toNat * tc.tickSize

/-- A merge into bins of zero width gives NaN prices, which json.Marshal refuses. -/
def Encodable (tc : TickerConfig) (compression : UInt32) : Prop :=
  tc.baseCompression < compression → width tc compression ≠ 0

/-- The prices a path gives the candle of these cells at a compression of the ticker. -/
inductive PutsOut (tc : TickerConfig) (compression : UInt32) (cells : List ClusterCell) :
    Prices → Prop where
  | update {env : TickEnv} {validator : WsHub.Validator} {key : SubKey} {msg : SubMessage}
      {candle : ClusterCandle}
      (config : validator.getConfig key.parse.symbol key.parse.market = some tc)
      (subscribed : effective tc key.parse.compression = compression)
      (answered : ∀ text, env.getAggCells text = some cells)
      (built : updateMessage env validator key = .ok (some msg))
      (encoded : Encodable tc compression)
      (carries : msg.candle = some candle) : PutsOut tc compression cells (pricesOf candle)
  | close {validator : WsHub.Validator} {args : SendCloseOpen} {msg : SubMessage}
      {candle : ClusterCandle} (config : validator.getConfig args.symbol args.market = some tc)
      (subscribed : effective tc args.compression = compression) (closed : args.cells = cells)
      (built : closeMessage validator args = .ok (some msg))
      (encoded : Encodable tc compression)
      (carries : msg.candle = some candle) : PutsOut tc compression cells (pricesOf candle)
  | cached {cfg : LiveIngest.WSConfig} {b : LiveIngest.Batch} (base : compression = tc.baseCompression)
      (comp : cfg.compression = tc.baseCompression) (tick : cfg.tickSize = tc.tickSize)
      (closed : b.cells = cells) : PutsOut tc compression cells (pricesOf (LiveIngest.candleOf cfg b))
  | rest {m : Validate.CaseMap} {v : Validate.Validator} {env : Outside} {r : Request} {p : Params}
      {answer : List StoredRow} {data : CandlesData} {candle : CandleJSON}
      (valid : readParams m v r = .ok p) (config : p.tc = tc) (comp : p.compression = compression)
      (missed : cachedCandles env p = []) (answered : env.query (candlesQuery p) = some answer)
      (returned : handleCandles m v env r = .ok data) (served : candle ∈ data.candles)
      (encoded : Encodable tc compression)
      (stored : (storedCells answer candle.time).Perm cells)
      (unpriced : ∀ row ∈ answer, row.openPrice = 0 ∧ row.closePrice = 0) :
      PutsOut tc compression cells ⟨candle.openPrice, candle.high, candle.low, candle.close⟩

def OneSummary (tc : TickerConfig) (compression : UInt32) (cells : List ClusterCell) : Prop :=
  ∀ one other, PutsOut tc compression cells one → PutsOut tc compression cells other → one = other

theorem effective_idem (tc : TickerConfig) (compression : UInt32) :
    effective tc (effective tc compression) = effective tc compression := by
  unfold effective
  split_ifs <;> simp_all

theorem effective_valid {tc : TickerConfig} {compression : UInt32}
    (valid : Validate.validateCompression compression tc = .ok ()) :
    effective tc compression = tc.baseCompression ∨
      (tc.baseCompression ≠ 0 ∧ tc.baseCompression < effective tc compression) := by
  unfold effective
  split
  · exact .inl rfl
  · rename_i nonzero
    obtain ⟨base, atLeast, _⟩ := (Validate.validateCompression_ok valid).resolve_left nonzero
    rcases UInt32.lt_or_eq_of_le atLeast with above | same
    · exact .inr ⟨base, above⟩
    · exact .inl same.symm

theorem mergeUp_last {tc : TickerConfig} {compression : UInt32}
    (valid : Validate.validateCompression compression tc = .ok ()) {cells : List ClusterCell}
    (nonempty : cells ≠ []) : ∃ merged last,
      mergeUp tc (effective tc compression) cells = .ok merged ∧ merged.getLast? = some last := by
  unfold mergeUp WsHub.divU32
  rcases effective_valid valid with base | ⟨divides, above⟩
  · rw [base, if_neg (UInt32.lt_irrefl _)]
    exact ⟨cells, _, rfl, List.getLast?_eq_some_getLast nonempty⟩
  · rw [if_pos above, if_neg divides]
    have merged := mergeInto_nonempty (coarseBin (effective tc compression / tc.baseCompression) tc.tickSize
      tc.baseCompression) cells nonempty
    rw [← mergeCells_eq _ _ (quotient_ne_zero divides above)] at merged
    exact ⟨_, _, rfl, List.getLast?_eq_some_getLast merged⟩

section Instances
variable {tc : TickerConfig} {compression : UInt32}
  (valid : Validate.validateCompression compression tc = .ok ()) {cells : List ClusterCell}
  (nonempty : cells ≠ []) (wide : width tc (effective tc compression) ≠ 0)
include valid nonempty wide

theorem update_and_close : ∃ one other, PutsOut tc (effective tc compression) cells one ∧
    PutsOut tc (effective tc compression) cells other ∧
    one.close = other.close + width tc (effective tc compression) := by
  obtain ⟨merged, last, merges, ends⟩ := mergeUp_last valid nonempty
  obtain ⟨cell, rest, rfl⟩ := List.exists_cons_of_ne_nil nonempty
  let validator : WsHub.Validator := ⟨fun _ _ => some tc, fun _ _ => none, fun _ _ => none⟩
  let key := SubKey.make "futures" "BTCUSDT" "1m" (effective tc compression)
  let env : TickEnv := ⟨fun _ => 0, fun _ => some (cell :: rest)⟩
  let args : SendCloseOpen :=
    ⟨"futures", "BTCUSDT", "1m", effective tc compression, 0, cell :: rest, []⟩
  have parsed : key.parse = ⟨"futures", "BTCUSDT", "1m", effective tc compression⟩ :=
    SubKey.parse_make (by decide) (by decide) "BTCUSDT" _
  have updates : ∃ msg, updateMessage env validator key = .ok (some msg) ∧
      msg.candle = some (WsHub.candleOf
        (fun cell => cell.price + (effective tc compression).toNat * tc.tickSize) 0 merged) := by
    simp only [updateMessage, parsed, validator, env, tfSeconds, effective_idem, updateCandle, merges]
    exact ⟨_, rfl, rfl⟩
  have closes : ∃ msg, closeMessage validator args = .ok (some msg) ∧
      msg.candle = some (WsHub.buildCandle 0 merged) := by
    simp only [closeMessage, validator, args, effective_idem, closeCandle, merges]
    exact ⟨_, rfl, rfl⟩
  obtain ⟨update, builtUpdate, carriesUpdate⟩ := updates
  obtain ⟨close, builtClose, carriesClose⟩ := closes
  have subscribed : effective tc key.parse.compression = effective tc compression := by
    rw [parsed, effective_idem]
  have putUpdate := PutsOut.update (show validator.getConfig key.parse.symbol key.parse.market =
    some tc from rfl) subscribed (fun _ => rfl) builtUpdate (fun _ => wide) carriesUpdate
  have putClose := PutsOut.close (show validator.getConfig args.symbol args.market = some tc from rfl)
    (effective_idem tc compression) rfl builtClose (fun _ => wide) carriesClose
  refine ⟨_, _, putUpdate, putClose, ?_⟩
  change (candleLoop _ _ _).close = (candleLoop _ _ _).close + _
  rw [candleLoop_close _ _ ends, candleLoop_close _ _ ends]
  rfl

end Instances

section ZeroWidth
variable {tc : TickerConfig} {compression : UInt32} {first last : ClusterCell}
  {cells : List ClusterCell} (sorted : (first :: cells).Pairwise fun c d => c.price ≤ d.price)
  (positive : ∀ c ∈ first :: cells, 0 < c.price) (ends : (first :: cells).getLast? = some last)
include sorted positive ends

theorem loop_prices {closeOf : ClusterCell → ℚ} (plain : ∀ c, closeOf c = c.price) (time : ℤ) :
    pricesOf (candleLoop closeOf time (first :: cells)) =
      ⟨first.price, last.price, first.price, last.price⟩ := by
  obtain ⟨openPrice, low, high⟩ :=
    candleLoop_sorted closeOf time sorted (positive first (by simp)) ends
  rw [pricesOf, openPrice, low, high, candleLoop_close closeOf time ends, plain]

omit positive in
theorem finish_prices {acc : CandleAcc} (perm : acc.candle.cells.Perm (first :: cells))
    (noOpen : acc.openPrice = 0) (noClose : acc.closePrice = 0) :
    pricesOf (finish acc) = ⟨first.price, last.price, first.price, last.price⟩ := by
  have same : (acc.candle.cells.insertionSort fun c d => c.price ≤ d.price).map ClusterCell.price =
      (first :: cells).map ClusterCell.price := by
    have ordered : ((acc.candle.cells.insertionSort fun c d => c.price ≤ d.price).map
        ClusterCell.price).Pairwise (· ≤ ·) :=
      List.pairwise_map.mpr (List.pairwise_insertionSort _ _)
    exact (((List.perm_insertionSort _ _).trans perm).map _).eq_of_pairwise
      (fun _ _ _ _ below above => le_antisymm below above) ordered (List.pairwise_map.mpr sorted)
  have heads := congrArg List.head? same
  have lasts := congrArg List.getLast? same
  rw [List.head?_map, List.map_cons, List.head?_cons] at heads
  rw [List.getLast?_map, List.getLast?_map, ends] at lasts
  obtain ⟨low, lowest, lowPrice⟩ := Option.map_eq_some_iff.mp heads
  obtain ⟨high, highest, highPrice⟩ := Option.map_eq_some_iff.mp lasts
  simp only [finish, lowest, highest, noOpen, noClose, lt_irrefl, ↓reduceIte, pricesOf, lowPrice,
    highPrice]

end ZeroWidth

theorem unpriced_table {rows : List ScanRow}
    (unpriced : ∀ r ∈ rows, r.openPrice = 0 ∧ r.closePrice = 0) :
    ∀ p ∈ gather ScanRow.ts addRow rows, p.2.openPrice = 0 ∧ p.2.closePrice = 0 := by
  apply gather_entries (fun (_ : ℤ) (acc : CandleAcc) => acc.openPrice = 0 ∧ acc.closePrice = 0)
  · intro r hr
    simpa [addRow, newAcc] using unpriced r hr
  · intro r hr acc kept
    simp only [addRow, Option.getD_some]
    split_ifs
    · exact kept
    · exact unpriced r hr

theorem query_prices {first last : ClusterCell} {cells : List ClusterCell}
    (sorted : (first :: cells).Pairwise fun c d => c.price ≤ d.price)
    (ends : (first :: cells).getLast? = some last) {answer : List StoredRow} {c : ClusterCandle}
    (built : c ∈ queryCandles answer) (stored : (storedCells answer c.time).Perm (first :: cells))
    (unpriced : ∀ row ∈ answer, row.openPrice = 0 ∧ row.closePrice = 0) :
    pricesOf c = ⟨first.price, last.price, first.price, last.price⟩ := by
  obtain ⟨row, inTable, finished⟩ := List.mem_map.mp (List.mem_reverse.mp built)
  have holds := acc_of_table inTable
  have time : c.time = row.1 := by rw [← finished, finish_time, holds.time]
  have perm : row.2.candle.cells.Perm (first :: cells) := by
    rw [holds.cells, ← time]
    exact stored
  have zeros : ∀ r ∈ answer.map scan, r.openPrice = 0 ∧ r.closePrice = 0 := by
    intro r hr
    obtain ⟨s, hs, rfl⟩ := List.mem_map.mp hr
    simp [scan, toFloat64, unpriced s hs]
  obtain ⟨noOpen, noClose⟩ := unpriced_table zeros row inTable
  rw [← finished]
  exact finish_prices sorted ends perm noOpen noClose

theorem puts_out_ends {tc : TickerConfig} {compression : UInt32} {first last : ClusterCell}
    {cells : List ClusterCell} (sorted : (first :: cells).Pairwise fun c d => c.price ≤ d.price)
    (positive : ∀ c ∈ first :: cells, 0 < c.price) (ends : (first :: cells).getLast? = some last)
    (zero : width tc compression = 0) {prices : Prices}
    (put : PutsOut tc compression (first :: cells) prices) :
    prices = ⟨first.price, last.price, first.price, last.price⟩ := by
  cases put with
  | @update env validator key msg candle config subscribed answered built encoded carries =>
    obtain ⟨tc', secs, answer, sent, config', _, read, made, carried⟩ := updateMessage_built built
    rw [config] at config'
    rw [answered] at read
    rw [carries] at carried
    cases config'
    cases read
    cases carried
    rw [subscribed] at made
    unfold updateCandle mergeUp at made
    rw [if_neg fun above => encoded above zero] at made
    cases made
    refine loop_prices sorted positive ends (fun c => ?_) _
    exact (congrArg (c.price + ·) zero).trans (add_zero _)
  | @close validator args msg candle config subscribed closed built encoded carries =>
    obtain ⟨tc', sent, config', made, carried⟩ := closeMessage_built built
    rw [config] at config'
    rw [carries] at carried
    cases config'
    cases carried
    rw [subscribed, closed] at made
    unfold closeCandle mergeUp at made
    rw [if_neg fun above => encoded above zero] at made
    cases made
    exact loop_prices sorted positive ends (fun _ => rfl) _
  | @cached cfg b base comp tick closed =>
    rw [LiveIngest.candleOf, closed]
    refine loop_prices sorted positive ends (fun c => ?_) _
    rw [comp, tick, ← base]
    exact (congrArg (c.price + ·) zero).trans (add_zero _)
  | @rest m v env r p answer data candle valid config comp missed answered returned served encoded
      stored unpriced =>
    obtain ⟨candles, read, made⟩ := handleCandles_ok valid returned
    rw [readCandles, missed, answered] at read
    cases read
    rw [made] at served
    obtain ⟨c, hc, rfl⟩ := List.mem_map.mp served
    rw [mergeCandle, mergeCandleBy, config, comp, if_neg fun above => encoded above zero] at stored ⊢
    exact query_prices sorted ends (List.mem_filter.mp hc).1 stored unpriced

/-- The paths agree on the four prices of a candle exactly when its bins have no width. -/
theorem one_summary_iff (tc : TickerConfig) (compression : UInt32) (cells : List ClusterCell)
    (valid : Validate.validateCompression compression tc = .ok ()) (nonempty : cells ≠ [])
    (sorted : cells.Pairwise fun c d => c.price ≤ d.price) (positive : ∀ c ∈ cells, 0 < c.price) :
    OneSummary tc (effective tc compression) cells ↔ width tc (effective tc compression) = 0 := by
  constructor
  · intro same
    by_contra wide
    obtain ⟨one, other, putOne, putOther, apart⟩ := update_and_close valid nonempty wide
    rw [same one other putOne putOther] at apart
    exact wide (by linarith)
  · intro zero one other putOne putOther
    obtain ⟨first, rest, rfl⟩ := List.exists_cons_of_ne_nil nonempty
    have ends := List.getLast?_eq_some_getLast nonempty
    rw [puts_out_ends sorted positive ends zero putOne, puts_out_ends sorted positive ends zero putOther]

theorem zero_tick_agrees :
    OneSummary { sampleConfig with tickSize := 0 } (effective { sampleConfig with tickSize := 0 } 25)
      [⟨1000, 1, 2⟩, ⟨2005 / 2, 3, 1⟩] :=
  (one_summary_iff { sampleConfig with tickSize := 0 } 25 [⟨1000, 1, 2⟩, ⟨2005 / 2, 3, 1⟩]
    (by decide +kernel) (by decide) (by decide +kernel) (by decide +kernel)).mpr (by decide +kernel)

/-- One cell at 1000 with bins of 2.5: the update closes at 1002.5, the close at 1000. -/
theorem update_closes_above : ¬ OneSummary sampleConfig 25 [⟨1000, 1, 2⟩] := by
  intro same
  have wide : width sampleConfig (effective sampleConfig 25) ≠ 0 := by decide +kernel
  have valid : Validate.validateCompression 25 sampleConfig = .ok () := by decide +kernel
  obtain ⟨one, other, putOne, putOther, apart⟩ :=
    update_and_close valid (List.cons_ne_nil ⟨1000, 1, 2⟩ []) wide
  rw [same one other putOne putOther] at apart
  exact wide (by linarith)

end CandleSummary
