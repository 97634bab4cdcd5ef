import Procluster.HistoryLoad

/-!
The two writers of a candle. The live closer and the history load each make rows of the
same trades: the cells agree, and what differs is the label, the two end prices that the
closer leaves at zero, and the empty cells that only the closer filters out. All of it is
exact arithmetic: doubles added in another order can round to another tenth.
-/
namespace LiveAndLoaded
open Aggregate KeyedFold EventRuns LiveIngest HistoryLoad

def Booked (cfg : WSConfig) (b : Batch) : Prop := b.cells = nonEmpty (book cfg.bin b.trades)

def CloserBooked (cfg : WSConfig) : Closer → Prop
  | .head | .waiting _ => True
  | .inserting b | .caching b | .deleting b _ | .notifying b _ => Booked cfg b

/-- A close that wrote something wrote a batch of its trades under a boundary. -/
def RecordBooked (cfg : WSConfig) (tf : String) (r : CloseRecord) : Prop :=
  r.rows = [] ∨ ∃ label, OnGrid tf label ∧
    r.rows = LiveIngest.rowsOf cfg tf ⟨label, nonEmpty (book cfg.bin r.trades), r.trades⟩

structure LaneBooked (cfg : WSConfig) (l : Lane) : Prop where
  sound : Sound cfg l
  closer : CloserBooked cfg l.closer
  closes : ∀ r ∈ l.closes, RecordBooked cfg l.timeframe r

section Live
variable {cfg : WSConfig} {l l' : Lane}

theorem closes_append {tf : String} {closes : List CloseRecord} {r : CloseRecord}
    (before : ∀ q ∈ closes, RecordBooked cfg tf q) (now : RecordBooked cfg tf r) :
    ∀ q ∈ closes ++ [r], RecordBooked cfg tf q := by
  intro q inside
  rcases List.mem_append.mp inside with earlier | last
  · exact before q earlier
  · obtain rfl := List.mem_singleton.mp last
    exact now

theorem booked_flush (booked : LaneBooked cfg l) {next : ℤ} (boundary : OnGrid l.timeframe next) :
    LaneBooked cfg (l.flush next) := by
  have cells : l.agg.currentCells = book cfg.bin l.held := currentCells_book booked.sound.cells
  by_cases empty : nonEmpty l.agg.currentCells = []
  · refine ⟨flush_sound booked.sound boundary, ?_, ?_⟩
    · simp only [Lane.flush, flush_output, empty, ↓reduceIte, CloserBooked]
    · simp only [Lane.flush, flush_output, empty, ↓reduceIte]
      exact closes_append booked.closes (.inl rfl)
  · refine ⟨flush_sound booked.sound boundary, ?_, ?_⟩
    · simp only [Lane.flush, flush_output, empty, ↓reduceIte, CloserBooked]
      rw [Booked, cells]
    · simp only [Lane.flush, flush_output, empty, ↓reduceIte]
      exact booked.closes

theorem booked_step {e : LaneEvent} (booked : LaneBooked cfg l) (taken : laneStep cfg l e = some l') :
    LaneBooked cfg l' := by
  have sound := laneStep_sound booked.sound taken
  have closer := booked.closer
  have grid := booked.sound.closer
  cases laneStep_moves taken with
  | process t => exact ⟨sound, booked.closer, booked.closes⟩
  | incr u => exact ⟨sound, booked.closer, booked.closes⟩
  | arm here armed => exact ⟨sound, trivial, booked.closes⟩
  | flush here late =>
    rw [here] at grid
    exact booked_flush booked grid
  | inserted here =>
    rw [here] at closer
    exact ⟨sound, closer, booked.closes⟩
  | insertFailed here => exact ⟨sound, trivial, closes_append booked.closes (.inl rfl)⟩
  | cached ok here =>
    rw [here] at closer
    exact ⟨sound, closer, booked.closes⟩
  | deleted here =>
    rw [here] at closer
    exact ⟨sound, closer, booked.closes⟩
  | @notified b candle here =>
    rw [here] at closer grid
    refine ⟨sound, trivial, closes_append booked.closes (.inr ⟨b.label, grid.1.label, ?_⟩)⟩
    rw [LiveIngest.rowsOf, LiveIngest.rowsOf, show b.cells = _ from closer]

theorem booked_run {timeframes : List String} {onClose : Bool} {clock : ℕ} {store : RedisCache.Store}
    {events : List Event} {s : Live}
    (reach : run step (start cfg timeframes onClose clock store) events = some s) (i : ℕ) :
    LaneBooked cfg (s.lane i) := by
  have first : ∀ i, LaneBooked cfg ((start cfg timeframes onClose clock store).lane i) :=
    fun i => ⟨newLane_sound cfg onClose _, trivial, by simp [start, newLane]⟩
  have kept := invariant_run (fun s => s.cfg = cfg ∧ ∀ i, LaneBooked cfg (s.lane i)) (fun _ _ => True)
    (fun _ _ _ inv _ taken => lanes_step inv.1 inv.2 (fun i _ _ _ change => booked_step (inv.2 i) change)
      taken)
    ⟨rfl, first⟩ (guarded_of_events fun _ _ _ => trivial) reach
  exact kept.2 i

end Live

abbrev Filled (r : ClusterRow) : Prop := r.price ≠ 0 ∨ r.bid ≠ 0 ∨ r.ask ≠ 0

def asClosed (label : ℤ) (r : ClusterRow) : ClusterRow :=
  { r with candleTime := label, openPrice := 0, closePrice := 0 }

section Loaded
variable {cfg : HistoryConfig} {trades : List Trade}

theorem rowsOf_keys {key : CandleKey} {agg : Aggregator} {r : ClusterRow}
    (row : r ∈ HistoryLoad.rowsOf cfg key agg) : (⟨r.candleTime, r.timeframe⟩ : CandleKey) = key := by
  obtain ⟨c, -, rfl⟩ := List.mem_map.mp row
  rfl

theorem candle_rows {entries : AggMap} (perm : entries.Perm (aggregate exactly cfg trades)) {key : CandleKey}
    {agg : Aggregator} (found : find key (aggregate exactly cfg trades) = some agg) :
    ((allRows cfg entries).filter fun r => (⟨r.candleTime, r.timeframe⟩ : CandleKey) = key) =
      HistoryLoad.rowsOf cfg key agg := by
  have distinct : (keys entries).Nodup :=
    (perm.map Prod.fst).nodup_iff.mpr (aggregate_keys_nodup exactly cfg trades)
  have own := select_own_rows (fun p => HistoryLoad.rowsOf cfg p.1 p.2)
    (fun r => decide ((⟨r.candleTime, r.timeframe⟩ : CandleKey) = key)) distinct (k := key)
    (fun p _ other r row => decide_eq_false (rowsOf_keys row ▸ other))
  rw [find_perm distinct perm key, found] at own
  rw [allRows, own]
  exact List.filter_eq_self.mpr fun r row => decide_eq_true (rowsOf_keys row)

end Loaded

/-- Live rows are loaded rows: whatever the interleaving of the feed and the closers, if a close
    wrote rows of just the trades that a load has for the candle, its rows are the load's rows of
    this candle without the empty ones, under the boundary's label and without end prices. -/
theorem live_rows_as_loaded {live : WSConfig} {timeframes : List String} {onClose : Bool} {clock : ℕ}
    {store : RedisCache.Store} {events : List Event} {s : Live}
    (reach : run step (start live timeframes onClose clock store) events = some s) {i : ℕ}
    {r : CloseRecord} (closed : r ∈ (s.lane i).closes) (written : r.rows ≠ [])
    {cfg : HistoryConfig} (symbol : cfg.symbol = live.symbol) (tickSize : cfg.tickSize = live.tickSize)
    (compression : cfg.compression = live.compression) (listed : (s.lane i).timeframe ∈ cfg.timeframes)
    {day : List Trade} (distinct : (day.map Trade.tradeID).Nodup) {candleTime : ℤ}
    (whole : r.trades.Perm (inCandle day ⟨candleTime, (s.lane i).timeframe⟩)) {rows : List ClusterRow}
    (handed : HandsOver exactly cfg day rows) :
    ∃ label, OnGrid (s.lane i).timeframe label ∧
      r.rows = ((rows.filter fun row =>
        (⟨row.candleTime, row.timeframe⟩ : CandleKey) = ⟨candleTime, (s.lane i).timeframe⟩).filter
          fun row => Filled row).map (asClosed label) := by
  obtain ⟨label, grid, made⟩ := ((booked_run reach i).closes r closed).resolve_left written
  generalize (s.lane i).timeframe = tf at *
  refine ⟨label, grid, ?_⟩
  have bins : cfg.bin = live.bin := by
    funext t
    rw [HistoryConfig.bin, WSConfig.bin, tradeBin, tickSize, compression]
  have traded : r.trades ≠ [] := by
    intro none
    apply written
    simp [made, none, LiveIngest.rowsOf, book, nonEmpty]
  have some : inCandle day ⟨candleTime, tf⟩ ≠ [] := fun none =>
    traded (List.perm_nil.mp (none ▸ whole))
  have found := find_aggregate exactly cfg day ⟨candleTime, tf⟩
  rw [if_pos ⟨listed, some⟩] at found
  obtain ⟨-, -, holds⟩ := entry_holds distinct (mem_of_find found)
  obtain ⟨entries, perm, rfl⟩ := handed
  rw [candle_rows perm found, rowsOf_book holds, made, LiveIngest.rowsOf, book_perm live.bin whole, bins,
    List.filter_map, List.map_map, nonEmpty, symbol]
  rfl

def btcLive : WSConfig := ⟨"BTCUSDT", "futures", 1 / 10, 25⟩

def btcLoad : HistoryConfig := ⟨"BTCUSDT", "futures", 1 / 10, 25, ["1m", "5m"]⟩

def minute : List Event :=
  [.message ⟨2, 101, 1, 30000, false⟩, .processTrade, .incrCell true, .hSet true, .arm 0,
    .message ⟨1, 100, 3 / 2, 20000, true⟩, .processTrade, .advance 30200, .flush 0,
    .batchInsert 0 true, .setLastCandle 0 true, .delAggKey 0 true, .notify 0]

def day : List Trade := [⟨1, 100, 3 / 2, 20000, true⟩, ⟨2, 101, 1, 30000, false⟩, ⟨5, 104, 2, 60000, true⟩]

theorem minute_as_loaded : ∃ s r, run step (start btcLive ["1m"] true 30000 []) minute = some s ∧
    r ∈ (s.lane 0).closes ∧ r.rows ≠ [] ∧ ∃ label, OnGrid "1m" label ∧
      r.rows = (((allRows btcLoad (aggregate exactly btcLoad day)).filter fun row =>
        (⟨row.candleTime, row.timeframe⟩ : CandleKey) = ⟨0, "1m"⟩).filter
          fun row => Filled row).map (asClosed label) := by
  have reached : ∃ s, run step (start btcLive ["1m"] true 30000 []) minute = some s ∧
      (s.lane 0).timeframe = "1m" ∧ ∃ r ∈ (s.lane 0).closes, r.rows ≠ [] ∧
        r.trades.Perm (inCandle day ⟨0, "1m"⟩) := by
    have seen : (run step (start btcLive ["1m"] true 30000 []) minute).map (fun s =>
        decide ((s.lane 0).timeframe = "1m") && (s.lane 0).closes.any fun r => decide (r.rows ≠ []) &&
          decide (r.trades.Perm (inCandle day ⟨0, "1m"⟩))) = some true := by
      decide +kernel
    obtain ⟨s, reach, holds⟩ := Option.map_eq_some_iff.mp seen
    simp only [Bool.and_eq_true, decide_eq_true_eq, List.any_eq_true] at holds
    exact ⟨s, reach, holds.1, holds.2⟩
  obtain ⟨s, reach, timeframe, r, closed, written, whole⟩ := reached
  have symbol : btcLoad.symbol = btcLive.symbol := rfl
  have listed : (s.lane 0).timeframe ∈ btcLoad.timeframes := by
    rw [timeframe]
    decide
  rw [← timeframe] at whole
  have same := live_rows_as_loaded reach closed written symbol rfl rfl listed (by decide) whole
    ⟨_, .refl _, rfl⟩
  rw [timeframe] at same
  exact ⟨s, r, reach, closed, written, same⟩

end LiveAndLoaded
