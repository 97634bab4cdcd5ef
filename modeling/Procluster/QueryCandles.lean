import Procluster.Aggregate
import Procluster.Library.NewestFirst

/-!
Package store: QueryCandles. The SQL text is a record of what it asks for; an answer
is any list ClickHouse may return for it, rows of one candle time in any order. The
loop over the answer groups rows into candles.
-/
namespace QueryCandles
open Aggregate KeyedFold NewestFirst

/-- A stored row; a Decimal(18,1) column is a whole number of tenths. -/
structure StoredRow where
  symbol : String
  timeframe : String
  candleTime : ℤ
  price : ℤ
  bid : ℤ
  ask : ℤ
  openPrice : ℤ
  closePrice : ℤ
  deriving DecidableEq

inductive Table where
  | clustersFutures
  | clustersSpot
  deriving DecidableEq

structure Database where
  clustersFutures : List StoredRow
  clustersSpot : List StoredRow

def Database.rows (db : Database) : Table → List StoredRow
  | .clustersFutures => db.clustersFutures
  | .clustersSpot => db.clustersSpot

structure Query where
  table : Table
  symbol : String
  timeframe : String
  before : Option ℤ
  limit : UInt32
  deriving DecidableEq

/-- The statement QueryCandles sends; the row limit is cut to 32 bits. -/
def buildQuery (market symbol tf : String) (beforeSec : ℤ) (maxCandles : ℕ) : Query :=
  let rowLimit := maxCandles * 50
  { table := if market = "spot" then .clustersSpot else .clustersFutures
    symbol := symbol
    timeframe := tf
    before := if 0 < beforeSec then some beforeSec else none
    limit := UInt32.ofNat rowLimit }

def matching (db : Database) (q : Query) : List StoredRow :=
  (db.rows q.table).filter fun r =>
    r.symbol = q.symbol ∧ r.timeframe = q.timeframe ∧ ∀ b ∈ q.before, r.candleTime < b

/-- WHERE, ORDER BY candle_time DESC and LIMIT as ClickHouse executes them. -/
def Answers (db : Database) (q : Query) (answer : List StoredRow) : Prop :=
  ∃ ordered : List StoredRow, ordered.Perm (matching db q) ∧
    (ordered.Pairwise fun r s => s.candleTime ≤ r.candleTime) ∧
    answer = ordered.take q.limit.toNat

structure ScanRow where
  ts : ℤ
  price : ℚ
  bid : ℚ
  ask : ℚ
  openPrice : ℚ
  closePrice : ℚ

def toFloat64 (tenths : ℤ) : ℚ := tenths / 10

def scan (r : StoredRow) : ScanRow where
  ts := r.candleTime
  price := toFloat64 r.price
  bid := toFloat64 r.bid
  ask := toFloat64 r.ask
  openPrice := toFloat64 r.openPrice
  closePrice := toFloat64 r.closePrice

structure CandleAcc where
  candle : ClusterCandle
  maxVol : ℚ
  openPrice : ℚ
  closePrice : ℚ
  hasOpen : Bool

def newAcc (ts : ℤ) : CandleAcc := ⟨⟨ts, 0, 0, 0, 0, 0, 0, []⟩, 0, 0, 0, false⟩

def ScanRow.cell (r : ScanRow) : ClusterCell := ⟨r.price, r.bid, r.ask⟩

def addRow (r : ScanRow) (acc : Option CandleAcc) : CandleAcc :=
  let acc := acc.getD (newAcc r.ts)
  let vol := r.bid + r.ask
  { candle := { acc.candle with
      cells := acc.candle.cells ++ [r.cell]
      volume := acc.candle.volume + vol
      delta := acc.candle.delta + (r.ask - r.bid) }
    maxVol := if acc.maxVol < vol then vol else acc.maxVol
    openPrice := if acc.hasOpen then acc.openPrice else r.openPrice
    closePrice := if acc.hasOpen then acc.closePrice else r.closePrice
    hasOpen := true }

def round1 (v : ℚ) : ℚ := truncTenth v

def finish (acc : CandleAcc) : ClusterCandle :=
  let cells := acc.candle.cells.insertionSort fun c d => c.price ≤ d.price
  let priced := match cells.head?, cells.getLast? with
    | some first, some last =>
      { acc.candle with
        low := first.price
        high := last.price
        openPrice := if 0 < acc.openPrice then acc.openPrice else first.price
        close := if 0 < acc.closePrice then acc.closePrice else last.price }
    | _, _ => acc.candle
  { priced with
    cells := cells
    volume := round1 acc.candle.volume
    delta := round1 acc.candle.delta }

/-- The loop over the rows, with candleOrder as the order of the table's keys, and
    the final reversal. -/
def groupRows (rows : List ScanRow) : List ClusterCandle :=
  ((gather ScanRow.ts addRow rows).map fun p => finish p.2).reverse

def queryCandles (answer : List StoredRow) : List ClusterCandle := groupRows (answer.map scan)

def rowsAt (rows : List ScanRow) (t : ℤ) : List ScanRow := rows.filter fun r => r.ts = t

def volumeAt (rows : List ScanRow) (t : ℤ) : ℚ := ((rowsAt rows t).map fun r => r.bid + r.ask).sum

def deltaAt (rows : List ScanRow) (t : ℤ) : ℚ := ((rowsAt rows t).map fun r => r.ask - r.bid).sum

/-- The newest candles of the rows, oldest first, each with every row it has. -/
structure WholeCandles (rows : List ScanRow) (maxCandles : ℕ) (result : List ClusterCandle) :
    Prop where
  times : result.map ClusterCandle.time = newest (rows.map ScanRow.ts) maxCandles
  cells : ∀ c ∈ result, c.cells.Perm ((rowsAt rows c.time).map ScanRow.cell)
  volume : ∀ c ∈ result, c.volume = volumeAt rows c.time
  delta : ∀ c ∈ result, c.delta = deltaAt rows c.time

/-- The rows the query lets through are as many as the newest candles have. -/
def LimitFits (rows : List ScanRow) (limit maxCandles : ℕ) : Prop :=
  min limit rows.length =
    (rows.filter fun r => r.ts ∈ newest (rows.map ScanRow.ts) maxCandles).length

def NonnegativeTotals (rows : List ScanRow) (maxCandles : ℕ) : Prop :=
  ∀ t ∈ newest (rows.map ScanRow.ts) maxCandles, 0 ≤ volumeAt rows t ∧ 0 ≤ deltaAt rows t

/-- What the accumulator of a candle holds after the candle's rows. -/
structure AccOf (t : ℤ) (rows : List ScanRow) (acc : CandleAcc) : Prop where
  time : acc.candle.time = t
  cells : acc.candle.cells = rows.map ScanRow.cell
  volume : acc.candle.volume = (rows.map fun r => r.bid + r.ask).sum
  delta : acc.candle.delta = (rows.map fun r => r.ask - r.bid).sum

theorem accOf_new (t : ℤ) : AccOf t [] (newAcc t) := ⟨rfl, rfl, rfl, rfl⟩

theorem accOf_addRow {t : ℤ} {rows : List ScanRow} {acc : CandleAcc} (r : ScanRow)
    (holds : AccOf t rows acc) : AccOf t (rows ++ [r]) (addRow r (some acc)) := by
  constructor
  · exact holds.time
  · simp [addRow, holds.cells]
  · simp [addRow, holds.volume]
  · simp [addRow, holds.delta]

theorem acc_of_rows {t : ℤ} {rows : List ScanRow} (own : ∀ r ∈ rows, r.ts = t) {acc : CandleAcc}
    (built : rows.foldl (fun acc r => some (addRow r acc)) none = some acc) : AccOf t rows acc := by
  induction rows using List.reverseRecOn generalizing acc with
  | nil => cases built
  | append_singleton rows r ih =>
    simp only [List.foldl_append, List.foldl_cons, List.foldl_nil, Option.some.injEq] at built
    subst acc
    cases earlier : rows.foldl (fun acc r => some (addRow r acc)) none with
    | none =>
      have empty : rows = [] := by
        cases rows using List.reverseRecOn with
        | nil => rfl
        | append_singleton rows x => simp at earlier
      subst empty
      have mine := own r (by simp)
      subst mine
      exact accOf_addRow r (accOf_new r.ts)
    | some acc => exact accOf_addRow r (ih (fun x hx => own x (by simp [hx])) earlier)

theorem finish_time (acc : CandleAcc) : (finish acc).time = acc.candle.time := by
  unfold finish
  dsimp only
  split <;> rfl

@[simp] theorem finish_cells (acc : CandleAcc) : (finish acc).cells =
    acc.candle.cells.insertionSort fun c d => c.price ≤ d.price := rfl

@[simp] theorem finish_volume (acc : CandleAcc) :
    (finish acc).volume = round1 acc.candle.volume := rfl

@[simp] theorem finish_delta (acc : CandleAcc) :
    (finish acc).delta = round1 acc.candle.delta := rfl

theorem acc_of_table {rows : List ScanRow} {p : ℤ × CandleAcc}
    (member : p ∈ gather ScanRow.ts addRow rows) : AccOf p.1 (rowsAt rows p.1) p.2 := by
  have found := find_of_mem (gather_keys_nodup _ _ _) member
  rw [find_gather] at found
  exact acc_of_rows (by intro r hr; simpa using (List.mem_filter.mp hr).2) found

theorem candle_of_rows {rows : List ScanRow} {c : ClusterCandle} (member : c ∈ groupRows rows) :
    c.cells.Perm ((rowsAt rows c.time).map ScanRow.cell) ∧
      c.volume = round1 (volumeAt rows c.time) ∧ c.delta = round1 (deltaAt rows c.time) := by
  obtain ⟨p, hp, made⟩ := List.mem_map.mp (List.mem_reverse.mp member)
  have holds := acc_of_table hp
  have time : c.time = p.1 := by rw [← made, finish_time, holds.time]
  rw [time, ← made, finish_cells, finish_volume, finish_delta, holds.cells, holds.volume,
    holds.delta]
  exact ⟨List.perm_insertionSort _ _, rfl, rfl⟩

theorem groupRows_times (rows : List ScanRow) : (groupRows rows).map ClusterCandle.time =
    (keys (gather ScanRow.ts addRow rows)).reverse := by
  rw [groupRows, List.map_reverse, List.map_map, keys]
  congr 1
  apply List.map_congr_left
  intro p hp
  exact (finish_time p.2).trans (acc_of_table hp).time

theorem mem_groupRows_times (rows : List ScanRow) (t : ℤ) :
    t ∈ (groupRows rows).map ClusterCandle.time ↔ ∃ r ∈ rows, r.ts = t := by
  rw [groupRows_times, List.mem_reverse, mem_gather_keys]

theorem groupRows_ascending {rows : List ScanRow}
    (ordered : rows.Pairwise fun r s => s.ts ≤ r.ts) :
    ((groupRows rows).map ClusterCandle.time).Pairwise (· < ·) := by
  rw [groupRows_times, List.pairwise_reverse]
  exact gather_keys_descending addRow ordered

theorem groupRows_cell_count (rows : List ScanRow) :
    ((groupRows rows).map fun c => c.cells.length).sum = rows.length := by
  have counts : (groupRows rows).map (fun c => c.cells.length) =
      ((groupRows rows).map ClusterCandle.time).map fun t => (rowsAt rows t).length := by
    rw [List.map_map]
    apply List.map_congr_left
    intro c hc
    simpa using (candle_of_rows hc).1.length_eq
  have distinct : ((groupRows rows).map ClusterCandle.time).Nodup := by
    rw [groupRows_times, List.nodup_reverse]
    exact gather_keys_nodup _ _ _
  rw [counts]
  simp only [rowsAt]
  rw [sum_group_lengths ScanRow.ts rows distinct]
  congr 1
  apply List.filter_eq_self.mpr
  intro r hr
  simpa only [decide_eq_true_eq] using (mem_groupRows_times rows r.ts).mpr ⟨r, hr, rfl⟩

def Tenths (v : ℚ) : Prop := ∃ k : ℤ, v = k / 10

theorem tenths_sum {xs : List ℚ} (each : ∀ x ∈ xs, Tenths x) : Tenths xs.sum := by
  induction xs with
  | nil => exact ⟨0, by simp⟩
  | cons x xs ih =>
    obtain ⟨k, first⟩ := each x (by simp)
    obtain ⟨m, rest⟩ := ih (fun y hy => each y (by simp [hy]))
    refine ⟨k + m, ?_⟩
    rw [List.sum_cons, first, rest]
    push_cast
    ring

/-- On whole tenths round1 only keeps the values that are not negative. -/
theorem round1_tenths {v : ℚ} (tenths : Tenths v) : round1 v = v ↔ 0 ≤ v := by
  obtain ⟨k, rfl⟩ := tenths
  exact truncTenth_tenths k

theorem totals_tenths (stored : List StoredRow) (t : ℤ) :
    Tenths (volumeAt (stored.map scan) t) ∧ Tenths (deltaAt (stored.map scan) t) := by
  constructor
  · apply tenths_sum
    intro x hx
    obtain ⟨r, hr, rfl⟩ := List.mem_map.mp hx
    obtain ⟨s, _, rfl⟩ := List.mem_map.mp (List.mem_filter.mp hr).1
    exact ⟨s.bid + s.ask, by simp only [scan, toFloat64]; push_cast; ring⟩
  · apply tenths_sum
    intro x hx
    obtain ⟨r, hr, rfl⟩ := List.mem_map.mp hx
    obtain ⟨s, _, rfl⟩ := List.mem_map.mp (List.mem_filter.mp hr).1
    exact ⟨s.ask - s.bid, by simp only [scan, toFloat64]; push_cast; ring⟩

theorem rowsAt_perm {rows others : List ScanRow} (perm : rows.Perm others) (t : ℤ) :
    (rowsAt rows t).Perm (rowsAt others t) := perm.filter _

theorem volumeAt_perm {rows others : List ScanRow} {t : ℤ}
    (perm : (rowsAt rows t).Perm (rowsAt others t)) : volumeAt rows t = volumeAt others t :=
  (perm.map _).sum_eq

theorem deltaAt_perm {rows others : List ScanRow} {t : ℤ}
    (perm : (rowsAt rows t).Perm (rowsAt others t)) : deltaAt rows t = deltaAt others t :=
  (perm.map _).sum_eq

section Cut
variable {rows ordered : List ScanRow} (perm : ordered.Perm rows)
  (descending : ordered.Pairwise fun r s => s.ts ≤ r.ts) (n limit : ℕ)
include perm descending

theorem newest_rows_first :
    ordered.filter (fun r => r.ts ∈ newest (rows.map ScanRow.ts) n) =
      ordered.take (rows.filter fun r => r.ts ∈ newest (rows.map ScanRow.ts) n).length := by
  rw [← (perm.filter _).length_eq]
  apply filter_eq_take
  refine descending.imp_of_mem ?_
  intro r s hr _ older recent
  simp only [decide_eq_true_eq] at recent ⊢
  exact newest_above recent (List.mem_map_of_mem (perm.mem_iff.mp hr)) older

theorem cut_fits (fits : LimitFits rows limit n) : ordered.take limit =
    ordered.filter fun r => r.ts ∈ newest (rows.map ScanRow.ts) n := by
  rw [newest_rows_first perm descending, ← fits, ← perm.length_eq, ← List.take_take]
  simp

theorem rowsAt_cut (fits : LimitFits rows limit n) {t : ℤ}
    (recent : t ∈ newest (rows.map ScanRow.ts) n) :
    (rowsAt (ordered.take limit) t).Perm (rowsAt rows t) := by
  rw [cut_fits perm descending n limit fits]
  have same : rowsAt (ordered.filter fun r => r.ts ∈ newest (rows.map ScanRow.ts) n) t =
      rowsAt ordered t := by
    simp only [rowsAt, List.filter_filter]
    apply List.filter_congr
    intro r _
    by_cases mine : r.ts = t
    · simp [mine, recent]
    · simp [mine]
  rw [same]
  exact rowsAt_perm perm t

omit descending in
/- Counting the cells of the result: if it is whole, the cut let through exactly the
   rows of the newest candles. -/
theorem limit_fits_of_whole (whole : WholeCandles rows n (groupRows (ordered.take limit))) :
    LimitFits rows limit n := by
  have counted := groupRows_cell_count (ordered.take limit)
  have expected : ((groupRows (ordered.take limit)).map fun c => c.cells.length) =
      (newest (rows.map ScanRow.ts) n).map fun t => (rowsAt rows t).length := by
    rw [← whole.times, List.map_map]
    apply List.map_congr_left
    intro c hc
    simpa using (whole.cells c hc).length_eq
  have total := sum_group_lengths ScanRow.ts rows
    ((newest_ascending (rows.map ScanRow.ts) n).imp fun h => h.ne)
  simp only [rowsAt] at expected
  rw [expected, total, List.length_take, perm.length_eq] at counted
  exact counted.symm

theorem whole_times (fits : LimitFits rows limit n) :
    (groupRows (ordered.take limit)).map ClusterCandle.time = newest (rows.map ScanRow.ts) n := by
  apply ascending_unique
  · exact groupRows_ascending (descending.sublist (List.take_sublist _ _))
  · exact newest_ascending _ _
  intro t
  rw [mem_groupRows_times, cut_fits perm descending n limit fits]
  constructor
  · intro found
    obtain ⟨r, hr, rfl⟩ := found
    simpa using (List.mem_filter.mp hr).2
  · intro recent
    obtain ⟨r, hr, rfl⟩ := List.mem_map.mp (mem_of_newest recent)
    exact ⟨r, List.mem_filter.mpr ⟨perm.mem_iff.mpr hr, by simpa using recent⟩, rfl⟩

end Cut

theorem groupRows_whole_iff {stored : List StoredRow} {ordered : List ScanRow}
    (perm : ordered.Perm (stored.map scan)) (descending : ordered.Pairwise fun r s => s.ts ≤ r.ts)
    (n limit : ℕ) : WholeCandles (stored.map scan) n (groupRows (ordered.take limit)) ↔
      LimitFits (stored.map scan) limit n ∧ NonnegativeTotals (stored.map scan) n := by
  constructor
  · intro whole
    have fits := limit_fits_of_whole perm n limit whole
    refine ⟨fits, ?_⟩
    intro t recent
    obtain ⟨c, hc, rfl⟩ := List.mem_map.mp (whole.times ▸ recent)
    obtain ⟨_, volume, delta⟩ := candle_of_rows hc
    have cut := rowsAt_cut perm descending n limit fits recent
    rw [whole.volume c hc, volumeAt_perm cut] at volume
    rw [whole.delta c hc, deltaAt_perm cut] at delta
    exact ⟨(round1_tenths (totals_tenths stored _).1).mp volume.symm,
      (round1_tenths (totals_tenths stored _).2).mp delta.symm⟩
  · intro both
    obtain ⟨fits, nonneg⟩ := both
    have times := whole_times perm descending n limit fits
    have recent : ∀ c ∈ groupRows (ordered.take limit),
        c.time ∈ newest ((stored.map scan).map ScanRow.ts) n := by
      intro c hc
      rw [← times]
      exact List.mem_map_of_mem hc
    refine ⟨times, ?_, ?_, ?_⟩
    · intro c hc
      exact (candle_of_rows hc).1.trans
        ((rowsAt_cut perm descending n limit fits (recent c hc)).map _)
    · intro c hc
      rw [(candle_of_rows hc).2.1,
        volumeAt_perm (rowsAt_cut perm descending n limit fits (recent c hc))]
      exact (round1_tenths (totals_tenths stored _).1).mpr (nonneg _ (recent c hc)).1
    · intro c hc
      rw [(candle_of_rows hc).2.2,
        deltaAt_perm (rowsAt_cut perm descending n limit fits (recent c hc))]
      exact (round1_tenths (totals_tenths stored _).2).mpr (nonneg _ (recent c hc)).2

/- The limit counts rows while the result is in candles: the result is whole exactly
   when the cut falls on the end of the newest candles and no total is negative. -/
theorem queryCandles_whole_iff (db : Database) (market symbol tf : String) (beforeSec : ℤ)
    (maxCandles : ℕ) {answer : List StoredRow}
    (answers : Answers db (buildQuery market symbol tf beforeSec maxCandles) answer) :
    let rows := (matching db (buildQuery market symbol tf beforeSec maxCandles)).map scan
    WholeCandles rows maxCandles (queryCandles answer) ↔
      LimitFits rows (maxCandles * 50 % 2 ^ 32) maxCandles ∧ NonnegativeTotals rows maxCandles := by
  obtain ⟨ordered, perm, descending, rfl⟩ := answers
  have limit : (buildQuery market symbol tf beforeSec maxCandles).limit.toNat =
      maxCandles * 50 % 2 ^ 32 := rfl
  simp only [queryCandles, List.map_take, limit]
  exact groupRows_whole_iff (perm.map scan) (List.pairwise_map.mpr descending) _ _

def sampleRow (time price bid ask : ℤ) : StoredRow := ⟨"BTCUSDT", "1m", time, price, bid, ask, 0, 0⟩

theorem queryCandles_whole_two_candles :
    WholeCandles ([sampleRow 60 1000 5 9, sampleRow 0 1000 5 7, sampleRow 60 1025 2 3].map scan) 2
      (queryCandles [sampleRow 60 1000 5 9, sampleRow 60 1025 2 3, sampleRow 0 1000 5 7]) := by
  have answers : Answers ⟨[sampleRow 60 1000 5 9, sampleRow 0 1000 5 7, sampleRow 60 1025 2 3], []⟩
      (buildQuery "futures" "BTCUSDT" "1m" 0 2)
      [sampleRow 60 1000 5 9, sampleRow 60 1025 2 3, sampleRow 0 1000 5 7] :=
    ⟨[sampleRow 60 1000 5 9, sampleRow 60 1025 2 3, sampleRow 0 1000 5 7], by decide, by decide, rfl⟩
  refine (queryCandles_whole_iff _ _ _ _ _ _ answers).mpr ⟨?_, ?_⟩
  · unfold LimitFits; decide +kernel
  · unfold NonnegativeTotals; decide +kernel

/-- With two candles of one row each and maxCandles = 1, both come back. -/
theorem small_candles_exceed_limit :
    let db : Database := ⟨[sampleRow 60 1000 5 9, sampleRow 0 1000 5 7], []⟩
    let q := buildQuery "futures" "BTCUSDT" "1m" 0 1
    Answers db q [sampleRow 60 1000 5 9, sampleRow 0 1000 5 7] ∧
      ¬ WholeCandles ((matching db q).map scan) 1
        (queryCandles [sampleRow 60 1000 5 9, sampleRow 0 1000 5 7]) := by
  refine ⟨⟨[sampleRow 60 1000 5 9, sampleRow 0 1000 5 7], by decide, by decide, rfl⟩, ?_⟩
  intro whole
  have times := whole.times
  revert times
  decide +kernel

end QueryCandles
