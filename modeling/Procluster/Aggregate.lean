import Mathlib
import Procluster.Library.KeyedFold

/-!
Package aggregate: candle times, price bins, volume rounding, the in-memory
aggregator of one timeframe and the merge into higher compressions. A float64
is the exact rational it stands for, so sums and quotients carry no rounding
error; the only rounding is the one the source asks for. A Go map is an
insertion-ordered keyed list.
-/
namespace Aggregate
open KeyedFold

structure ClusterCell where
  price : ℚ
  bid : ℚ
  ask : ℚ
  deriving DecidableEq, Repr

structure ClusterCandle where
  time : ℤ
  openPrice : ℚ
  high : ℚ
  low : ℚ
  close : ℚ
  volume : ℚ
  delta : ℚ
  cells : List ClusterCell
  deriving DecidableEq, Repr

structure Trade where
  tradeID : ℤ
  price : ℚ
  qty : ℚ
  tradeTimeMs : ℤ
  isBuyerMaker : Bool
  deriving DecidableEq, Repr

structure TickerConfig where
  symbol : String
  market : String
  tickSize : ℚ
  baseCompression : UInt32
  compressionLevels : UInt8
  defaultCompression : UInt32
  ttlDays : UInt32
  domSnapshotSec : UInt32
  enabled : Bool
  deriving DecidableEq, Repr

def tfSeconds : String → Option ℤ
  | "1m" => some 60
  | "5m" => some 300
  | "15m" => some 900
  | "30m" => some 1800
  | "1h" => some 3600
  | "4h" => some 14400
  | _ => none

/-- The candle open time in unix seconds; Go's integer division truncates. -/
def candleTimeUnix (tradeTimeMs : ℤ) (tf : String) : ℤ :=
  match tfSeconds tf with
  | none => 0
  | some secs => ((tradeTimeMs.tdiv 1000).tdiv secs) * secs

def binPriceLow (price tickSize : ℚ) (compression : UInt32) : ℚ :=
  let binSize := (compression.toNat : ℚ) * tickSize
  (⌊price / binSize⌋ : ℚ) * binSize

/-- The digits d1 and d2 are read off the printed decimal of the magnitude; a
    value with at most one digit after the point is returned as it is. -/
def roundHalfUp (v : ℚ) : ℚ :=
  if v = 0 then 0
  else
    let sign : ℚ := if v < 0 then -1 else 1
    let abs := if v < 0 then -v else v
    if (10 * abs).den = 1 then v
    else
      let d1 := ⌊10 * abs⌋ % 10
      let d2 := ⌊100 * abs⌋ % 10
      let d1 := if 5 ≤ d2 then d1 + 1 else d1
      let intPart := ⌊abs⌋
      if 10 ≤ d1 then sign * ((intPart + 1 : ℤ) : ℚ)
      else sign * ((intPart : ℚ) + (d1 : ℚ) / 10)

/-- float64(int(v*10+0.5)) / 10; the conversion to int truncates towards zero. -/
def truncTenth (v : ℚ) : ℚ :=
  let w := v * 10 + 1 / 2
  ((if 0 ≤ w then ⌊w⌋ else ⌈w⌉ : ℤ) : ℚ) / 10

structure Aggregator where
  symbol : String
  market : String
  timeframe : String
  tickSize : ℚ
  comp : UInt32
  cells : List (ℚ × ClusterCell)
  seen : Finset ℤ
  lastTradeID : ℤ
  logGaps : Bool
  firstTradePrice : ℚ
  lastTradePrice : ℚ
  tradeCount : ℕ
  deriving DecidableEq

def newAggregator (symbol market tf : String) (tickSize : ℚ) (compression : UInt32) : Aggregator where
  symbol := symbol
  market := market
  timeframe := tf
  tickSize := tickSize
  comp := compression
  cells := []
  seen := ∅
  lastTradeID := 0
  logGaps := true
  firstTradePrice := 0
  lastTradePrice := 0
  tradeCount := 0

def Aggregator.bin (a : Aggregator) (t : Trade) : ℚ := binPriceLow t.price a.tickSize a.comp

structure Arithmetic where
  bin : ℚ → ℚ → UInt32 → ℚ
  plus : ℚ → ℚ → ℚ

def exactly : Arithmetic := ⟨binPriceLow, (· + ·)⟩

def addTradeBy (plus : ℚ → ℚ → ℚ) (bin : ℚ) (t : Trade) (cell : Option ClusterCell) : ClusterCell :=
  let cell := cell.getD ⟨bin, 0, 0⟩
  if t.isBuyerMaker then { cell with bid := plus cell.bid t.qty }
  else { cell with ask := plus cell.ask t.qty }

def addTrade (bin : ℚ) (t : Trade) (cell : Option ClusterCell) : ClusterCell :=
  addTradeBy (· + ·) bin t cell

/-- The gap (gapStart, gapEnd) is none where the source returns hasGap = false. -/
def processTradeBy (arith : Arithmetic) (a : Aggregator) (t : Trade) : Aggregator × Option (ℤ × ℤ) :=
  if t.tradeID ∈ a.seen then (a, none)
  else
    let bin := arith.bin t.price a.tickSize a.comp
    let gap := if 0 < a.lastTradeID ∧ a.lastTradeID + 1 < t.tradeID
      then some (a.lastTradeID + 1, t.tradeID - 1) else none
    ({ a with
        seen := insert t.tradeID a.seen
        lastTradeID := if a.lastTradeID < t.tradeID then t.tradeID else a.lastTradeID
        cells := upsert bin (addTradeBy arith.plus bin t) a.cells
        firstTradePrice := if a.tradeCount = 0 then t.price else a.firstTradePrice
        lastTradePrice := t.price
        tradeCount := a.tradeCount + 1 }, gap)

def processTrade (a : Aggregator) (t : Trade) : Aggregator × Option (ℤ × ℤ) := processTradeBy exactly a t

def Aggregator.currentCells (a : Aggregator) : List ClusterCell :=
  (a.cells.map fun p => ⟨p.2.price, roundHalfUp p.2.bid, roundHalfUp p.2.ask⟩).insertionSort
    fun c d => c.price ≤ d.price

/-- The trade count and the first and last prices are not reset. -/
def flush (a : Aggregator) : List ClusterCell × Aggregator :=
  (a.currentCells, { a with cells := [], seen := ∅, lastTradeID := 0 })

def mergeInto (newBin : ℚ → ℚ) (base : List ClusterCell) : List ClusterCell :=
  let merged := gather (fun c : ClusterCell => newBin c.price) (fun c (cell : Option ClusterCell) =>
    let cell := cell.getD ⟨newBin c.price, 0, 0⟩
    { cell with bid := cell.bid + c.bid, ask := cell.ask + c.ask }) base
  (merged.map fun p => (⟨p.2.price, roundHalfUp p.2.bid, roundHalfUp p.2.ask⟩ : ClusterCell)).insertionSort
    fun c d => c.price ≤ d.price

section Bins
variable (bins : UInt32 → ℚ → UInt32 → ℚ → ℚ) (base : List ClusterCell) (groupSize : UInt32)
  (baseTickSize : ℚ) (baseComp : UInt32)

def mergeCellsBy : List ClusterCell :=
  if base = [] ∨ groupSize = 0 then [] else mergeInto (bins groupSize baseTickSize baseComp) base

def coarseBin (p : ℚ) : ℚ :=
  let newBinSize := (groupSize.toNat : ℚ) * (baseComp.toNat : ℚ) * baseTickSize
  (⌊p / newBinSize⌋ : ℚ) * newBinSize

def mergeCells : List ClusterCell := mergeCellsBy coarseBin base groupSize baseTickSize baseComp

end Bins

def candleLoop (closeOf : ClusterCell → ℚ) (time : ℤ) (cells : List ClusterCell) : ClusterCandle :=
  cells.foldl (fun (candle : ClusterCandle) (cell : ClusterCell) =>
    { candle with
      volume := candle.volume + (cell.bid + cell.ask)
      delta := candle.delta + (cell.ask - cell.bid)
      low := if candle.openPrice = 0 ∨ cell.price < candle.low then cell.price else candle.low
      high := if candle.high < cell.price then cell.price else candle.high
      openPrice := if candle.openPrice = 0 then cell.price else candle.openPrice
      close := closeOf cell }) (ClusterCandle.mk time 0 0 0 0 0 0 cells)

def redisAggKey (market symbol tf : String) (candleTimeUnix : ℤ) : String :=
  "agg:" ++ market ++ ":" ++ symbol ++ ":" ++ tf ++ ":" ++ candleTimeUnix.repr

def redisCacheKey (market symbol tf : String) : String :=
  "cache:" ++ market ++ ":" ++ symbol ++ ":" ++ tf

/-- On whole tenths the half that is added only helps values that are not negative. -/
theorem truncTenth_tenths (k : ℤ) : truncTenth ((k : ℚ) / 10) = k / 10 ↔ (0 : ℚ) ≤ k / 10 := by
  have half : (k : ℚ) / 10 * 10 + 1 / 2 = k + 1 / 2 := by ring
  have floor : ⌊(k : ℚ) + 1 / 2⌋ = k := by
    rw [Int.floor_intCast_add, show ⌊(1 / 2 : ℚ)⌋ = 0 by norm_num, add_zero]
  have ceil : ⌈(k : ℚ) + 1 / 2⌉ = k + 1 := by
    rw [Int.ceil_intCast_add, show ⌈(1 / 2 : ℚ)⌉ = 1 by norm_num]
  simp only [truncTenth, half, floor, ceil]
  by_cases nonneg : 0 ≤ k
  · have value : (0 : ℚ) ≤ k := by exact_mod_cast nonneg
    have above : (0 : ℚ) ≤ k + 1 / 2 := by linarith
    simp only [above, ↓reduceIte, true_iff]
    positivity
  · have value : (k : ℚ) ≤ -1 := by exact_mod_cast Int.le_sub_one_of_lt (not_le.mp nonneg)
    have below : ¬ (0 : ℚ) ≤ k + 1 / 2 := by linarith
    simp only [below, ↓reduceIte]
    push_cast
    constructor
    · intro same; linarith
    · intro same; linarith

theorem candleLoop_frame (closeOf : ClusterCell → ℚ) (time : ℤ) (cells : List ClusterCell) :
    (candleLoop closeOf time cells).time = time ∧ (candleLoop closeOf time cells).cells = cells := by
  unfold candleLoop
  apply List.foldlRecOn (motive := fun candle : ClusterCandle =>
    candle.time = time ∧ candle.cells = cells) cells _ ⟨rfl, rfl⟩
  intro candle kept cell _
  exact kept

theorem redisAggKey_injective {market symbol tf : String} {c d : ℤ}
    (same : redisAggKey market symbol tf c = redisAggKey market symbol tf d) : c = d := by
  unfold redisAggKey at same
  exact Int.repr_injective ((String.append_right_inj _).mp same)

section OldTrade
variable {arith : Arithmetic} {a : Aggregator} {t : Trade} (old : t.tradeID ∈ a.seen)
include old

theorem processTradeBy_seen : processTradeBy arith a t = (a, none) := by
  simp [processTradeBy, old]

theorem processTrade_seen : processTrade a t = (a, none) := processTradeBy_seen old

end OldTrade

section NewTrade
variable {arith : Arithmetic} {a : Aggregator} {t : Trade} (new : t.tradeID ∉ a.seen)
include new

theorem processTradeBy_cells : (processTradeBy arith a t).1.cells =
    upsert (arith.bin t.price a.tickSize a.comp)
      (addTradeBy arith.plus (arith.bin t.price a.tickSize a.comp) t) a.cells := by
  simp [processTradeBy, new]

theorem processTrade_cells : (processTrade a t).1.cells =
    upsert (a.bin t) (addTrade (a.bin t) t) a.cells := processTradeBy_cells new

theorem processTrade_lastTradeID :
    (processTrade a t).1.lastTradeID = max a.lastTradeID t.tradeID := by
  simp only [processTrade, processTradeBy, new, ↓reduceIte]
  split <;> omega

theorem processTrade_gap : (processTrade a t).2 =
    if 0 < a.lastTradeID ∧ a.lastTradeID + 1 < t.tradeID
      then some (a.lastTradeID + 1, t.tradeID - 1) else none := by
  simp [processTrade, processTradeBy, new]

end NewTrade

theorem processTradeBy_seen_set (arith : Arithmetic) (a : Aggregator) (t : Trade) :
    (processTradeBy arith a t).1.seen = insert t.tradeID a.seen := by
  by_cases old : t.tradeID ∈ a.seen
  · rw [processTradeBy_seen old, Finset.insert_eq_of_mem old]
  · simp [processTradeBy, old]

theorem processTrade_seen_set (a : Aggregator) (t : Trade) :
    (processTrade a t).1.seen = insert t.tradeID a.seen := processTradeBy_seen_set exactly a t

@[simp] theorem processTrade_bin (a : Aggregator) (t u : Trade) :
    (processTrade a t).1.bin u = a.bin u := by
  unfold processTrade processTradeBy Aggregator.bin
  split <;> rfl

@[simp] theorem flush_bin (a : Aggregator) (u : Trade) : (flush a).2.bin u = a.bin u := rfl

@[simp] theorem flush_cells (a : Aggregator) : (flush a).2.cells = [] := rfl

@[simp] theorem flush_seen (a : Aggregator) : (flush a).2.seen = ∅ := rfl

@[simp] theorem flush_lastTradeID (a : Aggregator) : (flush a).2.lastTradeID = 0 := rfl

@[simp] theorem flush_output (a : Aggregator) : (flush a).1 = a.currentCells := rfl

theorem addTradeBy_price (plus : ℚ → ℚ → ℚ) (bin : ℚ) (t : Trade) (cell : Option ClusterCell)
    (own : ∀ c ∈ cell, c.price = bin) : (addTradeBy plus bin t cell).price = bin := by
  cases cell with
  | none => unfold addTradeBy; split <;> rfl
  | some c =>
    have := own c rfl
    unfold addTradeBy
    split <;> simpa using this

theorem tfSeconds_pos {tf : String} {secs : ℤ} (known : tfSeconds tf = some secs) : 0 < secs := by
  unfold tfSeconds at known
  split at known <;> simp_all <;> omega

theorem tdiv_nonpos {a b : ℤ} (ha : a ≤ 0) (hb : 0 ≤ b) : a.tdiv b ≤ 0 := by
  have mirrored := Int.tdiv_nonneg (Int.neg_nonneg.mpr ha) hb
  rw [Int.neg_tdiv] at mirrored
  omega

theorem candleTimeUnix_of_nonneg {tf : String} {secs : ℤ} (known : tfSeconds tf = some secs) {ms : ℤ}
    (time : 0 ≤ ms) : candleTimeUnix ms tf = ms / 1000 / secs * secs := by
  have nonneg : 0 ≤ ms / 1000 := Int.ediv_nonneg time (by decide)
  simp only [candleTimeUnix, known]
  rw [Int.tdiv_eq_ediv_of_nonneg time, Int.tdiv_eq_ediv_of_nonneg nonneg]

theorem candleTimeUnix_eq_iff {tf : String} {secs : ℤ} (known : tfSeconds tf = some secs)
    (ms : ℤ) {c : ℤ} (positive : 0 < c) (grid : secs ∣ c) :
    candleTimeUnix ms tf = c ↔ c ≤ ms / 1000 ∧ ms / 1000 < c + secs := by
  have length := tfSeconds_pos known
  by_cases early : ms < 0
  · -- truncation keeps an early time at or before zero
    have value : candleTimeUnix ms tf = (ms.tdiv 1000).tdiv secs * secs := by
      simp only [candleTimeUnix, known]
    have seconds : ms.tdiv 1000 ≤ 0 := tdiv_nonpos early.le (by decide)
    have candles : (ms.tdiv 1000).tdiv secs ≤ 0 := tdiv_nonpos seconds length.le
    have before : (ms.tdiv 1000).tdiv secs * secs ≤ 0 :=
      mul_nonpos_of_nonpos_of_nonneg candles length.le
    omega
  · have time : 0 ≤ ms := not_lt.mp early
    obtain ⟨k, rfl⟩ := grid
    have window : ms / 1000 / secs = k ↔ secs * k ≤ ms / 1000 ∧ ms / 1000 < secs * k + secs := by
      rw [Int.ediv_eq_iff_of_pos length, Int.mul_comm k]
    rw [candleTimeUnix_of_nonneg known time, Int.mul_comm, mul_right_inj' length.ne']
    exact window

section HeldTrades
variable (plus : ℚ → ℚ → ℚ) (bin : Trade → ℚ)

def cellsOfBy (held : List Trade) : List (ℚ × ClusterCell) :=
  gather bin (fun t => addTradeBy plus (bin t) t) held

def cellsOf (held : List Trade) : List (ℚ × ClusterCell) := cellsOfBy (· + ·) bin held

theorem cellsOfBy_price {held : List Trade} {p : ℚ × ClusterCell} (member : p ∈ cellsOfBy plus bin held) :
    p.2.price = p.1 := by
  have found := find_of_mem (gather_keys_nodup _ _ _) member
  rw [find_gather] at found
  have own : ∀ t ∈ held.filter (fun t => bin t = p.1), bin t = p.1 := by
    intro t ht
    simpa using (List.mem_filter.mp ht).2
  generalize held.filter (fun t => bin t = p.1) = mine at found own
  generalize p.2 = cell at found
  induction mine using List.reverseRecOn generalizing cell with
  | nil => cases found
  | append_singleton mine t ih =>
    simp only [List.foldl_append, List.foldl_cons, List.foldl_nil, Option.some.injEq] at found
    rw [← found, ← own t (by simp)]
    apply addTradeBy_price
    intro earlier built
    rw [own t (by simp)]
    exact ih (fun u hu => own u (by simp [hu])) earlier built

theorem currentCells_held {a : Aggregator} {held : List Trade} (built : a.cells = cellsOf bin held) :
    (∀ c ∈ a.currentCells, ∃ t ∈ held, bin t = c.price) ∧
      ∀ t ∈ held, bin t ∈ a.currentCells.map ClusterCell.price := by
  have sorted : ∀ c, c ∈ a.currentCells ↔ ∃ p ∈ cellsOf bin held,
      ⟨p.2.price, roundHalfUp p.2.bid, roundHalfUp p.2.ask⟩ = c := by
    intro c
    simp only [Aggregator.currentCells, List.mem_insertionSort, List.mem_map, built]
  constructor
  · intro c hc
    obtain ⟨p, hp, rfl⟩ := (sorted c).mp hc
    obtain ⟨t, ht, same⟩ := (mem_gather_keys _ _ _ p.1).mp (List.mem_map_of_mem hp)
    exact ⟨t, ht, same.trans (cellsOfBy_price _ bin hp).symm⟩
  · intro t ht
    obtain ⟨p, hp, same⟩ := List.mem_map.mp ((mem_gather_keys bin
      (fun t => addTrade (bin t) t) held (bin t)).mpr ⟨t, ht, rfl⟩)
    exact List.mem_map.mpr ⟨_, (sorted _).mpr ⟨p, hp, rfl⟩, (cellsOfBy_price _ bin hp).trans same⟩

theorem cellsOfBy_append_one (held : List Trade) (t : Trade) :
    cellsOfBy plus bin (held ++ [t]) = upsert (bin t) (addTradeBy plus (bin t) t) (cellsOfBy plus bin held) :=
  gather_append_one _ _ _ _

theorem cellsOf_append_one (held : List Trade) (t : Trade) :
    cellsOf bin (held ++ [t]) = upsert (bin t) (addTrade (bin t) t) (cellsOf bin held) :=
  cellsOfBy_append_one _ _ _ _

end HeldTrades

end Aggregate
