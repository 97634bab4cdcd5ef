import Procluster.Validate
import Procluster.QueryCandles
import Procluster.Library.FloatRounding

/-!
Package api: GET /candles. The last-700 cache is a sorted set of candles scored by
their time; the table is read through QueryCandles. The clock, Redis and ClickHouse
answer what the caller gives. Request texts are parsed here, JSON encoding is not.
What is computed for a cell is computed in float64; the totals of a merge are sums of
tenths, rounded to a tenth, so they are taken exactly.
-/
namespace CandlesApi
open Aggregate KeyedFold DecimalText FloatRounding QueryCandles Validate

structure CandleSet where
  members : List ClusterCandle
  scored : members.Pairwise fun c d => c.time ≤ d.time
  distinct : members.Nodup

def CandleSet.empty : CandleSet := ⟨[], .nil, .nil⟩

/-- ZREVRANGEBYSCORE from +inf to -inf with a count: most recent first. -/
def getLastCandles (set : CandleSet) (limit : ℕ) : List ClusterCandle :=
  set.members.reverse.take limit

/-- An HTTP request: its method, r.URL.Query().Get and the header X-User-Role. -/
structure Request where
  method : String
  query : String → String
  userRole : String

structure ApiError where
  status : ℕ
  code : String
  message : String
  deriving DecidableEq

structure CellJSON where
  price : ℚ
  bid : ℚ
  ask : ℚ
  volume : ℚ
  isPoc : Bool
  isBuyImbalance : Bool
  isSellImbalance : Bool
  deriving DecidableEq

structure CandleJSON where
  time : ℤ
  openPrice : ℚ
  high : ℚ
  low : ℚ
  close : ℚ
  volume : ℚ
  delta : ℚ
  cells : List CellJSON
  deriving DecidableEq

structure CandlesData where
  candles : List CandleJSON
  historyLimited : Bool
  deriving DecidableEq

/-- What the clock, Redis and ClickHouse answer; none is their error. -/
structure Outside where
  nowUnixSec : ℤ
  getLastCandles : String → ℕ → Option (List ClusterCandle)
  query : Query → Option (List StoredRow)

def parseDigits (cs : List Char) : Option ℕ :=
  if cs ≠ [] ∧ cs.all Char.isDigit then some (Nat.ofDigitChars 10 cs 0) else none

theorem parseDigits_toDigits (n : ℕ) : parseDigits (Nat.toDigits 10 n) = some n := by
  have digits : (Nat.toDigits 10 n).all Char.isDigit = true := List.all_eq_true.mpr (toDigits_are_digits n)
  rw [parseDigits, if_pos ⟨Nat.toDigits_ne_nil, digits⟩, Nat.ofDigitChars_ten_toDigits]

/-- strconv.ParseUint(s, 10, 32) -/
def parseUint32 (s : String) : Option UInt32 :=
  match parseDigits s.toList with
  | some n => if n < 2 ^ 32 then some (UInt32.ofNat n) else none
  | none => none

/-- strconv.ParseInt(s, 10, 64), and strconv.Atoi on a 64-bit machine. -/
def parseInt64 (s : String) : Option ℤ :=
  match s.toList with
  | '-' :: cs => (parseDigits cs).bind fun n => if n ≤ 2 ^ 63 then some (-n) else none
  | '+' :: cs => (parseDigits cs).bind fun n => if n < 2 ^ 63 then some (n : ℤ) else none
  | cs => (parseDigits cs).bind fun n => if n < 2 ^ 63 then some (n : ℤ) else none

def roleHistoryDays (role : String) : ℤ :=
  match role with
  | "guest" => 7
  | "free" => 180
  | "pro" => 365
  | "vip" | "admin" => -1
  | _ => 7

/-- math.Round(v*10) / 10 -/
def round1 (times : ℚ → ℚ → ℚ) (v : ℚ) : ℚ := (roundHalfAway (times v 10) : ℚ) / 10

structure Params where
  symbol : String
  market : String
  tf : String
  tc : TickerConfig
  compression : UInt32
  beforeSec : ℤ
  limit : ℕ
  historyDays : ℤ
  deriving DecidableEq

def badRequest (e : ValidateError) : ApiError := ⟨400, e.code, e.message⟩

def readCompression (tc : TickerConfig) (text : String) : Except ApiError UInt32 :=
  let given := if text = "" then some tc.defaultCompression else parseUint32 text
  match given with
  | none => .error ⟨400, "INVALID_PARAMS", "invalid compression"⟩
  | some comp =>
    let comp := if comp = 0 then tc.baseCompression else comp
    match validateCompression comp tc with
    | .error e => .error (badRequest e)
    | .ok _ => .ok comp

def readBefore (text : String) : Except ApiError ℤ :=
  if text = "" then .ok 0
  else
    match parseInt64 text with
    | none => .error ⟨400, "INVALID_PARAMS", "invalid before (unix seconds)"⟩
    | some sec => .ok sec

def readLimit (text : String) : Except ApiError ℕ :=
  if text = "" then .ok 700
  else
    match parseInt64 text with
    | none => .error ⟨400, "INVALID_PARAMS", "limit must be 1-2000"⟩
    | some l =>
      if l < 1 ∨ 2000 < l then .error ⟨400, "INVALID_PARAMS", "limit must be 1-2000"⟩
      else .ok l.toNat

def readParams (m : CaseMap) (v : Validator) (r : Request) : Except ApiError Params :=
  if r.method ≠ "GET" then .error ⟨405, "METHOD_NOT_ALLOWED", "only GET allowed"⟩
  else do
    let symbol := m.toUpper (r.query "symbol")
    let market := m.toLower (r.query "market")
    let tf := r.query "tf"
    let tc ← (validateSymbolMarket m v symbol market).mapError badRequest
    (validateTF tf tc).mapError badRequest
    let compression ← readCompression tc (r.query "compression")
    let beforeSec ← readBefore (r.query "before")
    let limit ← readLimit (r.query "limit")
    let role := if r.userRole = "" then "guest" else r.userRole
    return ⟨symbol, market, tf, tc, compression, beforeSec, limit, roleHistoryDays role⟩

/-- Only the base compression without before is looked up; an error counts as a miss. -/
def cachedCandles (env : Outside) (p : Params) : List ClusterCandle :=
  if p.beforeSec = 0 ∧ p.compression = p.tc.baseCompression then
    (env.getLastCandles (redisCacheKey p.market p.symbol p.tf) p.limit).getD []
  else []

def candlesQuery (p : Params) : Query := buildQuery p.market p.symbol p.tf p.beforeSec p.limit

def readCandles (env : Outside) (p : Params) : Except ApiError (List ClusterCandle) :=
  match cachedCandles env p with
  | [] =>
    match env.query (candlesQuery p) with
    | none => .error ⟨500, "CH_ERROR", "failed to query candles"⟩
    | some answer => .ok (queryCandles answer)
  | candle :: candles => .ok (candle :: candles)

def limitHistory (nowUnixSec historyDays : ℤ) (candles : List ClusterCandle) :
    List ClusterCandle × Bool :=
  if 0 < historyDays ∧ candles ≠ [] then
    let cutoffSec := nowUnixSec - historyDays * 86400
    let filtered := candles.filter fun c => cutoffSec ≤ c.time
    (filtered, filtered.length < candles.length)
  else (candles, false)

/-- Cells, volume and delta of a higher compression; the prices of the candle stay. -/
def mergeCandleBy (bins : UInt32 → ℚ → UInt32 → ℚ → ℚ) (p : Params) (c : ClusterCandle) : ClusterCandle :=
  if p.tc.baseCompression < p.compression then
    let groupSize := p.compression / p.tc.baseCompression
    let merged := mergeCellsBy bins c.cells groupSize p.tc.tickSize p.tc.baseCompression
    { c with
      cells := merged
      volume := round1 (· * ·) (merged.map fun cell => cell.bid + cell.ask).sum
      delta := round1 (· * ·) (merged.map fun cell => cell.ask - cell.bid).sum }
  else c

def mergeCandle (p : Params) (c : ClusterCandle) : ClusterCandle := mergeCandleBy coarseBin p c

/-- The bins of MergeCells in doubles; a bin is the number that is printed for it. -/
def doubleBin (groupSize : UInt32) (baseTickSize : ℚ) (baseComp : UInt32) (price : ℚ) : ℚ :=
  let newBinSize := fmul (fmul groupSize.toNat baseComp.toNat) baseTickSize
  shortest (fmul ⌊fdiv price newBinSize⌋ newBinSize)

def pocIdx (cells : List ClusterCell) : Option ℕ :=
  (cells.zipIdx.foldl (fun (best : ℚ × Option ℕ) (p : ClusterCell × ℕ) =>
    let vol := fadd p.1.bid p.1.ask
    if best.1 < vol then (vol, some p.2) else best) (0, none)).2

/-- amount > other*3.0 -/
def ExceedsThrice (amount other : ℚ) : Prop := fmul other 3 < float64 amount

instance (amount other : ℚ) : Decidable (ExceedsThrice amount other) := inferInstanceAs (Decidable (_ < _))

theorem ExceedsThrice.mono {amount other less : ℚ} (exceeds : ExceedsThrice amount other)
    (below : less ≤ other) : ExceedsThrice amount less := by
  have three : (0 : ℚ) ≤ float64 3 := float64_nonneg (by norm_num)
  have products := float64_mono (mul_le_mul_of_nonneg_right (float64_mono below) three)
  exact products.trans_lt exceeds

def cellJSON (cells : List ClusterCell) (idx : ℕ) (cell : ClusterCell) : CellJSON where
  price := cell.price
  bid := cell.bid
  ask := cell.ask
  volume := round1 fmul (fadd cell.bid cell.ask)
  isPoc := pocIdx cells = some idx
  isBuyImbalance :=
    if 0 < idx then
      match cells[idx - 1]? with
      | some prev => ExceedsThrice cell.ask prev.bid ∧ 0 < prev.bid
      | none => false
    else false
  isSellImbalance :=
    match cells[idx + 1]? with
    | some next => ExceedsThrice cell.bid next.ask ∧ 0 < next.ask
    | none => false

/-- All-zero cells are left out. -/
def cellsJSON (cells : List ClusterCell) : List CellJSON :=
  cells.zipIdx.filterMap fun p =>
    if p.1.price = 0 ∧ p.1.bid = 0 ∧ p.1.ask = 0 then none else some (cellJSON cells p.2 p.1)

def candleJSON (c : ClusterCandle) : CandleJSON where
  time := c.time
  openPrice := c.openPrice
  high := c.high
  low := c.low
  close := c.close
  volume := c.volume
  delta := c.delta
  cells := cellsJSON c.cells

def handleCandles (m : CaseMap) (v : Validator) (env : Outside) (r : Request) :
    Except ApiError CandlesData := do
  let p ← readParams m v r
  let candles ← readCandles env p
  let limited := limitHistory env.nowUnixSec p.historyDays candles
  return ⟨limited.1.map fun c => candleJSON (mergeCandle p c), limited.2⟩

theorem readLimit_ok {text : String} {limit : ℕ} (read : readLimit text = .ok limit) :
    0 < limit ∧ limit ≤ 2000 := by
  unfold readLimit at read
  split at read
  · cases read
    decide
  · split at read
    · cases read
    · split at read
      · cases read
      · cases read
        omega

theorem bind_ok {e : Type} {a b : Type} {x : Except e a} {f : a → Except e b} {y : b}
    (done : (x >>= f) = .ok y) : ∃ z, x = .ok z ∧ f z = .ok y := by
  cases x with
  | error => cases done
  | ok z => exact ⟨z, rfl, done⟩

theorem readParams_limit {m : CaseMap} {v : Validator} {r : Request} {p : Params}
    (valid : readParams m v r = .ok p) : 0 < p.limit ∧ p.limit ≤ 2000 := by
  unfold readParams at valid
  split at valid
  · cases valid
  · obtain ⟨tc, _, valid⟩ := bind_ok valid
    obtain ⟨_, _, valid⟩ := bind_ok valid
    obtain ⟨compression, _, valid⟩ := bind_ok valid
    obtain ⟨beforeSec, _, valid⟩ := bind_ok valid
    obtain ⟨limit, read, valid⟩ := bind_ok valid
    cases valid
    exact readLimit_ok read

theorem readCompression_divides {tc : TickerConfig} {text : String} {compression : UInt32}
    (read : readCompression tc text = .ok compression) (above : tc.baseCompression < compression) :
    tc.baseCompression ≠ 0 := by
  simp only [readCompression] at read
  split at read
  · cases read
  · rename_i given _
    split at read
    · cases read
    · rename_i _ valid
      cases read
      rcases validateCompression_ok valid with zero | checked
      · rw [zero] at above
        exact absurd above UInt32.not_lt_zero
      · exact checked.1

theorem readParams_divides {m : CaseMap} {v : Validator} {r : Request} {p : Params}
    (valid : readParams m v r = .ok p) :
    p.tc.baseCompression < p.compression → p.tc.baseCompression ≠ 0 := by
  unfold readParams at valid
  split at valid
  · cases valid
  · obtain ⟨tc, _, valid⟩ := bind_ok valid
    obtain ⟨_, _, valid⟩ := bind_ok valid
    obtain ⟨compression, read, valid⟩ := bind_ok valid
    obtain ⟨beforeSec, _, valid⟩ := bind_ok valid
    obtain ⟨limit, _, valid⟩ := bind_ok valid
    cases valid
    exact readCompression_divides read

end CandlesApi
