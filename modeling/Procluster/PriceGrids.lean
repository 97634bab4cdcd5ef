import Procluster.CandlesApi
import Procluster.DailyLoads
import Procluster.ServedSubs

/-!
One server run and its copies of the ticker configs: the table ticker_config, the slice
of AdminHandler, the validator's map, and what the ingests and history jobs were started
with. Admin requests come one at a time; jobs and closers write between them. The table
jobs with its progress is left out, and each ingest has its own keys of Redis.
-/
namespace PriceGrids
open Aggregate KeyedFold EventRuns HistoryLoad DailyLoads TableMerges
open CandlesApi (ApiError)
open LiveIngest (ClusterRow Live WSConfig)
open QueryCandles (StoredRow)
open Validate (CaseMap Validator getConfig newValidator)

/-- The body of POST /api/admin/tickers; its timeframes are not used. -/
structure TickerRequest where
  symbol : String
  market : String
  tickSize : ℚ
  baseCompression : UInt32
  compressionLevels : UInt8
  defaultCompression : UInt32
  ttlDays : UInt32
  domSnapshotSec : UInt32

structure LoadRequest where
  symbol : String
  market : String
  dateFrom : String
  dateTo : String

/-- parseDate is time.Parse on days since 1970, tenthsOf what toDecimal18 keeps, decimal8
    what the column Decimal(18, 8) keeps. -/
structure Server where
  caseMap : CaseMap
  parseDate : String → Option ℤ
  tenthsOf : ℚ → ℤ
  decimal8 : ℚ → ℚ

/-- A goroutine of handleHistoryLoad with the days it has not come to. -/
structure Job where
  cfg : HistoryConfig
  dates : List ℤ

/-- A row of a cluster table, with the market of its writer and the bin size that it had. -/
structure Written where
  market : String
  row : StoredRow
  binSize : ℚ

structure State where
  tickerConfig : List TickerConfig
  configs : List TickerConfig
  validator : Validator
  live : List Live
  jobs : List Job
  written : List Written

def binSize (tickSize : ℚ) (compression : UInt32) : ℚ := (compression.toNat : ℚ) * tickSize

def gridOf (tc : TickerConfig) : ℚ := binSize tc.tickSize tc.baseCompression

def Job.grid (job : Job) : ℚ := binSize job.cfg.tickSize job.cfg.compression

def liveGrid (l : Live) : ℚ := binSize l.cfg.tickSize l.cfg.compression

def tfByMarket (market : String) : List String :=
  match market with
  | "futures" => ["1m", "5m", "15m", "30m", "1h", "4h"]
  | "spot" => ["15m", "30m", "1h", "4h"]
  | _ => []

def builtinConfigs : List TickerConfig :=
  [⟨"BTCUSDT", "futures", 1 / 10, 25, 10, 25, 365, 60, true⟩,
    ⟨"BTCUSDT", "spot", 1 / 100, 500, 10, 500, 1095, 900, true⟩]

/-- The loaded configs without the later ones of the same symbol and market. -/
def uniqueConfigs (loaded : Option (List TickerConfig)) : List TickerConfig :=
  firsts (fun tc => tc.symbol ++ ":" ++ tc.market) (loaded.getD builtinConfigs)

def runServer (loaded : Option (List TickerConfig)) (clock : ℕ) (store : RedisCache.Store) : State where
  tickerConfig := loaded.getD []
  configs := uniqueConfigs loaded
  validator := newValidator (uniqueConfigs loaded)
  live := (uniqueConfigs loaded).map fun tc =>
    LiveIngest.start (WsHub.ingestConfig tc) (tfByMarket tc.market) true clock store
  jobs := []
  written := []

def badBody (message : String) : ApiError := ⟨400, "BAD_REQUEST", message⟩

def postedConfig (m : CaseMap) (req : TickerRequest) : TickerConfig where
  symbol := m.toUpper req.symbol
  market := m.toLower req.market
  tickSize := req.tickSize
  baseCompression := req.baseCompression
  compressionLevels := if req.compressionLevels = 0 then 10 else req.compressionLevels
  defaultCompression := if req.defaultCompression = 0 then req.baseCompression else req.defaultCompression
  ttlDays := if req.ttlDays = 0 then 365 else req.ttlDays
  domSnapshotSec := if req.domSnapshotSec = 0 then 60 else req.domSnapshotSec
  enabled := true

def storedConfig (decimal8 : ℚ → ℚ) (tc : TickerConfig) : TickerConfig :=
  { tc with tickSize := decimal8 tc.tickSize }

/-- The first config of the ticker is replaced; a new ticker goes to the end. -/
def setTicker (tc : TickerConfig) : List TickerConfig → List TickerConfig
  | [] => [tc]
  | c :: rest => if c.symbol = tc.symbol ∧ c.market = tc.market then tc :: rest else c :: setTicker tc rest

/-- db is the error of UpsertTickerConfig. -/
def handlePostTicker (server : Server) (s : State) (body : Except String TickerRequest) (db : Option String) :
    Except ApiError State :=
  match body with
  | .error e => .error (badBody e)
  | .ok req =>
    if req.symbol = "" ∨ req.market = "" then .error (badBody "symbol and market required")
    else
      match db with
      | some e => .error ⟨500, "DB_ERROR", e⟩
      | none =>
        let tc := postedConfig server.caseMap req
        .ok { s with
          tickerConfig := s.tickerConfig ++ [storedConfig server.decimal8 tc]
          configs := setTicker tc s.configs }

def handleDeleteTicker (m : CaseMap) (s : State) (symbol market : String) (db : Option String) :
    Except ApiError State :=
  let symbol := m.toUpper symbol
  let market := m.toLower market
  if symbol = "" ∨ market = "" then .error (badBody "symbol and market required")
  else
    match db with
    | some e => .error ⟨500, "DB_ERROR", e⟩
    | none => .ok { s with
      tickerConfig := s.tickerConfig.filter fun tc => ¬ (tc.symbol = symbol ∧ tc.market = market)
      configs := s.configs.eraseP fun tc => tc.symbol = symbol ∧ tc.market = market }

structure Load where
  symbol : String
  market : String
  first : ℤ
  last : ℤ
  deriving DecidableEq

def readLoad (server : Server) (method : String) (body : Except String LoadRequest) : Except ApiError Load :=
  if method ≠ "POST" then .error ⟨405, "METHOD_NOT_ALLOWED", "POST required"⟩
  else
    match body with
    | .error e => .error (badBody e)
    | .ok req =>
      if req.symbol = "" ∨ req.market = "" ∨ req.dateFrom = "" ∨ req.dateTo = "" then
        .error (badBody "symbol, market, from, to required")
      else
        match server.parseDate req.dateFrom with
        | none => .error (badBody "invalid from date")
        | some first =>
          match server.parseDate req.dateTo with
          | none => .error (badBody "invalid to date")
          | some last => .ok
            ⟨server.caseMap.toUpper req.symbol, server.caseMap.toLower req.market, first, last⟩

def findTicker (configs : List TickerConfig) (symbol market : String) : Option TickerConfig :=
  configs.find? fun c => c.symbol = symbol ∧ c.market = market

def loadConfig (load : Load) (tc : TickerConfig) : HistoryConfig where
  symbol := load.symbol
  market := load.market
  tickSize := tc.tickSize
  compression := tc.baseCompression
  timeframes := if tfByMarket load.market = [] then ["15m", "30m", "1h", "4h"] else tfByMarket load.market

/-- The job keeps the copy of the config it was started with. -/
def handleHistoryLoad (server : Server) (s : State) (method : String) (body : Except String LoadRequest) :
    Except ApiError Job :=
  match readLoad server method body with
  | .error e => .error e
  | .ok load =>
    match findTicker s.configs load.symbol load.market with
    | none => .error ⟨404, "NOT_FOUND", "ticker not found in config"⟩
    | some tc => .ok ⟨loadConfig load tc, dateRange load.first load.last⟩

/-- insertDay takes the next day of a job, its trades, and the order in which the map of
    its aggregators was read; skipDay is a day whose download, parse or insert failed. -/
inductive Event where
  | postTicker (body : Except String TickerRequest) (db : Option String)
  | deleteTicker (symbol market : String) (db : Option String)
  | historyLoad (method : String) (body : Except String LoadRequest)
  | skipDay (j : ℕ)
  | insertDay (j : ℕ) (trades : List Trade) (entries : AggMap)
  | live (i : ℕ) (e : LiveIngest.Event)

/-- A batch that arrives. A bin size of zero makes every bin NaN: NewFromFloat panics. -/
def batchInsert (server : Server) (grid : ℚ) (rows : List ClusterRow) : Option (List StoredRow) :=
  if grid = 0 ∧ rows ≠ [] then none else rows.mapM (appendRow server.tenthsOf)

def closedRows (l : Live) : LiveIngest.Event → List ClusterRow
  | .batchInsert i true =>
    match (l.lane i).closer with
    | .inserting b => LiveIngest.rowsOf l.cfg (l.lane i).timeframe b
    | _ => []
  | _ => []

def record (market : String) (grid : ℚ) (stored : List StoredRow) : List Written :=
  stored.map fun row => ⟨market, row, grid⟩

/-- The state that a handler leaves; a failed request changes nothing. -/
def answered (s : State) (answer : Except ApiError State) : State :=
  match answer with
  | .ok s' => s'
  | .error _ => s

def step (server : Server) (s : State) : Event → Option State
  | .postTicker body db => some (answered s (handlePostTicker server s body db))
  | .deleteTicker symbol market db => some (answered s (handleDeleteTicker server.caseMap s symbol market db))
  | .historyLoad method body =>
    match handleHistoryLoad server s method body with
    | .error _ => some s
    | .ok job => some { s with jobs := s.jobs ++ [job] }
  | .skipDay j =>
    match s.jobs[j]? with
    | some ⟨cfg, _ :: dates⟩ => some { s with jobs := s.jobs.set j ⟨cfg, dates⟩ }
    | _ => none
  | .insertDay j trades entries =>
    match s.jobs[j]? with
    | some ⟨cfg, _ :: dates⟩ =>
      if entries.Perm (aggregate exactly cfg trades) then
        let grid := binSize cfg.tickSize cfg.compression
        (batchInsert server grid (allRows cfg entries)).map fun stored => { s with
          jobs := s.jobs.set j ⟨cfg, dates⟩
          written := s.written ++ record cfg.market grid stored }
      else none
    | _ => none
  | .live i e =>
    match s.live[i]? with
    | none => none
    | some l =>
      match LiveIngest.step l e with
      | none => none
      | some l' => (batchInsert server (liveGrid l) (closedRows l e)).map fun stored => { s with
        live := s.live.set i l'
        written := s.written ++ record l.cfg.market (liveGrid l) stored }

def Reports (server : Server) (v : Validator) (symbol market : String) (grid : ℚ) : Prop :=
  ∃ tc, getConfig server.caseMap v symbol market = some tc ∧ gridOf tc = grid

/-- The row was made on the grid that GetConfig reports for its ticker, and lies on it. -/
structure OnReportedGrid (server : Server) (v : Validator) (w : Written) : Prop where
  reported : Reports server v w.row.symbol w.market w.binSize
  aligned : ∃ k : ℤ, (w.row.price : ℚ) / 10 = k * w.binSize

def OneGrid (server : Server) (s : State) : Prop := ∀ w ∈ s.written, OnReportedGrid server s.validator w

theorem same_grid {server : Server} {s : State} (oneGrid : OneGrid server s) {w w' : Written}
    (member : w ∈ s.written) (member' : w' ∈ s.written) (symbol : w.row.symbol = w'.row.symbol)
    (market : w.market = w'.market) : w.binSize = w'.binSize := by
  obtain ⟨tc, found, grid⟩ := (oneGrid w member).reported
  obtain ⟨tc', found', grid'⟩ := (oneGrid w' member').reported
  rw [symbol, market, found', Option.some.injEq] at found
  rw [← grid, ← grid', found]

def StoreKeeps (tenthsOf : ℚ → ℤ) (grid : ℚ) : Prop :=
  ∀ k : ℤ, ∃ j : ℤ, (tenthsOf (k * grid) : ℚ) / 10 = j * grid

/-- GetConfig finds each ticker under the name its ingest writes, or one of its bin size,
    and the tables can hold its prices. -/
def GoodStart (server : Server) (configs : List TickerConfig) : Prop :=
  ∀ tc ∈ configs, Reports server (newValidator configs) tc.symbol tc.market (gridOf tc) ∧
    StoreKeeps server.tenthsOf (gridOf tc)

/-- A load of at least one day finds its ticker with the bin size that GetConfig reports. -/
def LoadsKeepGrid (server : Server) (s : State) : Event → Prop
  | .historyLoad method body => ∀ load, readLoad server method body = .ok load → load.first ≤ load.last →
      ∀ tc, findTicker s.configs load.symbol load.market = some tc → gridOf tc ≠ 0 →
        Reports server s.validator load.symbol load.market (gridOf tc)
  | _ => True

def OfWriter : Event → Prop
  | .skipDay _ | .insertDay _ _ _ | .live _ _ => True
  | _ => False

/-- The property holds, and still does whatever the running jobs and closers write next. -/
def Lasting (server : Server) (s : State) : Prop :=
  ∀ writes, (∀ e ∈ writes, OfWriter e) → ∀ s', run (step server) s writes = some s' → OneGrid server s'

def RowOnGrid (symbol : String) (grid : ℚ) (r : ClusterRow) : Prop :=
  r.symbol = symbol ∧ ∃ k : ℤ, r.price = k * grid

theorem bin_multiple (price tickSize : ℚ) (compression : UInt32) :
    ∃ k : ℤ, binPriceLow price tickSize compression = k * binSize tickSize compression :=
  ⟨_, rfl⟩

/- An entry of the map holds some of the trades, so its cells are bins of trades. -/
theorem allRows_onGrid {cfg : HistoryConfig} {trades : List Trade} {entries : AggMap}
    (perm : entries.Perm (aggregate exactly cfg trades)) :
    ∀ r ∈ allRows cfg entries, RowOnGrid cfg.symbol (binSize cfg.tickSize cfg.compression) r := by
  intro r member
  obtain ⟨p, listed, row⟩ := List.mem_flatMap.mp member
  obtain ⟨-, -, holds⟩ := entry_fed (perm.mem_iff.mp listed)
  rw [rowsOf_book holds] at row
  obtain ⟨c, cell, rfl⟩ := List.mem_map.mp row
  obtain ⟨t, -, bin⟩ := List.mem_map.mp ((mem_book cfg.bin).mp cell).1
  exact ⟨rfl, bin ▸ bin_multiple t.price cfg.tickSize cfg.compression⟩

theorem closedRows_onGrid {l : Live} (sound : ∀ i, LiveIngest.Sound l.cfg (l.lane i))
    (e : LiveIngest.Event) : ∀ r ∈ closedRows l e, RowOnGrid l.cfg.symbol (liveGrid l) r := by
  intro r member
  unfold closedRows at member
  split at member
  · rename_i i
    have closer := (sound i).closer
    split at member
    · rename_i b here
      rw [here] at closer
      obtain ⟨c, cell, rfl⟩ := List.mem_map.mp member
      obtain ⟨t, -, bin⟩ := closer.own c cell
      exact ⟨rfl, bin ▸ bin_multiple t.price l.cfg.tickSize l.cfg.compression⟩
    · simp at member
  · simp at member

theorem record_onGrid {server : Server} {v : Validator} {symbol market : String} {grid : ℚ}
    {rows : List ClusterRow} {stored : List StoredRow} (reports : Reports server v symbol market grid)
    (keeps : StoreKeeps server.tenthsOf grid) (each : ∀ r ∈ rows, RowOnGrid symbol grid r)
    (inserted : batchInsert server grid rows = some stored) :
    ∀ w ∈ record market grid stored, OnReportedGrid server v w := by
  intro w member
  unfold batchInsert at inserted
  split at inserted
  · cases inserted
  · obtain ⟨-, rfl⟩ := mapM_store.mp inserted
    obtain ⟨row, inside, rfl⟩ := List.mem_map.mp member
    obtain ⟨r, given, rfl⟩ := List.mem_map.mp inside
    obtain ⟨own, k, price⟩ := each r given
    obtain ⟨j, kept⟩ := keeps k
    subst own
    rw [← price] at kept
    exact ⟨reports, j, kept⟩

theorem getConfig_mem {m : CaseMap} {configs : List TickerConfig} {symbol market : String}
    {tc : TickerConfig} (found : getConfig m (newValidator configs) symbol market = some tc) :
    tc ∈ configs :=
  gather_entries (fun _ tc => tc ∈ configs) (fun _ member => member) (fun _ member _ _ => member) _
    (mem_of_find found)

/- What relates the copies: the validator has the configs of the start, every job that can
   still write has a bin size it reports, and the ingests have those of the start. -/
structure Consistent (server : Server) (configs : List TickerConfig) (s : State) : Prop where
  validator : s.validator = newValidator configs
  written : OneGrid server s
  jobs : ∀ job ∈ s.jobs, job.dates ≠ [] → job.grid ≠ 0 →
    Reports server s.validator job.cfg.symbol job.cfg.market job.grid
  live : ∀ l ∈ s.live, (∀ i, LiveIngest.Sound l.cfg (l.lane i)) ∧
    ∃ tc ∈ configs, l.cfg = WsHub.ingestConfig tc

theorem consistent_start (server : Server) (loaded : Option (List TickerConfig)) (clock : ℕ)
    (store : RedisCache.Store) : Consistent server (uniqueConfigs loaded) (runServer loaded clock store) := by
  refine ⟨rfl, ?_, ?_, ?_⟩
  · intro w member
    cases member
  · intro job member
    cases member
  · intro l member
    obtain ⟨tc, known, rfl⟩ := List.mem_map.mp member
    exact ⟨fun i => LiveIngest.newLane_sound _ _ _, tc, known, rfl⟩

theorem ticker_requests_frame {server : Server} {s s' : State} {answer : Except ApiError State}
    (made : (∃ body db, answer = handlePostTicker server s body db) ∨
      ∃ symbol market db, answer = handleDeleteTicker server.caseMap s symbol market db)
    (state : s' = answered s answer) :
    s'.validator = s.validator ∧ s'.live = s.live ∧ s'.jobs = s.jobs ∧ s'.written = s.written := by
  subst state
  obtain ⟨body, db, rfl⟩ | ⟨symbol, market, db, rfl⟩ := made
  · unfold handlePostTicker answered
    cases body with
    | error e => simp
    | ok req =>
      by_cases empty : req.symbol = "" ∨ req.market = ""
      · simp [empty]
      · cases db <;> simp [empty]
  · unfold handleDeleteTicker answered
    by_cases empty : server.caseMap.toUpper symbol = "" ∨ server.caseMap.toLower market = ""
    · simp [empty]
    · cases db <;> simp [empty]

theorem consistent_frame {server : Server} {configs : List TickerConfig} {s s' : State}
    (consistent : Consistent server configs s)
    (frame : s'.validator = s.validator ∧ s'.live = s.live ∧ s'.jobs = s.jobs ∧ s'.written = s.written) :
    Consistent server configs s' := by
  obtain ⟨validator, live, jobs, written⟩ := frame
  obtain ⟨known, grid, started, running⟩ := consistent
  refine ⟨validator.trans known, ?_, ?_, ?_⟩
  · unfold OneGrid
    rw [validator, written]
    exact grid
  · rw [validator, jobs]
    exact started
  · rw [live]
    exact running

theorem consistent_write {server : Server} {configs : List TickerConfig} {s : State}
    (consistent : Consistent server configs s) {added : List Written}
    (fits : ∀ w ∈ added, OnReportedGrid server s.validator w) :
    Consistent server configs { s with written := s.written ++ added } := by
  refine ⟨consistent.validator, ?_, consistent.jobs, consistent.live⟩
  intro w member
  rcases List.mem_append.mp member with earlier | new
  · exact consistent.written w earlier
  · exact fits w new

theorem consistent_shorter {server : Server} {configs : List TickerConfig} {s : State}
    (consistent : Consistent server configs s) {j : ℕ} {cfg : HistoryConfig} {day : ℤ} {dates : List ℤ}
    (running : s.jobs[j]? = some ⟨cfg, day :: dates⟩) :
    Consistent server configs { s with jobs := s.jobs.set j ⟨cfg, dates⟩ } := by
  refine ⟨consistent.validator, consistent.written, ?_, consistent.live⟩
  intro job member
  rcases List.mem_or_eq_of_mem_set member with other | rfl
  · exact consistent.jobs job other
  · intro _
    have before := consistent.jobs ⟨cfg, day :: dates⟩ (List.mem_of_getElem? running)
    exact before (List.cons_ne_nil day dates)

theorem inserted_nothing {server : Server} {grid : ℚ} {rows : List ClusterRow} {stored : List StoredRow}
    (zero : grid = 0) (inserted : batchInsert server grid rows = some stored) : stored = [] := by
  unfold batchInsert at inserted
  split at inserted
  · cases inserted
  · rename_i empty
    have nothing : rows = [] := by
      by_contra some
      exact empty ⟨zero, some⟩
    subst nothing
    simpa using inserted.symm

theorem job_writes {server : Server} {configs : List TickerConfig} (good : GoodStart server configs)
    {s : State} (consistent : Consistent server configs s) {job : Job} (listed : job ∈ s.jobs)
    (busy : job.dates ≠ []) {trades : List Trade} {entries : AggMap}
    (perm : entries.Perm (aggregate exactly job.cfg trades)) {stored : List StoredRow}
    (inserted : batchInsert server job.grid (allRows job.cfg entries) = some stored) :
    ∀ w ∈ record job.cfg.market job.grid stored, OnReportedGrid server s.validator w := by
  by_cases zero : job.grid = 0
  · rw [inserted_nothing zero inserted]
    simp [record]
  · have reports := consistent.jobs job listed busy zero
    obtain ⟨tc, found, same⟩ := reports
    rw [consistent.validator] at found
    have keeps := (good tc (getConfig_mem found)).2
    rw [same] at keeps
    exact record_onGrid (consistent.jobs job listed busy zero) keeps (allRows_onGrid perm) inserted

theorem closer_writes {server : Server} {configs : List TickerConfig} (good : GoodStart server configs)
    {s : State} (consistent : Consistent server configs s) {l : Live} (listed : l ∈ s.live)
    {e : LiveIngest.Event} {stored : List StoredRow}
    (inserted : batchInsert server (liveGrid l) (closedRows l e) = some stored) :
    ∀ w ∈ record l.cfg.market (liveGrid l) stored, OnReportedGrid server s.validator w := by
  obtain ⟨sound, tc, known, config⟩ := consistent.live l listed
  obtain ⟨reports, keeps⟩ := good tc known
  have rows := closedRows_onGrid sound e
  have grid : liveGrid l = gridOf tc := by
    rw [liveGrid, config]
    rfl
  rw [← consistent.validator, ← grid] at reports
  rw [← grid] at keeps
  have symbol : l.cfg.symbol = tc.symbol := by rw [config]; rfl
  have market : l.cfg.market = tc.market := by rw [config]; rfl
  rw [← symbol, ← market] at reports
  exact record_onGrid reports keeps rows inserted

theorem closer_moves {server : Server} {configs : List TickerConfig} {s : State}
    (consistent : Consistent server configs s) {i : ℕ} {l l' : Live} (listed : l ∈ s.live)
    {e : LiveIngest.Event} (taken : LiveIngest.step l e = some l') :
    Consistent server configs { s with live := s.live.set i l' } := by
  refine ⟨consistent.validator, consistent.written, consistent.jobs, ?_⟩
  intro other member
  rcases List.mem_or_eq_of_mem_set member with before | rfl
  · exact consistent.live other before
  · obtain ⟨sound, tc, known, config⟩ := consistent.live l listed
    obtain ⟨same, lanes⟩ := LiveIngest.lanes_step rfl sound
      (fun i le _ _ change => LiveIngest.laneStep_sound (sound i) change) taken
    rw [← same] at lanes
    exact ⟨lanes, tc, known, same.trans config⟩

theorem load_starts {server : Server} {configs : List TickerConfig} {s : State}
    (consistent : Consistent server configs s) {method : String} {body : Except String LoadRequest}
    (keeps : LoadsKeepGrid server s (.historyLoad method body)) {job : Job}
    (started : handleHistoryLoad server s method body = .ok job) :
    Consistent server configs { s with jobs := s.jobs ++ [job] } := by
  refine ⟨consistent.validator, consistent.written, ?_, consistent.live⟩
  intro other member
  rcases List.mem_append.mp member with before | new
  · exact consistent.jobs other before
  · obtain rfl := List.mem_singleton.mp new
    unfold handleHistoryLoad at started
    split at started
    · cases started
    · rename_i load read
      split at started
      · cases started
      · rename_i tc found
        obtain rfl := Except.ok.inj started
        intro busy
        have range : load.first ≤ load.last := by
          by_contra backwards
          have none : (load.last - load.first + 1).toNat = 0 := by omega
          exact busy (by simp [dateRange, none])
        exact keeps load read range tc found

theorem consistent_step {server : Server} {configs : List TickerConfig} (good : GoodStart server configs)
    {s s' : State} {e : Event} (consistent : Consistent server configs s)
    (keeps : LoadsKeepGrid server s e) (taken : step server s e = some s') :
    Consistent server configs s' := by
  cases e with
  | postTicker body db =>
    obtain rfl := Option.some.inj taken
    exact consistent_frame consistent (ticker_requests_frame (.inl ⟨body, db, rfl⟩) rfl)
  | deleteTicker symbol market db =>
    obtain rfl := Option.some.inj taken
    exact consistent_frame consistent (ticker_requests_frame (.inr ⟨symbol, market, db, rfl⟩) rfl)
  | historyLoad method body =>
    simp only [step] at taken
    split at taken
    · obtain rfl := Option.some.inj taken
      exact consistent
    · rename_i job started
      obtain rfl := Option.some.inj taken
      exact load_starts consistent keeps started
  | skipDay j =>
    simp only [step] at taken
    split at taken
    · rename_i running
      obtain rfl := Option.some.inj taken
      exact consistent_shorter consistent running
    · cases taken
  | insertDay j trades entries =>
    simp only [step] at taken
    split at taken
    · rename_i cfg day dates running
      split at taken
      · rename_i perm
        obtain ⟨stored, inserted, rfl⟩ := Option.map_eq_some_iff.mp taken
        have listed : (⟨cfg, day :: dates⟩ : Job) ∈ s.jobs := List.mem_of_getElem? running
        have fits := job_writes good consistent listed (List.cons_ne_nil _ _) perm inserted
        exact consistent_write (consistent_shorter consistent running) fits
      · cases taken
    · cases taken
  | live i e =>
    simp only [step] at taken
    split at taken
    · cases taken
    · rename_i l running
      split at taken
      · cases taken
      · rename_i l' moved
        obtain ⟨stored, inserted, rfl⟩ := Option.map_eq_some_iff.mp taken
        have listed := List.mem_of_getElem? running
        have fits := closer_writes good consistent listed inserted
        exact consistent_write (closer_moves consistent listed moved) fits

theorem consistent_lasting {server : Server} {configs : List TickerConfig} (good : GoodStart server configs)
    {s : State} (consistent : Consistent server configs s) : Lasting server s := by
  intro writes each s' reach
  have free : Guarded (step server) (LoadsKeepGrid server) s writes := by
    apply guarded_of_events
    intro e member t
    have writer := each e member
    cases e <;> simp_all [OfWriter, LoadsKeepGrid]
  exact (invariant_run (Consistent server configs) (LoadsKeepGrid server)
    (fun _ _ _ => consistent_step good) consistent free reach).written

def firstTrade : Trade := ⟨1, 0, 1, 0, true⟩

theorem one_trade_inserts (server : Server) {cfg : HistoryConfig} (timeframes : cfg.timeframes ≠ [])
    (grid : binSize cfg.tickSize cfg.compression ≠ 0) :
    ∃ row rows, batchInsert server (binSize cfg.tickSize cfg.compression)
      (allRows cfg (aggregate exactly cfg [firstTrade])) = some (row :: rows) ∧ row.symbol = cfg.symbol := by
  have sorted : [firstTrade].Pairwise fun t u => t.tradeID < u.tradeID := List.pairwise_singleton _ _
  have atEpoch : ∀ tf, candleTimeUnix firstTrade.tradeTimeMs tf = 0 := by
    intro tf
    unfold candleTimeUnix
    cases tfSeconds tf with
    | none => rfl
    | some secs => simp [firstTrade]
  have times : ∀ r ∈ allRows cfg (aggregate exactly cfg [firstTrade]), Accepted r := by
    intro r member
    obtain ⟨p, listed, row⟩ := List.mem_flatMap.mp member
    obtain ⟨-, some, holds⟩ := entry_holds (ids_distinct sorted) listed
    obtain ⟨t, inside⟩ := List.exists_mem_of_ne_nil _ some
    obtain ⟨one, time⟩ := List.mem_filter.mp inside
    rw [List.mem_singleton.mp one, atEpoch, decide_eq_true_eq] at time
    rw [rowsOf_book holds] at row
    obtain ⟨c, -, rfl⟩ := List.mem_map.mp row
    simp [Accepted, ← time]
  have some : allRows cfg (aggregate exactly cfg [firstTrade]) ≠ [] := by
    obtain ⟨tf, rest, split⟩ := List.exists_cons_of_ne_nil timeframes
    have held : inCandle [firstTrade] (candleKey firstTrade tf) = [firstTrade] := by
      simp [inCandle, candleKey]
    have reached : (candleKey firstTrade tf).tf ∈ cfg.timeframes := by simp [candleKey, split]
    have found := find_aggregate exactly cfg [firstTrade] (candleKey firstTrade tf)
    rw [held, if_pos ⟨reached, by simp⟩] at found
    obtain ⟨-, -, holds⟩ := entry_holds (ids_distinct sorted) (mem_of_find found)
    rw [held] at holds
    have bin : cfg.bin firstTrade ∈ (book cfg.bin [firstTrade]).map ClusterCell.price := by
      simp [book_prices]
    intro none
    have empty := List.flatMap_eq_nil_iff.mp none _ (mem_of_find found)
    rw [rowsOf_book holds, List.map_eq_nil_iff] at empty
    simp [empty] at bin
  obtain ⟨first, others, listed⟩ := List.exists_cons_of_ne_nil some
  refine ⟨store server.tenthsOf first, others.map (store server.tenthsOf), ?_, ?_⟩
  · simp only [batchInsert, grid, false_and, ↓reduceIte]
    exact mapM_store.mpr ⟨times, by rw [listed, List.map_cons]⟩
  · have own := allRows_onGrid (List.Perm.refl (aggregate exactly cfg [firstTrade])) first
    exact (own (by rw [listed]; exact List.mem_cons_self)).1

theorem named_accepted (server : Server) (s : State) (req : TickerRequest)
    (named : ¬ (req.symbol = "" ∨ req.market = "")) :
    handlePostTicker server s (.ok req) none = .ok { s with
      tickerConfig := s.tickerConfig ++ [storedConfig server.decimal8 (postedConfig server.caseMap req)]
      configs := setTicker (postedConfig server.caseMap req) s.configs } := by
  simp only [handlePostTicker, named, ↓reduceIte]

theorem post_step {server : Server} {s : State} {req : TickerRequest}
    (named : ¬ (req.symbol = "" ∨ req.market = "")) :
    step server s (.postTicker (.ok req) none) = some { s with
      tickerConfig := s.tickerConfig ++ [storedConfig server.decimal8 (postedConfig server.caseMap req)]
      configs := setTicker (postedConfig server.caseMap req) s.configs } := by
  simp only [step, answered, named_accepted _ _ _ named]

theorem load_step {server : Server} {s : State} {method : String} {body : Except String LoadRequest}
    {load : Load} (read : readLoad server method body = .ok load) {tc : TickerConfig}
    (found : findTicker s.configs load.symbol load.market = some tc) :
    step server s (.historyLoad method body) = some { s with
      jobs := s.jobs ++ [⟨loadConfig load tc, dateRange load.first load.last⟩] } := by
  simp only [step, handleHistoryLoad, read, found]

theorem insertDay_step {server : Server} {s : State} {j : ℕ} {cfg : HistoryConfig} {day : ℤ}
    {dates : List ℤ} (running : s.jobs[j]? = some ⟨cfg, day :: dates⟩) {trades : List Trade}
    {entries : AggMap} (perm : entries.Perm (aggregate exactly cfg trades)) {stored : List StoredRow}
    (inserted : batchInsert server (binSize cfg.tickSize cfg.compression) (allRows cfg entries) = some stored) :
    step server s (.insertDay j trades entries) = some { s with
      jobs := s.jobs.set j ⟨cfg, dates⟩
      written := s.written ++ record cfg.market (binSize cfg.tickSize cfg.compression) stored } := by
  simp only [step, running, perm, ↓reduceIte, inserted, Option.map_some]

/- A load off the reported grid shows in the tables with the first day it inserts. -/
theorem load_breaks {server : Server} {s s' : State} {e : Event} (outside : ¬ LoadsKeepGrid server s e)
    (taken : step server s e = some s') : ¬ Lasting server s' := by
  cases e with
  | historyLoad method body =>
    simp only [LoadsKeepGrid, not_forall] at outside
    obtain ⟨load, read, range, tc, found, grid, unreported⟩ := outside
    obtain rfl := Option.some.inj ((load_step read found).symm.trans taken)
    intro lasting
    have timeframes : (loadConfig load tc).timeframes ≠ [] := by
      simp only [loadConfig]
      split <;> simp_all
    obtain ⟨row, rows, inserted, symbol⟩ := one_trade_inserts server timeframes grid
    obtain ⟨day, dates, days⟩ : ∃ day dates, dateRange load.first load.last = day :: dates := by
      apply List.exists_cons_of_ne_nil
      intro none
      have count := congrArg List.length none
      simp only [dateRange, List.length_map, List.length_range, List.length_nil] at count
      omega
    rw [days] at lasting
    have running : (s.jobs ++ [(⟨loadConfig load tc, day :: dates⟩ : Job)])[s.jobs.length]? =
        some ⟨loadConfig load tc, day :: dates⟩ := by simp
    have written := lasting [.insertDay s.jobs.length [firstTrade] _] (by simp [OfWriter]) _ (by
      rw [run_cons, insertDay_step running (List.Perm.refl _) inserted]
      rfl)
    have reports := (written ⟨load.market, row, gridOf tc⟩ (by
      apply List.mem_append_right
      simp [record, loadConfig, gridOf])).reported
    simp only [symbol] at reports
    exact unreported reports
  | postTicker | deleteTicker | skipDay | insertDay | live => exact absurd trivial outside

/-- From a good start, the tables stay on the grid that GetConfig reports exactly if no
    history load takes another one from the admin's slice. -/
theorem one_grid_iff {server : Server} {loaded : Option (List TickerConfig)}
    (good : GoodStart server (uniqueConfigs loaded)) (clock : ℕ) (store : RedisCache.Store)
    (events : List Event) :
    Always (step server) (Lasting server) (runServer loaded clock store) events ↔
      Guarded (step server) (LoadsKeepGrid server) (runServer loaded clock store) events :=
  always_iff_guarded (Consistent server (uniqueConfigs loaded)) (fun _ => consistent_lasting good)
    (fun _ _ _ => consistent_step good) (fun _ _ _ _ => load_breaks)
    (consistent_start server loaded clock store) events

theorem storeKeeps_tenths (n : ℤ) : StoreKeeps nearestTenth (n / 10) := by
  intro k
  refine ⟨k, ?_⟩
  rw [nearestTenth, show 10 * ((k : ℚ) * (n / 10)) = ((k * n : ℤ) : ℚ) by push_cast; ring,
    DecimalText.nearest_intCast DecimalText.roundHalfAway_near]
  push_cast
  ring

def btcServer : Server where
  caseMap := ⟨Char.toUpper, Char.toLower⟩
  parseDate text := if text = "2026-05-01" then some 20574 else none
  tenthsOf := nearestTenth
  decimal8 v := (⌊v * 10 ^ 8⌋ : ℚ) / 10 ^ 8

def btcPost (baseCompression : UInt32) : TickerRequest :=
  ⟨"btcusdt", "futures", 1 / 10, baseCompression, 0, 0, 0, 0⟩

def btcLoad : LoadRequest := ⟨"btcusdt", "FUTURES", "2026-05-01", "2026-05-01"⟩

def btcHistoryOf (compression : UInt32) : HistoryConfig :=
  ⟨"BTCUSDT", "futures", 1 / 10, compression, tfByMarket "futures"⟩

def postedAndLoaded (compression : UInt32) : List Event :=
  [.postTicker (.ok (btcPost compression)) none, .historyLoad "POST" (.ok btcLoad),
    .insertDay 0 [firstTrade] (aggregate exactly (btcHistoryOf compression) [firstTrade])]

theorem btc_read : readLoad btcServer "POST" (.ok btcLoad) = .ok ⟨"BTCUSDT", "futures", 20574, 20574⟩ := by
  decide +kernel

theorem builtin_good : GoodStart btcServer (uniqueConfigs none) := by
  intro tc known
  have configs : uniqueConfigs none = builtinConfigs := by decide +kernel
  rw [configs] at known ⊢
  have grids : ∀ tc ∈ builtinConfigs,
      (getConfig btcServer.caseMap (newValidator builtinConfigs) tc.symbol tc.market).map gridOf =
        some (gridOf tc) ∧ (gridOf tc = (25 : ℤ) / 10 ∨ gridOf tc = (50 : ℤ) / 10) := by
    decide +kernel
  obtain ⟨found, value | value⟩ := grids tc known
  · exact ⟨Option.map_eq_some_iff.mp found, value ▸ storeKeeps_tenths 25⟩
  · exact ⟨Option.map_eq_some_iff.mp found, value ▸ storeKeeps_tenths 50⟩

theorem btc_loaded (compression : UInt32) :
    loadConfig ⟨"BTCUSDT", "futures", 20574, 20574⟩ (postedConfig btcServer.caseMap (btcPost compression)) =
      btcHistoryOf compression := by
  simp [loadConfig, btcHistoryOf, postedConfig, btcPost, tfByMarket]

theorem btc_found (compression : UInt32) :
    findTicker (setTicker (postedConfig btcServer.caseMap (btcPost compression)) (uniqueConfigs none))
      "BTCUSDT" "futures" = some (postedConfig btcServer.caseMap (btcPost compression)) := by
  have configs : uniqueConfigs none = builtinConfigs := by decide +kernel
  have symbol : (postedConfig btcServer.caseMap (btcPost compression)).symbol = "BTCUSDT" := by
    change btcServer.caseMap.toUpper "btcusdt" = "BTCUSDT"
    decide +kernel
  have market : (postedConfig btcServer.caseMap (btcPost compression)).market = "futures" := by
    change btcServer.caseMap.toLower "futures" = "futures"
    decide +kernel
  rw [configs]
  simp [findTicker, builtinConfigs, setTicker, symbol, market]

/-- After a POST of base compression 50 the day is stored on a grid of 5, the reports say 2.5. -/
theorem posted_grid_loaded : ¬ Always (step btcServer) (OneGrid btcServer) (runServer none 0 [])
    (postedAndLoaded 50) := by
  intro always
  obtain ⟨row, rows, inserted, symbol⟩ := one_trade_inserts btcServer
    (show (btcHistoryOf 50).timeframes ≠ [] by decide) (by decide +kernel)
  have dates : dateRange 20574 20574 = [20574] := by decide
  have running : ([] ++ [(⟨loadConfig ⟨"BTCUSDT", "futures", 20574, 20574⟩
      (postedConfig btcServer.caseMap (btcPost 50)), dateRange 20574 20574⟩ : Job)])[0]? =
      some ⟨btcHistoryOf 50, [20574]⟩ := by
    rw [btc_loaded, dates]
    rfl
  have afterPost := (always_cons.mp always).2 _ (post_step (by decide))
  have afterLoad := (always_cons.mp afterPost).2 _ (load_step btc_read (btc_found 50))
  have afterDay := (always_cons.mp afterLoad).2 _ (insertDay_step running (List.Perm.refl _) inserted)
  obtain ⟨tc, found, grid⟩ := (always_final afterDay rfl ⟨"futures", row, binSize (1 / 10) 50⟩
    (List.mem_append_right _ List.mem_cons_self)).reported
  have own : row.symbol = "BTCUSDT" := symbol
  have reported : (getConfig btcServer.caseMap (newValidator (uniqueConfigs none)) "BTCUSDT" "futures").map
      gridOf = some (5 / 2) := by decide +kernel
  rw [own] at found
  have same := (congrArg (Option.map gridOf) found).symm.trans reported
  have five : binSize (1 / 10) 50 = 5 := by decide +kernel
  rw [Option.map_some, grid, five, Option.some.injEq] at same
  norm_num at same

/- The base compression posted as it is keeps the grid. -/
theorem same_grid_posted : Always (step btcServer) (Lasting btcServer) (runServer none 0 [])
    (postedAndLoaded 25) := by
  apply (one_grid_iff builtin_good 0 [] (postedAndLoaded 25)).mpr
  intro s₁ posted
  rw [post_step (by decide), Option.some.injEq] at posted
  subst posted
  refine ⟨trivial, ?_⟩
  intro s₂ loaded
  refine ⟨?_, fun _ _ => ⟨trivial, trivial⟩⟩
  intro load read _ tc found _
  obtain rfl := Except.ok.inj (btc_read.symm.trans read)
  obtain rfl := Option.some.inj ((btc_found 25).symm.trans found)
  exact Option.map_eq_some_iff.mp (by decide +kernel)

end PriceGrids
