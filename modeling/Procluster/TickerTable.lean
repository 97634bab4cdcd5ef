import Procluster.Library.PendingDeletions
import Procluster.PriceGrids

/-!
The table ticker_config with AdminHandler's slice of it: handlers that write the table
first and the slice later, under the lock, and restarts that read the table back. Requests
interleave; deletions and merges go on in the background of ClickHouse.
-/
namespace TickerTable
open Aggregate KeyedFold EventRuns PendingDeletions
open CandlesApi (ApiError)
open PriceGrids (TickerRequest badBody postedConfig storedConfig setTicker findTicker uniqueConfigs)
open Validate (CaseMap)

structure Row where
  config : TickerConfig
  updatedAt : ℤ
  deriving DecidableEq

def ticker (tc : TickerConfig) : String × String := (tc.symbol, tc.market)

/-- ORDER BY (symbol, market) -/
def Row.key (r : Row) : String × String := ticker r.config

abbrev Configs := Table Row (String × String)

/-- decimal8 is what the column Decimal(18, 8) keeps of a number. -/
structure Setup where
  caseMap : CaseMap
  decimal8 : ℚ → ℚ
  keeps : ∀ n : ℤ, decimal8 (n / 10 ^ 8) = n / 10 ^ 8
  lands : ∀ v, ∃ n : ℤ, decimal8 v = n / 10 ^ 8

def Setup.stored (setup : Setup) (tc : TickerConfig) : TickerConfig :=
  storedConfig setup.decimal8 tc

def seeds : List TickerConfig :=
  [⟨"BTCUSDT", "futures", 1 / 10, 25, 10, 25, 365, 60, true⟩,
    ⟨"BTCUSDT", "spot", 1 / 100, 500, 10, 500, 1095, 900, true⟩]

def markets : List String := ["spot", "futures"]

/-- Without a count the table passes for empty. -/
def applyMigrations (t : Configs) (counted : Bool) (now : ℤ) : Configs :=
  if counted ∧ t.rows ≠ [] then t else t.insert (seeds.map fun tc => ⟨tc, now⟩)

/-- SELECT … FROM ticker_config FINAL -/
def queryTickerConfigsAll (t : Configs) : List TickerConfig :=
  (ReplacingMerge.final Row.key Row.updatedAt (t.rows.map Stored.row)).map Row.config

/-- WHERE enabled = 1 -/
def queryTickerConfigs (t : Configs) : List TickerConfig :=
  (queryTickerConfigsAll t).filter fun tc => tc.enabled

/-- A request that has written the table and has still to write the slice. -/
inductive Write where
  | set (tc : TickerConfig)
  | erase (symbol market : String)

def Write.ticker : Write → String × String
  | .set tc => TickerTable.ticker tc
  | .erase symbol market => (symbol, market)

def Write.remember : Write → List TickerConfig → List TickerConfig
  | .set tc, configs => setTicker tc configs
  | .erase symbol market, configs => configs.eraseP fun tc => tc.symbol = symbol ∧ tc.market = market

structure System where
  table : Configs
  configs : List TickerConfig
  writes : List Write

section Handlers
variable (setup : Setup)

/-- The part of handlePostTicker before the lock; db is the error of UpsertTickerConfig. -/
def handlePostTicker (s : System) (body : Except String TickerRequest) (now : ℤ) (db : Option String) :
    Except ApiError System :=
  match body with
  | .error e => .error (badBody e)
  | .ok req =>
    if req.symbol = "" ∨ req.market = "" then .error (badBody "symbol and market required")
    else
      match db with
      | some e => .error ⟨500, "DB_ERROR", e⟩
      | none =>
        let tc := postedConfig setup.caseMap req
        .ok { s with table := s.table.insert [⟨setup.stored tc, now⟩], writes := s.writes ++ [.set tc] }

def handleDeleteTicker (s : System) (symbol market : String) (db : Option String) : Except ApiError System :=
  let symbol := setup.caseMap.toUpper symbol
  let market := setup.caseMap.toLower market
  if symbol = "" ∨ market = "" then .error (badBody "symbol and market required")
  else
    match db with
    | some e => .error ⟨500, "DB_ERROR", e⟩
    | none => .ok { s with table := s.table.delete (symbol, market), writes := s.writes ++ [.erase symbol market] }

def answered (s : System) (answer : Except ApiError System) : System :=
  match answer with
  | .ok s' => s'
  | .error _ => s

/-- An insert that succeeds has a market of the column. -/
def Possible (body : Except String TickerRequest) (db : Option String) : Prop :=
  match body with
  | .ok req => req.symbol = "" ∨ req.market = "" ∨ db ≠ none ∨ setup.caseMap.toLower req.market ∈ markets
  | .error _ => True

instance (body : Except String TickerRequest) (db : Option String) : Decidable (Possible setup body db) :=
  match body with
  | .ok _ => inferInstanceAs (Decidable (_ ∨ _))
  | .error _ => isTrue trivial

/-- ApplyMigrations and the loading of runServer; loaded is the answer of QueryTickerConfigs. -/
def runServer (t : Configs) (counted : Bool) (now : ℤ) (loaded : Option (List TickerConfig)) : Option System :=
  let table := applyMigrations t counted now
  match loaded with
  | none => some ⟨table, uniqueConfigs none, []⟩
  | some answer =>
    if answer.Perm (queryTickerConfigs table) then some ⟨table, uniqueConfigs (some answer), []⟩ else none

/-- lock takes the i-th of the requests that wait for the slice; restart ends the process
    with all of them. -/
inductive Event where
  | postTicker (body : Except String TickerRequest) (now : ℤ) (db : Option String)
  | deleteTicker (symbol market : String) (db : Option String)
  | lock (i : ℕ)
  | work (w : Work)
  | restart (counted : Bool) (now : ℤ) (loaded : Option (List TickerConfig))

def step (s : System) : Event → Option System
  | .postTicker body now db =>
    if Possible setup body db then some (answered s (handlePostTicker setup s body now db)) else none
  | .deleteTicker symbol market db => some (answered s (handleDeleteTicker setup s symbol market db))
  | .lock i =>
    match s.writes[i]? with
    | some w => some { s with configs := w.remember s.configs, writes := s.writes.eraseIdx i }
    | none => none
  | .work w => (s.table.work Row.key Row.updatedAt w).map fun table => { s with table := table }
  | .restart counted now loaded => runServer s.table counted now loaded

end Handlers

/-- The clock does not go back, no request overtakes one of the same ticker, and a restart
    reads the table, with no deletion pending. -/
def InTurn (s : System) : Event → Prop
  | .postTicker _ now _ => ∀ r ∈ s.table.rows, r.row.updatedAt ≤ now
  | .lock i => ∀ w ∈ s.writes[i]?, ∀ u ∈ s.writes.take i, u.ticker ≠ w.ticker
  | .restart counted _ loaded => counted = true ∧ loaded.isSome ∧ s.table.deletions = []
  | _ => True

instance (s : System) : ∀ e, Decidable (InTurn s e)
  | .postTicker _ now _ => inferInstanceAs (Decidable (∀ r ∈ s.table.rows, r.row.updatedAt ≤ now))
  | .lock i => inferInstanceAs (Decidable (∀ w ∈ s.writes[i]?, ∀ u ∈ s.writes.take i, u.ticker ≠ w.ticker))
  | .restart counted _ loaded =>
    inferInstanceAs (Decidable (counted = true ∧ loaded.isSome ∧ s.table.deletions = []))
  | .deleteTicker .. | .work _ => isTrue trivial

section Lookup

theorem findTicker_find (configs : List TickerConfig) (symbol market : String) :
    findTicker configs symbol market = find (symbol, market) (configs.map fun tc => (ticker tc, tc)) := by
  induction configs with
  | nil => rfl
  | cons c rest ih =>
    rw [List.map_cons, find, findTicker]
    by_cases here : ticker c = (symbol, market)
    · rw [if_pos here, List.find?_cons_of_pos (by simpa [ticker] using here)]
    · rw [if_neg here, List.find?_cons_of_neg (by simpa [ticker] using here), ← ih, findTicker]

theorem findTicker_iff {configs : List TickerConfig} (distinct : (configs.map ticker).Nodup)
    {symbol market : String} {tc : TickerConfig} :
    findTicker configs symbol market = some tc ↔ tc ∈ configs ∧ ticker tc = (symbol, market) := by
  have keyed : (keys (configs.map fun tc => (ticker tc, tc))).Nodup := by
    rw [keys, List.map_map]
    exact distinct
  rw [findTicker_find]
  constructor
  · intro found
    obtain ⟨own, member, same⟩ := List.mem_map.mp (mem_of_find found)
    obtain ⟨key, rfl⟩ := Prod.mk.inj same
    exact ⟨member, key⟩
  · rintro ⟨member, key⟩
    exact find_of_mem keyed (List.mem_map.mpr ⟨tc, member, by rw [key]⟩)

theorem mem_setTicker {tc c : TickerConfig} {configs : List TickerConfig} (distinct : (configs.map ticker).Nodup) :
    c ∈ setTicker tc configs ↔ c = tc ∨ c ∈ configs ∧ ticker c ≠ ticker tc := by
  induction configs with
  | nil => simp [setTicker]
  | cons d rest ih =>
    obtain ⟨apart, rest_distinct⟩ := List.nodup_cons.mp distinct
    by_cases replaced : d.symbol = tc.symbol ∧ d.market = tc.market
    · have same : ticker d = ticker tc := by simp [ticker, replaced]
      have others : ∀ x ∈ rest, ticker x ≠ ticker tc := by
        intro x inside equal
        exact apart (same ▸ equal ▸ List.mem_map_of_mem inside)
      rw [setTicker, if_pos replaced, List.mem_cons, List.mem_cons]
      constructor
      · rintro (new | inside)
        · exact .inl new
        · exact .inr ⟨.inr inside, others c inside⟩
      · rintro (new | ⟨rfl | inside, other⟩)
        · exact .inl new
        · exact absurd same other
        · exact .inr inside
    · have other : ticker d ≠ ticker tc := by simpa [ticker] using replaced
      rw [setTicker, if_neg replaced, List.mem_cons, ih rest_distinct, List.mem_cons]
      constructor
      · rintro (rfl | new | ⟨inside, apart⟩)
        · exact .inr ⟨.inl rfl, other⟩
        · exact .inl new
        · exact .inr ⟨.inr inside, apart⟩
      · rintro (new | ⟨rfl | inside, apart⟩)
        · exact .inr (.inl new)
        · exact .inl rfl
        · exact .inr (.inr ⟨inside, apart⟩)

theorem setTicker_distinct (tc : TickerConfig) {configs : List TickerConfig}
    (distinct : (configs.map ticker).Nodup) : ((setTicker tc configs).map ticker).Nodup := by
  induction configs with
  | nil => simp [setTicker]
  | cons d rest ih =>
    obtain ⟨apart, rest_distinct⟩ := List.nodup_cons.mp distinct
    by_cases replaced : d.symbol = tc.symbol ∧ d.market = tc.market
    · have same : ticker d = ticker tc := by simp [ticker, replaced]
      rw [setTicker, if_pos replaced, List.map_cons, ← same]
      exact distinct
    · rw [setTicker, if_neg replaced, List.map_cons, List.nodup_cons]
      refine ⟨?_, ih rest_distinct⟩
      intro inside
      obtain ⟨c, member, key⟩ := List.mem_map.mp inside
      rcases (mem_setTicker rest_distinct).mp member with rfl | ⟨old, -⟩
      · simp only [ticker, Prod.mk.injEq] at key
        exact replaced ⟨key.1.symm, key.2.symm⟩
      · exact apart (key ▸ List.mem_map_of_mem old)

theorem mem_eraseTicker {symbol market : String} {c : TickerConfig} {configs : List TickerConfig}
    (distinct : (configs.map ticker).Nodup) :
    c ∈ configs.eraseP (fun tc => tc.symbol = symbol ∧ tc.market = market) ↔
      c ∈ configs ∧ ticker c ≠ (symbol, market) := by
  induction configs with
  | nil => simp
  | cons d rest ih =>
    obtain ⟨apart, rest_distinct⟩ := List.nodup_cons.mp distinct
    by_cases here : ticker d = (symbol, market)
    · rw [List.eraseP_cons_of_pos (by simpa [ticker] using here), List.mem_cons]
      constructor
      · intro inside
        refine ⟨.inr inside, ?_⟩
        intro same
        exact apart (here.trans same.symm ▸ List.mem_map_of_mem inside)
      · rintro ⟨rfl | inside, other⟩
        · exact absurd here other
        · exact inside
    · rw [List.eraseP_cons_of_neg (by simpa [ticker] using here), List.mem_cons, ih rest_distinct, List.mem_cons]
      constructor
      · rintro (rfl | ⟨inside, other⟩)
        · exact ⟨.inl rfl, here⟩
        · exact ⟨.inr inside, other⟩
      · rintro ⟨rfl | inside, other⟩
        · exact .inl rfl
        · exact .inr ⟨inside, other⟩

def Write.outcome : Write → Option TickerConfig
  | .set tc => some tc
  | .erase _ _ => none

theorem remember_distinct (w : Write) {configs : List TickerConfig} (distinct : (configs.map ticker).Nodup) :
    ((w.remember configs).map ticker).Nodup := by
  cases w with
  | set tc => exact setTicker_distinct tc distinct
  | erase symbol market => exact distinct.sublist (List.eraseP_sublist.map ticker)

/-- Under the lock a request changes its ticker and no other. -/
theorem findTicker_remember (w : Write) {configs : List TickerConfig} (distinct : (configs.map ticker).Nodup)
    (symbol market : String) : findTicker (w.remember configs) symbol market =
      if w.ticker = (symbol, market) then w.outcome else findTicker configs symbol market := by
  have after := remember_distinct w distinct
  cases w with
  | set tc =>
    ext c
    rw [findTicker_iff after, Write.remember, mem_setTicker distinct, Write.ticker]
    split
    · rename_i own
      simp only [Write.outcome, Option.some.injEq]
      constructor
      · rintro ⟨new | ⟨-, other⟩, key⟩
        · exact new.symm
        · exact absurd (key.trans own.symm) other
      · rintro rfl
        exact ⟨.inl rfl, own⟩
    · rename_i other
      rw [findTicker_iff distinct]
      constructor
      · rintro ⟨rfl | ⟨inside, -⟩, key⟩
        · exact absurd key other
        · exact ⟨inside, key⟩
      · rintro ⟨inside, key⟩
        refine ⟨.inr ⟨inside, ?_⟩, key⟩
        intro same
        exact other (same.symm.trans key)
  | erase s m =>
    ext c
    rw [findTicker_iff after, Write.remember, mem_eraseTicker distinct, Write.ticker]
    split
    · rename_i own
      simp only [Write.outcome, reduceCtorEq, iff_false]
      rintro ⟨⟨-, other⟩, key⟩
      exact other (key.trans own.symm)
    · rename_i different
      rw [findTicker_iff distinct]
      constructor
      · rintro ⟨⟨inside, -⟩, key⟩
        exact ⟨inside, key⟩
      · rintro ⟨inside, key⟩
        refine ⟨⟨inside, ?_⟩, key⟩
        intro same
        exact different (same.symm.trans key)

end Lookup

end TickerTable
