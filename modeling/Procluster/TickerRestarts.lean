import Procluster.TickerTable

/-!
The slice of AdminHandler against the table, in every interleaving of requests, background
work and restarts: a ticker that no request is busy with is in the slice as it is in the
table, and a restart finds what was there before it.
-/
namespace TickerTable
open Aggregate KeyedFold EventRuns PendingDeletions ReplacingMerge
open PriceGrids (TickerRequest postedConfig storedConfig findTicker uniqueConfigs)

/-- What the table will have of a ticker, with the pending deletions done. -/
def config (t : Configs) (k : String × String) : Option TickerConfig := (t.current Row.key k).map Row.config

section Stored
variable (setup : Setup)

theorem decimal8_twice (v : ℚ) : setup.decimal8 (setup.decimal8 v) = setup.decimal8 v := by
  obtain ⟨n, lands⟩ := setup.lands v
  rw [lands, setup.keeps]

@[simp] theorem stored_stored (tc : TickerConfig) : setup.stored (setup.stored tc) = setup.stored tc := by
  simp [Setup.stored, storedConfig, decimal8_twice]

@[simp] theorem stored_ticker (tc : TickerConfig) : ticker (setup.stored tc) = ticker tc := rfl

@[simp] theorem stored_enabled (tc : TickerConfig) : (setup.stored tc).enabled = tc.enabled := rfl

theorem stored_seeds : ∀ tc ∈ seeds, setup.stored tc = tc := by
  have tenth : setup.decimal8 (1 / 10) = 1 / 10 := by
    have kept := setup.keeps 10000000
    norm_num at kept
    simpa using kept
  have hundredth : setup.decimal8 (1 / 100) = 1 / 100 := by
    have kept := setup.keeps 1000000
    norm_num at kept
    simpa using kept
  intro tc seed
  simp only [seeds, List.mem_cons, List.not_mem_nil, or_false] at seed
  obtain rfl | rfl := seed
  · simp only [Setup.stored, storedConfig, tenth]
  · simp only [Setup.stored, storedConfig, hundredth]

def InColumns (tc : TickerConfig) : Prop := tc.market ∈ markets ∧ setup.stored tc = tc

structure Sound (t : Configs) : Prop where
  ordered : Ordered Row.updatedAt t
  columns : ∀ r ∈ t.rows, InColumns setup r.row.config

/-- The last request that wrote the table for the ticker decides. -/
def Agrees (s : System) (k : String × String) : Prop :=
  match (s.writes.filter fun w => w.ticker = k).getLast? with
  | some w => config s.table k = w.outcome.map setup.stored
  | none => (findTicker s.configs k.1 k.2).map setup.stored = (config s.table k).filter fun tc => tc.enabled

structure Coherent (s : System) : Prop where
  sound : Sound setup s.table
  distinct : (s.configs.map ticker).Nodup
  enabled : ∀ w ∈ s.writes, ∀ tc ∈ w.outcome, tc.enabled = true
  agrees : ∀ k, Agrees setup s k

end Stored

section Steps
variable {setup : Setup} {s s' : System}

theorem agrees_quiet {k : String × String} (agrees : Agrees setup s k) (quiet : ∀ w ∈ s.writes, w.ticker ≠ k) :
    (findTicker s.configs k.1 k.2).map setup.stored = (config s.table k).filter fun tc => tc.enabled := by
  have none_busy : (s.writes.filter fun w => w.ticker = k) = [] := by
    apply List.filter_eq_nil_iff.mpr
    simpa using quiet
  simpa only [Agrees, none_busy, List.getLast?_nil] using agrees

theorem coherent_write (coherent : Coherent setup s) {t : Configs} (sound : Sound setup t) (w : Write)
    (enabled : ∀ tc ∈ w.outcome, tc.enabled = true)
    (changed : ∀ k, config t k = if w.ticker = k then w.outcome.map setup.stored else config s.table k) :
    Coherent setup { s with table := t, writes := s.writes ++ [w] } := by
  refine ⟨sound, coherent.distinct, ?_, ?_⟩
  · intro u member
    rcases List.mem_append.mp member with old | new
    · exact coherent.enabled u old
    · exact List.mem_singleton.mp new ▸ enabled
  · intro k
    have before := coherent.agrees k
    simp only [Agrees, List.filter_append, changed k] at before ⊢
    by_cases own : w.ticker = k
    · simp [own]
    · simpa [own] using before

theorem sound_insert {t : Configs} (sound : Sound setup t) {configs : List TickerConfig} {now : ℤ}
    (columns : ∀ tc ∈ configs, InColumns setup tc) (later : ∀ r ∈ t.rows, r.row.updatedAt ≤ now) :
    Sound setup (t.insert (configs.map fun tc => ⟨tc, now⟩)) := by
  constructor
  · apply ordered_insert sound.ordered
    · exact List.pairwise_map.mpr (List.pairwise_of_forall fun _ _ => le_rfl)
    · intro old inside r given
      obtain ⟨tc, -, rfl⟩ := List.mem_map.mp given
      exact later old inside
  · intro r member
    rcases List.mem_append.mp member with old | new
    · exact sound.columns r old
    · obtain ⟨row, given, rfl⟩ := List.mem_map.mp new
      obtain ⟨tc, listed, rfl⟩ := List.mem_map.mp given
      exact columns tc listed

theorem coherent_post (coherent : Coherent setup s) {body : Except String TickerRequest} {now : ℤ}
    {db : Option String} (possible : Possible setup body db) (later : ∀ r ∈ s.table.rows, r.row.updatedAt ≤ now) :
    Coherent setup (answered s (handlePostTicker setup s body now db)) := by
  unfold handlePostTicker
  cases body with
  | error e => exact coherent
  | ok req =>
    by_cases empty : req.symbol = "" ∨ req.market = ""
    · simpa [empty, answered] using coherent
    · cases db with
      | some e => simpa [empty, answered] using coherent
      | none =>
        simp only [empty, ↓reduceIte, answered]
        have market : setup.caseMap.toLower req.market ∈ markets := by
          rcases possible with no_symbol | no_market | failed | fits
          · exact absurd (.inl no_symbol) empty
          · exact absurd (.inr no_market) empty
          · exact absurd rfl failed
          · exact fits
        have columns : ∀ tc ∈ [setup.stored (postedConfig setup.caseMap req)], InColumns setup tc := by
          intro tc listed
          obtain rfl := List.mem_singleton.mp listed
          exact ⟨market, stored_stored setup _⟩
        apply coherent_write coherent (sound_insert coherent.sound columns later)
        · intro tc new
          obtain rfl := Option.some.inj new
          rfl
        · intro k
          rw [config, List.map_singleton, current_insert coherent.sound.ordered]
          by_cases own : ticker (postedConfig setup.caseMap req) = k
          · simp [Row.key, own, Write.ticker, Write.outcome]
          · simp [Row.key, own, Write.ticker, config]

theorem coherent_delete (coherent : Coherent setup s) (symbol market : String) (db : Option String) :
    Coherent setup (answered s (handleDeleteTicker setup s symbol market db)) := by
  simp only [handleDeleteTicker]
  split
  · exact coherent
  · cases db with
    | some e => exact coherent
    | none =>
      apply coherent_write coherent ⟨ordered_delete coherent.sound.ordered _, coherent.sound.columns⟩
      · simp [Write.outcome]
      · intro k
        rw [config, current_delete coherent.sound.ordered]
        by_cases own : k = (setup.caseMap.toUpper symbol, setup.caseMap.toLower market)
        · simp [own, Write.ticker, Write.outcome]
        · simp [own, Ne.symm own, Write.ticker, config]

/-- A request that is not overtaken leaves the slice as the last one of its ticker wants it. -/
theorem coherent_lock (coherent : Coherent setup s) {i : ℕ} (in_turn : InTurn s (.lock i))
    (taken : step setup s (.lock i) = some s') : Coherent setup s' := by
  simp only [step] at taken
  split at taken
  · rename_i w found
    obtain rfl := Option.some.inj taken
    have earlier := in_turn w found
    obtain ⟨a, b, writes, rfl⟩ := split_at found
    have rest : s.writes.eraseIdx a.length = a ++ b := by
      rw [writes, List.eraseIdx_append_of_length_le le_rfl, Nat.sub_self, List.eraseIdx_cons_zero]
    rw [writes, List.take_left' rfl] at earlier
    have enabled := coherent.enabled
    rw [rest]
    refine ⟨coherent.sound, remember_distinct w coherent.distinct, ?_, ?_⟩
    · intro u member
      apply enabled u
      rw [writes]
      rcases List.mem_append.mp member with before | after
      · exact List.mem_append_left _ before
      · exact List.mem_append_right _ (List.mem_cons_of_mem w after)
    · intro k
      have before := coherent.agrees k
      simp only [Agrees, writes, List.filter_append] at before ⊢
      by_cases own : w.ticker = k
      · have none_before : (a.filter fun u => u.ticker = k) = [] := by
          apply List.filter_eq_nil_iff.mpr
          intro u inside
          simpa using own ▸ earlier u inside
        rw [none_before, List.nil_append, List.filter_cons_of_pos (by simpa using own)] at before
        rw [none_before, List.nil_append]
        cases last : (b.filter fun u => u.ticker = k).getLast? with
        | some u =>
          rw [List.getLast?_cons, last] at before
          exact before
        | none =>
          rw [List.getLast?_cons, last] at before
          simp only [Option.getD_none] at before
          simp only [findTicker_remember w coherent.distinct, own, ↓reduceIte, before]
          cases outcome : w.outcome with
          | none => rfl
          | some tc =>
            have on : (setup.stored tc).enabled = true := enabled w (by simp [writes]) tc (by simp [outcome])
            exact (Option.filter_some_pos on).symm
      · rw [List.filter_cons_of_neg (by simpa using own)] at before
        simp only [findTicker_remember w coherent.distinct, own, ↓reduceIte]
        exact before
  · cases taken

theorem coherent_work (coherent : Coherent setup s) {w : Work} (taken : step setup s (.work w) = some s') :
    Coherent setup s' := by
  obtain ⟨table, done, rfl⟩ := Option.map_eq_some_iff.mp taken
  have ordered := coherent.sound.ordered
  have rows : ∀ r ∈ table.rows, r ∈ s.table.rows := fun r member => work_rows done member
  refine ⟨⟨ordered_work ordered done, fun r member => coherent.sound.columns r (rows r member)⟩,
    coherent.distinct, coherent.enabled, ?_⟩
  intro k
  have before := coherent.agrees k
  simpa only [Agrees, config, current_work ordered done k] using before

end Steps

section Restart
variable {setup : Setup}

theorem config_row {t : Configs} {k : String × String} {tc : TickerConfig} (found : config t k = some tc) :
    ∃ r ∈ t.rows, r.row.config = tc ∧ ticker tc = k := by
  obtain ⟨row, current, rfl⟩ := Option.map_eq_some_iff.mp found
  obtain ⟨r, last, rfl⟩ := Option.map_eq_some_iff.mp current
  obtain ⟨member, stays⟩ := List.mem_filter.mp (List.mem_of_getLast? last)
  exact ⟨r, member, rfl, (of_decide_eq_true stays).1⟩

theorem mem_queryTickerConfigsAll {t : Configs} (ordered : Ordered Row.updatedAt t) {tc : TickerConfig}
    (done : ∀ d ∈ t.deletions, d.key ≠ ticker tc) :
    tc ∈ queryTickerConfigsAll t ↔ config t (ticker tc) = some tc := by
  have current : find (ticker tc) (gather Row.key (newer Row.updatedAt) (t.rows.map Stored.row)) =
    t.current Row.key (ticker tc) := current_final ordered done
  rw [queryTickerConfigsAll, config, ← current, Option.map_eq_some_iff, List.mem_map]
  constructor
  · rintro ⟨r, listed, rfl⟩
    refine ⟨r, ?_, rfl⟩
    apply find_of_mem (gather_keys_nodup _ _ _)
    rw [gather_of_final]
    exact List.mem_map.mpr ⟨r, listed, rfl⟩
  · rintro ⟨r, found, rfl⟩
    have member := mem_of_find found
    rw [gather_of_final] at member
    obtain ⟨own, listed, same⟩ := List.mem_map.mp member
    exact ⟨r, (Prod.mk.inj same).2 ▸ listed, rfl⟩

theorem queryTickerConfigsAll_distinct (t : Configs) : ((queryTickerConfigsAll t).map ticker).Nodup := by
  rw [queryTickerConfigsAll, List.map_map]
  exact final_keys_nodup _

/- symbol + ":" + market tells tickers of the two markets apart. -/
theorem joined_injective {tc other : TickerConfig} (market : tc.market ∈ markets) (market' : other.market ∈ markets)
    (same : tc.symbol ++ ":" ++ tc.market = other.symbol ++ ":" ++ other.market) : ticker tc = ticker other := by
  have texts := congrArg String.toList same
  simp only [String.toList_append] at texts
  simp only [markets, List.mem_cons, List.not_mem_nil, or_false] at market market'
  have equal : tc.market = other.market := by
    rcases market with spot | futures <;> rcases market' with spot' | futures'
    · rw [spot, spot']
    · rw [spot, futures'] at texts
      have lasts := congrArg List.getLast? texts
      simp at lasts
    · rw [futures, spot'] at texts
      have lasts := congrArg List.getLast? texts
      simp at lasts
    · rw [futures, futures']
  rw [equal] at same
  have symbols : tc.symbol = other.symbol := by
    exact (String.append_left_inj _).mp ((String.append_left_inj _).mp same)
  rw [ticker, ticker, symbols, equal]

theorem uniqueConfigs_id {configs : List TickerConfig} (distinct : (configs.map ticker).Nodup)
    (columns : ∀ tc ∈ configs, tc.market ∈ markets) : uniqueConfigs (some configs) = configs := by
  have joined : (configs.map fun tc => tc.symbol ++ ":" ++ tc.market).Nodup := by
    apply List.Nodup.map_on _ distinct.of_map
    intro tc inside other inside' same
    exact List.inj_on_of_nodup_map distinct inside inside'
      (joined_injective (columns tc inside) (columns other inside') same)
  simpa [uniqueConfigs] using firsts_repeated joined 0

theorem coherent_runServer {t : Configs} (sound : Sound setup t) (settled : t.deletions = []) {now : ℤ}
    {loaded : List TickerConfig} {s : System} (started : runServer t true now (some loaded) = some s) :
    Coherent setup s ∧ s.table = applyMigrations t true now ∧ s.writes = [] ∧ ∀ k : String × String,
      findTicker s.configs k.1 k.2 = (config s.table k).filter fun tc => tc.enabled := by
  have migrated : Sound setup (applyMigrations t true now) ∧ (applyMigrations t true now).deletions = [] := by
    unfold applyMigrations
    split
    · exact ⟨sound, settled⟩
    · rename_i none_there
      have empty : t.rows = [] := by simpa using none_there
      refine ⟨sound_insert sound ?_ (by simp [empty]), settled⟩
      intro tc seed
      refine ⟨?_, stored_seeds setup tc seed⟩
      simp only [seeds, List.mem_cons, List.not_mem_nil, or_false] at seed
      obtain rfl | rfl := seed <;> decide
  obtain ⟨sound', settled'⟩ := migrated
  simp only [runServer] at started
  split at started
  · rename_i perm
    obtain rfl := Option.some.inj started
    have listed : ∀ tc, tc ∈ loaded ↔ config (applyMigrations t true now) (ticker tc) = some tc ∧ tc.enabled = true := by
      intro tc
      rw [perm.mem_iff, queryTickerConfigs, List.mem_filter, mem_queryTickerConfigsAll sound'.ordered (by simp [settled'])]
    have columns : ∀ k tc, config (applyMigrations t true now) k = some tc → InColumns setup tc ∧ ticker tc = k := by
      intro k tc found
      obtain ⟨r, member, rfl, own⟩ := config_row found
      exact ⟨sound'.columns r member, own⟩
    have distinct : (loaded.map ticker).Nodup := by
      rw [(perm.map ticker).nodup_iff]
      exact (queryTickerConfigsAll_distinct _).sublist (List.filter_sublist.map ticker)
    have unique : uniqueConfigs (some loaded) = loaded := by
      apply uniqueConfigs_id distinct
      intro tc inside
      exact (columns _ tc ((listed tc).mp inside).1).1.1
    have found : ∀ k : String × String, findTicker loaded k.1 k.2 =
        (config (applyMigrations t true now) k).filter fun tc => tc.enabled := by
      rintro ⟨symbol, market⟩
      ext tc
      rw [findTicker_iff distinct, listed, Option.filter_eq_some_iff]
      constructor
      · rintro ⟨⟨current, on⟩, key⟩
        exact ⟨key ▸ current, on⟩
      · rintro ⟨current, on⟩
        have key := (columns (symbol, market) tc current).2
        exact ⟨⟨key ▸ current, on⟩, key⟩
    rw [unique]
    refine ⟨⟨sound', distinct, by simp, ?_⟩, rfl, rfl, found⟩
    intro k
    simp only [Agrees, List.filter_nil, List.getLast?_nil, found k]
    cases current : config (applyMigrations t true now) k with
    | none => rfl
    | some tc =>
      have kept := (columns k tc current).1.2
      by_cases on : tc.enabled = true
      · rw [Option.filter_some_pos on, Option.map_some, kept]
      · rw [Option.filter_some_neg (by simpa using on), Option.map_none]
  · cases started

theorem coherent_step {s s' : System} (coherent : Coherent setup s) {e : Event} (in_turn : InTurn s e)
    (taken : step setup s e = some s') : Coherent setup s' := by
  cases e with
  | postTicker body now db =>
    simp only [step] at taken
    split at taken
    · rename_i possible
      obtain rfl := Option.some.inj taken
      exact coherent_post coherent possible in_turn
    · cases taken
  | deleteTicker symbol market db =>
    obtain rfl := Option.some.inj taken
    exact coherent_delete coherent symbol market db
  | lock i => exact coherent_lock coherent in_turn taken
  | work w => exact coherent_work coherent taken
  | restart counted now loaded =>
    obtain ⟨rfl, answered, settled⟩ := in_turn
    obtain ⟨answer, rfl⟩ := Option.isSome_iff_exists.mp answered
    exact (coherent_runServer coherent.sound settled taken).1

end Restart

section Run
variable {setup : Setup} {t : Configs} {now : ℤ} {loaded : List TickerConfig} {s₀ s : System}
  {events : List Event}

theorem coherent_run (sound : Sound setup t) (settled : t.deletions = [])
    (started : runServer t true now (some loaded) = some s₀) (in_turn : Guarded (step setup) InTurn s₀ events)
    (reach : run (step setup) s₀ events = some s) : Coherent setup s :=
  invariant_run (Coherent setup) InTurn (fun _ _ _ coherent fits taken => coherent_step coherent fits taken)
    (coherent_runServer sound settled started).1 in_turn reach

/-- Whatever the interleaving, a ticker that no request and no deletion is busy with has in
    the slice the config that the table lists as enabled. -/
theorem slice_as_listed (sound : Sound setup t) (settled : t.deletions = [])
    (started : runServer t true now (some loaded) = some s₀) (in_turn : Guarded (step setup) InTurn s₀ events)
    (reach : run (step setup) s₀ events = some s) {symbol market : String}
    (quiet : ∀ w ∈ s.writes, w.ticker ≠ (symbol, market))
    (done : ∀ d ∈ s.table.deletions, d.key ≠ (symbol, market)) :
    (findTicker s.configs symbol market).map setup.stored =
      (findTicker (queryTickerConfigsAll s.table) symbol market).filter fun tc => tc.enabled := by
  have coherent := coherent_run sound settled started in_turn reach
  rw [agrees_quiet (coherent.agrees (symbol, market)) quiet]
  congr 1
  ext tc
  rw [findTicker_iff (queryTickerConfigsAll_distinct _)]
  constructor
  · intro current
    obtain ⟨r, -, -, own⟩ := config_row current
    exact ⟨(mem_queryTickerConfigsAll coherent.sound.ordered (own ▸ done)).mpr (own ▸ current), own⟩
  · rintro ⟨listed, own⟩
    exact own ▸ (mem_queryTickerConfigsAll coherent.sound.ordered (own ▸ done)).mp listed

theorem seeded {t : Configs} (ordered : Ordered Row.updatedAt t) (empty : t.rows = []) (now : ℤ)
    (symbol market : String) : ((config (applyMigrations t true now) (symbol, market)).filter fun tc => tc.enabled) =
      findTicker seeds symbol market := by
  have nothing : t.current Row.key (symbol, market) = none := by simp [Table.current, empty]
  have own : (fun r : Row => decide (r.key = (symbol, market))) ∘ (fun tc => (⟨tc, now⟩ : Row)) =
      fun tc => decide (ticker tc = (symbol, market)) := rfl
  rw [config, applyMigrations, if_neg (by simp [empty]), current_insert ordered, nothing, Option.or_none,
    List.filter_map, List.getLast?_map, Option.map_map, own]
  by_cases futures : symbol = "BTCUSDT" ∧ market = "futures"
  · obtain ⟨rfl, rfl⟩ := futures
    rfl
  · by_cases spot : symbol = "BTCUSDT" ∧ market = "spot"
    · obtain ⟨rfl, rfl⟩ := spot
      rfl
    · have neither : ∀ tc ∈ seeds, ticker tc ≠ (symbol, market) := by
        intro tc seed same
        simp only [seeds, List.mem_cons, List.not_mem_nil, or_false] at seed
        obtain ⟨rfl, rfl⟩ := Prod.mk.inj same
        obtain rfl | rfl := seed
        · exact futures ⟨rfl, rfl⟩
        · exact spot ⟨rfl, rfl⟩
      have none_left : (seeds.filter fun tc => ticker tc = (symbol, market)) = [] := by
        apply List.filter_eq_nil_iff.mpr
        simpa using neither
      have not_found : findTicker seeds symbol market = none := by
        apply List.find?_eq_none.mpr
        simpa [ticker] using neither
      rw [none_left, not_found]
      rfl

/-- A restart between requests finds every ticker as it was, its tick size as the table
    holds it; only where no row is left, the seeds come back. -/
theorem restart_finds (sound : Sound setup t) (settled : t.deletions = [])
    (started : runServer t true now (some loaded) = some s₀) (in_turn : Guarded (step setup) InTurn s₀ events)
    (reach : run (step setup) s₀ events = some s) (quiet : s.writes = []) (done : s.table.deletions = [])
    {later : ℤ} {answer : List TickerConfig} {s' : System}
    (restarted : step setup s (.restart true later (some answer)) = some s') (symbol market : String) :
    findTicker s'.configs symbol market =
      if s.table.rows = [] then findTicker seeds symbol market
      else (findTicker s.configs symbol market).map setup.stored := by
  have coherent := coherent_run sound settled started in_turn reach
  obtain ⟨-, table, -, found⟩ := coherent_runServer coherent.sound done restarted
  rw [found (symbol, market), table]
  split
  · rename_i empty
    exact seeded coherent.sound.ordered empty later symbol market
  · rename_i some_row
    have agrees := agrees_quiet (coherent.agrees (symbol, market)) (by simp [quiet])
    rw [applyMigrations, if_pos ⟨rfl, some_row⟩]
    exact agrees.symm

end Run

section Alone
variable {setup : Setup} {server : PriceGrids.Server} {s : System} {p p' : PriceGrids.State}

theorem post_alone (letters : server.caseMap = setup.caseMap) (same : s.configs = p.configs)
    (alone : s.writes = []) {body : Except String TickerRequest} {db : Option String}
    (possible : Possible setup body db) (now : ℤ)
    (accepted : PriceGrids.handlePostTicker server p body db = .ok p') :
    ∃ s', run (step setup) s [.postTicker body now db, .lock 0] = some s' ∧ s'.configs = p'.configs ∧
      s'.writes = [] := by
  unfold PriceGrids.handlePostTicker at accepted
  cases body with
  | error e => cases accepted
  | ok req =>
    by_cases empty : req.symbol = "" ∨ req.market = ""
    · simp [empty] at accepted
    · cases db with
      | some e => simp [empty] at accepted
      | none =>
        simp only [empty, ↓reduceIte, Except.ok.injEq, letters] at accepted
        subst accepted
        refine ⟨_, by simp [step, possible, handlePostTicker, empty, answered, alone]; rfl, ?_, rfl⟩
        simp [Write.remember, same]

theorem delete_alone (same : s.configs = p.configs) (alone : s.writes = []) {symbol market : String}
    {db : Option String} (accepted : PriceGrids.handleDeleteTicker setup.caseMap p symbol market db = .ok p') :
    ∃ s', run (step setup) s [.deleteTicker symbol market db, .lock 0] = some s' ∧ s'.configs = p'.configs ∧
      s'.writes = [] := by
  simp only [PriceGrids.handleDeleteTicker] at accepted
  split at accepted
  · cases accepted
  · rename_i named
    cases db with
    | some e => cases accepted
    | none =>
      simp only [Except.ok.injEq] at accepted
      subst accepted
      refine ⟨_, by simp only [run_cons, step, handleDeleteTicker, named, ↓reduceIte, answered, alone]; rfl, ?_, rfl⟩
      simp [Write.remember, same]

end Alone

def truncating : Setup where
  caseMap := ⟨Char.toUpper, Char.toLower⟩
  decimal8 v := (⌊v * 10 ^ 8⌋ : ℚ) / 10 ^ 8
  keeps n := by simp
  lands v := ⟨⌊v * 10 ^ 8⌋, rfl⟩

def ethPost : TickerRequest := ⟨"ethusdt", "futures", 1 / 3, 10, 0, 0, 0, 0⟩

def twoRequests : List Event :=
  [.postTicker (.ok ethPost) 200 none, .deleteTicker "btcusdt" "spot" none, .lock 1, .lock 0,
    .work (.drop 1), .work .finish]

def nothingStored : Configs := ⟨[], 0, []⟩

def seededServer : System := ⟨applyMigrations nothingStored true 100, seeds, []⟩

theorem nothing_sound (setup : Setup) : Sound setup nothingStored :=
  ⟨⟨List.Pairwise.nil, by simp [nothingStored], by simp [nothingStored]⟩, by simp [nothingStored]⟩

theorem seeded_start : runServer nothingStored true 100 (some seeds) = some seededServer := by
  have unique : uniqueConfigs (some seeds) = seeds := by decide +kernel
  simp only [runServer]
  rw [if_pos (by decide +kernel), unique]
  rfl

theorem two_in_turn : Guarded (step truncating) InTurn seededServer twoRequests := by decide +kernel

theorem two_requests_end : ∃ s, run (step truncating) seededServer twoRequests = some s ∧ s.writes = [] ∧
    s.table.deletions = [] := by
  have ends : (run (step truncating) seededServer twoRequests).map
      (fun s => (s.writes.length, s.table.deletions.length)) = some (0, 0) := by
    decide +kernel
  obtain ⟨s, reach, none_left⟩ := Option.map_eq_some_iff.mp ends
  obtain ⟨writes, deletions⟩ := Prod.mk.inj none_left
  exact ⟨s, reach, List.length_eq_zero_iff.mp writes, List.length_eq_zero_iff.mp deletions⟩

theorem two_requests_listed : ∃ s, run (step truncating) seededServer twoRequests = some s ∧
    (findTicker s.configs "ETHUSDT" "futures").map truncating.stored =
      (findTicker (queryTickerConfigsAll s.table) "ETHUSDT" "futures").filter fun tc => tc.enabled := by
  obtain ⟨s, reach, writes, deletions⟩ := two_requests_end
  exact ⟨s, reach, slice_as_listed (nothing_sound truncating) rfl seeded_start two_in_turn reach
    (by simp [writes]) (by simp [deletions])⟩

theorem two_requests_found : ∃ s answer s', run (step truncating) seededServer twoRequests = some s ∧
    step truncating s (.restart true 300 (some answer)) = some s' ∧ findTicker s'.configs "ETHUSDT" "futures" =
      if s.table.rows = [] then findTicker seeds "ETHUSDT" "futures"
      else (findTicker s.configs "ETHUSDT" "futures").map truncating.stored := by
  obtain ⟨s, reach, writes, deletions⟩ := two_requests_end
  have again : step truncating s (.restart true 300
      (some (queryTickerConfigs (applyMigrations s.table true 300)))) =
        some ⟨_, uniqueConfigs (some (queryTickerConfigs (applyMigrations s.table true 300))), []⟩ :=
    if_pos (List.Perm.refl _)
  exact ⟨s, _, _, reach, again, restart_finds (nothing_sound truncating) rfl seeded_start two_in_turn reach
    writes deletions again "ETHUSDT" "futures"⟩

end TickerTable
