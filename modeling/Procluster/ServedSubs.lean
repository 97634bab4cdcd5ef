import Procluster.HubRegistry
import Procluster.LiveIngest
import Procluster.Validate

/-!
An accepted subscription from the request to the candles of its ticker. The hub asks
the validator of package api, which normalises the case of symbol and market; the key
keeps the request's spelling, and the tick and the close compare it letter for letter
with what the ingest of the configured ticker writes.
-/
namespace WsHub
open Aggregate KeyedFold EventRuns RWMutex LiveIngest

def apiValidator (m : Validate.CaseMap) (v : Validate.Validator) : Validator where
  getConfig symbol market := Validate.getConfig m v symbol market
  validateCompression comp tc :=
    match Validate.validateCompression comp tc with
    | .ok _ => none
    | .error e => some e.message
  validateTF tf tc :=
    match Validate.validateTF tf tc with
    | .ok _ => none
    | .error e => some e.message

def ingestConfig (tc : TickerConfig) : WSConfig where
  symbol := tc.symbol
  market := tc.market
  tickSize := tc.tickSize
  compression := tc.baseCompression

/-- A close of the ticker starts a send of the key's compression to the client. -/
def CloseReaches (h : Hub) (c : ClientId) (tc : TickerConfig) (tf : String) (key : SubKey) : Prop :=
  ∀ candleTimeUnix cells, ∃ started set,
    notifyCandleClose tc.market tc.symbol tf candleTimeUnix cells h =
      .ok { h with tasks := h.tasks ++ started } ∧ c ∈ set ∧
    Task.sendCloseOpen
      ⟨tc.market, tc.symbol, tf, key.parse.compression, candleTimeUnix, cells, set⟩ ∈ started

structure Served (h : Hub) (c : ClientId) (tc : TickerConfig) (tf : String) (key : SubKey) : Prop where
  entered : key ∈ (h.heap c).subKeys
  market : key.parse.market = tc.market
  symbol : key.parse.symbol = tc.symbol
  found : h.validator.getConfig key.parse.symbol key.parse.market = some tc
  read : ∀ ct, redisAggKey key.parse.market key.parse.symbol key.parse.tf ct =
    (ingestConfig tc).redisKeyFn tf ct
  notified : ∀ ops h', run step h ops = some h' → key ∈ (h'.heap c).subKeys →
    CloseReaches h' c tc tf key

theorem validTimeframes_known {market tf : String} (valid : tf ∈ Validate.validTimeframes market) :
    ':' ∉ tf.toList ∧ (tfSeconds tf).isSome := by
  have all : ∀ tf ∈ ["1m", "5m", "15m", "30m", "1h", "4h"],
      ':' ∉ tf.toList ∧ (tfSeconds tf).isSome := by decide
  refine all tf ?_
  unfold Validate.validTimeframes at valid
  split at valid
  · exact List.mem_of_mem_drop (i := 2) valid
  · exact valid

theorem validateTF_known {m : Validate.CaseMap} {v : Validate.Validator} {tf : String}
    {tc : TickerConfig} (valid : (apiValidator m v).validateTF tf tc = none) :
    ':' ∉ tf.toList ∧ (tfSeconds tf).isSome := by
  have passed : Validate.validateTF tf tc = .ok () := by
    simp only [apiValidator] at valid
    split at valid
    · assumption
    · cases valid
  unfold Validate.validateTF at passed
  split_ifs at passed with empty inside
  exact validTimeframes_known inside

theorem accepted_tf {h h₁ : Hub} {c : ClientId} {market symbol tf : String} {compression : UInt32}
    (accepted : subscribe c market symbol tf compression h = .ok (none, h₁)) {tc : TickerConfig}
    (config : h.validator.getConfig symbol market = some tc) :
    h.validator.validateTF tf tc = none := by
  unfold subscribe at accepted
  rw [config] at accepted
  cases checked : h.validator.validateTF tf tc with
  | none => rfl
  | some err =>
    simp only [checked] at accepted
    cases (Prod.mk.inj (Except.ok.inj accepted)).1

theorem validator_run {h h' : Hub} {ops : List Op} (reach : run step h ops = some h') :
    h'.validator = h.validator :=
  invariant_run (fun s => s.validator = h.validator) (fun _ _ => True)
    (fun _ _ _ kept _ taken => (effect_validator (exec_effect (step_done taken))).trans kept)
    rfl (guarded_of_events (by simp)) reach

def closeGroups (market symbol tf : String) (h : Hub) : List (SubKey × List ClientId) :=
  firsts (fun p => p.1.parse.compression) (h.subs.filter fun p =>
    p.1.parse.market = market ∧ p.1.parse.symbol = symbol ∧ p.1.parse.tf = tf)

def closeCall (market symbol tf : String) (candleTimeUnix : ℤ) (cells : List ClusterCell)
    (g : SubKey × List ClientId) : SendCloseOpen :=
  ⟨market, symbol, tf, g.1.parse.compression, candleTimeUnix, cells, g.2⟩

theorem mem_closeGroups {market symbol tf : String} {h : Hub} (distinct : (keys h.subs).Nodup) (g : SubKey × List ClientId) :
    g ∈ closeGroups market symbol tf h ↔
      g ∈ h.subs ∧ g.1.parse = ⟨market, symbol, tf, g.1.parse.compression⟩ := by
  have hit : ∀ p : SubKey × List ClientId,
      (p.1.parse.market = market ∧ p.1.parse.symbol = symbol ∧ p.1.parse.tf = tf) ↔
        p.1.parse = ⟨market, symbol, tf, p.1.parse.compression⟩ := by
    intro p
    generalize p.1.parse = parts
    cases parts
    simp
  constructor
  · intro first
    obtain ⟨listed, matched⟩ := List.mem_filter.mp (mem_of_firsts first)
    exact ⟨listed, (hit g).mp (of_decide_eq_true matched)⟩
  · rintro ⟨listed, parts⟩
    apply mem_firsts
    · exact List.mem_filter.mpr ⟨listed, decide_eq_true ((hit g).mpr parts)⟩
    -- another key with these parts would be the same key
    · rintro ⟨key, set⟩ inside same
      obtain ⟨listed', matched⟩ := List.mem_filter.mp inside
      have parts' := (hit (key, set)).mp (of_decide_eq_true matched)
      dsimp only at same parts'
      obtain rfl : key = g.1 := SubKey.parse_injective (by rw [parts', parts, same])
      have entry := find_of_mem distinct listed
      rw [find_of_mem distinct listed'] at entry
      rw [Option.some.inj entry]

theorem close_reaches {h : Hub} (registry : Registry h) {c : ClientId} {key : SubKey}
    (held : key ∈ (h.heap c).subKeys) {tc : TickerConfig} (market : key.parse.market = tc.market)
    (symbol : key.parse.symbol = tc.symbol) : CloseReaches h c tc key.parse.tf key := by
  intro candleTimeUnix cells
  obtain ⟨set, entry, member⟩ := (registry.held key c).mp held
  have inside : (key, set) ∈ closeGroups tc.market tc.symbol key.parse.tf h := by
    refine (mem_closeGroups registry.distinct _).mpr ⟨mem_of_find entry, ?_⟩
    rw [← market, ← symbol]
  unfold notifyCandleClose
  rw [read_section (p := hubMu) registry.idle.hub]
  exact ⟨_, set, rfl, member, List.mem_map.mpr ⟨(key, set), inside, rfl⟩⟩

/-- An accepted subscription is served exactly if the request writes market and symbol as
    the configured ticker does and the ticker is found under its own symbol and market. -/
theorem subscription_served_iff {m : Validate.CaseMap} {configs : List TickerConfig}
    {writeBufSize : ℕ} {ops : List Op} {h h₁ : Hub}
    (reach : run step (newHub (apiValidator m (Validate.newValidator configs)) writeBufSize) ops = some h)
    {c : ClientId} {market symbol tf : String} {compression : UInt32}
    (accepted : subscribe c market symbol tf compression h = .ok (none, h₁)) {tc : TickerConfig}
    (config : Validate.getConfig m (Validate.newValidator configs) symbol market = some tc) :
    Served h₁ c tc tf (SubKey.make market symbol tf (effective tc compression)) ↔
      market ++ ":" ++ symbol = tc.market ++ ":" ++ tc.symbol ∧ ':' ∉ tc.market.toList ∧
        Validate.getConfig m (Validate.newValidator configs) tc.symbol tc.market = some tc := by
  have registry := registry_run reach
  have validator := validator_run reach
  have own : h.validator.getConfig symbol market = some tc := by rw [validator]; exact config
  have cleanTf : ':' ∉ tf.toList := by
    have checked := accepted_tf accepted own
    rw [validator] at checked
    exact (validateTF_known checked).1
  obtain ⟨joined, cleanMarket, sameTf, sameCompression⟩ :=
    SubKey.parse_made cleanTf market symbol (effective tc compression)
  obtain ⟨tc', config', entered⟩ := subscribe_accepted registry.idle accepted
  obtain rfl := Option.some.inj (config'.symm.trans own)
  generalize SubKey.make market symbol tf (effective tc' compression) = key at *
  subst entered
  have registry' := registry_subscribed registry c key
  constructor
  · intro served
    have found := served.found
    rw [served.market, served.symbol] at joined found
    rw [served.market] at cleanMarket
    change h.validator.getConfig tc'.symbol tc'.market = some tc' at found
    rw [validator] at found
    exact ⟨joined.symm, cleanMarket, found⟩
  · rintro ⟨spelled, cleanTicker, found⟩
    obtain ⟨sameMarket, sameSymbol⟩ :=
      SubKey.joined_cancel cleanMarket cleanTicker (joined.trans spelled)
    refine ⟨by simp [subscribed, setClient], sameMarket, sameSymbol, ?_, ?_, ?_⟩
    · rw [sameMarket, sameSymbol]
      change h.validator.getConfig tc'.symbol tc'.market = some tc'
      rw [validator]
      exact found
    · intro ct
      rw [sameMarket, sameSymbol, sameTf]
      rfl
    · intro later h' reach' held
      have reaches := close_reaches (registry_kept registry' reach') held sameMarket sameSymbol
      rw [sameTf] at reaches
      exact reaches

def asciiLetters : Validate.CaseMap := ⟨Char.toUpper, Char.toLower⟩

def btcFutures : TickerConfig := ⟨"BTCUSDT", "futures", 1 / 10, 25, 10, 25, 365, 60, true⟩

abbrev btcHub : Hub := newHub (apiValidator asciiLetters (Validate.newValidator [btcFutures])) 256

theorem btc_found :
    Validate.getConfig asciiLetters (Validate.newValidator [btcFutures]) "BTCUSDT" "futures" =
        some btcFutures ∧
      Validate.getConfig asciiLetters (Validate.newValidator [btcFutures]) "btcusdt" "futures" =
        some btcFutures := by
  decide +kernel

def accepts (answer : Except Fault (Option SubError × Hub)) : Bool :=
  match answer with
  | .ok (none, _) => true
  | _ => false

theorem accepted_of (answer : Except Fault (Option SubError × Hub)) (accepts : accepts answer) :
    ∃ h₁, answer = .ok (none, h₁) := by
  unfold WsHub.accepts at accepts
  split at accepts
  · exact ⟨_, rfl⟩
  · cases accepts

theorem configured_spelling_served :
    ∃ h h₁, run step btcHub [.register 1] = some h ∧
      subscribe 1 "futures" "BTCUSDT" "1m" 0 h = .ok (none, h₁) ∧
      Served h₁ 1 btcFutures "1m" (SubKey.make "futures" "BTCUSDT" "1m" 25) := by
  obtain ⟨h₁, accepted⟩ := accepted_of (subscribe 1 "futures" "BTCUSDT" "1m" 0
    { btcHub with clients := [1] }) (by decide +kernel)
  have reach : run step btcHub [.register 1] = some { btcHub with clients := [1] } := rfl
  have served := (subscription_served_iff reach accepted btc_found.1).mpr
    ⟨rfl, by decide, btc_found.1⟩
  exact ⟨_, h₁, reach, accepted, served⟩

/- In lower case the request passes and its key names no configured ticker. -/
theorem lower_case_unserved : ¬ ∀ (ops : List Op) (h h₁ : Hub) (c : ClientId)
    (market symbol tf : String) (compression : UInt32) (tc : TickerConfig),
    run step btcHub ops = some h → subscribe c market symbol tf compression h = .ok (none, h₁) →
    Validate.getConfig asciiLetters (Validate.newValidator [btcFutures]) symbol market = some tc →
    Served h₁ c tc tf (SubKey.make market symbol tf (effective tc compression)) := by
  intro claim
  obtain ⟨h₁, accepted⟩ := accepted_of (subscribe 1 "futures" "btcusdt" "1m" 0
    { btcHub with clients := [1] }) (by decide +kernel)
  have served := claim [.register 1] _ h₁ 1 "futures" "btcusdt" "1m" 0 btcFutures rfl accepted btc_found.2
  have written := served.symbol
  rw [SubKey.parse_make (by decide) (by decide)] at written
  revert written
  decide

end WsHub
