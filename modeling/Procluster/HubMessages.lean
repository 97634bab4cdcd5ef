import Procluster.HubLock
import Procluster.MergedCells

/-!
The messages of the hub apart from its locks and queues: the candle of an update and
of a close, and that broadcastSub and sendCloseOpen send exactly these.
-/
namespace WsHub
open Aggregate KeyedFold RWMutex

/-- The cells of a subscription's compression and their summary, with Close a bin width
    above the last price. -/
def updateCandle (tc : TickerConfig) (compression : UInt32) (candleTimeUnix : ℤ)
    (cells : List ClusterCell) : Except Fault ClusterCandle := do
  let cells ← mergeUp tc compression cells
  return candleOf (fun cell => cell.price + compression.toNat * tc.tickSize) candleTimeUnix cells

def closeCandle (tc : TickerConfig) (compression : UInt32) (candleTimeUnix : ℤ)
    (cells : List ClusterCell) : Except Fault ClusterCandle := do
  let cells ← mergeUp tc compression cells
  return buildCandle candleTimeUnix cells

def effective (tc : TickerConfig) (compression : UInt32) : UInt32 :=
  if compression = 0 then tc.baseCompression else compression

theorem subscribe_accepted {h h₁ : Hub} (idle : Idle h) {c : ClientId} {market symbol tf : String}
    {compression : UInt32} (accepted : subscribe c market symbol tf compression h = .ok (none, h₁)) :
    ∃ tc, h.validator.getConfig symbol market = some tc ∧
      h₁ = subscribed c (SubKey.make market symbol tf (effective tc compression)) h := by
  obtain ⟨err, h₂, taken, outcome⟩ := subscribe_idle idle c market symbol tf compression
  obtain ⟨rfl, rfl⟩ := Prod.mk.inj (Except.ok.inj (taken.symm.trans accepted))
  rcases outcome with ⟨e, rejected, -⟩ | ⟨tc, config, -, entered⟩
  · cases rejected
  · exact ⟨tc, config, entered⟩

/-- The message of broadcastSub; none where it returns before building one. -/
def updateMessage (env : TickEnv) (validator : Validator) (key : SubKey) :
    Except Fault (Option SubMessage) :=
  let parts := key.parse
  match validator.getConfig parts.symbol parts.market with
  | none => return none
  | some tc =>
    match tfSeconds parts.tf with
    | none => return none
    | some secs =>
      let candleTimeUnix := (env.nowSec key).tdiv secs * secs
      match env.getAggCells (redisAggKey parts.market parts.symbol parts.tf candleTimeUnix) with
      | none | some [] => return none
      | some (cell :: cells) => do
        let compression := effective tc parts.compression
        let candle ← updateCandle tc compression candleTimeUnix (cell :: cells)
        return some ⟨"update", parts.symbol, parts.market, parts.tf, compression, some candle, 0⟩

def deliver (key : SubKey) (msg : SubMessage) (h : Hub) : Except Fault Hub := do
  let h ← hubMu.rLock h
  match find key h.subs with
  | none => hubMu.rUnlock h
  | some set =>
    let h ← hubMu.rUnlock h
    return set.foldl (trySend msg) h

theorem broadcastSub_sends (env : TickEnv) (h : Hub) (key : SubKey) :
    broadcastSub env h key = (do
      match ← updateMessage env h.validator key with
      | none => return h
      | some msg => deliver key msg h) := by
  simp only [broadcastSub, updateMessage, updateCandle, effective]
  generalize h.validator.getConfig key.parse.symbol key.parse.market = config
  cases config with
  | none => rfl
  | some tc =>
    generalize tfSeconds key.parse.tf = seconds
    cases seconds with
    | none => rfl
    | some secs =>
      dsimp only
      generalize env.getAggCells _ = answer
      rcases answer with _ | _ | ⟨cell, cells⟩
      · rfl
      · rfl
      · dsimp only
        generalize mergeUp tc _ _ = merged
        cases merged <;> rfl

theorem updateMessage_built {env : TickEnv} {validator : Validator} {key : SubKey}
    {msg : SubMessage} (built : updateMessage env validator key = .ok (some msg)) :
    ∃ tc secs cells candle, validator.getConfig key.parse.symbol key.parse.market = some tc ∧
      tfSeconds key.parse.tf = some secs ∧
      env.getAggCells (redisAggKey key.parse.market key.parse.symbol key.parse.tf
        ((env.nowSec key).tdiv secs * secs)) = some cells ∧
      updateCandle tc (effective tc key.parse.compression) ((env.nowSec key).tdiv secs * secs) cells =
        .ok candle ∧ msg.candle = some candle := by
  unfold updateMessage at built
  dsimp only at built
  split at built
  · cases built
  · rename_i tc config
    split at built
    · cases built
    · rename_i secs seconds
      split at built
      · cases built
      · cases built
      · rename_i cell cells answered
        cases made : updateCandle tc (effective tc key.parse.compression)
            ((env.nowSec key).tdiv secs * secs) (cell :: cells) with
        | error fault =>
          rw [made] at built
          cases built
        | ok candle =>
          rw [made] at built
          cases built
          exact ⟨tc, secs, cell :: cells, candle, config, seconds, answered, made, rfl⟩

/-- The closed candle of sendCloseOpen; none where the ticker has no config. -/
def closeMessage (validator : Validator) (args : SendCloseOpen) : Except Fault (Option SubMessage) :=
  match validator.getConfig args.symbol args.market with
  | none => return none
  | some tc => do
    let compression := effective tc args.compression
    let candle ← closeCandle tc compression args.candleTimeUnix args.cells
    return some ⟨"close", args.symbol, args.market, args.tf, compression, some candle, 0⟩

theorem closeMessage_built {validator : Validator} {args : SendCloseOpen} {msg : SubMessage}
    (built : closeMessage validator args = .ok (some msg)) :
    ∃ tc candle, validator.getConfig args.symbol args.market = some tc ∧
      closeCandle tc (effective tc args.compression) args.candleTimeUnix args.cells = .ok candle ∧
      msg.candle = some candle := by
  unfold closeMessage at built
  split at built
  · cases built
  · rename_i tc config
    dsimp only at built
    cases made : closeCandle tc (effective tc args.compression) args.candleTimeUnix args.cells with
    | error fault =>
      rw [made] at built
      cases built
    | ok candle =>
      rw [made] at built
      cases built
      exact ⟨tc, candle, config, made, rfl⟩

theorem sendCloseOpen_sends (args : SendCloseOpen) (nowSec : ℤ) (h : Hub) :
    sendCloseOpen args nowSec h = (do
      match ← closeMessage h.validator args with
      | none => return h
      | some msg =>
        let openTime ← candleTimeNow args.tf nowSec
        let openMsg := SubMessage.mk "open" args.symbol args.market args.tf msg.comp none openTime
        return args.clients.foldl (trySend openMsg) (args.clients.foldl (trySend msg) h)) := by
  simp only [sendCloseOpen, closeMessage, closeCandle, effective]
  generalize h.validator.getConfig args.symbol args.market = config
  cases config with
  | none => rfl
  | some tc =>
    dsimp only
    generalize mergeUp tc _ _ = merged
    cases merged <;> rfl

end WsHub
