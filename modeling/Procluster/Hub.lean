import Procluster.Aggregate
import Procluster.Library.EventRuns
import Procluster.Library.RWMutex
import Procluster.SubKey

/-!
Package ws: the hub's registry, its lock and its broadcasts. Every operation is one
function from hub to hub that takes and releases the locks where the source does; a
request that can never be granted and a run-time panic are its faults. Redis, the
clock and the validator answer what the caller gives. A goroutine that an operation
starts waits in `tasks` until it runs. JSON encoding and log texts are left out.
-/
namespace WsHub
open Aggregate KeyedFold EventRuns RWMutex

abbrev ClientId := ℕ

def maxSubsPerClient : ℕ := 20

structure SubMessage where
  type : String
  symbol : String
  market : String
  tf : String
  comp : UInt32
  candle : Option ClusterCandle
  candleTime : ℤ

structure Client where
  mu : Mutex
  subKeys : List SubKey
  send : List SubMessage
  closed : Bool
  connClosed : Bool

structure SendCloseOpen where
  market : String
  symbol : String
  tf : String
  compression : UInt32
  candleTimeUnix : ℤ
  cells : List ClusterCell
  clients : List ClientId

inductive Task where
  | close (c : ClientId)
  | sendCloseOpen (args : SendCloseOpen)

structure Validator where
  getConfig (symbol market : String) : Option TickerConfig
  validateCompression (comp : UInt32) (tc : TickerConfig) : Option String
  validateTF (tf : String) (tc : TickerConfig) : Option String

structure Hub where
  validator : Validator
  writeBufSize : ℕ
  mu : Mutex
  clients : List ClientId
  subs : List (SubKey × List ClientId)
  heap : ClientId → Client
  tasks : List Task

def defaultWriteBufSize : ℕ := 256

def newClient : Client := ⟨.unlocked, [], [], false, false⟩

def newHub (validator : Validator) (writeBufSize : ℕ) : Hub where
  validator := validator
  writeBufSize := if writeBufSize = 0 then defaultWriteBufSize else writeBufSize
  mu := .unlocked
  clients := []
  subs := []
  heap _ := newClient
  tasks := []

def hubMu : Place Hub where
  get h := h.mu
  set m h := { h with mu := m }
  get_set _ _ := rfl
  set_set _ _ _ := rfl
  set_get _ := rfl

def setClient (c : ClientId) (f : Client → Client) (h : Hub) : Hub :=
  { h with heap := Function.update h.heap c (f (h.heap c)) }

def clientMu (c : ClientId) : Place Hub where
  get h := (h.heap c).mu
  set m := setClient c fun client => { client with mu := m }
  get_set _ _ := by simp [setClient]
  set_set _ _ _ := by simp [setClient]
  set_get _ := by simp [setClient]

structure SubError where
  code : String
  message : String

def remove [DecidableEq α] (x : α) (xs : List α) : List α := xs.filter (· ≠ x)

def clientCount (h : Hub) : Except Fault (ℕ × Hub) := do
  let h ← hubMu.rLock h
  let n := h.clients.length
  let h ← hubMu.rUnlock h
  return (n, h)

/-- The count in the log line is taken after the unlock. -/
def register (c : ClientId) (h : Hub) : Except Fault Hub := do
  let h ← hubMu.lock h
  let h ← hubMu.unlock { h with clients := h.clients.insert c }
  let (_, h) ← clientCount h
  return h

/-- The count in the log line is taken before the deferred unlock runs. -/
def unregister (c : ClientId) (h : Hub) : Except Fault Hub := do
  let h ← hubMu.lock h
  let left := (h.subs.map fun p => (p.1, remove c p.2)).filter fun p => p.2 ≠ []
  let (_, h) ← clientCount { h with clients := remove c h.clients, subs := left }
  hubMu.unlock h

def subscribe (c : ClientId) (market symbol tf : String) (compression : UInt32) (h : Hub) :
    Except Fault (Option SubError × Hub) :=
  match h.validator.getConfig symbol market with
  | none => return (some ⟨"UNKNOWN_TICKER", "unknown symbol/market"⟩, h)
  | some tc =>
    match h.validator.validateTF tf tc with
    | some _ => return (some ⟨"INVALID_PARAMS", "invalid timeframe"⟩, h)
    | none =>
      match h.validator.validateCompression compression tc with
      | some err => return (some ⟨"INVALID_PARAMS", err⟩, h)
      | none => do
        let compression := if compression = 0 then tc.baseCompression else compression
        let key := SubKey.make market symbol tf compression
        let h ← hubMu.lock h
        let h ← (clientMu c).lock h
        if maxSubsPerClient ≤ (h.heap c).subKeys.length then
          let h ← (clientMu c).unlock h
          let h ← hubMu.unlock h
          return (some ⟨"LIMIT_EXCEEDED", "max subscriptions per connection"⟩, h)
        else
          let h := setClient c (fun client => { client with subKeys := client.subKeys.insert key }) h
          let h ← (clientMu c).unlock h
          let h := { h with subs := upsert key (fun set => (set.getD []).insert c) h.subs }
          let h ← hubMu.unlock h
          return (none, h)

def dropSub (key : SubKey) (c : ClientId) (subs : List (SubKey × List ClientId)) :
    List (SubKey × List ClientId) :=
  match find key subs with
  | none => subs
  | some set => if remove c set = [] then erase key subs else upsert key (fun _ => remove c set) subs

/-- The compression is taken as it is, also where Subscribe would replace a zero. -/
def unsubscribe (c : ClientId) (market symbol tf : String) (compression : UInt32) (h : Hub) :
    Except Fault Hub := do
  let key := SubKey.make market symbol tf compression
  let h ← hubMu.lock h
  let h ← (clientMu c).lock h
  let h := setClient c (fun client => { client with subKeys := remove key client.subKeys }) h
  let h ← (clientMu c).unlock h
  let h := { h with subs := dropSub key c h.subs }
  hubMu.unlock h

/-- A full send queue drops the message and starts closing the client. -/
def trySend (msg : SubMessage) (h : Hub) (c : ClientId) : Hub :=
  if (h.heap c).send.length < h.writeBufSize
    then setClient c (fun client => { client with send := client.send ++ [msg] }) h
    else { h with tasks := h.tasks ++ [.close c] }

def round1 (v : ℚ) : ℚ := truncTenth v

def candleOf (closeOf : ClusterCell → ℚ) (candleTimeUnix : ℤ) (cells : List ClusterCell) :
    ClusterCandle :=
  let candle := candleLoop closeOf candleTimeUnix cells
  { candle with volume := round1 candle.volume, delta := round1 candle.delta }

def buildCandle (candleTimeUnix : ℤ) (cells : List ClusterCell) : ClusterCandle :=
  candleOf (fun cell => cell.price) candleTimeUnix cells

def divU32 (a b : UInt32) : Except Fault UInt32 :=
  if b = 0 then .error (.panic "integer divide by zero") else .ok (a / b)

def mergeUp (tc : TickerConfig) (compression : UInt32) (cells : List ClusterCell) :
    Except Fault (List ClusterCell) :=
  if tc.baseCompression < compression then do
    let groupSize ← divU32 compression tc.baseCompression
    return mergeCells cells groupSize tc.tickSize tc.baseCompression
  else return cells

/-- What the clock and Redis answer during one tick; Redis may fail. -/
structure TickEnv where
  nowSec : SubKey → ℤ
  getAggCells : String → Option (List ClusterCell)

def broadcastSub (env : TickEnv) (h : Hub) (key : SubKey) : Except Fault Hub :=
  let parts := key.parse
  match h.validator.getConfig parts.symbol parts.market with
  | none => return h
  | some tc =>
    let compression := if parts.compression = 0 then tc.baseCompression else parts.compression
    match tfSeconds parts.tf with
    | none => return h
    | some secs =>
      let candleTimeUnix := (env.nowSec key).tdiv secs * secs
      match env.getAggCells (redisAggKey parts.market parts.symbol parts.tf candleTimeUnix) with
      | none | some [] => return h
      | some (cell :: cells) => do
        let cells ← mergeUp tc compression (cell :: cells)
        let candle := candleOf (fun cell => cell.price + compression.toNat * tc.tickSize)
          candleTimeUnix cells
        let msg := SubMessage.mk "update" parts.symbol parts.market parts.tf compression (some candle) 0
        let h ← hubMu.rLock h
        match find key h.subs with
        | none => hubMu.rUnlock h
        | some set =>
          let h ← hubMu.rUnlock h
          return set.foldl (trySend msg) h

def broadcastTick (env : TickEnv) (h : Hub) : Except Fault Hub := do
  let h ← hubMu.rLock h
  let subKeys := keys h.subs
  let h ← hubMu.rUnlock h
  subKeys.foldlM (broadcastSub env) h

/-- One group for each compression of the closed candle, each sent by its own goroutine. -/
def notifyCandleClose (market symbol tf : String) (candleTimeUnix : ℤ) (cells : List ClusterCell)
    (h : Hub) : Except Fault Hub := do
  let h ← hubMu.rLock h
  let hits := h.subs.filter fun p =>
    p.1.parse.market = market ∧ p.1.parse.symbol = symbol ∧ p.1.parse.tf = tf
  let groups := firsts (fun p => p.1.parse.compression) hits
  let started := groups.map fun p => Task.sendCloseOpen
    ⟨market, symbol, tf, p.1.parse.compression, candleTimeUnix, cells, p.2⟩
  let h ← hubMu.rUnlock h
  return { h with tasks := h.tasks ++ started }

def candleTimeNow (tf : String) (nowSec : ℤ) : Except Fault ℤ :=
  match tfSeconds tf with
  | none => .error (.panic "integer divide by zero")
  | some secs => .ok (nowSec.tdiv secs * secs)

def sendCloseOpen (args : SendCloseOpen) (nowSec : ℤ) (h : Hub) : Except Fault Hub :=
  match h.validator.getConfig args.symbol args.market with
  | none => return h
  | some tc => do
    let compression := if args.compression = 0 then tc.baseCompression else args.compression
    let cells ← mergeUp tc compression args.cells
    let candle := buildCandle args.candleTimeUnix cells
    let openTime ← candleTimeNow args.tf nowSec
    let closeMsg := SubMessage.mk "close" args.symbol args.market args.tf compression (some candle) 0
    let openMsg := SubMessage.mk "open" args.symbol args.market args.tf compression none openTime
    let h := args.clients.foldl (trySend closeMsg) h
    return args.clients.foldl (trySend openMsg) h

def close (c : ClientId) (h : Hub) : Except Fault Hub := do
  let h ← (clientMu c).lock h
  if (h.heap c).closed then (clientMu c).unlock h
  else
    let h ← (clientMu c).unlock (setClient c (fun client => { client with closed := true }) h)
    return setClient c (fun client => { client with connClosed := true }) h

def runTask (nowSec : ℤ) (h : Hub) : Task → Except Fault Hub
  | .close c => close c h
  | .sendCloseOpen args => sendCloseOpen args nowSec h

inductive Op where
  | register (c : ClientId)
  | subscribe (c : ClientId) (market symbol tf : String) (compression : UInt32)
  | unsubscribe (c : ClientId) (market symbol tf : String) (compression : UInt32)
  | unregister (c : ClientId)
  | clientCount
  | broadcastTick (env : TickEnv)
  | notifyCandleClose (market symbol tf : String) (candleTimeUnix : ℤ) (cells : List ClusterCell)
  | goroutine (k : ℕ) (nowSec : ℤ)

def exec (h : Hub) : Op → Except Fault Hub
  | .register c => register c h
  | .subscribe c market symbol tf compression => do
    let (_, h) ← subscribe c market symbol tf compression h
    return h
  | .unsubscribe c market symbol tf compression => unsubscribe c market symbol tf compression h
  | .unregister c => unregister c h
  | .clientCount => do
    let (_, h) ← clientCount h
    return h
  | .broadcastTick env => broadcastTick env h
  | .notifyCandleClose market symbol tf candleTimeUnix cells =>
    notifyCandleClose market symbol tf candleTimeUnix cells h
  | .goroutine k nowSec =>
    match h.tasks[k]? with
    | none => return h
    | some task => runTask nowSec { h with tasks := h.tasks.eraseIdx k } task

end WsHub
