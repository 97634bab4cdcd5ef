import Procluster.Library.EventRuns
import Procluster.RedisCache

/-!
Package ingest: one WSClient and the closers of its timeframes over one Redis. A lane
is a timeframe: its aggregator, the place its closer has reached, and a record of what
both did. Every call that locks, writes or waits is a step of its own, so a run is any
interleaving of runConn with the closers; network and store outcomes are given by the
events. A reconnect happens between messages and changes nothing here. Log texts are
left out.
-/
namespace LiveIngest
open Aggregate KeyedFold EventRuns RedisCache

structure WSConfig where
  symbol : String
  market : String
  tickSize : ℚ
  compression : UInt32

def WSConfig.redisKeyFn (cfg : WSConfig) (tf : String) (ct : ℤ) : String :=
  redisAggKey cfg.market cfg.symbol tf ct

def WSConfig.bin (cfg : WSConfig) (t : Trade) : ℚ := binPriceLow t.price cfg.tickSize cfg.compression

structure Update where
  key : String
  inc : Increment
  deriving DecidableEq

def updateOf (cfg : WSConfig) (tf : String) (t : Trade) : Update where
  key := cfg.redisKeyFn tf (candleTimeUnix t.tradeTimeMs tf)
  inc := ⟨cfg.bin t, if t.isBuyerMaker then t.qty else 0, if t.isBuyerMaker then 0 else t.qty⟩

structure ClusterRow where
  symbol : String
  timeframe : String
  candleTime : ℤ
  price : ℚ
  bid : ℚ
  ask : ℚ
  openPrice : ℚ
  closePrice : ℚ
  deriving DecidableEq

/-- The cells a close took away and the boundary it wrote on them, with the trades
    they were made of. -/
structure Batch where
  label : ℤ
  cells : List ClusterCell
  trades : List Trade
  deriving DecidableEq

/-- What one pass of the closer's loop did with its trades. -/
structure CloseRecord where
  trades : List Trade
  rows : List ClusterRow
  cached : Option ClusterCandle
  notified : Option (ℤ × List ClusterCell)
  deriving DecidableEq

inductive Closer where
  | head
  | waiting (next : ℤ)
  | inserting (b : Batch)
  | caching (b : Batch)
  | deleting (b : Batch) (cached : Option ClusterCandle)
  | notifying (b : Batch) (cached : Option ClusterCandle)
  deriving DecidableEq

structure Lane where
  timeframe : String
  agg : Aggregator
  onClose : Bool
  closer : Closer
  accepted : List Trade
  held : List Trade
  saved : List Trade
  sent : List Update
  closes : List CloseRecord
  deriving DecidableEq

/-- The boundary after now; an unknown timeframe would divide by zero. -/
def nextCloseTime (nowMs : ℕ) (tf : String) : Option ℤ :=
  (tfSeconds tf).map fun secs => (((nowMs / 1000 : ℕ) : ℤ).tdiv secs + 1) * secs

def nonEmpty (cells : List ClusterCell) : List ClusterCell :=
  cells.filter fun c => c.price ≠ 0 ∨ c.bid ≠ 0 ∨ c.ask ≠ 0

def rowsOf (cfg : WSConfig) (tf : String) (b : Batch) : List ClusterRow :=
  b.cells.map fun c => ⟨cfg.symbol, tf, b.label, c.price, c.bid, c.ask, 0, 0⟩

def candleOf (cfg : WSConfig) (b : Batch) : ClusterCandle :=
  candleLoop (fun c => c.price + cfg.compression.toNat * cfg.tickSize) b.label b.cells

inductive LaneEvent where
  | processTrade (t : Trade)
  | incrCell (u : Update)
  | arm (nowMs : ℕ)
  | flush (nowMs : ℕ)
  | batchInsert (ok : Bool)
  | setLastCandle (ok : Bool)
  | delAggKey
  | notify

def Lane.process (l : Lane) (t : Trade) : Lane :=
  { l with
    agg := (processTrade l.agg t).1
    held := if t.tradeID ∈ l.agg.seen then l.held else l.held ++ [t]
    accepted := if t.tradeID ∈ l.agg.seen then l.accepted else l.accepted ++ [t] }

/-- Flush at a boundary; without a cell to write the loop starts again. -/
def Lane.flush (l : Lane) (next : ℤ) : Lane :=
  let cells := nonEmpty (Aggregate.flush l.agg).1
  { l with
    agg := (Aggregate.flush l.agg).2
    held := []
    closer := if cells = [] then .head else .inserting ⟨next, cells, l.held⟩
    closes := if cells = [] then l.closes ++ [⟨l.held, [], none, none⟩] else l.closes }

def Batch.kept (cfg : WSConfig) (b : Batch) : List Trade :=
  b.trades.filter fun t => cfg.bin t ∈ b.cells.map ClusterCell.price

def laneStep (cfg : WSConfig) (l : Lane) : LaneEvent → Option Lane
  | .processTrade t => some (l.process t)
  | .incrCell u => some { l with sent := l.sent ++ [u] }
  | .arm nowMs =>
    match l.closer with
    | .head => (nextCloseTime nowMs l.timeframe).map fun next => { l with closer := .waiting next }
    | _ => none
  | .flush nowMs =>
    match l.closer with
    | .waiting next => if next * 1000 + 200 ≤ nowMs then some (l.flush next) else none
    | _ => none
  | .batchInsert ok =>
    match l.closer with
    | .inserting b =>
      if ok then some { l with closer := .caching b, saved := l.saved ++ b.kept cfg }
      else some { l with closer := .head, closes := l.closes ++ [⟨b.trades, [], none, none⟩] }
    | _ => none
  | .setLastCandle ok =>
    match l.closer with
    | .caching b => some { l with closer := .deleting b (if ok then some (candleOf cfg b) else none) }
    | _ => none
  | .delAggKey =>
    match l.closer with
    | .deleting b cached => some { l with closer := .notifying b cached }
    | _ => none
  | .notify =>
    match l.closer with
    | .notifying b cached => some { l with
      closer := .head
      closes := l.closes ++ [⟨b.trades, rowsOf cfg l.timeframe b, cached,
        if l.onClose then some (b.label, b.cells) else none⟩] }
    | _ => none

inductive Moves (cfg : WSConfig) (l : Lane) : LaneEvent → Lane → Prop where
  | process (t : Trade) : Moves cfg l (.processTrade t) (l.process t)
  | incr (u : Update) : Moves cfg l (.incrCell u) { l with sent := l.sent ++ [u] }
  | arm {nowMs : ℕ} {next : ℤ} (here : l.closer = .head)
      (armed : nextCloseTime nowMs l.timeframe = some next) :
      Moves cfg l (.arm nowMs) { l with closer := .waiting next }
  | flush {nowMs : ℕ} {next : ℤ} (here : l.closer = .waiting next)
      (late : next * 1000 + 200 ≤ nowMs) : Moves cfg l (.flush nowMs) (l.flush next)
  | inserted {b : Batch} (here : l.closer = .inserting b) : Moves cfg l (.batchInsert true)
      { l with closer := .caching b, saved := l.saved ++ b.kept cfg }
  | insertFailed {b : Batch} (here : l.closer = .inserting b) : Moves cfg l (.batchInsert false)
      { l with closer := .head, closes := l.closes ++ [⟨b.trades, [], none, none⟩] }
  | cached {b : Batch} (ok : Bool) (here : l.closer = .caching b) : Moves cfg l (.setLastCandle ok)
      { l with closer := .deleting b (if ok then some (candleOf cfg b) else none) }
  | deleted {b : Batch} {candle : Option ClusterCandle} (here : l.closer = .deleting b candle) :
      Moves cfg l .delAggKey { l with closer := .notifying b candle }
  | notified {b : Batch} {candle : Option ClusterCandle} (here : l.closer = .notifying b candle) :
      Moves cfg l .notify { l with
        closer := .head
        closes := l.closes ++ [⟨b.trades, rowsOf cfg l.timeframe b, candle,
          if l.onClose then some (b.label, b.cells) else none⟩] }

theorem laneStep_moves {cfg : WSConfig} {l l' : Lane} {e : LaneEvent}
    (taken : laneStep cfg l e = some l') : Moves cfg l e l' := by
  cases e with
  | processTrade t =>
    simp only [laneStep, Option.some.injEq] at taken
    exact taken ▸ .process t
  | incrCell u =>
    simp only [laneStep, Option.some.injEq] at taken
    exact taken ▸ .incr u
  | arm nowMs =>
    cases here : l.closer <;> simp only [laneStep, here, reduceCtorEq, Option.map_eq_some_iff] at taken
    obtain ⟨next, armed, rfl⟩ := taken
    exact .arm here armed
  | flush nowMs =>
    cases here : l.closer <;>
      simp only [laneStep, here, reduceCtorEq, Option.ite_none_right_eq_some, Option.some.injEq] at taken
    obtain ⟨late, rfl⟩ := taken
    exact .flush here late
  | batchInsert ok =>
    cases here : l.closer <;> simp only [laneStep, here, reduceCtorEq] at taken
    cases ok with
    | true =>
      simp only [↓reduceIte, Option.some.injEq] at taken
      exact taken ▸ .inserted here
    | false =>
      simp only [Bool.false_eq_true, ↓reduceIte, Option.some.injEq] at taken
      exact taken ▸ .insertFailed here
  | setLastCandle ok =>
    cases here : l.closer <;> simp only [laneStep, here, reduceCtorEq, Option.some.injEq] at taken
    exact taken ▸ .cached ok here
  | delAggKey =>
    cases here : l.closer <;> simp only [laneStep, here, reduceCtorEq, Option.some.injEq] at taken
    exact taken ▸ .deleted here
  | notify =>
    cases here : l.closer <;> simp only [laneStep, here, reduceCtorEq, Option.some.injEq] at taken
    exact taken ▸ .notified here

/-- Where runConn is with the trade it read last. -/
inductive Stage where
  | read
  | process (t : Trade) (i : ℕ)
  | fillGap (t : Trade) (i : ℕ) (gapStart gapEnd : ℤ)
  | gapTrades (t : Trade) (i : ℕ) (rest : List Trade)
  | incr (t : Trade) (i : ℕ)
  | hSet (t : Trade) (i : ℕ) (key : String) (field value : Text)
  deriving DecidableEq

structure Live where
  cfg : WSConfig
  count : ℕ
  clock : ℕ
  stage : Stage
  lane : ℕ → Lane
  store : Store

inductive Event where
  | advance (ms : ℕ)
  | message (t : Trade)
  | processTrade
  | fillGap (reply : Option (List Trade))
  | gapTrade
  | incrCell (readOk : Bool)
  | hSet (ok : Bool)
  | arm (i : ℕ)
  | flush (i : ℕ)
  | batchInsert (i : ℕ) (ok : Bool)
  | setLastCandle (i : ℕ) (ok : Bool)
  | delAggKey (i : ℕ) (ok : Bool)
  | notify (i : ℕ)
  deriving DecidableEq

def Live.loopAt (s : Live) (t : Trade) (i : ℕ) : Stage := if i < s.count then .process t i else .read

def Live.onLane (s : Live) (i : ℕ) (e : LaneEvent) : Option Live :=
  if i < s.count then
    (laneStep s.cfg (s.lane i) e).map fun l => { s with lane := Function.update s.lane i l }
  else none

def Live.storeAfterDel (s : Live) (i : ℕ) (ok : Bool) : Store :=
  match (s.lane i).closer with
  | .deleting b _ =>
    if ok then RedisCache.delAggKey s.store (s.cfg.redisKeyFn (s.lane i).timeframe b.label) else s.store
  | _ => s.store

def step (s : Live) : Event → Option Live
  | .advance ms => some { s with clock := s.clock + ms }
  | .message t =>
    match s.stage with
    | .read => some { s with stage := s.loopAt t 0 }
    | _ => none
  | .processTrade =>
    match s.stage with
    | .process t i => (s.onLane i (.processTrade t)).map fun s' => { s' with
      stage := match (Aggregate.processTrade (s.lane i).agg t).2 with
        | none => .incr t i
        | some (gapStart, gapEnd) => .fillGap t i gapStart gapEnd }
    | _ => none
  | .fillGap reply =>
    match s.stage with
    | .fillGap t i _ _ => some { s with
      stage := match reply with
        | none => .incr t i
        | some trades => .gapTrades t i trades }
    | _ => none
  | .gapTrade =>
    match s.stage with
    | .gapTrades t i [] => some { s with stage := .incr t i }
    | .gapTrades t i (g :: rest) => (s.onLane i (.processTrade g)).map fun s' =>
      { s' with stage := .gapTrades t i rest }
    | _ => none
  | .incrCell readOk =>
    match s.stage with
    | .incr t i =>
      let u := updateOf s.cfg (s.lane i).timeframe t
      let field := fieldOf u.inc.bin
      let current := if readOk then hGet s.store u.key field else none
      (s.onLane i (.incrCell u)).map fun s' =>
        { s' with stage := .hSet t i u.key field (incrValue u.inc current) }
    | _ => none
  | .hSet ok =>
    match s.stage with
    | .hSet t i key field value => some { s with
      store := if ok then RedisCache.hSet s.store key field value else s.store
      stage := s.loopAt t (i + 1) }
    | _ => none
  | .arm i => s.onLane i (.arm s.clock)
  | .flush i => s.onLane i (.flush s.clock)
  | .batchInsert i ok => s.onLane i (.batchInsert ok)
  | .setLastCandle i ok => s.onLane i (.setLastCandle ok)
  | .delAggKey i ok => (s.onLane i .delAggKey).map fun s' => { s' with store := s.storeAfterDel i ok }
  | .notify i => s.onLane i .notify

def newLane (cfg : WSConfig) (onClose : Bool) (tf : String) : Lane where
  timeframe := tf
  agg := newAggregator cfg.symbol cfg.market tf cfg.tickSize cfg.compression
  onClose := onClose
  closer := .head
  accepted := []
  held := []
  saved := []
  sent := []
  closes := []

def start (cfg : WSConfig) (timeframes : List String) (onClose : Bool) (clock : ℕ) (store : Store) :
    Live where
  cfg := cfg
  count := timeframes.length
  clock := clock
  stage := .read
  lane i := newLane cfg onClose (timeframes.getD i "")
  store := store

def Live.closerTurn (s : Live) : Event → Option (ℕ × LaneEvent)
  | .arm i => some (i, .arm s.clock)
  | .flush i => some (i, .flush s.clock)
  | .batchInsert i ok => some (i, .batchInsert ok)
  | .setLastCandle i ok => some (i, .setLastCandle ok)
  | .notify i => some (i, .notify)
  | _ => none

def Live.target (s : Live) : Event → Option (ℕ × LaneEvent)
  | .processTrade =>
    match s.stage with
    | .process t i => some (i, .processTrade t)
    | _ => none
  | .gapTrade =>
    match s.stage with
    | .gapTrades _ i (g :: _) => some (i, .processTrade g)
    | _ => none
  | .incrCell _ =>
    match s.stage with
    | .incr t i => some (i, .incrCell (updateOf s.cfg (s.lane i).timeframe t))
    | _ => none
  | .arm i => some (i, .arm s.clock)
  | .flush i => some (i, .flush s.clock)
  | .batchInsert i ok => some (i, .batchInsert ok)
  | .setLastCandle i ok => some (i, .setLastCandle ok)
  | .delAggKey i _ => some (i, .delAggKey)
  | .notify i => some (i, .notify)
  | _ => none

theorem onLane_some {s s' : Live} {i : ℕ} {e : LaneEvent} (taken : s.onLane i e = some s') :
    ∃ l, laneStep s.cfg (s.lane i) e = some l ∧
      s' = { s with lane := Function.update s.lane i l } := by
  simp only [Live.onLane, Option.ite_none_right_eq_some, Option.map_eq_some_iff] at taken
  obtain ⟨_, l, moved, same⟩ := taken
  exact ⟨l, moved, same.symm⟩

theorem target_closerTurn {s : Live} {e : Event} {turn : ℕ × LaneEvent}
    (acts : s.closerTurn e = some turn) : s.target e = some turn := by
  cases e <;> first | exact acts | cases acts

/-- What a step of the machine does, by the place runConn is at. -/
inductive Steps (s : Live) : Event → Live → Prop where
  | advance (ms : ℕ) : Steps s (.advance ms) { s with clock := s.clock + ms }
  | message {t : Trade} (here : s.stage = .read) : Steps s (.message t) { s with stage := s.loopAt t 0 }
  | process {t : Trade} {i : ℕ} (here : s.stage = .process t i) : Steps s .processTrade { s with
      lane := Function.update s.lane i ((s.lane i).process t)
      stage := match (Aggregate.processTrade (s.lane i).agg t).2 with
        | none => .incr t i
        | some (gapStart, gapEnd) => .fillGap t i gapStart gapEnd }
  | fillGap {t : Trade} {i : ℕ} {gapStart gapEnd : ℤ} (reply : Option (List Trade))
      (here : s.stage = .fillGap t i gapStart gapEnd) : Steps s (.fillGap reply) { s with
        stage := match reply with
          | none => .incr t i
          | some trades => .gapTrades t i trades }
  | gapDone {t : Trade} {i : ℕ} (here : s.stage = .gapTrades t i []) :
      Steps s .gapTrade { s with stage := .incr t i }
  | gapTrade {t g : Trade} {i : ℕ} {rest : List Trade} (here : s.stage = .gapTrades t i (g :: rest)) :
      Steps s .gapTrade { s with
        lane := Function.update s.lane i ((s.lane i).process g)
        stage := .gapTrades t i rest }
  | incr {t : Trade} {i : ℕ} {u : Update} (readOk : Bool) (here : s.stage = .incr t i)
      (update : updateOf s.cfg (s.lane i).timeframe t = u) : Steps s (.incrCell readOk) { s with
        lane := Function.update s.lane i { s.lane i with sent := (s.lane i).sent ++ [u] }
        stage := .hSet t i u.key (fieldOf u.inc.bin) (incrValue u.inc
          (if readOk then hGet s.store u.key (fieldOf u.inc.bin) else none)) }
  | hSet {t : Trade} {i : ℕ} {key : String} {field value : Text} (ok : Bool)
      (here : s.stage = .hSet t i key field value) : Steps s (.hSet ok) { s with
        store := if ok then RedisCache.hSet s.store key field value else s.store
        stage := s.loopAt t (i + 1) }
  | deleted {i : ℕ} {l : Lane} (ok : Bool) (moved : laneStep s.cfg (s.lane i) .delAggKey = some l) :
      Steps s (.delAggKey i ok) { s with
        lane := Function.update s.lane i l
        store := s.storeAfterDel i ok }
  | closer {e : Event} {i : ℕ} {le : LaneEvent} {l : Lane} (acts : s.closerTurn e = some (i, le))
      (moved : laneStep s.cfg (s.lane i) le = some l) :
      Steps s e { s with lane := Function.update s.lane i l }

theorem step_steps {s s' : Live} {e : Event} (taken : step s e = some s') : Steps s e s' := by
  cases e with
  | advance ms =>
    simp only [step, Option.some.injEq] at taken
    exact taken ▸ .advance ms
  | message t =>
    cases here : s.stage <;> simp only [step, here, reduceCtorEq, Option.some.injEq] at taken
    exact taken ▸ .message here
  | processTrade =>
    cases here : s.stage <;> simp only [step, here, reduceCtorEq, Option.map_eq_some_iff] at taken
    obtain ⟨t, moved, rfl⟩ := taken
    obtain ⟨l, change, rfl⟩ := onLane_some moved
    simp only [laneStep, Option.some.injEq] at change
    exact change ▸ .process here
  | fillGap reply =>
    cases here : s.stage <;> simp only [step, here, reduceCtorEq, Option.some.injEq] at taken
    exact taken ▸ .fillGap reply here
  | gapTrade =>
    cases here : s.stage with
    | gapTrades t i rest =>
      cases rest with
      | nil =>
        simp only [step, here, Option.some.injEq] at taken
        exact taken ▸ .gapDone here
      | cons g rest =>
        simp only [step, here, Option.map_eq_some_iff] at taken
        obtain ⟨t, moved, rfl⟩ := taken
        obtain ⟨l, change, rfl⟩ := onLane_some moved
        simp only [laneStep, Option.some.injEq] at change
        exact change ▸ .gapTrade here
    | _ => simp only [step, here, reduceCtorEq] at taken
  | incrCell readOk =>
    cases here : s.stage <;> simp only [step, here, reduceCtorEq, Option.map_eq_some_iff] at taken
    obtain ⟨t, moved, rfl⟩ := taken
    obtain ⟨l, change, rfl⟩ := onLane_some moved
    simp only [laneStep, Option.some.injEq] at change
    exact change ▸ .incr readOk here rfl
  | hSet ok =>
    cases here : s.stage <;> simp only [step, here, reduceCtorEq, Option.some.injEq] at taken
    exact taken ▸ .hSet ok here
  | delAggKey i ok =>
    simp only [step, Option.map_eq_some_iff] at taken
    obtain ⟨t, moved, rfl⟩ := taken
    obtain ⟨l, change, rfl⟩ := onLane_some moved
    exact .deleted ok change
  | arm i | flush i | batchInsert i ok | setLastCandle i ok | notify i =>
    obtain ⟨l, change, rfl⟩ := onLane_some taken
    exact .closer rfl change

def LanesMove (s s' : Live) (e : Event) : Prop :=
  match s.target e with
  | none => s'.lane = s.lane
  | some (i, le) => ∃ l, laneStep s.cfg (s.lane i) le = some l ∧ s'.lane = Function.update s.lane i l

theorem step_lanes {s s' : Live} {e : Event} (taken : step s e = some s') :
    s'.cfg = s.cfg ∧ LanesMove s s' e := by
  unfold LanesMove
  cases step_steps taken with
  | advance | message | fillGap | hSet => exact ⟨rfl, rfl⟩
  | gapDone here =>
    simp only [Live.target, here, and_self]
  | process here =>
    simp only [Live.target, here]
    exact ⟨trivial, _, rfl, rfl⟩
  | gapTrade here =>
    simp only [Live.target, here]
    exact ⟨trivial, _, rfl, rfl⟩
  | incr readOk here update =>
    simp only [Live.target, here, update]
    exact ⟨trivial, _, rfl, rfl⟩
  | deleted ok moved => exact ⟨rfl, _, moved, rfl⟩
  | closer acts moved =>
    rw [target_closerTurn acts]
    exact ⟨rfl, _, moved, rfl⟩

def LaneGuard (ok : Lane → LaneEvent → Prop) (s : Live) (e : Event) : Prop :=
  ∀ i le, s.target e = some (i, le) → ok (s.lane i) le

theorem lanes_step {cfg : WSConfig} {invariant : Lane → Prop} {s s' : Live} {e : Event}
    (config : s.cfg = cfg) (holds : ∀ i, invariant (s.lane i))
    (keeps : ∀ i le l, s.target e = some (i, le) → laneStep cfg (s.lane i) le = some l → invariant l)
    (taken : step s e = some s') : s'.cfg = cfg ∧ ∀ i, invariant (s'.lane i) := by
  obtain ⟨same, moves⟩ := step_lanes taken
  refine ⟨same.trans config, ?_⟩
  intro j
  unfold LanesMove at moves
  cases acts : s.target e with
  | none =>
    simp only [acts] at moves
    exact moves ▸ holds j
  | some target =>
    obtain ⟨i, le⟩ := target
    simp only [acts] at moves
    obtain ⟨l, change, lanes⟩ := moves
    rw [config] at change
    rw [lanes]
    by_cases here : j = i
    · subst here
      rw [Function.update_self]
      exact keeps j le l acts change
    · rw [Function.update_of_ne here]
      exact holds j

/- What every step keeps of each lane and every step outside the condition breaks at
   once is, along a run, the same as the condition on each step. -/
theorem lanes_always_iff {cfg : WSConfig} (invariant : Lane → Prop) {property : Lane → Prop}
    {ok : Lane → LaneEvent → Prop} (safe : ∀ l, invariant l → property l)
    (keeps : ∀ l e l', invariant l → ok l e → laneStep cfg l e = some l' → invariant l')
    (breaks : ∀ l e l', invariant l → ¬ ok l e → laneStep cfg l e = some l' → ¬ property l')
    {s : Live} (config : s.cfg = cfg) (holds : ∀ i, invariant (s.lane i)) (events : List Event) :
    Always step (fun s => ∀ i, property (s.lane i)) s events ↔
      Guarded step (LaneGuard ok) s events := by
  apply always_iff_guarded (fun s => s.cfg = cfg ∧ ∀ i, invariant (s.lane i)) _ _ _ ⟨config, holds⟩
  · intro s inv i
    exact safe _ (inv.2 i)
  · intro s e s' inv meets taken
    exact lanes_step inv.1 inv.2 (fun i le l acts change => keeps _ le l (inv.2 i) (meets i le acts) change)
      taken
  · intro s e s' inv outside taken all
    simp only [LaneGuard, not_forall] at outside
    obtain ⟨i, le, acts, fails⟩ := outside
    obtain ⟨_, moves⟩ := step_lanes taken
    simp only [LanesMove, acts] at moves
    obtain ⟨l, change, lanes⟩ := moves
    rw [inv.1] at change
    have here := all i
    rw [lanes, Function.update_self] at here
    exact breaks _ le l (inv.2 i) fails change here

def OnGrid (tf : String) (c : ℤ) : Prop := 0 < c ∧ ∃ secs ∈ tfSeconds tf, secs ∣ c

structure BatchSound (cfg : WSConfig) (tf : String) (b : Batch) : Prop where
  label : OnGrid tf b.label
  cells : b.cells ≠ []
  own : ∀ c ∈ b.cells, ∃ t ∈ b.trades, cfg.bin t = c.price

def CloserSound (cfg : WSConfig) (tf : String) : Closer → Prop
  | .head => True
  | .waiting next => OnGrid tf next
  | .inserting b | .caching b => BatchSound cfg tf b
  | .deleting b cached | .notifying b cached =>
    BatchSound cfg tf b ∧ ∀ candle ∈ cached, candle = candleOf cfg b

/- What holds of a lane in every run: its aggregator's cells are those of the trades
   it holds, and its closer works at a boundary with cells of the trades it took. -/
structure Sound (cfg : WSConfig) (l : Lane) : Prop where
  bin : l.agg.bin = cfg.bin
  cells : l.agg.cells = cellsOf cfg.bin l.held
  closer : CloserSound cfg l.timeframe l.closer

theorem nextCloseTime_onGrid {nowMs : ℕ} {tf : String} {next : ℤ}
    (armed : nextCloseTime nowMs tf = some next) : OnGrid tf next := by
  simp only [nextCloseTime, Option.map_eq_some_iff] at armed
  obtain ⟨secs, known, rfl⟩ := armed
  have length := tfSeconds_pos known
  have candles : 0 ≤ ((nowMs / 1000 : ℕ) : ℤ).tdiv secs :=
    Int.tdiv_nonneg (Int.natCast_nonneg _) length.le
  exact ⟨by positivity, secs, known, Int.dvd_mul_left _ _⟩

@[simp] theorem process_timeframe (l : Lane) (t : Trade) :
    (l.process t).timeframe = l.timeframe := rfl

theorem process_sound {cfg : WSConfig} {l : Lane} (sound : Sound cfg l) (t : Trade) :
    Sound cfg (l.process t) := by
  refine ⟨?_, ?_, sound.closer⟩
  · funext u
    simp only [Lane.process, processTrade_bin, sound.bin]
  · by_cases old : t.tradeID ∈ l.agg.seen
    · simp only [Lane.process, processTrade_seen old, old, ↓reduceIte]
      exact sound.cells
    · simp only [Lane.process, processTrade_cells old, old, ↓reduceIte, cellsOf_append_one,
        sound.bin, sound.cells]

theorem flush_sound {cfg : WSConfig} {l : Lane} (sound : Sound cfg l) {next : ℤ}
    (boundary : OnGrid l.timeframe next) : Sound cfg (l.flush next) := by
  refine ⟨sound.bin, rfl, ?_⟩
  simp only [Lane.flush]
  by_cases empty : nonEmpty l.agg.currentCells = []
  · simp only [flush_output, empty, ↓reduceIte, CloserSound]
  · simp only [flush_output, empty, ↓reduceIte, CloserSound]
    refine ⟨boundary, empty, ?_⟩
    intro c hc
    exact (currentCells_held cfg.bin sound.cells).1 c (List.mem_filter.mp hc).1

theorem laneStep_sound {cfg : WSConfig} {l l' : Lane} {e : LaneEvent} (sound : Sound cfg l)
    (taken : laneStep cfg l e = some l') : Sound cfg l' := by
  have closer := sound.closer
  cases laneStep_moves taken with
  | process t => exact process_sound sound t
  | incr u => exact ⟨sound.bin, sound.cells, closer⟩
  | arm here armed => exact ⟨sound.bin, sound.cells, nextCloseTime_onGrid armed⟩
  | flush here late =>
    rw [here] at closer
    exact flush_sound sound closer
  | inserted here =>
    rw [here] at closer
    exact ⟨sound.bin, sound.cells, closer⟩
  | insertFailed here => exact ⟨sound.bin, sound.cells, trivial⟩
  | cached ok here =>
    rw [here] at closer
    refine ⟨sound.bin, sound.cells, closer, ?_⟩
    intro candle written
    cases ok with
    | true => exact (Option.some.inj written).symm
    | false => cases written
  | deleted here =>
    rw [here] at closer
    exact ⟨sound.bin, sound.cells, closer⟩
  | notified here => exact ⟨sound.bin, sound.cells, trivial⟩

theorem newLane_sound (cfg : WSConfig) (onClose : Bool) (tf : String) :
    Sound cfg (newLane cfg onClose tf) := ⟨rfl, rfl, trivial⟩

theorem kept_nonempty {cfg : WSConfig} {tf : String} {b : Batch} (sound : BatchSound cfg tf b) :
    b.kept cfg ≠ [] := by
  obtain ⟨c, cells, split⟩ := List.exists_cons_of_ne_nil sound.cells
  have first : c ∈ b.cells := by rw [split]; simp
  obtain ⟨t, ht, same⟩ := sound.own c first
  exact List.ne_nil_of_mem (List.mem_filter.mpr
    ⟨ht, by simpa [same] using ⟨c, first, rfl⟩⟩)

def sampleConfig : WSConfig := ⟨"BTCUSDT", "futures", 1 / 10, 25⟩

def sampleTrade (id tradeTimeMs : ℤ) : Trade := ⟨id, 100, 1, tradeTimeMs, true⟩

end LiveIngest
