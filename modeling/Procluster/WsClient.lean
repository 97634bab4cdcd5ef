import Mathlib
import Procluster.Library.EventRuns
import Procluster.Library.KeyedFold

/-!
The browser's WsClient and the charts that share it. A callback is named by the chart
whose closure it is. Requests sent over the open connection are recorded, so that
what the server holds for this connection can be read off them; a new connection
starts with none. Timer delays and log texts are left out: a reconnect is an event
that may happen at any time.
-/
namespace WsClient
open KeyedFold EventRuns

structure Sub where
  symbol : String
  market : String
  tf : String
  compression : ℕ
  deriving DecidableEq

inductive WsMessageType where
  | update
  | close
  | candleOpen
  | ok
  | error
  deriving DecidableEq

structure WsMessage (BackendCandle : Type) where
  type : WsMessageType
  symbol : Option String
  market : Option String
  tf : Option String
  compression : Option ℕ
  candle : Option BackendCandle

structure SubCallbacks (ι : Type) where
  onUpdate : Option ι
  onClose : Option ι
  onOpen : Option ι

inductive Request where
  | subscribe (sub : Sub)
  | unsubscribe (sub : Sub)

inductive ReadyState where
  | connecting
  | opened
  deriving DecidableEq

structure Client (ι : Type) where
  ws : Option ReadyState
  destroyed : Bool
  activeSubs : List (String × Sub)
  subCallbacks : List (String × SubCallbacks ι)
  sent : List Request

inductive Call (ι BackendCandle ClusterCandle : Type) where
  | onUpdate (callback : ι) (msg : WsMessage BackendCandle) (candle : ClusterCandle)
  | onClose (callback : ι) (msg : WsMessage BackendCandle) (candle : ClusterCandle)
  | onOpen (callback : ι) (msg : WsMessage BackendCandle)

def makeSubKey (s : Sub) : String :=
  s.symbol ++ ":" ++ s.market ++ ":" ++ s.tf ++ ":" ++ s.compression.repr

variable {ι BackendCandle ClusterCandle : Type}

def newClient : Client ι := ⟨none, false, [], [], []⟩

/-- A request goes out only over an open connection. -/
def Client.send (c : Client ι) (requests : List Request) : Client ι :=
  if c.ws = some .opened then { c with sent := c.sent ++ requests } else c

def Client.subscribe (c : Client ι) (sub : Sub) (callbacks : SubCallbacks ι) : Client ι :=
  let key := makeSubKey sub
  Client.send
    { c with
      activeSubs := upsert key (fun _ => sub) c.activeSubs
      subCallbacks := upsert key (fun _ => callbacks) c.subCallbacks } [.subscribe sub]

def Client.unsubscribe (c : Client ι) (sub : Sub) : Client ι :=
  let key := makeSubKey sub
  Client.send
    { c with
      activeSubs := erase key c.activeSubs
      subCallbacks := erase key c.subCallbacks } [.unsubscribe sub]

def Client.connect (c : Client ι) : Client ι :=
  if c.destroyed ∨ c.ws.isSome then c else { c with ws := some .connecting, sent := [] }

/-- The new connection is told every active subscription again. -/
def Client.onopen (c : Client ι) : Client ι :=
  Client.send { c with ws := some .opened } ((c.activeSubs.map Prod.snd).map .subscribe)

def Client.onclose (c : Client ι) : Client ι := { c with ws := none }

def Client.destroy (c : Client ι) : Client ι := { c with destroyed := true, ws := none }

/-- The key a message is looked up by; a missing, empty or zero field gives none. -/
def messageKey (msg : WsMessage BackendCandle) : Option String :=
  match msg.symbol, msg.market, msg.tf, msg.compression with
  | some symbol, some market, some tf, some compression =>
    if symbol ≠ "" ∧ market ≠ "" ∧ tf ≠ "" ∧ compression ≠ 0
      then some (makeSubKey ⟨symbol, market, tf, compression⟩) else none
  | _, _, _, _ => none

def handleMessage (mapBackendCandle : BackendCandle → ClusterCandle) (c : Client ι)
    (msg : WsMessage BackendCandle) : List (Call ι BackendCandle ClusterCandle) :=
  match msg.type with
  | .update | .close =>
    match msg.candle with
    | none => []
    | some bc =>
      let candle := mapBackendCandle bc
      let cb := (messageKey msg).bind fun key => find key c.subCallbacks
      if msg.type = .update
        then ((cb.bind SubCallbacks.onUpdate).map fun f => .onUpdate f msg candle).toList
        else ((cb.bind SubCallbacks.onClose).map fun f => .onClose f msg candle).toList
  | .candleOpen => c.subCallbacks.filterMap fun p => p.2.onOpen.map fun f => .onOpen f msg
  | .ok | .error => []

def serverSubs (sent : List Request) : Finset Sub :=
  sent.foldl (fun subs r => match r with
    | .subscribe sub => insert sub subs
    | .unsubscribe sub => subs.erase sub) ∅

structure Charts (ι : Type) where
  client : Client ι
  current : ι → Option Sub

inductive Event (ι : Type) where
  | subscribe (i : ι) (sub : Sub)
  | unsubscribe (i : ι)
  | connect
  | onopen
  | onclose
  | destroy

/-- Both charts pass an update and a close callback and no open callback. -/
def chartCallbacks (i : ι) : SubCallbacks ι := ⟨some i, some i, none⟩

def step [DecidableEq ι] (s : Charts ι) : Event ι → Option (Charts ι)
  | .subscribe i sub =>
    if s.current i = none then some
      ⟨s.client.subscribe sub (chartCallbacks i), Function.update s.current i (some sub)⟩
    else none
  | .unsubscribe i =>
    (s.current i).map fun sub =>
      ⟨s.client.unsubscribe sub, Function.update s.current i none⟩
  | .connect => some { s with client := s.client.connect }
  | .onopen => if s.client.ws = some .connecting then some { s with client := s.client.onopen } else none
  | .onclose => if s.client.ws.isSome then some { s with client := s.client.onclose } else none
  | .destroy => some { s with client := s.client.destroy }

def start : Charts ι := ⟨newClient, fun _ => none⟩

def Matches (msg : WsMessage BackendCandle) (sub : Sub) : Prop :=
  msg.symbol = some sub.symbol ∧ msg.market = some sub.market ∧ msg.tf = some sub.tf ∧
    msg.compression = some sub.compression

/-- Every chart is called back for each message of its current subscription, which
    stays active in the client and, over an open connection, on the server. -/
structure EveryChartServed (mapBackendCandle : BackendCandle → ClusterCandle) (s : Charts ι) :
    Prop where
  update : ∀ i sub, s.current i = some sub → ∀ msg bc, Matches msg sub → msg.type = .update →
    msg.candle = some bc →
      .onUpdate i msg (mapBackendCandle bc) ∈ handleMessage mapBackendCandle s.client msg
  close : ∀ i sub, s.current i = some sub → ∀ msg bc, Matches msg sub → msg.type = .close →
    msg.candle = some bc →
      .onClose i msg (mapBackendCandle bc) ∈ handleMessage mapBackendCandle s.client msg
  active : ∀ i sub, s.current i = some sub → makeSubKey sub ∈ keys s.client.activeSubs
  server : s.client.ws = some .opened →
    ∀ i sub, s.current i = some sub → sub ∈ serverSubs s.client.sent

abbrev Filled (sub : Sub) : Prop :=
  sub.symbol ≠ "" ∧ sub.market ≠ "" ∧ sub.tf ≠ "" ∧ sub.compression ≠ 0

/-- A chart subscribes with all fields filled and under a key no other chart holds. -/
def OwnKey (s : Charts ι) : Event ι → Prop
  | .subscribe i sub => Filled sub ∧
    ∀ j other, j ≠ i → s.current j = some other → makeSubKey other ≠ makeSubKey sub
  | _ => True

/- What keeps every chart served: the keys of the charts are apart, and each leads to
   the chart's own callbacks and subscription. -/
structure Apart (s : Charts ι) : Prop where
  filled : ∀ i sub, s.current i = some sub → Filled sub
  keys_apart : ∀ i j a b, s.current i = some a → s.current j = some b →
    makeSubKey a = makeSubKey b → i = j
  callbacks : ∀ i sub, s.current i = some sub →
    find (makeSubKey sub) s.client.subCallbacks = some (chartCallbacks i)
  active : ∀ i sub, s.current i = some sub →
    find (makeSubKey sub) s.client.activeSubs = some sub
  server : s.client.ws = some .opened →
    ∀ i sub, s.current i = some sub → sub ∈ serverSubs s.client.sent

theorem apart_start : Apart (start : Charts ι) := by
  constructor <;> simp [start]

@[simp] theorem send_activeSubs (c : Client ι) (requests : List Request) :
    (c.send requests).activeSubs = c.activeSubs := by
  unfold Client.send
  split <;> rfl

@[simp] theorem send_subCallbacks (c : Client ι) (requests : List Request) :
    (c.send requests).subCallbacks = c.subCallbacks := by
  unfold Client.send
  split <;> rfl

@[simp] theorem send_ws (c : Client ι) (requests : List Request) :
    (c.send requests).ws = c.ws := by
  unfold Client.send
  split <;> rfl

@[simp] theorem serverSubs_subscribe (sent : List Request) (sub : Sub) :
    serverSubs (sent ++ [.subscribe sub]) = insert sub (serverSubs sent) := by
  simp [serverSubs]

@[simp] theorem serverSubs_unsubscribe (sent : List Request) (sub : Sub) :
    serverSubs (sent ++ [.unsubscribe sub]) = (serverSubs sent).erase sub := by
  simp [serverSubs]

theorem serverSubs_resubscribed (sent : List Request) {subs : List Sub} {sub : Sub}
    (member : sub ∈ subs) : sub ∈ serverSubs (sent ++ subs.map .subscribe) := by
  induction subs using List.reverseRecOn with
  | nil => cases member
  | append_singleton subs last ih =>
    rw [List.map_append, ← List.append_assoc]
    simp only [List.map_cons, List.map_nil, serverSubs_subscribe]
    cases List.mem_append.mp member with
    | inl earlier => exact Finset.mem_insert_of_mem (ih earlier)
    | inr same =>
      rw [List.mem_singleton.mp same]
      exact Finset.mem_insert_self _ _

theorem messageKey_of_matches {msg : WsMessage BackendCandle} {sub : Sub} (filled : Filled sub)
    (hit : Matches msg sub) : messageKey msg = some (makeSubKey sub) := by
  obtain ⟨symbol, market, tf, compression⟩ := hit
  obtain ⟨s, m, t, c⟩ := filled
  simp [messageKey, symbol, market, tf, compression, s, m, t, c]

theorem messageKey_of_unfilled {msg : WsMessage BackendCandle} {sub : Sub} (unfilled : ¬ Filled sub)
    (hit : Matches msg sub) : messageKey msg = none := by
  obtain ⟨symbol, market, tf, compression⟩ := hit
  simp only [messageKey, symbol, market, tf, compression]
  exact if_neg unfilled

theorem handle_update (mapBackendCandle : BackendCandle → ClusterCandle) (c : Client ι)
    {msg : WsMessage BackendCandle} {bc : BackendCandle} (type : msg.type = .update)
    (candle : msg.candle = some bc) : handleMessage mapBackendCandle c msg =
      ((((messageKey msg).bind fun key => find key c.subCallbacks).bind SubCallbacks.onUpdate).map
        fun f => .onUpdate f msg (mapBackendCandle bc)).toList := by
  simp [handleMessage, type, candle]

theorem handle_close (mapBackendCandle : BackendCandle → ClusterCandle) (c : Client ι)
    {msg : WsMessage BackendCandle} {bc : BackendCandle} (type : msg.type = .close)
    (candle : msg.candle = some bc) : handleMessage mapBackendCandle c msg =
      ((((messageKey msg).bind fun key => find key c.subCallbacks).bind SubCallbacks.onClose).map
        fun f => .onClose f msg (mapBackendCandle bc)).toList := by
  simp [handleMessage, type, candle]

theorem apart_served (mapBackendCandle : BackendCandle → ClusterCandle) (s : Charts ι)
    (apart : Apart s) : EveryChartServed mapBackendCandle s := by
  constructor
  · intro i sub held msg bc hit type candle
    rw [handle_update mapBackendCandle s.client type candle,
      messageKey_of_matches (apart.filled i sub held) hit, Option.bind_some,
      apart.callbacks i sub held]
    simp [chartCallbacks]
  · intro i sub held msg bc hit type candle
    rw [handle_close mapBackendCandle s.client type candle,
      messageKey_of_matches (apart.filled i sub held) hit, Option.bind_some,
      apart.callbacks i sub held]
    simp [chartCallbacks]
  · intro i sub held
    rw [mem_keys_iff, apart.active i sub held]
    rfl
  · exact apart.server

theorem apart_client {s : Charts ι} {c : Client ι} (apart : Apart s)
    (callbacks : c.subCallbacks = s.client.subCallbacks)
    (active : c.activeSubs = s.client.activeSubs)
    (server : c.ws = some .opened → ∀ i sub, s.current i = some sub → sub ∈ serverSubs c.sent) :
    Apart { s with client := c } := by
  constructor
  · exact apart.filled
  · exact apart.keys_apart
  · simpa only [callbacks] using apart.callbacks
  · simpa only [active] using apart.active
  · exact server

variable [DecidableEq ι]

theorem held_after {current : ι → Option Sub} {i j : ι} {sub other : Sub}
    (held : Function.update current i (some sub) j = some other) :
    (j = i ∧ other = sub) ∨ (j ≠ i ∧ current j = some other) := by
  by_cases same : j = i
  · rw [same, Function.update_self, Option.some.injEq] at held
    exact Or.inl ⟨same, held.symm⟩
  · rw [Function.update_of_ne same] at held
    exact Or.inr ⟨same, held⟩

theorem apart_subscribe {s s' : Charts ι} {i : ι} {sub : Sub} (apart : Apart s)
    (ok : OwnKey s (.subscribe i sub)) (taken : step s (.subscribe i sub) = some s') :
    Apart s' := by
  obtain ⟨filled, own⟩ := ok
  simp only [step, Option.ite_none_right_eq_some, Option.some.injEq] at taken
  obtain ⟨idle, rfl⟩ := taken
  constructor
  · intro j other held
    rcases held_after held with ⟨_, rfl⟩ | ⟨_, before⟩
    · exact filled
    · exact apart.filled j other before
  · intro j k a b hj hk equal
    rcases held_after hj with ⟨rfl, rfl⟩ | ⟨first, beforej⟩
    · rcases held_after hk with ⟨same, _⟩ | ⟨second, beforek⟩
      · exact same.symm
      · exact absurd equal.symm (own k b second beforek)
    · rcases held_after hk with ⟨rfl, rfl⟩ | ⟨_, beforek⟩
      · exact absurd equal (own j a first beforej)
      · exact apart.keys_apart j k a b beforej beforek equal
  · intro j other held
    simp only [Client.subscribe, send_subCallbacks]
    rcases held_after held with ⟨rfl, rfl⟩ | ⟨differ, before⟩
    · exact find_upsert_self _ _ _
    · rw [find_upsert_other _ _ (own j other differ before)]
      exact apart.callbacks j other before
  · intro j other held
    simp only [Client.subscribe, send_activeSubs]
    rcases held_after held with ⟨rfl, rfl⟩ | ⟨differ, before⟩
    · exact find_upsert_self _ _ _
    · rw [find_upsert_other _ _ (own j other differ before)]
      exact apart.active j other before
  · intro opened j other held
    simp only [Client.subscribe, send_ws] at opened ⊢
    simp only [Client.send, opened, ↓reduceIte, serverSubs_subscribe]
    rcases held_after held with ⟨rfl, rfl⟩ | ⟨_, before⟩
    · exact Finset.mem_insert_self _ _
    · exact Finset.mem_insert_of_mem (apart.server opened j other before)

theorem apart_unsubscribe {s s' : Charts ι} {i : ι} (apart : Apart s)
    (taken : step s (.unsubscribe i) = some s') : Apart s' := by
  simp only [step, Option.map_eq_some_iff] at taken
  obtain ⟨sub, mine, rfl⟩ := taken
  have others : ∀ j other, Function.update s.current i none j = some other →
      s.current j = some other ∧ makeSubKey other ≠ makeSubKey sub := by
    intro j other held
    by_cases same : j = i
    · subst same
      simp only [Function.update_self, reduceCtorEq] at held
    · rw [Function.update_of_ne same] at held
      exact ⟨held, fun equal => same (apart.keys_apart j i other sub held mine equal)⟩
  constructor
  · intro j other held
    exact apart.filled j other (others j other held).1
  · intro j k a b hj hk
    exact apart.keys_apart j k a b (others j a hj).1 (others k b hk).1
  · intro j other held
    obtain ⟨held, differ⟩ := others j other held
    simp only [Client.unsubscribe, send_subCallbacks, find_erase, differ, ↓reduceIte]
    exact apart.callbacks j other held
  · intro j other held
    obtain ⟨held, differ⟩ := others j other held
    simp only [Client.unsubscribe, send_activeSubs, find_erase, differ, ↓reduceIte]
    exact apart.active j other held
  · intro opened j other held
    obtain ⟨held, differ⟩ := others j other held
    simp only [Client.unsubscribe, send_ws] at opened ⊢
    simp only [Client.send, opened, ↓reduceIte, serverSubs_unsubscribe]
    exact Finset.mem_erase.mpr ⟨fun same => differ (by rw [same]), apart.server opened j other held⟩

theorem apart_step (s : Charts ι) (e : Event ι) (s' : Charts ι) (apart : Apart s)
    (ok : OwnKey s e) (taken : step s e = some s') : Apart s' := by
  cases e with
  | subscribe i sub => exact apart_subscribe apart ok taken
  | unsubscribe i => exact apart_unsubscribe apart taken
  | connect =>
    simp only [step, Option.some.injEq] at taken
    subst s'
    unfold Client.connect
    split
    · exact apart
    · exact apart_client apart rfl rfl (by simp)
  | onopen =>
    simp only [step, Option.ite_none_right_eq_some, Option.some.injEq] at taken
    obtain ⟨_, rfl⟩ := taken
    refine apart_client apart (by simp [Client.onopen]) (by simp [Client.onopen]) ?_
    intro _ i sub held
    have stored : sub ∈ s.client.activeSubs.map Prod.snd :=
      List.mem_map.mpr ⟨_, mem_of_find (apart.active i sub held), rfl⟩
    have again := serverSubs_resubscribed s.client.sent stored
    simpa only [Client.onopen, Client.send, ↓reduceIte] using again
  | onclose =>
    simp only [step, Option.ite_none_right_eq_some, Option.some.injEq] at taken
    obtain ⟨_, rfl⟩ := taken
    exact apart_client apart rfl rfl (by simp [Client.onclose])
  | destroy =>
    simp only [step, Option.some.injEq] at taken
    subst s'
    exact apart_client apart rfl rfl (by simp [Client.destroy])

def sampleMessage (bc : BackendCandle) (sub : Sub) : WsMessage BackendCandle :=
  ⟨.update, some sub.symbol, some sub.market, some sub.tf, some sub.compression, some bc⟩

/- A subscribe outside the condition leaves a chart unserved at once: the subscriber
   itself when a field is empty, otherwise the chart that already held the key. -/
theorem unserved_step [Inhabited BackendCandle] (mapBackendCandle : BackendCandle → ClusterCandle)
    (s : Charts ι) (e : Event ι) (s' : Charts ι) (apart : Apart s) (shared : ¬ OwnKey s e)
    (taken : step s e = some s') : ¬ EveryChartServed mapBackendCandle s' := by
  intro served
  cases e with
  | subscribe i sub =>
    simp only [step, Option.ite_none_right_eq_some, Option.some.injEq] at taken
    obtain ⟨_, rfl⟩ := taken
    by_cases filled : Filled sub
    · obtain ⟨j, other, differ, held, equal⟩ : ∃ j other, j ≠ i ∧ s.current j = some other ∧
          makeSubKey other = makeSubKey sub := by
        by_contra none
        apply shared
        refine ⟨filled, ?_⟩
        intro j other differ held equal
        exact none ⟨j, other, differ, held, equal⟩
      have stays : Function.update s.current i (some sub) j = some other := by
        rwa [Function.update_of_ne differ]
      have called := served.update j other stays (sampleMessage default other) default
        ⟨rfl, rfl, rfl, rfl⟩ rfl rfl
      rw [handle_update mapBackendCandle _ rfl rfl,
        messageKey_of_matches (apart.filled j other held) ⟨rfl, rfl, rfl, rfl⟩, Option.bind_some,
        equal] at called
      simp only [Client.subscribe, send_subCallbacks, find_upsert_self, Option.bind_some,
        chartCallbacks, Option.map_some, Option.toList_some, List.mem_singleton,
        Call.onUpdate.injEq] at called
      exact differ called.1
    · have called := served.update i sub (Function.update_self ..) (sampleMessage default sub) default
        ⟨rfl, rfl, rfl, rfl⟩ rfl rfl
      rw [handle_update mapBackendCandle _ rfl rfl,
        messageKey_of_unfilled filled ⟨rfl, rfl, rfl, rfl⟩] at called
      simp at called
  | unsubscribe i => exact shared trivial
  | connect => exact shared trivial
  | onopen => exact shared trivial
  | onclose => exact shared trivial
  | destroy => exact shared trivial

theorem every_chart_served_iff (mapBackendCandle : BackendCandle → ClusterCandle)
    [Inhabited BackendCandle] (events : List (Event ι)) :
    Always step (EveryChartServed mapBackendCandle) start events ↔
      Guarded step OwnKey (start : Charts ι) events :=
  always_iff_guarded Apart (apart_served mapBackendCandle) apart_step
    (unserved_step mapBackendCandle) apart_start events

def chartSub : Sub := ⟨"BTCUSDT", "futures", "1m", 25⟩

/-- Two charts choose the same settings: the first is no longer called back. -/
theorem second_chart_takes_over : ¬ Always step (EveryChartServed (id : Unit → Unit)) start
    [.subscribe false chartSub, .subscribe true chartSub] := by
  intro always
  have served := always_final always rfl
  have called := served.update false chartSub (by decide) (sampleMessage () chartSub) ()
    ⟨rfl, rfl, rfl, rfl⟩ rfl rfl
  rw [handle_update id _ rfl rfl, messageKey_of_matches (by decide) ⟨rfl, rfl, rfl, rfl⟩,
    Option.bind_some] at called
  simp [Client.subscribe, chartCallbacks] at called

end WsClient
