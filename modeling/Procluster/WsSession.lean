import Procluster.ClientRequests
import Procluster.ConnectedClients
import Procluster.WsClient

/-!
The browser's client and the hub over one connection at a time. Requests wait on the
wire in the order they were sent and the server's ReadPump takes them one by one, while
the rest of the hub goes on: other connections, ticks, closes, goroutines. The pump of an
earlier connection is one of the others. What the server holds for the connection is
compared with what the browser has active.
-/
namespace WsSession
open KeyedFold EventRuns WsClient WsHub

def maxMessageSize : ℕ := 4096

def escaped (c : Char) : List Char :=
  if c = '"' then ['\\', '"']
  else if c = '\\' then ['\\', '\\']
  else if c = '\n' then ['\\', 'n']
  else if c = '\r' then ['\\', 'r']
  else if c = '\t' then ['\\', 't']
  else if c.toNat = 8 then ['\\', 'b']
  else if c.toNat = 12 then ['\\', 'f']
  else if c.toNat < 32 then
    ['\\', 'u', '0', '0', Nat.digitChar (c.toNat / 16), Nat.digitChar (c.toNat % 16)]
  else [c]

def quoted (s : String) : String := "\"" ++ String.ofList (s.toList.flatMap escaped) ++ "\""

def subOf : Request → Sub
  | .subscribe sub | .unsubscribe sub => sub

def actionOf : Request → String
  | .subscribe _ => "subscribe"
  | .unsubscribe _ => "unsubscribe"

def frame (r : Request) : String :=
  "\x7b\"action\":" ++ quoted (actionOf r) ++ ",\"symbol\":" ++ quoted (subOf r).symbol ++
    ",\"market\":" ++ quoted (subOf r).market ++ ",\"tf\":" ++ quoted (subOf r).tf ++
    ",\"compression\":" ++ (subOf r).compression.repr ++ "\x7d"

/-- The message the server reads from it; a compression beyond 32 bits is an error. -/
def received (r : Request) : Option ClientMessage :=
  if (subOf r).compression < 2 ^ 32 then
    some ⟨actionOf r, (subOf r).symbol, (subOf r).market, (subOf r).tf,
      UInt32.ofNat (subOf r).compression⟩
  else none

inductive Pump where
  | waiting
  | reading (c : ClientId)
  | ended
  deriving DecidableEq

structure Session (ι : Type) where
  browser : WsClient.Client ι
  pump : Pump
  hub : Hub
  handled : List (Request × Reply)
  used : List ClientId

inductive Event (ι : Type) where
  | subscribe (sub : Sub) (callbacks : SubCallbacks ι)
  | unsubscribe (sub : Sub)
  | connect
  | onopen
  | onclose
  | destroy
  | accept (c : ClientId)
  | handle
  | readError
  | other (e : HubEvent)

variable {ι : Type}

def start (validator : Validator) (writeBufSize : ℕ) : Session ι :=
  ⟨WsClient.newClient, .ended, newHub validator writeBufSize, [], []⟩

def next (s : Session ι) : Option Request := s.browser.sent[s.handled.length]?

def step (s : Session ι) : Event ι → Option (Session ι)
  | .subscribe sub callbacks => some { s with browser := s.browser.subscribe sub callbacks }
  | .unsubscribe sub => some { s with browser := s.browser.unsubscribe sub }
  | .connect =>
    if s.browser.destroyed ∨ s.browser.ws.isSome then some s
    else some { s with browser := s.browser.connect, pump := .waiting, handled := [] }
  | .onopen =>
    if s.browser.ws = some .connecting then some { s with browser := s.browser.onopen } else none
  | .onclose => if s.browser.ws.isSome then some { s with browser := s.browser.onclose } else none
  | .destroy => some { s with browser := s.browser.destroy }
  | .accept c =>
    if s.pump = .waiting ∧ c ∉ s.used then
      (advance s.hub (.call (.register c))).map fun hub =>
        { s with hub := hub, pump := .reading c, used := c :: s.used }
    else none
  | .handle =>
    match s.pump, next s with
    | .reading c, some r =>
      if (frame r).utf8ByteSize ≤ maxMessageSize then
        (handleMessage c (received r) s.hub).toOption.map fun answer =>
          { s with hub := answer.2, handled := s.handled ++ [(r, answer.1)] }
      else none
    | _, _ => none
  -- a frame that is too long is a read error as well
  | .readError =>
    match s.pump with
    | .reading c =>
      (advance s.hub (.call (.unregister c))).map fun hub => { s with hub := hub, pump := .ended }
    | _ => none
  | .other e =>
    if ∀ c ∈ issuer e, s.pump ≠ .reading c then
      (advance s.hub e).map fun hub => { s with hub := hub, used := (issuer e).toList ++ s.used }
    else none

/-- Compression named, no colon where the two keys put a colon. -/
structure Plain (sub : Sub) : Prop where
  compression : sub.compression ≠ 0
  market : ':' ∉ sub.market.toList
  tf : ':' ∉ sub.tf.toList

def PlainEvent : Event ι → Prop
  | .subscribe sub _ | .unsubscribe sub => Plain sub
  | _ => True

def hubKey (sub : Sub) : SubKey :=
  SubKey.make sub.market sub.symbol sub.tf (UInt32.ofNat sub.compression)

def Active (s : Session ι) (sub : Sub) : Prop :=
  find (makeSubKey sub) s.browser.activeSubs = some sub

/-- The connection is open on both sides and no request is on its way. -/
def Settled (s : Session ι) (c : ClientId) : Prop :=
  s.browser.ws = some .opened ∧ s.pump = .reading c ∧ next s = none

def accepted (handled : List (Request × Reply)) : List Request :=
  (handled.filter fun p => p.2.error.isNone).map Prod.fst

section Keys

theorem toList_makeSubKey (sub : Sub) : (makeSubKey sub).toList =
    (sub.symbol.toList ++ ':' :: sub.market.toList ++ ':' :: sub.tf.toList) ++
      ':' :: Nat.toDigits 10 sub.compression := by
  simp [makeSubKey, Nat.repr_eq_ofList_toDigits]

theorem colon_not_in_digits (n : ℕ) : ':' ∉ Nat.toDigits 10 n := by
  intro inside
  have digit := Nat.isDigit_of_mem_toDigits (by decide : 0 < 10) (by decide) inside
  revert digit
  decide

/- Both ends read a plain subscription back from its key. -/
theorem makeSubKey_inj {a b : Sub} (plainA : Plain a) (plainB : Plain b)
    (same : makeSubKey a = makeSubKey b) : a = b := by
  have texts := congrArg (fun key : String => SubKey.splitAtLast key.toList) same
  simp only [toList_makeSubKey, SubKey.splitAtLast_append (colon_not_in_digits _), Option.some.injEq,
    Prod.mk.injEq] at texts
  have rests := congrArg SubKey.splitAtLast texts.1
  rw [SubKey.splitAtLast_append plainA.tf, SubKey.splitAtLast_append plainB.tf, Option.some.injEq,
    Prod.mk.injEq] at rests
  have fronts := congrArg SubKey.splitAtLast rests.1
  rw [SubKey.splitAtLast_append plainA.market, SubKey.splitAtLast_append plainB.market,
    Option.some.injEq, Prod.mk.injEq] at fronts
  have numbers := congrArg (fun digits => Nat.ofDigitChars 10 digits 0) texts.2
  simp only [Nat.ofDigitChars_ten_toDigits] at numbers
  obtain ⟨symbol, market, tf, compression⟩ := a
  obtain ⟨symbol', market', tf', compression'⟩ := b
  simp only [String.toList_inj] at fronts rests numbers
  simp only [Sub.mk.injEq]
  exact ⟨fronts.1, fronts.2, rests.2, numbers⟩

theorem hubKey_inj {a b : Sub} (plainA : Plain a) (plainB : Plain b)
    (smallA : a.compression < 2 ^ 32) (smallB : b.compression < 2 ^ 32)
    (same : hubKey a = hubKey b) : a = b := by
  have parts := congrArg SubKey.parse same
  simp only [hubKey, SubKey.parse_make plainA.market plainA.tf, SubKey.parse_make plainB.market plainB.tf,
    SubKey.Parts.mk.injEq] at parts
  obtain ⟨market, symbol, tf, compression⟩ := parts
  have numbers := congrArg UInt32.toNat compression
  simp only [UInt32.toNat_ofNat', Nat.mod_eq_of_lt smallA, Nat.mod_eq_of_lt smallB] at numbers
  cases a
  cases b
  simp only [Sub.mk.injEq]
  exact ⟨symbol, market, tf, numbers⟩

end Keys

section Browser
variable {b : WsClient.Client ι}

structure Told (b : WsClient.Client ι) : Prop where
  distinct : (keys b.activeSubs).Nodup
  keyed : ∀ key sub, find key b.activeSubs = some sub → key = makeSubKey sub ∧ Plain sub
  plain : ∀ r ∈ b.sent, Plain (subOf r)
  quiet : b.ws = some .connecting → b.sent = []
  told : b.ws = some .opened →
    ∀ sub, sub ∈ serverSubs b.sent ↔ find (makeSubKey sub) b.activeSubs = some sub

theorem mem_serverSubs_subscribes (subs : List Sub) (sub : Sub) :
    sub ∈ serverSubs (subs.map .subscribe) ↔ sub ∈ subs := by
  induction subs using List.reverseRecOn with
  | nil => simp [serverSubs]
  | append_singleton subs last ih =>
    rw [List.map_append, List.map_singleton, serverSubs_subscribe, Finset.mem_insert, ih,
      List.mem_append, List.mem_singleton, or_comm]

theorem sent_send (b : WsClient.Client ι) (requests : List Request) :
    (b.send requests).sent = if b.ws = some .opened then b.sent ++ requests else b.sent := by
  unfold WsClient.Client.send
  split <;> rfl

theorem told_subscribe (told : Told b) {sub : Sub} (plain : Plain sub) (callbacks : SubCallbacks ι) :
    Told (b.subscribe sub callbacks) := by
  have other : ∀ key sub', key ≠ makeSubKey sub →
      (find key (upsert (makeSubKey sub) (fun _ => sub) b.activeSubs) = some sub' ↔
        find key b.activeSubs = some sub') := by
    intro key sub' differ
    rw [find_upsert_other _ _ differ]
  constructor
  · simp only [WsClient.Client.subscribe, send_activeSubs]
    exact keys_upsert_nodup _ _ _ told.distinct
  · intro key sub' found
    simp only [WsClient.Client.subscribe, send_activeSubs] at found
    by_cases same : key = makeSubKey sub
    · subst same
      rw [find_upsert_self, Option.some.injEq] at found
      subst found
      exact ⟨rfl, plain⟩
    · exact told.keyed key sub' ((other key sub' same).mp found)
  · intro r inside
    simp only [WsClient.Client.subscribe, sent_send] at inside
    split at inside
    · rcases List.mem_append.mp inside with before | now
      · exact told.plain r before
      · rw [List.mem_singleton.mp now]
        exact plain
    · exact told.plain r inside
  · intro connecting
    simp only [WsClient.Client.subscribe, send_ws] at connecting
    simp only [WsClient.Client.subscribe, sent_send, connecting]
    exact told.quiet connecting
  · intro opened sub'
    simp only [WsClient.Client.subscribe, send_ws] at opened
    simp only [WsClient.Client.subscribe, sent_send, opened, ↓reduceIte, serverSubs_subscribe,
      send_activeSubs, Finset.mem_insert, told.told opened sub']
    by_cases same : makeSubKey sub' = makeSubKey sub
    · rw [same, find_upsert_self, Option.some.injEq]
      constructor
      · rintro (now | before)
        · exact now.symm
        · exact makeSubKey_inj plain (told.keyed _ _ before).2 (told.keyed _ _ before).1
      · exact fun now => .inl now.symm
    · rw [other _ _ same]
      exact or_iff_right fun now => same (by rw [now])

theorem told_unsubscribe (told : Told b) {sub : Sub} (plain : Plain sub) : Told (b.unsubscribe sub) := by
  constructor
  · simp only [WsClient.Client.unsubscribe, send_activeSubs]
    exact told.distinct.sublist ((erase_sublist _ _).map Prod.fst)
  · intro key sub' found
    simp only [WsClient.Client.unsubscribe, send_activeSubs, find_erase] at found
    split at found
    · cases found
    · exact told.keyed key sub' found
  · intro r inside
    simp only [WsClient.Client.unsubscribe, sent_send] at inside
    split at inside
    · rcases List.mem_append.mp inside with before | now
      · exact told.plain r before
      · rw [List.mem_singleton.mp now]
        exact plain
    · exact told.plain r inside
  · intro connecting
    simp only [WsClient.Client.unsubscribe, send_ws] at connecting
    simp only [WsClient.Client.unsubscribe, sent_send, connecting]
    exact told.quiet connecting
  · intro opened sub'
    simp only [WsClient.Client.unsubscribe, send_ws] at opened
    simp only [WsClient.Client.unsubscribe, sent_send, opened, ↓reduceIte, serverSubs_unsubscribe,
      send_activeSubs, Finset.mem_erase, told.told opened sub', find_erase]
    by_cases same : makeSubKey sub' = makeSubKey sub
    · rw [if_pos same]
      simp only [reduceCtorEq, iff_false, not_and]
      exact fun differ before => differ (makeSubKey_inj (told.keyed _ _ before).2 plain same)
    · rw [if_neg same]
      exact and_iff_right fun equal => same (by rw [equal])

theorem told_onopen (told : Told b) (connecting : b.ws = some .connecting) : Told b.onopen := by
  have values : ∀ sub, sub ∈ b.activeSubs.map Prod.snd ↔
      find (makeSubKey sub) b.activeSubs = some sub := by
    intro sub
    constructor
    · intro inside
      obtain ⟨entry, listed, rfl⟩ := List.mem_map.mp inside
      have found := find_of_mem told.distinct listed
      rwa [(told.keyed _ _ found).1] at found
    · exact fun found => List.mem_map.mpr ⟨_, mem_of_find found, rfl⟩
  have sent : b.onopen.sent = (b.activeSubs.map Prod.snd).map .subscribe := by
    simp [WsClient.Client.onopen, sent_send, told.quiet connecting]
  constructor
  · simpa [WsClient.Client.onopen] using told.distinct
  · simpa [WsClient.Client.onopen] using told.keyed
  · intro r inside
    rw [sent] at inside
    obtain ⟨sub, active, rfl⟩ := List.mem_map.mp inside
    exact (told.keyed _ _ ((values sub).mp active)).2
  · simp [WsClient.Client.onopen]
  · intro _ sub
    rw [sent, mem_serverSubs_subscribes, values]
    simp [WsClient.Client.onopen]

theorem told_connect (told : Told b) : Told b.connect := by
  unfold WsClient.Client.connect
  split
  · exact told
  · exact ⟨told.distinct, told.keyed, by simp, fun _ => rfl, by simp⟩

theorem told_closed (told : Told b) (destroyed : Bool) :
    Told { b with destroyed := destroyed, ws := none } :=
  ⟨told.distinct, told.keyed, told.plain, by simp, by simp⟩

end Browser

section Replies

/-- What the server makes of a request. The hub's own refusals come under one code,
    whatever code the hub gave. -/
def Answers (r : Request) (reply : Reply) : Prop :=
  match received r, r with
  | none, _ => reply = errorReply "INVALID_JSON" "invalid message format"
  | some msg, .unsubscribe _ => reply = okReply "unsubscribed" msg
  | some msg, .subscribe _ =>
    if msg.Incomplete
      then reply = errorReply "INVALID_PARAMS" "symbol, market, tf are required"
      else reply = okReply "subscribed" msg ∨ ∃ message, reply = errorReply "ERROR" message

theorem received_some {r : Request} {msg : ClientMessage} (read : received r = some msg) :
    (subOf r).compression < 2 ^ 32 ∧ msg = ⟨actionOf r, (subOf r).symbol, (subOf r).market,
      (subOf r).tf, UInt32.ofNat (subOf r).compression⟩ := by
  unfold received at read
  obtain ⟨small, made⟩ := Option.ite_none_right_eq_some.mp read
  exact ⟨small, (Option.some.inj made).symm⟩

/-- What one handled request means for the keys of its connection. -/
inductive Took (c : ClientId) (r : Request) (reply : Reply) (before after : Records) : Prop
  | subscribed (sub : Sub) (request : r = .subscribe sub) (ok : reply.error = none)
      (small : sub.compression < 2 ^ 32) (compression : UInt32)
      (named : sub.compression ≠ 0 → compression = UInt32.ofNat sub.compression)
      (effect : after = before.entered c (SubKey.make sub.market sub.symbol sub.tf compression))
  | unsubscribed (sub : Sub) (request : r = .unsubscribe sub) (ok : reply.error = none)
      (small : sub.compression < 2 ^ 32) (effect : after = before.left c (hubKey sub))
  | refused (error : reply.error ≠ none) (effect : after = before)

theorem took_handled {c : ClientId} {r : Request} {reply : Reply} {before after : Records}
    (handled : Handled c (received r) before reply after) :
    Answers r reply ∧ Took c r reply before after := by
  unfold Answers
  cases handled with
  | subscribed msg tc read action complete config room =>
    obtain ⟨small, rfl⟩ := received_some read
    cases r with
    | unsubscribe sub => simp [actionOf] at action
    | subscribe sub =>
      have effective_named : sub.compression ≠ 0 →
          effective tc (UInt32.ofNat sub.compression) = UInt32.ofNat sub.compression := by
        intro named
        apply if_neg
        intro zero
        have numbers := congrArg UInt32.toNat zero
        simp only [UInt32.toNat_ofNat', Nat.mod_eq_of_lt (show sub.compression < 2 ^ 32 from small)] at numbers
        exact named numbers
      exact ⟨by simp [read, complete], .subscribed sub rfl rfl small _ effective_named rfl⟩
  | unsubscribed msg read action =>
    obtain ⟨small, rfl⟩ := received_some read
    cases r with
    | subscribe sub => simp [actionOf] at action
    | unsubscribe sub => exact ⟨by simp [read], .unsubscribed sub rfl rfl small rfl⟩
  | unread read => exact ⟨by simp [read], .refused (by simp [errorReply]) rfl⟩
  | incomplete msg read action incomplete =>
    obtain ⟨small, rfl⟩ := received_some read
    cases r with
    | unsubscribe sub => simp [actionOf] at action
    | subscribe sub => exact ⟨by simp [read, incomplete], .refused (by simp [errorReply]) rfl⟩
  | refused msg read action complete message =>
    obtain ⟨small, rfl⟩ := received_some read
    cases r with
    | unsubscribe sub => simp [actionOf] at action
    | subscribe sub => exact ⟨by simp [read, complete], .refused (by simp [errorReply]) rfl⟩
  | unknown msg read other unknown =>
    obtain ⟨small, rfl⟩ := received_some read
    cases r with
    | subscribe sub => simp [actionOf] at other
    | unsubscribe sub => simp [actionOf] at unknown

theorem accepted_small {handled : List (Request × Reply)} (answered : ∀ p ∈ handled, Answers p.1 p.2) :
    ∀ r ∈ accepted handled, (subOf r).compression < 2 ^ 32 := by
  intro r inside
  obtain ⟨⟨r, reply⟩, listed, rfl⟩ := List.mem_map.mp inside
  obtain ⟨handled, ok⟩ := List.mem_filter.mp listed
  have answers : Answers r reply := answered _ handled
  cases read : received r with
  | some msg => exact (received_some read).1
  | none =>
    simp only [Answers, read] at answers
    subst answers
    cases ok

variable {s s' : Session ι}

structure Answered (s : Session ι) : Prop where
  order : s.handled.map Prod.fst <+: s.browser.sent
  waiting : s.pump = .waiting → s.handled = []
  answered : ∀ p ∈ s.handled, Answers p.1 p.2

theorem answered_browser (answered : Answered s) {b : WsClient.Client ι}
    (sent : s.browser.sent <+: b.sent) : Answered { s with browser := b } :=
  ⟨answered.order.trans sent, answered.waiting, answered.answered⟩

theorem send_prefix {b : WsClient.Client ι} {before : List Request} (same : b.sent = before)
    (requests : List Request) : before <+: (b.send requests).sent := by
  rw [sent_send, same]
  split
  · exact List.prefix_append _ _
  · exact List.prefix_rfl

theorem answered_handle (answered : Answered s) {c : ClientId} (reading : s.pump = .reading c)
    {r : Request} (waits : next s = some r) {reply : Reply} {hub : Hub}
    (done : handleMessage c (received r) s.hub = .ok (reply, hub)) :
    Answered { s with hub := hub, handled := s.handled ++ [(r, reply)] } := by
  obtain ⟨answers, -⟩ := took_handled (handleMessage_handled done)
  obtain ⟨behind, order⟩ := answered.order
  have place : behind.head? = some r := by
    rw [next, ← order, List.getElem?_append_right (by simp)] at waits
    simpa [List.head?_eq_getElem?] using waits
  obtain ⟨later, rfl⟩ : ∃ later, behind = r :: later := by
    cases behind with
    | nil => cases place
    | cons first later => exact ⟨later, by rw [Option.some.inj place]⟩
  refine ⟨⟨later, by rw [← order]; simp⟩, by simp [reading], ?_⟩
  intro p inside
  rcases List.mem_append.mp inside with before | now
  · exact answered.answered p before
  · obtain rfl := List.mem_singleton.mp now
    exact answers

theorem answered_step (answered : Answered s) {e : Event ι} (taken : step s e = some s') :
    Answered s' := by
  cases e with
  | subscribe sub callbacks =>
    obtain rfl := Option.some.inj taken
    apply answered_browser answered
    unfold WsClient.Client.subscribe
    exact send_prefix (by rfl) _
  | unsubscribe sub =>
    obtain rfl := Option.some.inj taken
    apply answered_browser answered
    unfold WsClient.Client.unsubscribe
    exact send_prefix (by rfl) _
  | connect =>
    simp only [step] at taken
    split at taken
    · exact Option.some.inj taken ▸ answered
    · obtain rfl := Option.some.inj taken
      exact ⟨List.nil_prefix, fun _ => rfl, by simp⟩
  | onopen =>
    obtain rfl := Option.some.inj (Option.ite_none_right_eq_some.mp taken).2
    apply answered_browser answered
    unfold WsClient.Client.onopen
    exact send_prefix (by rfl) _
  | onclose =>
    obtain rfl := Option.some.inj (Option.ite_none_right_eq_some.mp taken).2
    exact answered_browser answered List.prefix_rfl
  | destroy =>
    obtain rfl := Option.some.inj taken
    exact answered_browser answered List.prefix_rfl
  | accept c =>
    obtain ⟨-, made⟩ := Option.ite_none_right_eq_some.mp taken
    obtain ⟨hub, registered, rfl⟩ := Option.map_eq_some_iff.mp made
    exact ⟨answered.order, by simp, answered.answered⟩
  | handle =>
    simp only [step] at taken
    split at taken
    · rename_i c r reading waits
      obtain ⟨_, made⟩ := Option.ite_none_right_eq_some.mp taken
      obtain ⟨⟨reply, hub⟩, done, rfl⟩ := Option.map_eq_some_iff.mp made
      exact answered_handle answered reading waits (answer_of_some done)
    · cases taken
  | readError =>
    simp only [step] at taken
    split at taken
    · obtain ⟨hub, left, rfl⟩ := Option.map_eq_some_iff.mp taken
      exact ⟨answered.order, by simp, answered.answered⟩
    · cases taken
  | other e =>
    obtain ⟨-, made⟩ := Option.ite_none_right_eq_some.mp taken
    obtain ⟨hub, moved, rfl⟩ := Option.map_eq_some_iff.mp made
    exact ⟨answered.order, answered.waiting, answered.answered⟩

theorem answered_start (validator : Validator) (writeBufSize : ℕ) :
    Answered (start validator writeBufSize : Session ι) :=
  ⟨List.nil_prefix, fun _ => rfl, by simp [start]⟩

end Replies

/-- The k-th reply answers the k-th request of the connection. -/
theorem answered_in_order {validator : Validator} {writeBufSize : ℕ} {events : List (Event ι)}
    {s : Session ι} (reach : run step (start validator writeBufSize) events = some s) :
    s.handled.map Prod.fst <+: s.browser.sent ∧ ∀ p ∈ s.handled, Answers p.1 p.2 := by
  have answered : Answered s := invariant_run Answered (fun _ _ => True)
    (fun _ _ _ answered _ taken => answered_step answered taken)
    (answered_start validator writeBufSize) (guarded_of_events fun _ _ _ => trivial) reach
  exact ⟨answered.order, answered.answered⟩

/-- A chart subscribes before the connection is open and changes its compression after. -/
def rescaled : List (Event Unit) :=
  [.subscribe chartSub ⟨some (), some (), none⟩, .connect, .accept 1, .onopen,
    .other (.call (.register 2)), .handle, .unsubscribe chartSub,
    .subscribe ⟨"BTCUSDT", "futures", "1m", 50⟩ ⟨some (), some (), none⟩,
    .other (.call (.subscribe 2 "futures" "BTCUSDT" "1m" 25)), .handle]

theorem rescaled_answered : ∃ s, run step (start sampleValidator 256) rescaled = some s ∧
    s.handled.map Prod.fst <+: s.browser.sent ∧ ∀ p ∈ s.handled, Answers p.1 p.2 := by
  obtain ⟨s, reach⟩ : ∃ s, run step (start sampleValidator 256) rescaled = some s := ⟨_, rfl⟩
  exact ⟨s, reach, answered_in_order reach⟩

end WsSession
