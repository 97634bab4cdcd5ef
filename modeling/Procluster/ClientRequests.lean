import Procluster.HubRegistry

/-!
The requests of one connection: handleMessage and the replies it queues. A reply is kept
whole beside the queue, whose messages have no action and no error. What json.Unmarshal
makes of a frame is given; `none` is its error.
-/
namespace WsHub
open Aggregate KeyedFold EventRuns RWMutex

structure ClientMessage where
  action : String
  symbol : String
  market : String
  tf : String
  comp : UInt32
  deriving DecidableEq

abbrev ClientMessage.Incomplete (msg : ClientMessage) : Prop :=
  msg.symbol = "" ∨ msg.market = "" ∨ msg.tf = ""

structure Reply where
  message : SubMessage
  action : String
  error : Option SubError

def errorReply (code message : String) : Reply :=
  ⟨⟨"error", "", "", "", 0, none, 0⟩, "", some ⟨code, message⟩⟩

def okReply (action : String) (msg : ClientMessage) : Reply :=
  ⟨⟨"ok", msg.symbol, msg.market, msg.tf, msg.comp, none, 0⟩, action, none⟩

/-- A full send queue drops the reply and leaves the connection open. -/
def queueReply (c : ClientId) (reply : Reply) (h : Hub) : Hub :=
  if (h.heap c).send.length < h.writeBufSize
    then setClient c (fun client => { client with send := client.send ++ [reply.message] }) h
    else h

def sendError (c : ClientId) (code message : String) (h : Hub) : Reply × Hub :=
  (errorReply code message, queueReply c (errorReply code message) h)

def sendOK (c : ClientId) (action : String) (msg : ClientMessage) (h : Hub) : Reply × Hub :=
  (okReply action msg, queueReply c (okReply action msg) h)

def handleSubscribe (c : ClientId) (msg : ClientMessage) (h : Hub) : Except Fault (Reply × Hub) :=
  if msg.Incomplete then
    return sendError c "INVALID_PARAMS" "symbol, market, tf are required" h
  else do
    let (err, h) ← subscribe c msg.market msg.symbol msg.tf msg.comp h
    match err with
    -- the code is asked of a method Code, and SubError has only a field of that name
    | some e => return sendError c "ERROR" e.message h
    | none => return sendOK c "subscribed" msg h

def handleUnsubscribe (c : ClientId) (msg : ClientMessage) (h : Hub) : Except Fault (Reply × Hub) := do
  let h ← unsubscribe c msg.market msg.symbol msg.tf msg.comp h
  return sendOK c "unsubscribed" msg h

def handleMessage (c : ClientId) (raw : Option ClientMessage) (h : Hub) : Except Fault (Reply × Hub) :=
  match raw with
  | none => return sendError c "INVALID_JSON" "invalid message format" h
  | some msg =>
    if msg.action = "subscribe" then handleSubscribe c msg h
    else if msg.action = "unsubscribe" then handleUnsubscribe c msg h
    else return sendError c "UNKNOWN_ACTION" ("unknown action: " ++ msg.action) h

theorem queueReply_records (c : ClientId) (reply : Reply) (h : Hub) :
    records (queueReply c reply h) = records h := by
  unfold queueReply
  split
  · exact setClient_records h c fun _ => rfl
  · rfl

theorem queueReply_idle {h : Hub} (idle : Idle h) (c : ClientId) (reply : Reply) :
    Idle (queueReply c reply h) := by
  unfold queueReply
  split
  · exact setClient_idle idle c fun _ => rfl
  · exact idle

/-- What a handled request did: a reply without an error comes with its effect on the
    registry, any other reply with none. -/
inductive Handled (c : ClientId) (raw : Option ClientMessage) (r : Records) : Reply → Records → Prop
  | subscribed (msg : ClientMessage) (tc : TickerConfig) (read : raw = some msg)
      (action : msg.action = "subscribe") (complete : ¬ msg.Incomplete)
      (config : r.validator.getConfig msg.symbol msg.market = some tc)
      (room : (r.subKeys c).length < maxSubsPerClient) :
      Handled c raw r (okReply "subscribed" msg)
        (r.entered c (SubKey.make msg.market msg.symbol msg.tf (effective tc msg.comp)))
  | unsubscribed (msg : ClientMessage) (read : raw = some msg) (action : msg.action = "unsubscribe") :
      Handled c raw r (okReply "unsubscribed" msg)
        (r.left c (SubKey.make msg.market msg.symbol msg.tf msg.comp))
  | unread (read : raw = none) :
      Handled c raw r (errorReply "INVALID_JSON" "invalid message format") r
  | incomplete (msg : ClientMessage) (read : raw = some msg) (action : msg.action = "subscribe")
      (incomplete : msg.Incomplete) :
      Handled c raw r (errorReply "INVALID_PARAMS" "symbol, market, tf are required") r
  | refused (msg : ClientMessage) (read : raw = some msg) (action : msg.action = "subscribe")
      (complete : ¬ msg.Incomplete) (message : String) : Handled c raw r (errorReply "ERROR" message) r
  | unknown (msg : ClientMessage) (read : raw = some msg) (other : msg.action ≠ "subscribe")
      (unknown : msg.action ≠ "unsubscribe") :
      Handled c raw r (errorReply "UNKNOWN_ACTION" ("unknown action: " ++ msg.action)) r

theorem handleMessage_handled {c : ClientId} {raw : Option ClientMessage} {h h' : Hub} {reply : Reply}
    (done : handleMessage c raw h = .ok (reply, h')) :
    Handled c raw (records h) reply (records h') := by
  unfold handleMessage at done
  cases raw with
  | none =>
    obtain ⟨rfl, rfl⟩ := Prod.mk.inj (Except.ok.inj done)
    rw [queueReply_records]
    exact .unread rfl
  | some msg =>
    simp only at done
    split at done
    · rename_i action
      unfold handleSubscribe at done
      split at done
      · rename_i incomplete
        obtain ⟨rfl, rfl⟩ := Prod.mk.inj (Except.ok.inj done)
        rw [queueReply_records]
        exact .incomplete msg rfl action incomplete
      · rename_i complete
        cases answer : subscribe c msg.market msg.symbol msg.tf msg.comp h with
        | error fault =>
          rw [answer] at done
          cases done
        | ok answered =>
          obtain ⟨err, h₁⟩ := answered
          rw [answer] at done
          rcases subscribe_records answer with ⟨refused, same⟩ | ⟨rfl, tc, config, -, -, room, entered⟩
          · obtain ⟨e, rfl⟩ := Option.ne_none_iff_exists'.mp refused
            obtain ⟨rfl, rfl⟩ := Prod.mk.inj (Except.ok.inj done)
            rw [queueReply_records, same]
            exact .refused msg rfl action complete e.message
          · obtain ⟨rfl, rfl⟩ := Prod.mk.inj (Except.ok.inj done)
            rw [queueReply_records, entered]
            exact .subscribed msg tc rfl action complete config room
    · rename_i other
      split at done
      · rename_i action
        unfold handleUnsubscribe at done
        cases answer : unsubscribe c msg.market msg.symbol msg.tf msg.comp h with
        | error fault =>
          rw [answer] at done
          cases done
        | ok h₁ =>
          rw [answer] at done
          obtain ⟨rfl, rfl⟩ := Prod.mk.inj (Except.ok.inj done)
          rw [queueReply_records, unsubscribe_records answer]
          exact .unsubscribed msg rfl action
      · rename_i unknown
        obtain ⟨rfl, rfl⟩ := Prod.mk.inj (Except.ok.inj done)
        rw [queueReply_records]
        exact .unknown msg rfl other unknown

theorem handleMessage_idle {h : Hub} (idle : Idle h) (c : ClientId) (raw : Option ClientMessage) :
    ∃ reply h', handleMessage c raw h = .ok (reply, h') ∧ Idle h' := by
  unfold handleMessage
  cases raw with
  | none => exact ⟨_, _, rfl, queueReply_idle idle c _⟩
  | some msg =>
    simp only
    split
    · unfold handleSubscribe
      split
      · exact ⟨_, _, rfl, queueReply_idle idle c _⟩
      · obtain ⟨err, h₁, answer, outcome⟩ := subscribe_idle idle c msg.market msg.symbol msg.tf msg.comp
        rw [answer]
        rcases outcome with ⟨e, rfl, rfl⟩ | ⟨tc, -, rfl, rfl⟩
        · exact ⟨_, _, rfl, queueReply_idle idle c _⟩
        · exact ⟨_, _, rfl, queueReply_idle (subscribed_idle idle c _) c _⟩
    · split
      · unfold handleUnsubscribe
        have answer := unsubscribe_idle idle c msg.market msg.symbol msg.tf msg.comp
        rw [answer]
        have kept := setClient_idle idle c (f := fun client => { client with
          subKeys := remove (SubKey.make msg.market msg.symbol msg.tf msg.comp) client.subKeys })
          fun _ => rfl
        exact ⟨_, _, rfl, queueReply_idle (h := { setClient c _ h with subs := _ })
          ⟨kept.hub, kept.clients⟩ c _⟩
      · exact ⟨_, _, rfl, queueReply_idle idle c _⟩

end WsHub
