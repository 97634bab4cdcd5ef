import Procluster.HubMessages

/-!
What each operation of the hub does to the registry, from a hub in any state of its
locks: if the operation returns, its effect is one update of the connected clients, the
sets of subscribers and the clients' keys. Unregister is cut at its log line, where it
asks for the lock a second time.
-/
namespace WsHub
open Aggregate KeyedFold EventRuns RWMutex

structure Records where
  validator : Validator
  clients : List ClientId
  subs : List (SubKey × List ClientId)
  subKeys : ClientId → List SubKey

def records (h : Hub) : Records := ⟨h.validator, h.clients, h.subs, fun c => (h.heap c).subKeys⟩

namespace Records
variable (c : ClientId) (key : SubKey) (r : Records)

def registered : Records := { r with clients := r.clients.insert c }

def entered : Records :=
  { r with
    subKeys := Function.update r.subKeys c ((r.subKeys c).insert key)
    subs := upsert key (fun set => (set.getD []).insert c) r.subs }

def left : Records :=
  { r with
    subKeys := Function.update r.subKeys c (remove key (r.subKeys c))
    subs := dropSub key c r.subs }

def gone : Records :=
  { r with
    clients := remove c r.clients
    subs := (r.subs.map fun p => (p.1, remove c p.2)).filter fun p => p.2 ≠ [] }

end Records

def removeClient (c : ClientId) (h : Hub) : Except Fault Hub := do
  let h ← hubMu.lock h
  let left := (h.subs.map fun p => (p.1, remove c p.2)).filter fun p => p.2 ≠ []
  return { h with clients := remove c h.clients, subs := left }

theorem unregister_cut (c : ClientId) (h : Hub) : unregister c h = (do
    let h ← removeClient c h
    let (_, h) ← clientCount h
    hubMu.unlock h) := by
  unfold unregister removeClient
  cases hubMu.lock h <;> rfl

/-- The effect of an operation on the registry; Subscribe may also refuse. -/
def Effect (r r' : Records) : Op → Prop
  | .register c => r' = r.registered c
  | .subscribe c market symbol tf compression => r' = r ∨
    ∃ tc ∈ r.validator.getConfig symbol market, r.validator.validateTF tf tc = none ∧
      r.validator.validateCompression compression tc = none ∧
      (r.subKeys c).length < maxSubsPerClient ∧
      r' = r.entered c (SubKey.make market symbol tf (effective tc compression))
  | .unsubscribe c market symbol tf compression =>
    r' = r.left c (SubKey.make market symbol tf compression)
  | .unregister c => r' = r.gone c
  | .clientCount | .broadcastTick _ | .notifyCandleClose .. | .goroutine .. => r' = r

theorem effect_validator {r r' : Records} {op : Op} (effect : Effect r r' op) :
    r'.validator = r.validator := by
  cases op with
  | subscribe c market symbol tf compression => rcases effect with rfl | ⟨-, -, -, -, -, rfl⟩ <;> rfl
  | register c => exact (congrArg Records.validator effect).trans rfl
  | unsubscribe c market symbol tf compression => exact (congrArg Records.validator effect).trans rfl
  | unregister c => exact (congrArg Records.validator effect).trans rfl
  | clientCount => exact congrArg Records.validator effect
  | broadcastTick env => exact congrArg Records.validator effect
  | notifyCandleClose market symbol tf candleTimeUnix cells => exact congrArg Records.validator effect
  | goroutine k nowSec => exact congrArg Records.validator effect

section Sends

theorem setClient_records (h : Hub) (c : ClientId) {f : Client → Client}
    (keeps : ∀ client, (f client).subKeys = client.subKeys) :
    records (setClient c f h) = records h := by
  unfold records
  congr 1
  funext d
  by_cases same : d = c
  · subst same
    simp only [setClient, Function.update_self, keeps]
  · simp only [setClient, Function.update_of_ne same]

theorem clientMu_records (h : Hub) (c : ClientId) (m : Mutex) :
    records ((clientMu c).set m h) = records h := setClient_records h c fun _ => rfl

theorem trySend_records (msg : SubMessage) (h : Hub) (c : ClientId) :
    records (trySend msg h c) = records h := by
  unfold trySend
  split
  · exact setClient_records h c fun _ => rfl
  · rfl

theorem sendAll_records (msg : SubMessage) (h : Hub) (set : List ClientId) :
    records (set.foldl (trySend msg) h) = records h := by
  induction set generalizing h with
  | nil => rfl
  | cons c set ih => exact (ih _).trans (trySend_records msg h c)

theorem deliver_records {h h' : Hub} {key : SubKey} {msg : SubMessage}
    (done : deliver key msg h = .ok h') : records h' = records h := by
  unfold deliver at done
  obtain ⟨m, done⟩ := rLock_returned done
  split at done
  · obtain ⟨n, rfl⟩ := rUnlock_last done
    rfl
  · obtain ⟨n, done⟩ := rUnlock_returned done
    obtain rfl := Except.ok.inj done
    exact sendAll_records msg _ _

theorem broadcastSub_records {env : TickEnv} {h h' : Hub} {key : SubKey}
    (done : broadcastSub env h key = .ok h') : records h' = records h := by
  rw [broadcastSub_sends] at done
  cases built : updateMessage env h.validator key with
  | error fault =>
    rw [built] at done
    cases done
  | ok message =>
    rw [built] at done
    cases message with
    | none =>
      obtain rfl := Except.ok.inj done
      rfl
    | some msg => exact deliver_records done

theorem broadcasts_records {env : TickEnv} {h h' : Hub} {subKeys : List SubKey}
    (done : subKeys.foldlM (broadcastSub env) h = .ok h') : records h' = records h := by
  induction subKeys generalizing h with
  | nil =>
    obtain rfl := Except.ok.inj done
    rfl
  | cons key rest ih =>
    rw [List.foldlM_cons] at done
    cases first : broadcastSub env h key with
    | error fault =>
      rw [first] at done
      cases done
    | ok h₁ =>
      rw [first] at done
      exact (ih done).trans (broadcastSub_records first)

theorem broadcastTick_records {env : TickEnv} {h h' : Hub} (done : broadcastTick env h = .ok h') :
    records h' = records h := by
  unfold broadcastTick at done
  obtain ⟨m, done⟩ := rLock_returned done
  obtain ⟨n, done⟩ := rUnlock_returned done
  exact (broadcasts_records done).trans rfl

theorem notifyCandleClose_records {market symbol tf : String} {candleTimeUnix : ℤ}
    {cells : List ClusterCell} {h h' : Hub}
    (done : notifyCandleClose market symbol tf candleTimeUnix cells h = .ok h') :
    records h' = records h := by
  unfold notifyCandleClose at done
  obtain ⟨m, done⟩ := rLock_returned done
  obtain ⟨n, done⟩ := rUnlock_returned done
  obtain rfl := Except.ok.inj done
  rfl

theorem sendCloseOpen_records {args : SendCloseOpen} {nowSec : ℤ} {h h' : Hub}
    (done : sendCloseOpen args nowSec h = .ok h') : records h' = records h := by
  rw [sendCloseOpen_sends] at done
  cases built : closeMessage h.validator args with
  | error fault =>
    rw [built] at done
    cases done
  | ok message =>
    rw [built] at done
    cases message with
    | none =>
      obtain rfl := Except.ok.inj done
      rfl
    | some msg =>
      cases time : candleTimeNow args.tf nowSec with
      | error fault =>
        simp only [time] at done
        cases done
      | ok openTime =>
        simp only [time] at done
        obtain rfl := Except.ok.inj done
        exact (sendAll_records _ _ _).trans (sendAll_records msg h _)

theorem close_records {h h' : Hub} {c : ClientId} (done : close c h = .ok h') :
    records h' = records h := by
  unfold close at done
  have entered := lock_returned done
  split at entered
  · obtain rfl := unlock_last entered
    exact (clientMu_records _ c _).trans (clientMu_records h c _)
  · have released := unlock_returned entered
    obtain rfl := Except.ok.inj released
    rw [setClient_records _ c (by simp), clientMu_records, setClient_records _ c (by simp),
      clientMu_records]

theorem clientCount_records {h h' : Hub} {n : ℕ} (done : clientCount h = .ok (n, h')) :
    records h' = records h := by
  unfold clientCount at done
  obtain ⟨m, done⟩ := rLock_returned done
  obtain ⟨k, done⟩ := rUnlock_returned done
  obtain ⟨-, rfl⟩ := Prod.mk.inj (Except.ok.inj done)
  rfl

end Sends

section Requests
variable {c : ClientId} {h h' : Hub}

theorem register_records (done : register c h = .ok h') : records h' = (records h).registered c := by
  unfold register at done
  have entered := lock_returned done
  have opened := unlock_returned entered
  cases count : clientCount (hubMu.set .unlocked { hubMu.set .writing h with
      clients := h.clients.insert c }) with
  | error fault =>
    rw [show (hubMu.set .writing h).clients = h.clients from rfl, count] at opened
    cases opened
  | ok counted =>
    rw [show (hubMu.set .writing h).clients = h.clients from rfl, count] at opened
    obtain rfl := Except.ok.inj opened
    exact clientCount_records count

theorem removeClient_records (done : removeClient c h = .ok h') :
    records h' = (records h).gone c := by
  unfold removeClient at done
  have entered := lock_returned done
  obtain rfl := Except.ok.inj entered
  rfl

theorem unregister_records (done : unregister c h = .ok h') : records h' = (records h).gone c := by
  rw [unregister_cut] at done
  cases removed : removeClient c h with
  | error fault =>
    rw [removed] at done
    cases done
  | ok h₁ =>
    rw [removed] at done
    change (clientCount h₁ >>= _) = .ok h' at done
    cases count : clientCount h₁ with
    | error fault =>
      rw [count] at done
      cases done
    | ok counted =>
      rw [count] at done
      obtain rfl := unlock_last done
      exact (clientCount_records count).trans (removeClient_records removed)

theorem unsubscribe_records {market symbol tf : String} {compression : UInt32}
    (done : unsubscribe c market symbol tf compression h = .ok h') :
    records h' = (records h).left c (SubKey.make market symbol tf compression) := by
  unfold unsubscribe at done
  have entered := lock_returned done
  have both := lock_returned entered
  have dropped := unlock_returned both
  obtain rfl := unlock_last dropped
  unfold records Records.left
  congr 1
  funext d
  by_cases mine : d = c
  · subst mine
    simp [clientMu, setClient, hubMu]
  · simp [clientMu, setClient, hubMu, Function.update_of_ne mine]

theorem subscribe_records {market symbol tf : String} {compression : UInt32} {err : Option SubError}
    (done : subscribe c market symbol tf compression h = .ok (err, h')) :
    (err ≠ none ∧ records h' = records h) ∨
      err = none ∧ ∃ tc ∈ h.validator.getConfig symbol market,
        h.validator.validateTF tf tc = none ∧ h.validator.validateCompression compression tc = none ∧
        (h.heap c).subKeys.length < maxSubsPerClient ∧
        records h' = (records h).entered c (SubKey.make market symbol tf (effective tc compression)) := by
  unfold subscribe at done
  cases config : h.validator.getConfig symbol market with
  | none =>
    rw [config] at done
    obtain ⟨rfl, rfl⟩ := Prod.mk.inj (Except.ok.inj done)
    exact .inl ⟨by simp, rfl⟩
  | some tc =>
    simp only [config] at done
    split at done
    · obtain ⟨rfl, rfl⟩ := Prod.mk.inj (Except.ok.inj done)
      exact .inl ⟨by simp, rfl⟩
    · rename_i goodTF
      split at done
      · obtain ⟨rfl, rfl⟩ := Prod.mk.inj (Except.ok.inj done)
        exact .inl ⟨by simp, rfl⟩
      · rename_i goodCompression
        have entered := lock_returned done
        have inside := lock_returned entered
        have same : (((clientMu c).set .writing (hubMu.set .writing h)).heap c).subKeys =
            (h.heap c).subKeys := by
          simp [clientMu, setClient, hubMu]
        rw [same] at inside
        split at inside
        · have released := unlock_returned inside
          have returned := unlock_returned released
          obtain ⟨rfl, rfl⟩ := Prod.mk.inj (Except.ok.inj returned)
          have kept := clientMu_records ((clientMu c).set .writing (hubMu.set .writing h)) c .unlocked
          exact .inl ⟨by simp, kept.trans (clientMu_records (hubMu.set .writing h) c .writing)⟩
        · rename_i room
          have released := unlock_returned inside
          have returned := unlock_returned released
          obtain ⟨rfl, rfl⟩ := Prod.mk.inj (Except.ok.inj returned)
          refine .inr ⟨rfl, tc, rfl, goodTF, goodCompression, not_le.mp room, ?_⟩
          unfold records Records.entered effective
          congr 1
          funext d
          by_cases mine : d = c
          · subst mine
            simp [clientMu, setClient, hubMu]
          · simp [clientMu, setClient, hubMu, Function.update_of_ne mine]

end Requests

/- Unregister never returns, so its effect is that of the part before its log line. -/
theorem exec_effect {h h' : Hub} {op : Op} (done : exec h op = .ok h') :
    Effect (records h) (records h') op := by
  cases op with
  | register c => exact register_records done
  | subscribe c market symbol tf compression =>
    cases result : subscribe c market symbol tf compression h with
    | error fault =>
      simp only [exec, result] at done
      cases done
    | ok answer =>
      simp only [exec, result] at done
      obtain rfl := Except.ok.inj done
      rcases subscribe_records result with ⟨-, same⟩ | ⟨-, accepted⟩
      · exact .inl same
      · exact .inr accepted
  | unsubscribe c market symbol tf compression => exact unsubscribe_records done
  | unregister c => exact unregister_records done
  | clientCount =>
    cases count : clientCount h with
    | error fault =>
      simp only [exec, count] at done
      cases done
    | ok counted =>
      simp only [exec, count] at done
      obtain rfl := Except.ok.inj done
      exact clientCount_records count
  | broadcastTick env => exact broadcastTick_records done
  | notifyCandleClose market symbol tf candleTimeUnix cells => exact notifyCandleClose_records done
  | goroutine k nowSec =>
    simp only [exec] at done
    split at done
    · obtain rfl := Except.ok.inj done
      rfl
    · rename_i task waiting
      cases task with
      | close c => exact (close_records done).trans rfl
      | sendCloseOpen args => exact (sendCloseOpen_records done).trans rfl

end WsHub
