import Procluster.HubRegistry

/-!
The hub's registry along runs in which clients also leave. A client registers first and
its Unregister is its last call. Unregister waits at its log line for the lock it holds;
a run may nevertheless go on behind it, as if the request had been answered, so the
states in which a hub is stuck are among those a run reaches.
-/
namespace WsHub
open Aggregate KeyedFold EventRuns RWMutex

inductive HubEvent where
  | call (op : Op)
  | counted

/-- Unregister stops at its log line; counted is the rest of it. -/
def advance (h : Hub) : HubEvent → Option Hub
  | .call (.unregister c) => (removeClient c h).toOption
  | .call op => step h op
  | .counted => (hubMu.unlock h).toOption

theorem unregister_waits {h : Hub} (idle : Idle h) (c : ClientId) :
    ∃ h₁, advance h (.call (.unregister c)) = some h₁ ∧ clientCount h₁ = .error .deadlock := by
  simp only [advance, removeClient]
  rw [lock_bind (p := hubMu) idle.hub]
  exact ⟨_, rfl, clientCount_held rfl⟩

def issuer : HubEvent → Option ClientId
  | .call (.register c) | .call (.subscribe c ..) | .call (.unsubscribe c ..) | .call (.unregister c) =>
    some c
  | _ => none

def Connected (before : List HubEvent) (c : ClientId) : Prop :=
  .call (.register c) ∈ before ∧ .call (.unregister c) ∉ before

/-- A client's first call is its only Register, and none follows its Unregister. -/
def InTurn (before : List HubEvent) : HubEvent → Prop
  | .call (.register c) => ∀ e ∈ before, issuer e ≠ some c
  | .call (.subscribe c ..) | .call (.unsubscribe c ..) | .call (.unregister c) => Connected before c
  | _ => True

def Orderly : List HubEvent → List HubEvent → Prop
  | _, [] => True
  | before, e :: es => InTurn before e ∧ Orderly (before ++ [e]) es

/-- The registry agrees with the clients on who is subscribed to what. -/
structure Consistent (r : Records) : Prop extends r.Filed where
  agrees : ∀ c ∈ r.clients, r.Agrees c
  connected : ∀ key c, r.Listed key c → c ∈ r.clients
  limited : ∀ c, (r.subKeys c).length ≤ maxSubsPerClient

section Steps
variable {r : Records} {c : ClientId}

theorem consistent_registered (consistent : Consistent r) (absent : c ∉ r.clients)
    (unused : r.subKeys c = []) : Consistent (r.registered c) := by
  refine ⟨⟨consistent.distinct, consistent.nonempty⟩, ?_, ?_, consistent.limited⟩
  · intro d member key
    rcases List.mem_insert_iff.mp member with rfl | already
    · refine ⟨fun held => ?_, fun listed => absurd (consistent.connected key d listed) absent⟩
      rw [show (r.registered d).subKeys d = [] from unused] at held
      cases held
    · exact consistent.agrees d already key
  · intro key d listed
    exact List.mem_insert_of_mem (consistent.connected key d listed)

theorem consistent_entered (consistent : Consistent r) (member : c ∈ r.clients) (key : SubKey)
    (room : (r.subKeys c).length < maxSubsPerClient) : Consistent (r.entered c key) := by
  refine ⟨filed_entered c key consistent.toFiled, ?_, ?_, ?_⟩
  · exact fun d already => agrees_entered c key (consistent.agrees d already)
  · intro other d listed
    rcases (listed_entered c key other d).mp listed with before | ⟨-, rfl⟩
    · exact consistent.connected other d before
    · exact member
  · intro d
    by_cases mine : d = c
    · subst mine
      simp only [Records.entered, Function.update_self]
      rw [List.length_insert]
      split
      · exact consistent.limited d
      · exact room
    · simp only [Records.entered, Function.update_of_ne mine]
      exact consistent.limited d

theorem consistent_left (consistent : Consistent r) (c : ClientId) (key : SubKey) :
    Consistent (r.left c key) := by
  refine ⟨filed_left c key consistent.toFiled, ?_, ?_, ?_⟩
  · exact fun d already => agrees_left c key (consistent.agrees d already)
  · intro other d listed
    exact consistent.connected other d ((listed_left c key other d).mp listed).1
  · intro d
    have before := consistent.limited d
    by_cases mine : d = c
    · subst mine
      simp only [Records.left, Function.update_self]
      exact (List.length_filter_le _ _).trans before
    · simp only [Records.left, Function.update_of_ne mine]
      exact before

theorem gone_keys (distinct : (keys r.subs).Nodup) : (keys (r.gone c).subs).Nodup := by
  refine (List.filter_sublist.map Prod.fst).nodup ?_
  rw [List.map_map]
  exact distinct

theorem listed_gone (filed : r.Filed) (key : SubKey) (d : ClientId) :
    (r.gone c).Listed key d ↔ r.Listed key d ∧ d ≠ c := by
  constructor
  · rintro ⟨set, found, member⟩
    obtain ⟨inside, -⟩ := List.mem_filter.mp (mem_of_find found)
    obtain ⟨p, listed, same⟩ := List.mem_map.mp inside
    obtain ⟨rfl, rfl⟩ := Prod.mk.inj same
    obtain ⟨before, other⟩ := (mem_remove _ _ _).mp member
    exact ⟨⟨p.2, find_of_mem filed.distinct listed, before⟩, other⟩
  · rintro ⟨⟨set, found, member⟩, other⟩
    have remains : d ∈ remove c set := (mem_remove _ _ _).mpr ⟨member, other⟩
    refine ⟨remove c set, find_of_mem (gone_keys filed.distinct) (List.mem_filter.mpr ⟨?_, ?_⟩), remains⟩
    · exact List.mem_map.mpr ⟨(key, set), mem_of_find found, rfl⟩
    · simpa using List.ne_nil_of_mem remains

theorem consistent_gone (consistent : Consistent r) (c : ClientId) : Consistent (r.gone c) := by
  refine ⟨⟨gone_keys consistent.distinct, ?_⟩, ?_, ?_, consistent.limited⟩
  · intro p inside
    simpa using (List.mem_filter.mp inside).2
  · intro d member key
    obtain ⟨already, other⟩ := (mem_remove _ _ _).mp member
    rw [listed_gone consistent.toFiled, ← consistent.agrees d already key]
    simp [Records.gone, other]
  · intro key d listed
    obtain ⟨before, other⟩ := (listed_gone consistent.toFiled key d).mp listed
    exact (mem_remove _ _ _).mpr ⟨consistent.connected key d before, other⟩

end Steps

structure Tracks (before : List HubEvent) (r : Records) : Prop where
  consistent : Consistent r
  clients : ∀ c, c ∈ r.clients ↔ Connected before c
  unused : ∀ c, (∀ e ∈ before, issuer e ≠ some c) → r.subKeys c = []

section Runs
variable {before : List HubEvent} {e : HubEvent} {r r' : Records} {h h' : Hub}

theorem connected_append (c : ClientId) : Connected (before ++ [e]) c ↔
    (.call (.register c) ∈ before ∨ e = .call (.register c)) ∧
      .call (.unregister c) ∉ before ∧ e ≠ .call (.unregister c) := by
  simp [Connected, eq_comm]

theorem tracks_next (tracks : Tracks before r) (consistent : Consistent r')
    (clients : ∀ c, c ∈ r'.clients ↔ Connected (before ++ [e]) c)
    (untouched : ∀ c, issuer e ≠ some c → r'.subKeys c = r.subKeys c) :
    Tracks (before ++ [e]) r' := by
  refine ⟨consistent, clients, ?_⟩
  intro c silent
  rw [untouched c (silent e (by simp))]
  exact tracks.unused c fun f earlier => silent f (by simp [earlier])

theorem tracks_within (tracks : Tracks before r) (consistent : Consistent r')
    (clients : r'.clients = r.clients) (untouched : ∀ c, issuer e ≠ some c → r'.subKeys c = r.subKeys c)
    (within : ∀ c, e ≠ .call (.register c) ∧ e ≠ .call (.unregister c)) :
    Tracks (before ++ [e]) r' := by
  refine tracks_next tracks consistent ?_ untouched
  intro c
  rw [clients, tracks.clients, connected_append]
  simp [Connected, within c]

theorem advance_effect {op : Op} (taken : advance h (.call op) = some h') :
    Effect (records h) (records h') op := by
  cases op with
  | unregister c => exact removeClient_records (answer_of_some taken)
  | register c => exact exec_effect (step_done taken)
  | subscribe c market symbol tf compression => exact exec_effect (step_done taken)
  | unsubscribe c market symbol tf compression => exact exec_effect (step_done taken)
  | clientCount => exact exec_effect (step_done taken)
  | broadcastTick env => exact exec_effect (step_done taken)
  | notifyCandleClose market symbol tf candleTimeUnix cells => exact exec_effect (step_done taken)
  | goroutine k nowSec => exact exec_effect (step_done taken)

theorem effect_tracks {op : Op} (tracks : Tracks before r) (inTurn : InTurn before (.call op))
    (effect : Effect r r' op) : Tracks (before ++ [.call op]) r' := by
  obtain ⟨consistent, clients, unused⟩ := id tracks
  have same : r' = r → (∀ c, op ≠ .register c ∧ op ≠ .unregister c) →
      Tracks (before ++ [.call op]) r' := by
    rintro rfl within
    exact tracks_within tracks consistent rfl (fun _ _ => rfl) (by simpa using within)
  cases op with
  | register c =>
    have first : r' = r.registered c := effect
    have absent : ∀ e, issuer e = some c → e ∉ before := fun e mine earlier => inTurn e earlier mine
    have unknown : c ∉ r.clients := by
      rw [clients c]
      exact fun connected => absent _ rfl connected.1
    subst first
    refine tracks_next tracks (consistent_registered consistent unknown (unused c inTurn)) ?_
      fun _ _ => rfl
    intro d
    rw [connected_append, Records.registered, List.mem_insert_iff, clients d, Connected]
    by_cases mine : d = c
    · subst mine
      simp [absent (.call (.unregister d)) rfl]
    · simp [mine, Ne.symm mine]
  | subscribe c market symbol tf compression =>
    rcases effect with rejected | ⟨tc, -, -, -, room, rfl⟩
    · exact same rejected (by simp)
    · refine tracks_within tracks
        (consistent_entered consistent ((clients c).mpr inTurn) _ room) rfl ?_ (by simp)
      intro d other
      exact Function.update_of_ne (by simpa [issuer, eq_comm] using other) _ _
  | unsubscribe c market symbol tf compression =>
    have left : r' = r.left c (SubKey.make market symbol tf compression) := effect
    subst left
    refine tracks_within tracks (consistent_left consistent c _) rfl ?_ (by simp)
    intro d other
    exact Function.update_of_ne (by simpa [issuer, eq_comm] using other) _ _
  | unregister c =>
    have gone : r' = r.gone c := effect
    subst gone
    refine tracks_next tracks (consistent_gone consistent c) ?_ fun _ _ => rfl
    intro d
    rw [connected_append, Records.gone, mem_remove, clients d, Connected]
    simp [and_assoc, eq_comm]
  | clientCount => exact same effect (by simp)
  | broadcastTick env => exact same effect (by simp)
  | notifyCandleClose market symbol tf candleTimeUnix cells => exact same effect (by simp)
  | goroutine k nowSec => exact same effect (by simp)

theorem advance_tracks (tracks : Tracks before (records h)) (inTurn : InTurn before e)
    (taken : advance h e = some h') : Tracks (before ++ [e]) (records h') := by
  cases e with
  | call op => exact effect_tracks tracks inTurn (advance_effect taken)
  | counted =>
    obtain rfl := unlock_last (answer_of_some taken)
    exact tracks_within tracks tracks.consistent rfl (fun _ _ => rfl) (by simp)

theorem run_tracks {es : List HubEvent} (tracks : Tracks before (records h)) (orderly : Orderly before es)
    (reach : run advance h es = some h') : Tracks (before ++ es) (records h') := by
  induction es generalizing before h with
  | nil =>
    obtain rfl := Option.some.inj reach
    rwa [List.append_nil]
  | cons e es ih =>
    rw [run_cons, Option.bind_eq_some_iff] at reach
    obtain ⟨h₁, first, reach⟩ := reach
    have later := ih (advance_tracks tracks orderly.1 first) orderly.2 reach
    rwa [List.append_assoc] at later

end Runs

theorem tracks_new (validator : Validator) (writeBufSize : ℕ) :
    Tracks [] (records (newHub validator writeBufSize)) := by
  refine ⟨⟨⟨List.nodup_nil, by simp [records, newHub]⟩, ?_, ?_, ?_⟩, ?_, fun _ _ => rfl⟩
  · simp [records, newHub]
  · rintro key c ⟨set, found, -⟩
    cases found
  · simp [records, newHub, newClient]
  · simp [records, newHub, Connected]

/-- In every state that clients can bring the hub to, the two maps agree on the connected
    clients and no others are subscribed; a refused Subscribe changes neither map. -/
theorem registry_consistent {validator : Validator} {writeBufSize : ℕ} {es : List HubEvent} {h : Hub}
    (orderly : Orderly [] es) (reach : run advance (newHub validator writeBufSize) es = some h) :
    Consistent (records h) ∧ ∀ c market symbol tf compression err h',
      subscribe c market symbol tf compression h = .ok (some err, h') →
        h'.subs = h.subs ∧ ∀ d, (h'.heap d).subKeys = (h.heap d).subKeys := by
  refine ⟨(run_tracks (tracks_new validator writeBufSize) orderly reach).consistent, ?_⟩
  intro c market symbol tf compression err h' refused
  rcases subscribe_records refused with ⟨-, same⟩ | ⟨accepted, -⟩
  · exact ⟨congrArg Records.subs same, congrFun (congrArg Records.subKeys same)⟩
  · cases accepted

def leaving : List HubEvent :=
  [.call (.register 1), .call (.register 2), .call (.subscribe 1 "futures" "BTCUSDT" "1m" 25),
    .call (.subscribe 2 "futures" "BTCUSDT" "1m" 25), .call (.unregister 1), .counted,
    .call (.unsubscribe 2 "futures" "BTCUSDT" "1m" 25)]

theorem leaving_consistent : ∃ h, run advance (newHub sampleValidator 256) leaving = some h ∧
    Consistent (records h) ∧ ∀ c market symbol tf compression err h',
      subscribe c market symbol tf compression h = .ok (some err, h') →
        h'.subs = h.subs ∧ ∀ d, (h'.heap d).subKeys = (h.heap d).subKeys := by
  obtain ⟨h, reach⟩ : ∃ h, run advance (newHub sampleValidator 256) leaving = some h := ⟨_, rfl⟩
  have orderly : Orderly [] leaving := by simp [leaving, Orderly, InTurn, Connected, issuer]
  exact ⟨h, reach, registry_consistent orderly reach⟩

end WsHub
