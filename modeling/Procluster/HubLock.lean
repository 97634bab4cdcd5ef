import Procluster.Hub

/-!
The hub's lock along sequences of operations. From a hub whose locks are free every
operation returns with them free, except Unregister, whose log line asks for the
lock its own call still holds, and a broadcast that divides by a zero compression.
-/
namespace WsHub
open Aggregate KeyedFold EventRuns RWMutex

structure Idle (h : Hub) : Prop where
  hub : h.mu = .unlocked
  clients : ∀ c, (h.heap c).mu = .unlocked

/-- A tick meets this subscription with live cells to merge by a base compression of zero. -/
def TickDivides (v : Validator) (env : TickEnv) (key : SubKey) : Prop :=
  key.parse.compression ≠ 0 ∧
  ∃ tc ∈ v.getConfig key.parse.symbol key.parse.market, tc.baseCompression = 0 ∧
    ∃ secs ∈ tfSeconds key.parse.tf, ∃ cell cells,
      env.getAggCells (redisAggKey key.parse.market key.parse.symbol key.parse.tf
        ((env.nowSec key).tdiv secs * secs)) = some (cell :: cells)

/-- A close notification is merged by a zero, or its timeframe has no length. -/
def CloseDivides (v : Validator) (args : SendCloseOpen) : Prop :=
  ∃ tc ∈ v.getConfig args.symbol args.market,
    (tc.baseCompression = 0 ∧ args.compression ≠ 0) ∨ tfSeconds args.tf = none

def Returns (h : Hub) : Op → Prop
  | .unregister _ => False
  | .broadcastTick env => ∀ key ∈ keys h.subs, ¬ TickDivides h.validator env key
  | .goroutine k _ => ∀ args, h.tasks[k]? = some (.sendCloseOpen args) →
    ¬ CloseDivides h.validator args
  | _ => True

def step (h : Hub) (op : Op) : Option Hub := (exec h op).toOption

theorem clientMu_apart (c : ClientId) {f : Client → Client}
    (keeps : ∀ m client, f { client with mu := m } = { f client with mu := m }) :
    (clientMu c).Apart (setClient c f) := by
  intro m h
  simp only [clientMu, setClient, Function.update_self, Function.update_idem]
  rw [keeps]

theorem setClient_idle {h : Hub} (idle : Idle h) (c : ClientId) {f : Client → Client}
    (keeps : ∀ client, (f client).mu = client.mu) : Idle (setClient c f h) := by
  refine ⟨idle.hub, ?_⟩
  intro d
  by_cases same : d = c
  · subst same
    simp only [setClient, Function.update_self, keeps]
    exact idle.clients d
  · simp only [setClient, Function.update_of_ne same]
    exact idle.clients d

theorem clientCount_idle {h : Hub} (idle : Idle h) : clientCount h = .ok (h.clients.length, h) :=
  read_section (p := hubMu) idle.hub fun t s => .ok (t.clients.length, s)

theorem register_idle {h : Hub} (idle : Idle h) (c : ClientId) :
    register c h = .ok { h with clients := h.clients.insert c } := by
  have entered := write_section (p := hubMu)
    (b := fun h => { h with clients := h.clients.insert c }) (fun _ _ => rfl) idle.hub
    fun h => clientCount h >>= fun p => .ok p.2
  rw [clientCount_idle (h := { h with clients := h.clients.insert c }) ⟨idle.hub, idle.clients⟩]
    at entered
  exact entered

theorem clientCount_held {h : Hub} (held : h.mu = .writing) : clientCount h = .error .deadlock := by
  unfold clientCount
  rw [(request_writing (p := hubMu) held).2]
  rfl

/-- Unregister asks for the lock it holds, whatever the client and the hub. -/
theorem unregister_deadlocks {h : Hub} (idle : Idle h) (c : ClientId) :
    unregister c h = .error .deadlock := by
  unfold unregister
  rw [lock_bind (p := hubMu) idle.hub]
  dsimp only
  rw [clientCount_held rfl]
  rfl

theorem unsubscribe_idle {h : Hub} (idle : Idle h) (c : ClientId) (market symbol tf : String)
    (compression : UInt32) :
    let key := SubKey.make market symbol tf compression
    unsubscribe c market symbol tf compression h =
      .ok { setClient c (fun client => { client with subKeys := remove key client.subKeys }) h with
        subs := dropSub key c h.subs } := by
  intro key
  unfold unsubscribe
  rw [lock_bind (p := hubMu) idle.hub, write_section (p := clientMu c)
    (clientMu_apart c fun _ _ => rfl) (by exact idle.clients c), unlock_writing (by rfl)]
  congr 1
  exact section_returns (p := hubMu) (b := fun h =>
    { setClient c (fun client => { client with subKeys := remove key client.subKeys }) h with
      subs := dropSub key c h.subs }) (fun _ _ => rfl) idle.hub

def subscribed (c : ClientId) (key : SubKey) (h : Hub) : Hub :=
  { setClient c (fun client => { client with subKeys := client.subKeys.insert key }) h with
    subs := upsert key (fun set => (set.getD []).insert c) h.subs }

theorem subscribed_idle {h : Hub} (idle : Idle h) (c : ClientId) (key : SubKey) :
    Idle (subscribed c key h) := by
  have kept := setClient_idle idle c (f := fun client =>
    { client with subKeys := client.subKeys.insert key }) fun _ => rfl
  exact ⟨kept.hub, kept.clients⟩

theorem subscribe_idle {h : Hub} (idle : Idle h) (c : ClientId) (market symbol tf : String)
    (compression : UInt32) : ∃ err h', subscribe c market symbol tf compression h = .ok (err, h') ∧
      ((∃ e, err = some e ∧ h' = h) ∨ ∃ tc ∈ h.validator.getConfig symbol market, err = none ∧
        h' = subscribed c (SubKey.make market symbol tf
          (if compression = 0 then tc.baseCompression else compression)) h) := by
  unfold subscribe
  cases config : h.validator.getConfig symbol market with
  | none => exact ⟨_, h, rfl, Or.inl ⟨_, rfl, rfl⟩⟩
  | some tc =>
    cases badTF : h.validator.validateTF tf tc with
    | some err => exact ⟨_, h, by simp only [badTF]; rfl, Or.inl ⟨_, rfl, rfl⟩⟩
    | none =>
      cases badComp : h.validator.validateCompression compression tc with
      | some err => exact ⟨_, h, by simp only [badTF, badComp]; rfl, Or.inl ⟨_, rfl, rfl⟩⟩
      | none =>
        simp only [badTF, badComp]
        rw [lock_bind (p := hubMu) idle.hub,
          lock_bind (p := clientMu c) (by exact idle.clients c)]
        have length : (((clientMu c).set .writing (hubMu.set .writing h)).heap c).subKeys =
            (h.heap c).subKeys := by
          simp [clientMu, setClient, hubMu]
        rw [length]
        by_cases full : maxSubsPerClient ≤ (h.heap c).subKeys.length
        · rw [if_pos full, unlock_bind (p := clientMu c) ((clientMu c).get_set _ _),
            (clientMu c).set_set, set_unlocked (p := clientMu c) (by exact idle.clients c),
            unlock_bind (p := hubMu) (by rfl), hubMu.set_set,
            set_unlocked (p := hubMu) idle.hub]
          exact ⟨_, h, rfl, Or.inl ⟨_, rfl, rfl⟩⟩
        · have keeps := clientMu_apart c (f := fun client => { client with
            subKeys := client.subKeys.insert (SubKey.make market symbol tf
              (if compression = 0 then tc.baseCompression else compression)) }) fun _ _ => rfl
          rw [if_neg full, unlock_bind (p := clientMu c) (by rw [keeps, (clientMu c).get_set]),
            section_returns keeps (by exact idle.clients c), unlock_bind (p := hubMu) (by rfl)]
          refine ⟨none, _, rfl, Or.inr ⟨tc, rfl, rfl, ?_⟩⟩
          exact section_returns (p := hubMu) (b := subscribed c _) (fun _ _ => rfl) idle.hub

theorem trySend_idle {h : Hub} (idle : Idle h) (msg : SubMessage) (c : ClientId) :
    Idle (trySend msg h c) := by
  unfold trySend
  split
  · exact setClient_idle idle c fun _ => rfl
  · exact ⟨idle.hub, idle.clients⟩

theorem trySend_frame (msg : SubMessage) (h : Hub) (c : ClientId) :
    (trySend msg h c).validator = h.validator ∧ (trySend msg h c).subs = h.subs := by
  unfold trySend
  split <;> exact ⟨rfl, rfl⟩

theorem send_all {h : Hub} (idle : Idle h) (msg : SubMessage) (set : List ClientId) :
    Idle (set.foldl (trySend msg) h) ∧ (set.foldl (trySend msg) h).validator = h.validator ∧
      (set.foldl (trySend msg) h).subs = h.subs := by
  induction set generalizing h with
  | nil => exact ⟨idle, rfl, rfl⟩
  | cons c set ih =>
    obtain ⟨validator, subs⟩ := trySend_frame msg h c
    obtain ⟨later, validator', subs'⟩ := ih (trySend_idle idle msg c)
    exact ⟨later, validator'.trans validator, subs'.trans subs⟩

theorem mergeUp_zero {tc : TickerConfig} {compression : UInt32} (cells : List ClusterCell)
    (zero : tc.baseCompression = 0) (raised : compression ≠ 0) :
    mergeUp tc compression cells = .error (.panic "integer divide by zero") := by
  have above : 0 < compression := UInt32.pos_iff_ne_zero.mpr raised
  simp only [mergeUp, zero, above, ↓reduceIte, divU32]
  rfl

theorem mergeUp_returns (tc : TickerConfig) (compression : UInt32) (cells : List ClusterCell)
    (sound : ¬ (tc.baseCompression = 0 ∧ compression ≠ 0)) :
    ∃ merged, mergeUp tc compression cells = .ok merged := by
  unfold mergeUp
  split
  · rename_i above
    have divisor : tc.baseCompression ≠ 0 := by
      intro zero
      refine sound ⟨zero, ?_⟩
      intro none
      rw [zero, none] at above
      exact absurd above (by decide)
    exact ⟨_, by simp only [divU32, divisor, ↓reduceIte]; rfl⟩
  · exact ⟨cells, rfl⟩

/- What one broadcast does to an idle hub: it panics on the division, or it returns
   with the lock free and the registry as it was. -/
theorem broadcastSub_idle {h : Hub} (idle : Idle h) (env : TickEnv) (key : SubKey) :
    (TickDivides h.validator env key ∧
      broadcastSub env h key = .error (.panic "integer divide by zero")) ∨
    (¬ TickDivides h.validator env key ∧ ∃ h', broadcastSub env h key = .ok h' ∧ Idle h' ∧
      h'.validator = h.validator ∧ h'.subs = h.subs) := by
  unfold broadcastSub TickDivides
  dsimp only
  cases config : h.validator.getConfig key.parse.symbol key.parse.market with
  | none => exact Or.inr ⟨by simp, h, rfl, idle, rfl, rfl⟩
  | some tc =>
    cases length : tfSeconds key.parse.tf with
    | none => exact Or.inr ⟨by simp, h, rfl, idle, rfl, rfl⟩
    | some secs =>
      simp only [Option.mem_def, Option.some.injEq, exists_eq_left']
      cases answer : env.getAggCells (redisAggKey key.parse.market key.parse.symbol key.parse.tf
          ((env.nowSec key).tdiv secs * secs)) with
      | none => exact Or.inr ⟨by simp, h, rfl, idle, rfl, rfl⟩
      | some live =>
        cases live with
        | nil => exact Or.inr ⟨by simp, h, rfl, idle, rfl, rfl⟩
        | cons cell cells =>
          by_cases zero : tc.baseCompression = 0 ∧ key.parse.compression ≠ 0
          · left
            refine ⟨⟨zero.2, zero.1, cell, cells, rfl⟩, ?_⟩
            simp only [zero.2, ↓reduceIte, mergeUp_zero (cell :: cells) zero.1 zero.2]
            rfl
          · right
            refine ⟨fun divides => zero ⟨divides.2.1, divides.1⟩, ?_⟩
            obtain ⟨merged, merges⟩ := mergeUp_returns tc
              (if key.parse.compression = 0 then tc.baseCompression else key.parse.compression)
              (cell :: cells) (by
                intro both
                split at both
                · exact both.2 both.1
                · exact zero ⟨both.1, both.2⟩)
            simp only [merges]
            change ∃ h', (hubMu.rLock h >>= _) = .ok h' ∧ _
            rw [rLock_bind (p := hubMu) idle.hub]
            cases found : find key h.subs with
            | none =>
              have absent : find key (hubMu.set (.reading 0) h).subs = none := found
              exact ⟨h, by rw [absent]; exact rUnlock_read (p := hubMu) idle.hub, idle, rfl, rfl⟩
            | some set =>
              have present : find key (hubMu.set (.reading 0) h).subs = some set := found
              exact ⟨_, by rw [present, rUnlock_read (p := hubMu) idle.hub]; rfl,
                send_all idle _ set⟩

theorem broadcasts_idle {h : Hub} (idle : Idle h) (env : TickEnv) (subKeys : List SubKey) :
    ((∀ key ∈ subKeys, ¬ TickDivides h.validator env key) →
      ∃ h', subKeys.foldlM (broadcastSub env) h = .ok h' ∧ Idle h') ∧
    (¬ (∀ key ∈ subKeys, ¬ TickDivides h.validator env key) →
      subKeys.foldlM (broadcastSub env) h = .error (.panic "integer divide by zero")) := by
  induction subKeys generalizing h with
  | nil => exact ⟨fun _ => ⟨h, rfl, idle⟩, fun some => absurd (by simp) some⟩
  | cons key rest ih =>
    rw [List.foldlM_cons]
    cases broadcastSub_idle idle env key with
    | inl divides =>
      obtain ⟨divides, panics⟩ := divides
      rw [panics]
      exact ⟨fun none => absurd divides (none key (by simp)), fun _ => rfl⟩
    | inr returns =>
      obtain ⟨sound, h', done, idle', validator, _⟩ := returns
      obtain ⟨later, panics⟩ := ih idle'
      rw [done]
      rw [validator] at later panics
      refine ⟨fun none => later fun k hk => none k (by simp [hk]), ?_⟩
      intro some
      apply panics
      intro none
      apply some
      intro k hk
      cases List.mem_cons.mp hk with
      | inl same => exact same ▸ sound
      | inr inside => exact none k inside

theorem broadcastTick_idle {h : Hub} (idle : Idle h) (env : TickEnv) :
    broadcastTick env h = (keys h.subs).foldlM (broadcastSub env) h :=
  read_section (p := hubMu) idle.hub fun t s => (keys t.subs).foldlM (broadcastSub env) s

theorem notifyCandleClose_idle {h : Hub} (idle : Idle h) (market symbol tf : String)
    (candleTimeUnix : ℤ) (cells : List ClusterCell) :
    ∃ started, notifyCandleClose market symbol tf candleTimeUnix cells h =
      .ok { h with tasks := h.tasks ++ started } := by
  unfold notifyCandleClose
  rw [read_section (p := hubMu) idle.hub]
  exact ⟨_, rfl⟩

theorem sendCloseOpen_idle {h : Hub} (idle : Idle h) (args : SendCloseOpen) (nowSec : ℤ) :
    (CloseDivides h.validator args ∧
      sendCloseOpen args nowSec h = .error (.panic "integer divide by zero")) ∨
    (¬ CloseDivides h.validator args ∧ ∃ h', sendCloseOpen args nowSec h = .ok h' ∧ Idle h') := by
  unfold sendCloseOpen CloseDivides
  cases config : h.validator.getConfig args.symbol args.market with
  | none => exact Or.inr ⟨by simp, h, rfl, idle⟩
  | some tc =>
    simp only [Option.mem_def, Option.some.injEq, exists_eq_left']
    by_cases zero : tc.baseCompression = 0 ∧ args.compression ≠ 0
    · left
      refine ⟨Or.inl zero, ?_⟩
      simp only [zero.2, ↓reduceIte, mergeUp_zero args.cells zero.1 zero.2]
      rfl
    · obtain ⟨merged, merges⟩ := mergeUp_returns tc
        (if args.compression = 0 then tc.baseCompression else args.compression) args.cells (by
          intro both
          split at both
          · exact both.2 both.1
          · exact zero ⟨both.1, both.2⟩)
      simp only [merges]
      cases length : tfSeconds args.tf with
      | none =>
        left
        refine ⟨Or.inr rfl, ?_⟩
        simp only [candleTimeNow, length]
        rfl
      | some secs =>
        right
        refine ⟨by simpa using zero, ?_⟩
        simp only [candleTimeNow, length]
        exact ⟨_, rfl, (send_all (send_all idle _ args.clients).1 _ args.clients).1⟩

theorem close_idle {h : Hub} (idle : Idle h) (c : ClientId) :
    ∃ h', close c h = .ok h' ∧ Idle h' := by
  unfold close
  rw [lock_bind (p := clientMu c) (idle.clients c)]
  have flag : (((clientMu c).set .writing h).heap c).closed = (h.heap c).closed := by
    simp [clientMu, setClient]
  rw [flag]
  split
  · rw [unlock_writing ((clientMu c).get_set _ _), (clientMu c).set_set,
      set_unlocked (p := clientMu c) (idle.clients c)]
    exact ⟨h, rfl, idle⟩
  · have keeps := clientMu_apart c (f := fun client => { client with closed := true })
      fun _ _ => rfl
    rw [unlock_bind (p := clientMu c) (by rw [keeps, (clientMu c).get_set]),
      section_returns keeps (idle.clients c)]
    have marked := setClient_idle idle c (f := fun client => { client with closed := true })
      fun _ => rfl
    exact ⟨_, rfl, setClient_idle marked c (f := fun client => { client with connClosed := true })
      fun _ => rfl⟩

/- One operation on an idle hub returns with the locks free, or it faults: Unregister
   with a deadlock, a broadcast or a close notification with a division by zero. -/
theorem exec_returns {h : Hub} (idle : Idle h) {op : Op} (returns : Returns h op) :
    ∃ h', exec h op = .ok h' ∧ Idle h' := by
  cases op with
  | register c => exact ⟨_, register_idle idle c, idle.hub, idle.clients⟩
  | subscribe c market symbol tf compression =>
    obtain ⟨err, h', done, outcome⟩ := subscribe_idle idle c market symbol tf compression
    refine ⟨h', by simp only [exec, done]; rfl, ?_⟩
    cases outcome with
    | inl rejected =>
      obtain ⟨_, _, rfl⟩ := rejected
      exact idle
    | inr accepted =>
      obtain ⟨tc, _, _, rfl⟩ := accepted
      exact subscribed_idle idle c _
  | unsubscribe c market symbol tf compression =>
    have kept := setClient_idle idle c (f := fun client => { client with
      subKeys := remove (SubKey.make market symbol tf compression) client.subKeys }) fun _ => rfl
    exact ⟨_, unsubscribe_idle idle c market symbol tf compression, kept.hub, kept.clients⟩
  | unregister c => exact absurd returns id
  | clientCount => exact ⟨h, by simp only [exec, clientCount_idle idle]; rfl, idle⟩
  | broadcastTick env =>
    simp only [exec, broadcastTick_idle idle]
    exact (broadcasts_idle idle env _).1 returns
  | notifyCandleClose market symbol tf candleTimeUnix cells =>
    obtain ⟨started, done⟩ := notifyCandleClose_idle idle market symbol tf candleTimeUnix cells
    exact ⟨_, done, idle.hub, idle.clients⟩
  | goroutine k nowSec =>
    have popped : Idle { h with tasks := h.tasks.eraseIdx k } := ⟨idle.hub, idle.clients⟩
    simp only [exec]
    cases waiting : h.tasks[k]? with
    | none => exact ⟨h, rfl, idle⟩
    | some task =>
      cases task with
      | close c => exact close_idle popped c
      | sendCloseOpen args =>
        cases sendCloseOpen_idle popped args nowSec with
        | inl divides => exact absurd divides.1 (returns args waiting)
        | inr sent => exact sent.2

theorem exec_faults {h : Hub} (idle : Idle h) {op : Op} (fails : ¬ Returns h op) :
    exec h op = .error .deadlock ∧ (∃ c, op = .unregister c) ∨
      exec h op = .error (.panic "integer divide by zero") := by
  cases op with
  | unregister c => exact Or.inl ⟨unregister_deadlocks idle c, c, rfl⟩
  | broadcastTick env =>
    simp only [exec, broadcastTick_idle idle]
    exact Or.inr ((broadcasts_idle idle env _).2 fails)
  | goroutine k nowSec =>
    have popped : Idle { h with tasks := h.tasks.eraseIdx k } := ⟨idle.hub, idle.clients⟩
    simp only [Returns, not_forall, not_not] at fails
    obtain ⟨args, waiting, divides⟩ := fails
    simp only [exec, waiting, runTask]
    cases sendCloseOpen_idle popped args nowSec with
    | inl panics => exact Or.inr panics.2
    | inr sent => exact absurd divides sent.1
  | register c => exact absurd trivial fails
  | subscribe c market symbol tf compression => exact absurd trivial fails
  | unsubscribe c market symbol tf compression => exact absurd trivial fails
  | clientCount => exact absurd trivial fails
  | notifyCandleClose market symbol tf candleTimeUnix cells => exact absurd trivial fails

/-- Only Unregister asks for the hub's lock while it holds it. -/
theorem deadlock_iff_unregister {h : Hub} (idle : Idle h) (op : Op) :
    exec h op = .error .deadlock ↔ ∃ c, op = .unregister c := by
  constructor
  · intro stuck
    by_cases returns : Returns h op
    · obtain ⟨h', done, _⟩ := exec_returns idle returns
      rw [done] at stuck
      cases stuck
    · cases exec_faults idle returns with
      | inl deadlock => exact deadlock.2
      | inr panics =>
        rw [panics] at stuck
        cases stuck
  · intro unregister
    obtain ⟨c, rfl⟩ := unregister
    exact unregister_deadlocks idle c

theorem operations_return_iff {h : Hub} (idle : Idle h) (ops : List Op) :
    Completes step Idle h ops ↔ Respected step Returns h ops := by
  apply completes_iff_respected _ _ idle
  · intro h op idle returns
    obtain ⟨h', done, idle'⟩ := exec_returns idle returns
    exact ⟨h', by rw [step, done]; rfl, idle'⟩
  · intro h op idle fails
    cases exec_faults idle fails with
    | inl deadlock => rw [step, deadlock.1]; rfl
    | inr panics => rw [step, panics]; rfl

def sampleValidator : Validator where
  getConfig symbol market :=
    if symbol = "BTCUSDT" ∧ market = "futures"
      then some ⟨"BTCUSDT", "futures", 1 / 10, 25, 10, 25, 365, 60, true⟩ else none
  validateCompression _ _ := none
  validateTF _ _ := none

theorem newHub_idle (validator : Validator) (writeBufSize : ℕ) :
    Idle (newHub validator writeBufSize) := ⟨rfl, fun _ => rfl⟩

theorem register_subscribe_notify_return :
    Completes step Idle (newHub sampleValidator 256)
      [.register 1, .subscribe 1 "futures" "BTCUSDT" "1m" 125,
        .notifyCandleClose "futures" "BTCUSDT" "1m" 60 [], .unsubscribe 1 "futures" "BTCUSDT" "1m" 125,
        .clientCount] :=
  (operations_return_iff (newHub_idle _ _) _).mpr
    ⟨trivial, fun _ _ => ⟨trivial, fun _ _ => ⟨trivial, fun _ _ => ⟨trivial, fun _ _ =>
      ⟨trivial, fun _ _ => trivial⟩⟩⟩⟩⟩

/-- One client connects and leaves: its Unregister never returns. -/
theorem unregister_never_returns :
    ¬ Completes step Idle (newHub sampleValidator 256) [.register 1, .unregister 1] := by
  intro completes
  obtain ⟨h, _, idle, h', stuck, _⟩ := completes
  rw [step, show exec h (.unregister 1) = _ from unregister_deadlocks idle 1] at stuck
  cases stuck

end WsHub
