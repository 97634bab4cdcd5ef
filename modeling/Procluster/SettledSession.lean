import Procluster.WsSession

/-!
What the hub holds for the browser's connection along every interleaving of the session,
and that the server gets there by reading.
-/
namespace WsSession
open KeyedFold EventRuns WsClient WsHub

variable {ι : Type}

section Server
variable {s s' : Session ι}

def Unknown (r : Records) (c : ClientId) : Prop := r.subKeys c = [] ∧ ∀ key, ¬ r.Listed key c

def Holds (r : Records) (c : ClientId) (handled : List (Request × Reply)) : Prop :=
  ∀ key, key ∈ r.subKeys c ↔ ∃ sub ∈ serverSubs (accepted handled), key = hubKey sub

structure Tracked (s : Session ι) : Prop extends Answered s where
  told : Told s.browser
  filed : (records s.hub).Filed
  unknown : ∀ c ∉ s.used, Unknown (records s.hub) c
  mine : ∀ c, s.pump = .reading c →
    c ∈ s.used ∧ (records s.hub).Agrees c ∧ Holds (records s.hub) c s.handled

theorem accepted_append (handled : List (Request × Reply)) (r : Request) (reply : Reply) :
    accepted (handled ++ [(r, reply)]) =
      if reply.error = none then accepted handled ++ [r] else accepted handled := by
  unfold accepted
  rw [List.filter_append, List.map_append]
  obtain ⟨message, action, error⟩ := reply
  cases error <;> simp

theorem requested {sent : List Request} {sub : Sub} (inside : sub ∈ serverSubs sent) :
    ∃ r ∈ sent, subOf r = sub := by
  induction sent using List.reverseRecOn with
  | nil => simp [serverSubs] at inside
  | append_singleton sent last ih =>
    have earlier : sub ∈ serverSubs sent → ∃ r ∈ sent ++ [last], subOf r = sub := by
      intro before
      obtain ⟨r, asked, same⟩ := ih before
      exact ⟨r, List.mem_append_left _ asked, same⟩
    cases last with
    | subscribe now =>
      rw [serverSubs_subscribe, Finset.mem_insert] at inside
      rcases inside with rfl | before
      · exact ⟨.subscribe sub, by simp, rfl⟩
      · exact earlier before
    | unsubscribe now =>
      rw [serverSubs_unsubscribe, Finset.mem_erase] at inside
      exact earlier inside.2

theorem effect_others {r r' : Records} {op : Op} {c : ClientId} (effect : Effect r r' op)
    (filed : r.Filed) (other : issuer (.call op) ≠ some c) :
    r'.subKeys c = r.subKeys c ∧ ∀ key, r'.Listed key c ↔ r.Listed key c := by
  have same : r' = r → r'.subKeys c = r.subKeys c ∧ ∀ key, r'.Listed key c ↔ r.Listed key c := by
    intro equal
    rw [equal]
    exact ⟨rfl, fun _ => Iff.rfl⟩
  cases op with
  | register d =>
    obtain rfl := effect
    exact ⟨rfl, fun _ => Iff.rfl⟩
  | subscribe d market symbol tf compression =>
    rcases effect with unchanged | ⟨tc, -, -, -, -, rfl⟩
    · exact same unchanged
    · have differ : c ≠ d := fun equal => other (by rw [equal]; rfl)
      refine ⟨Function.update_of_ne differ _ _, ?_⟩
      intro key
      rw [listed_entered]
      exact or_iff_left fun both => differ both.2
  | unsubscribe d market symbol tf compression =>
    obtain rfl := effect
    have differ : c ≠ d := fun equal => other (by rw [equal]; rfl)
    refine ⟨Function.update_of_ne differ _ _, ?_⟩
    intro key
    rw [listed_left]
    exact and_iff_left fun both => differ both.2
  | unregister d =>
    obtain rfl := effect
    have differ : c ≠ d := fun equal => other (by rw [equal]; rfl)
    exact ⟨rfl, fun key => (listed_gone filed key c).trans (and_iff_left differ)⟩
  | clientCount => exact same effect
  | broadcastTick env => exact same effect
  | notifyCandleClose market symbol tf candleTimeUnix cells => exact same effect
  | goroutine k nowSec => exact same effect

theorem effect_filed {r r' : Records} {op : Op} (effect : Effect r r' op) (filed : r.Filed) :
    r'.Filed := by
  cases op with
  | register c => exact effect ▸ ⟨filed.distinct, filed.nonempty⟩
  | subscribe c market symbol tf compression =>
    rcases effect with rfl | ⟨tc, -, -, -, -, rfl⟩
    · exact filed
    · exact filed_entered c _ filed
  | unsubscribe c market symbol tf compression => exact effect ▸ filed_left c _ filed
  | unregister c =>
    refine effect ▸ ⟨gone_keys filed.distinct, ?_⟩
    intro p inside
    simpa using (List.mem_filter.mp inside).2
  | clientCount => exact effect ▸ filed
  | broadcastTick env => exact effect ▸ filed
  | notifyCandleClose market symbol tf candleTimeUnix cells => exact effect ▸ filed
  | goroutine k nowSec => exact effect ▸ filed

theorem advance_others {h h' : Hub} {e : HubEvent} (filed : (records h).Filed)
    (taken : advance h e = some h') : (records h').Filed ∧ ∀ c, issuer e ≠ some c →
      (records h').subKeys c = (records h).subKeys c ∧
        ∀ key, (records h').Listed key c ↔ (records h).Listed key c := by
  cases e with
  | call op =>
    have effect := advance_effect taken
    exact ⟨effect_filed effect filed, fun c other => effect_others effect filed other⟩
  | counted =>
    obtain rfl := RWMutex.unlock_last (answer_of_some taken)
    exact ⟨filed, fun _ _ => ⟨rfl, fun _ => Iff.rfl⟩⟩

theorem tracked_browser (tracked : Tracked s) {b : WsClient.Client ι}
    (answered : Answered { s with browser := b }) (told : Told b) : Tracked { s with browser := b } :=
  ⟨answered, told, tracked.filed, tracked.unknown, tracked.mine⟩

theorem tracked_accept (tracked : Tracked s) {c : ClientId} (waiting : s.pump = .waiting)
    (fresh : c ∉ s.used) {hub : Hub} (taken : advance s.hub (.call (.register c)) = some hub) :
    Tracked { s with hub := hub, pump := .reading c, used := c :: s.used } := by
  obtain ⟨filed, -⟩ := advance_others tracked.filed taken
  have effect : records hub = (records s.hub).registered c := advance_effect taken
  have same : ∀ d, Unknown (records s.hub) d → Unknown (records hub) d := by
    intro d unknown
    rw [effect]
    exact unknown
  refine ⟨⟨tracked.order, by simp, tracked.answered⟩, tracked.told, filed, ?_, ?_⟩
  · intro d outside
    exact same d (tracked.unknown d fun inside => outside (List.mem_cons_of_mem _ inside))
  · intro d reading
    obtain rfl := Pump.reading.inj reading
    obtain ⟨none_held, none_listed⟩ := same c (tracked.unknown c fresh)
    refine ⟨List.mem_cons_self, ?_, ?_⟩
    · intro key
      rw [none_held]
      exact iff_of_false List.not_mem_nil (none_listed key)
    · intro key
      rw [none_held]
      simp [tracked.waiting waiting, accepted, serverSubs]

theorem tracked_other (tracked : Tracked s) {e : HubEvent}
    (others : ∀ c ∈ issuer e, s.pump ≠ .reading c) {hub : Hub} (taken : advance s.hub e = some hub) :
    Tracked { s with hub := hub, used := (issuer e).toList ++ s.used } := by
  obtain ⟨filed, kept⟩ := advance_others tracked.filed taken
  refine ⟨⟨tracked.order, tracked.waiting, tracked.answered⟩, tracked.told, filed, ?_, ?_⟩
  · intro c outside
    simp only [List.mem_append, Option.mem_toList, not_or] at outside
    obtain ⟨held, listed⟩ := kept c outside.1
    obtain ⟨none_held, none_listed⟩ := tracked.unknown c outside.2
    exact ⟨held.trans none_held, fun key inside => none_listed key ((listed key).mp inside)⟩
  · intro c reading
    obtain ⟨known, agrees, holds⟩ := tracked.mine c reading
    obtain ⟨held, listed⟩ := kept c fun own => others c own reading
    refine ⟨List.mem_append_right _ known, ?_, ?_⟩
    · intro key
      rw [held, listed key]
      exact agrees key
    · intro key
      rw [held]
      exact holds key

theorem tracked_readError (tracked : Tracked s) {c : ClientId} (reading : s.pump = .reading c)
    {hub : Hub} (taken : advance s.hub (.call (.unregister c)) = some hub) :
    Tracked { s with hub := hub, pump := .ended } := by
  obtain ⟨filed, kept⟩ := advance_others tracked.filed taken
  refine ⟨⟨tracked.order, by simp, tracked.answered⟩, tracked.told, filed, ?_, by simp⟩
  intro d outside
  have differ : c ≠ d := fun equal => outside (equal ▸ (tracked.mine c reading).1)
  obtain ⟨held, listed⟩ := kept d (by simpa [issuer] using differ)
  obtain ⟨none_held, none_listed⟩ := tracked.unknown d outside
  exact ⟨held.trans none_held, fun key inside => none_listed key ((listed key).mp inside)⟩

theorem holds_took {c : ClientId} {r : Request} {reply : Reply} {before after : Records}
    {handled : List (Request × Reply)} (plain : Plain (subOf r))
    (plains : ∀ q ∈ accepted handled, Plain (subOf q) ∧ (subOf q).compression < 2 ^ 32)
    (took : Took c r reply before after) (holds : Holds before c handled) :
    Holds after c (handled ++ [(r, reply)]) := by
  intro key
  rw [accepted_append]
  cases took with
  | subscribed sub request ok small compression named effect =>
    subst request
    rw [if_pos ok, serverSubs_subscribe, effect, named plain.compression, held_entered, holds key]
    simp only [Finset.mem_insert, and_true, exists_eq_or_imp, or_comm]
    rfl
  | unsubscribed sub request ok small effect =>
    subst request
    rw [if_pos ok, serverSubs_unsubscribe, effect, held_left, holds key]
    constructor
    · rintro ⟨⟨other, inside, rfl⟩, differ⟩
      exact ⟨other, Finset.mem_erase.mpr ⟨fun same => differ ⟨by rw [same], rfl⟩, inside⟩, rfl⟩
    · rintro ⟨other, inside, rfl⟩
      obtain ⟨differ, inside⟩ := Finset.mem_erase.mp inside
      refine ⟨⟨other, inside, rfl⟩, ?_⟩
      rintro ⟨same, -⟩
      obtain ⟨q, asked, rfl⟩ := requested inside
      obtain ⟨plain', small'⟩ := plains q asked
      exact differ (hubKey_inj plain' plain small' small same)
  | refused error effect =>
    rw [if_neg error, effect]
    exact holds key

theorem took_filed {c : ClientId} {r : Request} {reply : Reply} {before after : Records}
    (took : Took c r reply before after) (filed : before.Filed) : after.Filed := by
  cases took with
  | subscribed sub request ok small compression named effect => exact effect ▸ filed_entered c _ filed
  | unsubscribed sub request ok small effect => exact effect ▸ filed_left c _ filed
  | refused error effect => exact effect ▸ filed

theorem took_agrees {c : ClientId} {r : Request} {reply : Reply} {before after : Records}
    (took : Took c r reply before after) (d : ClientId) (agrees : before.Agrees d) : after.Agrees d := by
  cases took with
  | subscribed sub request ok small compression named effect => exact effect ▸ agrees_entered c _ agrees
  | unsubscribed sub request ok small effect => exact effect ▸ agrees_left c _ agrees
  | refused error effect => exact effect ▸ agrees

theorem took_unknown {c d : ClientId} {r : Request} {reply : Reply} {before after : Records}
    (took : Took c r reply before after) (differ : d ≠ c) (unknown : Unknown before d) :
    Unknown after d := by
  obtain ⟨none_held, none_listed⟩ := unknown
  cases took with
  | subscribed sub request ok small compression named effect =>
    subst effect
    refine ⟨(Function.update_of_ne differ _ _).trans none_held, ?_⟩
    intro key listed
    rcases (listed_entered c _ key d).mp listed with before | ⟨-, same⟩
    · exact none_listed key before
    · exact differ same
  | unsubscribed sub request ok small effect =>
    subst effect
    refine ⟨(Function.update_of_ne differ _ _).trans none_held, ?_⟩
    intro key listed
    exact none_listed key ((listed_left c _ key d).mp listed).1
  | refused error effect => exact effect ▸ ⟨none_held, none_listed⟩

theorem tracked_handle (tracked : Tracked s) {c : ClientId} (reading : s.pump = .reading c)
    {r : Request} (waits : next s = some r) {reply : Reply} {hub : Hub}
    (done : handleMessage c (received r) s.hub = .ok (reply, hub)) :
    Tracked { s with hub := hub, handled := s.handled ++ [(r, reply)] } := by
  obtain ⟨-, took⟩ := took_handled (handleMessage_handled done)
  obtain ⟨known, agrees, holds⟩ := tracked.mine c reading
  have plain : ∀ q ∈ s.browser.sent, Plain (subOf q) := tracked.told.plain
  have sent : ∀ q ∈ accepted s.handled, q ∈ s.browser.sent := by
    intro q inside
    obtain ⟨p, listed, rfl⟩ := List.mem_map.mp inside
    exact tracked.order.subset (List.mem_map_of_mem (List.mem_of_mem_filter listed))
  refine ⟨answered_handle tracked.toAnswered reading waits done, tracked.told,
    took_filed took tracked.filed, ?_, ?_⟩
  · intro d outside
    exact took_unknown took (fun same => outside (same ▸ known)) (tracked.unknown d outside)
  · intro d reading'
    obtain rfl := Pump.reading.inj (reading.symm.trans reading')
    refine ⟨known, took_agrees took c agrees, ?_⟩
    refine holds_took (plain r (List.mem_of_getElem? waits)) ?_ took holds
    exact fun q inside => ⟨plain q (sent q inside), accepted_small tracked.answered q inside⟩

theorem tracked_step (tracked : Tracked s) {e : Event ι} (plain : PlainEvent e)
    (taken : step s e = some s') : Tracked s' := by
  have answered := answered_step tracked.toAnswered taken
  cases e with
  | subscribe sub callbacks =>
    obtain rfl := Option.some.inj taken
    exact tracked_browser tracked answered (told_subscribe tracked.told plain callbacks)
  | unsubscribe sub =>
    obtain rfl := Option.some.inj taken
    exact tracked_browser tracked answered (told_unsubscribe tracked.told plain)
  | connect =>
    simp only [step] at taken
    split at taken
    · exact Option.some.inj taken ▸ tracked
    · obtain rfl := Option.some.inj taken
      exact ⟨answered, told_connect tracked.told, tracked.filed, tracked.unknown, by simp⟩
  | onopen =>
    obtain ⟨connecting, made⟩ := Option.ite_none_right_eq_some.mp taken
    obtain rfl := Option.some.inj made
    exact tracked_browser tracked answered (told_onopen tracked.told connecting)
  | onclose =>
    obtain ⟨_, made⟩ := Option.ite_none_right_eq_some.mp taken
    obtain rfl := Option.some.inj made
    exact tracked_browser tracked answered (told_closed tracked.told s.browser.destroyed)
  | destroy =>
    obtain rfl := Option.some.inj taken
    exact tracked_browser tracked answered (told_closed tracked.told true)
  | accept c =>
    obtain ⟨⟨waiting, fresh⟩, made⟩ := Option.ite_none_right_eq_some.mp taken
    obtain ⟨hub, registered, rfl⟩ := Option.map_eq_some_iff.mp made
    exact tracked_accept tracked waiting fresh registered
  | handle =>
    simp only [step] at taken
    split at taken
    · rename_i c r reading waits
      obtain ⟨_, made⟩ := Option.ite_none_right_eq_some.mp taken
      obtain ⟨⟨reply, hub⟩, done, rfl⟩ := Option.map_eq_some_iff.mp made
      exact tracked_handle tracked reading waits (answer_of_some done)
    · cases taken
  | readError =>
    simp only [step] at taken
    split at taken
    · rename_i c reading
      obtain ⟨hub, left, rfl⟩ := Option.map_eq_some_iff.mp taken
      exact tracked_readError tracked reading left
    · cases taken
  | other e =>
    obtain ⟨others, made⟩ := Option.ite_none_right_eq_some.mp taken
    obtain ⟨hub, moved, rfl⟩ := Option.map_eq_some_iff.mp made
    exact tracked_other tracked others moved

theorem tracked_start (validator : Validator) (writeBufSize : ℕ) :
    Tracked (start validator writeBufSize : Session ι) := by
  refine ⟨answered_start validator writeBufSize, ⟨List.nodup_nil, by simp [start, WsClient.newClient],
    by simp [start, WsClient.newClient], fun _ => rfl, by simp [start, WsClient.newClient]⟩,
    ⟨List.nodup_nil, by simp [start, records, newHub]⟩, ?_, by simp [start]⟩
  intro c _
  refine ⟨rfl, ?_⟩
  rintro key ⟨set, found, -⟩
  cases found

theorem tracked_run {validator : Validator} {writeBufSize : ℕ} {events : List (Event ι)}
    (plain : ∀ e ∈ events, PlainEvent e) (reach : run step (start validator writeBufSize) events = some s) :
    Tracked s :=
  invariant_run Tracked (fun _ e => PlainEvent e) (fun _ _ _ tracked plain taken =>
    tracked_step tracked plain taken) (tracked_start validator writeBufSize)
    (guarded_of_events fun e inside _ => plain e inside) reach

end Server

/-- The hub's keys of the connection against the browser's active subscriptions. -/
structure InStep (s : Session ι) (c : ClientId) : Prop where
  only_active : ∀ key ∈ (s.hub.heap c).subKeys, ∃ sub, Active s sub ∧ key = hubKey sub
  unless_refused : ∀ sub, Active s sub →
    (∀ p ∈ s.handled, p.1 = .subscribe sub → p.2.error = none) → hubKey sub ∈ (s.hub.heap c).subKeys
  served : ∀ key, key ∈ (s.hub.heap c).subKeys ↔ ∃ set, find key s.hub.subs = some set ∧ c ∈ set

section Settling
variable {s : Session ι} {c : ClientId}

theorem settled_handled (tracked : Tracked s) (caughtUp : next s = none) :
    s.handled.map Prod.fst = s.browser.sent := by
  obtain ⟨behind, order⟩ := tracked.order
  have none_left : behind = [] := by
    rw [next, ← order, List.getElem?_append_right (by simp)] at caughtUp
    simpa using caughtUp
  rw [← order, none_left, List.append_nil]

/- What took effect is among what was asked: a refused request leaves it so. -/
theorem accepted_among (handled : List (Request × Reply)) (answered : ∀ p ∈ handled, Answers p.1 p.2)
    {sub : Sub} (inside : sub ∈ serverSubs (accepted handled)) : sub ∈ serverSubs (handled.map Prod.fst) := by
  induction handled using List.reverseRecOn with
  | nil => exact inside
  | append_singleton handled last ih =>
    obtain ⟨r, reply⟩ := last
    have answered' : ∀ p ∈ handled, Answers p.1 p.2 :=
      fun p listed => answered p (List.mem_append_left _ listed)
    have earlier := ih answered'
    rw [accepted_append] at inside
    rw [List.map_append, List.map_singleton]
    by_cases ok : reply.error = none
    · rw [if_pos ok] at inside
      cases r with
      | subscribe now =>
        rw [serverSubs_subscribe, Finset.mem_insert] at inside ⊢
        exact inside.imp_right earlier
      | unsubscribe now =>
        rw [serverSubs_unsubscribe, Finset.mem_erase] at inside ⊢
        exact ⟨inside.1, earlier inside.2⟩
    · rw [if_neg ok] at inside
      cases r with
      | subscribe now =>
        rw [serverSubs_subscribe]
        exact Finset.mem_insert_of_mem (earlier inside)
      | unsubscribe now =>
        -- only an unreadable unsubscribe is refused, and what it names was never readable
        have unread : received (.unsubscribe now) = none := by
          have answers : Answers (.unsubscribe now) reply :=
            answered _ (List.mem_append_right _ (List.mem_singleton_self _))
          cases read : received (.unsubscribe now) with
          | none => rfl
          | some msg =>
            simp only [Answers, read] at answers
            exact absurd (by rw [answers]; rfl) ok
        rw [serverSubs_unsubscribe, Finset.mem_erase]
        refine ⟨?_, earlier inside⟩
        rintro rfl
        obtain ⟨q, asked, same⟩ := requested inside
        have fits : (subOf (.unsubscribe sub)).compression < 2 ^ 32 := same ▸ accepted_small answered' q asked
        rw [received, if_pos fits] at unread
        cases unread

theorem asked_accepted (handled : List (Request × Reply)) {sub : Sub}
    (kept : ∀ p ∈ handled, p.1 = .subscribe sub → p.2.error = none)
    (inside : sub ∈ serverSubs (handled.map Prod.fst)) : sub ∈ serverSubs (accepted handled) := by
  induction handled using List.reverseRecOn with
  | nil => exact inside
  | append_singleton handled last ih =>
    obtain ⟨r, reply⟩ := last
    have before := ih fun p listed => kept p (List.mem_append_left _ listed)
    rw [List.map_append, List.map_singleton] at inside
    rw [accepted_append]
    cases r with
    | subscribe now =>
      rw [serverSubs_subscribe, Finset.mem_insert] at inside
      rcases inside with rfl | earlier
      · have ok := kept (.subscribe sub, reply) (List.mem_append_right _ (by simp)) rfl
        rw [if_pos ok, serverSubs_subscribe]
        exact Finset.mem_insert_self _ _
      · split
        · rw [serverSubs_subscribe]
          exact Finset.mem_insert_of_mem (before earlier)
        · exact before earlier
    | unsubscribe now =>
      rw [serverSubs_unsubscribe, Finset.mem_erase] at inside
      split
      · rw [serverSubs_unsubscribe, Finset.mem_erase]
        exact ⟨inside.1, before inside.2⟩
      · exact before inside.2

theorem inStep_of_tracked (tracked : Tracked s) (settled : Settled s c) : InStep s c := by
  obtain ⟨opened, reading, caughtUp⟩ := settled
  obtain ⟨-, agrees, holds⟩ := tracked.mine c reading
  have all := settled_handled tracked caughtUp
  constructor
  · intro key held
    obtain ⟨sub, took, same⟩ := (holds key).mp held
    have asked := accepted_among s.handled tracked.answered took
    rw [all] at asked
    exact ⟨sub, (tracked.told.told opened sub).mp asked, same⟩
  · intro sub active kept
    apply (holds (hubKey sub)).mpr
    refine ⟨sub, asked_accepted s.handled kept ?_, rfl⟩
    rw [all]
    exact (tracked.told.told opened sub).mpr active
  · exact agrees

end Settling

/-- Whatever the order in which the browser calls, the connection breaks and comes back, the
    server reads and the rest of the hub goes on: once the requests of an open connection are
    read, the hub holds for it the browser's active subscriptions and nothing else, except
    those it refused. -/
theorem settled_in_step {validator : Validator} {writeBufSize : ℕ} {events : List (Event ι)}
    {s : Session ι} (plain : ∀ e ∈ events, PlainEvent e)
    (reach : run step (start validator writeBufSize) events = some s) {c : ClientId}
    (settled : Settled s c) : InStep s c :=
  inStep_of_tracked (tracked_run plain reach) settled

theorem rescaled_plain : ∀ e ∈ rescaled, PlainEvent e := by
  have plain : Plain ⟨"BTCUSDT", "futures", "1m", 25⟩ ∧ Plain ⟨"BTCUSDT", "futures", "1m", 50⟩ :=
    ⟨⟨by decide, by decide, by decide⟩, ⟨by decide, by decide, by decide⟩⟩
  simp [rescaled, PlainEvent, chartSub, plain]

theorem rescaled_in_step : ∃ s, run step (start sampleValidator 256) (rescaled ++ [.handle]) = some s ∧
    Settled s 1 ∧ InStep s 1 := by
  obtain ⟨s, reach, settled⟩ : ∃ s, run step (start sampleValidator 256) (rescaled ++ [.handle]) = some s ∧
      Settled s 1 := ⟨_, rfl, rfl, rfl, rfl⟩
  have plain : ∀ e ∈ rescaled ++ [.handle], PlainEvent e := by
    intro e inside
    rcases List.mem_append.mp inside with before | last
    · exact rescaled_plain e before
    · obtain rfl := List.mem_singleton.mp last
      trivial
  exact ⟨s, reach, settled, settled_in_step plain reach settled⟩

section Progress
variable {s : Session ι} {c : ClientId}

/-- No client leaves: neither the pump of the connection ends nor another one's. -/
def Stays : Event ι → Prop
  | .readError | .other (.call (.unregister _)) | .other .counted => False
  | _ => True

theorem exec_idle {h h' : Hub} {op : Op} (idle : Idle h) (done : exec h op = .ok h') : Idle h' := by
  by_cases returns : Returns h op
  · obtain ⟨other, again, idle'⟩ := exec_returns idle returns
    exact Except.ok.inj (done.symm.trans again) ▸ idle'
  · rcases exec_faults idle returns with ⟨stuck, -⟩ | panics
    · rw [stuck] at done
      cases done
    · rw [panics] at done
      cases done

theorem advance_idle {h h' : Hub} {e : HubEvent} (idle : Idle h) (stays : Stays (.other e : Event ι))
    (taken : advance h e = some h') : Idle h' := by
  cases e with
  | counted => exact stays.elim
  | call op =>
    cases op with
    | unregister c => exact stays.elim
    | _ => exact exec_idle idle (step_done taken)

theorem idle_step {s' : Session ι} {e : Event ι} (idle : Idle s.hub) (stays : Stays e)
    (taken : step s e = some s') : Idle s'.hub := by
  cases e with
  | subscribe sub callbacks => exact Option.some.inj taken ▸ idle
  | unsubscribe sub => exact Option.some.inj taken ▸ idle
  | connect =>
    simp only [step] at taken
    split at taken <;> exact Option.some.inj taken ▸ idle
  | onopen => exact Option.some.inj (Option.ite_none_right_eq_some.mp taken).2 ▸ idle
  | onclose => exact Option.some.inj (Option.ite_none_right_eq_some.mp taken).2 ▸ idle
  | destroy => exact Option.some.inj taken ▸ idle
  | accept c =>
    obtain ⟨-, made⟩ := Option.ite_none_right_eq_some.mp taken
    obtain ⟨hub, registered, rfl⟩ := Option.map_eq_some_iff.mp made
    exact exec_idle idle (step_done registered)
  | handle =>
    simp only [step] at taken
    split at taken
    · rename_i c r reading waits
      obtain ⟨_, made⟩ := Option.ite_none_right_eq_some.mp taken
      obtain ⟨⟨reply, hub⟩, answered, rfl⟩ := Option.map_eq_some_iff.mp made
      obtain ⟨reply', hub', done, idle'⟩ := handleMessage_idle idle c (received r)
      obtain ⟨-, rfl⟩ := Prod.mk.inj (Except.ok.inj ((answer_of_some answered).symm.trans done))
      exact idle'
    · cases taken
  | readError => exact stays.elim
  | other e =>
    obtain ⟨others, made⟩ := Option.ite_none_right_eq_some.mp taken
    obtain ⟨hub, moved, rfl⟩ := Option.map_eq_some_iff.mp made
    exact advance_idle idle stays moved

theorem handle_step (reading : s.pump = .reading c) (idle : Idle s.hub) {r : Request}
    (waits : next s = some r) (short : (frame r).utf8ByteSize ≤ maxMessageSize) :
    ∃ reply hub, step s .handle = some { s with hub := hub, handled := s.handled ++ [(r, reply)] } ∧
      Idle hub := by
  obtain ⟨reply, hub, done, idle'⟩ := handleMessage_idle idle c (received r)
  refine ⟨reply, hub, ?_, idle'⟩
  simp only [step, reading, waits, short, ↓reduceIte, done]
  rfl

theorem handles_left (left : ℕ) (opened : s.browser.ws = some .opened) (reading : s.pump = .reading c)
    (idle : Idle s.hub) (count : s.handled.length + left = s.browser.sent.length)
    (short : ∀ r ∈ s.browser.sent, (frame r).utf8ByteSize ≤ maxMessageSize) :
    ∃ s', run step s (List.replicate left .handle) = some s' ∧ Settled s' c ∧ s'.browser = s.browser := by
  induction left generalizing s with
  | zero =>
    refine ⟨s, rfl, ⟨opened, reading, ?_⟩, rfl⟩
    rw [next, List.getElem?_eq_none]
    omega
  | succ left ih =>
    have inside : s.handled.length < s.browser.sent.length := by omega
    have waits : next s = some s.browser.sent[s.handled.length] := List.getElem?_eq_getElem inside
    obtain ⟨reply, hub, taken, idle'⟩ := handle_step reading idle waits (short _ (List.getElem_mem inside))
    obtain ⟨s', reach, settled, browser⟩ := ih
      (s := { s with hub := hub, handled := s.handled ++ [(s.browser.sent[s.handled.length], reply)] })
      opened reading idle' (by simp only [List.length_append, List.length_singleton]; omega) short
    refine ⟨s', ?_, settled, browser⟩
    rw [List.replicate_succ, run_cons, taken]
    exact reach

end Progress

/-- As long as no client has left, the server settles every open connection by reading, one
    request a step and each one answered. -/
theorem server_catches_up {validator : Validator} {writeBufSize : ℕ} {events : List (Event ι)}
    {s : Session ι} (plain : ∀ e ∈ events, PlainEvent e)
    (stays : ∀ e ∈ events, Stays e)
    (reach : run step (start validator writeBufSize) events = some s) {c : ClientId}
    (opened : s.browser.ws = some .opened) (reading : s.pump = .reading c)
    (short : ∀ r ∈ s.browser.sent, (frame r).utf8ByteSize ≤ maxMessageSize) :
    ∃ s', run step s (List.replicate (s.browser.sent.length - s.handled.length) .handle) = some s' ∧
      s'.browser = s.browser ∧ Settled s' c ∧ InStep s' c := by
  have tracked := tracked_run plain reach
  have idle : Idle s.hub := invariant_run (fun s => Idle s.hub) (fun _ e => Stays e)
    (fun _ _ _ idle stays taken => idle_step idle stays taken) (newHub_idle validator writeBufSize)
    (guarded_of_events fun e inside _ => stays e inside) reach
  have behind : s.handled.length ≤ s.browser.sent.length := by
    simpa using tracked.order.length_le
  obtain ⟨s', later, settled, browser⟩ := handles_left
    (s.browser.sent.length - s.handled.length) opened reading idle (by omega) short
  have tracked' : Tracked s' := invariant_run Tracked (fun _ e => PlainEvent e)
    (fun _ _ _ tracked plain taken => tracked_step tracked plain taken) tracked
    (guarded_of_events fun e inside _ => by rw [List.eq_of_mem_replicate inside]; trivial) later
  exact ⟨s', later, browser, settled, inStep_of_tracked tracked' settled⟩

theorem rescaled_caught_up : ∃ s s', run step (start sampleValidator 256) rescaled = some s ∧
    run step s [.handle] = some s' ∧ s'.browser = s.browser ∧ Settled s' 1 ∧ InStep s' 1 := by
  obtain ⟨s, reach, opened, reading, left, short⟩ :
      ∃ s, run step (start sampleValidator 256) rescaled = some s ∧ s.browser.ws = some .opened ∧
        s.pump = .reading 1 ∧ s.browser.sent.length - s.handled.length = 1 ∧
        ∀ r ∈ s.browser.sent, (frame r).utf8ByteSize ≤ maxMessageSize :=
    ⟨_, rfl, rfl, rfl, rfl, by decide +kernel⟩
  have stays : ∀ e ∈ rescaled, Stays e := by simp [rescaled, Stays]
  obtain ⟨s', later, browser, settled, inStep⟩ :=
    server_catches_up rescaled_plain stays reach opened reading short
  rw [left] at later
  exact ⟨s, s', reach, later, browser, settled, inStep⟩

end WsSession
