import Procluster.HistoryJobs

/-!
What the admin panel shows of a history load, in every interleaving of its requests with
the loads, the ticks of the handler and the delivery of its messages.
-/
namespace HistoryJobs
open KeyedFold EventRuns

def Behind (evt : ProgressEvent) (job : HistoryJob) : Prop :=
  evt.current ≤ job.current ∧ (job.total = evt.total ∨ evt.current = 0 ∧ evt.total = 0)

def Told (job : HistoryJob) : Message → Prop
  | .progress evt => Behind evt job
  | .done => job.status = .done
  | .error _ => False

section Wire
variable (fl : Rounding)

def value : Message → ℤ
  | .progress evt => pct fl evt.current evt.total
  | .done | .error _ => 100

/-- What is under way to a panel that shows this percentage. -/
structure Wired (shown : ℤ) (job : HistoryJob) (st : Stream) : Prop where
  told : ∀ m ∈ st.wire, Told job m
  rising : (shown :: st.wire.map (value fl)).Pairwise (· ≤ ·)
  top : shown ≤ pct fl job.current job.total
  serving : st.serving = true → Message.done ∉ st.wire
  ended : st.serving = false → ∃ front, st.wire = front ++ [.done]

inductive Phase (s : System) : Prop where
  | idle (requests : s.requests = []) (streams : s.streams = []) (enabled : s.panel.disabled = false)
      (complete : s.panel.done = true → ∃ id job, s.panel.jobId = some id ∧
        find id s.server.jobs = some job ∧ job.status = .done)
  | waiting (request : Request) (requests : s.requests = [request]) (streams : s.streams = [])
      (cleared : s.panel.done = false ∧ s.panel.error = none ∧ s.panel.percent = 0)
      (started : ∀ id, request = .started id → ∃ job, find id s.server.jobs = some job)
  | watching (st : Stream) (job : HistoryJob) (requests : s.requests = []) (streams : s.streams = [st])
      (own : s.panel.jobId = some st.jobID) (going : s.panel.done = false ∧ s.panel.error = none)
      (found : find st.jobID s.server.jobs = some job) (wired : Wired fl s.panel.percent job st)

structure Coherent (s : System) : Prop where
  tracked : Tracked s.server
  range : 0 ≤ s.panel.percent ∧ s.panel.percent ≤ 100
  phase : Phase fl s

end Wire

theorem tracked_job {sv : Server} (tracked : Tracked sv) {id : ℕ} {job : HistoryJob}
    (found : find id sv.jobs = some job) : ∃ g ∈ sv.loaders, g.jobID = id ∧ Shows g job := by
  have listed : id ∈ keys sv.jobs := (mem_keys_iff _ _).mpr (by rw [found]; rfl)
  obtain ⟨g, member, rfl⟩ := List.mem_map.mp ((tracked.listed id).mp listed)
  obtain ⟨own, found_own, shown⟩ := tracked.loads g member
  obtain rfl : own = job := Option.some.inj (found_own.symm.trans found)
  exact ⟨g, member, rfl, shown⟩

theorem shows_within {g : Loader} {job : HistoryJob} (shown : Shows g job) : job.current ≤ job.total := by
  rw [shown.current, shown.total]
  split
  · rename_i none_begun
    exact none_begun.le
  · exact shown.bound

theorem shows_status {g : Loader} {job : HistoryJob} (shown : Shows g job) : job.status ≠ .error := by
  rw [shown.status]
  split <;> simp

section Messages
variable {fl : Rounding} {job later : HistoryJob}

theorem behind_pct {evt : ProgressEvent} (behind : Behind evt job) :
    pct fl evt.current evt.total ≤ pct fl job.current job.total := by
  obtain ⟨current, total | ⟨-, none_yet⟩⟩ := behind
  · rw [total]
    exact pct_mono fl _ current
  · rw [none_yet, pct_zero]
    exact pct_nonneg fl _ _

theorem behind_advances {evt : ProgressEvent} (behind : Behind evt job) (advances : Advances job later) :
    Behind evt later := by
  obtain ⟨current, total⟩ := behind
  refine ⟨current.trans advances.current, ?_⟩
  rcases total with same | zero
  · rcases advances.total with kept | ⟨none_begun, no_total⟩
    · exact .inl (kept.trans same)
    · exact .inr ⟨by omega, by omega⟩
  · exact .inr zero

theorem told_advances {m : Message} (told : Told job m) (advances : Advances job later) : Told later m := by
  cases m with
  | progress evt => exact behind_advances told advances
  | done => exact (advances.ended told) ▸ told
  | error text => exact told

theorem pct_advances (advances : Advances job later) :
    pct fl job.current job.total ≤ pct fl later.current later.total := by
  have now : Behind ⟨job.label, job.current, job.total, job.detail⟩ job := ⟨le_rfl, .inl rfl⟩
  exact behind_pct (behind_advances now advances)

theorem wired_advances {shown : ℤ} {st : Stream} (wired : Wired fl shown job st)
    (advances : Advances job later) : Wired fl shown later st := by
  obtain ⟨told, rising, top, serving, ended⟩ := wired
  refine ⟨?_, rising, top.trans (pct_advances advances), serving, ended⟩
  intro m inside
  exact told_advances (told m inside) advances

theorem wired_tick {shown : ℤ} {st : Stream} {jobs : List (ℕ × HistoryJob)} {g : Loader}
    (wired : Wired fl shown job st) (shows_job : Shows g job) (found : find st.jobID jobs = some job)
    (serving : st.serving = true) : Wired fl shown job (st.tick jobs) := by
  obtain ⟨told, rising, top, before, -⟩ := wired
  have no_end := before serving
  have within := shows_within shows_job
  -- The new message comes last; what stands before it tells of less.
  have behind : ∀ v ∈ shown :: st.wire.map (value fl), v ≤ pct fl job.current job.total := by
    intro v inside
    rcases List.mem_cons.mp inside with rfl | sent
    · exact top
    · obtain ⟨m, here, rfl⟩ := List.mem_map.mp sent
      have tells := told m here
      cases m with
      | progress evt => exact behind_pct tells
      | done => exact absurd here no_end
      | error text => exact absurd tells id
  have append : ∀ m, Told job m → pct fl job.current job.total ≤ value fl m →
      (∀ x ∈ st.wire ++ [m], Told job x) ∧ (shown :: (st.wire ++ [m]).map (value fl)).Pairwise (· ≤ ·) := by
    intro m tells above
    constructor
    · intro x inside
      rcases List.mem_append.mp inside with earlier | last
      · exact told x earlier
      · exact List.mem_singleton.mp last ▸ tells
    · rw [List.map_append, List.map_singleton, ← List.cons_append, List.pairwise_append]
      refine ⟨rising, List.pairwise_singleton _ _, ?_⟩
      intro a inside b last
      obtain rfl := List.mem_singleton.mp last
      exact (behind a inside).trans above
  cases status : job.status with
  | error => exact absurd status (shows_status shows_job)
  | done =>
    obtain ⟨tells, rises⟩ := append .done status (pct_le fl _ _ within)
    simp only [Stream.tick, found, tickMessage, status]
    exact ⟨tells, rises, top, by simp, fun _ => ⟨st.wire, rfl⟩⟩
  | running =>
    obtain ⟨tells, rises⟩ := append (.progress ⟨job.label, job.current, job.total, job.detail⟩)
      ⟨le_rfl, .inl rfl⟩ le_rfl
    simp only [Stream.tick, found, tickMessage, status]
    exact ⟨tells, rises, top, by simpa using no_end, by simp⟩

end Messages

/-- Only a press takes the panel back. -/
def Forward (s : System) (e : Event) (s' : System) : Prop :=
  match e with
  | .press => s'.panel.percent = 0
  | _ => s.panel.percent ≤ s'.panel.percent ∧ (s.panel.done = true → s'.panel.done = true)

section Step
variable {fl : Rounding} {s s' : System}

theorem only_one {α : Type} {x y : α} {k : ℕ} (found : [x][k]? = some y) : k = 0 ∧ y = x := by
  cases k with
  | zero => exact ⟨rfl, (Option.some.inj found).symm⟩
  | succ k => simp at found

theorem orElse_nonempty {a b : String} (filled : b ≠ "") : orElse a b ≠ "" := by
  unfold orElse
  split
  · exact filled
  · rename_i given
    exact given

theorem enabled_of_error {p : Panel} {message : String} (failed : p.error = some message)
    (filled : message ≠ "") : p.disabled = false := by
  simp [Panel.disabled, failed, filled]

theorem disabled_of_going {p : Panel} {id : ℕ} (own : p.jobId = some id) (going : p.done = false ∧ p.error = none) :
    p.disabled = true := by
  simp [Panel.disabled, own, going]

theorem coherent_press (coherent : Coherent fl s) (once : s.panel.jobId = none → s.requests = [])
    (taken : step fl s .press = some s') : Coherent fl s' ∧ Forward s .press s' := by
  obtain ⟨tracked, range, phase⟩ := coherent
  simp only [step] at taken
  split at taken
  · cases taken
  · rename_i enabled
    obtain rfl := Option.some.inj taken
    refine ⟨⟨tracked, by simp [Panel.start], ?_⟩, rfl⟩
    cases phase with
    | idle requests streams enabled complete =>
      exact .waiting .sent (by simp [requests]) streams ⟨rfl, rfl, rfl⟩ (by simp)
    | waiting request requests streams cleared =>
      cases own : s.panel.jobId with
      | none => simp [once own] at requests
      | some id => exact absurd (disabled_of_going own ⟨cleared.1, cleared.2.1⟩) enabled
    | watching st job requests streams own going => exact absurd (disabled_of_going own going) enabled

theorem coherent_server (coherent : Coherent fl s) {e : ServerEvent} (fresh : Fresh s.server e)
    (taken : step fl s (.server e) = some s') : Coherent fl s' ∧ Forward s (.server e) s' := by
  obtain ⟨tracked, range, phase⟩ := coherent
  obtain ⟨sv, moved, rfl⟩ := Option.map_eq_some_iff.mp taken
  obtain ⟨tracked', onward⟩ := tracked_step tracked fresh moved
  refine ⟨⟨tracked', range, ?_⟩, le_rfl, id⟩
  cases phase with
  | idle requests streams enabled complete =>
    refine .idle requests streams enabled ?_
    intro done
    obtain ⟨id, job, own, found, status⟩ := complete done
    obtain ⟨job', found', advances⟩ := onward id job found
    exact ⟨id, job', own, found', (advances.ended status) ▸ status⟩
  | waiting request requests streams cleared started =>
    refine .waiting request requests streams cleared ?_
    intro id same
    obtain ⟨job, found⟩ := started id same
    obtain ⟨job', found', -⟩ := onward id job found
    exact ⟨job', found'⟩
  | watching st job requests streams own going found wired =>
    obtain ⟨job', found', advances⟩ := onward st.jobID job found
    exact .watching st job' requests streams own going found' (wired_advances wired advances)

theorem waiting_of_request (phase : Phase fl s) {k : ℕ} {request : Request}
    (found : s.requests[k]? = some request) : k = 0 ∧ s.requests = [request] ∧ s.streams = [] ∧
      (s.panel.done = false ∧ s.panel.error = none ∧ s.panel.percent = 0) ∧
      ∀ id, request = .started id → ∃ job, find id s.server.jobs = some job := by
  cases phase with
  | idle requests => simp [requests] at found
  | waiting only requests streams cleared started =>
    rw [requests] at found
    obtain ⟨rfl, rfl⟩ := only_one found
    exact ⟨rfl, requests, streams, cleared, started⟩
  | watching st job requests => simp [requests] at found

theorem watching_of_stream (phase : Phase fl s) {k : ℕ} {st : Stream} (found : s.streams[k]? = some st) :
    k = 0 ∧ s.streams = [st] ∧ s.requests = [] ∧ s.panel.jobId = some st.jobID ∧
      (s.panel.done = false ∧ s.panel.error = none) ∧
      ∃ job, find st.jobID s.server.jobs = some job ∧ Wired fl s.panel.percent job st := by
  cases phase with
  | idle _ streams => simp [streams] at found
  | waiting _ _ streams => simp [streams] at found
  | watching only job requests streams own going listed wired =>
    rw [streams] at found
    obtain ⟨rfl, rfl⟩ := only_one found
    exact ⟨rfl, streams, requests, own, going, job, listed, wired⟩

theorem coherent_request (coherent : Coherent fl s) {e : Event} (orderly : Orderly s e)
    (about : ∃ k, (∃ now dates, e = .accept k now dates) ∨ (∃ message, e = .refuse k message) ∨
      e = .answer k ∨ ∃ message, e = .fetchFails k message)
    (taken : step fl s e = some s') : Coherent fl s' ∧ Forward s e s' := by
  obtain ⟨tracked, range, phase⟩ := coherent
  obtain ⟨k, ⟨now, dates, rfl⟩ | ⟨message, rfl⟩ | rfl | ⟨message, rfl⟩⟩ := about
  · simp only [step] at taken
    split at taken
    · rename_i sent
      obtain rfl := Option.some.inj taken
      obtain ⟨rfl, requests, streams, cleared, -⟩ := waiting_of_request phase sent
      refine ⟨⟨(tracked_load tracked orderly dates).1, range, ?_⟩, le_rfl, id⟩
      refine .waiting (.started now) (by simp [requests]) streams cleared ?_
      intro id same
      obtain rfl := Request.started.inj same
      exact ⟨newJob, find_upsert_self _ _ _⟩
    · cases taken
  · simp only [step] at taken
    split at taken
    · rename_i sent
      obtain rfl := Option.some.inj taken
      obtain ⟨rfl, requests, streams, cleared, -⟩ := waiting_of_request phase sent
      exact ⟨⟨tracked, range, .waiting (.refused message) (by simp [requests]) streams cleared (by simp)⟩,
        le_rfl, id⟩
    · cases taken
  · simp only [step] at taken
    split at taken
    · rename_i jobID here
      obtain rfl := Option.some.inj taken
      obtain ⟨rfl, requests, streams, cleared, started⟩ := waiting_of_request phase here
      obtain ⟨job, found⟩ := started jobID rfl
      refine ⟨⟨tracked, range, ?_⟩, le_rfl, id⟩
      refine .watching ⟨jobID, true, []⟩ job (by simp [requests]) (by simp [streams]) rfl ⟨cleared.1, cleared.2.1⟩ found ?_
      refine ⟨by simp, by simp, ?_, by simp, by simp⟩
      rw [cleared.2.2]
      exact pct_nonneg fl _ _
    · obtain rfl := Option.some.inj taken
      rename_i message here
      obtain ⟨rfl, requests, streams, cleared, -⟩ := waiting_of_request phase here
      have enabled : (s.panel.fail (orElse message _)).disabled = false :=
        enabled_of_error rfl (orElse_nonempty (by decide : "Failed to start" ≠ ""))
      exact ⟨⟨tracked, range, .idle (by simp [requests]) streams enabled (by simp [Panel.fail, cleared])⟩, le_rfl, id⟩
    · cases taken
  · simp only [step] at taken
    split at taken
    · rename_i request here
      obtain rfl := Option.some.inj taken
      obtain ⟨rfl, requests, streams, cleared, -⟩ := waiting_of_request phase here
      have enabled : (s.panel.fail (orElse message _)).disabled = false :=
        enabled_of_error rfl (orElse_nonempty (by decide : "Network error" ≠ ""))
      exact ⟨⟨tracked, range, .idle (by simp [requests]) streams enabled (by simp [Panel.fail, cleared])⟩, le_rfl, id⟩
    · cases taken

theorem coherent_tick (coherent : Coherent fl s) {k : ℕ} (taken : step fl s (.tick k) = some s') :
    Coherent fl s' ∧ Forward s (.tick k) s' := by
  obtain ⟨tracked, range, phase⟩ := coherent
  simp only [step] at taken
  split at taken
  · rename_i st here
    obtain ⟨rfl, streams, requests, own, going, job, found, wired⟩ := watching_of_stream phase here
    split at taken
    · rename_i serving
      obtain rfl := Option.some.inj taken
      obtain ⟨g, -, -, shown⟩ := tracked_job tracked found
      refine ⟨⟨tracked, range, ?_⟩, le_rfl, id⟩
      exact .watching (st.tick s.server.jobs) job requests (by simp [streams]) own going found
        (wired_tick wired shown found serving)
    · cases taken
  · cases taken

theorem coherent_hear (coherent : Coherent fl s) {k : ℕ} (taken : step fl s (.hear k) = some s') :
    Coherent fl s' ∧ Forward s (.hear k) s' := by
  obtain ⟨tracked, range, phase⟩ := coherent
  simp only [step] at taken
  split at taken
  · rename_i jobID serving message wire here
    obtain rfl := Option.some.inj taken
    obtain ⟨rfl, streams, requests, own, going, job, found, wired⟩ := watching_of_stream phase here
    obtain ⟨told, rising, top, before, ended⟩ := wired
    obtain ⟨g, -, -, shown⟩ := tracked_job tracked found
    obtain ⟨above, rest⟩ := List.pairwise_cons.mp rising
    have higher : s.panel.percent ≤ value fl message := above _ (by simp)
    have tells := told message (by simp)
    cases message with
    | error text => exact absurd tells id
    | done =>
      refine ⟨⟨tracked, by simp [hear], ?_⟩, higher, fun _ => rfl⟩
      exact .idle requests (by simp [hear, streams]) (by simp [hear, Panel.disabled])
        fun _ => ⟨jobID, job, own, found, tells⟩
    | progress evt =>
      have next : pct fl evt.current evt.total ≤ pct fl job.current job.total := behind_pct tells
      refine ⟨⟨tracked, ⟨pct_nonneg fl _ _, next.trans (pct_le fl _ _ (shows_within shown))⟩, ?_⟩, higher, id⟩
      refine .watching ⟨jobID, serving, wire⟩ job requests (by simp [hear, streams]) own going found ?_
      refine ⟨fun m inside => told m (List.mem_cons_of_mem _ inside), rest, next, ?_, ?_⟩
      · intro on inside
        exact before on (List.mem_cons_of_mem _ inside)
      · intro off
        obtain ⟨front, all⟩ := ended off
        cases front with
        | nil => simp at all
        | cons m front => exact ⟨front, (List.cons.inj all).2⟩
  · cases taken

theorem coherent_lose (coherent : Coherent fl s) {k : ℕ} (taken : step fl s (.lose k) = some s') :
    Coherent fl s' ∧ Forward s (.lose k) s' := by
  obtain ⟨tracked, range, phase⟩ := coherent
  simp only [step] at taken
  split at taken
  · rename_i st here
    obtain rfl := Option.some.inj taken
    obtain ⟨rfl, streams, requests, own, going, -⟩ := watching_of_stream phase here
    have enabled := enabled_of_error (p := s.panel.lost) rfl (by decide)
    exact ⟨⟨tracked, range, .idle requests (by simp [streams]) enabled (by simp [Panel.lost, going])⟩, le_rfl, id⟩
  · cases taken

theorem coherent_step (coherent : Coherent fl s) {e : Event} (orderly : Orderly s e)
    (taken : step fl s e = some s') : Coherent fl s' ∧ Forward s e s' := by
  cases e with
  | press => exact coherent_press coherent orderly taken
  | accept k now dates => exact coherent_request coherent orderly ⟨k, .inl ⟨now, dates, rfl⟩⟩ taken
  | refuse k message => exact coherent_request coherent orderly ⟨k, .inr (.inl ⟨message, rfl⟩)⟩ taken
  | answer k => exact coherent_request coherent orderly ⟨k, .inr (.inr (.inl rfl))⟩ taken
  | fetchFails k message => exact coherent_request coherent orderly ⟨k, .inr (.inr (.inr ⟨message, rfl⟩))⟩ taken
  | server e => exact coherent_server coherent orderly taken
  | tick k => exact coherent_tick coherent taken
  | hear k => exact coherent_hear coherent taken
  | lose k => exact coherent_lose coherent taken

end Step

section Run
variable {fl : Rounding} {s : System} {events : List Event}

theorem coherent_start (fl : Rounding) : Coherent fl start := by
  refine ⟨⟨List.nodup_nil, by simp [start], by simp [start]⟩, by simp [start, Panel.initial], ?_⟩
  exact .idle rfl rfl rfl (by simp [start, Panel.initial])

theorem coherent_run (orderly : Guarded (step fl) Orderly start events)
    (reach : run (step fl) start events = some s) : Coherent fl s :=
  invariant_run (Coherent fl) Orderly
    (fun _ _ _ coherent fits taken => (coherent_step coherent fits taken).1) (coherent_start fl) orderly reach

structure Truthful (fl : Rounding) (s : System) : Prop where
  one_job : s.requests.length + s.streams.length ≤ 1
  own_job : ∀ st ∈ s.streams, s.panel.jobId = some st.jobID
  not_ahead : ∀ st ∈ s.streams, ∃ job, find st.jobID s.server.jobs = some job ∧
    s.panel.percent ≤ pct fl job.current job.total
  complete : s.panel.done = true → ∃ g ∈ s.server.loaders, s.panel.jobId = some g.jobID ∧ g.stage = .finished
  disabled : s.panel.disabled = true → s.requests ≠ [] ∨ s.streams ≠ []
  no_failed_job : ∀ id job, find id s.server.jobs = some job → job.status ≠ .error
  no_error_sent : ∀ st ∈ s.streams, ∀ text, Message.error text ∉ st.wire

theorem truthful_of_coherent (coherent : Coherent fl s) : Truthful fl s := by
  obtain ⟨tracked, range, phase⟩ := coherent
  have never : ∀ id job, find id s.server.jobs = some job → job.status ≠ .error := by
    intro id job found
    obtain ⟨g, -, -, shown⟩ := tracked_job tracked found
    exact shows_status shown
  cases phase with
  | idle requests streams enabled complete =>
    refine ⟨by simp [requests, streams], by simp [streams], by simp [streams], ?_, by simp [enabled], never,
      by simp [streams]⟩
    intro done
    obtain ⟨id, job, own, found, status⟩ := complete done
    obtain ⟨g, member, rfl, shown⟩ := tracked_job tracked found
    refine ⟨g, member, own, ?_⟩
    by_contra unfinished
    simp [shown.status, unfinished] at status
  | waiting request requests streams cleared =>
    exact ⟨by simp [requests, streams], by simp [streams], by simp [streams], by simp [cleared],
      fun _ => .inl (by simp [requests]), never, by simp [streams]⟩
  | watching st job requests streams own going found wired =>
    have only : ∀ {st'}, st' ∈ s.streams → st' = st := by
      intro st' inside
      rw [streams] at inside
      exact List.mem_singleton.mp inside
    refine ⟨by simp [requests, streams], ?_, ?_, by simp [going], fun _ => .inr (by simp [streams]), never, ?_⟩
    · intro st' inside
      exact only inside ▸ own
    · intro st' inside
      exact only inside ▸ ⟨job, found, wired.top⟩
    · intro st' inside text sent
      obtain rfl := only inside
      exact wired.told _ sent

/-- Whatever the interleaving, "Complete!" is shown of a load that came to its end, the
    percentage is not ahead of the job, and no load fails: "Job failed" is a lost connection. -/
theorem panel_truthful (orderly : Guarded (step fl) Orderly start events)
    (reach : run (step fl) start events = some s) : Truthful fl s :=
  truthful_of_coherent (coherent_run orderly reach)

/-- Between two presses the percentage never goes back, nor does "Complete!". -/
theorem panel_forward (orderly : Guarded (step fl) Orderly start events) :
    EachStep (step fl) Forward start events :=
  eachStep_of_invariant (Coherent fl)
    (fun _ _ _ coherent fits taken => (coherent_step coherent fits taken).1)
    (fun _ _ _ coherent fits taken => (coherent_step coherent fits taken).2) (coherent_start fl) orderly

end Run

section Completion
variable {fl : Rounding} {s : System}

def Own : Event → Prop
  | .server (.run _ _) | .tick _ | .hear _ => True
  | _ => False

def Completed (jobID : ℕ) (s : System) : Prop :=
  s.panel.done = true ∧ s.panel.percent = 100 ∧ s.panel.jobId = some jobID

def CanComplete (fl : Rounding) (jobID : ℕ) (s : System) : Prop :=
  ∃ events s', (∀ e ∈ events, Own e) ∧ run (step fl) s events = some s' ∧ Completed jobID s'

theorem completes_cons {jobID : ℕ} {e : Event} {t : System} (own : Own e) (first : step fl s e = some t)
    (later : CanComplete fl jobID t) : CanComplete fl jobID s := by
  obtain ⟨events, s', each, reach, completed⟩ := later
  refine ⟨e :: events, s', ?_, by simp [first, reach], completed⟩
  intro f inside
  rcases List.mem_cons.mp inside with rfl | rest
  · exact own
  · exact each f rest

theorem completes_ended (coherent : Coherent fl s) {st : Stream} (streams : s.streams = [st])
    (ended : st.serving = false) : CanComplete fl st.jobID s := by
  obtain ⟨jobID, serving, wire⟩ := st
  induction wire generalizing s with
  | nil =>
    obtain ⟨-, -, -, -, -, job, -, wired⟩ := watching_of_stream coherent.phase (k := 0) (by rw [streams]; rfl)
    obtain ⟨front, all⟩ := wired.ended ended
    simp at all
  | cons message wire ih =>
    obtain ⟨-, -, -, own, -, job, -, wired⟩ := watching_of_stream coherent.phase (k := 0) (by rw [streams]; rfl)
    have tells := wired.told message (by simp)
    cases message with
    | error text => exact absurd tells id
    | done =>
      refine ⟨[.hear 0], { s with panel := (hear fl s.panel .done).1, streams := [] }, by simp [Own], ?_, rfl, rfl, own⟩
      simp [step, streams, hear]
    | progress evt =>
      have first : step fl s (.hear 0) = some { s with
          panel := (hear fl s.panel (.progress evt)).1
          streams := [⟨jobID, serving, wire⟩] } := by
        simp [step, streams, hear]
      exact completes_cons (e := .hear 0) trivial first (ih (coherent_hear coherent first).1 rfl ended)

theorem completes_done (coherent : Coherent fl s) {st : Stream} (streams : s.streams = [st])
    {job : HistoryJob} (found : find st.jobID s.server.jobs = some job) (done : job.status = .done) :
    CanComplete fl st.jobID s := by
  cases serving : st.serving with
  | false => exact completes_ended coherent streams serving
  | true =>
    have first : step fl s (.tick 0) = some { s with streams := [st.tick s.server.jobs] } := by
      simp [step, streams, serving]
    have ended : (st.tick s.server.jobs).serving = false := by
      simp [Stream.tick, found, tickMessage, done]
    have later : CanComplete fl (st.tick s.server.jobs).jobID _ :=
      completes_ended (coherent_tick coherent first).1 rfl ended
    exact completes_cons (e := .tick 0) trivial first later

def Loader.left (g : Loader) : ℕ :=
  match g.stage with
  | .day i => 2 * (g.dates.length - i) + 1
  | .downloading i | .inserting i => 2 * (g.dates.length - i)
  | .finished => 0

theorem loader_goes_on {g : Loader} (unfinished : g.stage ≠ .finished) (bound : g.begun ≤ g.dates.length) :
    ∃ e stage update, g.step e = some (stage, update) ∧ ({ g with stage := stage } : Loader).left < g.left := by
  obtain ⟨jobID, dates, at_stage⟩ := g
  cases at_stage with
  | day i =>
    cases date : dates[i]? with
    | some d =>
      obtain ⟨inside, -⟩ := List.getElem?_eq_some_iff.mp date
      refine ⟨.download, .downloading i, onProgress ⟨"download", i + 1, dates.length, d⟩, ?_, ?_⟩
      · simp only [Loader.step, background, date]
      · simp [Loader.left]
    | none =>
      refine ⟨.finish, .finished, finish none, ?_, ?_⟩
      · simp only [Loader.step, runResult, date, Option.map_some]
      · simp [Loader.left]
  | downloading i | inserting i =>
    simp only [Loader.begun] at bound
    refine ⟨.skip, .day (i + 1), id, rfl, ?_⟩
    simp only [Loader.left]
    omega
  | finished => exact absurd rfl unfinished

theorem completes_loading (left : ℕ) (coherent : Coherent fl s) {st : Stream} (streams : s.streams = [st])
    {g : Loader} {j : ℕ} (at_j : s.server.loaders[j]? = some g) (same : g.jobID = st.jobID)
    (fewer : g.left ≤ left) : CanComplete fl st.jobID s := by
  induction left generalizing s g with
  | zero =>
    obtain ⟨job, found, shown⟩ := coherent.tracked.loads g (List.mem_of_getElem? at_j)
    have ended : g.stage = .finished := by
      by_contra unfinished
      obtain ⟨_, _, _, _, less⟩ := loader_goes_on unfinished shown.bound
      omega
    exact completes_done coherent streams (same ▸ found) (by simp [shown.status, ended])
  | succ left ih =>
    obtain ⟨job, found, shown⟩ := coherent.tracked.loads g (List.mem_of_getElem? at_j)
    by_cases ended : g.stage = .finished
    · exact completes_done coherent streams (same ▸ found) (by simp [shown.status, ended])
    · obtain ⟨e, stage, update, moved, less⟩ := loader_goes_on ended shown.bound
      obtain ⟨inside, -⟩ := List.getElem?_eq_some_iff.mp at_j
      have first : step fl s (.server (.run j e)) = some { s with server :=
          ⟨upsert g.jobID (fun _ => update job) s.server.jobs,
            s.server.loaders.set j { g with stage := stage }⟩ } := by
        simp [step, Server.step, at_j, moved, found]
      have fresh : Orderly s (.server (.run j e)) := trivial
      have later := ih (coherent_step coherent fresh first).1 streams
        (List.getElem?_set_self inside) same (by omega)
      exact completes_cons (e := .server (.run j e)) trivial first later

/-- From every state in which the panel watches a load, the load can come to its end and
    the panel to "Complete!", by its own steps, the handler's and those of the browser. -/
theorem watched_load_completes {events : List Event} (orderly : Guarded (step fl) Orderly start events)
    (reach : run (step fl) start events = some s) {st : Stream} (watched : st ∈ s.streams) :
    CanComplete fl st.jobID s := by
  have coherent := coherent_run orderly reach
  obtain ⟨k, at_k⟩ := List.mem_iff_getElem?.mp watched
  obtain ⟨-, streams, -, -, -, job, found, -⟩ := watching_of_stream coherent.phase at_k
  obtain ⟨g, member, same, -⟩ := tracked_job coherent.tracked found
  obtain ⟨j, at_j⟩ := List.mem_iff_getElem?.mp member
  exact completes_loading g.left coherent streams at_j same le_rfl

end Completion

def exactly : Rounding := ⟨id, monotone_id, fun _ _ => rfl⟩

def oneDay : List Event :=
  [.press, .accept 0 1000 ["2024-05-01"], .answer 0, .server (.run 0 .download), .tick 0, .hear 0]

theorem one_day_orderly : Guarded (step exactly) Orderly start oneDay := by decide +kernel

theorem one_day_reached : ∃ s st, run (step exactly) start oneDay = some s ∧ st ∈ s.streams ∧ st.jobID = 1000 := by
  have streams : (run (step exactly) start oneDay).map (fun s => s.streams.map Stream.jobID) = some [1000] := by
    decide +kernel
  obtain ⟨s, reach, one⟩ := Option.map_eq_some_iff.mp streams
  obtain ⟨st, watched, same⟩ := List.mem_map.mp (one ▸ List.mem_singleton_self 1000 : 1000 ∈ s.streams.map Stream.jobID)
  exact ⟨s, st, reach, watched, same⟩

theorem one_day_truthful : ∃ s, run (step exactly) start oneDay = some s ∧ Truthful exactly s := by
  obtain ⟨s, _, reach, -⟩ := one_day_reached
  exact ⟨s, reach, panel_truthful one_day_orderly reach⟩

theorem one_day_forward : EachStep (step exactly) Forward start oneDay := panel_forward one_day_orderly

theorem one_day_completes : ∃ s, run (step exactly) start oneDay = some s ∧ CanComplete exactly 1000 s := by
  obtain ⟨s, st, reach, watched, same⟩ := one_day_reached
  exact ⟨s, reach, same ▸ watched_load_completes one_day_orderly reach watched⟩

end HistoryJobs
