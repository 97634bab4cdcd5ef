import Mathlib.Data.Rat.Floor
import Mathlib.Tactic.Linarith
import Mathlib.Tactic.Positivity
import Procluster.Library.EventRuns
import Procluster.Library.KeyedFold

/-!
A history load as the admin panel follows it: the table jobs with the goroutines of
handleHistoryLoad, the event streams of handleHistoryProgress, and AdminPanel with its
requests and EventSources. Messages are taken as parsed; heartbeats are comments that an
EventSource skips. A closed EventSource goes with its handler.
-/
namespace HistoryJobs
open KeyedFold EventRuns

/-- float64 rounding: monotone, and integers up to 2^53 stay. -/
structure Rounding where
  round : ℚ → ℚ
  mono : Monotone round
  exact_nat : ∀ n : ℕ, n ≤ 2 ^ 53 → round n = n

structure ProgressEvent where
  label : String
  current : ℕ
  total : ℕ
  detail : String

inductive Status where
  | running
  | done
  | error
  deriving DecidableEq

structure HistoryJob where
  status : Status
  error : String
  detail : String
  label : String
  current : ℕ
  total : ℕ

def newJob : HistoryJob := ⟨.running, "", "", "", 0, 0⟩

def onProgress (evt : ProgressEvent) (job : HistoryJob) : HistoryJob :=
  { job with label := evt.label, current := evt.current, total := evt.total, detail := evt.detail }

def finish (err : Option String) (job : HistoryJob) : HistoryJob :=
  match err with
  | some e => { job with status := .error, error := e }
  | none => { job with status := .done }

/-- Where Pipeline.Run stands: before the i-th date, in its download and parse, or in its insert. -/
inductive Stage where
  | day (i : ℕ)
  | downloading (i : ℕ)
  | inserting (i : ℕ)
  | finished
  deriving DecidableEq

structure Loader where
  jobID : ℕ
  dates : List String
  stage : Stage

/-- What Run returns, once it does; ctx is ctx.Err(), none while the context is not done. -/
def runResult (ctx : Option String) (dates : List String) : Stage → Option (Option String)
  | .day i =>
    match dates[i]?, ctx with
    | none, _ => some none
    | some _, some err => some (some err)
    | some _, none => none
  | _ => none

def background : Option String := none

/-- skip is a download, parse or insert that failed. -/
inductive RunEvent where
  | download
  | skip
  | parsed (trades : ℕ)
  | insert (cells : ℕ)
  | finish

def Loader.step (g : Loader) : RunEvent → Option (Stage × (HistoryJob → HistoryJob))
  | .download =>
    match g.stage with
    | .day i =>
      match g.dates[i]?, background with
      | some date, none => some (.downloading i, onProgress ⟨"download", i + 1, g.dates.length, date⟩)
      | _, _ => none
    | _ => none
  | .skip =>
    match g.stage with
    | .downloading i | .inserting i => some (.day (i + 1), id)
    | _ => none
  | .parsed trades =>
    match g.stage with
    | .downloading i =>
      some (.inserting i, onProgress ⟨"parsed", i + 1, g.dates.length, toString trades ++ " trades"⟩)
    | _ => none
  | .insert cells =>
    match g.stage with
    | .inserting i =>
      some (.day (i + 1), onProgress ⟨"insert", i + 1, g.dates.length, toString cells ++ " cells"⟩)
    | _ => none
  | .finish => (runResult background g.dates g.stage).map fun err => (.finished, HistoryJobs.finish err)

/-- The table jobs; the key of "job_%d" is the time in nanoseconds. -/
structure Server where
  jobs : List (ℕ × HistoryJob)
  loaders : List Loader

inductive ServerEvent where
  | load (now : ℕ) (dates : List String)
  | run (j : ℕ) (e : RunEvent)

def Server.load (sv : Server) (now : ℕ) (dates : List String) : Server where
  jobs := upsert now (fun _ => newJob) sv.jobs
  loaders := sv.loaders ++ [⟨now, dates, .day 0⟩]

def Server.step (sv : Server) : ServerEvent → Option Server
  | .load now dates => some (sv.load now dates)
  | .run j e =>
    match sv.loaders[j]? with
    | none => none
    | some g =>
      match g.step e, find g.jobID sv.jobs with
      | some (stage, update), some job => some
        ⟨upsert g.jobID (fun _ => update job) sv.jobs, sv.loaders.set j { g with stage := stage }⟩
      -- A job that had left the table would be a nil pointer.
      | _, _ => none

inductive Message where
  | progress (evt : ProgressEvent)
  | done
  | error (text : String)

/-- An open EventSource with its handler, and the messages that it has not dispatched. -/
structure Stream where
  jobID : ℕ
  serving : Bool
  wire : List Message

/-- What a tick of handleHistoryProgress sends, and whether the handler goes on. -/
def tickMessage : Option HistoryJob → Message × Bool
  | none => (.error "job not found", false)
  | some job =>
    match job.status with
    | .done => (.done, false)
    | .error => (.error job.error, false)
    | .running => (.progress ⟨job.label, job.current, job.total, job.detail⟩, true)

def Stream.tick (st : Stream) (jobs : List (ℕ × HistoryJob)) : Stream :=
  let (message, goesOn) := tickMessage (find st.jobID jobs)
  { st with wire := st.wire ++ [message], serving := goesOn }

structure Panel where
  jobId : Option ℕ
  progress : String
  detail : String
  percent : ℤ
  done : Bool
  error : Option String

def Panel.initial : Panel := ⟨none, "", "", 0, false, none⟩

/-- a || b of two strings -/
def orElse (a b : String) : String := if a = "" then b else a

def Panel.disabled (p : Panel) : Bool := p.jobId.isSome && !p.done && (p.error.getD "" == "")

def Panel.start (p : Panel) : Panel :=
  { p with done := false, error := none, progress := "Starting...", detail := "", percent := 0 }

/-- An answer that is not ok, or a fetch that throws. -/
def Panel.fail (p : Panel) (message : String) : Panel := { p with error := some message, progress := "" }

section Panel
variable (fl : Rounding)

/-- Math.round((current / total) * 100) in float64 -/
def pct (current total : ℕ) : ℤ :=
  if 0 < fl.round total then
    ⌊fl.round (fl.round (fl.round current / fl.round total) * 100) + 1 / 2⌋
  else 0

/-- The listeners of an EventSource; the second part says whether they close it. -/
def hear (p : Panel) : Message → Panel × Bool
  | .progress evt =>
    ({ p with
      percent := pct fl evt.current evt.total
      progress := orElse evt.label "processing" ++ " " ++ toString evt.current ++ "/" ++ toString evt.total
      detail := evt.detail }, false)
  | .done => ({ p with done := true, progress := "Complete!", percent := 100 }, true)
  | .error text => ({ p with error := some (orElse text "Job failed") }, true)

/-- The event that EventSource fires for a lost connection has no data. -/
def Panel.lost (p : Panel) : Panel := { p with error := some "Job failed" }

inductive Request where
  | sent
  | started (jobID : ℕ)
  | refused (message : String)

structure System where
  server : Server
  panel : Panel
  requests : List Request
  streams : List Stream

def start : System := ⟨⟨[], []⟩, .initial, [], []⟩

/-- fetchFails takes the k-th request at any stage; server events are other admins' loads
    and the steps of all loads. -/
inductive Event where
  | press
  | accept (k : ℕ) (now : ℕ) (dates : List String)
  | refuse (k : ℕ) (message : String)
  | answer (k : ℕ)
  | fetchFails (k : ℕ) (message : String)
  | server (e : ServerEvent)
  | tick (k : ℕ)
  | hear (k : ℕ)
  | lose (k : ℕ)

def step (s : System) : Event → Option System
  | .press =>
    if s.panel.disabled then none
    else some { s with panel := s.panel.start, requests := s.requests ++ [.sent] }
  | .accept k now dates =>
    match s.requests[k]? with
    | some .sent => some { s with
      server := s.server.load now dates
      requests := s.requests.set k (.started now) }
    | _ => none
  | .refuse k message =>
    match s.requests[k]? with
    | some .sent => some { s with requests := s.requests.set k (.refused message) }
    | _ => none
  | .answer k =>
    match s.requests[k]? with
    | some (.started jobID) => some { s with
      panel := { s.panel with jobId := some jobID }
      requests := s.requests.eraseIdx k
      streams := s.streams ++ [⟨jobID, true, []⟩] }
    | some (.refused message) => some { s with
      panel := s.panel.fail (orElse message "Failed to start")
      requests := s.requests.eraseIdx k }
    | _ => none
  | .fetchFails k message =>
    match s.requests[k]? with
    | some _ => some { s with
      panel := s.panel.fail (orElse message "Network error")
      requests := s.requests.eraseIdx k }
    | none => none
  | .server e => (s.server.step e).map fun sv => { s with server := sv }
  | .tick k =>
    match s.streams[k]? with
    | some st => if st.serving then some { s with streams := s.streams.set k (st.tick s.server.jobs) } else none
    | none => none
  | .hear k =>
    match s.streams[k]? with
    | some ⟨jobID, serving, message :: wire⟩ =>
      let (panel, closes) := hear fl s.panel message
      some { s with
        panel := panel
        streams := if closes then s.streams.eraseIdx k else s.streams.set k ⟨jobID, serving, wire⟩ }
    | _ => none
  | .lose k =>
    match s.streams[k]? with
    | some _ => some { s with panel := s.panel.lost, streams := s.streams.eraseIdx k }
    | none => none

end Panel

/-- In one nanosecond at most one load starts. -/
def Fresh (sv : Server) : ServerEvent → Prop
  | .load now _ => now ∉ keys sv.jobs
  | .run _ _ => True

/-- Until the first load is answered the button stays enabled: it is not pressed twice. -/
def Orderly (s : System) : Event → Prop
  | .press => s.panel.jobId = none → s.requests = []
  | .accept _ now dates => Fresh s.server (.load now dates)
  | .server e => Fresh s.server e
  | _ => True

instance (sv : Server) : ∀ e, Decidable (Fresh sv e)
  | .load now _ => inferInstanceAs (Decidable (now ∉ keys sv.jobs))
  | .run .. => isTrue trivial

instance (s : System) : ∀ e, Decidable (Orderly s e)
  | .press => inferInstanceAs (Decidable (s.panel.jobId = none → s.requests = []))
  | .accept _ now dates => inferInstanceAs (Decidable (Fresh s.server (.load now dates)))
  | .server e => inferInstanceAs (Decidable (Fresh s.server e))
  | .refuse .. | .answer _ | .fetchFails .. | .tick _ | .hear _ | .lose _ => isTrue trivial

section Percent
variable (fl : Rounding)

theorem round_zero : fl.round 0 = 0 := by
  simpa using fl.exact_nat 0 (by norm_num)

theorem round_nonneg {x : ℚ} (nonneg : 0 ≤ x) : 0 ≤ fl.round x := by
  have above := fl.mono nonneg
  rwa [round_zero] at above

theorem pct_zero (current : ℕ) : pct fl current 0 = 0 := by
  simp [pct, round_zero]

theorem pct_nonneg (current total : ℕ) : 0 ≤ pct fl current total := by
  unfold pct
  split
  · rename_i some_total
    have quotient := div_nonneg (round_nonneg fl (Nat.cast_nonneg current)) some_total.le
    have product := round_nonneg fl (mul_nonneg (round_nonneg fl quotient) (by norm_num : (0 : ℚ) ≤ 100))
    exact Int.floor_nonneg.mpr (by linarith)
  · exact le_rfl

theorem pct_mono {current later : ℕ} (total : ℕ) (up : current ≤ later) :
    pct fl current total ≤ pct fl later total := by
  unfold pct
  split
  · rename_i some_total
    have counts := fl.mono (Nat.cast_le.mpr up : (current : ℚ) ≤ later)
    have quotients := fl.mono (div_le_div_of_nonneg_right counts some_total.le)
    have products := fl.mono (mul_le_mul_of_nonneg_right quotients (by norm_num : (0 : ℚ) ≤ 100))
    exact Int.floor_le_floor (by linarith)
  · exact le_rfl

theorem pct_le (current total : ℕ) (within : current ≤ total) : pct fl current total ≤ 100 := by
  apply (pct_mono fl total within).trans
  unfold pct
  split
  · rename_i some_total
    have one : fl.round 1 = 1 := by simpa using fl.exact_nat 1 (by norm_num)
    have hundred : fl.round 100 = 100 := by simpa using fl.exact_nat 100 (by norm_num)
    rw [div_self some_total.ne', one, one_mul, hundred]
    norm_num
  · norm_num

end Percent

def Loader.begun (g : Loader) : ℕ :=
  match g.stage with
  | .day i => i
  | .downloading i | .inserting i => i + 1
  | .finished => g.dates.length

/-- The job shows where its load stands, and is done with its end. -/
structure Shows (g : Loader) (job : HistoryJob) : Prop where
  current : job.current = g.begun
  total : job.total = if g.begun = 0 then 0 else g.dates.length
  bound : g.begun ≤ g.dates.length
  status : job.status = if g.stage = .finished then .done else .running

structure Advances (job later : HistoryJob) : Prop where
  current : job.current ≤ later.current
  total : later.total = job.total ∨ job.current = 0 ∧ job.total = 0
  ended : job.status = .done → later = job

theorem Advances.refl (job : HistoryJob) : Advances job job := ⟨le_rfl, .inl rfl, fun _ => rfl⟩

/-- A load moves its job on, and never back. -/
theorem loader_step {g : Loader} {job : HistoryJob} {e : RunEvent} {stage : Stage}
    {update : HistoryJob → HistoryJob} (shown : Shows g job) (taken : g.step e = some (stage, update)) :
    Shows { g with stage := stage } (update job) ∧ Advances job (update job) := by
  obtain ⟨jobID, dates, at_stage⟩ := g
  obtain ⟨current, total, bound, status⟩ := shown
  cases e with
  | download =>
    cases at_stage with
    | day i =>
      simp only [Loader.step, background] at taken
      cases date : dates[i]? with
      | none => simp [date] at taken
      | some d =>
        obtain ⟨inside, -⟩ := List.getElem?_eq_some_iff.mp date
        simp only [date, Option.some.injEq, Prod.mk.injEq] at taken
        obtain ⟨rfl, rfl⟩ := taken
        simp only [Loader.begun, reduceCtorEq, ↓reduceIte] at current total status
        refine ⟨⟨rfl, by simp [onProgress, Loader.begun], inside, by simpa [onProgress] using status⟩, ?_⟩
        refine ⟨by simp [onProgress]; omega, ?_, by simp [status]⟩
        by_cases first : i = 0
        · right
          simp [current, total, first]
        · left
          simp [onProgress, total, first]
    | downloading i | inserting i | finished => simp [Loader.step] at taken
  | skip =>
    cases at_stage with
    | downloading i | inserting i =>
      simp only [Loader.step, Option.some.injEq, Prod.mk.injEq] at taken
      obtain ⟨rfl, rfl⟩ := taken
      exact ⟨⟨current, total, bound, by simpa using status⟩, .refl _⟩
    | day i | finished => simp [Loader.step] at taken
  | parsed trades =>
    cases at_stage with
    | downloading i =>
      simp only [Loader.step, Option.some.injEq, Prod.mk.injEq] at taken
      obtain ⟨rfl, rfl⟩ := taken
      simp only [Loader.begun, reduceCtorEq, ↓reduceIte, Nat.add_eq_zero_iff, one_ne_zero, and_false] at current total status
      refine ⟨⟨rfl, by simp [onProgress, Loader.begun], bound, by simpa [onProgress] using status⟩, ?_⟩
      exact ⟨by simp [onProgress, current], .inl (by simp [onProgress, total]), by simp [status]⟩
    | day i | inserting i | finished => simp [Loader.step] at taken
  | insert cells =>
    cases at_stage with
    | inserting i =>
      simp only [Loader.step, Option.some.injEq, Prod.mk.injEq] at taken
      obtain ⟨rfl, rfl⟩ := taken
      simp only [Loader.begun, reduceCtorEq, ↓reduceIte, Nat.add_eq_zero_iff, one_ne_zero, and_false] at current total status
      refine ⟨⟨rfl, by simp [onProgress, Loader.begun], bound, by simpa [onProgress] using status⟩, ?_⟩
      exact ⟨by simp [onProgress, current], .inl (by simp [onProgress, total]), by simp [status]⟩
    | day i | downloading i | finished => simp [Loader.step] at taken
  | finish =>
    cases at_stage with
    | day i =>
      simp only [Loader.step, runResult, background] at taken
      cases date : dates[i]? with
      | some d => simp [date] at taken
      | none =>
        simp only [date, Option.map_some, Option.some.injEq, Prod.mk.injEq] at taken
        obtain ⟨rfl, rfl⟩ := taken
        have past := List.getElem?_eq_none_iff.mp date
        simp only [Loader.begun, reduceCtorEq, ↓reduceIte] at current total bound status
        have last : i = dates.length := by omega
        subst last
        exact ⟨⟨current, total, le_rfl, by simp [finish]⟩, ⟨le_rfl, .inl rfl, by simp [status]⟩⟩
    | downloading i | inserting i | finished => simp [Loader.step, runResult] at taken

structure Tracked (sv : Server) : Prop where
  distinct : (sv.loaders.map Loader.jobID).Nodup
  listed : ∀ id, id ∈ keys sv.jobs ↔ id ∈ sv.loaders.map Loader.jobID
  loads : ∀ g ∈ sv.loaders, ∃ job, find g.jobID sv.jobs = some job ∧ Shows g job

def Onward (sv later : Server) : Prop :=
  ∀ id job, find id sv.jobs = some job → ∃ job', find id later.jobs = some job' ∧ Advances job job'

theorem tracked_load {sv : Server} (tracked : Tracked sv) {now : ℕ} (fresh : now ∉ keys sv.jobs)
    (dates : List String) : Tracked (sv.load now dates) ∧ Onward sv (sv.load now dates) := by
  obtain ⟨distinct, listed, loads⟩ := tracked
  have others : ∀ id, id ≠ now → find id (sv.load now dates).jobs = find id sv.jobs := by
    intro id other
    exact find_upsert_other _ _ other
  constructor
  · constructor
    · rw [Server.load, List.map_append, List.nodup_append]
      refine ⟨distinct, by simp, ?_⟩
      intro a inside b new same
      obtain rfl : b = now := by simpa using new
      exact fresh ((listed _).mpr (same ▸ inside))
    · intro id
      rw [Server.load, keys_upsert, if_neg fresh, List.map_append, List.mem_append, List.mem_append, listed id]
      simp
    · intro g member
      rcases List.mem_append.mp member with earlier | new
      · obtain ⟨job, found, shown⟩ := loads g earlier
        have other : g.jobID ≠ now := by
          intro same
          exact fresh (same ▸ (listed _).mpr (List.mem_map_of_mem earlier))
        exact ⟨job, (others _ other).trans found, shown⟩
      · obtain rfl := List.mem_singleton.mp new
        exact ⟨newJob, find_upsert_self _ _ _, rfl, rfl, Nat.zero_le _, rfl⟩
  · intro id job found
    have other : id ≠ now := by
      intro same
      exact fresh ((mem_keys_iff _ _).mpr (by rw [← same, found]; rfl))
    exact ⟨job, (others id other).trans found, .refl job⟩

theorem tracked_run {sv sv' : Server} (tracked : Tracked sv) {j : ℕ} {e : RunEvent}
    (taken : sv.step (.run j e) = some sv') : Tracked sv' ∧ Onward sv sv' := by
  obtain ⟨distinct, listed, loads⟩ := tracked
  simp only [Server.step] at taken
  cases at_j : sv.loaders[j]? with
  | none => simp [at_j] at taken
  | some g =>
    have member := List.mem_of_getElem? at_j
    obtain ⟨job, found, shown⟩ := loads g member
    cases moved : g.step e with
    | none => simp [at_j, moved] at taken
    | some next =>
      obtain ⟨stage, update⟩ := next
      simp only [at_j, moved, found, Option.some.injEq] at taken
      subst taken
      obtain ⟨shows_next, advances⟩ := loader_step shown moved
      have same_ids : (sv.loaders.set j { g with stage := stage }).map Loader.jobID =
          sv.loaders.map Loader.jobID := by
        obtain ⟨within, own⟩ := List.getElem?_eq_some_iff.mp at_j
        apply List.ext_getElem?
        intro k
        rw [List.map_set, List.getElem?_set]
        split
        · rename_i same
          subst same
          simp [own, within]
        · rfl
      have own_key : g.jobID ∈ keys sv.jobs := (listed _).mpr (List.mem_map_of_mem member)
      refine ⟨⟨by rw [same_ids]; exact distinct, ?_, ?_⟩, ?_⟩
      · intro id
        rw [same_ids, keys_upsert, if_pos own_key]
        exact listed id
      · intro h inside
        obtain ⟨k, at_k⟩ := List.mem_iff_getElem?.mp inside
        by_cases same : j = k
        · subst same
          obtain ⟨within, -⟩ := List.getElem?_eq_some_iff.mp at_j
          rw [List.getElem?_set_self within, Option.some.injEq] at at_k
          subst at_k
          exact ⟨update job, find_upsert_self _ _ _, shows_next⟩
        · rw [List.getElem?_set_ne same] at at_k
          have other_member := List.mem_of_getElem? at_k
          have other : h.jobID ≠ g.jobID := by
            intro equal
            have one : h = g := List.inj_on_of_nodup_map distinct other_member member equal
            obtain ⟨within, -⟩ := List.getElem?_eq_some_iff.mp at_j
            exact same ((List.getElem?_inj within distinct.of_map).mp (by rw [at_j, at_k, one]))
          obtain ⟨own, found_own, shows_own⟩ := loads h other_member
          exact ⟨own, (find_upsert_other _ _ other).trans found_own, shows_own⟩
      · intro id old found_old
        by_cases same : id = g.jobID
        · subst same
          obtain rfl : job = old := Option.some.inj (found.symm.trans found_old)
          exact ⟨update job, find_upsert_self _ _ _, advances⟩
        · exact ⟨old, (find_upsert_other _ _ same).trans found_old, .refl old⟩

theorem tracked_step {sv sv' : Server} (tracked : Tracked sv) {e : ServerEvent} (fresh : Fresh sv e)
    (taken : sv.step e = some sv') : Tracked sv' ∧ Onward sv sv' := by
  cases e with
  | load now dates =>
    obtain rfl : sv.load now dates = sv' := Option.some.inj taken
    exact tracked_load tracked fresh dates
  | run j e => exact tracked_run tracked taken

end HistoryJobs
