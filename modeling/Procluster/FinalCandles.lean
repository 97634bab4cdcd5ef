import Procluster.ChartSeries

/-!
What a chart shows of the close messages of its subscription. Updates and closes go
through one buffer slot; a record of the closes says which of them a flush has followed.
A second close of a candle replaces the first.
-/
namespace FinalCandles
open EventRuns TailWindow ChartSeries
open MapCandle (ChartCandle)

structure Tracked where
  chart : Chart
  fresh : List SubCandle
  settled : List SubCandle

inductive Event where
  | update (c : ChartCandle)
  | close (c : ChartCandle)
  | flush

def otherTimes (closes : List SubCandle) (c : SubCandle) : List SubCandle :=
  closes.filter fun d => d.timestamp ≠ c.timestamp

def Tracked.message (s : Tracked) (c : ChartCandle) : SubCandle := ⟨s.chart.applied.sub, c⟩

section Run
variable (limits : TierLimits)

def step (s : Tracked) : Event → Option Tracked
  | .update c => some { s with chart := s.chart.receive (s.message c) }
  | .close c => some
      { chart := s.chart.receive (s.message c)
        fresh := s.message c :: otherTimes s.fresh (s.message c)
        settled := otherTimes s.settled (s.message c) }
  | .flush => some
      { chart := s.chart.flush limits
        fresh := []
        settled := s.fresh ++ s.settled }

def opened (settings : Settings) (r : Response) : Tracked where
  chart := Chart.loaded limits { mount settings with loads := [] }
    ⟨settings.sub, settings.interval, true⟩ (some r)
  fresh := []
  settled := []

def Tracked.maxCandles (s : Tracked) : ℕ := getMaxCandlesForInterval limits s.chart.applied.interval

/-- Each close that a flush has followed is the entry of its time, in the kept window. -/
def FinalsShown (s : Tracked) : Prop :=
  ∀ c ∈ s.settled, InWindow (s.maxCandles limits) (times s.chart.candles) c.timestamp →
    s.chart.candles.find? (fun d => d.timestamp = c.timestamp) = some c

end Run

def timesWith (candles : List SubCandle) (b : SubCandle) : List ℤ :=
  if ∀ last ∈ candles.getLast?, last.timestamp < b.timestamp then times candles ++ [b.timestamp]
  else times candles

def WrittenAt (candles : List SubCandle) (b c : SubCandle) : Prop :=
  c.timestamp = b.timestamp ∧ ∀ last ∈ candles.getLast?, last.timestamp ≤ b.timestamp

/-- Within the window, the flush writes no other candle at the time of a close, and a
    close since the last flush that is not written now is in the series already. -/
structure FlushKeeps (maxCandles : ℕ) (s : Tracked) (b : SubCandle) : Prop where
  same : ∀ c ∈ s.fresh ++ s.settled,
    InWindow maxCandles (timesWith s.chart.candles b) c.timestamp →
    WrittenAt s.chart.candles b c → c = b
  present : ∀ c ∈ s.fresh, InWindow maxCandles (timesWith s.chart.candles b) c.timestamp →
    ¬ WrittenAt s.chart.candles b c → c ∈ s.chart.candles

def KeepsFinals (limits : TierLimits) (s : Tracked) : Event → Prop
  | .flush => ∀ b ∈ s.chart.buffer, FlushKeeps (s.maxCandles limits) s b
  | _ => True

theorem unique_at {candles : List SubCandle} (ascending : (times candles).Pairwise (· < ·))
    {c d : SubCandle} (hc : c ∈ candles) (hd : d ∈ candles) (same : d.timestamp = c.timestamp) :
    d = c := by
  have distinct : (candles.map SubCandle.timestamp).Nodup := ascending.imp fun h => h.ne
  exact List.inj_on_of_nodup_map distinct hd hc same

theorem entry_iff {candles : List SubCandle} (ascending : (times candles).Pairwise (· < ·))
    (c : SubCandle) :
    candles.find? (fun d => d.timestamp = c.timestamp) = some c ↔ c ∈ candles := by
  constructor
  · exact List.mem_of_find?_eq_some
  · intro member
    cases found : candles.find? fun d => d.timestamp = c.timestamp with
    | none =>
      have absent := List.find?_eq_none.mp found c member
      simp at absent
    | some d =>
      have atTime : d.timestamp = c.timestamp := by simpa using List.find?_some found
      rw [unique_at ascending member (List.mem_of_find?_eq_some found) atTime]

theorem timesWith_newer {prev : List SubCandle} {b : SubCandle}
    (newer : ∀ last ∈ prev.getLast?, last.timestamp < b.timestamp) :
    timesWith prev b = times (prev ++ [b]) := by
  rw [timesWith, if_pos newer, times, times, List.map_append, List.map_singleton]

theorem timesWith_notNewer {prev : List SubCandle} {b last : SubCandle}
    (isLast : last ∈ prev.getLast?) (notNewer : b.timestamp ≤ last.timestamp) :
    timesWith prev b = times prev :=
  if_neg fun newer => absurd (newer last isLast) notNewer.not_gt

theorem flushed_window_iff {n : ℕ} {prev : List SubCandle} (ascending : (times prev).Pairwise (· < ·))
    (b : SubCandle) (t : ℤ) :
    InWindow n (times (applyCandle n prev b)) t ↔ InWindow n (timesWith prev b) t := by
  rcases applyCandle_cases n prev b with ⟨newer, result⟩ | ⟨front, last, rfl, same, result⟩ |
    ⟨last, isLast, older, result⟩
  · rw [result, timesWith_newer newer, times, map_keepLast]
    exact inWindow_keepLast_iff (append_ascending ascending newer) n t
  · rw [result, timesWith_notNewer (by simp) same.le]
    simp only [times, List.map_append, List.map_singleton, same]
  · rw [result, timesWith_notNewer isLast older.le]

theorem kept_entry {n : ℕ} {prev : List SubCandle} (ascending : (times prev).Pairwise (· < ·))
    {b c : SubCandle} (member : c ∈ prev) (inside : InWindow n (timesWith prev b) c.timestamp)
    (other : ¬ WrittenAt prev b c) : c ∈ applyCandle n prev b := by
  rcases applyCandle_cases n prev b with ⟨newer, result⟩ | ⟨front, last, rfl, same, result⟩ |
    ⟨_, _, _, result⟩
  · rw [timesWith_newer newer] at inside
    have sorted := append_ascending ascending newer
    have present : c ∈ prev ++ [b] := List.mem_append_left _ member
    have kept := (mem_keepLast_iff sorted n c.timestamp).mpr ⟨List.mem_map_of_mem present, inside⟩
    rw [times, ← map_keepLast] at kept
    obtain ⟨d, hd, atTime⟩ := List.mem_map.mp kept
    rw [result, ← unique_at sorted present ((keepLast_sublist n _).subset hd) atTime]
    exact hd
  · rw [result]
    rcases List.mem_append.mp member with early | atEnd
    · exact List.mem_append_left _ early
    · obtain rfl := List.mem_singleton.mp atEnd
      exact absurd ⟨same.symm, by simp [same]⟩ other
  · rw [result]
    exact member

/- A flush can only push a candle out of the window. -/
theorem window_before {n : ℕ} {prev : List SubCandle} {b : SubCandle} {t : ℤ}
    (inside : InWindow n (timesWith prev b) t) : InWindow n (times prev) t := by
  unfold timesWith at inside
  split at inside
  · rcases inside with all | counted
    · exact .inl all
    · rw [List.filter_append, List.length_append] at counted
      exact .inr (by omega)
  · exact inside

/-- What the record of closes needs: an ascending series that shows them, and no close
    since the last flush without a buffered candle. -/
structure Tracking (limits : TierLimits) (s : Tracked) : Prop where
  ascending : (times s.chart.candles).Pairwise (· < ·)
  shown : FinalsShown limits s
  idle : s.chart.buffer = none → s.fresh = []

variable {limits : TierLimits}

theorem receive_own (s : Tracked) (c : ChartCandle) :
    s.chart.receive (s.message c) = { s.chart with buffer := some (s.message c) } := if_pos rfl

theorem flush_nothing {s : Chart} (empty : s.buffer = none) : s.flush limits = s := by
  rw [Chart.flush, empty]

theorem flush_buffered {s : Chart} {b : SubCandle} (buffered : s.buffer = some b) :
    s.flush limits = { s with
      buffer := none
      candles := applyCandle (getMaxCandlesForInterval limits s.applied.interval) s.candles b } := by
  rw [Chart.flush, buffered]

theorem tracking_opened (limits : TierLimits) (settings : Settings) (r : Response) :
    Tracking limits (opened limits settings r) := by
  constructor
  · exact (unmixed_keepLast (s := mount settings) _ (forSub_unmixed r settings.sub).1
      (forSub_unmixed r settings.sub).2).ascending
  · intro c hc
    cases hc
  · intro _
    rfl

section Flush
variable {s : Tracked} {b : SubCandle} (tracking : Tracking limits s)
  (buffered : s.chart.buffer = some b)
include tracking buffered

theorem flush_shows (keeps : FlushKeeps (s.maxCandles limits) s b) :
    FinalsShown limits ⟨s.chart.flush limits, [], s.fresh ++ s.settled⟩ := by
  rw [flush_buffered buffered]
  intro c hc inside
  have window := (flushed_window_iff tracking.ascending b c.timestamp).mp inside
  refine (entry_iff (applyCandle_ascending _ tracking.ascending b) c).mpr ?_
  by_cases isWritten : WrittenAt s.chart.candles b c
  · rw [keeps.same c hc window isWritten]
    exact written _ isWritten.2
  · have present : c ∈ s.chart.candles := by
      rcases List.mem_append.mp hc with new | old
      · exact keeps.present c new window isWritten
      · exact List.mem_of_find?_eq_some (tracking.shown c old (window_before window))
    exact kept_entry tracking.ascending present window isWritten

theorem keeps_of_shown
    (shown : FinalsShown limits ⟨s.chart.flush limits, [], s.fresh ++ s.settled⟩) :
    FlushKeeps (s.maxCandles limits) s b := by
  rw [flush_buffered buffered] at shown
  have present : ∀ c ∈ s.fresh ++ s.settled,
      InWindow (s.maxCandles limits) (timesWith s.chart.candles b) c.timestamp →
      c ∈ applyCandle (s.maxCandles limits) s.chart.candles b := by
    intro c hc window
    exact List.mem_of_find?_eq_some
      (shown c hc ((flushed_window_iff tracking.ascending b c.timestamp).mpr window))
  constructor
  · intro c hc window isWritten
    exact unique_at (applyCandle_ascending _ tracking.ascending b)
      (written _ isWritten.2) (present c hc window) isWritten.1
  · intro c hc window notWritten
    have member := present c (List.mem_append_left _ hc) window
    rcases mem_applyCandle member with old | rfl
    · exact old
    · obtain ⟨last, isLast, older⟩ : ∃ last ∈ s.chart.candles.getLast?,
          c.timestamp < last.timestamp := by
        by_contra none
        refine notWritten ⟨rfl, ?_⟩
        intro last isLast
        exact not_lt.mp fun older => none ⟨last, isLast, older⟩
      rwa [applyCandle_older isLast older] at member

end Flush

theorem step_tracking (s : Tracked) (e : Event) (s' : Tracked) (tracking : Tracking limits s)
    (keeps : KeepsFinals limits s e) (done : step limits s e = some s') : Tracking limits s' := by
  cases e with
  | update c =>
    obtain rfl := Option.some.inj done
    rw [receive_own]
    exact ⟨tracking.ascending, tracking.shown, by simp⟩
  | close c =>
    obtain rfl := Option.some.inj done
    rw [receive_own]
    refine ⟨tracking.ascending, ?_, by simp⟩
    intro d hd inside
    exact tracking.shown d (List.mem_filter.mp hd).1 inside
  | flush =>
    obtain rfl := Option.some.inj done
    cases buffered : s.chart.buffer with
    | none =>
      rw [flush_nothing buffered, tracking.idle buffered]
      exact ⟨tracking.ascending, tracking.shown, fun _ => rfl⟩
    | some b =>
      refine ⟨?_, flush_shows tracking buffered (keeps b buffered), fun _ => rfl⟩
      rw [flush_buffered buffered]
      exact applyCandle_ascending _ tracking.ascending b

theorem step_loses (s : Tracked) (e : Event) (s' : Tracked) (tracking : Tracking limits s)
    (loses : ¬ KeepsFinals limits s e) (done : step limits s e = some s') :
    ¬ FinalsShown limits s' := by
  cases e with
  | update c => exact absurd trivial loses
  | close c => exact absurd trivial loses
  | flush =>
    obtain rfl := Option.some.inj done
    simp only [KeepsFinals, not_forall] at loses
    obtain ⟨b, buffered, fails⟩ := loses
    exact fun shown => fails (keeps_of_shown tracking buffered shown)

/-- Along a run every close is shown once a flush has followed it exactly when each
    flush keeps the closes. -/
theorem finals_shown_iff (limits : TierLimits) (settings : Settings) (r : Response)
    (es : List Event) :
    Always (step limits) (FinalsShown limits) (opened limits settings r) es ↔
      Guarded (step limits) (KeepsFinals limits) (opened limits settings r) es :=
  always_iff_guarded (Tracking limits) (fun _ tracking => tracking.shown) step_tracking step_loses
    (tracking_opened limits settings r) es

def candleAt (timestamp : ℤ) (volume : ℚ) : ChartCandle :=
  ⟨timestamp, 100, 100, 100, 100, volume, volume, 100, [], 100, 100⟩

/-- The update of the next candle takes the slot before the flush: the entry of the
    closed candle keeps what an earlier update said. -/
theorem next_update_drops_close :
    ¬ Always (step guestLimits) (FinalsShown guestLimits) (opened guestLimits btcFutures ⟨[], .nil⟩)
      [.update (candleAt 60000 1), .flush, .close (candleAt 60000 2), .update (candleAt 120000 1),
        .flush] := by
  intro always
  obtain ⟨s, reached, candles, settled, size⟩ : ∃ s, run (step guestLimits)
      (opened guestLimits btcFutures ⟨[], .nil⟩)
      [.update (candleAt 60000 1), .flush, .close (candleAt 60000 2), .update (candleAt 120000 1),
        .flush] = some s ∧
      s.chart.candles =
        [⟨btcFutures.sub, candleAt 60000 1⟩, ⟨btcFutures.sub, candleAt 120000 1⟩] ∧
      s.settled = [⟨btcFutures.sub, candleAt 60000 2⟩] ∧ s.maxCandles guestLimits = 1440 :=
    ⟨_, rfl, rfl, rfl, rfl⟩
  have shown := always_final always reached ⟨btcFutures.sub, candleAt 60000 2⟩ (by simp [settled])
  rw [candles, size] at shown
  have entry := shown (.inr (by decide))
  simp [SubCandle.timestamp, candleAt] at entry

end FinalCandles
