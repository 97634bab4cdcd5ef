import Procluster.Library.TailWindow
import Procluster.MapCandle
import Procluster.WsClient

/-!
One chart of App.tsx: its settings, its candles and what writes them. React runs the
effects of a settings change after it, all together. Requests in flight stay in the
state until their response arrives, in any order. The lists of trades and orders and
the connection status are left out.
-/
namespace ChartSeries
open EventRuns TailWindow
open MapCandle (ChartCandle)
open WsClient (Sub)

structure TierLimits where
  maxHistory : ℕ
  historyDays1m : Option ℕ
  historyDays5m : Option ℕ
  historyDays15m : Option ℕ
  historyDays30m : Option ℕ
  historyDays1h : Option ℕ
  historyDays4h : Option ℕ

def getMaxCandlesForInterval (limits : TierLimits) (interval : String) : ℕ :=
  match interval with
  | "1m" => limits.historyDays1m.getD 1 * 24 * 60
  | "5m" => limits.historyDays5m.getD 3 * 24 * 12
  | "15m" => limits.historyDays15m.getD 7 * 24 * 4
  | "30m" => limits.historyDays30m.getD 14 * 24 * 2
  | "1h" => limits.historyDays1h.getD 30 * 24
  | "4h" => limits.historyDays4h.getD 90 * 6
  | _ => if limits.maxHistory = 0 then 700 else limits.maxHistory

inductive MarketType where
  | spot
  | futures
  deriving DecidableEq

structure Settings where
  symbol : String
  marketType : MarketType
  interval : String
  compressionMultiplier : ℕ
  deriving DecidableEq

def isBtc (symbol : String) : Prop := ['B', 'T', 'C'] <:+: symbol.toList.map Char.toUpper

instance (symbol : String) : Decidable (isBtc symbol) := inferInstanceAs (Decidable (_ <:+: _))

def Settings.sub (st : Settings) : Sub :=
  let isFutures := st.marketType = .futures
  let baseCompression := if isBtc st.symbol then (if isFutures then 25 else 500) else 25
  { symbol := st.symbol
    market := if isFutures then "futures" else "spot"
    tf := st.interval
    compression := baseCompression * st.compressionMultiplier }

example : Settings.sub ⟨"BTCUSDT", .spot, "1m", 2⟩ = ⟨"BTCUSDT", "spot", "1m", 1000⟩ := by decide

structure SubCandle where
  sub : Sub
  candle : ChartCandle

def SubCandle.timestamp (c : SubCandle) : ℤ := c.candle.timestamp

def times (candles : List SubCandle) : List ℤ := candles.map SubCandle.timestamp

structure Response where
  candles : List ChartCandle
  ascending : (candles.map ChartCandle.timestamp).Pairwise (· < ·)

def Response.forSub (r : Response) (sub : Sub) : List SubCandle := r.candles.map fun c => ⟨sub, c⟩

structure Load where
  sub : Sub
  interval : String
  active : Bool

structure LoadMore where
  sub : Sub
  interval : String
  before : ℤ

/-- A chart, with the settings its effects last ran for: those of the load effect, of
    the subscription, of intervalRef and of the scroll handler. -/
structure Chart where
  settings : Settings
  applied : Settings
  candles : List SubCandle
  buffer : Option SubCandle
  loads : List Load
  loadMores : List LoadMore
  isLoadingMore : Bool

def Chart.load (s : Chart) : Chart :=
  { s with
    applied := s.settings
    loads := s.loads.map (fun l => { l with active := false }) ++
      [⟨s.settings.sub, s.settings.interval, true⟩] }

def mount (settings : Settings) : Chart := Chart.load ⟨settings, settings, [], none, [], [], false⟩

def Chart.loaded (limits : TierLimits) (s : Chart) (l : Load) (result : Option Response) : Chart :=
  if l.active then
    { s with candles := match result with
      | some r => keepLast (getMaxCandlesForInterval limits l.interval) (r.forSub l.sub)
      | none => [] }
  else s

def Chart.handleLoadMore (s : Chart) (oldestCandleTime : ℤ) : Chart :=
  if s.isLoadingMore then s
  else { s with
    isLoadingMore := true
    loadMores := s.loadMores ++ [⟨s.applied.sub, s.applied.interval, oldestCandleTime / 1000⟩] }

def Chart.loadedMore (limits : TierLimits) (s : Chart) (l : LoadMore) (result : Option Response) :
    Chart :=
  { s with
    isLoadingMore := false
    candles := match result with
      | some r => keepLast (getMaxCandlesForInterval limits l.interval) (r.forSub l.sub ++ s.candles)
      | none => s.candles }

/-- onUpdate and onClose: the callbacks are those of the subscription effect. -/
def Chart.receive (s : Chart) (c : SubCandle) : Chart :=
  if c.sub = s.applied.sub then { s with buffer := some c } else s

/-- The flush writes a candle behind the last one or in its place. -/
def applyCandle (maxCandles : ℕ) (prev : List SubCandle) (candle : SubCandle) : List SubCandle :=
  match prev.getLast? with
  | none => [candle]
  | some last =>
    if last.timestamp < candle.timestamp then keepLast maxCandles (prev ++ [candle])
    else if candle.timestamp = last.timestamp then prev.dropLast ++ [candle]
    else prev

def Chart.flush (limits : TierLimits) (s : Chart) : Chart :=
  match s.buffer with
  | none => s
  | some candle =>
    { s with
      buffer := none
      candles := applyCandle (getMaxCandlesForInterval limits s.applied.interval) s.candles candle }

inductive Event where
  | change (settings : Settings)
  | effects
  | loaded (i : ℕ) (result : Option Response)
  | loadMore (oldestCandleTime : ℤ)
  | loadedMore (i : ℕ) (result : Option Response)
  | message (c : SubCandle)
  | flush

def step (limits : TierLimits) (s : Chart) : Event → Option Chart
  | .change settings => some { s with settings := settings }
  | .effects => some (if s.settings = s.applied then s else s.load)
  | .loaded i result => s.loads[i]?.map fun l =>
      Chart.loaded limits { s with loads := s.loads.eraseIdx i } l result
  | .loadMore oldestCandleTime => some (s.handleLoadMore oldestCandleTime)
  | .loadedMore i result => s.loadMores[i]?.map fun l =>
      Chart.loadedMore limits { s with loadMores := s.loadMores.eraseIdx i } l result
  | .message c => some (s.receive c)
  | .flush => some (s.flush limits)

/-- Only candles of the selected subscription, in strictly ascending order. -/
structure Unmixed (s : Chart) : Prop where
  own : ∀ c ∈ s.candles, c.sub = s.settings.sub
  ascending : (times s.candles).Pairwise (· < ·)

/-- The settings change over an empty chart; no load ends between a change and its
    effects; what a scroll-back response adds is of the selected subscription and older
    than the series; and a buffered candle of another subscription is older than the last
    candle, so that the flush drops it. -/
def KeepsUnmixed (limits : TierLimits) (s : Chart) : Event → Prop
  | .change settings => s.candles = [] ∨ settings.sub = s.settings.sub
  | .loaded i (some r) => ∀ l ∈ s.loads[i]?, l.active →
      r.candles = [] ∨ s.applied.sub = s.settings.sub
  | .loadedMore i (some r) => ∀ l ∈ s.loadMores[i]?,
      ∀ c ∈ keptBefore (getMaxCandlesForInterval limits l.interval) (r.forSub l.sub) s.candles,
        l.sub = s.settings.sub ∧ ∀ first ∈ s.candles.head?, c.timestamp < first.timestamp
  | .flush => ∀ c ∈ s.buffer,
      c.sub = s.settings.sub ∨ ∃ last ∈ s.candles.getLast?, c.timestamp < last.timestamp
  | _ => True

structure Guards (s : Chart) : Prop where
  unmixed : Unmixed s
  active : ∀ l ∈ s.loads, l.active → l.sub = s.applied.sub

theorem guards_mount (settings : Settings) : Guards (mount settings) := by
  constructor
  · exact ⟨by simp [mount, Chart.load], by simp [mount, Chart.load, times]⟩
  · simp [mount, Chart.load]

theorem unmixed_nil {s : Chart} (empty : s.candles = []) : Unmixed s := by
  constructor <;> simp [empty, times]

theorem unmixed_keepLast {s : Chart} {candles : List SubCandle} (n : ℕ)
    (own : ∀ c ∈ candles, c.sub = s.settings.sub) (ascending : (times candles).Pairwise (· < ·)) :
    Unmixed { s with candles := keepLast n candles } := by
  constructor
  · intro c hc
    exact own c ((keepLast_sublist n candles).subset hc)
  · rw [times, map_keepLast]
    exact ascending.sublist (keepLast_sublist n _)

theorem last_time_above {candles : List SubCandle} (ascending : (times candles).Pairwise (· < ·))
    {last : SubCandle} (isLast : candles.getLast? = some last) :
    ∀ c ∈ candles, c.timestamp ≤ last.timestamp := by
  obtain ⟨front, rfl⟩ := List.getLast?_eq_some_iff.mp isLast
  rw [times, List.map_append, List.pairwise_append] at ascending
  intro c hc
  rcases List.mem_append.mp hc with early | same
  · exact (ascending.2.2 _ (List.mem_map_of_mem early) _ (by simp)).le
  · rw [List.mem_singleton.mp same]

/-- A newer candle goes behind the last one, one of the last time replaces it, and an
    older one is dropped. -/
theorem applyCandle_cases (n : ℕ) (prev : List SubCandle) (candle : SubCandle) :
    ((∀ last ∈ prev.getLast?, last.timestamp < candle.timestamp) ∧
      applyCandle n prev candle = keepLast n (prev ++ [candle])) ∨
    (∃ front last, prev = front ++ [last] ∧ candle.timestamp = last.timestamp ∧
      applyCandle n prev candle = front ++ [candle]) ∨
    (∃ last ∈ prev.getLast?, candle.timestamp < last.timestamp ∧
      applyCandle n prev candle = prev) := by
  unfold applyCandle
  cases isLast : prev.getLast? with
  | none =>
    obtain rfl := List.getLast?_eq_none_iff.mp isLast
    exact .inl ⟨by simp, (keepLast_singleton n candle).symm⟩
  | some last =>
    rcases lt_trichotomy last.timestamp candle.timestamp with newer | same | older
    · exact .inl ⟨by simpa using newer, if_pos newer⟩
    · obtain ⟨front, rfl⟩ := List.getLast?_eq_some_iff.mp isLast
      refine .inr (.inl ⟨front, last, rfl, same.symm, ?_⟩)
      simp only [same, lt_irrefl, ↓reduceIte, List.dropLast_concat]
    · refine .inr (.inr ⟨last, rfl, older, ?_⟩)
      simp only [not_lt.mpr older.le, older.ne, ↓reduceIte]

theorem append_ascending {prev : List SubCandle} (ascending : (times prev).Pairwise (· < ·))
    {candle : SubCandle} (newer : ∀ last ∈ prev.getLast?, last.timestamp < candle.timestamp) :
    (times (prev ++ [candle])).Pairwise (· < ·) := by
  rw [times, List.map_append]
  refine List.pairwise_append.mpr ⟨ascending, by simp, ?_⟩
  intro a ha b hb
  obtain ⟨c, hc, rfl⟩ := List.mem_map.mp ha
  rw [List.map_singleton, List.mem_singleton] at hb
  have isLast := List.getLast?_eq_some_getLast (List.ne_nil_of_mem hc)
  rw [hb]
  exact lt_of_le_of_lt (last_time_above ascending isLast c hc) (newer _ isLast)

theorem applyCandle_ascending (n : ℕ) {prev : List SubCandle}
    (ascending : (times prev).Pairwise (· < ·)) (candle : SubCandle) :
    (times (applyCandle n prev candle)).Pairwise (· < ·) := by
  rcases applyCandle_cases n prev candle with ⟨newer, result⟩ | ⟨front, last, rfl, same, result⟩ |
    ⟨_, _, _, result⟩
  · rw [result, times, map_keepLast]
    exact (append_ascending ascending newer).sublist (keepLast_sublist n _)
  · rw [result]
    simpa only [times, List.map_append, List.map_singleton, same] using ascending
  · rw [result]
    exact ascending

theorem mem_applyCandle {n : ℕ} {prev : List SubCandle} {candle c : SubCandle}
    (member : c ∈ applyCandle n prev candle) : c ∈ prev ∨ c = candle := by
  rcases applyCandle_cases n prev candle with ⟨_, result⟩ | ⟨front, last, rfl, _, result⟩ |
    ⟨_, _, _, result⟩
  · rw [result] at member
    simpa using (keepLast_sublist n _).subset member
  · rw [result] at member
    rcases List.mem_append.mp member with early | same
    · exact .inl (List.mem_append_left _ early)
    · exact .inr (List.mem_singleton.mp same)
  · exact .inl (result ▸ member)

theorem written (n : ℕ) {prev : List SubCandle} {candle : SubCandle}
    (notOlder : ∀ last ∈ prev.getLast?, last.timestamp ≤ candle.timestamp) :
    candle ∈ applyCandle n prev candle := by
  rcases applyCandle_cases n prev candle with ⟨_, result⟩ | ⟨front, last, rfl, _, result⟩ |
    ⟨last, isLast, older, _⟩
  · rw [result]
    exact last_kept n prev candle
  · rw [result]
    simp
  · exact absurd (notOlder last isLast) (not_le.mpr older)

theorem applyCandle_older {n : ℕ} {prev : List SubCandle} {candle last : SubCandle}
    (isLast : last ∈ prev.getLast?) (older : candle.timestamp < last.timestamp) :
    applyCandle n prev candle = prev := by
  rcases applyCandle_cases n prev candle with ⟨newer, _⟩ | ⟨front, other, rfl, same, _⟩ |
    ⟨_, _, _, result⟩
  · exact absurd (newer last isLast) older.not_gt
  · have unique : other = last := by simpa using isLast
    exact absurd same (unique ▸ older.ne)
  · exact result

theorem forSub_unmixed (r : Response) (sub : Sub) :
    (∀ c ∈ r.forSub sub, c.sub = sub) ∧ (times (r.forSub sub)).Pairwise (· < ·) := by
  constructor
  · intro c hc
    obtain ⟨_, _, rfl⟩ := List.mem_map.mp hc
    rfl
  · rw [times, Response.forSub, List.map_map]
    exact r.ascending

theorem loadedMore_unmixed {s : Chart} {n : ℕ} {sub : Sub} (r : Response) (unmixed : Unmixed s)
    (fits : ∀ c ∈ keptBefore n (r.forSub sub) s.candles,
      sub = s.settings.sub ∧ ∀ first ∈ s.candles.head?, c.timestamp < first.timestamp) :
    Unmixed { s with candles := keepLast n (r.forSub sub ++ s.candles) } := by
  obtain ⟨own, ascending⟩ := forSub_unmixed r sub
  have front := keptBefore_sublist n (r.forSub sub) s.candles
  have rest := keepLast_sublist n s.candles
  rw [keepLast_append]
  constructor
  · intro c hc
    rcases List.mem_append.mp hc with new | old
    · exact (own c (front.subset new)).trans (fits c new).1
    · exact unmixed.own c (rest.subset old)
  · rw [times, List.map_append]
    refine List.pairwise_append.mpr
      ⟨ascending.sublist (front.map _), unmixed.ascending.sublist (rest.map _), ?_⟩
    intro a ha b hb
    obtain ⟨c, hc, rfl⟩ := List.mem_map.mp ha
    obtain ⟨d, hd, rfl⟩ := List.mem_map.mp hb
    have inside := rest.subset hd
    obtain ⟨first, others, split⟩ := List.exists_cons_of_ne_nil (List.ne_nil_of_mem inside)
    have below := (fits c hc).2 first (by simp [split])
    have sorted := unmixed.ascending
    rw [split] at inside sorted
    rcases List.mem_cons.mp inside with rfl | later
    · exact below
    · exact below.trans (List.rel_of_pairwise_cons sorted (List.mem_map_of_mem later))

theorem loadedMore_mixed {s : Chart} {n : ℕ} {sub : Sub} (r : Response) {c : SubCandle}
    (kept : c ∈ keptBefore n (r.forSub sub) s.candles)
    (misfits : ¬ (sub = s.settings.sub ∧ ∀ first ∈ s.candles.head?, c.timestamp < first.timestamp)) :
    ¬ Unmixed { s with candles := keepLast n (r.forSub sub ++ s.candles) } := by
  intro unmixed
  apply misfits
  have own := (forSub_unmixed r sub).1 c ((keptBefore_sublist n _ _).subset kept)
  rw [keepLast_append, keepLast_of_kept kept] at unmixed
  refine ⟨own.symm.trans (unmixed.own c (List.mem_append_left _ kept)), ?_⟩
  intro first isFirst
  obtain ⟨others, split⟩ := List.head?_eq_some_iff.mp (Option.mem_def.mp isFirst)
  have sorted := unmixed.ascending
  simp only [times, List.map_append, List.pairwise_append, split] at sorted
  rw [split] at kept
  exact sorted.2.2 _ (List.mem_map_of_mem kept) _ (by simp)

variable {limits : TierLimits}

theorem load_guards {s : Chart} (guards : Guards s) : Guards s.load := by
  refine ⟨⟨guards.unmixed.own, guards.unmixed.ascending⟩, ?_⟩
  intro l hl active
  simp only [Chart.load, List.mem_append, List.mem_map, List.mem_singleton] at hl
  rcases hl with ⟨_, _, rfl⟩ | rfl
  · cases active
  · rfl

theorem loaded_guards {s : Chart} {l : Load} {loads : List Load} (guards : Guards s)
    (mine : l ∈ s.loads) (fewer : loads ⊆ s.loads) {result : Option Response}
    (fits : ∀ r ∈ result, l.active → r.candles = [] ∨ s.applied.sub = s.settings.sub) :
    Guards (Chart.loaded limits { s with loads := loads } l result) := by
  have active := fun k hk => guards.active k (fewer hk)
  unfold Chart.loaded
  split
  · rename_i isActive
    refine ⟨?_, active⟩
    cases result with
    | none => exact unmixed_nil rfl
    | some r =>
      obtain ⟨own, ascending⟩ := forSub_unmixed r l.sub
      refine unmixed_keepLast _ ?_ ascending
      rcases fits r rfl isActive with empty | same
      · simp [Response.forSub, empty]
      · intro c hc
        exact (own c hc).trans ((guards.active l mine isActive).trans same)
  · exact ⟨⟨guards.unmixed.own, guards.unmixed.ascending⟩, active⟩

theorem loaded_mixed {s : Chart} {l : Load} {loads : List Load} {r : Response} (guards : Guards s)
    (mine : l ∈ s.loads) (active : l.active) (some_candle : r.candles ≠ [])
    (other : s.applied.sub ≠ s.settings.sub) :
    ¬ Unmixed (Chart.loaded limits { s with loads := loads } l (some r)) := by
  intro unmixed
  apply other
  rw [Chart.loaded, if_pos active] at unmixed
  have last := last_kept (getMaxCandlesForInterval limits l.interval) (r.forSub l.sub).dropLast
    ⟨l.sub, r.candles.getLast some_candle⟩
  rw [Response.forSub, ← List.map_dropLast, ← List.map_singleton (f := fun c => (⟨l.sub, c⟩ : SubCandle)),
    ← List.map_append, List.dropLast_append_getLast] at last
  exact (guards.active l mine active).symm.trans (unmixed.own _ last)

theorem flush_guards {s : Chart} (guards : Guards s)
    (fits : ∀ c ∈ s.buffer,
      c.sub = s.settings.sub ∨ ∃ last ∈ s.candles.getLast?, c.timestamp < last.timestamp) :
    Guards (s.flush limits) := by
  unfold Chart.flush
  split
  · exact guards
  · rename_i candle buffered
    refine ⟨⟨?_, applyCandle_ascending _ guards.unmixed.ascending candle⟩, guards.active⟩
    rcases fits candle buffered with own | ⟨last, isLast, older⟩
    · intro c hc
      rcases mem_applyCandle hc with old | rfl
      · exact guards.unmixed.own c old
      · exact own
    · simp only [applyCandle_older isLast older]
      exact guards.unmixed.own

theorem step_guards (s : Chart) (e : Event) (s' : Chart) (guards : Guards s)
    (fits : KeepsUnmixed limits s e) (done : step limits s e = some s') : Guards s' := by
  cases e with
  | change settings =>
    obtain rfl := Option.some.inj done
    refine ⟨?_, guards.active⟩
    rcases fits with empty | same
    · exact unmixed_nil empty
    · exact ⟨fun c hc => (guards.unmixed.own c hc).trans same.symm, guards.unmixed.ascending⟩
  | effects =>
    obtain rfl := Option.some.inj done
    split
    · exact guards
    · exact load_guards guards
  | loaded i result =>
    obtain ⟨l, mine, rfl⟩ := Option.map_eq_some_iff.mp done
    refine loaded_guards guards (List.mem_of_getElem? mine) (List.eraseIdx_sublist _ _).subset ?_
    intro r hr
    rw [Option.mem_def.mp hr] at fits
    exact fits l mine
  | loadMore oldestCandleTime =>
    obtain rfl := Option.some.inj done
    unfold Chart.handleLoadMore
    split
    · exact guards
    · exact ⟨⟨guards.unmixed.own, guards.unmixed.ascending⟩, guards.active⟩
  | loadedMore i result =>
    obtain ⟨l, mine, rfl⟩ := Option.map_eq_some_iff.mp done
    cases result with
    | none => exact ⟨⟨guards.unmixed.own, guards.unmixed.ascending⟩, guards.active⟩
    | some r =>
      have unmixed := loadedMore_unmixed r guards.unmixed (fits l mine)
      exact ⟨⟨unmixed.own, unmixed.ascending⟩, guards.active⟩
  | message c =>
    obtain rfl := Option.some.inj done
    unfold Chart.receive
    split
    · exact ⟨⟨guards.unmixed.own, guards.unmixed.ascending⟩, guards.active⟩
    · exact guards
  | flush =>
    obtain rfl := Option.some.inj done
    exact flush_guards guards fits

theorem step_mixes (s : Chart) (e : Event) (s' : Chart) (guards : Guards s)
    (misfits : ¬ KeepsUnmixed limits s e) (done : step limits s e = some s') : ¬ Unmixed s' := by
  cases e with
  | change settings =>
    obtain rfl := Option.some.inj done
    obtain ⟨some_candle, other⟩ := not_or.mp misfits
    obtain ⟨c, hc⟩ := List.exists_mem_of_ne_nil _ some_candle
    intro unmixed
    exact other ((unmixed.own c hc).symm.trans (guards.unmixed.own c hc))
  | effects => exact absurd trivial misfits
  | loaded i result =>
    obtain ⟨l, mine, rfl⟩ := Option.map_eq_some_iff.mp done
    cases result with
    | none => exact absurd trivial misfits
    | some r =>
      simp only [KeepsUnmixed, mine, Option.mem_some_iff, forall_eq', not_forall, not_or] at misfits
      obtain ⟨active, some_candle, other⟩ := misfits
      exact loaded_mixed guards (List.mem_of_getElem? mine) active some_candle other
  | loadMore oldestCandleTime => exact absurd trivial misfits
  | loadedMore i result =>
    obtain ⟨l, mine, rfl⟩ := Option.map_eq_some_iff.mp done
    cases result with
    | none => exact absurd trivial misfits
    | some r =>
      simp only [KeepsUnmixed, mine, Option.mem_some_iff, forall_eq', not_forall] at misfits
      obtain ⟨c, kept, misfit⟩ := misfits
      intro unmixed
      exact loadedMore_mixed r kept misfit ⟨unmixed.own, unmixed.ascending⟩
  | message c => exact absurd trivial misfits
  | flush =>
    obtain rfl := Option.some.inj done
    simp only [KeepsUnmixed, not_forall, not_or, not_exists, not_and] at misfits
    obtain ⟨c, buffered, other, notOlder⟩ := misfits
    intro unmixed
    apply other
    rw [Chart.flush, Option.mem_def.mp buffered] at unmixed
    exact unmixed.own c (written _ fun last isLast => not_lt.mp (notOlder last isLast))

/-- Along a run the series stays unmixed exactly when each step keeps it so. -/
theorem series_unmixed_iff (limits : TierLimits) (settings : Settings) (es : List Event) :
    Always (step limits) Unmixed (mount settings) es ↔
      Guarded (step limits) (KeepsUnmixed limits) (mount settings) es :=
  always_iff_guarded Guards (fun _ guards => guards.unmixed) step_guards step_mixes
    (guards_mount settings) es

def btcFutures : Settings := ⟨"BTCUSDT", .futures, "1m", 1⟩

def ethFutures : Settings := ⟨"ETHUSDT", .futures, "1m", 1⟩

def guestLimits : TierLimits := ⟨700, some 1, some 3, some 7, some 14, some 30, some 90⟩

def liveCandle : ChartCandle := ⟨60000, 100, 100, 100, 100, 1, 1, 100, [], 100, 100⟩

/-- A candle waits in the buffer while the chart, still empty, moves to another symbol. -/
theorem old_candle_flushed :
    ¬ Always (step guestLimits) Unmixed (mount btcFutures)
      [.message ⟨btcFutures.sub, liveCandle⟩, .change ethFutures, .effects, .flush] := by
  intro always
  obtain ⟨s, reached, candles, settings⟩ : ∃ s, run (step guestLimits) (mount btcFutures)
      [.message ⟨btcFutures.sub, liveCandle⟩, .change ethFutures, .effects, .flush] = some s ∧
      s.candles = [⟨btcFutures.sub, liveCandle⟩] ∧ s.settings = ethFutures :=
    ⟨_, rfl, rfl, rfl⟩
  have own := (always_final always reached).own ⟨btcFutures.sub, liveCandle⟩ (by simp [candles])
  rw [settings] at own
  revert own
  decide

end ChartSeries
