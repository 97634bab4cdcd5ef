import Procluster.HistoryLoad
import Procluster.Library.DecimalText
import Procluster.TableMerges

/-!
Package history: whole loads. Pipeline.Run takes one day's file after the other and
inserts its rows; days may fail, runs may overlap and repeat, the engine merges parts
meanwhile. What the table shows for a key is its last inserted row. The volumes may be
added in any arithmetic, as each candle's trades keep their order.
-/
namespace DailyLoads
open Aggregate KeyedFold HistoryLoad TableMerges ReplacingMerge
open LiveIngest (ClusterRow)
open QueryCandles (StoredRow Table)

def dayOf (t : Trade) : ℤ := t.tradeTimeMs / 86400000

def dateRange (first last : ℤ) : List ℤ :=
  (List.range (last - first + 1).toNat).map fun i : ℕ => first + i

def store (tenthsOf : ℚ → ℤ) (r : ClusterRow) : StoredRow :=
  ⟨r.symbol, r.timeframe, r.candleTime, tenthsOf r.price, tenthsOf r.bid, tenthsOf r.ask,
    tenthsOf r.openPrice, tenthsOf r.closePrice⟩

abbrev Key := String × String × ℤ × ℤ

def lastInserted (rows : List TableRow) (k : Key) : Option StoredRow :=
  ((rows.map TableRow.row).filter fun r => sortingKey r = k).getLast?

section Loads
variable (arith : Arithmetic) (tenthsOf : ℚ → ℤ) (cfg : HistoryConfig) (files : ℤ → List Trade)

/-- Runs the days given, with the days loaded. A failed download, parse or insert skips its
    day, and a cancelled context ends the run. -/
inductive Run : List ℤ → Engine → Engine → List ℤ → Prop where
  | finished (s : Engine) : Run [] s s []
  | cancelled (dates : List ℤ) (s : Engine) : Run dates s s []
  | skipped {d : ℤ} {dates loaded : List ℤ} {s s' : Engine} (rest : Run dates s s' loaded) :
      Run (d :: dates) s s' loaded
  | loaded {d : ℤ} {dates loaded : List ℤ} {s s₁ s' : Engine} {rows : List ClusterRow} {now : ℤ}
      (handed : HandsOver arith cfg (files d) rows)
      (insert : step tenthsOf s (.batchInsert cfg.market rows now) = some s₁)
      (rest : Run dates s₁ s' loaded) : Run (d :: dates) s s' (d :: loaded)
  | merged {t : Table} {i j : ℕ} {dates loaded : List ℤ} {s s₁ s' : Engine}
      (merge : step tenthsOf s (.merge t i j) = some s₁) (rest : Run dates s₁ s' loaded) :
      Run dates s s' loaded

inductive Runs : Engine → Engine → List ℤ → Prop where
  | none (s : Engine) : Runs s s []
  | next {first last : ℤ} {loaded later : List ℤ} {s s₁ s' : Engine}
      (run : Run arith tenthsOf cfg files (dateRange first last) s s₁ loaded)
      (rest : Runs s₁ s' later) : Runs s s' (loaded ++ later)

end Loads

/-- The trades of the loaded days in one list, each day's in the order of its file. -/
structure Together (files : ℤ → List Trade) (loaded : List ℤ) (trades : List Trade) : Prop where
  days : ∀ d ∈ loaded, trades.filter (fun t => dayOf t = d) = files d
  only : ∀ t ∈ trades, dayOf t ∈ loaded

variable {arith : Arithmetic} {tenthsOf : ℚ → ℤ} {cfg : HistoryConfig} {files : ℤ → List Trade}

theorem mapM_store {rows : List ClusterRow} {stored : List StoredRow} :
    rows.mapM (appendRow tenthsOf) = some stored ↔
      (∀ r ∈ rows, 0 ≤ r.candleTime ∧ r.candleTime < 2 ^ 32) ∧ stored = rows.map (store tenthsOf) := by
  induction rows generalizing stored with
  | nil => simp [eq_comm]
  | cons r rows ih =>
    rw [List.mapM_cons]
    by_cases inside : 0 ≤ r.candleTime ∧ r.candleTime < 2 ^ 32
    · have made : appendRow tenthsOf r = some (store tenthsOf r) := if_pos inside
      simp only [made, Option.bind_eq_bind, Option.bind_some, Option.bind_eq_some_iff, ih,
        Option.pure_def, Option.some.injEq, List.forall_mem_cons, inside, List.map_cons, true_and]
      constructor
      · rintro ⟨_, ⟨each, rfl⟩, rfl⟩
        exact ⟨each, rfl⟩
      · rintro ⟨each, rfl⟩
        exact ⟨_, ⟨each, rfl⟩, rfl⟩
    · have refused : appendRow tenthsOf r = none := if_neg inside
      simp only [refused, Option.bind_eq_bind, Option.bind_none, List.forall_mem_cons, inside, false_and,
        reduceCtorEq]

/-- What a BatchInsert of these trades' rows puts under a key. -/
def shown (arith : Arithmetic) (tenthsOf : ℚ → ℤ) (cfg : HistoryConfig) (trades : List Trade) (k : Key) : Option StoredRow :=
  match find ⟨k.2.2.1, k.2.1⟩ (aggregate arith cfg trades) with
  | none => none
  | some agg => (((rowsOf cfg ⟨k.2.2.1, k.2.1⟩ agg).filter fun r => storedKey tenthsOf r = k).getLast?).map
      (store tenthsOf)

theorem shown_of_handed {trades : List Trade} {rows : List ClusterRow}
    (handed : HandsOver arith cfg trades rows) (k : Key) :
    ((rows.map (store tenthsOf)).filter fun r => sortingKey r = k).getLast? = shown arith tenthsOf cfg trades k := by
  obtain ⟨entries, perm, rfl⟩ := handed
  have distinct : (keys entries).Nodup :=
    (perm.map Prod.fst).nodup_iff.mpr (aggregate_keys_nodup arith cfg trades)
  have own := select_own_rows (fun p => rowsOf cfg p.1 p.2) (fun r => storedKey tenthsOf r = k)
    (k := ⟨k.2.2.1, k.2.1⟩) distinct (by
      intro p _ other r hr
      obtain ⟨c, -, rfl⟩ := List.mem_map.mp hr
      refine decide_eq_false fun same => other ?_
      rw [← same]
      rfl)
  rw [List.filter_map, List.getLast?_map]
  change Option.map (store tenthsOf) ((allRows cfg entries).filter fun r =>
    storedKey tenthsOf r = k).getLast? = _
  rw [allRows, own, find_perm distinct perm, shown]
  cases find (⟨k.2.2.1, k.2.1⟩ : CandleKey) (aggregate arith cfg trades) <;> rfl

theorem shown_congr {trades others : List Trade} {k : Key}
    (same : inCandle trades ⟨k.2.2.1, k.2.1⟩ = inCandle others ⟨k.2.2.1, k.2.1⟩) :
    shown arith tenthsOf cfg trades k = shown arith tenthsOf cfg others k := by
  simp only [shown, find_aggregate, same]

theorem shown_nothing {trades : List Trade} {k : Key}
    (empty : inCandle trades ⟨k.2.2.1, k.2.1⟩ = [] ∨ k.2.1 ∉ cfg.timeframes) :
    shown arith tenthsOf cfg trades k = none := by
  have missing : ¬ (k.2.1 ∈ cfg.timeframes ∧ inCandle trades ⟨k.2.2.1, k.2.1⟩ ≠ []) := by
    rintro ⟨listed, some⟩
    exact empty.elim some fun unlisted => unlisted listed
  rw [shown, find_aggregate, if_neg missing]

theorem lastInserted_append (earlier later : List TableRow) (k : Key) :
    lastInserted (earlier ++ later) k = (lastInserted later k).or (lastInserted earlier k) := by
  simp only [lastInserted, List.map_append, List.filter_append, List.getLast?_append]

theorem finalView_lastInserted {s : Engine} {t : Table}
    (clock : (s.inserted t).Pairwise fun x y => x.updatedAt ≤ y.updatedAt) (r : StoredRow) :
    r ∈ (finalView s).rows t ↔ lastInserted (s.inserted t) (sortingKey r) = some r := by
  have found := find_last_of_ascending TableRow.key clock (sortingKey r)
  have last : lastInserted (s.inserted t) (sortingKey r) =
      (((s.inserted t).filter fun x => TableRow.key x = sortingKey r).getLast?).map TableRow.row := by
    rw [lastInserted, List.filter_map, List.getLast?_map]
    rfl
  rw [finalView, database_rows, final, last, ← found, List.map_map, List.mem_map,
    Option.map_eq_some_iff]
  constructor
  · rintro ⟨p, hp, rfl⟩
    have own := gather_newer_keys _ p hp
    refine ⟨p.2, ?_, rfl⟩
    change find (TableRow.key p.2) _ = some p.2
    rw [own]
    exact find_of_mem (gather_keys_nodup _ _ _) hp
  · rintro ⟨x, inside, rfl⟩
    exact ⟨_, mem_of_find inside, rfl⟩

/- Every timeframe divides the UTC day, so from 1970 on a candle lies in one day. -/
theorem candle_day {tf : String} {secs : ℤ} (known : tfSeconds tf = some secs) {ms : ℤ}
    (nonneg : 0 ≤ ms) : candleTimeUnix ms tf / 86400 = ms / 86400000 := by
  have value : candleTimeUnix ms tf = ms / 1000 / secs * secs := by
    simp only [candleTimeUnix, known]
    rw [Int.tdiv_eq_ediv_of_nonneg nonneg,
      Int.tdiv_eq_ediv_of_nonneg (Int.ediv_nonneg nonneg (by decide))]
  rw [value]
  unfold tfSeconds at known
  split at known <;> cases known <;> omega

theorem dayOf_nonneg {t : Trade} (modern : 0 ≤ dayOf t) : 0 ≤ t.tradeTimeMs := by
  unfold dayOf at modern
  omega

theorem inCandle_day {trades : List Trade} (modern : ∀ t ∈ trades, 0 ≤ dayOf t) (key : CandleKey)
    {secs : ℤ} (known : tfSeconds key.tf = some secs) :
    inCandle trades key = inCandle (trades.filter fun t => dayOf t = key.candleTime / 86400) key := by
  rw [inCandle, inCandle, List.filter_filter]
  apply List.filter_congr
  intro t inside
  by_cases falls : candleTimeUnix t.tradeTimeMs key.tf = key.candleTime
  · have day := candle_day known (dayOf_nonneg (modern t inside))
    rw [falls] at day
    simp [falls, dayOf, day]
  · simp [falls]

theorem insert_shows {trades : List Trade} {rows : List ClusterRow} {s s' : Engine} {now : ℤ}
    (handed : HandsOver arith cfg trades rows)
    (insert : step tenthsOf s (.batchInsert cfg.market rows now) = some s') (k : Key) :
    lastInserted (s'.inserted (tableOf cfg.market)) k =
      (shown arith tenthsOf cfg trades k).or (lastInserted (s.inserted (tableOf cfg.market)) k) := by
  obtain ⟨stored, made, rfl⟩ := Option.map_eq_some_iff.mp insert
  obtain ⟨-, rfl⟩ := mapM_store.mp made
  rw [← shown_of_handed handed k]
  simp only [Engine.append, Function.update_self, lastInserted_append]
  simp only [lastInserted, List.map_map, Function.comp_def]

section Days
variable (known : ∀ tf ∈ cfg.timeframes, tfSeconds tf ≠ none)
include known

theorem shown_other_day {d : ℤ} (modern : 0 ≤ d) (daily : ∀ t ∈ files d, dayOf t = d) {k : Key}
    (other : k.2.2.1 / 86400 ≠ d) : shown arith tenthsOf cfg (files d) k = none := by
  apply shown_nothing
  by_cases listed : k.2.1 ∈ cfg.timeframes
  · left
    obtain ⟨secs, length⟩ := Option.ne_none_iff_exists'.mp (known _ listed)
    rw [inCandle_day (fun t inside => (daily t inside).symm ▸ modern) ⟨_, k.2.1⟩ length]
    have nothing : (files d).filter (fun t => dayOf t = k.2.2.1 / 86400) = [] := by
      apply List.filter_eq_nil_iff.mpr
      intro t inside
      rw [daily t inside, decide_eq_true_eq]
      exact Ne.symm other
    rw [nothing]
    rfl
  · exact .inr listed

/- After a run the table shows for a key what the file of its day makes, if that day was
   loaded, and what it showed before if not. -/
theorem run_shows {dates loaded : List ℤ} {s s' : Engine}
    (run : Run arith tenthsOf cfg files dates s s' loaded)
    (modern : ∀ d ∈ loaded, 0 ≤ d) (daily : ∀ d ∈ loaded, ∀ t ∈ files d, dayOf t = d) (k : Key) :
    lastInserted (s'.inserted (tableOf cfg.market)) k =
      if k.2.2.1 / 86400 ∈ loaded then
        (shown arith tenthsOf cfg (files (k.2.2.1 / 86400)) k).or
          (lastInserted (s.inserted (tableOf cfg.market)) k)
      else lastInserted (s.inserted (tableOf cfg.market)) k := by
  induction run with
  | finished s => simp
  | cancelled dates s => simp
  | skipped rest ih => exact ih modern daily
  | @loaded d dates loaded s s₁ s' rows now handed insert rest ih =>
    have later := ih (fun e he => modern e (List.mem_cons_of_mem d he))
      fun e he => daily e (List.mem_cons_of_mem d he)
    rw [later, insert_shows handed insert k]
    by_cases own : k.2.2.1 / 86400 = d
    · subst own
      simp only [List.mem_cons, true_or, ↓reduceIte]
      split
      · rw [← Option.or_assoc, Option.or_self]
      · rfl
    · rw [shown_other_day known (modern d (by simp)) (daily d (by simp)) own]
      simp [own]
  | @merged t i j dates loaded s s₁ s' merge rest ih =>
    obtain ⟨rows, -, rfl⟩ := Option.map_eq_some_iff.mp merge
    exact ih modern daily

theorem runs_show {loaded : List ℤ} {s s' : Engine} (runs : Runs arith tenthsOf cfg files s s' loaded)
    (modern : ∀ d ∈ loaded, 0 ≤ d) (daily : ∀ d ∈ loaded, ∀ t ∈ files d, dayOf t = d) (k : Key) :
    lastInserted (s'.inserted (tableOf cfg.market)) k =
      if k.2.2.1 / 86400 ∈ loaded then
        (shown arith tenthsOf cfg (files (k.2.2.1 / 86400)) k).or
          (lastInserted (s.inserted (tableOf cfg.market)) k)
      else lastInserted (s.inserted (tableOf cfg.market)) k := by
  induction runs with
  | none s => simp
  | @next first last loaded later s s₁ s' run rest ih =>
    have before := run_shows known run (fun d hd => modern d (List.mem_append_left later hd))
      (fun d hd => daily d (List.mem_append_left later hd)) k
    rw [ih (fun d hd => modern d (List.mem_append_right loaded hd))
      (fun d hd => daily d (List.mem_append_right loaded hd)), before]
    by_cases early : k.2.2.1 / 86400 ∈ loaded
    · by_cases late : k.2.2.1 / 86400 ∈ later
      · simp only [early, late, List.mem_append, or_self, ↓reduceIte]
        rw [← Option.or_assoc, Option.or_self]
      · simp [early, late]
    · simp [early]

theorem together_shows {loaded : List ℤ} {trades : List Trade} (together : Together files loaded trades)
    (modern : ∀ d ∈ loaded, 0 ≤ d) (k : Key) :
    shown arith tenthsOf cfg trades k =
      if k.2.2.1 / 86400 ∈ loaded then shown arith tenthsOf cfg (files (k.2.2.1 / 86400)) k else none := by
  have own : ∀ t ∈ trades, 0 ≤ dayOf t := fun t inside => modern _ (together.only t inside)
  by_cases listed : k.2.1 ∈ cfg.timeframes
  · obtain ⟨secs, length⟩ := Option.ne_none_iff_exists'.mp (known _ listed)
    have candle := inCandle_day own ⟨k.2.2.1, k.2.1⟩ length
    split
    · rename_i day
      rw [together.days _ day] at candle
      exact shown_congr candle
    · rename_i day
      have nothing : trades.filter (fun t => dayOf t = k.2.2.1 / 86400) = [] := by
        apply List.filter_eq_nil_iff.mpr
        intro t inside
        rw [decide_eq_true_eq]
        exact fun same => day (same ▸ together.only t inside)
      refine shown_nothing (.inl ?_)
      rw [candle, nothing]
      rfl
  · rw [shown_nothing (.inr listed)]
    split
    · exact (shown_nothing (.inr listed)).symm
    · rfl

end Days

theorem mem_handed {trades : List Trade} {rows : List ClusterRow} (handed : HandsOver arith cfg trades rows)
    (r : ClusterRow) : r ∈ rows ↔
      ∃ key agg, find key (aggregate arith cfg trades) = some agg ∧ r ∈ rowsOf cfg key agg := by
  obtain ⟨entries, perm, rfl⟩ := handed
  rw [allRows, List.mem_flatMap]
  constructor
  · rintro ⟨p, hp, row⟩
    exact ⟨p.1, p.2, find_of_mem (aggregate_keys_nodup arith cfg trades) (perm.mem_iff.mp hp), row⟩
  · rintro ⟨key, agg, found, row⟩
    exact ⟨(key, agg), perm.mem_iff.mpr (mem_of_find found), row⟩

abbrev Accepted (r : ClusterRow) : Prop := 0 ≤ r.candleTime ∧ r.candleTime < 2 ^ 32

theorem insert_accepted (tenthsOf : ℚ → ℤ) {rows : List ClusterRow} (fits : ∀ r ∈ rows, Accepted r)
    (market : String) (s : Engine) (now : ℤ) :
    ∃ s', step tenthsOf s (.batchInsert market rows now) = some s' :=
  ⟨_, Option.map_eq_some_iff.mpr ⟨_, mapM_store.mpr ⟨fits, rfl⟩, rfl⟩⟩

theorem run_accepts {dates loaded : List ℤ} {s s' : Engine}
    (run : Run arith tenthsOf cfg files dates s s' loaded) :
    ∀ d ∈ loaded, ∃ rows, HandsOver arith cfg (files d) rows ∧ ∀ r ∈ rows, Accepted r := by
  induction run with
  | finished s => simp
  | cancelled dates s => simp
  | skipped rest ih => exact ih
  | @loaded d dates loaded s s₁ s' rows now handed insert rest ih =>
    obtain ⟨stored, made, -⟩ := Option.map_eq_some_iff.mp insert
    exact List.forall_mem_cons.mpr ⟨⟨rows, handed, (mapM_store.mp made).1⟩, ih⟩
  | merged merge rest ih => exact ih

theorem runs_accept {loaded : List ℤ} {s s' : Engine} (runs : Runs arith tenthsOf cfg files s s' loaded) :
    ∀ d ∈ loaded, ∃ rows, HandsOver arith cfg (files d) rows ∧ ∀ r ∈ rows, Accepted r := by
  induction runs with
  | none s => simp
  | next run rest ih =>
    intro d hd
    exact (List.mem_append.mp hd).elim (run_accepts run d) (ih d)

theorem together_fits (known : ∀ tf ∈ cfg.timeframes, tfSeconds tf ≠ none) {loaded : List ℤ}
    (accepted : ∀ d ∈ loaded, ∃ rows, HandsOver arith cfg (files d) rows ∧ ∀ r ∈ rows, Accepted r)
    (modern : ∀ d ∈ loaded, 0 ≤ d) {trades : List Trade} (together : Together files loaded trades)
    {rows : List ClusterRow} (handed : HandsOver arith cfg trades rows) {r : ClusterRow} (row : r ∈ rows) :
    Accepted r := by
  obtain ⟨key, agg, found, own⟩ := (mem_handed handed r).mp row
  have reached : key.tf ∈ cfg.timeframes ∧ inCandle trades key ≠ [] := by
    by_contra unreached
    rw [find_aggregate, if_neg unreached] at found
    cases found
  obtain ⟨secs, length⟩ := Option.ne_none_iff_exists'.mp (known _ reached.1)
  obtain ⟨t, falls⟩ := List.exists_mem_of_ne_nil _ reached.2
  obtain ⟨inside, time⟩ := List.mem_filter.mp falls
  have day : key.candleTime / 86400 = dayOf t := by
    rw [← decide_eq_true_eq.mp time,
      candle_day length (dayOf_nonneg (modern _ (together.only t inside)))]
    rfl
  have candle := inCandle_day (fun u hu => modern _ (together.only u hu)) key length
  rw [day, together.days _ (together.only t inside)] at candle
  obtain ⟨rows', handed', fits⟩ := accepted _ (together.only t inside)
  refine fits r ((mem_handed handed' r).mpr ⟨key, agg, ?_, own⟩)
  rw [find_aggregate, ← candle, ← find_aggregate]
  exact found

/-- Day by day, in any order and with repetitions, or at once: the table shows the same. -/
theorem daily_loads_eq_whole (known : ∀ tf ∈ cfg.timeframes, tfSeconds tf ≠ none)
    {loaded : List ℤ} {s : Engine} (runs : Runs arith tenthsOf cfg files TableMerges.empty s loaded)
    (modern : ∀ d ∈ loaded, 0 ≤ d) (daily : ∀ d ∈ loaded, ∀ t ∈ files d, dayOf t = d)
    {trades : List Trade} (together : Together files loaded trades) {rows : List ClusterRow}
    (handed : HandsOver arith cfg trades rows) (now : ℤ) :
    ∃ whole, step tenthsOf TableMerges.empty (.batchInsert cfg.market rows now) = some whole ∧
      ∀ k, lastInserted (s.inserted (tableOf cfg.market)) k =
        lastInserted (whole.inserted (tableOf cfg.market)) k := by
  have fits : ∀ r ∈ rows, Accepted r := fun r row =>
    together_fits known (runs_accept runs) modern together handed row
  obtain ⟨whole, insert⟩ := insert_accepted tenthsOf fits cfg.market TableMerges.empty now
  refine ⟨whole, insert, ?_⟩
  intro k
  have nothing : lastInserted (TableMerges.empty.inserted (tableOf cfg.market)) k = none := rfl
  rw [runs_show known runs modern daily, insert_shows handed insert, together_shows known together modern,
    nothing, Option.or_none]
  split
  · rw [Option.or_none]
  · rfl

def nearestTenth (v : ℚ) : ℤ := DecimalText.roundHalfAway (10 * v)

def rowsInOrder (trades : List Trade) : List ClusterRow := allRows btcHistory (aggregate doubles btcHistory trades)

theorem handed_in_order (trades : List Trade) : HandsOver doubles btcHistory trades (rowsInOrder trades) :=
  ⟨_, .refl _, rfl⟩

def twoDays (d : ℤ) : List Trade :=
  if d = 0 then [⟨1, 100, 1, 30000, true⟩] else if d = 1 then [⟨2, 100, 2, 86430000, true⟩] else []

/- Two days loaded, and the first one again. -/
theorem two_days_reloaded : ∃ s whole,
    Runs doubles nearestTenth btcHistory twoDays TableMerges.empty s [0, 1, 0] ∧
    step nearestTenth TableMerges.empty
      (.batchInsert "futures" (rowsInOrder (twoDays 0 ++ twoDays 1)) 9) = some whole ∧
    ∀ k, lastInserted (s.inserted .clustersFutures) k = lastInserted (whole.inserted .clustersFutures) k := by
  have fits : ∀ d ∈ [0, 1], ∀ r ∈ rowsInOrder (twoDays d), Accepted r := by decide +kernel
  obtain ⟨s₁, first⟩ := insert_accepted nearestTenth (fits 0 (by simp)) "futures" TableMerges.empty 5
  obtain ⟨s₂, second⟩ := insert_accepted nearestTenth (fits 1 (by simp)) "futures" s₁ 6
  obtain ⟨s₃, again⟩ := insert_accepted nearestTenth (fits 0 (by simp)) "futures" s₂ 7
  have both : Run doubles nearestTenth btcHistory twoDays (dateRange 0 1) TableMerges.empty s₂ [0, 1] :=
    .loaded (handed_in_order _) first (.loaded (handed_in_order _) second (.finished _))
  have reload : Run doubles nearestTenth btcHistory twoDays (dateRange 0 0) s₂ s₃ [0] :=
    .loaded (handed_in_order _) again (.finished _)
  have runs : Runs doubles nearestTenth btcHistory twoDays TableMerges.empty s₃ [0, 1, 0] :=
    .next both (.next reload (.none _))
  have together : Together twoDays [0, 1, 0] (twoDays 0 ++ twoDays 1) :=
    ⟨by decide +kernel, by decide +kernel⟩
  obtain ⟨whole, insert, same⟩ := daily_loads_eq_whole (by decide) runs (by decide) (by decide) together
    (handed_in_order _) 9
  exact ⟨s₃, whole, runs, insert, same⟩

def newYear1970 (d : ℤ) : List Trade :=
  if d = -1 then [⟨1, 100, 1, -30000, true⟩] else if d = 0 then [⟨2, 100, 2, 30000, true⟩] else []

/- Half a minute before and after the first second of 1970 both lie in candle 0: the second
   day overwrites the first, and together their volumes add up. -/
theorem candle_across_1970 : ¬ ∀ (files : ℤ → List Trade) (loaded : List ℤ) (s : Engine)
    (trades : List Trade) (rows : List ClusterRow) (now : ℤ),
    Runs doubles nearestTenth btcHistory files TableMerges.empty s loaded →
    (∀ d ∈ loaded, ∀ t ∈ files d, dayOf t = d) → Together files loaded trades →
    HandsOver doubles btcHistory trades rows →
    ∃ whole, step nearestTenth TableMerges.empty (.batchInsert "futures" rows now) = some whole ∧
      ∀ k, lastInserted (s.inserted .clustersFutures) k =
        lastInserted (whole.inserted .clustersFutures) k := by
  intro claim
  have fits : ∀ d ∈ [-1, 0], ∀ r ∈ rowsInOrder (newYear1970 d), Accepted r := by decide +kernel
  obtain ⟨s₁, first⟩ := insert_accepted nearestTenth (fits (-1) (by simp)) "futures" TableMerges.empty 5
  obtain ⟨s₂, second⟩ := insert_accepted nearestTenth (fits 0 (by simp)) "futures" s₁ 6
  have both : Run doubles nearestTenth btcHistory newYear1970 (dateRange (-1) 0) TableMerges.empty s₂ [-1, 0] :=
    .loaded (handed_in_order _) first (.loaded (handed_in_order _) second (.finished _))
  have together : Together newYear1970 [-1, 0] (newYear1970 (-1) ++ newYear1970 0) :=
    ⟨by decide +kernel, by decide +kernel⟩
  obtain ⟨whole, insert, same⟩ := claim _ _ _ _ _ 9 (.next both (.none _)) (by decide) together
    (handed_in_order _)
  have daily := insert_shows (handed_in_order _) second ("BTCUSDT", "1m", 0, 1000)
  have once := insert_shows (handed_in_order _) insert ("BTCUSDT", "1m", 0, 1000)
  have differ := daily.symm.trans ((same ("BTCUSDT", "1m", 0, 1000)).trans once)
  have second_day : shown doubles nearestTenth btcHistory (newYear1970 0) ("BTCUSDT", "1m", 0, 1000) =
      some ⟨"BTCUSDT", "1m", 0, 1000, 20, 0, 1000, 1000⟩ := by decide +kernel
  have both_days : shown doubles nearestTenth btcHistory (newYear1970 (-1) ++ newYear1970 0)
      ("BTCUSDT", "1m", 0, 1000) = some ⟨"BTCUSDT", "1m", 0, 1000, 30, 0, 1000, 1000⟩ := by
    decide +kernel
  rw [second_day, both_days, Option.some_or, Option.some_or] at differ
  revert differ
  decide

end DailyLoads
