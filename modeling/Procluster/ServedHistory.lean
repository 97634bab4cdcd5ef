import Procluster.CandlesApi

/-!
What GET /candles returns for a state of the cache and of the table: the order of
the candles, and how many there are with and without a cache. The cache is read
most recent first and is not reversed; a hit replaces the table, however few it holds.
-/
namespace ServedHistory
open Aggregate KeyedFold NewestFirst QueryCandles Validate CandlesApi

/-- Redis and ClickHouse answer from a cache and a table, unless they fail. -/
structure Serves (env : Outside) (cache : String → CandleSet) (db : Database) : Prop where
  cached : ∀ key limit candles, env.getLastCandles key limit = some candles →
    candles = getLastCandles (cache key) limit
  stored : ∀ q answer, env.query q = some answer → Answers db q answer

def cacheKey (p : Params) : String := redisCacheKey p.market p.symbol p.tf

def LooksUp (env : Outside) (p : Params) : Prop :=
  p.beforeSec = 0 ∧ p.compression = p.tc.baseCompression ∧
    env.getLastCandles (cacheKey p) p.limit ≠ none

/-- The window of a role; a role without a positive number of days sees everything. -/
def inWindow (env : Outside) (p : Params) (time : ℤ) : Bool :=
  0 < p.historyDays → env.nowUnixSec - p.historyDays * 86400 ≤ time

def cachedInWindow (env : Outside) (p : Params) (set : CandleSet) : List ClusterCandle :=
  set.members.filter fun c => inWindow env p c.time

def Ascending (times : List ℤ) : Prop := times.Pairwise (· < ·)

theorem limitHistory_eq (env : Outside) (p : Params) (candles : List ClusterCandle) :
    (limitHistory env.nowUnixSec p.historyDays candles).1 =
      candles.filter fun c => inWindow env p c.time := by
  unfold limitHistory inWindow
  by_cases limited : 0 < p.historyDays
  · by_cases empty : candles = []
    · simp [empty]
    · simp [limited, empty]
  · simp [limited]

@[simp] theorem candleJSON_mergeCandle_time (p : Params) (c : ClusterCandle) :
    (candleJSON (mergeCandle p c)).time = c.time := by
  unfold mergeCandle mergeCandleBy
  split <;> rfl

section Request
variable {m : CaseMap} {v : Validator} {env : Outside} {r : Request} {p : Params}
  (valid : readParams m v r = .ok p)
include valid

theorem handleCandles_of_params : handleCandles m v env r =
    (readCandles env p).map fun candles =>
      let limited := limitHistory env.nowUnixSec p.historyDays candles
      ⟨limited.1.map fun c => candleJSON (mergeCandle p c), limited.2⟩ := by
  unfold handleCandles
  rw [valid]
  change (readCandles env p).bind _ = _
  cases readCandles env p <;> rfl

theorem handleCandles_ok {data : CandlesData} (returned : handleCandles m v env r = .ok data) :
    ∃ candles, readCandles env p = .ok candles ∧
      data.candles = (candles.filter fun c => inWindow env p c.time).map
        fun c => candleJSON (mergeCandle p c) := by
  rw [handleCandles_of_params valid] at returned
  cases read : readCandles env p with
  | error e =>
    rw [read] at returned
    cases returned
  | ok candles =>
    rw [read] at returned
    cases returned
    refine ⟨candles, rfl, ?_⟩
    rw [← limitHistory_eq]

theorem returned_times {data : CandlesData} {candles : List ClusterCandle}
    (returned : handleCandles m v env r = .ok data) (read : readCandles env p = .ok candles) :
    data.candles.map CandleJSON.time =
      (candles.filter fun c => inWindow env p c.time).map ClusterCandle.time := by
  obtain ⟨others, same, built⟩ := handleCandles_ok valid returned
  rw [read] at same
  cases same
  rw [built, List.map_map]
  apply List.map_congr_left
  intro c _
  exact candleJSON_mergeCandle_time p c

end Request

section Reads
variable {env : Outside} {cache : String → CandleSet} {db : Database} {p : Params}
  (serves : Serves env cache db)
include serves

theorem cachedCandles_of_lookup (looks : LooksUp env p) :
    cachedCandles env p = getLastCandles (cache (cacheKey p)) p.limit := by
  obtain ⟨noBefore, base, answered⟩ := looks
  obtain ⟨candles, found⟩ := Option.ne_none_iff_exists'.mp answered
  have same := serves.cached _ _ _ found
  unfold cacheKey at found
  simp only [cachedCandles, noBefore, base, and_self, ↓reduceIte, found, Option.getD_some]
  exact same

omit serves in
theorem cachedCandles_of_miss (misses : ¬ LooksUp env p) : cachedCandles env p = [] := by
  unfold cachedCandles
  split
  · rename_i asked
    have failed : env.getLastCandles (cacheKey p) p.limit = none := by
      by_contra answered
      exact misses ⟨asked.1, asked.2, answered⟩
    unfold cacheKey at failed
    rw [failed]
    rfl
  · rfl

theorem read_stored {candles : List ClusterCandle} (read : readCandles env p = .ok candles)
    (none_cached : cachedCandles env p = []) :
    ∃ answer, Answers db (candlesQuery p) answer ∧ candles = queryCandles answer := by
  unfold readCandles at read
  rw [none_cached] at read
  dsimp only at read
  cases found : env.query (candlesQuery p) with
  | none =>
    rw [found] at read
    cases read
  | some answer =>
    rw [found] at read
    cases read
    exact ⟨answer, serves.stored _ _ found, rfl⟩

omit serves in
theorem read_cached {candles : List ClusterCandle} (read : readCandles env p = .ok candles)
    (some_cached : cachedCandles env p ≠ []) : candles = cachedCandles env p := by
  obtain ⟨first, rest, same⟩ := List.exists_cons_of_ne_nil some_cached
  unfold readCandles at read
  rw [same] at read ⊢
  cases read
  rfl

end Reads

theorem getLastCandles_descending (set : CandleSet) (limit : ℕ) :
    ((getLastCandles set limit).map ClusterCandle.time).Pairwise (· ≥ ·) := by
  rw [List.pairwise_map]
  exact (List.pairwise_reverse.mpr set.scored).sublist (List.take_sublist _ _)

/- The window is closed upwards, so it cuts a descending list at one place. -/
theorem inWindow_above {env : Outside} {p : Params} {s t : ℤ} (above : s ≤ t)
    (inside : inWindow env p s = true) : inWindow env p t = true := by
  unfold inWindow at inside ⊢
  simp only [decide_eq_true_eq] at inside ⊢
  intro limited
  have := inside limited
  omega

theorem cached_window_length (env : Outside) (p : Params) (set : CandleSet) (limit : ℕ) :
    ((getLastCandles set limit).filter fun c => inWindow env p c.time).length =
      min limit (cachedInWindow env p set).length := by
  have ordered : set.members.reverse.Pairwise fun c d =>
      inWindow env p d.time = true → inWindow env p c.time = true :=
    (List.pairwise_reverse.mpr set.scored).imp fun older inside => inWindow_above older inside
  rw [getLastCandles, filter_take ordered, List.length_take, List.filter_reverse,
    List.length_reverse, cachedInWindow]

theorem stored_ascending {db : Database} {q : Query} {answer : List StoredRow}
    (answers : Answers db q answer) :
    Ascending ((queryCandles answer).map ClusterCandle.time) := by
  obtain ⟨ordered, _, descending, rfl⟩ := answers
  apply groupRows_ascending
  rw [List.pairwise_map]
  exact descending.sublist (List.take_sublist _ _)

/- A filter of a cached list keeps its descending order, one of a table's list its
   ascending order. -/
theorem filtered_ascending_iff {env : Outside} {cache : String → CandleSet} {db : Database}
    {p : Params} (serves : Serves env cache db) {candles : List ClusterCandle}
    (read : readCandles env p = .ok candles) (test : ClusterCandle → Bool) :
    Ascending ((candles.filter test).map ClusterCandle.time) ↔
      (LooksUp env p →
        ((getLastCandles (cache (cacheKey p)) p.limit).filter test).length ≤ 1) := by
  by_cases looks : LooksUp env p
  · have cached := cachedCandles_of_lookup serves looks
    by_cases empty : cachedCandles env p = []
    · obtain ⟨answer, answers, rfl⟩ := read_stored serves read empty
      have ascending := (stored_ascending answers).sublist ((List.filter_sublist (p := test)).map _)
      rw [← cached, empty]
      exact ⟨fun _ _ => by simp, fun _ => ascending⟩
    · have hit := read_cached read empty
      have descending := (getLastCandles_descending (cache (cacheKey p)) p.limit).sublist
        ((List.filter_sublist (p := test)).map _)
      rw [hit, cached, Ascending, ascending_iff_of_descending descending, List.length_map]
      exact ⟨fun short _ => short, fun short => short looks⟩
  · obtain ⟨answer, answers, rfl⟩ := read_stored serves read (cachedCandles_of_miss looks)
    have ascending := (stored_ascending answers).sublist ((List.filter_sublist (p := test)).map _)
    exact ⟨fun _ looked => absurd looked looks, fun _ => ascending⟩

def sampleConfig : TickerConfig := ⟨"BTCUSDT", "futures", 1 / 10, 25, 10, 25, 365, 60, true⟩

def asciiCase : CaseMap := ⟨Char.toUpper, Char.toLower⟩

def sampleRequest : Request where
  method := "GET"
  query name :=
    if name = "symbol" then "btcusdt" else if name = "market" then "futures"
    else if name = "tf" then "1m" else ""
  userRole := "vip"

def sampleParams : Params := ⟨"BTCUSDT", "futures", "1m", sampleConfig, 25, 0, 700, -1⟩

def sampleCandle (time : ℤ) : ClusterCandle :=
  ⟨time, 1000, 1000, 1000, 2005 / 2, 7 / 10, 1 / 10, [⟨1000, 3 / 10, 4 / 10⟩]⟩

def sampleCache (members : CandleSet) (key : String) : CandleSet :=
  if key = cacheKey sampleParams then members else .empty

def sampleOutside (members : CandleSet) (answer : List StoredRow) : Outside where
  nowUnixSec := 1000
  getLastCandles key limit := some (getLastCandles (sampleCache members key) limit)
  query q := if q = candlesQuery sampleParams then some answer else none

theorem sampleOutside_serves (members : CandleSet) {db : Database} {answer : List StoredRow}
    (answers : Answers db (candlesQuery sampleParams) answer) :
    Serves (sampleOutside members answer) (sampleCache members) db := by
  constructor
  · intro key limit candles found
    exact (Option.some.inj found).symm
  · intro q rows found
    unfold sampleOutside at found
    dsimp only at found
    split at found
    · rename_i same
      cases found
      exact same ▸ answers
    · cases found

theorem sampleRequest_params :
    readParams asciiCase (newValidator [sampleConfig]) sampleRequest = .ok sampleParams := by
  decide +kernel

def twoRows : List StoredRow :=
  [⟨"BTCUSDT", "1m", 120, 10000, 3, 4, 0, 0⟩, ⟨"BTCUSDT", "1m", 60, 10000, 3, 4, 0, 0⟩]

theorem twoRows_answer :
    Answers ⟨twoRows, []⟩ (candlesQuery sampleParams) twoRows :=
  ⟨twoRows, by decide +kernel, by decide +kernel, by decide +kernel⟩

def oneCandle : CandleSet := ⟨[sampleCandle 120], by decide +kernel, by decide +kernel⟩

def twoCandles : CandleSet :=
  ⟨[sampleCandle 60, sampleCandle 120], by decide +kernel, by decide +kernel⟩

/-- Before the cut-off and in the response the candles ascend exactly when the cache is
    not looked up, or it gives at most one candle there. -/
theorem candles_ascending_iff (m : CaseMap) (v : Validator) (env : Outside) (r : Request)
    (p : Params) (cache : String → CandleSet) (db : Database) (candles : List ClusterCandle)
    (data : CandlesData) (serves : Serves env cache db) (valid : readParams m v r = .ok p)
    (read : readCandles env p = .ok candles) (returned : handleCandles m v env r = .ok data) :
    (Ascending (candles.map ClusterCandle.time) ↔
      (LooksUp env p → min p.limit (cache (cacheKey p)).members.length ≤ 1)) ∧
    (Ascending (data.candles.map CandleJSON.time) ↔
      (LooksUp env p → min p.limit (cachedInWindow env p (cache (cacheKey p))).length ≤ 1)) := by
  constructor
  · have whole := filtered_ascending_iff serves read fun _ => true
    rwa [List.filter_true, List.filter_true, getLastCandles, List.length_take,
      List.length_reverse] at whole
  · rw [returned_times valid returned read, filtered_ascending_iff serves read,
      cached_window_length]

theorem stored_candles_ascend :
    ∃ data, handleCandles asciiCase (newValidator [sampleConfig]) (sampleOutside .empty twoRows)
        sampleRequest = .ok data ∧ Ascending (data.candles.map CandleJSON.time) := by
  have read : readCandles (sampleOutside .empty twoRows) sampleParams = .ok (queryCandles twoRows) := by
    decide +kernel
  have returned : handleCandles asciiCase (newValidator [sampleConfig])
      (sampleOutside .empty twoRows) sampleRequest =
        .ok ⟨(queryCandles twoRows).map candleJSON, false⟩ := by
    decide +kernel
  refine ⟨_, returned, (candles_ascending_iff _ _ _ _ _ _ _ _ _
    (sampleOutside_serves .empty twoRows_answer) sampleRequest_params read returned).2.mpr ?_⟩
  intro _
  decide +kernel

/-- Two cached candles come back newest first. -/
theorem cached_candles_descend :
    Serves (sampleOutside twoCandles twoRows) (sampleCache twoCandles) ⟨twoRows, []⟩ ∧
    ∃ data, handleCandles asciiCase (newValidator [sampleConfig])
        (sampleOutside twoCandles twoRows) sampleRequest = .ok data ∧
      data.candles.map CandleJSON.time = [120, 60] ∧
      ¬ Ascending (data.candles.map CandleJSON.time) := by
  refine ⟨sampleOutside_serves twoCandles twoRows_answer,
    ⟨[sampleCandle 120, sampleCandle 60].map candleJSON, false⟩, ?_, ?_, ?_⟩
  · decide +kernel
  · decide +kernel
  · unfold Ascending
    decide +kernel

def storedTimes (db : Database) (q : Query) : List ℤ :=
  ((((matching db q).map StoredRow.candleTime).insertionSort (· ≥ ·)).take q.limit.toNat).dedup

def storedInWindow (env : Outside) (p : Params) (db : Database) : List ℤ :=
  (storedTimes db (candlesQuery p)).filter (inWindow env p)

/- Rows of one candle time may come in any order, which changes no cut of the times. -/
theorem answer_times {db : Database} {q : Query} {answer : List StoredRow}
    (answers : Answers db q answer) : answer.map StoredRow.candleTime =
      (((matching db q).map StoredRow.candleTime).insertionSort (· ≥ ·)).take q.limit.toNat := by
  obtain ⟨ordered, perm, descending, rfl⟩ := answers
  rw [List.map_take]
  congr 1
  refine ((perm.map _).trans (List.perm_insertionSort _ _).symm).eq_of_pairwise ?_
    (List.pairwise_map.mpr descending) (List.pairwise_insertionSort _ _)
  intro s t _ _ below above
  exact le_antisymm above below

theorem queryCandles_times {db : Database} {q : Query} {answer : List StoredRow}
    (answers : Answers db q answer) :
    ((queryCandles answer).map ClusterCandle.time).Perm (storedTimes db q) := by
  have distinct : ((queryCandles answer).map ClusterCandle.time).Nodup :=
    (stored_ascending answers).imp fun h => h.ne
  refine (List.perm_ext_iff_of_nodup distinct (List.nodup_dedup _)).mpr ?_
  intro t
  rw [queryCandles, mem_groupRows_times, List.mem_dedup, ← answer_times answers]
  simp only [List.mem_map, exists_exists_and_eq_and]
  rfl

theorem stored_window_length (env : Outside) (p : Params) {db : Database} {answer : List StoredRow}
    (answers : Answers db (candlesQuery p) answer) :
    ((queryCandles answer).filter fun c => inWindow env p c.time).length =
      (storedInWindow env p db).length := by
  rw [storedInWindow, ← ((queryCandles_times answers).filter _).length_eq, List.filter_map,
    List.length_map]
  rfl

section Count
variable {m : CaseMap} {v : Validator} {env : Outside} {r : Request} {p : Params}
  {cache : String → CandleSet} {db : Database} {data : CandlesData}
  (serves : Serves env cache db) (valid : readParams m v r = .ok p)
  (returned : handleCandles m v env r = .ok data)
include serves valid returned

theorem count_of_miss (missed : cachedCandles env p = []) :
    data.candles.length = (storedInWindow env p db).length := by
  obtain ⟨candles, read, built⟩ := handleCandles_ok valid returned
  obtain ⟨answer, answers, rfl⟩ := read_stored serves read missed
  rw [built, List.length_map, stored_window_length env p answers]

theorem count_of_hit (looks : LooksUp env p) (hit : cachedCandles env p ≠ []) :
    data.candles.length = min p.limit (cachedInWindow env p (cache (cacheKey p))).length := by
  obtain ⟨candles, read, built⟩ := handleCandles_ok valid returned
  rw [built, List.length_map, read_cached read hit, cachedCandles_of_lookup serves looks,
    cached_window_length]

end Count

theorem cached_nonempty_iff {env : Outside} {cache : String → CandleSet} {db : Database}
    {p : Params} (serves : Serves env cache db) (looks : LooksUp env p) (some_limit : 0 < p.limit) :
    cachedCandles env p ≠ [] ↔ (cache (cacheKey p)).members ≠ [] := by
  rw [cachedCandles_of_lookup serves looks, getLastCandles, not_iff_not, List.take_eq_nil_iff,
    List.reverse_eq_nil_iff, or_iff_right some_limit.ne']

theorem empty_cache_misses {env : Outside} {db : Database} {p : Params}
    (serves : Serves env (fun _ => .empty) db) : cachedCandles env p = [] := by
  by_cases looks : LooksUp env p
  · rw [cachedCandles_of_lookup serves looks]
    simp [getLastCandles, CandleSet.empty]
  · exact cachedCandles_of_miss looks

/-- A request gets as many candles, up to its limit, as with an empty cache exactly when
    the cache is not looked up, is empty, or holds as many candles in the window as the
    rows of the table do. -/
theorem cache_hides_nothing_iff (m : CaseMap) (v : Validator) (env emptied : Outside) (r : Request)
    (p : Params) (cache : String → CandleSet) (db : Database) (data full : CandlesData)
    (valid : readParams m v r = .ok p) (serves : Serves env cache db)
    (returned : handleCandles m v env r = .ok data)
    (servesEmpty : Serves emptied (fun _ => .empty) db)
    (clock : emptied.nowUnixSec = env.nowUnixSec)
    (returnedFull : handleCandles m v emptied r = .ok full) :
    min p.limit full.candles.length ≤ data.candles.length ↔
      (LooksUp env p → (cache (cacheKey p)).members = [] ∨
        min p.limit (storedInWindow env p db).length ≤
          (cachedInWindow env p (cache (cacheKey p))).length) := by
  have fullCount := count_of_miss servesEmpty valid returnedFull (empty_cache_misses servesEmpty)
  have window : inWindow emptied p = inWindow env p := by
    unfold inWindow
    rw [clock]
  have sameTimes : storedInWindow emptied p db = storedInWindow env p db := by
    rw [storedInWindow, window, storedInWindow]
  rw [fullCount, sameTimes]
  by_cases looks : LooksUp env p
  · have positive : 0 < p.limit := (readParams_limit valid).1
    by_cases empty : (cache (cacheKey p)).members = []
    · have missed : cachedCandles env p = [] :=
        not_not.mp (mt (cached_nonempty_iff serves looks positive).mp (not_not.mpr empty))
      rw [count_of_miss serves valid returned missed]
      simp [empty]
    · have hit := (cached_nonempty_iff serves looks positive).mpr empty
      rw [count_of_hit serves valid returned looks hit]
      constructor
      · intro enough _
        right
        omega
      · intro condition
        have enough := (condition looks).resolve_left empty
        omega
  · rw [count_of_miss serves valid returned (cachedCandles_of_miss looks)]
    exact ⟨fun _ looked => absurd looked looks, fun _ => min_le_right _ _⟩

theorem sampleCache_empty : sampleCache .empty = fun _ => .empty := by
  funext key
  unfold sampleCache
  split <;> rfl

theorem emptied_serves :
    Serves (sampleOutside .empty twoRows) (fun _ => .empty) ⟨twoRows, []⟩ := by
  rw [← sampleCache_empty]
  exact sampleOutside_serves .empty twoRows_answer

theorem full_cache_hides_nothing :
    ∃ data full,
      handleCandles asciiCase (newValidator [sampleConfig]) (sampleOutside twoCandles twoRows)
        sampleRequest = .ok data ∧
      handleCandles asciiCase (newValidator [sampleConfig]) (sampleOutside .empty twoRows)
        sampleRequest = .ok full ∧
      min 700 full.candles.length ≤ data.candles.length := by
  have returned : handleCandles asciiCase (newValidator [sampleConfig])
      (sampleOutside twoCandles twoRows) sampleRequest =
        .ok ⟨[sampleCandle 120, sampleCandle 60].map candleJSON, false⟩ := by
    decide +kernel
  have returnedFull : handleCandles asciiCase (newValidator [sampleConfig])
      (sampleOutside .empty twoRows) sampleRequest =
        .ok ⟨(queryCandles twoRows).map candleJSON, false⟩ := by
    decide +kernel
  refine ⟨_, _, returned, returnedFull, (cache_hides_nothing_iff _ _ _ _ _ _ _ _ _ _
    sampleRequest_params (sampleOutside_serves twoCandles twoRows_answer) returned
    emptied_serves rfl returnedFull).mpr ?_⟩
  intro _
  right
  decide +kernel

/-- One candle closed since the start hides the older one that the table holds. -/
theorem new_cache_hides_history :
    Serves (sampleOutside oneCandle twoRows) (sampleCache oneCandle) ⟨twoRows, []⟩ ∧
    (∀ c ∈ oneCandle.members, c.time ∈ storedTimes ⟨twoRows, []⟩ (candlesQuery sampleParams)) ∧
    ∃ data full,
      handleCandles asciiCase (newValidator [sampleConfig]) (sampleOutside oneCandle twoRows)
        sampleRequest = .ok data ∧
      handleCandles asciiCase (newValidator [sampleConfig]) (sampleOutside .empty twoRows)
        sampleRequest = .ok full ∧
      ¬ min 700 full.candles.length ≤ data.candles.length := by
  refine ⟨sampleOutside_serves oneCandle twoRows_answer, ?_,
    ⟨[sampleCandle 120].map candleJSON, false⟩,
    ⟨(queryCandles twoRows).map candleJSON, false⟩, ?_, ?_, ?_⟩
  · decide +kernel
  · decide +kernel
  · decide +kernel
  · decide +kernel

end ServedHistory
