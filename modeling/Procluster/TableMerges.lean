import Procluster.Library.EventRuns
import Procluster.Library.ReplacingMerge
import Procluster.LiveIngest
import Procluster.QueryCandles

/-!
The two cluster tables under BatchInsert and the background merges of the
ReplacingMergeTree engine. A merge of any rows of one key is a sequence of collapses
of two of them. A record of every inserted row says what the FINAL view is.
-/
namespace TableMerges
open QueryCandles EventRuns ReplacingMerge
open LiveIngest (ClusterRow)

/-- A row with the engine's version column. -/
structure TableRow where
  row : StoredRow
  updatedAt : ℤ

/-- ORDER BY (symbol, timeframe, candle_time, price) -/
def sortingKey (r : StoredRow) : String × String × ℤ × ℤ :=
  (r.symbol, r.timeframe, r.candleTime, r.price)

def TableRow.key (x : TableRow) : String × String × ℤ × ℤ := sortingKey x.row

structure Engine where
  parts : Table → List TableRow
  inserted : Table → List TableRow

def empty : Engine := ⟨fun _ => [], fun _ => []⟩

def Engine.append (s : Engine) (t : Table) (rows : List TableRow) : Engine where
  parts := Function.update s.parts t (s.parts t ++ rows)
  inserted := Function.update s.inserted t (s.inserted t ++ rows)

def tableOf (market : String) : Table := if market = "spot" then .clustersSpot else .clustersFutures

inductive Event where
  | batchInsert (market : String) (rows : List ClusterRow) (now : ℤ)
  | merge (t : Table) (i j : ℕ)

section Run
/- The tenths that decimal.NewFromFloat(v).Round(1) keeps of v. -/
variable (tenthsOf : ℚ → ℤ)

/-- Append refuses a time outside the DateTime column. -/
def appendRow (r : ClusterRow) : Option StoredRow :=
  if 0 ≤ r.candleTime ∧ r.candleTime < 2 ^ 32 then
    some ⟨r.symbol, r.timeframe, r.candleTime, tenthsOf r.price, tenthsOf r.bid, tenthsOf r.ask,
      tenthsOf r.openPrice, tenthsOf r.closePrice⟩
  else none

def step (s : Engine) : Event → Option Engine
  | .batchInsert market rows now => (rows.mapM (appendRow tenthsOf)).map fun stored =>
      s.append (tableOf market) (stored.map fun r => ⟨r, now⟩)
  | .merge t i j => (collapse TableRow.key TableRow.updatedAt (s.parts t) i j).map fun rows =>
      { s with parts := Function.update s.parts t rows }

def storedKey (r : ClusterRow) : String × String × ℤ × ℤ :=
  (r.symbol, r.timeframe, r.candleTime, tenthsOf r.price)

/-- An insert brings every key once and none that is in the table. -/
def FreshInsert (s : Engine) : Event → Prop
  | .batchInsert market rows _ => (rows.map (storedKey tenthsOf)).Nodup ∧
      ∀ r ∈ rows, storedKey tenthsOf r ∉ (s.parts (tableOf market)).map TableRow.key
  | .merge _ _ _ => True

end Run

def database (rows : Table → List TableRow) : Database where
  clustersFutures := (rows .clustersFutures).map TableRow.row
  clustersSpot := (rows .clustersSpot).map TableRow.row

/-- What SELECT … FINAL reads: the newest of the inserted rows of every key. -/
def finalView (s : Engine) : Database :=
  database fun t => final TableRow.key TableRow.updatedAt (s.inserted t)

/-- Whatever QueryCandles returns, it might return on the FINAL view. -/
def ReadsLikeFinal (s : Engine) : Prop :=
  ∀ market symbol tf beforeSec maxCandles answer,
    Answers (database s.parts) (buildQuery market symbol tf beforeSec maxCandles) answer →
    ∃ ideal, Answers (finalView s) (buildQuery market symbol tf beforeSec maxCandles) ideal ∧
      queryCandles answer = queryCandles ideal

@[simp] theorem database_rows (rows : Table → List TableRow) (t : Table) :
    (database rows).rows t = (rows t).map TableRow.row := by cases t <;> rfl

theorem answers_of_perm {db other : Database} {q : Query} {answer : List StoredRow}
    (perm : (db.rows q.table).Perm (other.rows q.table)) (answers : Answers db q answer) :
    Answers other q answer := by
  obtain ⟨ordered, same, descending, cut⟩ := answers
  exact ⟨ordered, same.trans (perm.filter _), descending, cut⟩

theorem appendRow_key {tenthsOf : ℚ → ℤ} {r : ClusterRow} {stored : StoredRow}
    (done : appendRow tenthsOf r = some stored) :
    sortingKey stored = storedKey tenthsOf r ∧ 0 ≤ stored.candleTime := by
  unfold appendRow at done
  split at done
  · rename_i inside
    obtain rfl := Option.some.inj done
    exact ⟨rfl, inside.1⟩
  · cases done

theorem mapM_keys {tenthsOf : ℚ → ℤ} {rows : List ClusterRow} {stored : List StoredRow}
    (done : rows.mapM (appendRow tenthsOf) = some stored) :
    stored.map sortingKey = rows.map (storedKey tenthsOf) ∧ ∀ r ∈ stored, 0 ≤ r.candleTime := by
  induction rows generalizing stored with
  | nil =>
    obtain rfl : [] = stored := by simpa using done
    exact ⟨rfl, by simp⟩
  | cons r rows ih =>
    rw [List.mapM_cons] at done
    simp only [Option.bind_eq_bind, Option.bind_eq_some_iff, Option.pure_def,
      Option.some.injEq] at done
    obtain ⟨first, made, rest, later, rfl⟩ := done
    obtain ⟨key, time⟩ := appendRow_key made
    obtain ⟨keys, times⟩ := ih later
    exact ⟨by rw [List.map_cons, List.map_cons, key, keys], List.forall_mem_cons.mpr ⟨time, times⟩⟩

theorem step_cases {tenthsOf : ℚ → ℤ} {s s' : Engine} {e : Event}
    (done : step tenthsOf s e = some s') :
    (∃ market rows now stored, e = .batchInsert market rows now ∧
      stored.map TableRow.key = rows.map (storedKey tenthsOf) ∧
      (∀ x ∈ stored, 0 ≤ x.row.candleTime) ∧ s' = s.append (tableOf market) stored) ∨
    (∃ t i j rows, e = .merge t i j ∧
      collapse TableRow.key TableRow.updatedAt (s.parts t) i j = some rows ∧
      s' = { s with parts := Function.update s.parts t rows }) := by
  cases e with
  | batchInsert market rows now =>
    obtain ⟨stored, made, rfl⟩ := Option.map_eq_some_iff.mp done
    obtain ⟨keys, times⟩ := mapM_keys made
    refine .inl ⟨market, rows, now, _, rfl, ?_, ?_, rfl⟩
    · rw [List.map_map, ← keys]
      rfl
    · exact List.forall_mem_map.mpr times
  | merge t i j =>
    obtain ⟨rows, made, rfl⟩ := Option.map_eq_some_iff.mp done
    exact .inr ⟨t, i, j, rows, rfl, made, rfl⟩

structure Merged (s : Engine) : Prop where
  same : ∀ t, (final TableRow.key TableRow.updatedAt (s.parts t)).Perm
    (final TableRow.key TableRow.updatedAt (s.inserted t))
  times : ∀ t, ∀ x ∈ s.parts t, 0 ≤ x.row.candleTime

theorem merged_empty : Merged empty := ⟨fun _ => .refl _, by simp [empty]⟩

theorem append_merged {s : Engine} (holds : Merged s) (t : Table) {rows : List TableRow}
    (times : ∀ x ∈ rows, 0 ≤ x.row.candleTime) : Merged (s.append t rows) := by
  constructor
  · intro u
    by_cases mine : u = t
    · subst mine
      simp only [Engine.append, Function.update_self]
      exact final_append (holds.same _) rows
    · simp only [Engine.append, Function.update_of_ne mine]
      exact holds.same u
  · exact (Function.forall_update_iff s.parts fun _ rows => ∀ x ∈ rows, 0 ≤ x.row.candleTime).mpr
      ⟨List.forall_mem_append.mpr ⟨holds.times t, times⟩, fun u _ => holds.times u⟩

theorem collapse_merged {s : Engine} (holds : Merged s) {t : Table} {i j : ℕ} {rows : List TableRow}
    (made : collapse TableRow.key TableRow.updatedAt (s.parts t) i j = some rows) :
    Merged { s with parts := Function.update s.parts t rows } := by
  constructor
  · exact (Function.forall_update_iff s.parts fun u rows =>
      (final TableRow.key TableRow.updatedAt rows).Perm
        (final TableRow.key TableRow.updatedAt (s.inserted u))).mpr
      ⟨(final_collapse made).trans (holds.same t), fun u _ => holds.same u⟩
  · exact (Function.forall_update_iff s.parts fun _ rows => ∀ x ∈ rows, 0 ≤ x.row.candleTime).mpr
      ⟨fun x hx => holds.times t x ((collapse_sublist made).subset hx), fun u _ => holds.times u⟩

theorem step_merged {tenthsOf : ℚ → ℤ} {s s' : Engine} {e : Event} (holds : Merged s)
    (done : step tenthsOf s e = some s') : Merged s' := by
  rcases step_cases done with ⟨market, rows, now, stored, rfl, keys, times, rfl⟩ |
    ⟨t, i, j, rows, rfl, made, rfl⟩
  · exact append_merged holds _ times
  · exact collapse_merged holds made

def Distinct (s : Engine) : Prop := ∀ t, ((s.parts t).map TableRow.key).Nodup

theorem readsLikeFinal_of_distinct {s : Engine} (merged : Merged s) (distinct : Distinct s) :
    ReadsLikeFinal s := by
  intro market symbol tf beforeSec maxCandles answer answers
  refine ⟨answer, answers_of_perm ?_ answers, rfl⟩
  rw [database_rows, finalView, database_rows]
  have same := merged.same (tableOf market)
  rw [final_of_distinct (distinct _)] at same
  exact same.map TableRow.row

theorem rowsAt_scan (rows : List StoredRow) (t : ℤ) :
    rowsAt (rows.map scan) t = (rows.filter fun r => r.candleTime = t).map scan := by
  rw [rowsAt, List.filter_map]
  rfl

theorem toFloat64_injective {a b : ℤ} (same : toFloat64 a = toFloat64 b) : a = b := by
  unfold toFloat64 at same
  exact_mod_cast (div_left_inj' (by norm_num : (10 : ℚ) ≠ 0)).mp same

theorem prices_nodup {db : Database} {q : Query} {answer : List StoredRow}
    (distinct : ((db.rows q.table).map sortingKey).Nodup) (answers : Answers db q answer) :
    ∀ c ∈ queryCandles answer, (c.cells.map fun cell => cell.price).Nodup := by
  obtain ⟨ordered, perm, -, rfl⟩ := answers
  intro c hc
  have matched : ∀ r ∈ ordered, r.symbol = q.symbol ∧ r.timeframe = q.timeframe := by
    intro r hr
    have passes := (List.mem_filter.mp (perm.mem_iff.mp hr)).2
    simp only [decide_eq_true_eq] at passes
    exact ⟨passes.1, passes.2.1⟩
  have keyed : (ordered.map sortingKey).Nodup :=
    (perm.map _).nodup_iff.mpr (distinct.sublist (List.filter_sublist.map _))
  have listed : ((ordered.take q.limit.toNat).filter fun r => r.candleTime = c.time).Sublist ordered :=
    List.filter_sublist.trans (List.take_sublist _ _)
  have cells := (candle_of_rows hc).1.map fun cell => cell.price
  rw [cells.nodup_iff, rowsAt_scan, List.map_map, List.map_map]
  have keys := keyed.sublist (listed.map sortingKey)
  rw [List.Nodup, List.pairwise_map] at keys ⊢
  refine keys.imp_of_mem ?_
  intro r u hr hu apart same
  apply apart
  have price := toFloat64_injective same
  have atR := (List.mem_filter.mp hr).2
  have atU := (List.mem_filter.mp hu).2
  simp only [decide_eq_true_eq] at atR atU
  obtain ⟨symbolR, timeframeR⟩ := matched r (listed.subset hr)
  obtain ⟨symbolU, timeframeU⟩ := matched u (listed.subset hu)
  simp only [sortingKey, symbolR, symbolU, timeframeR, timeframeU, atR, atU, price]

theorem tableOf_surjective (t : Table) : ∃ market, tableOf market = t := by
  cases t with
  | clustersFutures => exact ⟨"futures", rfl⟩
  | clustersSpot => exact ⟨"spot", rfl⟩

theorem price_twice {x y : StoredRow} (time : y.candleTime = x.candleTime) (price : y.price = x.price)
    (rest : List StoredRow) :
    ∃ c ∈ queryCandles (x :: y :: rest), ¬ (c.cells.map fun cell => cell.price).Nodup := by
  have shown := (mem_groupRows_times ((x :: y :: rest).map scan) x.candleTime).mpr ⟨scan x, by simp, rfl⟩
  obtain ⟨c, hc, atTime⟩ := List.mem_map.mp shown
  refine ⟨c, hc, ?_⟩
  have cells := (candle_of_rows hc).1.map fun cell => cell.price
  rw [cells.nodup_iff, rowsAt_scan, atTime, List.filter_cons_of_pos (by simp),
    List.filter_cons_of_pos (by simpa using time)]
  simp [scan, ScanRow.cell, price]

theorem listed_first {db : Database} {q : Query} {x y : StoredRow}
    (both : [x, y].Sublist (matching db q)) (time : y.candleTime = x.candleTime)
    (upTo : ∀ r ∈ matching db q, r.candleTime ≤ x.candleTime) (limit : 2 ≤ q.limit.toNat) :
    ∃ rest, Answers db q (x :: y :: rest) := by
  obtain ⟨others, perm⟩ := both.exists_perm_append
  let older := others.insertionSort fun r u => u.candleTime ≤ r.candleTime
  have listed : (x :: y :: older).Perm (matching db q) :=
    (((List.perm_insertionSort _ others).cons _).cons _).trans perm.symm
  have sorted : (x :: y :: older).Pairwise fun r u => u.candleTime ≤ r.candleTime := by
    refine .cons ?_ (.cons ?_ ?_)
    · intro r hr
      exact upTo r (listed.subset (List.mem_cons_of_mem _ hr))
    · intro r hr
      rw [time]
      exact upTo r (listed.subset (by simp [hr]))
    · exact List.pairwise_insertionSort _ others
  obtain ⟨n, size⟩ := Nat.exists_eq_add_of_le' limit
  refine ⟨older.take n, x :: y :: older, listed, sorted, ?_⟩
  rw [size, List.take_succ_cons, List.take_succ_cons]

theorem duplicate_read {s : Engine} {t : Table} (merged : Merged s)
    (duplicate : ¬ ((s.parts t).map TableRow.key).Nodup) : ¬ ReadsLikeFinal s := by
  obtain ⟨x, y, inside, sameKey⟩ := pair_of_duplicate duplicate
  obtain ⟨market, rfl⟩ := tableOf_surjective t
  intro like
  have time := merged.times _ x (inside.subset (by simp))
  simp only [TableRow.key, sortingKey, Prod.mk.injEq] at sameKey
  obtain ⟨symbol, timeframe, candleTime, price⟩ := sameKey
  let q := buildQuery market x.row.symbol x.row.timeframe (x.row.candleTime + 1) 1
  have before : q.before = some (x.row.candleTime + 1) := if_pos (by omega)
  have passes : ∀ r ∈ [x.row, y.row],
      r.symbol = q.symbol ∧ r.timeframe = q.timeframe ∧ ∀ b ∈ q.before, r.candleTime < b := by
    intro r hr
    rw [before]
    rcases List.mem_pair.mp hr with rfl | rfl
    · simp [q, buildQuery]
    · simp [q, buildQuery, symbol, timeframe, candleTime]
  have both : [x.row, y.row].Sublist (matching (database s.parts) q) := by
    have listed := (inside.map TableRow.row).filter fun r =>
      r.symbol = q.symbol ∧ r.timeframe = q.timeframe ∧ ∀ b ∈ q.before, r.candleTime < b
    rw [List.map_cons, List.map_singleton, List.filter_eq_self.mpr (by simpa using passes)] at listed
    rw [matching, database_rows]
    exact listed
  have upTo : ∀ r ∈ matching (database s.parts) q, r.candleTime ≤ x.row.candleTime := by
    intro r hr
    have early := (List.mem_filter.mp hr).2
    rw [before] at early
    simp only [Option.mem_some_iff, forall_eq', decide_eq_true_eq] at early
    omega
  have limit : q.limit.toNat = 50 := rfl
  obtain ⟨rest, answers⟩ := listed_first both candleTime upTo (by omega)
  obtain ⟨ideal, ideals, same⟩ := like market _ _ _ _ _ answers
  obtain ⟨c, hc, twice⟩ := price_twice candleTime price rest
  have distinct : (((finalView s).rows q.table).map sortingKey).Nodup := by
    rw [finalView, database_rows, List.map_map]
    exact final_keys_nodup _
  exact twice (prices_nodup distinct ideals c (same ▸ hc))

theorem distinct_of_fresh {tenthsOf : ℚ → ℤ} {s s' : Engine} {e : Event} (distinct : Distinct s)
    (fresh : FreshInsert tenthsOf s e) (done : step tenthsOf s e = some s') : Distinct s' := by
  have one_table : ∀ t rows, (rows.map TableRow.key).Nodup →
      ∀ u, ((Function.update s.parts t rows u).map TableRow.key).Nodup := by
    intro t rows own
    exact (Function.forall_update_iff s.parts fun _ rows => (rows.map TableRow.key).Nodup).mpr
      ⟨own, fun u _ => distinct u⟩
  rcases step_cases done with ⟨market, rows, now, stored, rfl, keys, -, rfl⟩ |
    ⟨t, i, j, rows, rfl, made, rfl⟩
  · apply one_table
    rw [List.map_append, keys]
    refine List.nodup_append.mpr ⟨distinct _, fresh.1, ?_⟩
    intro old hold new hnew same
    obtain ⟨r, hr, rfl⟩ := List.mem_map.mp hnew
    exact fresh.2 r hr (same ▸ hold)
  · apply one_table
    exact (distinct t).sublist ((collapse_sublist made).map _)

theorem duplicate_of_stale {tenthsOf : ℚ → ℤ} {s s' : Engine} {e : Event}
    (stale : ¬ FreshInsert tenthsOf s e) (done : step tenthsOf s e = some s') :
    ∃ t, ¬ ((s'.parts t).map TableRow.key).Nodup := by
  rcases step_cases done with ⟨market, rows, now, stored, rfl, keys, -, rfl⟩ |
    ⟨t, i, j, rows, rfl, -, -⟩
  · refine ⟨tableOf market, ?_⟩
    simp only [Engine.append, Function.update_self, List.map_append, keys]
    intro distinct
    obtain ⟨-, batch, apart⟩ := List.nodup_append.mp distinct
    refine stale ⟨batch, ?_⟩
    intro r hr held
    exact apart _ held _ (List.mem_map_of_mem hr) rfl
  · exact absurd trivial stale

theorem readsLikeFinal_iff_distinct {s : Engine} (merged : Merged s) :
    ReadsLikeFinal s ↔ Distinct s := by
  constructor
  · intro like t
    by_contra duplicate
    exact duplicate_read merged duplicate like
  · exact readsLikeFinal_of_distinct merged

/-- Along a run the reads stay those of the FINAL view exactly when no insert brings a
    key twice or one that its table holds. -/
theorem reads_like_final_iff (tenthsOf : ℚ → ℤ) (es : List Event) :
    Always (step tenthsOf) ReadsLikeFinal empty es ↔
      Guarded (step tenthsOf) (FreshInsert tenthsOf) empty es := by
  apply always_iff_guarded fun s => Merged s ∧ Distinct s
  · intro s both
    exact (readsLikeFinal_iff_distinct both.1).mpr both.2
  · intro s e s' both fresh done
    exact ⟨step_merged both.1 done, distinct_of_fresh both.2 fresh done⟩
  · intro s e s' both stale done
    obtain ⟨t, duplicate⟩ := duplicate_of_stale stale done
    intro like
    exact duplicate ((readsLikeFinal_iff_distinct (step_merged both.1 done)).mp like t)
  · exact ⟨merged_empty, by simp [Distinct, empty]⟩

def loadedRow : ClusterRow := ⟨"BTCUSDT", "1m", 1718361600, 100, 3 / 2, 2, 100, 100⟩

/-- One row of history loaded twice and not merged yet: its candle has the row twice. -/
theorem second_load_changes_candle :
    ¬ Always (step fun v => DecimalText.roundHalfAway (10 * v)) ReadsLikeFinal empty
      [.batchInsert "futures" [loadedRow] 1, .batchInsert "futures" [loadedRow] 2] := by
  intro always
  have first := step_merged merged_empty
    (show step (fun v => DecimalText.roundHalfAway (10 * v)) empty
      (.batchInsert "futures" [loadedRow] 1) = some _ from rfl)
  have second := step_merged first
    (show step (fun v => DecimalText.roundHalfAway (10 * v)) _
      (.batchInsert "futures" [loadedRow] 2) = some _ from rfl)
  exact duplicate_read (t := .clustersFutures) second (List.not_nodup_pair _) (always_final always rfl)

end TableMerges
