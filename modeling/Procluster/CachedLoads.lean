import Procluster.DailyLoads
import Procluster.KeptFiles
import Procluster.TradeCsv

/-!
Package history: Pipeline.Run over the kept files. Loads of one ticker that follow one
another share its directory, so a day that is loaded again is loaded from the same file.
-/
namespace CachedLoads
open Aggregate HistoryLoad TableMerges DailyLoads DownloadCache EventRuns
open LiveIngest (ClusterRow)
open QueryCandles (Table)
open TradeCsv (SliceSort ScanError Text)

def tradeOf (t : TradeCsv.Trade ℚ) : Trade := ⟨t.tradeID, t.price, t.qty, t.tradeTimeMs, t.isBuyerMaker⟩

section Pipeline
variable (arith : Arithmetic) (a : Archives) (tenthsOf : ℚ → ℤ) (cfg : HistoryConfig)
  (date : ℤ → String) (runes : Bytes → Text) (parseFloat : Text → Option ℚ) (slices : SliceSort ℚ)

def tradesOf (bytes : Bytes) : Except ScanError (List Trade) :=
  (TradeCsv.parseCSV parseFloat slices cfg.market (runes bytes)).map (List.map tradeOf)

def fetchDay (d : ℤ) (o : Outcome) (disk : Disk) : Disk × Except LoadError String :=
  downloadAndExtract a.openReader a.remote cfg.symbol cfg.market (date d) (tempDir cfg.market cfg.symbol)
    o disk

/-- Runs the days given, with the days loaded and the calls that DownloadAndExtract got. A day
    whose file is returned is skipped all the same where the file cannot be opened or parsed or
    its rows cannot be inserted. -/
inductive Load : List ℤ → Disk → Engine → Disk → Engine → List ℤ → List (String × Outcome) → Prop where
  | finished (disk : Disk) (s : Engine) : Load [] disk s disk s [] []
  | cancelled (dates : List ℤ) (disk : Disk) (s : Engine) : Load dates disk s disk s [] []
  | skipped {d : ℤ} {dates loaded : List ℤ} {disk disk' : Disk} {s s' : Engine}
      {calls : List (String × Outcome)} (o : Outcome) (answers : a.answers (date d) o)
      (rest : Load dates (fetchDay a cfg date d o disk).1 s disk' s' loaded calls) :
      Load (d :: dates) disk s disk' s' loaded ((date d, o) :: calls)
  | loaded {d : ℤ} {dates loaded : List ℤ} {disk disk' : Disk} {s s₁ s' : Engine}
      {calls : List (String × Outcome)} {path : String}
      {bytes : Bytes} {trades : List Trade} {rows : List ClusterRow} {now : ℤ} (o : Outcome)
      (answers : a.answers (date d) o)
      (returned : (fetchDay a cfg date d o disk).2 = .ok path)
      (content : (fetchDay a cfg date d o disk).1 path = some bytes)
      (parsed : tradesOf cfg runes parseFloat slices bytes = .ok trades)
      (handed : HandsOver arith cfg trades rows)
      (insert : step tenthsOf s (.batchInsert cfg.market rows now) = some s₁)
      (rest : Load dates (fetchDay a cfg date d o disk).1 s₁ disk' s' loaded calls) :
      Load (d :: dates) disk s disk' s' (d :: loaded) ((date d, o) :: calls)
  | merged {t : Table} {i j : ℕ} {dates loaded : List ℤ} {disk disk' : Disk} {s s₁ s' : Engine}
      {calls : List (String × Outcome)} (merge : step tenthsOf s (.merge t i j) = some s₁)
      (rest : Load dates disk s₁ disk' s' loaded calls) : Load dates disk s disk' s' loaded calls

inductive Loads : Disk → Engine → Disk → Engine → List ℤ → List (String × Outcome) → Prop where
  | none (disk : Disk) (s : Engine) : Loads disk s disk s [] []
  | next {first last : ℤ} {loaded later : List ℤ} {disk disk₁ disk' : Disk} {s s₁ s' : Engine}
      {calls after : List (String × Outcome)}
      (load : Load arith a tenthsOf cfg date runes parseFloat slices (dateRange first last) disk s disk₁ s₁ loaded
        calls)
      (rest : Loads disk₁ s₁ disk' s' later after) : Loads disk s disk' s' (loaded ++ later) (calls ++ after)

structure Ours : Prop where
  symbol : a.symbol = cfg.symbol
  market : a.market = cfg.market
  destDir : a.destDir = tempDir cfg.market cfg.symbol

end Pipeline

section Kept
variable {a : Archives} {disk : Disk}

theorem csv_stays (kept : Kept a disk) {date other : String} {o : Outcome} (answers : a.answers date o)
    (there : a.published other) {bytes : Bytes} (here : disk (a.csvPath other) = some bytes) :
    (a.call date o disk).1 (a.csvPath other) = some bytes := by
  have shown := (kept.begins other there).csv
  rw [here] at shown
  obtain ⟨k, csv, content⟩ := Option.map_eq_some_iff.mp shown.symm
  have moved : a.step disk (date, o) = some (a.call date o disk).1 := if_pos answers
  rcases shows_step there kept moved with ⟨-, held⟩ | ⟨-, held⟩
  · rw [held.csv, csv, Option.map_some, content]
  · rw [held.csv, Shelf.call_kept csv, Option.map_some, content]

theorem returned_published (kept : Kept a disk) {date path : String} {o : Outcome}
    (answers : a.answers date o) (returned : (a.call date o disk).2 = .ok path) : a.published date := by
  by_contra unknown
  have body : o.body = none := by simpa [Archives.answers, unknown] using answers
  obtain ⟨e, nothing⟩ := call_nothing body (kept.missing date unknown)
  rw [nothing] at returned
  cases returned

end Kept

section Refinement
variable {arith : Arithmetic} {a : Archives} {tenthsOf : ℚ → ℤ} {cfg : HistoryConfig} {date : ℤ → String}
  {runes : Bytes → Text} {parseFloat : Text → Option ℚ} {slices : SliceSort ℚ}

theorem fetchDay_eq (ours : Ours a cfg) (d : ℤ) (o : Outcome) (disk : Disk) :
    fetchDay a cfg date d o disk = a.call (date d) o disk := by
  rw [fetchDay, Archives.call, ours.symbol, ours.market, ours.destDir]

/-- The directory holds the day's CSV, or a beginning of it, and these are its trades. -/
def Holds (a : Archives) (cfg : HistoryConfig) (date : ℤ → String) (runes : Bytes → Text)
    (parseFloat : Text → Option ℚ) (slices : SliceSort ℚ) (disk : Disk) (d : ℤ) (trades : List Trade) :
    Prop :=
  a.published (date d) ∧ ∃ k, disk (a.csvPath (date d)) = some ((a.csv (date d)).content.take k) ∧
    tradesOf cfg runes parseFloat slices ((a.csv (date d)).content.take k) = .ok trades

theorem holds_unique {disk : Disk} {d : ℤ} {trades others : List Trade}
    (holds : Holds a cfg date runes parseFloat slices disk d trades)
    (again : Holds a cfg date runes parseFloat slices disk d others) : trades = others := by
  obtain ⟨-, k, content, parsed⟩ := holds
  obtain ⟨-, j, same, reparsed⟩ := again
  rw [← Option.some.inj (content.symm.trans same), parsed] at reparsed
  exact Except.ok.inj reparsed

theorem load_run (ours : Ours a cfg) {dates loaded : List ℤ} {disk disk' : Disk} {s s' : Engine}
    {calls : List (String × Outcome)}
    (load : Load arith a tenthsOf cfg date runes parseFloat slices dates disk s disk' s' loaded calls) :
    run a.step disk calls = some disk' := by
  induction load with
  | finished disk s => rfl
  | cancelled dates disk s => rfl
  | @skipped d dates loaded disk disk' s s' calls o answers rest ih =>
    rw [fetchDay_eq ours] at ih
    have moved : a.step disk (date d, o) = some (a.call (date d) o disk).1 := if_pos answers
    rw [run_cons, moved, Option.bind_some, ih]
  | @loaded d dates loaded disk disk' s s₁ s' calls path bytes trades rows now o answers returned content
      parsed handed insert rest ih =>
    rw [fetchDay_eq ours] at ih
    have moved : a.step disk (date d, o) = some (a.call (date d) o disk).1 := if_pos answers
    rw [run_cons, moved, Option.bind_some, ih]
  | merged merge rest ih => exact ih

theorem loads_run (ours : Ours a cfg) {loaded : List ℤ} {disk disk' : Disk} {s s' : Engine}
    {calls : List (String × Outcome)}
    (loads : Loads arith a tenthsOf cfg date runes parseFloat slices disk s disk' s' loaded calls) :
    run a.step disk calls = some disk' := by
  induction loads with
  | none disk s => rfl
  | next load rest ih => rw [run_append, load_run ours load, Option.bind_some, ih]

theorem load_keeps (ours : Ours a cfg) {dates loaded : List ℤ} {disk disk' : Disk} {s s' : Engine}
    {calls : List (String × Outcome)}
    (load : Load arith a tenthsOf cfg date runes parseFloat slices dates disk s disk' s' loaded calls)
    (kept : Kept a disk) : Kept a disk' ∧
      ∀ other bytes, a.published other → disk (a.csvPath other) = some bytes → disk' (a.csvPath other) = some bytes := by
  induction load with
  | finished disk s => exact ⟨kept, fun _ _ _ here => here⟩
  | cancelled dates disk s => exact ⟨kept, fun _ _ _ here => here⟩
  | skipped o answers rest ih =>
    rw [fetchDay_eq ours] at ih
    obtain ⟨after, stays⟩ := ih (kept_call kept answers)
    exact ⟨after, fun other bytes there here =>
      stays other bytes there (csv_stays kept answers there here)⟩
  | loaded o answers returned content parsed handed insert rest ih =>
    rw [fetchDay_eq ours] at ih
    obtain ⟨after, stays⟩ := ih (kept_call kept answers)
    exact ⟨after, fun other bytes there here =>
      stays other bytes there (csv_stays kept answers there here)⟩
  | merged merge rest ih => exact ih kept

theorem loads_keep (ours : Ours a cfg) {loaded : List ℤ} {disk disk' : Disk} {s s' : Engine}
    {calls : List (String × Outcome)}
    (loads : Loads arith a tenthsOf cfg date runes parseFloat slices disk s disk' s' loaded calls)
    (kept : Kept a disk) : Kept a disk' ∧
      ∀ other bytes, a.published other → disk (a.csvPath other) = some bytes → disk' (a.csvPath other) = some bytes := by
  induction loads with
  | none disk s => exact ⟨kept, fun _ _ _ here => here⟩
  | next load rest ih =>
    obtain ⟨between, early⟩ := load_keeps ours load kept
    obtain ⟨after, late⟩ := ih between
    exact ⟨after, fun other bytes there here => late other bytes there (early other bytes there here)⟩

theorem load_refines (ours : Ours a cfg) {files : ℤ → List Trade} {dates loaded : List ℤ}
    {disk disk' last : Disk} {s s' : Engine} {calls : List (String × Outcome)}
    (load : Load arith a tenthsOf cfg date runes parseFloat slices dates disk s disk' s' loaded calls)
    (kept : Kept a disk)
    (later : ∀ other bytes, a.published other → disk' (a.csvPath other) = some bytes → last (a.csvPath other) = some bytes)
    (held : ∀ d trades, Holds a cfg date runes parseFloat slices last d trades → files d = trades) :
    Run arith tenthsOf cfg files dates s s' loaded ∧
      ∀ d ∈ loaded, Holds a cfg date runes parseFloat slices last d (files d) := by
  induction load with
  | finished disk s => exact ⟨.finished s, by simp⟩
  | cancelled dates disk s => exact ⟨.cancelled dates s, by simp⟩
  | skipped o answers rest ih =>
    rw [fetchDay_eq ours] at ih
    obtain ⟨run, holds⟩ := ih (kept_call kept answers) later
    exact ⟨.skipped run, holds⟩
  | @loaded d dates loaded disk disk' s s₁ s' calls path bytes trades rows now o answers returned content
      parsed handed insert rest ih =>
    rw [fetchDay_eq ours] at returned content rest ih
    obtain ⟨run, holds⟩ := ih (kept_call kept answers) later
    have there := returned_published kept answers returned
    obtain ⟨rfl, k, -, cut⟩ := call_path there kept returned
    rw [cut] at content
    cases Option.some.inj content
    have stays := later _ _ there ((load_keeps ours rest (kept_call kept answers)).2 _ _ there cut)
    have own : Holds a cfg date runes parseFloat slices last d trades := ⟨there, k, stays, parsed⟩
    cases held d trades own
    exact ⟨.loaded handed insert run, List.forall_mem_cons.mpr ⟨own, holds⟩⟩
  | merged merge rest ih =>
    obtain ⟨run, holds⟩ := ih kept later
    exact ⟨.merged merge run, holds⟩

theorem loads_refine (ours : Ours a cfg) {files : ℤ → List Trade} {loaded : List ℤ}
    {disk disk' : Disk} {s s' : Engine} {calls : List (String × Outcome)}
    (loads : Loads arith a tenthsOf cfg date runes parseFloat slices disk s disk' s' loaded calls)
    (kept : Kept a disk)
    (held : ∀ d trades, Holds a cfg date runes parseFloat slices disk' d trades → files d = trades) :
    Runs arith tenthsOf cfg files s s' loaded ∧
      ∀ d ∈ loaded, Holds a cfg date runes parseFloat slices disk' d (files d) := by
  induction loads with
  | none disk s => exact ⟨.none s, by simp⟩
  | next load rest ih =>
    have between := (load_keeps ours load kept).1
    obtain ⟨runs, late⟩ := ih between held
    obtain ⟨run, early⟩ := load_refines ours load kept (loads_keep ours rest between).2 held
    refine ⟨.next run runs, ?_⟩
    intro d inside
    exact (List.mem_append.mp inside).elim (early d) (late d)

theorem holds_whole {disk : Disk} {d : ℤ} {trades : List Trade} {calls : List (String × Outcome)}
    (holds : Holds a cfg date runes parseFloat slices disk d trades)
    (reach : run a.step DownloadCache.empty calls = some disk)
    (uncut : Guarded a.step (a.Uncut (date d)) DownloadCache.empty calls) :
    tradesOf cfg runes parseFloat slices (a.csv (date d)).content = .ok trades := by
  obtain ⟨there, k, here, parsed⟩ := holds
  rcases (intact_of_uncut there reach uncut).2 with none_ | whole
  · rw [none_] at here
    cases here
  · rwa [← Option.some.inj (whole.symm.trans here)] at parsed

open Classical in
/-- Loads that start without files, whatever fails in them and in whatever order days come
    again, do to the table what loads of the files do that the directory holds in the end:
    each day's CSV, or always the same beginning of it, and the whole CSV where no call for
    the day was cut. -/
theorem loads_of_kept_files (ours : Ours a cfg) {disk : Disk} {s : Engine} {loaded : List ℤ}
    {calls : List (String × Outcome)}
    (loads : Loads arith a tenthsOf cfg date runes parseFloat slices DownloadCache.empty TableMerges.empty
      disk s loaded calls) :
    ∃ files : ℤ → List Trade, Runs arith tenthsOf cfg files TableMerges.empty s loaded ∧
      ∀ d ∈ loaded, Holds a cfg date runes parseFloat slices disk d (files d) ∧
        (Guarded a.step (a.Uncut (date d)) DownloadCache.empty calls →
          tradesOf cfg runes parseFloat slices (a.csv (date d)).content = .ok (files d)) := by
  let files : ℤ → List Trade := fun d =>
    if held : ∃ trades, Holds a cfg date runes parseFloat slices disk d trades then held.choose else []
  have held : ∀ d trades, Holds a cfg date runes parseFloat slices disk d trades → files d = trades := by
    intro d trades holds
    have some_ : ∃ trades, Holds a cfg date runes parseFloat slices disk d trades := ⟨trades, holds⟩
    simp only [files, dif_pos some_]
    exact holds_unique some_.choose_spec holds
  obtain ⟨runs, holds⟩ := loads_refine ours loads (kept_empty a) held
  refine ⟨files, runs, ?_⟩
  intro d inside
  exact ⟨holds d inside, holds_whole (holds d inside) (loads_run ours loads)⟩

end Refinement

def bytesAsChars (bytes : Bytes) : Text := bytes.map fun b => .char (Char.ofNat b.toNat)

def byTradeID : SliceSort ℚ where
  sort := List.insertionSort fun t u => t.tradeID ≤ u.tradeID
  perm := List.perm_insertionSort _
  sorted := by
    have total : Std.Total fun t u : TradeCsv.Trade ℚ => t.tradeID ≤ u.tradeID :=
      ⟨fun t u => le_total t.tradeID u.tradeID⟩
    have transitive : IsTrans (TradeCsv.Trade ℚ) fun t u => t.tradeID ≤ u.tradeID :=
      ⟨fun _ _ _ early late => le_trans early late⟩
    exact List.pairwise_insertionSort _

def btcOneDay : HistoryConfig := ⟨"BTCUSDT", "futures", 1 / 10, 25, ["1m"]⟩

def onlyTrade : List Trade := [⟨1, 100, 1, 0, false⟩]

def keptCalls : List (String × Outcome) := [("1970-01-01", faultless), ("1970-01-01", faultless)]

/- The archive is loaded, and then again from the files kept. -/
theorem one_day_kept : ∃ disk s, Loads doubles oneDay nearestTenth btcOneDay (fun _ => "1970-01-01") bytesAsChars
    TradeCsv.readFloat byTradeID DownloadCache.empty TableMerges.empty disk s [0, 0] keptCalls ∧
    ∃ files : ℤ → List Trade, Runs doubles nearestTenth btcOneDay files TableMerges.empty s [0, 0] ∧
      ∀ d ∈ [0, 0], Holds oneDay btcOneDay (fun _ => "1970-01-01") bytesAsChars TradeCsv.readFloat byTradeID
        disk d (files d) ∧
        (Guarded oneDay.step (oneDay.Uncut "1970-01-01") DownloadCache.empty keptCalls →
          tradesOf btcOneDay bytesAsChars TradeCsv.readFloat byTradeID (oneDay.csv "1970-01-01").content =
            .ok (files d)) := by
  have ours : Ours oneDay btcOneDay := ⟨rfl, rfl, rfl⟩
  have parsed : tradesOf btcOneDay bytesAsChars TradeCsv.readFloat byTradeID
      (oneDay.csv "1970-01-01").content = .ok onlyTrade := by
    decide +kernel
  have fits : ∀ r ∈ allRows btcOneDay (aggregate doubles btcOneDay onlyTrade), Accepted r := by decide +kernel
  have day : dateRange 0 0 = [0] := rfl
  -- A load of the day from a directory where nothing is kept in part.
  have loads : ∀ disk s, Kept oneDay disk → oneDay.Intact "1970-01-01" disk → ∃ s',
      Load doubles oneDay nearestTenth btcOneDay (fun _ => "1970-01-01") bytesAsChars TradeCsv.readFloat byTradeID
        (dateRange 0 0) disk s (oneDay.call "1970-01-01" faultless disk).1 s' [0]
        [("1970-01-01", faultless)] := by
    intro disk s kept intact
    have returned := faultless_returns rfl kept intact
    obtain ⟨s', insert⟩ := insert_accepted nearestTenth fits "futures" s 7
    rw [day]
    exact ⟨s', .loaded faultless rfl returned (intact_returns rfl kept intact returned).2 parsed
      ⟨_, .refl _, rfl⟩ insert (.finished _ _)⟩
  have whole : oneDay.Intact "1970-01-01" (oneDay.call "1970-01-01" faultless DownloadCache.empty).1 :=
    ⟨.inr (.inr rfl), .inr rfl⟩
  have kept := kept_empty oneDay
  have answers : oneDay.answers "1970-01-01" faultless := rfl
  obtain ⟨s, first⟩ := loads DownloadCache.empty TableMerges.empty kept ⟨.inl rfl, .inl rfl⟩
  obtain ⟨s', again⟩ := loads _ s (kept_call kept answers) whole
  have both : Loads doubles oneDay nearestTenth btcOneDay (fun _ => "1970-01-01") bytesAsChars TradeCsv.readFloat
      byTradeID DownloadCache.empty TableMerges.empty _ s' [0, 0] keptCalls :=
    .next first (.next again (.none _ _))
  exact ⟨_, s', both, loads_of_kept_files ours both⟩

end CachedLoads
