import Procluster.DownloadCache
import Procluster.Library.EventRuns

/-!
Package history: runs of DownloadAndExtract over one directory. A call that breaks off
decides what all later calls for its date find.
-/
namespace DownloadCache
open EventRuns

/-- The files of every date are beginnings of its archive and its CSV, and of the dates that
    the server does not have there is no archive. -/
structure Kept (a : Archives) (disk : Disk) : Prop where
  begins : ∀ date, a.published date → a.Shows date disk (a.shelf date disk)
  missing : ∀ date, ¬ a.published date → disk (a.zipPath date) = none

def Archives.Intact (a : Archives) (date : String) (disk : Disk) : Prop :=
  (disk (a.zipPath date) = none ∨ disk (a.zipPath date) = some [] ∨
    disk (a.zipPath date) = some (a.archive date)) ∧
  (disk (a.csvPath date) = none ∨ disk (a.csvPath date) = some (a.csv date).content)

/-- The call, if it is for the date, does not break off inside one of its files. -/
def Archives.Uncut (a : Archives) (date : String) (disk : Disk) (c : String × Outcome) : Prop :=
  c.1 = date → ¬ (a.shelf date disk).Cuts (a.total date) (a.csvTotal date) c.2

def empty : Disk := fun _ => none

section Runs
variable {a : Archives}

theorem kept_empty (a : Archives) : Kept a empty where
  begins := fun _ _ => ⟨rfl, rfl, by simp [Archives.shelf, empty], by simp [Archives.shelf, empty]⟩
  missing := fun _ _ => rfl

theorem kept_call {disk : Disk} {date : String} {o : Outcome} (kept : Kept a disk)
    (answers : a.answers date o) : Kept a (a.call date o disk).1 := by
  by_cases there : a.published date
  · obtain ⟨held, -, others⟩ := call_shows there (kept.begins date there) o
    constructor
    · intro other too
      by_cases same : date = other
      · subst same
        rw [shelf_shown held]
        exact held
      · have theirs := call_other there (kept.begins date there) same too (kept.begins other too) o
        rw [shelf_shown theirs]
        exact theirs
    · intro other unknown
      rw [others _ _ (zipPath_ne_csvPath a other there)]
      · exact kept.missing other unknown
      · intro same
        exact unknown (zipPath_injective a same ▸ there)
  · have body : o.body = none := by simpa [Archives.answers, there] using answers
    obtain ⟨e, nothing⟩ := call_nothing body (kept.missing date there)
    rw [nothing]
    exact kept

theorem step_call {disk disk' : Disk} {c : String × Outcome} (moved : a.step disk c = some disk') :
    a.answers c.1 c.2 ∧ disk' = (a.call c.1 c.2 disk).1 := by
  rw [Archives.step, Option.ite_none_right_eq_some] at moved
  exact ⟨moved.1, (Option.some.inj moved.2).symm⟩

theorem kept_step {disk disk' : Disk} {c : String × Outcome} (kept : Kept a disk)
    (moved : a.step disk c = some disk') : Kept a disk' := by
  obtain ⟨answers, rfl⟩ := step_call moved
  exact kept_call kept answers

theorem kept_run {disk disk' : Disk} {calls : List (String × Outcome)} (kept : Kept a disk)
    (reach : run a.step disk calls = some disk') : Kept a disk' :=
  invariant_run (Kept a) (fun _ _ => True) (fun _ _ _ kept _ moved => kept_step kept moved) kept
    (guarded_of_events fun _ _ _ => trivial) reach

theorem take_eq_self_iff {bytes : Bytes} {k : ℕ} (inside : k ≤ bytes.length) :
    bytes.take k = bytes ↔ k = bytes.length := by
  rw [List.take_eq_self_iff]
  omega

theorem take_eq_nil_iff {bytes : Bytes} {k : ℕ} (inside : k ≤ bytes.length) :
    bytes.take k = [] ↔ k = 0 := by
  constructor
  · intro nothing
    have length := congrArg List.length nothing
    simp only [List.length_take, List.length_nil] at length
    omega
  · rintro rfl
    rfl

theorem intact_iff {date : String} {disk : Disk} {s : Shelf} (held : a.Shows date disk s) :
    a.Intact date disk ↔ s.Intact (a.total date) (a.csvTotal date) := by
  obtain ⟨zip, csv, fits⟩ := held
  rw [Archives.Intact, Shelf.Intact, zip, csv]
  have zipFits := fits.zip
  have csvFits := fits.csv
  apply and_congr
  · cases kept : s.zip with
    | none => simp
    | some k =>
      have inside : k ≤ (a.archive date).length := zipFits k kept
      simp [take_eq_self_iff inside, take_eq_nil_iff inside, Archives.total]
  · cases kept : s.csv with
    | none => simp
    | some k =>
      have inside : k ≤ (a.csv date).content.length := csvFits k kept
      simp [take_eq_self_iff inside, Archives.csvTotal]

theorem shows_step {date : String} {disk disk' : Disk} {c : String × Outcome} (there : a.published date)
    (kept : Kept a disk) (moved : a.step disk c = some disk') :
    (c.1 ≠ date ∧ a.Shows date disk' (a.shelf date disk)) ∨
      (c.1 = date ∧ a.Shows date disk'
        ((a.shelf date disk).call (a.total date) (a.csvTotal date) c.2).1) := by
  obtain ⟨other, o⟩ := c
  obtain ⟨answers, rfl⟩ := step_call moved
  by_cases same : other = date
  · subst same
    exact .inr ⟨rfl, (call_shows there (kept.begins other there) o).1⟩
  · refine .inl ⟨same, ?_⟩
    by_cases too : a.published other
    · exact call_other too (kept.begins other too) same there (kept.begins date there) o
    · have body : o.body = none := by simpa [Archives.answers, too] using answers
      obtain ⟨e, nothing⟩ := call_nothing body (kept.missing other too)
      rw [nothing]
      exact kept.begins date there

theorem intact_step {date : String} {disk disk' : Disk} {c : String × Outcome} (there : a.published date)
    (kept : Kept a disk) (intact : a.Intact date disk) (moved : a.step disk c = some disk') :
    a.Intact date disk' ↔ a.Uncut date disk c := by
  have before := (intact_iff (kept.begins date there)).mp intact
  rcases shows_step there kept moved with ⟨other, held⟩ | ⟨own, held⟩
  · rw [intact_iff held]
    simp [Archives.Uncut, other, before]
  · rw [intact_iff held, Shelf.intact_call before]
    simp [Archives.Uncut, own]

theorem uncut_step {date : String} (there : a.published date) (disk : Disk) (c : String × Outcome)
    (disk' : Disk) (both : Kept a disk ∧ a.Intact date disk) (uncut : a.Uncut date disk c)
    (moved : a.step disk c = some disk') : Kept a disk' ∧ a.Intact date disk' :=
  ⟨kept_step both.1 moved, (intact_step there both.1 both.2 moved).mpr uncut⟩

theorem intact_of_uncut {date : String} (there : a.published date) {calls : List (String × Outcome)}
    {disk : Disk} (reach : run a.step empty calls = some disk)
    (uncut : Guarded a.step (a.Uncut date) empty calls) : a.Intact date disk := by
  have both : Kept a disk ∧ a.Intact date disk :=
    invariant_run _ (a.Uncut date) (uncut_step there) ⟨kept_empty a, .inl rfl, .inl rfl⟩ uncut reach
  exact both.2

/-- Over any run of calls that starts with no file, the files of a date stay whole just where
    no call for it broke off inside one of them. -/
theorem whole_iff_uncut (a : Archives) {date : String} (there : a.published date)
    (calls : List (String × Outcome)) :
    Always a.step (a.Intact date) empty calls ↔ Guarded a.step (a.Uncut date) empty calls := by
  apply always_iff_guarded fun disk => Kept a disk ∧ a.Intact date disk
  · intro disk both
    exact both.2
  · exact uncut_step there
  · intro disk c disk' both cut moved intact
    exact cut ((intact_step there both.1 both.2 moved).mp intact)
  · exact ⟨kept_empty a, .inl rfl, .inl rfl⟩

/- What every call leaves on the shelf stays there. -/
theorem shelf_run (property : Shelf → Prop) {date : String} (there : a.published date)
    (stays : ∀ s o, property s → property (s.call (a.total date) (a.csvTotal date) o).1)
    {disk disk' : Disk} {calls : List (String × Outcome)} (kept : Kept a disk)
    (here : property (a.shelf date disk)) (reach : run a.step disk calls = some disk') :
    property (a.shelf date disk') := by
  have both : Kept a disk' ∧ property (a.shelf date disk') := by
    apply invariant_run (fun disk => Kept a disk ∧ property (a.shelf date disk)) (fun _ _ => True) ?_
      ⟨kept, here⟩ (guarded_of_events fun _ _ _ => trivial) reach
    intro disk c disk' holds _ moved
    refine ⟨kept_step holds.1 moved, ?_⟩
    rcases shows_step there holds.1 moved with ⟨-, held⟩ | ⟨-, held⟩
    · rw [shelf_shown held]
      exact holds.2
    · rw [shelf_shown held]
      exact stays _ c.2 holds.2
  exact both.2

theorem call_path {date path : String} {disk : Disk} {o : Outcome} (there : a.published date)
    (kept : Kept a disk) (returned : (a.call date o disk).2 = .ok path) : path = a.csvPath date ∧
      ∃ k, ((a.shelf date disk).call (a.total date) (a.csvTotal date) o).2 = some k ∧
        (a.call date o disk).1 path = some ((a.csv date).content.take k) := by
  obtain ⟨held, answers, -⟩ := call_shows there (kept.begins date there) o
  obtain ⟨rfl, served⟩ := (answers path).mp returned
  obtain ⟨k, some_⟩ := Option.ne_none_iff_exists'.mp served
  refine ⟨rfl, k, some_, ?_⟩
  rw [held.csv, Shelf.call_served some_]
  rfl

theorem intact_returns {date path : String} {disk : Disk} {o : Outcome} (there : a.published date)
    (kept : Kept a disk) (intact : a.Intact date disk) (returned : (a.call date o disk).2 = .ok path) :
    path = a.csvPath date ∧ (a.call date o disk).1 path = some (a.csv date).content := by
  obtain ⟨named, k, served, content⟩ := call_path there kept returned
  have whole := ((intact_iff (kept.begins date there)).mp intact).2
  rw [Shelf.whole_served whole served, Archives.csvTotal, List.take_length] at content
  exact ⟨named, content⟩

theorem faultless_returns {date : String} {disk : Disk} (there : a.published date) (kept : Kept a disk)
    (intact : a.Intact date disk) : (a.call date faultless disk).2 = .ok (a.csvPath date) := by
  have shown := kept.begins date there
  obtain ⟨-, answers, -⟩ := call_shows there shown faultless
  exact (answers _).mpr ⟨rfl, by simp [Shelf.faultless_call ((intact_iff shown).mp intact).1]⟩

theorem extracted_run {calls : List (String × Outcome)} {date : String} {disk : Disk}
    (there : a.published date) (reach : run a.step empty calls = some disk) :
    (a.shelf date disk).Extracted (a.total date) :=
  shelf_run (Shelf.Extracted (a.total date)) there (fun _ o extracted => Shelf.extracted_call extracted _ o)
    (kept_empty a) (.inl rfl) reach

theorem kept_returns {date : String} {disk : Disk} {k : ℕ} (there : a.published date) (kept : Kept a disk)
    (extracted : (a.shelf date disk).Extracted (a.total date)) (here : (a.shelf date disk).csv = some k) :
    (a.call date faultless disk).2 = .ok (a.csvPath date) := by
  have shown := kept.begins date there
  have untorn : (a.shelf date disk).zip = none ∨ (a.shelf date disk).zip = some 0 ∨
      (a.shelf date disk).zip = some (a.total date) := by
    rcases extracted with none_ | whole | zero
    · rw [here] at none_
      cases none_
    · exact .inr (.inr whole)
    · cases zip : (a.shelf date disk).zip with
      | none => exact .inl rfl
      | some j =>
        have inside : j ≤ a.total date := shown.fits.zip j zip
        exact .inr (.inl (congrArg some (by omega)))
  obtain ⟨-, answers, -⟩ := call_shows there shown faultless
  exact (answers _).mpr ⟨rfl, by simp [Shelf.faultless_call untorn]⟩

/-- A call where nothing fails returns the date's CSV, no call returns anything else, and the
    files stay whole in every call that does not break off inside one of them. -/
structure Archives.Serves (a : Archives) (date : String) (disk : Disk) : Prop where
  faultless : (a.call date faultless disk).2 = .ok (a.csvPath date)
  whole : ∀ o path, (a.call date o disk).2 = .ok path →
    path = a.csvPath date ∧ (a.call date o disk).1 path = some (a.csv date).content
  stays : ∀ c disk', a.step disk c = some disk' → (a.Intact date disk' ↔ a.Uncut date disk c)

/-- Every call for the date fails from now on. -/
def Archives.Refuses (a : Archives) (date : String) (disk : Disk) : Prop :=
  ∀ later disk', run a.step disk later = some disk' → ∀ o, ∃ e, (a.call date o disk').2 = .error e

/-- From now on a call where nothing fails returns the date's CSV, and every call that
    returns one returns the same part of it. -/
def Archives.Truncates (a : Archives) (date : String) (disk : Disk) : Prop :=
  ∃ k, k < (a.csv date).content.length ∧ ∀ later disk', run a.step disk later = some disk' →
    (a.call date faultless disk').2 = .ok (a.csvPath date) ∧
      ∀ o path, (a.call date o disk').2 = .ok path →
        path = a.csvPath date ∧ (a.call date o disk').1 path = some ((a.csv date).content.take k)

theorem torn_refuses {date : String} {disk : Disk} {k : ℕ} (there : a.published date) (kept : Kept a disk)
    (torn : (a.shelf date disk).zip = some k) (some_ : 0 < k) (short : k < a.total date) :
    a.Refuses date disk := by
  intro later disk' reach o
  have still := shelf_run (fun s => s.zip = some k) there
    (fun s o zip => by rw [Shelf.torn_call zip some_ short]; exact zip) kept torn reach
  obtain ⟨-, answers, -⟩ := call_shows there ((kept_run kept reach).begins date there) o
  cases answer : (a.call date o disk').2 with
  | error e => exact ⟨e, rfl⟩
  | ok path =>
    have served := ((answers path).mp answer).2
    rw [Shelf.torn_call still some_ short] at served
    exact absurd rfl served

theorem stale_truncates {calls : List (String × Outcome)} {date : String} {disk : Disk} {k : ℕ}
    (there : a.published date) (reach : run a.step empty calls = some disk)
    (stale : (a.shelf date disk).csv = some k) (short : k < (a.csv date).content.length) :
    a.Truncates date disk := by
  refine ⟨k, short, ?_⟩
  intro later disk' reach'
  have kept := kept_run (kept_empty a) reach
  have kept' := kept_run kept reach'
  have still := shelf_run (fun s => s.csv = some k) there (fun s o csv => Shelf.call_kept csv _ _ o)
    kept stale reach'
  have extracted := shelf_run (Shelf.Extracted (a.total date)) there
    (fun _ o extracted => Shelf.extracted_call extracted _ o) kept (extracted_run there reach) reach'
  refine ⟨kept_returns there kept' extracted still, ?_⟩
  intro o path returned
  obtain ⟨named, j, served, content⟩ := call_path there kept' returned
  have now := Shelf.call_served served
  rw [Shelf.call_kept still] at now
  cases now
  exact ⟨named, content⟩

/-- Whatever calls came before, a date is in one of three states: nothing of it is kept in part
    and its CSV is served whole, or it is refused for good, or it is truncated for good. -/
theorem cached_fate (a : Archives) {calls : List (String × Outcome)} {disk : Disk}
    (reach : run a.step empty calls = some disk) {date : String} (there : a.published date) :
    (a.Intact date disk ∧ a.Serves date disk) ∨ a.Refuses date disk ∨ a.Truncates date disk := by
  have kept := kept_run (kept_empty a) reach
  have shown := kept.begins date there
  rcases Shelf.intact_or_cut shown.fits with shelf | ⟨k, torn, some_, short⟩ | ⟨k, stale, short⟩
  · have intact := (intact_iff shown).mpr shelf
    refine .inl ⟨intact, faultless_returns there kept intact, ?_, ?_⟩
    · exact fun o path returned => intact_returns there kept intact returned
    · exact fun c disk' moved => intact_step there kept intact moved
  · exact .inr (.inl (torn_refuses there kept torn some_ short))
  · exact .inr (.inr (stale_truncates there reach stale short))

end Runs

def oneDay : Archives where
  symbol := "BTCUSDT"
  market := "futures"
  destDir := tempDir "futures" "BTCUSDT"
  openReader := fun bytes => if bytes = [80, 75] then
    some [⟨"BTCUSDT-trades-1970-01-01.csv", [49, 44, 49, 48, 48, 44, 49, 44, 49, 48, 48, 44, 48, 44, 116]⟩]
    else none
  remote := fun _ => [80, 75]
  published := fun date => date = "1970-01-01"
  csv := fun _ => ⟨"BTCUSDT-trades-1970-01-01.csv", [49, 44, 49, 48, 48, 44, 49, 44, 49, 48, 48, 44, 48, 44, 116]⟩
  whole := fun _ _ => ⟨_, rfl, rfl⟩
  cut := by
    intro date k _ short
    have lengths : k = 0 ∨ k = 1 := by
      simp only [List.length_cons, List.length_nil] at short
      omega
    rcases lengths with rfl | rfl <;> rfl
  apart := by
    intro d e first second _
    exact (of_decide_eq_true first).trans (of_decide_eq_true second).symm

def cutDownload : List (String × Outcome) :=
  [("1970-01-01", { reply := .answered 200 (some 1) }), ("1970-01-01", faultless)]

theorem one_day_torn : Always oneDay.step (oneDay.Intact "1970-01-01") empty cutDownload ↔
    Guarded oneDay.step (oneDay.Uncut "1970-01-01") empty cutDownload :=
  whole_iff_uncut oneDay rfl cutDownload

theorem one_day_fate : ∃ disk, run oneDay.step empty cutDownload = some disk ∧
    ((oneDay.Intact "1970-01-01" disk ∧ oneDay.Serves "1970-01-01" disk) ∨
      oneDay.Refuses "1970-01-01" disk ∨ oneDay.Truncates "1970-01-01" disk) := by
  have reach : run oneDay.step empty cutDownload = some _ := rfl
  exact ⟨_, reach, cached_fate oneDay reach rfl⟩

end DownloadCache
