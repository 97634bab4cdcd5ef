import Mathlib.Data.List.DropRight
import Mathlib.Tactic.Linarith

/-!
Package history: the files DownloadAndExtract keeps. An archive is requested only where
none is kept, and its CSV is extracted only where no file of that name is kept. So what a
call leaves behind when it breaks off is what the later calls find.
-/
namespace DownloadCache

abbrev Bytes := List UInt8

abbrev Disk := String → Option Bytes

structure ZipFile where
  name : String
  content : Bytes

def downloadURL (symbol market date : String) : String :=
  if market = "futures" then
    "https://data.binance.vision/data/futures/um/daily/trades/" ++ symbol ++ "/" ++ symbol ++
      "-trades-" ++ date ++ ".zip"
  else
    "https://data.binance.vision/data/spot/daily/trades/" ++ symbol ++ "/" ++ symbol ++
      "-trades-" ++ date ++ ".zip"

def tempDir (market symbol : String) : String := "data/history/" ++ market ++ "/" ++ symbol

/-- filepath.Join, on clean parts. -/
def join (dir name : String) : String := dir ++ "/" ++ name

/-- filepath.Base of a name with no slash at its end. -/
def base (name : String) : String := String.ofList (name.toList.rtakeWhile (· ≠ '/'))

/-- strings.HasSuffix(f.Name, ".csv") -/
def isCSV (f : ZipFile) : Bool := ['.', 'c', 's', 'v'].isSuffixOf f.name.toList

inductive Reply where
  | failed
  | answered (status : ℕ) (cut : Option ℕ)

/-- How the calls of one DownloadAndExtract to the system and the server come out. A cut is
    the number of bytes after which a copy breaks off. A process that is killed leaves what
    a call leaves that fails there. -/
structure Outcome where
  mkdir : Bool := true
  removed : Bool := true
  reply : Reply := .answered 200 none
  created : Bool := true
  opened : Bool := true
  csvCreated : Bool := true
  entryOpened : Bool := true
  cut : Option ℕ := none

def faultless : Outcome := {}

inductive DownloadError where
  | request
  | notFound (url : String)
  | http (status : ℕ) (url : String)
  | create
  | copy

inductive ExtractError where
  | openReader
  | create
  | openEntry
  | copy
  | noCSV (zipPath : String)

inductive LoadError where
  | mkdir
  | remove
  | download (e : DownloadError)
  | extract (e : ExtractError)

def Outcome.body (o : Outcome) : Option (Option ℕ) :=
  match o.reply with
  | .failed => none
  | .answered status cut => if status = 200 ∧ o.created then some cut else none

def write (path : String) (bytes : Bytes) (disk : Disk) : Disk := Function.update disk path (some bytes)

def copied (bytes : Bytes) (cut : Option ℕ) : Bytes := cut.elim bytes bytes.take

section Calls
variable (openReader : Bytes → Option (List ZipFile)) (remote : String → Bytes)

def downloadFile (url dest : String) (o : Outcome) (disk : Disk) : Disk × Except DownloadError Unit :=
  match o.reply with
  | .failed => (disk, .error .request)
  | .answered status cut =>
    if status = 404 then (disk, .error (.notFound url))
    else if status ≠ 200 then (disk, .error (.http status url))
    else if o.created = false then (disk, .error .create)
    else (write dest (copied (remote url) cut) disk, if cut = none then .ok () else .error .copy)

def extractCSV (zipPath destDir : String) (o : Outcome) (disk : Disk) : Disk × Except ExtractError String :=
  match if o.opened then (disk zipPath).bind openReader else none with
  | none => (disk, .error .openReader)
  | some files =>
    match files.find? isCSV with
    | none => (disk, .error (.noCSV zipPath))
    | some f =>
      let csvPath := join destDir (base f.name)
      if disk csvPath ≠ none then (disk, .ok csvPath)
      else if o.csvCreated = false then (disk, .error .create)
      -- The file is created before the entry is opened, so it stays behind empty.
      else if o.entryOpened = false then (write csvPath [] disk, .error .openEntry)
      else (write csvPath (copied f.content o.cut) disk, if o.cut = none then .ok csvPath else .error .copy)

def download (url zipPath : String) (o : Outcome) (disk : Disk) : Disk × Except LoadError Unit :=
  if disk zipPath = none ∨ disk zipPath = some [] then
    if o.removed = false then (disk, .error .remove)
    else
      let (disk, err) := downloadFile remote url zipPath o (Function.update disk zipPath none)
      (disk, err.mapError .download)
  else (disk, .ok ())

def downloadAndExtract (symbol market date destDir : String) (o : Outcome) (disk : Disk) :
    Disk × Except LoadError String :=
  if o.mkdir = false then (disk, .error .mkdir)
  else
    let zipPath := join destDir (symbol ++ "-trades-" ++ date ++ ".zip")
    match download remote (downloadURL symbol market date) zipPath o disk with
    | (disk, .error e) => (disk, .error e)
    | (disk, .ok ()) =>
      let (disk, path) := extractCSV openReader zipPath destDir o disk
      (disk, path.mapError .extract)

end Calls

/-- What is kept of one date: how many bytes of its archive and of its CSV, none for no file. -/
structure Shelf where
  zip : Option ℕ
  csv : Option ℕ
  deriving DecidableEq

namespace Shelf

def fetch (total : ℕ) (o : Outcome) (s : Shelf) : Shelf × Bool :=
  if s.zip = none ∨ s.zip = some 0 then
    if o.removed = false then (s, false)
    else
      match o.body with
      | none => ({ s with zip := none }, false)
      | some cut => ({ s with zip := some (cut.elim total (min total)) }, cut.isNone)
  else (s, true)

def extract (total csvTotal : ℕ) (o : Outcome) (s : Shelf) : Shelf × Option ℕ :=
  if o.opened = false ∨ s.zip ≠ some total then (s, none)
  else
    match s.csv with
    | some k => (s, some k)
    | none =>
      if o.csvCreated = false then (s, none)
      else if o.entryOpened = false then ({ s with csv := some 0 }, none)
      else
        match o.cut with
        | none => ({ s with csv := some csvTotal }, some csvTotal)
        | some k => ({ s with csv := some (min csvTotal k) }, none)

def call (total csvTotal : ℕ) (o : Outcome) (s : Shelf) : Shelf × Option ℕ :=
  if o.mkdir = false then (s, none)
  else
    match s.fetch total o with
    | (s, false) => (s, none)
    | (s, true) => s.extract total csvTotal o

structure Fits (total csvTotal : ℕ) (s : Shelf) : Prop where
  zip : ∀ k, s.zip = some k → k ≤ total
  csv : ∀ k, s.csv = some k → k ≤ csvTotal

/-- No file is kept in part; an empty archive counts as none. -/
def Intact (total csvTotal : ℕ) (s : Shelf) : Prop :=
  (s.zip = none ∨ s.zip = some 0 ∨ s.zip = some total) ∧ (s.csv = none ∨ s.csv = some csvTotal)

def CutsFetch (total : ℕ) (o : Outcome) (s : Shelf) : Prop :=
  (s.zip = none ∨ s.zip = some 0) ∧ o.removed ∧ ∃ k, o.body = some (some k) ∧ 0 < k ∧ k < total

def CutsExtract (total csvTotal : ℕ) (o : Outcome) (s : Shelf) : Prop :=
  s.zip = some total ∧ s.csv = none ∧ o.opened ∧ o.csvCreated ∧
    (o.entryOpened = false ∧ 0 < csvTotal ∨ o.entryOpened ∧ ∃ k, o.cut = some k ∧ k < csvTotal)

def Cuts (total csvTotal : ℕ) (o : Outcome) (s : Shelf) : Prop :=
  o.mkdir ∧ (s.CutsFetch total o ∨
    (s.fetch total o).2 ∧ (s.fetch total o).1.CutsExtract total csvTotal o)

/-- A CSV is kept only beside the whole archive that it came from; an archive of no bytes
    counts as none and is downloaded again. -/
def Extracted (total : ℕ) (s : Shelf) : Prop := s.csv = none ∨ s.zip = some total ∨ total = 0

end Shelf

/-- The archives that the server has of one ticker, with the CSV of each, and what
    zip.OpenReader makes of them: it opens a whole archive and not one that is cut short. -/
structure Archives where
  symbol : String
  market : String
  destDir : String
  openReader : Bytes → Option (List ZipFile)
  remote : String → Bytes
  published : String → Bool
  csv : String → ZipFile
  whole : ∀ date, published date → ∃ files,
    openReader (remote (downloadURL symbol market date)) = some files ∧ files.find? isCSV = some (csv date)
  cut : ∀ date k, published date → k < (remote (downloadURL symbol market date)).length →
    openReader ((remote (downloadURL symbol market date)).take k) = none
  apart : ∀ d e, published d → published e → base (csv d).name = base (csv e).name → d = e

namespace Archives
variable (a : Archives)

def archive (date : String) : Bytes := a.remote (downloadURL a.symbol a.market date)

def total (date : String) : ℕ := (a.archive date).length

def csvTotal (date : String) : ℕ := (a.csv date).content.length

def zipPath (date : String) : String := join a.destDir (a.symbol ++ "-trades-" ++ date ++ ".zip")

def csvPath (date : String) : String := join a.destDir (base (a.csv date).name)

def call (date : String) (o : Outcome) (disk : Disk) : Disk × Except LoadError String :=
  downloadAndExtract a.openReader a.remote a.symbol a.market date a.destDir o disk

/-- The server sends archives only of dates that it has. -/
def answers (date : String) (o : Outcome) : Bool := a.published date || o.body.isNone

def step (disk : Disk) (c : String × Outcome) : Option Disk :=
  if a.answers c.1 c.2 then some (a.call c.1 c.2 disk).1 else none

def shelf (date : String) (disk : Disk) : Shelf :=
  ⟨(disk (a.zipPath date)).map List.length, (disk (a.csvPath date)).map List.length⟩

/-- The files of a date are the beginnings that the shelf says. -/
structure Shows (date : String) (disk : Disk) (s : Shelf) : Prop where
  zip : disk (a.zipPath date) = s.zip.map (a.archive date).take
  csv : disk (a.csvPath date) = s.csv.map (a.csv date).content.take
  fits : s.Fits (a.total date) (a.csvTotal date)

end Archives

section Paths

theorem join_injective {dir name other : String} (same : join dir name = join dir other) : name = other := by
  have chars := congrArg String.toList same
  exact String.toList_inj.mp (by simpa [join] using chars)

theorem zipPath_injective (a : Archives) {d e : String} (same : a.zipPath d = a.zipPath e) : d = e := by
  have chars := congrArg String.toList (join_injective same)
  exact String.toList_inj.mp (by simpa using chars)

theorem csvPath_injective (a : Archives) {d e : String} (mine : a.published d) (theirs : a.published e)
    (same : a.csvPath d = a.csvPath e) : d = e :=
  a.apart d e mine theirs (join_injective same)

theorem csv_isCSV (a : Archives) {date : String} (there : a.published date) : isCSV (a.csv date) := by
  obtain ⟨files, _, found⟩ := a.whole date there
  exact List.find?_some found

/- The one ends in p, the other in v. -/
theorem zipPath_ne_csvPath (a : Archives) (d : String) {e : String} (there : a.published e) :
    a.zipPath d ≠ a.csvPath e := by
  intro same
  have names := congrArg (fun s : String => s.toList.getLast?) (join_injective same)
  have suffix := csv_isCSV a there
  rw [isCSV, List.isSuffixOf_iff_suffix] at suffix
  obtain ⟨front, name⟩ := suffix
  have cut : (base (a.csv e).name).toList.getLast? = some 'v' := by
    rw [base, ← name, String.toList_ofList,
      show front ++ ['.', 'c', 's', 'v'] = (front ++ ['.', 'c', 's']) ++ ['v'] by simp,
      List.rtakeWhile_concat_pos _ _ _ (by decide)]
    simp
  rw [cut] at names
  simp [List.getLast?_cons, List.getLast?_append] at names

end Paths

namespace Shelf

theorem fits_fetch {total csvTotal : ℕ} {s : Shelf} (fits : s.Fits total csvTotal) (o : Outcome) :
    (s.fetch total o).1.Fits total csvTotal := by
  obtain ⟨zip, csv⟩ := fits
  unfold fetch
  split
  · split
    · exact ⟨zip, csv⟩
    · split
      · exact ⟨by simp, csv⟩
      · rename_i cut _
        refine ⟨?_, csv⟩
        intro k kept
        cases cut <;> simp at kept <;> omega
  · exact ⟨zip, csv⟩

theorem fits_extract {total csvTotal : ℕ} {s : Shelf} (fits : s.Fits total csvTotal) (o : Outcome) :
    (s.extract total csvTotal o).1.Fits total csvTotal := by
  obtain ⟨zip, csv⟩ := fits
  unfold extract
  split
  · exact ⟨zip, csv⟩
  · split
    · exact ⟨zip, csv⟩
    · split
      · exact ⟨zip, csv⟩
      · split
        · exact ⟨zip, by simp⟩
        · split
          · exact ⟨zip, by simp⟩
          · exact ⟨zip, by simp⟩

theorem intact_fetch {total csvTotal : ℕ} {s : Shelf} (intact : s.Intact total csvTotal) (o : Outcome) :
    (s.fetch total o).1.Intact total csvTotal ↔ ¬ s.CutsFetch total o := by
  obtain ⟨zip, csv⟩ := intact
  unfold fetch CutsFetch
  by_cases absent : s.zip = none ∨ s.zip = some 0
  · by_cases removed : o.removed = false
    · simp [absent, removed, Intact, zip, csv]
    · cases body : o.body with
      | none => simp [absent, removed, Intact, csv]
      | some cut =>
        cases cut with
        | none => simp [absent, removed, Intact, csv]
        | some k =>
          have ends : min total k = 0 ∨ min total k = total ↔ ¬ (0 < k ∧ k < total) := by omega
          simpa [absent, removed, Intact, csv] using ends
  · simp [absent, Intact, zip, csv]

theorem cuts_of_fetch {total : ℕ} {s : Shelf} {o : Outcome} (on : (s.fetch total o).2 = true) :
    ¬ s.CutsFetch total o := by
  rintro ⟨absent, removed, k, body, _⟩
  simp [fetch, absent, removed, body] at on

theorem intact_extract {total csvTotal : ℕ} {s : Shelf} (intact : s.Intact total csvTotal) (o : Outcome) :
    (s.extract total csvTotal o).1.Intact total csvTotal ↔ ¬ s.CutsExtract total csvTotal o := by
  obtain ⟨zip, csv⟩ := intact
  unfold extract CutsExtract
  by_cases stops : o.opened = false ∨ s.zip ≠ some total
  · rw [if_pos stops]
    simp only [Intact, zip, csv, and_self, true_iff]
    rintro ⟨whole, _, opened, _⟩
    simp [opened, whole] at stops
  · rw [if_neg stops]
    obtain ⟨opened, whole⟩ := not_or.mp stops
    cases kept : s.csv with
    | some k => simp [Intact, zip, csv]
    | none =>
      by_cases created : o.csvCreated = false
      · simp [created, Intact, zip, csv]
      by_cases entry : o.entryOpened = false
      · have empty : 0 = csvTotal ↔ ¬ 0 < csvTotal := by omega
        simpa [created, entry, Intact, not_not.mp whole, opened] using empty
      cases cut : o.cut with
      | none => simp [created, entry, Intact, zip]
      | some k =>
        simp [created, entry, Intact, not_not.mp whole, opened]

theorem intact_call {total csvTotal : ℕ} {s : Shelf} (intact : s.Intact total csvTotal) (o : Outcome) :
    (s.call total csvTotal o).1.Intact total csvTotal ↔ ¬ s.Cuts total csvTotal o := by
  unfold call Cuts
  by_cases made : o.mkdir = false
  · simp [made, intact]
  have fetched := intact_fetch intact o
  have whole := @cuts_of_fetch total s o
  rw [if_neg made]
  generalize s.fetch total o = t at *
  obtain ⟨s', on⟩ := t
  cases on with
  | false => simpa [made] using fetched
  | true =>
    have good := whole rfl
    simpa [made, good] using intact_extract (fetched.mpr good) o

theorem fetch_kept {k : ℕ} {s : Shelf} (kept : s.zip = some k) (some_ : 0 < k) (total : ℕ) (o : Outcome) :
    s.fetch total o = (s, true) := by
  rw [fetch, if_neg]
  simp [kept]
  omega

theorem fetch_csv (total : ℕ) (o : Outcome) (s : Shelf) : (s.fetch total o).1.csv = s.csv := by
  unfold fetch
  split
  · split
    · rfl
    · split <;> rfl
  · rfl

theorem torn_call {k total : ℕ} {s : Shelf} (torn : s.zip = some k) (some_ : 0 < k) (short : k < total)
    (csvTotal : ℕ) (o : Outcome) : s.call total csvTotal o = (s, none) := by
  have part : s.zip ≠ some total := by
    rw [torn]
    simp
    omega
  rw [call, fetch_kept torn some_]
  simp [extract, part]

theorem extract_served {total csvTotal k : ℕ} {s : Shelf} {o : Outcome}
    (served : (s.extract total csvTotal o).2 = some k) : (s.extract total csvTotal o).1.csv = some k := by
  unfold extract at *
  split at served
  · cases served
  · rename_i goes
    rw [if_neg goes]
    cases kept : s.csv with
    | some j => simp_all
    | none =>
      simp only [kept] at served ⊢
      split at served
      · cases served
      · split at served
        · cases served
        · split at served
          · simp_all
          · cases served

theorem call_served {total csvTotal k : ℕ} {s : Shelf} {o : Outcome}
    (served : (s.call total csvTotal o).2 = some k) : (s.call total csvTotal o).1.csv = some k := by
  unfold call at *
  split at served
  · cases served
  · rename_i made
    rw [if_neg made]
    generalize s.fetch total o = t at *
    obtain ⟨s', on⟩ := t
    cases on with
    | false => cases served
    | true => exact extract_served served

theorem extract_kept {k : ℕ} {s : Shelf} (kept : s.csv = some k) (total csvTotal : ℕ) (o : Outcome) :
    (s.extract total csvTotal o).1.csv = some k := by
  unfold extract
  split
  · exact kept
  · simp [kept]

theorem call_kept {k : ℕ} {s : Shelf} (kept : s.csv = some k) (total csvTotal : ℕ) (o : Outcome) :
    (s.call total csvTotal o).1.csv = some k := by
  have fetched := fetch_csv total o s
  rw [kept] at fetched
  unfold call
  split
  · exact kept
  · generalize s.fetch total o = t at *
    obtain ⟨s', on⟩ := t
    cases on with
    | false => exact fetched
    | true => exact extract_kept fetched total csvTotal o

theorem faultless_fetch {total : ℕ} {s : Shelf}
    (untorn : s.zip = none ∨ s.zip = some 0 ∨ s.zip = some total) :
    s.fetch total faultless = ({ s with zip := some total }, true) := by
  by_cases absent : s.zip = none ∨ s.zip = some 0
  · simp [fetch, absent, faultless, Outcome.body]
  · have whole : s.zip = some total := by
      rcases untorn with none_ | zero | whole
      · exact absurd (.inl none_) absent
      · exact absurd (.inr zero) absent
      · exact whole
    rw [fetch, if_neg absent, ← whole]

theorem faultless_call {total csvTotal : ℕ} {s : Shelf}
    (untorn : s.zip = none ∨ s.zip = some 0 ∨ s.zip = some total) :
    (s.call total csvTotal faultless).2 = some (s.csv.getD csvTotal) := by
  rw [call, faultless_fetch untorn]
  cases s.csv with
  | none => simp [extract, faultless]
  | some k => simp [extract, faultless]

theorem extracted_fetch {total : ℕ} {s : Shelf} (extracted : s.Extracted total) (o : Outcome) :
    (s.fetch total o).1.Extracted total := by
  unfold fetch Extracted at *
  split
  · rename_i absent
    -- A CSV beside no archive is of an archive of no bytes.
    have nothing : s.csv = none ∨ total = 0 := by
      rcases extracted with none_ | whole | zero
      · exact .inl none_
      · rw [whole] at absent
        exact .inr (by simpa using absent)
      · exact .inr zero
    split
    · exact nothing.imp_right .inr
    · split <;> exact nothing.imp_right .inr
  · exact extracted

theorem extracted_call {total : ℕ} {s : Shelf} (extracted : s.Extracted total) (csvTotal : ℕ)
    (o : Outcome) : (s.call total csvTotal o).1.Extracted total := by
  have fetched := extracted_fetch extracted o
  unfold call
  split
  · exact extracted
  · generalize s.fetch total o = t at *
    obtain ⟨s', on⟩ := t
    cases on with
    | false => exact fetched
    | true =>
      simp only [extract]
      split
      · exact fetched
      · rename_i goes
        have whole : s'.zip = some total := not_not.mp (not_or.mp goes).2
        split
        · exact fetched
        · split_ifs
          · exact fetched
          · exact .inr (.inl whole)
          · split <;> exact .inr (.inl whole)

theorem whole_served {total csvTotal k : ℕ} {s : Shelf} {o : Outcome}
    (whole : s.csv = none ∨ s.csv = some csvTotal) (served : (s.call total csvTotal o).2 = some k) :
    k = csvTotal := by
  have fetched := fetch_csv total o s
  unfold call at served
  split at served
  · cases served
  · generalize s.fetch total o = t at *
    obtain ⟨s', on⟩ := t
    simp only at fetched
    rw [← fetched] at whole
    cases on with
    | false => cases served
    | true =>
      unfold extract at served
      rcases whole with none_ | kept
      · simp only [none_] at served
        split_ifs at served
        cases cut : o.cut with
        | none =>
          rw [cut] at served
          exact (Option.some.inj served).symm
        | some j => simp [cut] at served
      · simp only [kept] at served
        split_ifs at served
        exact (Option.some.inj served).symm

theorem intact_or_cut {total csvTotal : ℕ} {s : Shelf} (fits : s.Fits total csvTotal) :
    s.Intact total csvTotal ∨ (∃ k, s.zip = some k ∧ 0 < k ∧ k < total) ∨
      ∃ k, s.csv = some k ∧ k < csvTotal := by
  obtain ⟨zip, csv⟩ := fits
  unfold Intact
  cases kept : s.zip <;> cases extracted : s.csv <;> simp_all <;> omega

end Shelf

section Refinement
variable {a : Archives} {date : String} {disk : Disk} {s : Shelf}

theorem no_archive_iff (held : a.Shows date disk s) :
    disk (a.zipPath date) = none ∨ disk (a.zipPath date) = some [] ↔ s.zip = none ∨ s.zip = some 0 := by
  have fits := held.fits.zip
  rw [held.zip]
  cases kept : s.zip with
  | none => simp
  | some k =>
    have inside : k ≤ (a.archive date).length := fits k kept
    simp only [Option.map_some, Option.some.injEq, reduceCtorEq, false_or, List.take_eq_nil_iff]
    constructor
    · intro empty
      rcases empty with zero | nothing
      · exact zero
      · rw [nothing] at inside
        exact Nat.le_zero.mp inside
    · exact Or.inl

theorem copied_eq (bytes : Bytes) (cut : Option ℕ) :
    copied bytes cut = bytes.take (cut.elim bytes.length (min bytes.length)) := by
  cases cut with
  | none => simp [copied]
  | some k => simp [copied, List.take_eq_take_iff, Nat.min_comm]

theorem downloadFile_nothing {o : Outcome} (body : o.body = none) (remote : String → Bytes)
    (url dest : String) (disk : Disk) : ∃ e, downloadFile remote url dest o disk = (disk, .error e) := by
  unfold Outcome.body at body
  unfold downloadFile
  cases reply : o.reply with
  | failed => exact ⟨_, rfl⟩
  | answered status cut =>
    rw [reply] at body
    dsimp only at body ⊢
    split
    · exact ⟨_, rfl⟩
    · split
      · exact ⟨_, rfl⟩
      · have created : o.created = false := by
          by_contra able
          simp_all
        exact ⟨_, if_pos created⟩

theorem downloadFile_body {o : Outcome} {cut : Option ℕ} (body : o.body = some cut)
    (remote : String → Bytes) (url dest : String) (disk : Disk) :
    downloadFile remote url dest o disk = (write dest (copied (remote url) cut) disk,
      if cut = none then .ok () else .error .copy) := by
  unfold Outcome.body at body
  unfold downloadFile
  cases reply : o.reply with
  | failed => simp [reply] at body
  | answered status cut =>
    rw [reply] at body
    simp only [Option.ite_none_right_eq_some, Option.some.injEq] at body
    obtain ⟨⟨ok, created⟩, same⟩ := body
    simp [ok, created, same]

theorem download_shows (there : a.published date) (held : a.Shows date disk s) (o : Outcome) :
    let d := download a.remote (downloadURL a.symbol a.market date) (a.zipPath date) o disk
    a.Shows date d.1 (s.fetch (a.total date) o).1 ∧
      (d.2 = .ok () ↔ (s.fetch (a.total date) o).2 = true) ∧
      ∀ path, path ≠ a.zipPath date → d.1 path = disk path := by
  have csv := held.csv
  have apart : a.csvPath date ≠ a.zipPath date := Ne.symm (zipPath_ne_csvPath a date there)
  have fits := Shelf.fits_fetch held.fits o
  have none_kept := no_archive_iff held
  unfold download
  unfold Shelf.fetch at *
  by_cases absent : s.zip = none ∨ s.zip = some 0
  · rw [if_pos absent] at *
    rw [if_pos (none_kept.mpr absent)]
    by_cases kept : o.removed = false
    · rw [if_pos kept] at *
      rw [if_pos kept]
      exact ⟨held, by simp, by simp⟩
    · rw [if_neg kept] at *
      rw [if_neg kept]
      cases body : o.body with
      | none =>
        rw [body] at fits
        obtain ⟨e, failed⟩ := downloadFile_nothing body a.remote (downloadURL a.symbol a.market date)
          (a.zipPath date) (Function.update disk (a.zipPath date) none)
        rw [failed]
        refine ⟨⟨by simp, by simp [apart, csv], fits⟩, by simp [Except.mapError], ?_⟩
        intro path other
        simp [other]
      | some cut =>
        rw [body] at fits
        rw [downloadFile_body body]
        refine ⟨⟨?_, by simp [write, apart, csv], fits⟩, by cases cut <;> simp [Except.mapError], ?_⟩
        · simp only [write, Function.update_self, copied_eq, Option.map_some]
          rfl
        · intro path other
          simp [write, other]
  · rw [if_neg absent] at *
    rw [if_neg (fun kept => absent (none_kept.mp kept))]
    exact ⟨held, by simp, by simp⟩

theorem opened_archive (there : a.published date) (held : a.Shows date disk s) :
    (s.zip = some (a.total date) ∧ ∃ files, (disk (a.zipPath date)).bind a.openReader = some files ∧
      files.find? isCSV = some (a.csv date)) ∨
    (s.zip ≠ some (a.total date) ∧ (disk (a.zipPath date)).bind a.openReader = none) := by
  rw [held.zip]
  cases kept : s.zip with
  | none => simp
  | some k =>
    have inside : k ≤ (a.archive date).length := held.fits.zip k kept
    by_cases full : k = (a.archive date).length
    · left
      obtain ⟨files, opens, found⟩ := a.whole date there
      refine ⟨congrArg some full, files, ?_, found⟩
      simpa [full, Archives.archive] using opens
    · right
      have short : k < (a.archive date).length := by omega
      exact ⟨fun same => full (Option.some.inj same), by simpa [Archives.archive] using a.cut date k there short⟩

theorem extractCSV_opened (there : a.published date) (held : a.Shows date disk s) {o : Outcome}
    (opened : o.opened = true) (whole : s.zip = some (a.total date)) :
    extractCSV a.openReader (a.zipPath date) a.destDir o disk =
      if disk (a.csvPath date) ≠ none then (disk, .ok (a.csvPath date))
      else if o.csvCreated = false then (disk, .error .create)
      else if o.entryOpened = false then (write (a.csvPath date) [] disk, .error .openEntry)
      else (write (a.csvPath date) (copied (a.csv date).content o.cut) disk,
        if o.cut = none then .ok (a.csvPath date) else .error .copy) := by
  rcases opened_archive there held with ⟨_, files, opens, found⟩ | ⟨short, _⟩
  · simp only [extractCSV, opened, ↓reduceIte, opens, found]
    rfl
  · exact absurd whole short

theorem extract_shows (there : a.published date) (held : a.Shows date disk s) (o : Outcome) :
    let d := extractCSV a.openReader (a.zipPath date) a.destDir o disk
    a.Shows date d.1 (s.extract (a.total date) (a.csvTotal date) o).1 ∧
      (∀ path, d.2 = .ok path ↔
        path = a.csvPath date ∧ (s.extract (a.total date) (a.csvTotal date) o).2 ≠ none) ∧
      ∀ path, path ≠ a.csvPath date → d.1 path = disk path := by
  have apart : a.zipPath date ≠ a.csvPath date := zipPath_ne_csvPath a date there
  have fits := Shelf.fits_extract held.fits o
  by_cases stops : o.opened = false ∨ s.zip ≠ some (a.total date)
  · have nothing : (if o.opened then (disk (a.zipPath date)).bind a.openReader else none) = none := by
      rcases stops with closed | short
      · simp [closed]
      · rcases opened_archive there held with ⟨whole, _⟩ | ⟨_, cut⟩
        · exact absurd whole short
        · rw [cut, ite_self]
    rw [Shelf.extract, if_pos stops, extractCSV, nothing]
    exact ⟨held, by simp, by simp⟩
  · have goes := not_or.mp stops
    rw [extractCSV_opened there held (by simpa using goes.1) (not_not.mp goes.2), held.csv]
    unfold Shelf.extract at *
    rw [if_neg stops] at *
    cases kept : s.csv with
    | some k =>
      rw [if_pos (by simp)]
      exact ⟨held, by simp [eq_comm], by simp⟩
    | none =>
      rw [if_neg (by simp)]
      rw [kept] at fits
      by_cases created : o.csvCreated = false
      · rw [if_pos created] at *
        rw [if_pos created]
        exact ⟨held, by simp, by simp⟩
      rw [if_neg created] at *
      rw [if_neg created]
      by_cases entry : o.entryOpened = false
      · rw [if_pos entry] at *
        rw [if_pos entry]
        refine ⟨⟨by simp [write, apart, held.zip], by simp [write], fits⟩, by simp, ?_⟩
        intro path other
        simp [write, other]
      rw [if_neg entry] at *
      rw [if_neg entry]
      have others : ∀ path, path ≠ a.csvPath date →
          write (a.csvPath date) (copied (a.csv date).content o.cut) disk path = disk path := by
        intro path other
        simp [write, other]
      cases cut : o.cut with
      | none =>
        rw [cut] at fits others
        refine ⟨⟨by simp [write, apart, held.zip], ?_, fits⟩, by simp [eq_comm], others⟩
        simp [write, copied, Archives.csvTotal]
      | some k =>
        rw [cut] at fits others
        refine ⟨⟨by simp [write, apart, held.zip], ?_, fits⟩, by simp, others⟩
        simp [write, copied_eq, Archives.csvTotal]

theorem mapError_ok {ε δ α : Type} (f : ε → δ) (x : Except ε α) (v : α) :
    x.mapError f = .ok v ↔ x = .ok v := by
  cases x <;> simp [Except.mapError]

theorem call_made (a : Archives) (date : String) (disk : Disk) {o : Outcome} (made : ¬ o.mkdir = false) :
    a.call date o disk =
      match download a.remote (downloadURL a.symbol a.market date) (a.zipPath date) o disk with
      | (disk, .error e) => (disk, .error e)
      | (disk, .ok ()) =>
        let d := extractCSV a.openReader (a.zipPath date) a.destDir o disk
        (d.1, d.2.mapError .extract) := by
  rw [Archives.call, downloadAndExtract, if_neg made]
  rfl

theorem call_shows (there : a.published date) (held : a.Shows date disk s) (o : Outcome) :
    a.Shows date (a.call date o disk).1 (s.call (a.total date) (a.csvTotal date) o).1 ∧
      (∀ path, (a.call date o disk).2 = .ok path ↔
        path = a.csvPath date ∧ (s.call (a.total date) (a.csvTotal date) o).2 ≠ none) ∧
      ∀ path, path ≠ a.zipPath date → path ≠ a.csvPath date → (a.call date o disk).1 path = disk path := by
  by_cases made : o.mkdir = false
  · rw [Shelf.call, if_pos made, Archives.call, downloadAndExtract, if_pos made]
    exact ⟨held, by simp, by simp⟩
  rw [call_made a date disk made, Shelf.call, if_neg made]
  obtain ⟨fetched, goes, kept⟩ := download_shows there held o
  generalize download a.remote (downloadURL a.symbol a.market date) (a.zipPath date) o disk = d at *
  generalize s.fetch (a.total date) o = t at *
  obtain ⟨disk', answer⟩ := d
  obtain ⟨s', on⟩ := t
  cases answer with
  | error e =>
    have stops : on = false := by simpa using goes
    subst stops
    exact ⟨fetched, by simp, fun path other _ => kept path other⟩
  | ok =>
    have on_ : on = true := by simpa using goes
    subst on_
    obtain ⟨extracted, answers, others⟩ := extract_shows there fetched o
    refine ⟨extracted, ?_, fun path zip csv => (others path csv).trans (kept path zip)⟩
    intro path
    rw [← answers path]
    exact mapError_ok _ _ _

theorem call_other {other : String} {t : Shelf} (there : a.published date) (held : a.Shows date disk s)
    (apart : date ≠ other) (too : a.published other) (theirs : a.Shows other disk t) (o : Outcome) :
    a.Shows other (a.call date o disk).1 t := by
  obtain ⟨_, _, kept⟩ := call_shows there held o
  constructor
  · rw [kept _ (fun same => apart (zipPath_injective a same).symm) (zipPath_ne_csvPath a other there)]
    exact theirs.zip
  · rw [kept _ (Ne.symm (zipPath_ne_csvPath a date too)) fun same =>
      apart (csvPath_injective a too there same).symm]
    exact theirs.csv
  · exact theirs.fits

theorem call_nothing {o : Outcome} (body : o.body = none) (missing : disk (a.zipPath date) = none) :
    ∃ e, a.call date o disk = (disk, .error e) := by
  by_cases made : o.mkdir = false
  · exact ⟨_, if_pos made⟩
  rw [call_made a date disk made, download, if_pos (.inl missing)]
  by_cases kept : o.removed = false
  · rw [if_pos kept]
    exact ⟨_, rfl⟩
  have unchanged : Function.update disk (a.zipPath date) none = disk := by
    rw [← missing, Function.update_eq_self]
  obtain ⟨e, failed⟩ := downloadFile_nothing body a.remote (downloadURL a.symbol a.market date)
    (a.zipPath date) disk
  rw [if_neg kept, unchanged, failed]
  exact ⟨_, rfl⟩

theorem shelf_shown (held : a.Shows date disk s) : a.shelf date disk = s := by
  obtain ⟨zip, csv, fits⟩ := held
  obtain ⟨z, c⟩ := s
  simp only at zip csv
  rw [Archives.shelf, zip, csv]
  cases z <;> cases c <;> simp
  · exact fits.csv _ rfl
  · exact fits.zip _ rfl
  · exact ⟨fits.zip _ rfl, fits.csv _ rfl⟩

end Refinement

end DownloadCache
