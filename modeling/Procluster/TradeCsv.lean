import Procluster.CandlesApi
import Mathlib.Data.List.DropRight

/-!
Package history: the trade CSV files of data.binance.vision, and what parseCSV makes of
one. A file is any list of bytes, read as characters and stray bytes that belong to none.
F is float64, and parseFloat is strconv.ParseFloat; none is its error.
-/
namespace TradeCsv
open CandlesApi (parseInt64 parseDigits_toDigits)

inductive Rune where
  | char (c : Char)
  | stray (b : UInt8)
  deriving DecidableEq

abbrev Text := List Rune

def Rune.size : Rune → ℕ
  | .char c => c.utf8Size
  | .stray _ => 1

def byteSize (text : Text) : ℕ := (text.map Rune.size).sum

def chars (cs : List Char) : Text := cs.map Rune.char

def asChars (text : Text) : Option (List Char) :=
  text.mapM fun
    | .char c => some c
    | .stray _ => none

def newline : Rune := .char '\n'

def comma : Rune := .char ','

/-- unicode.IsSpace -/
def isSpace : Rune → Bool
  | .char c => c.toNat ∈ [0x85, 0xA0, 0x1680, 0x2028, 0x2029, 0x202F, 0x205F, 0x3000, 0x20] ∨
    (0x9 ≤ c.toNat ∧ c.toNat ≤ 0xD) ∨ (0x2000 ≤ c.toNat ∧ c.toNat ≤ 0x200A)
  | .stray _ => false

def trimSpace (text : Text) : Text := (text.dropWhile isSpace).rdropWhile isSpace

structure Trade (F : Type) where
  tradeID : ℤ
  price : F
  qty : F
  tradeTimeMs : ℤ
  isBuyerMaker : Bool
  deriving DecidableEq

inductive ScanError where
  | tooLong
  deriving DecidableEq

/-- bufio.ScanLines drops one carriage return in front of a newline. -/
def dropCR (line : Text) : Text :=
  if line.getLast? = some (.char '\r') then line.dropLast else line

/-- The lines of a file; nothing behind the last newline is no line. -/
def splitLines (text : Text) : List Text :=
  let lines := text.splitOn newline
  if lines.getLast? = some [] then lines.dropLast else lines

/-- scanner.Scan until it fails: a line has to fit the buffer with its newline. -/
def scanLines : List Text → List Text × Option ScanError
  | [] => ([], none)
  | line :: rest =>
    if 256 * 1024 ≤ byteSize line then ([], some .tooLong)
    else ((dropCR line) :: (scanLines rest).1, (scanLines rest).2)

def parseInt (text : Text) : Option ℤ := (asChars text).bind fun cs => parseInt64 (String.ofList cs)

/-- strings.EqualFold(text, "true"); its letters fold to ASCII letters only. -/
def equalFoldTrue (text : Text) : Bool :=
  (asChars text).any fun cs => cs.map Char.toLower = ['t', 'r', 'u', 'e']

section Parse
variable {F : Type} (parseFloat : Text → Option F)

def parseFuturesLine (line : Text) : Option (Trade F) :=
  match line.splitOn comma with
  | id :: price :: qty :: _ :: time :: maker :: _ => do
    let tradeID ← parseInt id
    let price ← parseFloat price
    let qty ← parseFloat qty
    let timeMs ← parseInt time
    return ⟨tradeID, price, qty, timeMs, equalFoldTrue maker⟩
  | _ => none

/-- Go's division truncates. -/
def parseSpotLine (line : Text) : Option (Trade F) :=
  match line.splitOn comma with
  | id :: price :: qty :: _ :: time :: maker :: _ => do
    let tradeID ← parseInt id
    let price ← parseFloat price
    let qty ← parseFloat qty
    let timeRaw ← parseInt time
    let timeMs := if 10 ^ 15 < timeRaw then timeRaw.tdiv 1000 else timeRaw
    return ⟨tradeID, price, qty, timeMs, equalFoldTrue maker⟩
  | _ => none

def futuresToken (token : Text) (lineNum : ℕ) : Option (Trade F) :=
  let line := trimSpace token
  if line = [] then none
  else if lineNum = 1 ∧ chars ['i', 'd'] <+: line then none
  else parseFuturesLine parseFloat line

def spotToken (token : Text) : Option (Trade F) :=
  let line := trimSpace token
  if line = [] then none else parseSpotLine parseFloat line

def parseFuturesCSV (file : Text) : List (Trade F) × Option ScanError :=
  let (tokens, err) := scanLines (splitLines file)
  ((tokens.zipIdx 1).filterMap fun (token, lineNum) => futuresToken parseFloat token lineNum, err)

def parseSpotCSV (file : Text) : List (Trade F) × Option ScanError :=
  let (tokens, err) := scanLines (splitLines file)
  (tokens.filterMap (spotToken parseFloat), err)

/-- sort.Slice by the id of the trade, which leaves equal ids in any order. -/
structure SliceSort (F : Type) where
  sort : List (Trade F) → List (Trade F)
  perm : ∀ trades, (sort trades).Perm trades
  sorted : ∀ trades, (sort trades).Pairwise fun a b => a.tradeID ≤ b.tradeID

/-- The loop of dedup; a trade is compared with the one before it, kept or not. -/
def dedupAfter (previous : Trade F) : List (Trade F) → List (Trade F)
  | [] => []
  | t :: rest => if t.tradeID ≠ previous.tradeID then t :: dedupAfter t rest else dedupAfter t rest

def dedup : List (Trade F) → List (Trade F)
  | [] => []
  | t :: rest => t :: dedupAfter t rest

def parseCSV (slices : SliceSort F) (market : String) (file : Text) : Except ScanError (List (Trade F)) :=
  let (trades, err) := if market = "spot" then parseSpotCSV parseFloat file else parseFuturesCSV parseFloat file
  match err with
  | some e => .error e
  | none => .ok (dedup (slices.sort trades))

end Parse

def decimal (n : ℤ) : List Char := (if n < 0 then ['-'] else []) ++ Nat.toDigits 10 n.natAbs

def boolWord (b : Bool) : List Char := if b then ['t', 'r', 'u', 'e'] else ['f', 'a', 'l', 's', 'e']

def SameLetter (r : Rune) (c : Char) : Prop := r = .char c ∨ r = .char c.toUpper

/-- A trade as a line of the file has it: its numbers, the texts they are written as, the
    columns behind the sixth and the white space around the line. -/
structure Row (F : Type) where
  id : ℤ
  price : F
  qty : F
  time : ℤ
  maker : Bool
  priceText : Text
  qtyText : Text
  quoteText : Text
  makerText : Text
  columns : List Text
  before : Text
  after : Text

def Row.fields (row : Row F) : List Text :=
  [chars (decimal row.id), row.priceText, row.qtyText, row.quoteText, chars (decimal row.time), row.makerText]

def Row.line (row : Row F) : Text :=
  row.before ++ [comma].intercalate (row.fields ++ row.columns) ++ row.after

/-- Spot times above 10 ^ 15 are microseconds. -/
def Row.trade (market : String) (row : Row F) : Trade F where
  tradeID := row.id
  price := row.price
  qty := row.qty
  tradeTimeMs := if market = "spot" ∧ 10 ^ 15 < row.time then row.time / 1000 else row.time
  isBuyerMaker := row.maker

inductive Entry (F : Type) where
  | trade (row : Row F)
  | header (after : Text)
  | blank (text : Text)
  | bad (text : Text)

def headerText : Text := chars "id,price,qty,quote_qty,time,is_buyer_maker".toList

def Entry.text : Entry F → Text
  | .trade row => row.line
  | .header after => headerText ++ after
  | .blank text => text
  | .bad text => text

def Entry.trade? (market : String) : Entry F → Option (Trade F)
  | .trade row => some (row.trade market)
  | _ => none

def Int64 (n : ℤ) : Prop := -2 ^ 63 ≤ n ∧ n < 2 ^ 63

def Spaces (text : Text) : Prop := ∀ r ∈ text, isSpace r = true ∧ r ≠ newline

def OneField (text : Text) : Prop := comma ∉ text ∧ newline ∉ text

section WellFormed
variable (parseFloat : Text → Option F)

structure Row.WellFormed (row : Row F) : Prop where
  id : Int64 row.id
  time : Int64 row.time
  price : parseFloat row.priceText = some row.price
  qty : parseFloat row.qtyText = some row.qty
  maker : List.Forall₂ SameLetter row.makerText (boolWord row.maker)
  texts : ∀ text ∈ [row.priceText, row.qtyText, row.quoteText] ++ row.columns, OneField text
  before : Spaces row.before
  after : Spaces row.after

def Unreadable (fields : List Text) : Prop :=
  fields.length < 6 ∨ fields[0]?.bind parseInt = none ∨ fields[1]?.bind parseFloat = none ∨
    fields[2]?.bind parseFloat = none ∨ fields[4]?.bind parseInt = none

def Entry.WellFormed : Entry F → Prop
  | .trade row => row.WellFormed parseFloat
  | .header after => Spaces after
  | .blank text => Spaces text
  | .bad text => newline ∉ text ∧ Unreadable parseFloat ((trimSpace text).splitOn comma)

end WellFormed

/-- The readers give the trades of the lines in order, and parseCSV sorts them by id with
    each id once. -/
structure ReadBack (parseFloat : Text → Option F) (file : Text) (entries : List (Entry F)) : Prop where
  futures : parseFuturesCSV parseFloat file = (entries.filterMap (Entry.trade? "futures"), none)
  spot : parseSpotCSV parseFloat file = (entries.filterMap (Entry.trade? "spot"), none)
  pipeline : ∀ slices market, ∃ trades, parseCSV parseFloat slices market file = .ok trades ∧
    trades.Pairwise (fun a b => a.tradeID < b.tradeID) ∧ ∀ id, id ∈ trades.map Trade.tradeID ↔
      id ∈ (entries.filterMap (Entry.trade? market)).map Trade.tradeID

/-- The lines with newlines between them; a last blank line of no length ends the file
    with a newline. -/
def fileText (entries : List (Entry F)) : Text := [newline].intercalate (entries.map Entry.text)

theorem asChars_chars (cs : List Char) : asChars (chars cs) = some cs := by
  induction cs with
  | nil => rfl
  | cons c rest ih =>
    unfold asChars chars at ih ⊢
    simp [List.mapM_cons, ih]

theorem parseInt_decimal {n : ℤ} (range : Int64 n) : parseInt (chars (decimal n)) = some n := by
  obtain ⟨low, high⟩ := range
  rw [parseInt, asChars_chars, Option.bind_some, parseInt64, String.toList_ofList, decimal]
  by_cases negative : n < 0
  · have small : n.natAbs ≤ 2 ^ 63 := by omega
    have value : -(n.natAbs : ℤ) = n := by omega
    rw [if_pos negative, List.singleton_append]
    simp only [parseDigits_toDigits, Option.bind_some, if_pos small, value]
  · have small : n.natAbs < 2 ^ 63 := by omega
    have value : (n.natAbs : ℤ) = n := by omega
    rw [if_neg negative, List.nil_append]
    split
    · rename_i cs shape
      have digit := DecimalText.toDigits_are_digits n.natAbs '-' (shape ▸ List.mem_cons_self)
      exact absurd digit (by decide)
    · rename_i cs shape
      have digit := DecimalText.toDigits_are_digits n.natAbs '+' (shape ▸ List.mem_cons_self)
      exact absurd digit (by decide)
    · rw [parseDigits_toDigits, Option.bind_some, if_pos small, value]

theorem decimal_chars {n : ℤ} {c : Char} (member : c ∈ decimal n) : c = '-' ∨ c.isDigit = true := by
  rcases List.mem_append.mp member with sign | digit
  · split_ifs at sign with negative
    · exact .inl (List.mem_singleton.mp sign)
    · cases sign
  · exact .inr (DecimalText.toDigits_are_digits _ _ digit)

theorem decimal_ne_nil (n : ℤ) : decimal n ≠ [] :=
  List.append_ne_nil_of_right_ne_nil _ Nat.toDigits_ne_nil

/-- A rune of a number or of the boolean: no white space, no comma, and not the i of id. -/
def Plain (r : Rune) : Prop := isSpace r = false ∧ r ≠ comma ∧ r ≠ newline ∧ r ≠ .char 'i'

instance (r : Rune) : Decidable (Plain r) := inferInstanceAs (Decidable (_ ∧ _))

theorem digit_plain {c : Char} (digit : c.isDigit = true) : Plain (.char c) := by
  obtain ⟨low, high⟩ := Char.isDigit_iff_toNat.mp digit
  have zero : '0'.toNat = 48 := rfl
  have nine : '9'.toNat = 57 := rfl
  rw [zero] at low
  rw [nine] at high
  refine ⟨?_, ?_, ?_, ?_⟩
  · simp only [isSpace, List.mem_cons, List.not_mem_nil, or_false, decide_eq_false_iff_not]
    omega
  all_goals
    intro same
    obtain rfl := Rune.char.inj same
    exact absurd digit (by decide)

theorem decimal_plain (n : ℤ) : ∀ r ∈ chars (decimal n), Plain r := by
  intro r member
  obtain ⟨c, listed, rfl⟩ := List.mem_map.mp member
  rcases decimal_chars listed with rfl | digit
  · decide
  · exact digit_plain digit

theorem letters_fold {text : Text} {word : List Char} (letters : List.Forall₂ SameLetter text word)
    (lower : ∀ c ∈ word, c.toLower = c ∧ c.toUpper.toLower = c) :
    ∃ cs, asChars text = some cs ∧ cs.map Char.toLower = word := by
  induction letters with
  | nil => exact ⟨[], rfl, rfl⟩
  | @cons r c text word same rest ih =>
    obtain ⟨cs, read, folded⟩ := ih fun c member => lower c (List.mem_cons_of_mem _ member)
    obtain ⟨here, upper⟩ := lower c List.mem_cons_self
    unfold asChars at read ⊢
    rcases same with rfl | rfl
    · exact ⟨c :: cs, by simp [List.mapM_cons, read], by rw [List.map_cons, here, folded]⟩
    · exact ⟨c.toUpper :: cs, by simp [List.mapM_cons, read], by rw [List.map_cons, upper, folded]⟩

theorem maker_read {text : Text} {maker : Bool} (letters : List.Forall₂ SameLetter text (boolWord maker)) :
    equalFoldTrue text = maker := by
  have lower : ∀ c ∈ boolWord maker, c.toLower = c ∧ c.toUpper.toLower = c := by
    cases maker <;> simp [boolWord]
  obtain ⟨cs, read, folded⟩ := letters_fold letters lower
  rw [equalFoldTrue, read, Option.any_some, folded]
  cases maker <;> decide

theorem letters_plain {text : Text} {word : List Char} (letters : List.Forall₂ SameLetter text word)
    (plain : ∀ c ∈ word, Plain (.char c) ∧ Plain (.char c.toUpper)) : ∀ r ∈ text, Plain r := by
  induction letters with
  | nil => simp
  | cons same _ ih =>
    have later := ih fun c member => plain c (List.mem_cons_of_mem _ member)
    obtain ⟨here, upper⟩ := plain _ List.mem_cons_self
    rcases same with rfl | rfl
    · exact List.forall_mem_cons.mpr ⟨here, later⟩
    · exact List.forall_mem_cons.mpr ⟨upper, later⟩

theorem maker_plain {text : Text} {maker : Bool} (letters : List.Forall₂ SameLetter text (boolWord maker)) :
    text ≠ [] ∧ ∀ r ∈ text, Plain r := by
  have plain : ∀ c ∈ boolWord maker, Plain (.char c) ∧ Plain (.char c.toUpper) := by
    cases maker <;> simp [boolWord] <;> decide
  refine ⟨?_, letters_plain letters plain⟩
  rintro rfl
  cases maker <;> cases letters

section Trim

theorem dropWhile_spaces {before rest : Text} {r : Rune} (spaces : Spaces before) (solid : isSpace r = false) :
    (before ++ r :: rest).dropWhile isSpace = r :: rest := by
  rw [List.dropWhile_append_of_pos fun x member => (spaces x member).1, List.dropWhile_cons_of_neg (by simp [solid])]

theorem rdropWhile_spaces {text after : Text} (spaces : Spaces after) :
    (text ++ after).rdropWhile isSpace = text.rdropWhile isSpace := by
  rw [List.rdropWhile, List.rdropWhile, List.reverse_append,
    List.dropWhile_append_of_pos fun x member => (spaces x (List.mem_reverse.mp member)).1]

theorem rdropWhile_solid (text rest : Text) {r : Rune} (solid : isSpace r = false) :
    (text ++ r :: rest).rdropWhile isSpace = text ++ r :: rest.rdropWhile isSpace := by
  induction rest using List.reverseRecOn with
  | nil => exact List.rdropWhile_concat_neg isSpace text r (by simp [solid])
  | append_singleton rest x ih =>
    rw [← List.cons_append, ← List.append_assoc]
    by_cases space : isSpace x = true
    · rw [List.rdropWhile_concat_pos _ _ _ space, List.rdropWhile_concat_pos _ _ _ space, ih]
    · rw [List.rdropWhile_concat_neg _ _ _ space, List.rdropWhile_concat_neg _ _ _ space, List.append_assoc,
        List.cons_append]

theorem trimSpace_dropCR (line : Text) : trimSpace (dropCR line) = trimSpace line := by
  unfold dropCR
  split_ifs with last
  · obtain ⟨init, rfl⟩ := List.getLast?_eq_some_iff.mp last
    have space : isSpace (.char '\r') = true := by decide
    rw [List.dropLast_concat, trimSpace, trimSpace, List.dropWhile_append]
    split_ifs with blank
    · rw [List.isEmpty_iff.mp blank, List.dropWhile_cons_of_pos space]
      rfl
    · rw [List.rdropWhile_concat_pos _ _ _ space]
  · rfl

end Trim

section Lines

theorem scanLines_short {lines : List Text} (short : ∀ line ∈ lines, byteSize line < 256 * 1024) :
    scanLines lines = (lines.map dropCR, none) := by
  induction lines with
  | nil => rfl
  | cons line rest ih =>
    have later := ih fun l member => short l (List.mem_cons_of_mem _ member)
    rw [scanLines, if_neg (not_le.mpr (short line List.mem_cons_self)), later]
    rfl

/- The lines come back, but for an empty one at the end. -/
theorem splitLines_intercalate {lines : List Text} (clean : ∀ line ∈ lines, newline ∉ line) :
    splitLines ([newline].intercalate lines) = lines ∨
      lines = splitLines ([newline].intercalate lines) ++ [[]] := by
  by_cases some_lines : lines = []
  · subst some_lines
    exact .inl rfl
  · rw [splitLines, List.splitOn_intercalate newline clean some_lines]
    by_cases ended : lines.getLast? = some []
    · obtain ⟨init, rfl⟩ := List.getLast?_eq_some_iff.mp ended
      exact .inr (by simp)
    · exact .inl (if_neg ended)

end Lines

section Dedup
variable {F : Type}

theorem dedupAfter_ids (previous : Trade F) (trades : List (Trade F)) (id : ℤ) :
    (id = previous.tradeID ∨ id ∈ (dedupAfter previous trades).map Trade.tradeID) ↔
      (id = previous.tradeID ∨ id ∈ trades.map Trade.tradeID) := by
  induction trades generalizing previous with
  | nil => rfl
  | cons t rest ih =>
    rw [dedupAfter]
    split_ifs with other
    · rw [List.map_cons, List.mem_cons, List.map_cons, List.mem_cons, ih t]
    · have same : t.tradeID = previous.tradeID := not_not.mp other
      rw [List.map_cons, List.mem_cons, same, ← same, ih t]
      tauto

theorem dedupAfter_above {previous : Trade F} {trades : List (Trade F)}
    (sorted : (previous :: trades).Pairwise fun a b => a.tradeID ≤ b.tradeID) :
    (previous :: dedupAfter previous trades).Pairwise fun a b => a.tradeID < b.tradeID := by
  induction trades generalizing previous with
  | nil => exact List.pairwise_singleton _ _
  | cons t rest ih =>
    obtain ⟨least, later⟩ := List.pairwise_cons.mp sorted
    obtain ⟨above, strict⟩ := List.pairwise_cons.mp (ih later)
    have first := least t List.mem_cons_self
    rw [dedupAfter]
    split_ifs with other
    · have less : previous.tradeID < t.tradeID := lt_of_le_of_ne first (Ne.symm other)
      refine List.pairwise_cons.mpr ⟨?_, ih later⟩
      exact List.forall_mem_cons.mpr ⟨less, fun x member => less.trans (above x member)⟩
    · refine List.pairwise_cons.mpr ⟨fun x member => ?_, strict⟩
      exact first.trans_lt (above x member)

theorem dedup_ids (trades : List (Trade F)) (id : ℤ) :
    id ∈ (dedup trades).map Trade.tradeID ↔ id ∈ trades.map Trade.tradeID := by
  cases trades with
  | nil => rfl
  | cons t rest =>
    rw [dedup, List.map_cons, List.map_cons, List.mem_cons, List.mem_cons, dedupAfter_ids]

theorem dedup_strict {trades : List (Trade F)}
    (sorted : trades.Pairwise fun a b => a.tradeID ≤ b.tradeID) :
    (dedup trades).Pairwise fun a b => a.tradeID < b.tradeID := by
  cases trades with
  | nil => exact .nil
  | cons t rest => exact dedupAfter_above sorted

end Dedup

section Entries
variable {F : Type} {parseFloat : Text → Option F}

theorem Row.WellFormed.fields {row : Row F} (wf : row.WellFormed parseFloat) :
    ∀ text ∈ row.fields ++ row.columns, OneField text := by
  have number : ∀ n, OneField (chars (decimal n)) := fun n =>
    ⟨fun member => (decimal_plain n _ member).2.1 rfl, fun member => (decimal_plain n _ member).2.2.1 rfl⟩
  have maker : OneField row.makerText :=
    ⟨fun member => ((maker_plain wf.maker).2 _ member).2.1 rfl,
      fun member => ((maker_plain wf.maker).2 _ member).2.2.1 rfl⟩
  have texts := wf.texts
  simp only [Row.fields, List.cons_append, List.nil_append, List.forall_mem_cons] at texts ⊢
  obtain ⟨price, qty, quote, columns⟩ := texts
  exact ⟨number row.id, price, qty, quote, number row.time, maker, columns⟩

def Row.core (row : Row F) : Text := [comma].intercalate row.fields

theorem Row.core_head (row : Row F) : ∃ first rest, row.core = first :: rest ∧ Plain first := by
  obtain ⟨c, cs, id⟩ := List.exists_cons_of_ne_nil (decimal_ne_nil row.id)
  have plain := decimal_plain row.id (.char c) (by simp [id, chars])
  have shape : ∃ tail, row.core = chars (decimal row.id) ++ tail :=
    ⟨_, List.intercalate_cons_cons.trans (List.append_assoc _ _ _)⟩
  obtain ⟨tail, core⟩ := shape
  exact ⟨.char c, chars cs ++ tail, by rw [core, id]; rfl, plain⟩

theorem Row.WellFormed.core_last {row : Row F} (wf : row.WellFormed parseFloat) :
    ∃ init last, row.core = init ++ [last] ∧ Plain last := by
  obtain ⟨some_letters, plain⟩ := maker_plain wf.maker
  obtain ⟨init, last, word⟩ := (List.eq_nil_or_concat row.makerText).resolve_left some_letters
  rw [List.concat_eq_append] at word
  have shape : ∃ front, row.core = front ++ row.makerText := by
    simp only [Row.core, Row.fields, List.intercalate_cons_cons, List.intercalate_singleton, ← List.append_assoc]
    exact ⟨_, rfl⟩
  obtain ⟨front, core⟩ := shape
  exact ⟨front ++ init, last, by rw [core, word, List.append_assoc], plain last (by simp [word])⟩

theorem Row.core_columns (row : Row F) (column : Text) (columns : List Text) :
    [comma].intercalate (row.fields ++ column :: columns) =
      row.core ++ comma :: [comma].intercalate (column :: columns) := by
  simp only [Row.core, Row.fields, List.cons_append, List.nil_append, List.intercalate_cons_cons,
    List.intercalate_singleton, List.append_assoc]

theorem Row.WellFormed.trimmed {row : Row F} (wf : row.WellFormed parseFloat) :
    trimSpace row.line = row.core ∨ ∃ tail, trimSpace row.line = row.core ++ comma :: tail := by
  obtain ⟨first, rest, head, solid, -⟩ := row.core_head
  obtain ⟨init, last, core, solidLast, -⟩ := wf.core_last
  have kept : row.core.rdropWhile isSpace = row.core := by
    rw [core, rdropWhile_solid init [] solidLast]
    rfl
  have left : ∀ tail, (row.before ++ (row.core ++ tail)).dropWhile isSpace = row.core ++ tail := by
    intro tail
    rw [head, List.cons_append]
    exact dropWhile_spaces wf.before solid
  unfold trimSpace Row.line
  cases columns : row.columns with
  | nil =>
    left
    rw [List.append_nil, List.append_assoc, show [comma].intercalate row.fields = row.core from rfl, left,
      rdropWhile_spaces wf.after, kept]
  | cons column columns =>
    right
    rw [row.core_columns, List.append_assoc, List.append_assoc, left, ← List.append_assoc,
      rdropWhile_spaces wf.after, rdropWhile_solid row.core _ (by decide)]
    exact ⟨_, rfl⟩

theorem Row.WellFormed.split {row : Row F} (wf : row.WellFormed parseFloat) :
    ∃ more, (trimSpace row.line).splitOn comma = row.fields ++ more := by
  have fields : row.core.splitOn comma = row.fields :=
    List.splitOn_intercalate comma (fun text member => (wf.fields text (List.mem_append_left _ member)).1)
      (by simp [Row.fields])
  rcases wf.trimmed with line | ⟨tail, line⟩
  · exact ⟨[], by rw [line, fields, List.append_nil]⟩
  · exact ⟨tail.splitOn comma, by rw [line, List.splitOn_append_cons_self, fields]⟩

theorem Row.WellFormed.starts {row : Row F} (wf : row.WellFormed parseFloat) :
    ∃ first rest, trimSpace row.line = first :: rest ∧ Plain first := by
  obtain ⟨first, rest, head, plain⟩ := row.core_head
  rcases wf.trimmed with line | ⟨tail, line⟩
  · exact ⟨first, rest, line.trans head, plain⟩
  · exact ⟨first, _, by rw [line, head, List.cons_append], plain⟩

theorem Row.WellFormed.futures {row : Row F} (wf : row.WellFormed parseFloat) :
    parseFuturesLine parseFloat (trimSpace row.line) = some (row.trade "futures") := by
  obtain ⟨more, fields⟩ := wf.split
  simp only [parseFuturesLine, fields, Row.fields, List.cons_append, List.nil_append]
  simp [parseInt_decimal wf.id, parseInt_decimal wf.time, wf.price, wf.qty, maker_read wf.maker, Row.trade]

theorem Row.WellFormed.spot {row : Row F} (wf : row.WellFormed parseFloat) :
    parseSpotLine parseFloat (trimSpace row.line) = some (row.trade "spot") := by
  obtain ⟨more, fields⟩ := wf.split
  simp only [parseSpotLine, fields, Row.fields, List.cons_append, List.nil_append]
  have micros : (10 : ℤ) ^ 15 < row.time → row.time.tdiv 1000 = row.time / 1000 := by
    intro large
    exact Int.tdiv_eq_ediv_of_nonneg (by omega)
  have time : (if 10 ^ 15 < row.time then row.time.tdiv 1000 else row.time) =
      if 10 ^ 15 < row.time then row.time / 1000 else row.time := by
    split_ifs with large
    · exact micros large
    · rfl
  simp only [parseInt_decimal wf.id, parseInt_decimal wf.time, wf.price, wf.qty, maker_read wf.maker, time,
    Row.trade, Option.bind_eq_bind, Option.bind_some, Option.pure_def, true_and]

theorem unreadable_none {line : Text} (unreadable : Unreadable parseFloat (line.splitOn comma)) :
    parseFuturesLine parseFloat line = none ∧ parseSpotLine parseFloat line = none := by
  unfold parseFuturesLine parseSpotLine
  split
  · rename_i id price qty quote time maker more fields
    rw [fields] at unreadable
    rcases unreadable with short | badId | badPrice | badQty | badTime
    · simp only [List.length_cons] at short
      omega
    · have id : parseInt id = none := badId
      simp [id]
    · have price : parseFloat price = none := badPrice
      simp [price]
    · have qty : parseFloat qty = none := badQty
      simp [qty]
    · have time : parseInt time = none := badTime
      simp [time]
  · exact ⟨rfl, rfl⟩

theorem trimSpace_header {after : Text} (spaces : Spaces after) : trimSpace (headerText ++ after) = headerText := by
  have head : headerText = .char 'i' :: headerText.tail := by decide +kernel
  have last : headerText = headerText.dropLast ++ [.char 'r'] := by decide +kernel
  have left : (headerText ++ after).dropWhile isSpace = headerText ++ after := by
    rw [head, List.cons_append, List.dropWhile_cons_of_neg (by decide)]
  rw [trimSpace, left, rdropWhile_spaces spaces, last, rdropWhile_solid _ [] (by decide)]
  rfl

theorem header_unreadable (parseFloat : Text → Option F) : Unreadable parseFloat (headerText.splitOn comma) := by
  have id : (headerText.splitOn comma)[0]?.bind parseInt = none := by decide +kernel
  exact .inr (.inl id)

theorem trimSpace_blank {text : Text} (spaces : Spaces text) : trimSpace text = [] := by
  have gone : text.dropWhile isSpace = [] := List.dropWhile_eq_nil_iff.mpr fun r member => (spaces r member).1
  rw [trimSpace, gone]
  rfl

theorem skipped_futures {token : Text} (unreadable : Unreadable parseFloat ((trimSpace token).splitOn comma))
    (lineNum : ℕ) : futuresToken parseFloat token lineNum = none := by
  dsimp only [futuresToken]
  split_ifs
  · rfl
  · rfl
  · exact (unreadable_none unreadable).1

theorem skipped_spot {token : Text} (unreadable : Unreadable parseFloat ((trimSpace token).splitOn comma)) :
    spotToken parseFloat token = none := by
  dsimp only [spotToken]
  split_ifs
  · rfl
  · exact (unreadable_none unreadable).2

theorem Entry.WellFormed.skipped {e : Entry F} (wf : e.WellFormed parseFloat) (noTrade : ∀ row, e ≠ .trade row) :
    Unreadable parseFloat ((trimSpace (dropCR e.text)).splitOn comma) := by
  rw [trimSpace_dropCR]
  cases e with
  | trade row => exact absurd rfl (noTrade row)
  | header after =>
    rw [Entry.text, trimSpace_header wf]
    exact header_unreadable parseFloat
  | blank text =>
    rw [Entry.text, trimSpace_blank wf]
    exact .inl (by decide)
  | bad text => exact wf.2

theorem Entry.WellFormed.futures {e : Entry F} (wf : e.WellFormed parseFloat) (lineNum : ℕ) :
    futuresToken parseFloat (dropCR e.text) lineNum = e.trade? "futures" := by
  cases e with
  | trade row =>
    obtain ⟨first, rest, line, -, -, -, notId⟩ := Row.WellFormed.starts wf
    have read := Row.WellFormed.futures wf
    have header : ¬ chars ['i', 'd'] <+: trimSpace row.line := by
      rintro ⟨more, same⟩
      rw [line] at same
      exact notId (List.cons.inj same).1.symm
    have some_text : trimSpace row.line ≠ [] := by simp [line]
    simp only [futuresToken, Entry.text, trimSpace_dropCR, some_text, header, and_false, ↓reduceIte, read, Entry.trade?]
  | header | blank | bad => exact skipped_futures (wf.skipped (by simp)) lineNum

theorem Entry.WellFormed.spot {e : Entry F} (wf : e.WellFormed parseFloat) :
    spotToken parseFloat (dropCR e.text) = e.trade? "spot" := by
  cases e with
  | trade row =>
    obtain ⟨first, rest, line, -⟩ := Row.WellFormed.starts wf
    have read := Row.WellFormed.spot wf
    have some_text : trimSpace row.line ≠ [] := by simp [line]
    simp only [spotToken, Entry.text, trimSpace_dropCR, some_text, ↓reduceIte, read, Entry.trade?]
  | header | blank | bad => exact skipped_spot (wf.skipped (by simp))

theorem intercalate_oneLine {texts : List Text} (free : ∀ text ∈ texts, newline ∉ text) :
    newline ∉ [comma].intercalate texts := by
  induction texts with
  | nil => simp
  | cons text rest ih =>
    have here := free text List.mem_cons_self
    have later := ih fun t member => free t (List.mem_cons_of_mem _ member)
    cases rest with
    | nil => rwa [List.intercalate_singleton]
    | cons next rest =>
      rw [List.intercalate_cons_cons, List.mem_append, List.mem_append, List.mem_singleton]
      rintro ((there | same) | there)
      · exact here there
      · exact absurd same (by decide)
      · exact later there

theorem Entry.WellFormed.oneLine {e : Entry F} (wf : e.WellFormed parseFloat) : newline ∉ e.text := by
  cases e with
  | trade row =>
    have fields := intercalate_oneLine fun text member => (Row.WellFormed.fields wf text member).2
    simp only [Entry.text, Row.line, List.mem_append, not_or]
    exact ⟨⟨fun member => (wf.before _ member).2 rfl, fields⟩, fun member => (wf.after _ member).2 rfl⟩
  | header after =>
    rw [Entry.text, List.mem_append, not_or]
    exact ⟨by decide +kernel, fun member => (wf _ member).2 rfl⟩
  | blank text => exact fun member => (wf _ member).2 rfl
  | bad text => exact wf.1

end Entries

theorem filterMap_zipIdx {α : Type} {β : Type} {f : α → ℕ → Option β} {xs : List α}
    (same : ∀ x ∈ xs, ∀ i, f x i = f x 0) (n : ℕ) :
    ((xs.zipIdx n).filterMap fun p => f p.1 p.2) = xs.filterMap (f · 0) := by
  induction xs generalizing n with
  | nil => rfl
  | cons x rest ih =>
    have later := ih (fun y member => same y (List.mem_cons_of_mem _ member)) (n + 1)
    rw [List.zipIdx_cons, List.filterMap_cons, List.filterMap_cons, same x List.mem_cons_self n, later]

section File
variable {F : Type} {parseFloat : Text → Option F} {entries : List (Entry F)}
  (wf : ∀ e ∈ entries, e.WellFormed parseFloat) (short : ∀ e ∈ entries, byteSize e.text < 256 * 1024)
include wf short

theorem scan_file : ∃ tokens, scanLines (splitLines (fileText entries)) = (tokens, none) ∧
    (entries.map (fun e => dropCR e.text) = tokens ∨ entries.map (fun e => dropCR e.text) = tokens ++ [[]]) := by
  have clean : ∀ line ∈ entries.map Entry.text, newline ∉ line :=
    List.forall_mem_map.mpr fun e member => (wf e member).oneLine
  have small : ∀ line ∈ entries.map Entry.text, byteSize line < 256 * 1024 := List.forall_mem_map.mpr short
  rcases splitLines_intercalate clean with same | ended
  · rw [fileText, same]
    exact ⟨_, scanLines_short small, .inl (List.map_map (g := dropCR)).symm⟩
  · rw [fileText]
    have prefix_small : ∀ line ∈ splitLines ([newline].intercalate (entries.map Entry.text)),
        byteSize line < 256 * 1024 := fun line member => small line (ended ▸ List.mem_append_left _ member)
    refine ⟨_, scanLines_short prefix_small, .inr ?_⟩
    have mapped := congrArg (List.map dropCR) ended
    rw [List.map_map, List.map_append] at mapped
    exact mapped

omit wf short in
theorem tokens_read {tokens : List Text} {read : Text → Option (Trade F)} {market : String}
    (lines : entries.map (fun e => dropCR e.text) = tokens ∨
      entries.map (fun e => dropCR e.text) = tokens ++ [[]])
    (skips : read [] = none) (each : ∀ e ∈ entries, read (dropCR e.text) = e.trade? market) :
    tokens.filterMap read = entries.filterMap (Entry.trade? market) := by
  have whole : (entries.map fun e => dropCR e.text).filterMap read = entries.filterMap (Entry.trade? market) := by
    rw [List.filterMap_map]
    exact List.filterMap_congr each
  rcases lines with same | ended
  · rw [← same, whole]
  · rw [ended, List.filterMap_append, List.filterMap_cons_none skips, List.filterMap_nil, List.append_nil] at whole
    exact whole

theorem futures_file : parseFuturesCSV parseFloat (fileText entries) =
    (entries.filterMap (Entry.trade? "futures"), none) := by
  obtain ⟨tokens, scanned, lines⟩ := scan_file wf short
  have known : ∀ token ∈ tokens, ∀ lineNum, futuresToken parseFloat token lineNum =
      futuresToken parseFloat token 0 := by
    intro token member lineNum
    have listed : token ∈ entries.map fun e => dropCR e.text := by
      rcases lines with same | ended
      · exact same ▸ member
      · exact ended ▸ List.mem_append_left _ member
    obtain ⟨e, inside, rfl⟩ := List.mem_map.mp listed
    rw [(wf e inside).futures, (wf e inside).futures]
  simp only [parseFuturesCSV, scanned, filterMap_zipIdx known]
  rw [tokens_read lines rfl fun e member => (wf e member).futures 0]

theorem spot_file : parseSpotCSV parseFloat (fileText entries) =
    (entries.filterMap (Entry.trade? "spot"), none) := by
  obtain ⟨tokens, scanned, lines⟩ := scan_file wf short
  simp only [parseSpotCSV, scanned]
  rw [tokens_read lines rfl fun e member => (wf e member).spot]

theorem pipeline_file (slices : SliceSort F) (market : String) :
    ∃ trades, parseCSV parseFloat slices market (fileText entries) = .ok trades ∧
      trades.Pairwise (fun a b => a.tradeID < b.tradeID) ∧ ∀ id, id ∈ trades.map Trade.tradeID ↔
        id ∈ (entries.filterMap (Entry.trade? market)).map Trade.tradeID := by
  have read : (if market = "spot" then parseSpotCSV parseFloat (fileText entries)
      else parseFuturesCSV parseFloat (fileText entries)) = (entries.filterMap (Entry.trade? market), none) := by
    split_ifs with spot
    · rw [spot, spot_file wf short]
    · have same : Entry.trade? (F := F) market = Entry.trade? "futures" := by
        funext e
        cases e <;> simp [Entry.trade?, Row.trade, spot]
      rw [same, futures_file wf short]
  refine ⟨dedup (slices.sort (entries.filterMap (Entry.trade? market))), ?_, ?_, fun id => ?_⟩
  · simp only [parseCSV, read]
  · exact dedup_strict (slices.sorted _)
  · rw [dedup_ids]
    exact ((slices.perm _).map Trade.tradeID).mem_iff

/-- Well-formed lines come back exactly, whatever else stands between them. -/
theorem file_read_back : ReadBack parseFloat (fileText entries) entries :=
  ⟨futures_file wf short, spot_file wf short, pipeline_file wf short⟩

end File

instance (text : Text) : Decidable (OneField text) := inferInstanceAs (Decidable (_ ∧ _))

instance (text : Text) : Decidable (Spaces text) :=
  inferInstanceAs (Decidable (∀ r ∈ text, isSpace r = true ∧ r ≠ newline))

instance (n : ℤ) : Decidable (Int64 n) := inferInstanceAs (Decidable (_ ∧ _))

def readFloat (text : Text) : Option ℚ := (asChars text).bind DecimalText.parsePlain

def lateRow : Row ℚ :=
  ⟨4361451943, 94591, 1 / 2, 1735776000174250, true, chars ['9', '4', '5', '9', '1'], chars ['0', '.', '5'], [],
    chars ['T', 'r', 'u', 'e'], [chars ['T', 'r', 'u', 'e']], [.char ' '], [.char '\r']⟩

def earlyRow : Row ℚ :=
  ⟨4361451942, 94592, 1 / 4, 1735776000113, false, chars ['9', '4', '5', '9', '2'], chars ['0', '.', '2', '5'], [],
    chars ['f', 'A', 'l', 's', 'e'], [], [], []⟩

def mixedEntries : List (Entry ℚ) :=
  [.header [], .trade lateRow, .bad (chars ['B', 'A', 'D'] ++ [.stray 255]), .blank [.char ' '], .trade earlyRow,
    .trade lateRow, .blank []]

theorem mixed_read_back : ReadBack readFloat (fileText mixedEntries) mixedEntries := by
  have late : lateRow.WellFormed readFloat :=
    ⟨by decide, by decide, by decide +kernel, by decide +kernel,
      .cons (.inr rfl) (.cons (.inl rfl) (.cons (.inl rfl) (.cons (.inl rfl) .nil))), by decide +kernel,
      by decide, by decide⟩
  have early : earlyRow.WellFormed readFloat :=
    ⟨by decide, by decide, by decide +kernel, by decide +kernel,
      .cons (.inl rfl) (.cons (.inr rfl) (.cons (.inl rfl) (.cons (.inl rfl) (.cons (.inl rfl) .nil)))),
      by decide +kernel, by decide, by decide⟩
  have bad : newline ∉ chars ['B', 'A', 'D'] ++ [.stray 255] ∧ Unreadable readFloat
      ((trimSpace (chars ['B', 'A', 'D'] ++ [.stray 255])).splitOn comma) := ⟨by decide, .inl (by decide +kernel)⟩
  have blank : Spaces [.char ' '] := by decide
  have empty : Spaces [] := by decide
  refine file_read_back ?_ (by decide +kernel)
  simp only [mixedEntries, List.forall_mem_cons, Entry.WellFormed]
  exact ⟨empty, late, bad, blank, early, late, empty, by simp⟩

end TradeCsv
