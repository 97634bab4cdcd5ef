import Procluster.TradeCsv

/-!
Package ingest: ParseTradeMessage on a JSON object. json.Unmarshal fills a map of raw
values, and the helpers that read a key drop its errors. A nested value is an array or an
object, which no helper looks into.
-/
namespace TradeMessages
open KeyedFold
open TradeCsv (Int64 Trade)

/-- int is a number literal without fraction or exponent, number one with. -/
inductive Json where
  | null
  | bool (b : Bool)
  | int (n : ℤ)
  | number (literal : String)
  | str (text : String)
  | nested
  deriving DecidableEq

abbrev Object := List (String × Json)

/-- The map of raw values: a later key replaces an equal earlier one. -/
def raw (data : Object) : List (String × Json) := gather Prod.fst (fun p _ => p.2) data

/-- strconv.ParseFloat with the texts of its errors, of which the empty text gives one. -/
structure FloatParser (F : Type) where
  parseFloat : String → Except String F
  empty : ∃ e, parseFloat "" = .error e

section Helpers
variable (raw : List (String × Json)) (key : String)

/-- Unmarshal leaves the empty string for null and for every other type. -/
def getString : String :=
  match find key raw with
  | some (.str text) => text
  | _ => ""

def getInt64 : ℤ :=
  match find key raw with
  | some (.int n) => if Int64 n then n else 0
  | _ => 0

def getBool : Bool :=
  match find key raw with
  | some (.bool b) => b
  | _ => false

end Helpers

variable {F : Type} (parser : FloatParser F)

def parseTradeMessage (data : Object) : Except String (Trade F) :=
  match parser.parseFloat (getString (raw data) "p") with
  | .error e => .error ("parse price: " ++ e)
  | .ok price =>
    match parser.parseFloat (getString (raw data) "q") with
    | .error e => .error ("parse qty: " ++ e)
    | .ok qty =>
      .ok ⟨getInt64 (raw data) "t", price, qty, getInt64 (raw data) "T", getBool (raw data) "m"⟩

def Holds (data : Object) (key : String) (value : Json) : Prop :=
  ∃ before after, data = before ++ (key, value) :: after ∧ ∀ entry ∈ after, entry.1 ≠ key

def HoldsFloat (data : Object) (key : String) (value : F) : Prop :=
  ∃ text, Holds data key (.str text) ∧ parser.parseFloat text = .ok value

def HoldsInt64 (data : Object) (key : String) (n : ℤ) : Prop := Holds data key (.int n) ∧ Int64 n

structure Carries (data : Object) (trade : Trade F) : Prop where
  price : HoldsFloat parser data "p" trade.price
  qty : HoldsFloat parser data "q" trade.qty
  tradeID : HoldsInt64 data "t" trade.tradeID
  tradeTimeMs : HoldsInt64 data "T" trade.tradeTimeMs
  isBuyerMaker : Holds data "m" (.bool trade.isBuyerMaker)

/-- The message becomes a trade exactly if it carries it. -/
def Strict (data : Object) : Prop :=
  ∀ trade, parseTradeMessage parser data = .ok trade ↔ Carries parser data trade

def Numbers (data : Object) : Prop :=
  (∃ price, HoldsFloat parser data "p" price) ∧ ∃ qty, HoldsFloat parser data "q" qty

def Typed (data : Object) : Prop :=
  (∃ id, HoldsInt64 data "t" id) ∧ (∃ time, HoldsInt64 data "T" time) ∧ ∃ maker, Holds data "m" (.bool maker)

theorem find_raw (data : Object) (key : String) (value : Json) :
    find key (raw data) = some value ↔ Holds data key value := by
  rw [raw, find_gather_last]
  constructor
  · rintro ⟨before, ⟨_, _⟩, after, split, rfl, rfl, others⟩
    exact ⟨before, after, split, others⟩
  · rintro ⟨before, after, split, others⟩
    exact ⟨before, (key, value), after, split, rfl, rfl, others⟩

theorem getInt64_held {data : Object} {key : String} {n : ℤ} (held : HoldsInt64 data key n) :
    getInt64 (raw data) key = n := by
  obtain ⟨value, range⟩ := held
  rw [getInt64, (find_raw data key _).mpr value]
  exact if_pos range

theorem getBool_held {data : Object} {key : String} {b : Bool} (held : Holds data key (.bool b)) :
    getBool (raw data) key = b := by
  rw [getBool, (find_raw data key _).mpr held]

theorem float_iff (data : Object) (key : String) (value : F) :
    parser.parseFloat (getString (raw data) key) = .ok value ↔ HoldsFloat parser data key value := by
  constructor
  · intro parsed
    obtain ⟨e, empty⟩ := parser.empty
    unfold getString at parsed
    split at parsed
    · rename_i text found
      exact ⟨text, (find_raw data key _).mp found, parsed⟩
    · rw [empty] at parsed
      cases parsed
  · rintro ⟨text, held, parsed⟩
    rw [getString, (find_raw data key _).mpr held]
    exact parsed

/- Two readable numbers are enough for a trade. -/
theorem parseTradeMessage_ok_iff (data : Object) (trade : Trade F) :
    parseTradeMessage parser data = .ok trade ↔
      HoldsFloat parser data "p" trade.price ∧ HoldsFloat parser data "q" trade.qty ∧
        trade.tradeID = getInt64 (raw data) "t" ∧ trade.tradeTimeMs = getInt64 (raw data) "T" ∧
          trade.isBuyerMaker = getBool (raw data) "m" := by
  rw [← float_iff, ← float_iff]
  unfold parseTradeMessage
  split
  · rename_i e price
    simp [price]
  · rename_i price readPrice
    split
    · rename_i e qty
      simp [qty]
    · rename_i qty readQty
      rw [readPrice, readQty]
      constructor
      · intro same
        obtain rfl := Except.ok.inj same
        exact ⟨rfl, rfl, rfl, rfl, rfl⟩
      · obtain ⟨id, p, q, time, maker⟩ := trade
        rintro ⟨samePrice, sameQty, rfl, rfl, rfl⟩
        obtain rfl := Except.ok.inj samePrice
        obtain rfl := Except.ok.inj sameQty
        rfl

theorem carries_parsed {data : Object} {trade : Trade F} (carries : Carries parser data trade) :
    parseTradeMessage parser data = .ok trade := by
  obtain ⟨price, qty, id, time, maker⟩ := carries
  exact (parseTradeMessage_ok_iff parser data trade).mpr ⟨price, qty, (getInt64_held id).symm,
    (getInt64_held time).symm, (getBool_held maker).symm⟩

theorem typed_carries {data : Object} (typed : Typed data) {trade : Trade F}
    (parsed : parseTradeMessage parser data = .ok trade) : Carries parser data trade := by
  obtain ⟨price, qty, id, time, maker⟩ := (parseTradeMessage_ok_iff parser data trade).mp parsed
  obtain ⟨⟨n, heldId⟩, ⟨ms, heldTime⟩, b, heldMaker⟩ := typed
  rw [getInt64_held heldId] at id
  rw [getInt64_held heldTime] at time
  rw [getBool_held heldMaker] at maker
  subst id time maker
  exact ⟨price, qty, heldId, heldTime, heldMaker⟩

/-- A message is judged right exactly if its price and quantity cannot be read, or its ids,
    time and side are of their types. -/
theorem strict_iff (data : Object) : Strict parser data ↔ (Numbers parser data → Typed data) := by
  constructor
  · rintro strict ⟨⟨price, heldPrice⟩, qty, heldQty⟩
    have parsed := (parseTradeMessage_ok_iff parser data ⟨getInt64 (raw data) "t", price, qty,
      getInt64 (raw data) "T", getBool (raw data) "m"⟩).mpr ⟨heldPrice, heldQty, rfl, rfl, rfl⟩
    have carries := (strict _).mp parsed
    exact ⟨⟨_, carries.tradeID⟩, ⟨_, carries.tradeTimeMs⟩, _, carries.isBuyerMaker⟩
  · intro typed trade
    constructor
    · intro parsed
      obtain ⟨price, qty, -⟩ := (parseTradeMessage_ok_iff parser data trade).mp parsed
      exact typed_carries parser (typed ⟨⟨_, price⟩, _, qty⟩) parsed
    · exact carries_parsed parser

def plainParser : FloatParser ℚ where
  parseFloat text :=
    match DecimalText.parsePlain text.toList with
    | some q => .ok q
    | none => .error ("strconv.ParseFloat: parsing " ++ text.quote ++ ": invalid syntax")
  empty := ⟨_, rfl⟩

def bareEvent : Object := [("e", .str "trade"), ("p", .str "100"), ("q", .str "1")]

/-- It becomes a trade with id 0 and time 0 on the buyer's side. -/
theorem bare_message_accepted :
    parseTradeMessage plainParser bareEvent = .ok ⟨0, 100, 1, 0, false⟩ ∧ ¬ Strict plainParser bareEvent := by
  have parsed : parseTradeMessage plainParser bareEvent = .ok ⟨0, 100, 1, 0, false⟩ := by decide +kernel
  refine ⟨parsed, fun strict => ?_⟩
  have held := (find_raw _ _ _).mpr ((strict _).mp parsed).tradeID.1
  exact absurd held (by decide +kernel)

end TradeMessages
