import Procluster.GapFill
import Procluster.Library.OrderedPaging

/-!
FillGap of a spot market on any exchange content, ids with holes included. The exchange
answers a request by its fromId, which is only sent when it is positive; every attempt
brings that answer or a rate limit.
-/
namespace SpotGapFill
open Aggregate GapFill CursorPaging OrderedPaging

def fromParam (fromID : ℤ) : Option ℤ := if 0 < fromID then some fromID else none

abbrev History := Option ℤ → ℕ → List RawTrade

section Fill
variable (history : History) (net : Network) (symbol : String)

def spotPage (k : ℕ) (current : ℤ) : Fetched String Trade :=
  request fun r =>
    fetchHistoricalTrades symbol "spot" (net.reply k r (history (fromParam current) 1000))

def fillSpot (start last : ℤ) (fuel : ℕ) : Option (Except String (List Trade)) :=
  collect Trade.tradeID last (spotPage history net symbol) fuel 0 [] start

end Fill

def historyOf (content : List RawTrade) : History
  | some fromID, limit => (content.filter fun r => fromID ≤ r.id).take limit
  | none, limit => content.drop (content.length - limit)

theorem historyOf_served (content : List RawTrade) (fromID : ℤ) (limit : ℕ) :
    historyOf content (fromParam fromID) limit = served RawTrade.id fromID limit content := by
  unfold fromParam served
  split <;> rfl

theorem fillGap_spot (x : Exchange) (net : Network) (symbol : String) (start last : ℤ) (fuel : ℕ) :
    fillGap x net symbol "spot" start last fuel =
      fillSpot (historyOf x.trades) net symbol start last fuel := by
  have pages : fetchPage x net symbol "spot" = spotPage (historyOf x.trades) net symbol := by
    funext k current
    simp only [fetchPage, spotPage, historyOf_served, if_neg (show ¬ "spot" = "futures" by decide)]
  rw [fillGap, pages, fillSpot]

/-- Every answer from start on is the next existing trades, up to 1000 of them. -/
def AnswersFrom (content : List RawTrade) (history : History) (start : ℤ) : Prop :=
  ∀ fromID, start ≤ fromID → ∃ size, 0 < size ∧ size ≤ 1000 ∧
    history (fromParam fromID) 1000 = (content.filter fun r => fromID ≤ r.id).take size

def OnlyRateLimits (net : Network) : Prop :=
  ∀ k r, ∀ o ∈ net k r, outageError "" "" "" "" o = .rateLimited

/-- The result is an exact initial part of the existing trades of the gap. -/
structure ExactPart (content : List RawTrade) (start last : ℤ) (trades : List Trade) : Prop where
  ascending : trades.Pairwise fun t u => t.tradeID < u.tradeID
  inside : ∀ t ∈ trades, start ≤ t.tradeID ∧ t.tradeID ≤ last
  existing : ∀ t ∈ trades, ∃ r ∈ content, r.trade = t
  covers : ∀ t ∈ trades, ∀ r ∈ content, start ≤ r.id → r.id ≤ t.tradeID → r.trade ∈ trades

theorem request_limited {Raw : Type} {net : Network} (limited : OnlyRateLimits net)
    (label noun symbol market : String) (k : ℕ) (answer : List Raw) (message : String) :
    request (fun r => decode label noun symbol market (net.reply k r answer)) ≠ .failed message := by
  rw [request]
  cases outage : net k 0 with
  | none => simp [Network.reply, outage, decode]
  | some o =>
    have refused := (rateLimited_iff label noun symbol market o).mpr (limited k 0 o outage)
    have later := retry_reply label noun symbol market net k answer 3 1
    rw [show decode label noun symbol market (net.reply k 0 answer) = .error .rateLimited by
      rw [Network.reply, outage, decode, refused]]
    rcases later with ⟨-, result⟩ | ⟨-, result⟩ <;> simp [result]

section Spot
variable {content : List RawTrade} {history : History} {net : Network} {start : ℤ}

theorem spotPage_serves (answers : AnswersFrom content history start) (limited : OnlyRateLimits net)
    (symbol : String) : ServesNext Trade.tradeID (content.map RawTrade.trade) start (Arrives net)
      (spotPage history net symbol) := by
  have renamed : ∀ k c, spotPage history net symbol k c =
      (request fun r => decode "binance" "trades" symbol "spot"
        (net.reply k r (history (fromParam c) 1000))).map RawTrade.trade := by
    intro k c
    rw [← request_map]
    rfl
  constructor
  · intro k c asked arrived
    obtain ⟨size, some_items, -, answer⟩ := answers c asked
    refine ⟨size, some_items, ?_⟩
    rw [renamed, (request_reply _ _ _ _ net k _).1 arrived, answer, Fetched.map, List.map_take, after,
      List.filter_map]
    rfl
  · intro k c missing
    rw [renamed]
    rcases (request_reply "binance" "trades" symbol "spot" net k (history (fromParam c) 1000)).2 missing
      with result | ⟨message, result⟩
    · rw [result, Fetched.map]
    · exact absurd result (request_limited limited _ _ _ _ k _ message)

/- Initial parts of the gap's trades in their order are exact. -/
theorem exactPart_front (ascending : content.Pairwise fun r s => r.id < s.id) {last : ℤ}
    {trades : List Trade}
    (front : trades <+: within Trade.tradeID last (content.map RawTrade.trade) start) :
    ExactPart content start last trades := by
  obtain ⟨rest, split⟩ := front
  have listed : (content.map RawTrade.trade).Pairwise fun t u => t.tradeID < u.tradeID :=
    List.pairwise_map.mpr ascending
  have sorted : (trades ++ rest).Pairwise fun t u => t.tradeID < u.tradeID := split ▸ listed.filter _
  have members : ∀ t, t ∈ trades ++ rest ↔
      (∃ r ∈ content, r.trade = t) ∧ start ≤ t.tradeID ∧ t.tradeID ≤ last := by
    intro t
    rw [split, within, List.mem_filter, List.mem_map, decide_eq_true_eq]
  obtain ⟨inorder, -, across⟩ := List.pairwise_append.mp sorted
  refine ⟨inorder, ?_, ?_, ?_⟩
  · intro t member
    exact ((members t).mp (List.mem_append_left _ member)).2
  · intro t member
    exact ((members t).mp (List.mem_append_left _ member)).1
  · intro t member r existing from_start up_to
    obtain ⟨-, -, in_gap⟩ := (members t).mp (List.mem_append_left _ member)
    have taken : r.trade ∈ trades ++ rest :=
      (members r.trade).mpr ⟨⟨r, existing, rfl⟩, from_start, up_to.trans in_gap⟩
    rcases List.mem_append.mp taken with here | behind
    · exact here
    · have later : t.tradeID < r.id := across t member r.trade behind
      omega

/-- The spot gap filler ends, with an exact initial part of the gap's trades, and with all
    of them where every request that it makes is answered within its retries. -/
theorem spot_gap_filled (ascending : content.Pairwise fun r s => r.id < s.id)
    (answers : AnswersFrom content history start) (limited : OnlyRateLimits net) (symbol : String)
    (last : ℤ) : ∃ fuel trades, fillSpot history net symbol start last fuel = some (.ok trades) ∧
      ExactPart content start last trades ∧
      ((∀ k, Asks Trade.tradeID last (spotPage history net symbol) fuel 0 start k → Arrives net k) →
        ∀ r ∈ content, start ≤ r.id → r.id ≤ last → r.trade ∈ trades) := by
  have sorted : (content.map RawTrade.trade).Pairwise fun t u => t.tradeID < u.tradeID :=
    List.pairwise_map.mpr ascending
  obtain ⟨fuel, trades, done, front, complete⟩ :=
    collect_within sorted (spotPage_serves answers limited symbol) 0 le_rfl
  refine ⟨fuel, trades, done, exactPart_front ascending front, ?_⟩
  intro arrived r existing from_start up_to
  rw [complete arrived, within, List.mem_filter, decide_eq_true_eq]
  exact ⟨List.mem_map_of_mem existing, from_start, up_to⟩

end Spot

def holed : List RawTrade := [⟨5, 100, 1, 0, true⟩, ⟨7, 101, 2, 10, false⟩, ⟨9, 102, 3, 20, true⟩]

def refusedOnce : Network
  | 0, 0 => some (.status 429 0 "")
  | _, _ => none

theorem holed_gap_filled : ∃ fuel trades,
    fillSpot (historyOf holed) refusedOnce "BTCUSDT" 5 8 fuel = some (.ok trades) ∧
      ExactPart holed 5 8 trades ∧
      ((∀ k, Asks Trade.tradeID 8 (spotPage (historyOf holed) refusedOnce "BTCUSDT") fuel 0 5 k →
          Arrives refusedOnce k) →
        ∀ r ∈ holed, 5 ≤ r.id → r.id ≤ 8 → r.trade ∈ trades) := by
  apply spot_gap_filled
  · decide
  · intro fromID asked
    refine ⟨1000, by decide, le_rfl, ?_⟩
    rw [fromParam, if_pos (by omega), historyOf]
  · intro k r o outage
    unfold refusedOnce at outage
    split at outage
    · obtain rfl := Option.some.inj outage
      simp [outageError]
    · cases outage

end SpotGapFill
