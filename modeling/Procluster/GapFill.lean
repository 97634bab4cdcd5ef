import Procluster.Aggregate
import Procluster.Library.CursorPaging

/-!
Package ingest: the REST calls for missed trades and the gap filler. The exchange keeps
its trades in groups of consecutive ids, the aggTrades, which it numbers on their own.
Prices and quantities are the numbers their decimal texts stand for. Every attempt at a
page ends in the exchange's answer or in an outage that the network chooses; waiting
times and log lines are left out.
-/
namespace GapFill
open Aggregate CursorPaging

inductive FetchError where
  | rateLimited
  | other (message : String)

/-- A request that brings no list: no response, another status than 200, a body that is
    not a list, or a list that cannot be decoded. -/
inductive Outage where
  | unreachable (message : String)
  | status (httpStatus : ℕ) (code : ℤ) (msg : String)
  | object (code : ℤ) (msg body : String)
  | malformed (message : String)

inductive Reply (Raw : Type) where
  | list (raw : List Raw)
  | outage (o : Outage)

structure RawTrade where
  id : ℤ
  price : ℚ
  qty : ℚ
  time : ℤ
  isBuyerMaker : Bool

structure RawAggTrade where
  a : ℤ
  p : ℚ
  q : ℚ
  f : ℤ
  l : ℤ
  t : ℤ
  m : Bool

def RawTrade.trade (r : RawTrade) : Trade where
  tradeID := r.id
  price := r.price
  qty := r.qty
  tradeTimeMs := r.time
  isBuyerMaker := r.isBuyerMaker

/-- The last trade id of the group stands for the whole group. -/
def RawAggTrade.trade (r : RawAggTrade) : Trade where
  tradeID := r.l
  price := r.p
  qty := r.q
  tradeTimeMs := r.t
  isBuyerMaker := r.m

section Decode
variable (label noun symbol market : String)

def outageError : Outage → FetchError
  | .unreachable message => .other message
  | .status httpStatus code msg =>
    if httpStatus = 429 ∨ httpStatus = 418 ∨ code = -1003 then .rateLimited
    else .other (label ++ " " ++ market ++ " " ++ symbol ++ ": HTTP " ++ httpStatus.repr ++
      " code=" ++ code.repr ++ " msg=" ++ msg)
  | .object code msg body =>
    if code = -1003 then .rateLimited
    else if code ≠ 0 then .other (label ++ " error: code=" ++ code.repr ++ " msg=" ++ msg)
    else .other (label ++ " unexpected response: " ++ body)
  | .malformed message => .other ("unmarshal " ++ noun ++ ": " ++ message)

def decode {Raw : Type} : Reply Raw → Except FetchError (List Raw)
  | .list raw => .ok raw
  | .outage o => .error (outageError label noun symbol market o)

end Decode

def fetchHistoricalTrades (symbol market : String) (reply : Reply RawTrade) :
    Except FetchError (List Trade) :=
  (decode "binance" "trades" symbol market reply).map (List.map RawTrade.trade)

def fetchAggTrades (symbol market : String) (reply : Reply RawAggTrade) :
    Except FetchError (List Trade) :=
  (decode "binance aggTrades" "aggTrades" symbol market reply).map (List.map RawAggTrade.trade)

section Retry
variable {Item : Type} (fetch : ℕ → Except FetchError (List Item))

def retry : ℕ → ℕ → Fetched String Item
  | 0, _ => .gaveUp
  | left + 1, attempt =>
    match fetch attempt with
    | .ok batch => .page batch
    | .error .rateLimited => retry left (attempt + 1)
    | .error (.other _) => .gaveUp

/-- Only a first attempt ends FillGap with an error; on a retry every error gives up. -/
def request : Fetched String Item :=
  match fetch 0 with
  | .ok batch => .page batch
  | .error .rateLimited => retry fetch 3 1
  | .error (.other message) => .failed message

end Retry

structure AggGroup where
  price : ℚ
  isBuyerMaker : Bool
  time : ℤ
  qtys : List ℚ
  nonempty : qtys ≠ []
  positive : ∀ q ∈ qtys, 0 < q

instance : Inhabited AggGroup := ⟨⟨0, false, 0, [1], by simp, by simp⟩⟩

structure Exchange where
  firstTradeID : ℕ
  firstAggID : ℤ
  groups : List AggGroup

namespace Exchange
variable (x : Exchange)

def size (i : ℕ) : ℕ := x.groups[i]!.qtys.length

def begins (i : ℕ) : ℤ := x.firstTradeID + ((List.range i).map x.size).sum

def groupTrades (i : ℕ) : List RawTrade :=
  x.groups[i]!.qtys.zipIdx.map fun p =>
    ⟨x.begins i + p.2, x.groups[i]!.price, p.1, x.groups[i]!.time, x.groups[i]!.isBuyerMaker⟩

def aggTrade (i : ℕ) : RawAggTrade where
  a := x.firstAggID + i
  p := x.groups[i]!.price
  q := x.groups[i]!.qtys.sum
  f := x.begins i
  l := x.begins (i + 1) - 1
  t := x.groups[i]!.time
  m := x.groups[i]!.isBuyerMaker

def trades : List RawTrade := (List.range x.groups.length).flatMap x.groupTrades

def aggTrades : List RawAggTrade := (List.range x.groups.length).map x.aggTrade

end Exchange

/-- From a positive id on, else the latest. -/
def served {Raw : Type} (id : Raw → ℤ) (fromID : ℤ) (limit : ℕ) (all : List Raw) : List Raw :=
  if 0 < fromID then (all.filter fun r => fromID ≤ id r).take limit
  else all.drop (all.length - limit)

abbrev Network := ℕ → ℕ → Option Outage

def Network.reply {Raw : Type} (net : Network) (k r : ℕ) (answer : List Raw) : Reply Raw :=
  match net k r with
  | none => .list answer
  | some o => .outage o

section Fill
variable (x : Exchange) (net : Network) (symbol market : String)

def fetchPage (k : ℕ) (current : ℤ) : Fetched String Trade :=
  request fun r =>
    if market = "futures" then
      fetchAggTrades symbol market (net.reply k r (served RawAggTrade.a current 1000 x.aggTrades))
    else
      fetchHistoricalTrades symbol market (net.reply k r (served RawTrade.id current 1000 x.trades))

def fillGap (start last : ℤ) (fuel : ℕ) : Option (Except String (List Trade)) :=
  collect Trade.tradeID last (fetchPage x net symbol market) fuel 0 [] start

end Fill

def volumeAt (price : ℚ) (isBuyerMaker : Bool) (trades : List Trade) : ℚ :=
  ((trades.filter fun t => t.price = price ∧ t.isBuyerMaker = isBuyerMaker).map Trade.qty).sum

def Exchange.between (x : Exchange) (start last : ℤ) : List Trade :=
  (x.trades.map RawTrade.trade).filter fun t => start ≤ t.tradeID ∧ t.tradeID ≤ last

structure TradeGap (x : Exchange) (start last : ℤ) : Prop where
  positive : 0 < start
  ordered : start ≤ last
  after : x.begins 0 ≤ start
  before : last < x.begins x.groups.length

def Conserves (x : Exchange) (net : Network) (symbol : String) (start last : ℤ) : Prop :=
  ∀ fuel trades, fillGap x net symbol "futures" start last fuel = some (.ok trades) →
    ∀ price isBuyerMaker,
      volumeAt price isBuyerMaker trades = volumeAt price isBuyerMaker (x.between start last)

/-- The same ids of trades and aggTrades, whatever the trades are. -/
structure SameIDs (y x : Exchange) : Prop where
  firstTradeID : y.firstTradeID = x.firstTradeID
  firstAggID : y.firstAggID = x.firstAggID
  sizes : y.groups.map (fun g => g.qtys.length) = x.groups.map fun g => g.qtys.length

def Arrives (net : Network) (k : ℕ) : Prop :=
  ∃ r ≤ 3, net k r = none ∧
    ∀ s < r, ∃ o ∈ net k s, outageError "" "" "" "" o = .rateLimited

/-- The request for a group by its first trade id names this group. -/
def Exchange.NamesItself (x : Exchange) (i : ℕ) : Prop :=
  x.begins i = x.firstAggID + i ∨ (i = 0 ∧ x.begins 0 ≤ x.firstAggID)

/-- The groups p up to q are the gap, and every thousandth of them from p on is numbered
    like its first trade and its page arrives. -/
def PagesAligned (x : Exchange) (net : Network) (start last : ℤ) : Prop :=
  ∃ p q, p < q ∧ q ≤ x.groups.length ∧ x.begins p = start ∧ x.begins q = last + 1 ∧
    ∀ k, p + 1000 * k < q → Arrives net k ∧ x.NamesItself (p + 1000 * k)

section Requests
variable {Raw Item : Type} (label noun symbol market : String) (net : Network) (k : ℕ)

theorem rateLimited_iff (o : Outage) :
    outageError label noun symbol market o = .rateLimited ↔ outageError "" "" "" "" o = .rateLimited := by
  cases o with
  | unreachable message => simp [outageError]
  | status httpStatus code msg =>
    simp only [outageError]
    split <;> simp
  | object code msg body =>
    simp only [outageError]
    split
    · simp
    · split <;> simp
  | malformed message => simp [outageError]

theorem decode_map (f : Raw → Item) (r : ℕ) (answer : List Raw) :
    decode label noun symbol market (net.reply k r (answer.map f)) =
      (decode label noun symbol market (net.reply k r answer)).map (List.map f) := by
  unfold Network.reply
  cases net k r <;> rfl

theorem retry_map (f : Raw → Item) (fetch : ℕ → Except FetchError (List Raw)) (left attempt : ℕ) :
    retry (fun r => (fetch r).map (List.map f)) left attempt = (retry fetch left attempt).map f := by
  induction left generalizing attempt with
  | zero => rfl
  | succ left ih =>
    rw [retry, retry]
    cases fetch attempt with
    | ok batch => rfl
    | error err =>
      cases err with
      | rateLimited => exact ih (attempt + 1)
      | other message => rfl

theorem request_map (f : Raw → Item) (fetch : ℕ → Except FetchError (List Raw)) :
    request (fun r => (fetch r).map (List.map f)) = (request fetch).map f := by
  rw [request, request]
  cases fetch 0 with
  | ok batch => rfl
  | error err =>
    cases err with
    | rateLimited => exact retry_map f fetch 3 1
    | other message => rfl

def ArrivesFrom (left attempt : ℕ) : Prop :=
  ∃ r < left, net k (attempt + r) = none ∧
    ∀ s < r, ∃ o ∈ net k (attempt + s), outageError "" "" "" "" o = .rateLimited

variable {net k}

theorem arrivesFrom_answer {left attempt : ℕ} (answered : net k attempt = none) :
    ArrivesFrom net k (left + 1) attempt :=
  ⟨0, by omega, answered, by omega⟩

theorem arrivesFrom_limited {left attempt : ℕ} {o : Outage} (outage : net k attempt = some o)
    (limited : outageError "" "" "" "" o = .rateLimited) :
    ArrivesFrom net k (left + 1) attempt ↔ ArrivesFrom net k left (attempt + 1) := by
  constructor
  · rintro ⟨r, inside, answered, earlier⟩
    cases r with
    | zero => simp [outage] at answered
    | succ r =>
      refine ⟨r, by omega, by rwa [show attempt + 1 + r = attempt + (r + 1) by omega], ?_⟩
      intro s before
      rw [show attempt + 1 + s = attempt + (s + 1) by omega]
      exact earlier (s + 1) (by omega)
  · rintro ⟨r, inside, answered, earlier⟩
    refine ⟨r + 1, by omega, by rwa [show attempt + (r + 1) = attempt + 1 + r by omega], ?_⟩
    intro s before
    cases s with
    | zero => exact ⟨o, outage, limited⟩
    | succ s =>
      rw [show attempt + (s + 1) = attempt + 1 + s by omega]
      exact earlier s (by omega)

theorem not_arrivesFrom {left attempt : ℕ} {o : Outage} (outage : net k attempt = some o)
    (other : outageError "" "" "" "" o ≠ .rateLimited) : ¬ ArrivesFrom net k left attempt := by
  rintro ⟨r, -, answered, earlier⟩
  cases r with
  | zero => simp [outage] at answered
  | succ r =>
    obtain ⟨also, same, limited⟩ := earlier 0 (by omega)
    rw [Nat.add_zero, outage] at same
    exact other (Option.some.inj same ▸ limited)

variable (net k)

theorem retry_reply (answer : List Raw) (left attempt : ℕ) :
    let result := retry (fun r => decode label noun symbol market (net.reply k r answer)) left attempt
    (ArrivesFrom net k left attempt ∧ result = .page answer) ∨
      (¬ ArrivesFrom net k left attempt ∧ result = .gaveUp) := by
  induction left generalizing attempt with
  | zero =>
    right
    exact ⟨by rintro ⟨r, inside, -⟩; omega, rfl⟩
  | succ left ih =>
    simp only [retry]
    cases outage : net k attempt with
    | none =>
      left
      exact ⟨arrivesFrom_answer outage, by simp only [Network.reply, outage, decode]⟩
    | some o =>
      simp only [Network.reply, outage, decode]
      by_cases limited : outageError "" "" "" "" o = .rateLimited
      · rw [(rateLimited_iff label noun symbol market o).mpr limited,
          arrivesFrom_limited outage limited]
        exact ih (attempt + 1)
      · right
        refine ⟨not_arrivesFrom outage limited, ?_⟩
        cases err : outageError label noun symbol market o with
        | rateLimited => exact absurd ((rateLimited_iff label noun symbol market o).mp err) limited
        | other message => rfl

theorem arrives_iff : Arrives net k ↔ ArrivesFrom net k 4 0 := by
  unfold Arrives ArrivesFrom
  simp only [Nat.zero_add]
  exact exists_congr fun r => and_congr_left fun _ => Nat.lt_succ_iff.symm

theorem request_reply (answer : List Raw) :
    let result := request fun r => decode label noun symbol market (net.reply k r answer)
    (Arrives net k → result = .page answer) ∧
      (¬ Arrives net k → result = .gaveUp ∨ ∃ message, result = .failed message) := by
  rw [arrives_iff]
  simp only [request]
  cases outage : net k 0 with
  | none =>
    simp only [Network.reply, outage, decode]
    exact ⟨fun _ => trivial, fun missing => absurd (arrivesFrom_answer outage) missing⟩
  | some o =>
    simp only [Network.reply, outage, decode]
    by_cases limited : outageError "" "" "" "" o = .rateLimited
    · rw [(rateLimited_iff label noun symbol market o).mpr limited, arrivesFrom_limited outage limited]
      rcases retry_reply label noun symbol market net k answer 3 1 with ⟨arrived, result⟩ | ⟨missing, result⟩
      · exact ⟨fun _ => result, fun missing => absurd arrived missing⟩
      · exact ⟨fun arrived => absurd arrived missing, fun _ => .inl result⟩
    · refine ⟨fun arrived => absurd arrived (not_arrivesFrom outage limited), fun _ => .inr ?_⟩
      cases err : outageError label noun symbol market o with
      | rateLimited => exact absurd ((rateLimited_iff label noun symbol market o).mp err) limited
      | other message => exact ⟨message, rfl⟩

end Requests

section Positions
variable {Raw Item : Type}

theorem served_map (id : Item → ℤ) (f : Raw → Item) (fromID : ℤ) (limit : ℕ) (all : List Raw) :
    served id fromID limit (all.map f) = (served (fun r => id (f r)) fromID limit all).map f := by
  unfold served
  split
  · rw [List.filter_map, List.map_take]
    rfl
  · rw [List.length_map, List.map_drop]

theorem filter_numbered (base c : ℤ) (n : ℕ) :
    (List.range n).filter (fun i : ℕ => decide (c ≤ base + i)) =
      List.range' (firstFrom base c) (n - firstFrom base c) := by
  induction n with
  | zero => simp
  | succ n ih =>
    rw [List.range_succ, List.filter_append, ih]
    by_cases named : c ≤ base + n
    · have reached : firstFrom base c ≤ n := by
        unfold firstFrom
        omega
      rw [Nat.succ_sub reached, List.range'_concat]
      simp [named, reached]
    · have beyond : n + 1 ≤ firstFrom base c := by
        unfold firstFrom
        omega
      rw [Nat.sub_eq_zero_of_le beyond, Nat.sub_eq_zero_of_le (by omega)]
      simp [named]

theorem served_numbered {base c : ℤ} (positive : 0 < c) (limit n : ℕ) :
    served (fun i : ℕ => base + i) c limit (List.range n) = pageFrom n limit base c := by
  rw [served, if_pos positive, filter_numbered, pageFrom]
  rcases le_total limit (n - firstFrom base c) with full | short
  · rw [min_eq_left full, List.take_range'_of_length_ge full]
  · rw [min_eq_right short, List.take_range'_of_length_le short]

theorem served_subset (id : Raw → ℤ) (fromID : ℤ) (limit : ℕ) (all : List Raw) :
    ∀ r ∈ served id fromID limit all, r ∈ all := by
  intro r member
  unfold served at member
  split at member
  · exact (List.mem_filter.mp (List.mem_of_mem_take member)).1
  · exact List.mem_of_mem_drop member

variable (x : Exchange)

theorem size_pos {i : ℕ} (inside : i < x.groups.length) : 0 < x.size i := by
  unfold Exchange.size
  rw [getElem!_pos x.groups i inside]
  exact List.length_pos_iff.mpr x.groups[i].nonempty

theorem begins_succ (i : ℕ) : x.begins (i + 1) = x.begins i + x.size i := by
  simp only [Exchange.begins, List.range_succ, List.map_append, List.sum_append, List.map_cons,
    List.map_nil, List.sum_cons, List.sum_nil]
  push_cast
  ring

theorem begins_increasing : ∀ i < x.groups.length, x.begins i < x.begins (i + 1) := by
  intro i inside
  have := size_pos x inside
  rw [begins_succ]
  omega

theorem begins_positive : ∀ i < x.groups.length, 1 ≤ x.begins (i + 1) := by
  intro i inside
  have := size_pos x inside
  rw [begins_succ]
  unfold Exchange.begins
  omega

theorem namesItself_iff (i : ℕ) :
    x.NamesItself i ↔ firstFrom x.firstAggID (x.begins i) = i := by
  unfold Exchange.NamesItself firstFrom
  by_cases first : i = 0
  · subst first
    omega
  · omega

def Exchange.tradeAt (i : ℕ) : Trade := (x.aggTrade i).trade

def positionPage (net : Network) (symbol : String) (k : ℕ) (current : ℤ) : Fetched String ℕ :=
  request fun r => decode "binance aggTrades" "aggTrades" symbol "futures"
    (net.reply k r (served (fun i : ℕ => x.firstAggID + i) current 1000 (List.range x.groups.length)))

theorem fetchPage_futures (net : Network) (symbol : String) :
    fetchPage x net symbol "futures" = fun k current => (positionPage x net symbol k current).map x.tradeAt := by
  funext k current
  simp only [fetchPage, fetchAggTrades, if_pos, positionPage, ← request_map, Exchange.aggTrades,
    served_map, decode_map]
  congr 1
  funext r
  change Except.map _ (Except.map _ _) = Except.map _ (decode _ _ _ _
    (net.reply k r (served (fun i : ℕ => (x.aggTrade i).a) current 1000 (List.range x.groups.length))))
  generalize decode "binance aggTrades" "aggTrades" symbol "futures" (net.reply k r
    (served (fun i : ℕ => (x.aggTrade i).a) current 1000 (List.range x.groups.length))) = outcome
  cases outcome with
  | error err => rfl
  | ok batch =>
    simp only [Except.map, List.map_map]
    rfl

theorem fillGap_positions (net : Network) (symbol : String) (start last : ℤ) (fuel : ℕ) :
    fillGap x net symbol "futures" start last fuel =
      (collect (ends x.begins) last (positionPage x net symbol) fuel 0 [] start).map
        fun r => r.map (List.map x.tradeAt) := by
  rw [fillGap, fetchPage_futures]
  exact collect_map (f := x.tradeAt) (fun i => rfl) (positionPage x net symbol) fuel 0 [] start

theorem positionPage_serves (net : Network) (symbol : String) :
    Serves x.groups.length 1000 x.firstAggID (Arrives net) 1 (positionPage x net symbol) := by
  constructor
  · intro k c positive arrived
    rw [← served_numbered (by omega)]
    exact (request_reply _ _ _ _ net k _).1 arrived
  · intro k c missing
    exact (request_reply _ _ _ _ net k _).2 missing

theorem positions_inside {net : Network} {symbol : String} {start last : ℤ} {fuel : ℕ} {R : List ℕ}
    (done : collect (ends x.begins) last (positionPage x net symbol) fuel 0 [] start = some (.ok R)) :
    ∀ i ∈ R, i < x.groups.length := by
  refine collect_forall ?_ (by simp) done
  intro k c batch answer i member
  have reply := request_reply "binance aggTrades" "aggTrades" symbol "futures" net k
    (served (fun i : ℕ => x.firstAggID + i) c 1000 (List.range x.groups.length))
  by_cases arrived : Arrives net k
  · have page := reply.1 arrived
    rw [positionPage] at answer
    obtain rfl := Fetched.page.inj (page.symm.trans answer)
    exact List.mem_range.mp (served_subset _ _ _ _ i member)
  · rw [positionPage] at answer
    rcases reply.2 arrived with refused | ⟨message, refused⟩
    · rw [refused] at answer
      cases answer
    · rw [refused] at answer
      cases answer

end Positions

section Volumes
variable (x : Exchange) (price : ℚ) (isBuyerMaker : Bool)

theorem volumeAt_append (ts us : List Trade) : volumeAt price isBuyerMaker (ts ++ us) =
    volumeAt price isBuyerMaker ts + volumeAt price isBuyerMaker us := by
  simp [volumeAt]

theorem volumeAt_flatMap (f : ℕ → List Trade) (is : List ℕ) :
    volumeAt price isBuyerMaker (is.flatMap f) =
      (is.map fun i => volumeAt price isBuyerMaker (f i)).sum := by
  induction is with
  | nil => rfl
  | cons i is ih => rw [List.flatMap_cons, volumeAt_append, ih, List.map_cons, List.sum_cons]

theorem volumeAt_map (f : ℕ → Trade) (is : List ℕ) :
    volumeAt price isBuyerMaker (is.map f) =
      (is.map fun i => volumeAt price isBuyerMaker [f i]).sum := by
  rw [← volumeAt_flatMap]
  congr 1
  induction is with
  | nil => rfl
  | cons i is ih => rw [List.map_cons, List.flatMap_cons, ih]; rfl

def Exchange.members (i : ℕ) : List Trade := (x.groupTrades i).map RawTrade.trade

theorem members_eq (i : ℕ) : x.members i = x.groups[i]!.qtys.zipIdx.map fun p =>
    (⟨x.begins i + p.2, x.groups[i]!.price, p.1, x.groups[i]!.time, x.groups[i]!.isBuyerMaker⟩ : Trade) := by
  rw [Exchange.members, Exchange.groupTrades, List.map_map]
  rfl

theorem mem_members {i : ℕ} {t : Trade} (member : t ∈ x.members i) :
    x.begins i ≤ t.tradeID ∧ t.tradeID < x.begins (i + 1) ∧ t.price = (x.tradeAt i).price ∧
      t.isBuyerMaker = (x.tradeAt i).isBuyerMaker := by
  rw [members_eq, List.mem_map] at member
  obtain ⟨⟨q, j⟩, inside, rfl⟩ := member
  have position : j < x.size i := (List.mem_zipIdx' inside).1
  rw [begins_succ]
  exact ⟨by simp, by simpa using position, rfl, rfl⟩

theorem between_eq (start last : ℤ) : x.between start last =
    (List.range x.groups.length).flatMap fun i =>
      (x.members i).filter fun t => start ≤ t.tradeID ∧ t.tradeID ≤ last := by
  rw [Exchange.between, Exchange.trades, List.map_flatMap, List.filter_flatMap]
  rfl

theorem volumeAt_single (t : Trade) : volumeAt price isBuyerMaker [t] =
    if t.price = price ∧ t.isBuyerMaker = isBuyerMaker then t.qty else 0 := by
  unfold volumeAt
  split
  · rename_i mine
    simp [mine]
  · rename_i other
    rw [List.filter_cons_of_neg (by simpa using other)]
    rfl

theorem volumeAt_members (i : ℕ) : volumeAt price isBuyerMaker (x.members i) =
    volumeAt price isBuyerMaker [x.tradeAt i] := by
  by_cases mine : (x.tradeAt i).price = price ∧ (x.tradeAt i).isBuyerMaker = isBuyerMaker
  · have every : (x.members i).filter (fun t => t.price = price ∧ t.isBuyerMaker = isBuyerMaker) =
        x.members i := by
      apply List.filter_eq_self.mpr
      intro t member
      obtain ⟨-, -, samePrice, sameSide⟩ := mem_members x member
      simpa [samePrice, sameSide] using mine
    have quantities : (x.members i).map Trade.qty = x.groups[i]!.qtys := by
      rw [members_eq, List.map_map]
      exact List.zipIdx_map_fst 0 _
    rw [volumeAt, every, quantities, volumeAt_single, if_pos mine]
    rfl
  · have none : (x.members i).filter (fun t => t.price = price ∧ t.isBuyerMaker = isBuyerMaker) = [] := by
      apply List.filter_eq_nil_iff.mpr
      intro t member
      obtain ⟨-, -, samePrice, sameSide⟩ := mem_members x member
      simpa [samePrice, sameSide] using mine
    rw [volumeAt, none, volumeAt_single, if_neg mine]
    rfl

variable {x} {p q : ℕ} {start last : ℤ}

theorem volume_between (ordered : p ≤ q) (bounded : q ≤ x.groups.length)
    (first : x.begins p = start) (final : x.begins q = last + 1) :
    volumeAt price isBuyerMaker (x.between start last) =
      volumeAt price isBuyerMaker ((List.range' p (q - p)).map x.tradeAt) := by
  have increasing := begins_increasing x
  have share : ∀ i < x.groups.length,
      volumeAt price isBuyerMaker ((x.members i).filter fun t => start ≤ t.tradeID ∧ t.tradeID ≤ last) =
        if p ≤ i ∧ i < q then volumeAt price isBuyerMaker [x.tradeAt i] else 0 := by
    intro i inside
    split
    · rename_i within
      have low := begins_le increasing within.1 (by omega)
      have high := begins_le increasing (show i + 1 ≤ q by omega) bounded
      rw [List.filter_eq_self.mpr, volumeAt_members]
      intro t member
      obtain ⟨above, below, -⟩ := mem_members x member
      simp only [decide_eq_true_eq]
      omega
    · rename_i without
      rw [List.filter_eq_nil_iff.mpr]
      · rfl
      · intro t member
        obtain ⟨above, below, -⟩ := mem_members x member
        simp only [decide_eq_true_eq]
        by_cases before : i < p
        · have := begins_le increasing (show i + 1 ≤ p by omega) (by omega)
          omega
        · have := begins_le increasing (show q ≤ i by omega) (by omega)
          omega
  have parts : List.range x.groups.length =
      List.range' 0 p ++ (List.range' p (q - p) ++ List.range' q (x.groups.length - q)) := by
    have back := List.range'_append_1 (s := p) (m := q - p) (n := x.groups.length - q)
    have front := List.range'_append_1 (s := 0) (m := p) (n := q - p + (x.groups.length - q))
    rw [Nat.add_sub_cancel' ordered] at back
    rw [Nat.zero_add] at front
    rw [back, front, List.range_eq_range']
    congr 1
    omega
  have nothing : ∀ is : List ℕ, (∀ i ∈ is, ¬ (p ≤ i ∧ i < q)) →
      (is.map fun i => if p ≤ i ∧ i < q then volumeAt price isBuyerMaker [x.tradeAt i] else 0).sum = 0 := by
    intro is without
    apply List.sum_eq_zero
    rw [List.forall_mem_map]
    intro i hi
    rw [if_neg (without i hi)]
  rw [between_eq, volumeAt_flatMap, List.map_congr_left fun i hi => share i (List.mem_range.mp hi),
    parts, List.map_append, List.map_append, List.sum_append, List.sum_append,
    nothing (List.range' 0 p), nothing (List.range' q _), zero_add, add_zero, volumeAt_map]
  · congr 1
    apply List.map_congr_left
    intro i hi
    rw [List.mem_range'_1] at hi
    rw [if_pos (by omega)]
  · intro i hi
    rw [List.mem_range'_1] at hi
    omega
  · intro i hi
    rw [List.mem_range'_1] at hi
    omega

end Volumes

section SameNumbers
variable {x y : Exchange} (same : SameIDs y x)
include same

theorem sameIDs_length : y.groups.length = x.groups.length := by
  have lengths := congrArg List.length same.sizes
  simpa using lengths

theorem sameIDs_size (i : ℕ) : y.size i = x.size i := by
  have length := sameIDs_length same
  unfold Exchange.size
  by_cases inside : i < x.groups.length
  · have sizes := congrArg (fun l : List ℕ => l[i]?) same.sizes
    rw [getElem!_pos x.groups i inside, getElem!_pos y.groups i (by omega)]
    simpa [List.getElem?_map, inside, length] using sizes
  · rw [getElem!_neg x.groups i inside, getElem!_neg y.groups i (by omega)]

theorem sameIDs_begins : y.begins = x.begins := by
  funext i
  rw [Exchange.begins, Exchange.begins, same.firstTradeID, funext (sameIDs_size same)]

theorem sameIDs_aligned {net : Network} {start last : ℤ} (aligned : PagesAligned x net start last) :
    PagesAligned y net start last := by
  unfold PagesAligned Exchange.NamesItself at aligned ⊢
  rwa [sameIDs_begins same, sameIDs_length same, same.firstAggID]

theorem sameIDs_positions (net : Network) (symbol : String) :
    positionPage y net symbol = positionPage x net symbol := by
  funext k current
  rw [positionPage, positionPage, same.firstAggID, sameIDs_length same]

end SameNumbers

section Exact
variable {x : Exchange} {net : Network} (symbol : String) {start last : ℤ}

theorem positions_aligned (positive : 0 < start) (aligned : PagesAligned x net start last) :
    ∃ p q, p ≤ q ∧ q ≤ x.groups.length ∧ x.begins p = start ∧ x.begins q = last + 1 ∧ ∃ fuel,
      collect (ends x.begins) last (positionPage x net symbol) fuel 0 [] start =
        some (.ok (List.range' p (q - p))) := by
  obtain ⟨p, q, ordered, bounded, first, final, pages⟩ := aligned
  refine ⟨p, q, ordered.le, bounded, first, final, ?_⟩
  obtain rfl : last = x.begins q - 1 := by omega
  subst first
  have increasing := begins_increasing x
  apply collect_aligned increasing bounded (positionPage_serves x net symbol) (by omega) 0 p ordered.le
  · intro i after inside
    have := begins_le increasing after inside
    omega
  · intro k inside
    obtain ⟨arrived, named⟩ := pages k inside
    rw [Nat.zero_add]
    exact ⟨arrived, (namesItself_iff x _).mp named⟩

theorem fillGap_aligned (positive : 0 < start) (aligned : PagesAligned x net start last) :
    (∃ fuel trades, fillGap x net symbol "futures" start last fuel = some (.ok trades)) ∧
      Conserves x net symbol start last := by
  obtain ⟨p, q, ordered, bounded, first, final, fuel, delivered⟩ :=
    positions_aligned symbol positive aligned
  have filled := fillGap_positions x net symbol start last fuel
  rw [delivered] at filled
  refine ⟨⟨fuel, _, filled⟩, ?_⟩
  intro other trades returned price isBuyerMaker
  obtain rfl := Except.ok.inj (collect_unique returned filled)
  exact (volume_between price isBuyerMaker ordered bounded first final).symm

end Exact

section Weights
variable (x : Exchange) (w : ℤ → ℚ)

def Exchange.weight (i : ℕ) : ℚ := ((List.range (x.size i)).map fun j : ℕ => w (x.begins i + j)).sum

theorem sum_kept (kept : Trade → Prop) [DecidablePred kept] (ts : List Trade) :
    ((ts.filter fun t => kept t).map Trade.qty).sum =
      (ts.map fun t => if kept t then t.qty else 0).sum := by
  induction ts with
  | nil => rfl
  | cons t ts ih =>
    by_cases here : kept t
    · simp [here, ih]
    · simp [here, ih]

/-- The exchange with the same ids where trade t costs nothing and has the quantity w t. -/
def Exchange.weighted (positive : ∀ t, 0 < w t) : Exchange where
  firstTradeID := x.firstTradeID
  firstAggID := x.firstAggID
  groups := x.groups.mapIdx fun i g =>
    { price := 0
      isBuyerMaker := false
      time := 0
      qtys := (List.range g.qtys.length).map fun j : ℕ => w (x.begins i + j)
      nonempty := by
        rw [ne_eq, List.map_eq_nil_iff, List.range_eq_nil, List.length_eq_zero_iff]
        exact g.nonempty
      positive := by
        intro q member
        obtain ⟨j, -, rfl⟩ := List.mem_map.mp member
        exact positive _ }

variable {w} (positive : ∀ t, 0 < w t)

theorem weighted_sameIDs : SameIDs (x.weighted w positive) x := by
  refine ⟨rfl, rfl, ?_⟩
  apply List.ext_getElem?
  intro i
  simp only [Exchange.weighted, List.getElem?_map, List.getElem?_mapIdx, Option.map_map]
  congr 1
  funext g
  simp

theorem weighted_group {i : ℕ} (inside : i < x.groups.length) :
    (x.weighted w positive).groups[i]!.price = 0 ∧
      (x.weighted w positive).groups[i]!.isBuyerMaker = false ∧
      (x.weighted w positive).groups[i]!.qtys =
        (List.range (x.size i)).map fun j : ℕ => w (x.begins i + j) := by
  have known : i < (x.weighted w positive).groups.length := by simpa [Exchange.weighted] using inside
  rw [getElem!_pos _ i known]
  simp only [Exchange.weighted, List.getElem_mapIdx, true_and]
  rw [Exchange.size, getElem!_pos x.groups i inside]

theorem weighted_delivered {R : List ℕ} (inside : ∀ i ∈ R, i < x.groups.length) :
    volumeAt 0 false (R.map (x.weighted w positive).tradeAt) = (R.map (x.weight w)).sum := by
  rw [volumeAt_map]
  congr 1
  apply List.map_congr_left
  intro i member
  obtain ⟨price, side, qtys⟩ := weighted_group x positive (inside i member)
  rw [volumeAt_single, if_pos ⟨price, side⟩]
  exact congrArg List.sum qtys

theorem weighted_between (start last : ℤ) :
    volumeAt 0 false ((x.weighted w positive).between start last) =
      ((List.range x.groups.length).map
        (x.weight fun t => if start ≤ t ∧ t ≤ last then w t else 0)).sum := by
  have same := weighted_sameIDs x positive
  rw [between_eq, volumeAt_flatMap, sameIDs_length same]
  congr 1
  apply List.map_congr_left
  intro i member
  obtain ⟨price, side, qtys⟩ := weighted_group x positive (List.mem_range.mp member)
  have zeroPrice : ((x.weighted w positive).members i).filter
      (fun t => t.price = 0 ∧ t.isBuyerMaker = false) = (x.weighted w positive).members i := by
    apply List.filter_eq_self.mpr
    intro t inGroup
    obtain ⟨-, -, samePrice, sameSide⟩ := mem_members _ inGroup
    simp only [samePrice, sameSide, decide_eq_true_eq]
    exact ⟨price, side⟩
  have numbered : ((List.range (x.size i)).map fun j : ℕ => w (x.begins i + j)).zipIdx =
      (List.range (x.size i)).map fun j : ℕ => (w (x.begins i + j), j) := by
    apply List.ext_getElem <;> simp
  rw [volumeAt, List.filter_comm, zeroPrice, sum_kept, members_eq, qtys, numbered, List.map_map,
    List.map_map, sameIDs_begins same]
  rfl

end Weights

section Converse
variable {x : Exchange} {net : Network} {symbol : String} {start last : ℤ}

theorem sum_at (k : ℕ) (c : ℚ) (is : List ℕ) :
    (is.map fun i => if i = k then c else 0).sum = is.count k * c := by
  induction is with
  | nil => simp
  | cons i is ih =>
    rw [List.map_cons, List.sum_cons, ih, List.count_cons]
    by_cases here : i = k
    · simp only [here, ↓reduceIte, BEq.rfl]
      push_cast
      ring
    · simp [here]

theorem weight_at {i k : ℕ} {t : ℤ} (inside : i < x.groups.length) (known : k < x.groups.length)
    (after : x.begins k ≤ t) (before : t < x.begins (k + 1)) (c : ℚ) :
    x.weight (fun u => if u = t then c else 0) i = if i = k then c else 0 := by
  have increasing := begins_increasing x
  obtain ⟨j, rfl⟩ : ∃ j : ℕ, t = x.begins k + j := ⟨(t - x.begins k).toNat, by omega⟩
  have place : j < x.size k := by
    rw [begins_succ] at before
    omega
  unfold Exchange.weight
  split
  · rename_i same
    subst same
    have one : ∀ m : ℕ, (if x.begins i + m = x.begins i + j then c else 0) = if m = j then c else 0 := by
      intro m
      congr 1
      simp
    simp only [one, sum_at]
    rw [List.count_range, if_pos place]
    simp
  · rename_i other
    apply List.sum_eq_zero
    rw [List.forall_mem_map]
    intro m member
    have spot := List.mem_range.mp member
    apply if_neg
    intro same
    rcases Nat.lt_or_gt_of_ne other with lower | higher
    · have := begins_le increasing (show i + 1 ≤ k by omega) (by omega)
      rw [begins_succ] at this
      omega
    · have := begins_le increasing (show k + 1 ≤ i by omega) (by omega)
      omega

theorem weight_add (f g : ℤ → ℚ) (i : ℕ) :
    x.weight (fun t => f t + g t) i = x.weight f i + x.weight g i := List.sum_map_add

/- If all quantities are conserved, a group is delivered as often as each of its trades
   is in the gap. -/
theorem delivered_count {R : List ℕ} (inside : ∀ i ∈ R, i < x.groups.length)
    (conserved : ∀ w (positive : ∀ t, 0 < w t),
      volumeAt 0 false (R.map (x.weighted w positive).tradeAt) =
        volumeAt 0 false ((x.weighted w positive).between start last))
    {k : ℕ} {t : ℤ} (known : k < x.groups.length) (after : x.begins k ≤ t)
    (before : t < x.begins (k + 1)) : R.count k = if start ≤ t ∧ t ≤ last then 1 else 0 := by
  have plain := conserved (fun _ => 1) (by simp)
  have marked := conserved (fun u => 1 + if u = t then 1 else 0) (by intro u; split <;> norm_num)
  have clipped : (fun u => if start ≤ u ∧ u ≤ last then (1 : ℚ) + (if u = t then 1 else 0) else 0) =
      fun u => (if start ≤ u ∧ u ≤ last then 1 else 0) +
        if u = t then (if start ≤ t ∧ t ≤ last then 1 else 0) else 0 := by
    funext u
    by_cases same : u = t
    · subst same
      simp only [↓reduceIte]
      split <;> norm_num
    · simp [same]
  rw [weighted_delivered x _ inside, weighted_between] at plain marked
  rw [clipped] at marked
  simp only [funext (weight_add _ _), List.sum_map_add, plain, add_right_inj] at marked
  rw [List.map_congr_left fun i member => weight_at (inside i member) known after before 1,
    List.map_congr_left fun i member => weight_at (List.mem_range.mp member) known after before _,
    sum_at, sum_at, List.count_range, if_pos known, mul_one, Nat.cast_one, one_mul] at marked
  rw [← Nat.cast_inj (R := ℚ), marked]
  split <;> norm_num

theorem group_of {t : ℤ} (after : x.begins 0 ≤ t) {n : ℕ} (before : t < x.begins n) :
    ∃ k < n, x.begins k ≤ t ∧ t < x.begins (k + 1) := by
  induction n with
  | zero => omega
  | succ n ih =>
    by_cases earlier : t < x.begins n
    · obtain ⟨k, inside, low, high⟩ := ih earlier
      exact ⟨k, by omega, low, high⟩
    · exact ⟨n, by omega, not_lt.mp earlier, before⟩

theorem aligned_of_conserving (gap : TradeGap x start last) {fuel : ℕ} {trades : List Trade}
    (returned : fillGap x net symbol "futures" start last fuel = some (.ok trades))
    (conserves : ∀ y, SameIDs y x → Conserves y net symbol start last) :
    PagesAligned x net start last := by
  have increasing := begins_increasing x
  rw [fillGap_positions] at returned
  obtain ⟨r, done, ok⟩ := Option.map_eq_some_iff.mp returned
  cases r with
  | error err => cases ok
  | ok R =>
    have inside := positions_inside x done
    have counted : ∀ {k : ℕ} {t : ℤ}, k < x.groups.length → x.begins k ≤ t → t < x.begins (k + 1) →
        R.count k = if start ≤ t ∧ t ≤ last then 1 else 0 := by
      refine delivered_count inside ?_
      intro w positive
      have same := weighted_sameIDs x positive
      refine conserves _ same fuel _ ?_ 0 false
      rw [fillGap_positions, sameIDs_positions same, sameIDs_begins same, done]
      rfl
    obtain ⟨p, knownP, lowP, highP⟩ := group_of gap.after (gap.ordered.trans_lt gap.before)
    obtain ⟨e, knownE, lowE, highE⟩ := group_of (gap.after.trans gap.ordered) gap.before
    -- a group that has one trade in the gap has all of them in it
    have firstP : x.begins p = start := by
      have whole := counted knownP lowP highP
      rw [if_pos ⟨le_rfl, gap.ordered⟩, counted knownP le_rfl (increasing p knownP)] at whole
      split at whole
      · omega
      · cases whole
    have finalE : x.begins (e + 1) = last + 1 := by
      have whole := counted knownE lowE highE
      rw [if_pos ⟨gap.ordered, le_rfl⟩,
        counted (t := x.begins (e + 1) - 1) knownE (by have := increasing e knownE; omega)
          (by omega)] at whole
      split at whole
      · omega
      · cases whole
    have ordered : p ≤ e := by
      by_contra less
      have := begins_le increasing (show e + 1 ≤ p by omega) (by omega)
      have := gap.ordered
      omega
    refine ⟨p, e + 1, by omega, by omega, firstP, finalE, ?_⟩
    have once : ∀ i, R.count i = if p ≤ i ∧ i < e + 1 then 1 else 0 := by
      intro i
      by_cases known : i < x.groups.length
      · rw [counted known le_rfl (increasing i known), ← firstP]
        congr 1
        apply propext
        constructor
        · intro between
          refine ⟨?_, ?_⟩
          · by_contra less
            have := begins_lt increasing (show i < p by omega) (by omega)
            omega
          · by_contra more
            have := begins_le increasing (show e + 1 ≤ i by omega) (by omega)
            omega
        · intro within
          have low := begins_le increasing within.1 (by omega)
          have high := begins_lt increasing within.2 (by omega)
          omega
      · rw [List.count_eq_zero.mpr fun member => known (inside i member), if_neg (by omega)]
    obtain rfl : last = x.begins (e + 1) - 1 := by omega
    subst firstP
    have aligned := (collect_exact_iff increasing (by omega) (positionPage_serves x net symbol)
      (by omega) (by omega) gap.positive (begins_positive x) done).mp once
    intro k due
    obtain ⟨arrived, named⟩ := aligned k due
    rw [Nat.zero_add] at arrived
    exact ⟨arrived, (namesItself_iff x _).mpr named⟩

/-- FillGap returns what the exchange traded in the gap, whatever was traded, if and only
    if the pages are aligned; then it does return. -/
theorem gap_filled_iff (x : Exchange) (net : Network) (symbol : String) (start last : ℤ)
    (gap : TradeGap x start last) :
    (PagesAligned x net start last →
      ∃ fuel trades, fillGap x net symbol "futures" start last fuel = some (.ok trades)) ∧
    ∀ fuel trades, fillGap x net symbol "futures" start last fuel = some (.ok trades) →
      ((∀ y, SameIDs y x → Conserves y net symbol start last) ↔ PagesAligned x net start last) := by
  refine ⟨fun aligned => (fillGap_aligned symbol gap.positive aligned).1, ?_⟩
  intro fuel trades returned
  constructor
  · exact aligned_of_conserving gap returned
  · intro aligned y same
    exact (fillGap_aligned symbol gap.positive (sameIDs_aligned same aligned)).2

end Converse

def oneTrade (price qty : ℚ) (positive : 0 < qty) : AggGroup :=
  ⟨price, false, 60000, [qty], by simp, by simpa using positive⟩

def pairsAfter : Exchange where
  firstTradeID := 1
  firstAggID := 1
  groups :=
    [oneTrade 100 2 (by decide), ⟨101, false, 60000, [3, 1], by simp, by decide⟩,
      ⟨102, true, 60001, [4, 2], by simp, by decide⟩]

theorem pairs_filled :
    fillGap pairsAfter (fun _ _ => none) "BTCUSDT" "futures" 2 5 2 =
      some (.ok [⟨3, 101, 4, 60000, false⟩, ⟨5, 102, 6, 60001, true⟩]) ∧
      ∀ y, SameIDs y pairsAfter → Conserves y (fun _ _ => none) "BTCUSDT" 2 5 := by
  have gap : TradeGap pairsAfter 2 5 := ⟨by decide, by decide, by decide, by decide⟩
  have returned : fillGap pairsAfter (fun _ _ => none) "BTCUSDT" "futures" 2 5 2 =
      some (.ok [⟨3, 101, 4, 60000, false⟩, ⟨5, 102, 6, 60001, true⟩]) := by decide +kernel
  refine ⟨returned, ?_⟩
  apply ((gap_filled_iff pairsAfter (fun _ _ => none) "BTCUSDT" 2 5 gap).2 _ _ returned).mpr
  refine ⟨1, 3, by decide, by decide, by decide, by decide, ?_⟩
  intro k due
  obtain rfl : k = 0 := by omega
  exact ⟨⟨0, by decide, rfl, by omega⟩, .inl (by decide)⟩

/-- The first aggTrade holds two trades, so from then on the ids differ by one. -/
def pairFirst : Exchange where
  firstTradeID := 1
  firstAggID := 1
  groups :=
    [⟨100, false, 60000, [2, 1], by simp, by decide⟩, oneTrade 101 3 (by decide),
      oneTrade 102 4 (by decide)]

/-- Trade 3 is asked for as aggTrade 3, which is trade 4: nothing is filled. -/
theorem shifted_gap_empty :
    TradeGap pairFirst 3 3 ∧ ¬ Conserves pairFirst (fun _ _ => none) "BTCUSDT" 3 3 := by
  refine ⟨⟨by decide, by decide, by decide, by decide⟩, ?_⟩
  intro conserves
  have returned : fillGap pairFirst (fun _ _ => none) "BTCUSDT" "futures" 3 3 1 = some (.ok []) := by
    decide +kernel
  have volumes := conserves 1 [] returned 101 false
  revert volumes
  decide +kernel

end GapFill
