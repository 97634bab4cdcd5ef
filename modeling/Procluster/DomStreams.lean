import Procluster.CandlesApi
import Procluster.Library.EventRuns

/-!
Package api: DOMManager and handleDOM. The first request of a key starts the poll loop
under its own context, which net/http cancels when its handler returns; the entry of the
map stays. Events interleave handlers, clients that go away, ticks, fetches and StopAll.
Outside the model are the JSON of the depth response, and NaN and infinite prices.
-/
namespace DomStreams
open Aggregate KeyedFold EventRuns DecimalText
open FloatRounding (float64 fmul)
open CandlesApi (ApiError round1 badRequest)
open Validate (CaseMap Validator validateSymbolMarket)

structure DomLevel where
  price : ℚ
  qty : ℚ
  deriving DecidableEq

structure DepthResponse where
  bids : List (List String)
  asks : List (List String)
  deriving DecidableEq

/-- The values of a domStream that its poll loop writes; the time is in milliseconds. -/
structure Book where
  bids : List DomLevel
  asks : List DomLevel
  midPrice : ℚ
  updatedAt : ℤ
  deriving DecidableEq

/-- The zero time.Time is the year 1. -/
def Book.zero : Book := ⟨[], [], 0, -62135596800000⟩

structure DOMData where
  bids : List DomLevel
  asks : List DomLevel
  midPrice : ℚ
  updated : ℤ
  deriving DecidableEq

/-- The order in which a range over a map meets its entries. -/
structure MapOrder where
  list : List (ℚ × ℚ) → List (ℚ × ℚ)
  perm : ∀ entries, (list entries).Perm entries

def depthURL (m : CaseMap) (symbol market : String) : String :=
  let sym := m.toUpper symbol
  if market = "futures" then "https://fapi.binance.com/fapi/v1/depth?symbol=" ++ sym ++ "&limit=1000"
  else "https://api.binance.com/api/v3/depth?symbol=" ++ sym ++ "&limit=1000"

/-- exchange is what the network makes of a URL; none is any of the errors. -/
def fetchBinanceDepth (m : CaseMap) (exchange : String → Option DepthResponse)
    (symbol market : String) : Option DepthResponse :=
  exchange (depthURL m symbol market)

def parseLevel (parseFloat : String → Option ℚ) : List String → Option (ℚ × ℚ)
  | price :: qty :: _ =>
    match parseFloat price, parseFloat qty with
    | some price, some qty => some (price, qty)
    | _, _ => none
  | _ => none

/-- math.Floor(price/binSize) * binSize; round is the rounding of every operation, and
    leaves the values as they are in exact arithmetic. -/
def binLevel (round : ℚ → ℚ) (binSize price : ℚ) : ℚ := round (⌊round (price / binSize)⌋ * binSize)

def binMap (round : ℚ → ℚ) (parseFloat : String → Option ℚ) (binSize : ℚ) (rows : List (List String)) :
    List (ℚ × ℚ) :=
  gather (fun level : ℚ × ℚ => binLevel round binSize level.1)
    (fun level qty => round (qty.getD 0 + level.2)) (rows.filterMap (parseLevel parseFloat))

/-- A bin at price 0 is overwritten by the next one, so the order of the range matters. -/
def bestPrices (order : MapOrder) (bidMap askMap : List (ℚ × ℚ)) : ℚ × ℚ :=
  ((order.list bidMap).foldl (fun best p => if best < p.1 then p.1 else best) 0,
    (order.list askMap).foldl (fun best p => if best = 0 ∨ p.1 < best then p.1 else best) 0)

def middle (round : ℚ → ℚ) (bestBid bestAsk : ℚ) : ℚ := round (round (bestBid + bestAsk) / 2)

def aggregateDOM (round : ℚ → ℚ) (parseFloat : String → Option ℚ) (order : MapOrder)
    (depth : DepthResponse) (binSize : ℚ) : List DomLevel × List DomLevel × ℚ :=
  let bidMap := binMap round parseFloat binSize depth.bids
  let askMap := binMap round parseFloat binSize depth.asks
  let (bestBid, bestAsk) := bestPrices order bidMap askMap
  let midPrice := if 0 < bestBid ∧ 0 < bestAsk then middle round bestBid bestAsk
    else if 0 < bestBid then bestBid
    else bestAsk
  let margin := round (midPrice * round (1 / 20))
  let bids := bidMap.filter fun p => 0 < midPrice ∧ round (midPrice - margin) ≤ p.1
  let asks := askMap.filter fun p => 0 < midPrice ∧ p.1 ≤ round (midPrice + margin)
  ((bids.map fun p => ⟨p.1, p.2⟩).mergeSort (fun a b => b.price ≤ a.price),
    (asks.map fun p => ⟨p.1, p.2⟩).mergeSort (fun a b => a.price ≤ b.price), midPrice)

theorem sorted_levels (price : DomLevel → ℚ) (levels : List DomLevel) :
    (levels.mergeSort fun a b => price a ≤ price b).Pairwise fun a b => price a ≤ price b := by
  have sorted : (levels.mergeSort fun a b => price a ≤ price b).Pairwise
      fun a b => decide (price a ≤ price b) = true := by
    apply List.pairwise_mergeSort
    · intro a b c first second
      exact decide_eq_true ((of_decide_eq_true first).trans (of_decide_eq_true second))
    · intro a b
      simpa using le_total (price a) (price b)
  exact sorted.imp of_decide_eq_true

/-- Where the goroutine of a stream stands: in a fetch, before its update, in the select. -/
inductive Loop where
  | fetching
  | updating (depth : DepthResponse)
  | waiting
  | returned
  deriving DecidableEq

abbrev RequestId := ℕ

/-- An entry of DOMManager.streams with its goroutine: owner is the request whose context
    StartStream was given, fetched records whether a fetch has succeeded. -/
structure DomStream where
  symbol : String
  market : String
  binSize : ℚ
  book : Book
  owner : RequestId
  cancelled : Bool
  loop : Loop
  fetched : Bool

def DomStream.cancel (stream : DomStream) : DomStream := { stream with cancelled := true }

inductive Phase where
  | starting (symbol market : String) (binSize : ℚ)
  | reading (symbol market : String)
  | replying (answer : Except ApiError DOMData)
  | finished

structure Handler where
  phase : Phase
  cancelled : Bool

/-- answers records for each ok of GetDOM its key and whether a fetch had succeeded. -/
structure State where
  streams : List (String × DomStream)
  requests : List (RequestId × Handler)
  stopped : Bool
  answers : List (String × Bool)

def start : State := ⟨[], [], false, []⟩

inductive Event where
  | arrive (r : RequestId) (method symbol market : String)
  | startStream (r : RequestId)
  | getDOM (r : RequestId)
  | disconnect (r : RequestId)
  | finish (r : RequestId)
  | fetch (key : String) (exchange : String → Option DepthResponse)
  | update (key : String) (order : MapOrder) (nowMs : ℤ)
  | tick (key : String)
  | exit (key : String)
  | stopAll

def streamKey (symbol market : String) : String := symbol ++ ":" ++ market

def requestCancelled (s : State) (r : RequestId) : Prop :=
  ∃ h, find r s.requests = some h ∧ h.cancelled = true

def ctxDone (s : State) (stream : DomStream) : Prop :=
  stream.cancelled = true ∨ requestCancelled s stream.owner

instance (s : State) (r : RequestId) : Decidable (requestCancelled s r) :=
  match h : find r s.requests with
  | none => isFalse (by rintro ⟨_, found, _⟩; rw [h] at found; cases found)
  | some handler => decidable_of_iff (handler.cancelled = true) (by simp [requestCancelled, h])

instance (s : State) (stream : DomStream) : Decidable (ctxDone s stream) :=
  inferInstanceAs (Decidable (_ ∨ _))

def bookData (book : Book) : DOMData where
  bids := book.bids.map fun b => ⟨b.price, round1 fmul b.qty⟩
  asks := book.asks.map fun a => ⟨a.price, round1 fmul a.qty⟩
  midPrice := round1 fmul book.midPrice
  updated := book.updatedAt

def getDOM (s : State) (symbol market : String) : Option DOMData :=
  (find (streamKey symbol market) s.streams).map fun stream => bookData stream.book

def hasFetched (s : State) (key : String) : Bool := (find key s.streams).any DomStream.fetched

def domLoading : ApiError := ⟨503, "DOM_LOADING", "order book is loading, retry in 1s"⟩

def newStream (r : RequestId) (symbol market : String) (binSize : ℚ) : DomStream where
  symbol := symbol
  market := market
  binSize := binSize
  book := .zero
  owner := r
  cancelled := false
  loop := .fetching
  fetched := false

def startStream (s : State) (r : RequestId) (symbol market : String) (binSize : ℚ) : State :=
  let key := streamKey symbol market
  match find key s.streams with
  | some _ => s
  | none => { s with streams := upsert key (fun _ => newStream r symbol market binSize) s.streams }

def setHandler (s : State) (r : RequestId) (h : Handler) : State :=
  { s with requests := upsert r (fun _ => h) s.requests }

def setStream (s : State) (key : String) (stream : DomStream) : State :=
  { s with streams := upsert key (fun _ => stream) s.streams }

structure Server where
  caseMap : CaseMap
  validator : Validator
  parseFloat : String → Option ℚ

def firstPhase (server : Server) (method symbol market : String) : Phase :=
  if method ≠ "GET" then .replying (.error ⟨405, "METHOD_NOT_ALLOWED", "only GET allowed"⟩)
  else
    let symbol := server.caseMap.toUpper symbol
    let market := server.caseMap.toLower market
    match validateSymbolMarket server.caseMap server.validator symbol market with
    | .error e => .replying (.error (badRequest e))
    | .ok tc => .starting symbol market ((tc.baseCompression.toNat : ℚ) * tc.tickSize)

/-- One act of the poll loop of a stream; none where the loop cannot act so. -/
def pollStep (server : Server) (done : Prop) [Decidable done] (stream : DomStream) :
    Event → Option DomStream
  | .fetch _ exchange =>
    match stream.loop with
    | .fetching =>
      match fetchBinanceDepth server.caseMap exchange stream.symbol stream.market with
      | none => some { stream with loop := .waiting }
      | some depth => some { stream with loop := .updating depth, fetched := true }
    | _ => none
  | .update _ order nowMs =>
    match stream.loop with
    | .updating depth =>
      let (bids, asks, midPrice) := aggregateDOM float64 server.parseFloat order depth stream.binSize
      some { stream with loop := .waiting, book := ⟨bids, asks, midPrice, nowMs⟩ }
    | _ => none
  | .tick _ =>
    -- select may take the tick also when the context is done
    match stream.loop with
    | .waiting => some { stream with loop := .fetching }
    | _ => none
  | .exit _ =>
    match stream.loop with
    | .waiting => if done then some { stream with loop := .returned } else none
    | _ => none
  | _ => none

def pollKey : Event → Option String
  | .fetch key _ => some key
  | .update key _ _ => some key
  | .tick key => some key
  | .exit key => some key
  | _ => none

def serverStep (server : Server) (s : State) : Event → Option State
  | .arrive r method symbol market =>
    match find r s.requests with
    | some _ => none
    | none => some (setHandler s r ⟨firstPhase server method symbol market, false⟩)
  | .startStream r =>
    match find r s.requests with
    | some ⟨.starting symbol market binSize, cancelled⟩ =>
      some (setHandler (startStream s r symbol market binSize) r ⟨.reading symbol market, cancelled⟩)
    | _ => none
  | .getDOM r =>
    match find r s.requests with
    | some ⟨.reading symbol market, cancelled⟩ =>
      match getDOM s symbol market with
      | none => some (setHandler s r ⟨.replying (.error domLoading), cancelled⟩)
      | some data =>
        let key := streamKey symbol market
        some { setHandler s r ⟨.replying (.ok data), cancelled⟩ with
          answers := s.answers ++ [(key, hasFetched s key)] }
    | _ => none
  | .disconnect r =>
    match find r s.requests with
    | some h => some (setHandler s r { h with cancelled := true })
    | none => none
  | .finish r =>
    match find r s.requests with
    | some ⟨.replying _, _⟩ => some (setHandler s r ⟨.finished, true⟩)
    | _ => none
  | .stopAll =>
    some { s with streams := s.streams.map fun p => (p.1, p.2.cancel), stopped := true }
  | _ => none

def step (server : Server) (s : State) (e : Event) : Option State :=
  match pollKey e with
  | some key =>
    match find key s.streams with
    | some stream => (pollStep server (ctxDone s stream) stream e).map (setStream s key)
    | none => none
  | none => serverStep server s e

/-- Until StopAll every stream of the map has its loop, and no ok came before a fetch. -/
structure AliveAndTruthful (s : State) : Prop where
  alive : ∀ key stream, find key s.streams = some stream → stream.loop ≠ .returned
  truthful : ∀ answer ∈ s.answers, answer.2 = true

/-- The property holds, and still does whatever the poll loops do next on their own. -/
def Lasting (server : Server) (s : State) : Prop :=
  ∀ loops, (∀ e ∈ loops, pollKey e ≠ none) → ∀ s', run (step server) s loops = some s' →
    s'.stopped = false → AliveAndTruthful s'

/-- No context ends that a stream was started under, and GetDOM waits for the first fetch. -/
def KeepsStreams (s : State) (e : Event) : Prop :=
  s.stopped = false →
    match e with
    | .startStream r => requestCancelled s r → ∀ symbol market binSize cancelled,
        find r s.requests = some ⟨.starting symbol market binSize, cancelled⟩ →
          find (streamKey symbol market) s.streams ≠ none
    | .getDOM r => ∀ symbol market cancelled,
        find r s.requests = some ⟨.reading symbol market, cancelled⟩ →
          find (streamKey symbol market) s.streams ≠ none → hasFetched s (streamKey symbol market) = true
    | .disconnect r => ∀ key stream, find key s.streams = some stream → stream.owner ≠ r
    | .finish r => ∀ key stream, find key s.streams = some stream → stream.owner ≠ r
    | _ => True

/-- No loop has returned and none will find its context done. -/
structure Sound (s : State) : Prop where
  alive : ∀ key stream, find key s.streams = some stream → stream.loop ≠ .returned ∧ ¬ ctxDone s stream
  truthful : ∀ answer ∈ s.answers, answer.2 = true

theorem cancelled_setHandler (s : State) (r q : RequestId) (h : Handler) :
    requestCancelled (setHandler s r h) q ↔
      if q = r then h.cancelled = true else requestCancelled s q := by
  unfold requestCancelled setHandler
  rw [find_upsert]
  split <;> simp

theorem cancelled_moved {s : State} {r : RequestId} {phase next : Phase} {cancelled : Bool}
    (found : find r s.requests = some ⟨phase, cancelled⟩) (q : RequestId) :
    requestCancelled (setHandler s r ⟨next, cancelled⟩) q ↔ requestCancelled s q := by
  rw [cancelled_setHandler]
  split
  · rename_i same
    subst q
    simp [requestCancelled, found]
  · rfl

theorem pollStep_spec {server : Server} {done : Prop} [Decidable done] {stream next : DomStream}
    {e : Event} (acted : pollStep server done stream e = some next) :
    stream.loop ≠ .returned ∧ next.owner = stream.owner ∧ next.cancelled = stream.cancelled ∧
      (next.loop = .returned → done) := by
  cases e <;> simp only [pollStep, reduceCtorEq] at acted
  all_goals
    cases at_ : stream.loop <;> simp only [at_, reduceCtorEq] at acted
  · split at acted <;>
    · obtain rfl := Option.some.inj acted
      simp
  · obtain rfl := Option.some.inj acted
    simp
  · obtain rfl := Option.some.inj acted
    simp
  · split at acted
    · rename_i done
      obtain rfl := Option.some.inj acted
      simp [done]
    · cases acted

inductive Serves (server : Server) (s : State) : Event → State → Prop where
  | arrive {r : RequestId} {method symbol market : String} (new : find r s.requests = none) :
      Serves server s (.arrive r method symbol market)
        (setHandler s r ⟨firstPhase server method symbol market, false⟩)
  | start {r : RequestId} {symbol market : String} {binSize : ℚ} {cancelled : Bool}
      (here : find r s.requests = some ⟨.starting symbol market binSize, cancelled⟩) :
      Serves server s (.startStream r)
        (setHandler (startStream s r symbol market binSize) r ⟨.reading symbol market, cancelled⟩)
  | loading {r : RequestId} {symbol market : String} {cancelled : Bool}
      (here : find r s.requests = some ⟨.reading symbol market, cancelled⟩)
      (unlisted : getDOM s symbol market = none) :
      Serves server s (.getDOM r) (setHandler s r ⟨.replying (.error domLoading), cancelled⟩)
  | read {r : RequestId} {symbol market : String} {cancelled : Bool} {data : DOMData}
      (here : find r s.requests = some ⟨.reading symbol market, cancelled⟩)
      (listed : getDOM s symbol market = some data) :
      Serves server s (.getDOM r) { setHandler s r ⟨.replying (.ok data), cancelled⟩ with
        answers := s.answers ++ [(streamKey symbol market, hasFetched s (streamKey symbol market))] }
  | disconnect {r : RequestId} {h : Handler} (here : find r s.requests = some h) :
      Serves server s (.disconnect r) (setHandler s r { h with cancelled := true })
  | finish {r : RequestId} {answer : Except ApiError DOMData} {cancelled : Bool}
      (here : find r s.requests = some ⟨.replying answer, cancelled⟩) :
      Serves server s (.finish r) (setHandler s r ⟨.finished, true⟩)
  | stopAll : Serves server s .stopAll
      { s with streams := s.streams.map fun p => (p.1, p.2.cancel), stopped := true }

theorem serverStep_serves {server : Server} {s s' : State} {e : Event}
    (taken : serverStep server s e = some s') : Serves server s e s' := by
  cases e with
  | arrive r method symbol market =>
    simp only [serverStep] at taken
    split at taken
    · cases taken
    · rename_i new
      exact Option.some.inj taken ▸ .arrive new
  | startStream r =>
    simp only [serverStep] at taken
    split at taken
    · rename_i here
      exact Option.some.inj taken ▸ .start here
    · cases taken
  | getDOM r =>
    simp only [serverStep] at taken
    split at taken
    · rename_i here
      split at taken
      · rename_i unlisted
        exact Option.some.inj taken ▸ .loading here unlisted
      · rename_i listed
        exact Option.some.inj taken ▸ .read here listed
    · cases taken
  | disconnect r =>
    simp only [serverStep] at taken
    split at taken
    · rename_i here
      exact Option.some.inj taken ▸ .disconnect here
    · cases taken
  | finish r =>
    simp only [serverStep] at taken
    split at taken
    · rename_i here
      exact Option.some.inj taken ▸ .finish here
    · cases taken
  | stopAll => exact Option.some.inj taken ▸ .stopAll
  | fetch | update | tick | exit => cases taken

theorem step_cases {server : Server} {s s' : State} {e : Event} (taken : step server s e = some s') :
    (∃ key stream next, pollKey e = some key ∧ find key s.streams = some stream ∧
      pollStep server (ctxDone s stream) stream e = some next ∧ s' = setStream s key next) ∨
    Serves server s e s' := by
  unfold step at taken
  cases loop : pollKey e with
  | none =>
    simp only [loop] at taken
    exact .inr (serverStep_serves taken)
  | some key =>
    simp only [loop] at taken
    cases found : find key s.streams with
    | none =>
      simp only [found] at taken
      cases taken
    | some stream =>
      simp only [found, Option.map_eq_some_iff] at taken
      obtain ⟨next, acted, rfl⟩ := taken
      exact .inl ⟨key, stream, next, rfl, found, acted, rfl⟩

theorem startStream_frame (s : State) (r : RequestId) (symbol market : String) (binSize : ℚ) :
    (startStream s r symbol market binSize).requests = s.requests ∧
      (startStream s r symbol market binSize).answers = s.answers ∧
      (startStream s r symbol market binSize).stopped = s.stopped := by
  unfold startStream
  cases listed : find (streamKey symbol market) s.streams <;> simp [listed]

theorem startStream_entry {s : State} {key : String} {stream : DomStream}
    (found : find key s.streams = some stream) (r : RequestId) (symbol market : String) (binSize : ℚ) :
    find key (startStream s r symbol market binSize).streams = some stream := by
  unfold startStream
  cases listed : find (streamKey symbol market) s.streams with
  | some other => simpa only [listed] using found
  | none =>
    have fresh : streamKey symbol market ≠ key := by
      rintro rfl
      rw [found] at listed
      cases listed
    simp only [listed]
    exact (find_upsert_other _ _ fresh.symm).trans found

theorem sound_start : Sound start := by
  constructor
  · intro key stream found
    cases found
  · simp [start]

theorem poll_sound {server : Server} {s : State} {key : String} {stream next : DomStream} {e : Event}
    (sound : Sound s) (found : find key s.streams = some stream)
    (acted : pollStep server (ctxDone s stream) stream e = some next) : Sound (setStream s key next) := by
  obtain ⟨-, owner, cancelled, ends⟩ := pollStep_spec acted
  have live := (sound.alive key stream found).2
  refine ⟨?_, sound.truthful⟩
  intro k other listed
  simp only [setStream, find_upsert] at listed
  split at listed
  · obtain rfl := Option.some.inj listed
    refine ⟨fun returned => live (ends returned), ?_⟩
    unfold ctxDone at live ⊢
    rw [owner, cancelled]
    exact live
  · exact sound.alive k other listed

theorem handler_sound {s : State} {r : RequestId} {h : Handler} (sound : Sound s)
    (ends : requestCancelled (setHandler s r h) r → ¬ requestCancelled s r →
      ∀ key stream, find key s.streams = some stream → stream.owner ≠ r) :
    Sound (setHandler s r h) := by
  refine ⟨?_, sound.truthful⟩
  intro key stream found
  obtain ⟨running, live⟩ := sound.alive key stream found
  refine ⟨running, ?_⟩
  rintro (own | byRequest)
  · exact live (.inl own)
  · by_cases mine : stream.owner = r
    · rw [mine] at byRequest
      exact ends byRequest (fun before => live (.inr (mine ▸ before))) key stream found mine
    · rw [cancelled_setHandler, if_neg mine] at byRequest
      exact live (.inr byRequest)

theorem startStream_sound {s : State} {r : RequestId} {symbol market : String} {binSize : ℚ}
    (sound : Sound s)
    (begun : requestCancelled s r → find (streamKey symbol market) s.streams ≠ none) :
    Sound (startStream s r symbol market binSize) := by
  unfold startStream
  cases found : find (streamKey symbol market) s.streams with
  | some stream => simpa only [found] using sound
  | none =>
    simp only [found]
    refine ⟨?_, sound.truthful⟩
    intro key stream listed
    simp only [find_upsert] at listed
    split at listed
    · obtain rfl := Option.some.inj listed
      refine ⟨by simp [newStream], ?_⟩
      rintro (own | byRequest)
      · simp [newStream] at own
      · exact begun byRequest found
    · exact sound.alive key stream listed

theorem serves_sound {server : Server} {s s' : State} {e : Event} (sound : Sound s)
    (running : s.stopped = false) (keeps : KeepsStreams s e) (served : Serves server s e s') :
    s'.stopped = false → Sound s' := by
  have kept := keeps running
  intro still
  cases served with
  | arrive new =>
    apply handler_sound sound
    intro cancelled
    simp [cancelled_setHandler] at cancelled
  | start here =>
    apply handler_sound (startStream_sound sound fun ended => kept ended _ _ _ _ here)
    intro after before
    rw [← (startStream_frame s _ _ _ _).1] at here
    exact absurd ((cancelled_moved here _).mp after) before
  | loading here unlisted =>
    exact handler_sound sound fun after before => absurd ((cancelled_moved here _).mp after) before
  | read here listed =>
    refine ⟨(handler_sound sound fun after before =>
      absurd ((cancelled_moved here _).mp after) before).alive, ?_⟩
    intro answer given
    rcases List.mem_append.mp given with earlier | now
    · exact sound.truthful answer earlier
    · obtain rfl := List.mem_singleton.mp now
      apply kept _ _ _ here
      intro absent
      simp [getDOM, absent] at listed
  | disconnect here => exact handler_sound sound fun _ _ => kept
  | finish here => exact handler_sound sound fun _ _ => kept
  | stopAll => cases still

theorem serves_streams {server : Server} {s s' : State} {e : Event} (served : Serves server s e s') :
    (s'.streams = s.streams ∧ s'.stopped = s.stopped) ∨
    (∃ r symbol market binSize, s'.streams = (startStream s r symbol market binSize).streams ∧
      s'.stopped = s.stopped) ∨
    (s'.streams = s.streams.map (fun p => (p.1, p.2.cancel)) ∧ s'.stopped = true) := by
  cases served with
  | start here => exact .inr (.inl ⟨_, _, _, _, rfl, (startStream_frame s _ _ _ _).2.2⟩)
  | stopAll => exact .inr (.inr ⟨rfl, rfl⟩)
  | arrive | loading | read | disconnect | finish => exact .inl ⟨rfl, rfl⟩

theorem stopped_stays {server : Server} {s s' : State} {e : Event} (taken : step server s e = some s')
    (running : s'.stopped = false) : s.stopped = false := by
  rcases step_cases taken with ⟨key, stream, next, -, -, -, rfl⟩ | served
  · exact running
  · rcases serves_streams served with ⟨-, same⟩ | ⟨r, symbol, market, binSize, -, same⟩ | ⟨-, stopped⟩
    · exact same ▸ running
    · exact same ▸ running
    · rw [stopped] at running
      cases running

theorem returned_stays {server : Server} {s s' : State} {e : Event} {key : String} {stream : DomStream}
    (found : find key s.streams = some stream) (returned : stream.loop = .returned)
    (taken : step server s e = some s') :
    ∃ later, find key s'.streams = some later ∧ later.loop = .returned ∧ later.book = stream.book := by
  rcases step_cases taken with ⟨k, other, next, -, listed, acted, rfl⟩ | served
  · have apart : key ≠ k := by
      rintro rfl
      obtain rfl := Option.some.inj (found.symm.trans listed)
      exact (pollStep_spec acted).1 returned
    exact ⟨stream, (find_upsert_other _ _ apart).trans found, returned, rfl⟩
  · rcases serves_streams served with ⟨same, -⟩ | ⟨r, symbol, market, binSize, same, -⟩ | ⟨same, -⟩
    · exact ⟨stream, same ▸ found, returned, rfl⟩
    · exact ⟨stream, same ▸ startStream_entry found r symbol market binSize, returned, rfl⟩
    · refine ⟨stream.cancel, ?_, returned, rfl⟩
      rw [same, find_map_entries, found, Option.map_some]

/-- Once the loop of a key has returned, no event starts it again: the book is frozen. -/
theorem book_frozen {server : Server} {s s' : State} {es : List Event} {key : String} {stream : DomStream}
    (found : find key s.streams = some stream) (returned : stream.loop = .returned)
    (reach : run (step server) s es = some s') :
    ∃ later, find key s'.streams = some later ∧ later.loop = .returned ∧ later.book = stream.book :=
  invariant_run (fun t => ∃ later, find key t.streams = some later ∧ later.loop = .returned ∧
      later.book = stream.book) (fun _ _ => True)
    (fun _ _ _ kept _ taken => by
      obtain ⟨later, listed, stands, same⟩ := kept
      obtain ⟨last, listed', stands', same'⟩ := returned_stays listed stands taken
      exact ⟨last, listed', stands', same'.trans same⟩)
    ⟨stream, found, returned, rfl⟩ (guarded_of_events (by simp)) reach

theorem step_inv {server : Server} {s s' : State} {e : Event} (inv : s.stopped = false → Sound s)
    (keeps : KeepsStreams s e) (taken : step server s e = some s') : s'.stopped = false → Sound s' := by
  intro running
  have before := stopped_stays taken running
  rcases step_cases taken with ⟨key, stream, next, -, found, acted, rfl⟩ | served
  · exact poll_sound (inv before) found acted
  · exact serves_sound (inv before) before keeps served running

theorem sound_lasting {server : Server} {s : State} (inv : s.stopped = false → Sound s) :
    Lasting server s := by
  intro loops own s' reach running
  have free : Guarded (step server) (fun s e => KeepsStreams s e) s loops := by
    apply guarded_of_events
    intro e member t _
    have acts := own e member
    cases e <;> simp_all [pollKey]
  have sound := invariant_run (fun t => t.stopped = false → Sound t) KeepsStreams
    (fun _ _ _ => step_inv) inv free reach running
  exact ⟨fun key stream found => (sound.alive key stream found).1, sound.truthful⟩

theorem lasting_here {server : Server} {s : State} (lasting : Lasting server s)
    (running : s.stopped = false) : AliveAndTruthful s :=
  lasting [] (by simp) s rfl running

theorem lasting_step {server : Server} {s s' : State} {e : Event} (lasting : Lasting server s)
    (own : pollKey e ≠ none) (taken : step server s e = some s') : Lasting server s' := by
  intro loops each t reach running
  apply lasting (e :: loops) (List.forall_mem_cons.mpr ⟨own, each⟩) t
  · simp only [run_cons, taken, Option.bind_some, reach]
  · exact running

theorem poll_lasting {server : Server} {s : State} {e : Event} {key : String} {stream next : DomStream}
    (lasting : Lasting server s) (acts : pollKey e = some key)
    (found : find key s.streams = some stream)
    (acted : pollStep server (ctxDone s stream) stream e = some next) :
    Lasting server (setStream s key next) := by
  apply lasting_step lasting (e := e) (by simp [acts])
  simp only [step, acts, found, acted, Option.map_some]

def anyOrder : MapOrder := ⟨id, List.Perm.refl⟩

theorem listed_after (s : State) (key : String) (next : DomStream) :
    find key (setStream s key next).streams = some next := find_upsert_self _ _ _

theorem waiting_doomed {server : Server} {s : State} {key : String} {stream : DomStream}
    (running : s.stopped = false) (found : find key s.streams = some stream)
    (waiting : stream.loop = .waiting) (done : ctxDone s stream) : ¬ Lasting server s := by
  intro lasting
  have left : pollStep server (ctxDone s stream) stream (.exit key) =
      some { stream with loop := .returned } := by
    simp only [pollStep, waiting, done, ↓reduceIte]
  have later := poll_lasting lasting rfl found left
  exact (lasting_here later running).alive key _ (listed_after s key _) rfl

theorem acting_doomed {server : Server} {s : State} {e : Event} {key : String} {stream next : DomStream}
    (running : s.stopped = false) (acts : pollKey e = some key)
    (found : find key s.streams = some stream) (done : ctxDone s stream)
    (acted : pollStep server (ctxDone s stream) stream e = some next) (waits : next.loop = .waiting) :
    ¬ Lasting server s := by
  intro lasting
  obtain ⟨-, owner, cancelled, -⟩ := pollStep_spec acted
  apply waiting_doomed (s := setStream s key next) running (listed_after s key next) waits
  · unfold ctxDone at done ⊢
    rw [owner, cancelled]
    exact done
  · exact poll_lasting lasting acts found acted

/- A loop whose context is done may return: at once in the select, else after the fetch
   and the update that it still has to make. -/
theorem doomed {server : Server} {s : State} {key : String} {stream : DomStream}
    (running : s.stopped = false) (found : find key s.streams = some stream)
    (done : ctxDone s stream) : ¬ Lasting server s := by
  intro lasting
  cases stands : stream.loop with
  | returned => exact (lasting_here lasting running).alive key stream found stands
  | waiting => exact waiting_doomed running found stands done lasting
  | fetching =>
    have failed : pollStep server (ctxDone s stream) stream (.fetch key fun _ => none) =
        some { stream with loop := .waiting } := by
      simp only [pollStep, stands, fetchBinanceDepth]
    exact acting_doomed running rfl found done failed rfl lasting
  | updating depth =>
    have shown : ∃ book, pollStep server (ctxDone s stream) stream (.update key anyOrder 0) =
        some { stream with loop := .waiting, book := book } := by
      simp only [pollStep, stands]
      exact ⟨_, rfl⟩
    obtain ⟨book, shown⟩ := shown
    exact acting_doomed running rfl found done shown rfl lasting

theorem ended_doomed {server : Server} {s : State} {r : RequestId} {h : Handler} {key : String}
    {stream : DomStream} (running : s.stopped = false) (found : find key s.streams = some stream)
    (mine : stream.owner = r) (ended : h.cancelled = true) : ¬ Lasting server (setHandler s r h) := by
  apply doomed (s := setHandler s r h) running found
  right
  rw [mine, cancelled_setHandler, if_pos rfl]
  exact ended

/- A step outside the condition ends a context that a loop hangs on, or answers too early. -/
theorem step_breaks {server : Server} {s s' : State} {e : Event}
    (outside : ¬ KeepsStreams s e) (taken : step server s e = some s') : ¬ Lasting server s' := by
  unfold KeepsStreams at outside
  rw [Classical.not_imp] at outside
  obtain ⟨running, outside⟩ := outside
  rcases step_cases taken with ⟨key, stream, next, acts, -⟩ | served
  · cases e <;> first | exact absurd trivial outside | cases acts
  · cases served with
    | @start r symbol market binSize cancelled here =>
      simp only [not_forall, not_not] at outside
      obtain ⟨⟨h, same, ended⟩, _, _, _, _, found, absent⟩ := outside
      obtain rfl := Option.some.inj (here.symm.trans same)
      cases here.symm.trans found
      have listed : find (streamKey symbol market) (startStream s r symbol market binSize).streams =
          some (newStream r symbol market binSize) := by
        simp only [startStream, absent, find_upsert_self]
      have still := (startStream_frame s r symbol market binSize).2.2.trans running
      exact ended_doomed still listed rfl ended
    | loading here unlisted =>
      simp only [not_forall] at outside
      obtain ⟨_, _, _, found, listed, -⟩ := outside
      cases here.symm.trans found
      exact absurd (Option.map_eq_none_iff.mp unlisted) listed
    | read here listed =>
      simp only [not_forall] at outside
      obtain ⟨_, _, _, found, -, unfetched⟩ := outside
      cases here.symm.trans found
      intro lasting
      have told := (lasting_here lasting running).truthful
      exact unfetched (told _ (List.mem_append_right _ (List.mem_singleton.mpr rfl)))
    | disconnect here =>
      simp only [not_forall, not_not] at outside
      obtain ⟨key, stream, found, mine⟩ := outside
      exact ended_doomed running found mine rfl
    | finish here =>
      simp only [not_forall, not_not] at outside
      obtain ⟨key, stream, found, mine⟩ := outside
      exact ended_doomed running found mine rfl
    | arrive | stopAll => exact absurd trivial outside

/-- The streams keep their loops and the answers wait for a fetch exactly if the guard holds. -/
theorem streams_last_iff (server : Server) (events : List Event) :
    Always (step server) (Lasting server) start events ↔
      Guarded (step server) KeepsStreams start events :=
  always_iff_guarded (fun s => s.stopped = false → Sound s) (fun _ => sound_lasting)
    (fun _ _ _ => step_inv) (fun _ _ _ _ => step_breaks) (fun _ => sound_start) events

def btcServer : Server where
  caseMap := ⟨Char.toUpper, Char.toLower⟩
  validator := Validate.newValidator [⟨"BTCUSDT", "futures", 1 / 10, 25, 10, 25, 365, 60, true⟩]
  parseFloat := fun _ => none

def emptyDepth : DepthResponse := ⟨[], []⟩

def endedRequest : List Event :=
  [.arrive 0 "GET" "btcusdt" "Futures", .startStream 0, .fetch "BTCUSDT:futures" fun _ => some emptyDepth,
    .update "BTCUSDT:futures" anyOrder 1000, .getDOM 0, .finish 0, .exit "BTCUSDT:futures"]

def earlyAnswer : List Event :=
  [.arrive 0 "GET" "btcusdt" "Futures", .startStream 0, .getDOM 0]

theorem stream_dies_and_answers_early :
    ¬ Always (step btcServer) (fun s => s.stopped = false → AliveAndTruthful s) start endedRequest ∧
    ¬ Always (step btcServer) (fun s => s.stopped = false → AliveAndTruthful s) start earlyAnswer := by
  constructor
  · intro always
    have dies : (run (step btcServer) start endedRequest).any (fun s => s.stopped = false ∧
        ((find "BTCUSDT:futures" s.streams).map DomStream.loop) = some .returned) = true := by
      decide +kernel
    obtain ⟨s, reach, ends⟩ := (Option.any_eq_true _ _).mp dies
    obtain ⟨running, left⟩ := of_decide_eq_true ends
    obtain ⟨stream, found, returned⟩ := Option.map_eq_some_iff.mp left
    exact (always_final always reach running).alive _ stream found returned
  · intro always
    have early : (run (step btcServer) start earlyAnswer).any (fun s => s.stopped = false ∧
        ("BTCUSDT:futures", false) ∈ s.answers) = true := by
      decide +kernel
    obtain ⟨s, reach, ends⟩ := (Option.any_eq_true _ _).mp early
    obtain ⟨running, told⟩ := of_decide_eq_true ends
    exact Bool.false_ne_true ((always_final always reach running).truthful _ told)

end DomStreams
