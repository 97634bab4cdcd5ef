import Procluster.ConnectedClients
import Procluster.ServedSubs
import Procluster.Library.Interleaving

/-!
NotifyCandleClose and the goroutines it starts, with their sends in any interleaving. A
subscription is known by the parts of its key. The closers notify with the market of a
configured ticker, spot or futures, and every subscriber of the closed candle gets one
close and one open for each compression.
-/
namespace WsHub
open Aggregate KeyedFold EventRuns RWMutex Interleaving

abbrev Send := ClientId × SubMessage

def sendTo (h : Hub) (s : Send) : Hub := trySend s.2 h s.1

def closeSends (validator : Validator) (args : SendCloseOpen) (nowSec : ℤ) : Except Fault (List Send) := do
  match ← closeMessage validator args with
  | none => return []
  | some msg =>
    let openTime ← candleTimeNow args.tf nowSec
    let openMsg := SubMessage.mk "open" args.symbol args.market args.tf msg.comp none openTime
    return args.clients.map (fun c => (c, msg)) ++ args.clients.map fun c => (c, openMsg)

/-- No send meets a full queue. -/
def Fits : Hub → List Send → Prop
  | _, [] => True
  | h, s :: rest => (h.heap s.1).send.length < h.writeBufSize ∧ Fits (sendTo h s) rest

def SubscribedAt (h : Hub) (d : ClientId) (market symbol tf : String) (comp : UInt32) : Prop :=
  ∃ key, key.parse = ⟨market, symbol, tf, comp⟩ ∧ (records h).Listed key d

/-- The cells merged to the compression in a close, and an open for the candle of now. -/
def IsCloseOpen (validator : Validator) (market symbol tf : String) (comp : UInt32)
    (candleTimeUnix : ℤ) (cells : List ClusterCell) (nowSec : ℤ) (msgs : List SubMessage) : Prop :=
  ∃ tc merged openTime, validator.getConfig symbol market = some tc ∧
    mergeUp tc comp cells = .ok merged ∧ candleTimeNow tf nowSec = .ok openTime ∧
    msgs = [⟨"close", symbol, market, tf, comp, some (buildCandle candleTimeUnix merged), 0⟩,
      ⟨"open", symbol, market, tf, comp, none, openTime⟩]

/-- NotifyCandleClose returns when nothing holds the hub's lock. Whenever the calls that it
    starts have sent, each in its order and all interleaved, every client has got a close
    and an open for each compression at which it is subscribed and nothing else. -/
def ClosesOnce (h : Hub) (market symbol tf : String) : Prop := ∀ candleTimeUnix cells,
  (h.mu = .unlocked → ∃ h₁, notifyCandleClose market symbol tf candleTimeUnix cells h = .ok h₁) ∧
  ∀ h₁, notifyCandleClose market symbol tf candleTimeUnix cells h = .ok h₁ →
    ∃ calls : List SendCloseOpen, h₁.tasks = h.tasks ++ calls.map .sendCloseOpen ∧
      ∀ nowSec : UInt32 → ℤ, ∃ sends : List (List Send),
        List.Forall₂ (fun args own => closeSends h₁.validator args (nowSec args.compression) = .ok own)
          calls sends ∧
        ∀ out, Interleaves sends out → Fits h₁ out → ∀ d, ∃ put,
          ((out.foldl sendTo h₁).heap d).send = (h.heap d).send ++ put ∧
          ∀ comp, (SubscribedAt h d market symbol tf comp →
              IsCloseOpen h.validator market symbol tf comp candleTimeUnix cells (nowSec comp)
                (put.filter fun msg => msg.comp = comp)) ∧
            (¬ SubscribedAt h d market symbol tf comp → put.filter (fun msg => msg.comp = comp) = [])

def Ascii (m : Validate.CaseMap) : Prop :=
  ∀ c : Char, c.toNat < 128 → m.upper c = c.toUpper ∧ m.lower c = c.toLower

def enumMarkets : List String := ["spot", "futures"]

structure StoredTicker (m : Validate.CaseMap) (tc : TickerConfig) : Prop where
  market : tc.market ∈ enumMarkets
  symbol : m.toUpper tc.symbol = tc.symbol

theorem sendCloseOpen_steps (args : SendCloseOpen) (nowSec : ℤ) (h : Hub) :
    sendCloseOpen args nowSec h =
      (closeSends h.validator args nowSec).map fun sends => sends.foldl sendTo h := by
  rw [sendCloseOpen_sends, closeSends]
  cases closeMessage h.validator args with
  | error fault => rfl
  | ok message =>
    cases message with
    | none => rfl
    | some msg =>
      change (candleTimeNow args.tf nowSec >>= _) = Except.map _ (candleTimeNow args.tf nowSec >>= _)
      cases candleTimeNow args.tf nowSec with
      | error fault => rfl
      | ok openTime =>
        refine congrArg Except.ok ?_
        dsimp only
        rw [List.foldl_append, List.foldl_map, List.foldl_map]
        rfl

theorem queue_after {h : Hub} {out : List Send} (fits : Fits h out) (d : ClientId) :
    ((out.foldl sendTo h).heap d).send =
      (h.heap d).send ++ (out.filter fun s => s.1 = d).map Prod.snd := by
  induction out generalizing h with
  | nil => simp
  | cons s out ih =>
    obtain ⟨room, later⟩ := fits
    rw [List.foldl_cons, ih later, sendTo, trySend, if_pos room]
    by_cases mine : s.1 = d
    · subst mine
      simp [setClient]
    · simp [setClient, mine, Function.update_of_ne (Ne.symm mine)]

theorem sent_to {clients : List ClientId} (distinct : clients.Nodup) (d : ClientId) (a b : SubMessage) :
    ((clients.map (fun c => (c, a)) ++ clients.map fun c => (c, b)).filter fun s => s.1 = d).map Prod.snd =
      if d ∈ clients then [a, b] else [] := by
  have share : ∀ msg : SubMessage, ((clients.map fun c => (c, msg)).filter fun s => s.1 = d).map Prod.snd =
      if d ∈ clients then [msg] else [] := by
    intro msg
    rw [List.filter_map, List.map_map, show ((fun s : Send => decide (s.1 = d)) ∘ fun c => (c, msg)) =
      fun c => decide (c = d) from rfl, List.filter_eq, List.map_replicate, distinct.count]
    split <;> rfl
  rw [List.filter_append, List.map_append, share, share]
  split <;> rfl

theorem both_at {clients : List ClientId} {a b : SubMessage} {comp : UInt32}
    (first : a.comp = comp) (second : b.comp = comp) :
    ∀ s ∈ clients.map (fun c => (c, a)) ++ clients.map (fun c => (c, b)), s.2.comp = comp := by
  intro s member
  rw [List.mem_append, List.mem_map, List.mem_map] at member
  rcases member with ⟨c, -, rfl⟩ | ⟨c, -, rfl⟩
  · exact first
  · exact second

theorem share_at (out : List Send) (d : ClientId) (comp : UInt32) :
    ((out.filter fun s => s.1 = d).map Prod.snd).filter (fun msg => msg.comp = comp) =
      ((out.filter fun s => s.2.comp = comp).filter fun s => s.1 = d).map Prod.snd := by
  rw [List.filter_map, List.filter_comm]
  rfl

/-- The key's ticker is found by the parts of the key and can be closed at its compression. -/
def ReadBack (validator : Validator) (key : SubKey) : Prop :=
  ∃ tc, validator.getConfig key.parse.symbol key.parse.market = some tc ∧
    effective tc key.parse.compression = key.parse.compression ∧
    ¬ (tc.baseCompression = 0 ∧ key.parse.compression ≠ 0) ∧ (tfSeconds key.parse.tf).isSome

/-- The sets of subscribers; a key of a market that is notified is read back. -/
structure Deliverable (r : Records) : Prop where
  distinct : (keys r.subs).Nodup
  entries : ∀ p ∈ r.subs, (p.1.parse.market ∈ enumMarkets → ReadBack r.validator p.1) ∧ p.2.Nodup

theorem prefix_of_joined {a b c d : List Char} (same : a ++ ':' :: b = c ++ ':' :: d) (clean : ':' ∉ d) :
    a <+: c := by
  rcases List.append_eq_append_iff.mp same with ⟨more, whole, _⟩ | ⟨more, whole, rest⟩
  · exact ⟨more, whole.symm⟩
  · cases more with
    | nil => exact ⟨[], by simpa using whole⟩
    | cons x more =>
      rw [List.cons_append, List.cons.injEq] at rest
      exact absurd (by simp [rest.2]) clean

section Reached
variable {m : Validate.CaseMap} {v : Validate.Validator} {r r' : Records}

theorem parsed_front {market symbol tf : String} {compression : UInt32} (cleanTf : ':' ∉ tf.toList)
    {first rest : List Char} (split : SubKey.splitAtFirst market.toList = some (first, rest)) :
    (SubKey.make market symbol tf compression).parse.market.toList = first := by
  obtain ⟨joined, cleanMarket, _⟩ := SubKey.parse_made cleanTf market symbol compression
  generalize (SubKey.make market symbol tf compression).parse = parts at joined cleanMarket
  obtain ⟨text, cleanFirst⟩ := SubKey.splitAtFirst_some split
  have lists := congrArg (fun text : String => SubKey.splitAtFirst text.toList) joined
  have whole : (market ++ ":" ++ symbol).toList = first ++ ':' :: (rest ++ ':' :: symbol.toList) := by
    simp [text]
  have read : (parts.market ++ ":" ++ parts.symbol).toList =
      parts.market.toList ++ ':' :: parts.symbol.toList := by simp
  rw [whole, read, SubKey.splitAtFirst_append cleanFirst, SubKey.splitAtFirst_append cleanMarket,
    Option.some.injEq, Prod.mk.injEq] at lists
  exact lists.1

/- A market with a colon, split at it, is found only where a stored symbol has the first
   part, which has an s, in lower case. -/
theorem plain_of_parsed (ascii : Ascii m) {configs : List TickerConfig}
    (stored : ∀ tc ∈ configs, StoredTicker m tc) {market symbol tf : String} {compression : UInt32}
    {tc : TickerConfig} (cleanTf : ':' ∉ tf.toList)
    (config : (apiValidator m (Validate.newValidator configs)).getConfig symbol market = some tc)
    (parsed : (SubKey.make market symbol tf compression).parse.market ∈ enumMarkets) :
    ':' ∉ market.toList := by
  intro colon
  obtain ⟨⟨first, rest⟩, split⟩ := Option.isSome_iff_exists.mp (SubKey.splitAtFirst_of_colon colon)
  obtain ⟨text, -⟩ := SubKey.splitAtFirst_some split
  have letters : ∀ name ∈ enumMarkets, 's' ∈ name.toList ∧ ':' ∉ name.toList := by decide
  have lower_s : 's' ∈ first := parsed_front cleanTf split ▸ (letters _ parsed).1
  obtain ⟨tc', listed, found⟩ := (mem_gather_keys _ _ _ _).mp
    ((mem_keys_iff _ _).mpr (Option.isSome_iff_exists.mpr ⟨tc, config⟩))
  have market_split : (m.toLower market).toList = first.map m.lower ++ ':' :: rest.map m.lower := by
    rw [Validate.CaseMap.toLower, String.toList_map, text, List.map_append, List.map_cons,
      (ascii ':' (by decide)).2]
    rfl
  have same : (m.toUpper symbol).toList ++ ':' :: first.map m.lower ++ ':' :: rest.map m.lower =
      tc'.symbol.toList ++ ':' :: tc'.market.toList := by
    have texts := congrArg String.toList found
    simpa [market_split] using texts.symm
  obtain ⟨market_known, symbol_upper⟩ := stored tc' listed
  have inside : 's' ∈ tc'.symbol.toList := by
    apply (prefix_of_joined same (letters _ market_known).2).subset
    rw [List.mem_append, List.mem_cons, List.mem_map]
    exact .inr (.inr ⟨'s', lower_s, (ascii 's' (by decide)).2⟩)
  have kept := congrArg String.toList symbol_upper
  rw [Validate.CaseMap.toUpper, String.toList_map] at kept
  have fixed : m.upper 's' = 's' := by
    have each := List.map_eq_map_iff.mp (kept.trans (List.map_id _).symm)
    exact each 's' inside
  rw [(ascii 's' (by decide)).1] at fixed
  exact absurd fixed (by decide)

theorem readBack_made {market symbol tf : String} {compression : UInt32} {tc : TickerConfig}
    (config : (apiValidator m v).getConfig symbol market = some tc) (clean : ':' ∉ market.toList)
    (goodTF : (apiValidator m v).validateTF tf tc = none)
    (goodCompression : (apiValidator m v).validateCompression compression tc = none) :
    ReadBack (apiValidator m v) (SubKey.make market symbol tf (effective tc compression)) := by
  obtain ⟨cleanTf, known⟩ := validateTF_known goodTF
  have passed : Validate.validateCompression compression tc = .ok () := by
    simp only [apiValidator] at goodCompression
    split at goodCompression
    · assumption
    · cases goodCompression
  unfold ReadBack
  rw [SubKey.parse_make clean cleanTf]
  refine ⟨tc, config, ?_, ?_, known⟩
  · unfold effective
    by_cases zero : compression = 0
    · simp [zero]
    · simp [zero]
  · rintro ⟨noBase, raised⟩
    rcases Validate.validateCompression_ok passed with zero | ⟨base, -, -⟩
    · exact raised (by rw [effective, if_pos zero, noBase])
    · exact base noBase

theorem effect_deliverable (ascii : Ascii m) {configs : List TickerConfig}
    (stored : ∀ tc ∈ configs, StoredTicker m tc) {op : Op}
    (own : r.validator = apiValidator m (Validate.newValidator configs)) (deliverable : Deliverable r)
    (effect : Effect r r' op) : Deliverable r' := by
  have same : r' = r → Deliverable r' := fun same => same ▸ deliverable
  obtain ⟨distinct, entries⟩ := deliverable
  cases op with
  | register c =>
    have first : r' = r.registered c := effect
    exact first ▸ ⟨distinct, entries⟩
  | subscribe c market symbol tf compression =>
    rcases effect with rejected | ⟨tc, config, goodTF, goodCompression, -, rfl⟩
    · exact same rejected
    · refine ⟨keys_upsert_nodup _ _ _ distinct, ?_⟩
      have made : (SubKey.make market symbol tf (effective tc compression)).parse.market ∈ enumMarkets →
          ReadBack r.validator (SubKey.make market symbol tf (effective tc compression)) := by
        intro parsed
        rw [own] at config goodTF goodCompression ⊢
        have clean := plain_of_parsed ascii stored (validateTF_known goodTF).1 config parsed
        exact readBack_made config clean goodTF goodCompression
      exact upsert_entries (fun (key : SubKey) (set : List ClientId) =>
          (key.parse.market ∈ enumMarkets → ReadBack r.validator key) ∧ set.Nodup)
        ⟨made, List.nodup_nil.insert⟩ (fun _ before => ⟨made, before.2.insert⟩) entries
  | unsubscribe c market symbol tf compression =>
    have left : r' = r.left c (SubKey.make market symbol tf compression) := effect
    subst left
    exact ⟨dropSub_keys _ c distinct, dropSub_entries (fun (key : SubKey) (set : List ClientId) =>
        (key.parse.market ∈ enumMarkets → ReadBack r.validator key) ∧ set.Nodup)
      _ (fun _ _ before _ => ⟨before.1, before.2.filter _⟩) entries⟩
  | unregister c =>
    have gone : r' = r.gone c := effect
    subst gone
    refine ⟨gone_keys distinct, ?_⟩
    intro p inside
    obtain ⟨q, listed, rfl⟩ := List.mem_map.mp (List.mem_filter.mp inside).1
    exact ⟨(entries q listed).1, (entries q listed).2.filter _⟩
  | clientCount => exact same effect
  | broadcastTick env => exact same effect
  | notifyCandleClose market symbol tf candleTimeUnix cells => exact same effect
  | goroutine k nowSec => exact same effect

theorem deliverable_run (ascii : Ascii m) {configs : List TickerConfig}
    (stored : ∀ tc ∈ configs, StoredTicker m tc) {n : ℕ} {es : List HubEvent} {h : Hub}
    (reach : run advance (newHub (apiValidator m (Validate.newValidator configs)) n) es = some h) :
    Deliverable (records h) := by
  let validator := apiValidator m (Validate.newValidator configs)
  have empty : Deliverable (records (newHub validator n)) :=
    ⟨List.nodup_nil, by simp [records, newHub]⟩
  have kept := invariant_run (fun s => s.validator = validator ∧ Deliverable (records s))
    (fun _ _ => True) ?_ ⟨rfl, empty⟩ (guarded_of_events fun _ _ _ => trivial) reach
  · exact kept.2
  intro s e s' before _ taken
  obtain ⟨own, deliverable⟩ := before
  cases e with
  | call op =>
    have effect := advance_effect taken
    exact ⟨(effect_validator effect).trans own, effect_deliverable ascii stored own deliverable effect⟩
  | counted =>
    obtain rfl := unlock_last (answer_of_some taken)
    exact ⟨own, deliverable⟩

end Reached

section Closed
variable {market symbol tf : String} {candleTimeUnix : ℤ} {cells : List ClusterCell} {h h₁ : Hub}

theorem notify_returns (free : h.mu = .unlocked) :
    ∃ h₁, notifyCandleClose market symbol tf candleTimeUnix cells h = .ok h₁ := by
  unfold notifyCandleClose
  rw [read_section (p := hubMu) free]
  exact ⟨_, rfl⟩

theorem notify_started (done : notifyCandleClose market symbol tf candleTimeUnix cells h = .ok h₁) :
    h₁.tasks = h.tasks ++
        ((closeGroups market symbol tf h).map (closeCall market symbol tf candleTimeUnix cells)).map
          .sendCloseOpen ∧
      h₁.validator = h.validator ∧ h₁.heap = h.heap := by
  unfold notifyCandleClose at done
  obtain ⟨m, done⟩ := rLock_returned done
  obtain ⟨n, done⟩ := rUnlock_returned done
  obtain rfl := Except.ok.inj done
  rw [List.map_map]
  exact ⟨rfl, rfl, rfl⟩

theorem subscribedAt_iff (distinct : (keys h.subs).Nodup) (d : ClientId) (comp : UInt32) :
    SubscribedAt h d market symbol tf comp ↔
      ∃ g ∈ closeGroups market symbol tf h, g.1.parse.compression = comp ∧ d ∈ g.2 := by
  constructor
  · rintro ⟨key, parts, set, found, member⟩
    exact ⟨(key, set), (mem_closeGroups distinct _).mpr ⟨mem_of_find found, by rw [parts]⟩,
      by rw [parts], member⟩
  · rintro ⟨g, inside, rfl, member⟩
    obtain ⟨listed, parts⟩ := (mem_closeGroups distinct g).mp inside
    exact ⟨g.1, parts, g.2, find_of_mem distinct listed, member⟩

theorem closeSends_group {validator : Validator} {g : SubKey × List ClientId}
    (parts : g.1.parse = ⟨market, symbol, tf, g.1.parse.compression⟩) (readBack : ReadBack validator g.1)
    (candleTimeUnix : ℤ) (cells : List ClusterCell) (nowSec : ℤ) : ∃ a b,
      IsCloseOpen validator market symbol tf g.1.parse.compression candleTimeUnix cells nowSec [a, b] ∧
      closeSends validator (closeCall market symbol tf candleTimeUnix cells g) nowSec =
        .ok (g.2.map (fun c => (c, a)) ++ g.2.map fun c => (c, b)) := by
  obtain ⟨tc, config, direct, divides, known⟩ := readBack
  rw [parts] at config known
  obtain ⟨secs, seconds⟩ := Option.isSome_iff_exists.mp known
  obtain ⟨merged, merges⟩ := mergeUp_returns tc g.1.parse.compression cells divides
  have time : candleTimeNow tf nowSec = .ok (nowSec.tdiv secs * secs) := by
    rw [candleTimeNow, seconds]
  refine ⟨_, _, ⟨tc, merged, _, config, merges, time, rfl⟩, ?_⟩
  simp only [closeSends, closeMessage, closeCall, closeCandle, config, direct, merges]
  change (candleTimeNow tf nowSec >>= _) = _
  rw [time]
  rfl

theorem isCloseOpen_comp {validator : Validator} {comp : UInt32} {nowSec : ℤ} {a b : SubMessage}
    (pair : IsCloseOpen validator market symbol tf comp candleTimeUnix cells nowSec [a, b]) :
    a.comp = comp ∧ b.comp = comp := by
  obtain ⟨tc, merged, openTime, -, -, -, same⟩ := pair
  obtain ⟨rfl, rest⟩ := List.cons.inj same
  obtain ⟨rfl, -⟩ := List.cons.inj rest
  exact ⟨rfl, rfl⟩

theorem closeGroup_sends (deliverable : Deliverable (records h)) (listed : market ∈ enumMarkets)
    {g : SubKey × List ClientId} (inside : g ∈ closeGroups market symbol tf h) (candleTimeUnix : ℤ)
    (cells : List ClusterCell) (nowSec : ℤ) : ∃ own a b,
      closeSends h.validator (closeCall market symbol tf candleTimeUnix cells g) nowSec = .ok own ∧
      own = g.2.map (fun c => (c, a)) ++ g.2.map (fun c => (c, b)) ∧ g.2.Nodup ∧
      IsCloseOpen h.validator market symbol tf g.1.parse.compression candleTimeUnix cells nowSec [a, b] := by
  obtain ⟨named, parts⟩ := (mem_closeGroups deliverable.distinct g).mp inside
  obtain ⟨readBack, distinct⟩ := deliverable.entries g named
  obtain ⟨a, b, pair, sent⟩ := closeSends_group parts (readBack (by rwa [parts])) candleTimeUnix cells nowSec
  exact ⟨_, a, b, sent, rfl, distinct, pair⟩

theorem deliverable_closes_once (deliverable : Deliverable (records h)) (listed : market ∈ enumMarkets)
    (symbol tf : String) : ClosesOnce h market symbol tf := by
  have distinct := deliverable.distinct
  intro candleTimeUnix cells
  refine ⟨fun free => notify_returns free, ?_⟩
  intro h₁ done
  obtain ⟨tasks, validator, heap⟩ := notify_started done
  refine ⟨_, tasks, ?_⟩
  intro nowSec
  let groups := closeGroups market symbol tf h
  let comp : SubKey × List ClientId → UInt32 := fun g => g.1.parse.compression
  have calls : ∀ g ∈ groups, _ := fun g inside =>
    closeGroup_sends deliverable listed inside candleTimeUnix cells (nowSec (comp g))
  have : Nonempty SubMessage := ⟨⟨"", "", "", "", 0, none, 0⟩⟩
  choose! own a b sent shape set_distinct pair using calls
  refine ⟨groups.map own, ?_, ?_⟩
  · rw [List.forall₂_map_left_iff, List.forall₂_map_right_iff, List.forall₂_same, validator]
    exact sent
  intro out interleaves fits d
  refine ⟨_, by rw [queue_after fits, heap], ?_⟩
  have named : ∀ g ∈ groups, ∀ s ∈ own g, s.2.comp = comp g := by
    intro g inside
    obtain ⟨first, second⟩ := isCloseOpen_comp (pair g inside)
    rw [shape g inside]
    exact both_at first second
  have mine : ∀ g ∈ groups, ((out.filter fun s => s.2.comp = comp g).filter fun s => s.1 = d).map Prod.snd =
      if d ∈ g.2 then [a g, b g] else [] := by
    intro g inside
    have whole := interleaves_own (firsts_keys_nodup _ _) named interleaves inside
    rw [whole, shape g inside, sent_to (set_distinct g inside)]
  intro k
  rw [share_at, subscribedAt_iff distinct]
  refine ⟨?_, ?_⟩
  · rintro ⟨g, inside, rfl, member⟩
    rw [show g.1.parse.compression = comp g from rfl, mine g inside, if_pos member]
    exact pair g inside
  · intro unsubscribed
    by_cases known : ∃ g ∈ groups, comp g = k
    · obtain ⟨g, inside, rfl⟩ := known
      rw [mine g inside, if_neg fun member => unsubscribed ⟨g, inside, rfl, member⟩]
    · have nothing := interleaves_unnamed named interleaves
        fun g inside same => known ⟨g, inside, same⟩
      rw [nothing]
      rfl

end Closed

/-- In every run, every close that a closer notifies reaches each of its subscribers once. -/
theorem closes_once {m : Validate.CaseMap} (ascii : Ascii m) {configs : List TickerConfig}
    (stored : ∀ tc ∈ configs, StoredTicker m tc) {n : ℕ} {es : List HubEvent} {h : Hub}
    (reach : run advance (newHub (apiValidator m (Validate.newValidator configs)) n) es = some h)
    {market : String} (listed : market ∈ enumMarkets) (symbol tf : String) :
    ClosesOnce h market symbol tf :=
  deliverable_closes_once (deliverable_run ascii stored reach) listed symbol tf

theorem reach_accepted {validator : Validator} {n : ℕ} {market symbol tf : String} {compression : UInt32}
    {h : Hub} (accepted : subscribe 1 market symbol tf compression
      { newHub validator n with clients := [1] } = .ok (none, h)) :
    run advance (newHub validator n)
      [.call (.register 1), .call (.subscribe 1 market symbol tf compression)] = some h := by
  have taken : step { newHub validator n with clients := [1] }
      (.subscribe 1 market symbol tf compression) = some h := by
    rw [step, exec, accepted]
    rfl
  exact (congrArg (Option.bind · some) taken).trans rfl

theorem btc_closed_once : ∃ h, run advance btcHub
    [.call (.register 1), .call (.subscribe 1 "futures" "BTCUSDT" "1m" 0)] = some h ∧
      ClosesOnce h "futures" "BTCUSDT" "1m" := by
  obtain ⟨h, accepted⟩ := accepted_of (subscribe 1 "futures" "BTCUSDT" "1m" 0
    { btcHub with clients := [1] }) (by decide +kernel)
  have reach := reach_accepted accepted
  refine ⟨h, reach, closes_once (fun _ _ => ⟨rfl, rfl⟩) ?_ reach (by decide) _ _⟩
  intro tc listed
  rw [List.mem_singleton.mp listed]
  exact ⟨by decide, by decide +kernel⟩

end WsHub
