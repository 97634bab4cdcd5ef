import Procluster.Aggregate
import Procluster.Library.EventRuns

/-!
Whole runs of one aggregator: any order of ProcessTrade and Flush calls. The
ledger beside the aggregator records which deliveries were counted and what each
Flush took away before rounding. What a run should count is stated on the
deliveries alone: the first delivery of each trade id.
-/
namespace TradeLedger
open Aggregate KeyedFold EventRuns

inductive Op where
  | processTrade (t : Trade)
  | flush
  deriving DecidableEq

structure Ledger where
  agg : Aggregator
  counted : List Trade
  flushed : List ClusterCell

def step (s : Ledger) : Op → Option Ledger
  | .processTrade t => some
      { s with
        agg := (processTrade s.agg t).1
        counted := if t.tradeID ∈ s.agg.seen then s.counted else s.counted ++ [t] }
  | .flush => some
      { s with
        agg := (flush s.agg).2
        flushed := s.flushed ++ s.agg.cells.map Prod.snd }

def fresh (symbol market tf : String) (tickSize : ℚ) (compression : UInt32) : Ledger :=
  ⟨newAggregator symbol market tf tickSize compression, [], []⟩

/-- The trades between one Flush and the next: those before the first, then the rest. -/
def candles : List Op → List Trade × List (List Trade)
  | [] => ([], [])
  | .processTrade t :: ops => (t :: (candles ops).1, (candles ops).2)
  | .flush :: ops => ([], (candles ops).1 :: (candles ops).2)

def candleList (ops : List Op) : List (List Trade) := (candles ops).1 :: (candles ops).2

def deliveries : List Op → List Trade
  | [] => []
  | .processTrade t :: ops => t :: deliveries ops
  | .flush :: ops => deliveries ops

def volume (cells : List ClusterCell) : ℚ := (cells.map fun c => c.bid + c.ask).sum

def total (trades : List Trade) : ℚ := (trades.map Trade.qty).sum

def Ledger.held (s : Ledger) : ℚ := volume (s.agg.cells.map Prod.snd)

/-- No quantity is added twice, and what was flushed and is still held adds up to
    the first delivery of each trade id. -/
def CountedOnce (start : Ledger) (ops : List Op) : Prop :=
  ∀ s, run step start ops = some s →
    (s.counted.map Trade.tradeID).Nodup ∧
      volume s.flushed + s.held = total (firsts Trade.tradeID (deliveries ops))

def NoRedeliveryAcrossFlush (ops : List Op) : Prop :=
  (candleList ops).Pairwise fun c d => ∀ t ∈ c, ∀ u ∈ d, t.tradeID ≠ u.tradeID

theorem run_total (s : Ledger) (ops : List Op) : ∃ s', run step s ops = some s' := by
  induction ops generalizing s with
  | nil => exact ⟨s, rfl⟩
  | cons op ops ih =>
    cases op with
    | processTrade t => exact ih _
    | flush => exact ih _

theorem deliveries_eq_flatten (ops : List Op) : deliveries ops = (candleList ops).flatten := by
  induction ops with
  | nil => rfl
  | cons op ops ih =>
    cases op with
    | processTrade t => simp [deliveries, ih, candleList, candles]
    | flush => simp [deliveries, ih, candleList, candles]

/- What the run counts: the first deliveries of each candle, and of the candle in
   progress only those the aggregator has not seen yet. -/
theorem counted_run {s s' : Ledger} {ops : List Op} (reach : run step s ops = some s') :
    s'.counted = s.counted ++
      ((firsts Trade.tradeID (candles ops).1).filter fun t => t.tradeID ∉ s.agg.seen) ++
      (candles ops).2.flatMap (firsts Trade.tradeID) := by
  induction ops generalizing s with
  | nil =>
    simp only [run_nil, Option.some.injEq] at reach
    simp [← reach, candles, firsts]
  | cons op ops ih =>
    cases op with
    | processTrade t =>
      have later := ih reach
      simp only [processTrade_seen_set] at later
      rw [later]
      simp only [candles, firsts, List.append_assoc]
      by_cases old : t.tradeID ∈ s.agg.seen
      · simp only [old, ↓reduceIte, not_true_eq_false, decide_false, Bool.false_eq_true,
          not_false_eq_true, List.filter_cons_of_neg, List.filter_filter, Finset.insert_eq_of_mem]
        congr 2
        apply List.filter_congr
        intro u _
        by_cases same : u.tradeID = t.tradeID
        · simp [same, old]
        · simp [same]
      · simp only [old, ↓reduceIte, not_false_eq_true, decide_true, List.filter_cons_of_pos,
          List.filter_filter, List.append_assoc, List.cons_append, List.nil_append]
        congr 3
        apply List.filter_congr
        intro u _
        simp [Finset.mem_insert, not_or, Bool.and_comm]
    | flush =>
      have later := ih reach
      rw [later]
      simp [candles, firsts]

/- Every quantity that is counted is in a held or a flushed cell, and no other. -/
theorem volume_step {s s' : Ledger} {op : Op} (taken : step s op = some s')
    (balance : volume s.flushed + s.held = total s.counted) :
    volume s'.flushed + s'.held = total s'.counted := by
  cases op with
  | processTrade t =>
    simp only [step, Option.some.injEq] at taken
    subst s'
    by_cases old : t.tradeID ∈ s.agg.seen
    · simpa [processTrade_seen old, old, Ledger.held] using balance
    · have added := sum_upsert (fun c : ClusterCell => c.bid + c.ask) (s.agg.bin t) t.qty
        (addTrade (s.agg.bin t) t) (by unfold addTrade addTradeBy; split <;> simp)
        (by intro c; unfold addTrade addTradeBy; split <;> simp <;> ring) s.agg.cells
      have held : (processTrade s.agg t).1.cells =
        upsert (s.agg.bin t) (addTrade (s.agg.bin t) t) s.agg.cells := processTrade_cells old
      simp only [Ledger.held, volume, total, List.map_map, Function.comp_def, held, old,
        ↓reduceIte, List.map_append, List.map_cons, List.map_nil, List.sum_append, List.sum_cons,
        List.sum_nil, add_zero] at balance added ⊢
      rw [added]
      linarith
  | flush =>
    simp only [step, Option.some.injEq] at taken
    subst s'
    simpa [Ledger.held, volume] using balance

theorem volume_run {s s' : Ledger} {ops : List Op} (reach : run step s ops = some s')
    (balance : volume s.flushed + s.held = total s.counted) :
    volume s'.flushed + s'.held = total s'.counted :=
  invariant_run (fun s => volume s.flushed + s.held = total s.counted) (fun _ _ => True)
    (fun _ _ _ kept _ taken => volume_step taken kept) balance
    (guarded_of_events (by simp)) reach

theorem firsts_flatten {candles : List (List Trade)}
    (apart : candles.Pairwise fun c d => ∀ t ∈ c, ∀ u ∈ d, t.tradeID ≠ u.tradeID) :
    firsts Trade.tradeID candles.flatten = candles.flatMap (firsts Trade.tradeID) := by
  induction candles with
  | nil => rfl
  | cons c rest ih =>
    obtain ⟨first, rest_apart⟩ := List.pairwise_cons.mp apart
    rw [List.flatten_cons, firsts_append, ih rest_apart, List.flatMap_cons]
    congr 1
    apply List.filter_eq_self.mpr
    intro u hu
    obtain ⟨d, hd, inside⟩ := List.mem_flatMap.mp hu
    have key : u.tradeID ∈ d.map Trade.tradeID :=
      (mem_firsts_keys Trade.tradeID d u.tradeID).mp (List.mem_map_of_mem inside)
    obtain ⟨v, hv, same⟩ := List.mem_map.mp key
    simp only [decide_eq_true_eq, List.mem_map, not_exists, not_and]
    intro t ht
    rw [← same]
    exact first d hd t ht v hv

theorem counted_nodup_iff (candles : List (List Trade)) :
    ((candles.flatMap (firsts Trade.tradeID)).map Trade.tradeID).Nodup ↔
      candles.Pairwise fun c d => ∀ t ∈ c, ∀ u ∈ d, t.tradeID ≠ u.tradeID := by
  rw [List.map_flatMap, List.nodup_flatMap]
  have apart_iff : ∀ c d : List Trade,
      List.Disjoint ((firsts Trade.tradeID c).map Trade.tradeID)
        ((firsts Trade.tradeID d).map Trade.tradeID) ↔
      ∀ t ∈ c, ∀ u ∈ d, t.tradeID ≠ u.tradeID := by
    intro c d
    constructor
    · intro apart t ht u hu same
      have inC := (mem_firsts_keys Trade.tradeID c _).mpr (List.mem_map_of_mem ht)
      have inD := (mem_firsts_keys Trade.tradeID d _).mpr (List.mem_map_of_mem hu)
      exact apart inC (same ▸ inD)
    · intro apart k inC inD
      obtain ⟨t, ht, rfl⟩ := List.mem_map.mp ((mem_firsts_keys Trade.tradeID c _).mp inC)
      obtain ⟨u, hu, same⟩ := List.mem_map.mp ((mem_firsts_keys Trade.tradeID d _).mp inD)
      exact apart t ht u hu same.symm
  constructor
  · rintro ⟨_, apart⟩
    exact apart.imp fun h => (apart_iff _ _).mp h
  · intro apart
    exact ⟨fun c _ => firsts_keys_nodup Trade.tradeID c,
      apart.imp fun h => (apart_iff _ _).mpr h⟩

theorem counted_of_fresh {symbol market tf : String} {tickSize : ℚ} {compression : UInt32}
    {ops : List Op} {s : Ledger} (reach : run step (fresh symbol market tf tickSize compression) ops = some s) :
    s.counted = (candleList ops).flatMap (firsts Trade.tradeID) := by
  have counted := counted_run reach
  simpa [fresh, newAggregator, candleList] using counted

/- Flush forgets the seen ids, so the aggregator counts a trade once exactly when no
   trade is delivered again after a Flush. -/
theorem counted_once_iff (symbol market tf : String) (tickSize : ℚ) (compression : UInt32)
    (ops : List Op) :
    CountedOnce (fresh symbol market tf tickSize compression) ops ↔
      NoRedeliveryAcrossFlush ops := by
  obtain ⟨s, reach⟩ := run_total (fresh symbol market tf tickSize compression) ops
  have counted := counted_of_fresh reach
  constructor
  · intro once
    have distinct := (once s reach).1
    rw [counted] at distinct
    exact (counted_nodup_iff _).mp distinct
  · intro apart s' reach'
    obtain rfl : s' = s := Option.some.inj (reach'.symm.trans reach)
    refine ⟨by rw [counted]; exact (counted_nodup_iff _).mpr apart, ?_⟩
    have balance := volume_run reach (by simp [fresh, newAggregator, Ledger.held, volume, total])
    rw [balance, counted, deliveries_eq_flatten, firsts_flatten apart]

def sampleTrade (id : ℤ) : Trade := ⟨id, 100, 1, 30000, true⟩

/-- The same trade before and after a candle close is counted twice. -/
theorem redelivery_counted_twice :
    ¬ CountedOnce (fresh "BTCUSDT" "futures" "1m" (1 / 10) 25)
      [.processTrade (sampleTrade 7), .flush, .processTrade (sampleTrade 7)] := by
  intro once
  have distinct := (once _ rfl).1
  revert distinct
  decide +kernel

end TradeLedger
