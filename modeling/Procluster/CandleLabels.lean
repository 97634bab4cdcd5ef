import Procluster.LiveIngest

/-!
The candle time that the live path writes on a trade. The history pipeline keys its
aggregators by the trade's own candle time; the closer writes the boundary it woke up
for on whatever the aggregator holds then.
-/
namespace CandleLabels
open Aggregate EventRuns LiveIngest

def WrittenUnderOwnTime (cfg : WSConfig) (tf : String) (r : CloseRecord) (t : Trade) : Prop :=
  (∃ row ∈ r.rows, row.price = cfg.bin t ∧ row.candleTime = candleTimeUnix t.tradeTimeMs tf) ∧
  (∃ candle ∈ r.cached, candle.time = candleTimeUnix t.tradeTimeMs tf ∧
    cfg.bin t ∈ candle.cells.map ClusterCell.price) ∧
  ∃ n ∈ r.notified, n.1 = candleTimeUnix t.tradeTimeMs tf ∧ cfg.bin t ∈ n.2.map ClusterCell.price

def Labelled (cfg : WSConfig) (l : Lane) : Prop :=
  ∀ r ∈ l.closes, ∀ t ∈ r.trades, WrittenUnderOwnTime cfg l.timeframe r t

def StartsAt (tf : String) (boundary : ℤ) (t : Trade) : Prop :=
  ∃ secs ∈ tfSeconds tf, boundary ≤ t.tradeTimeMs / 1000 ∧ t.tradeTimeMs / 1000 < boundary + secs

/-- A flush with held trades has a cell to write, the insert and the cache write
    succeed, a callback is set, and at a boundary only trades are closed that lie in the
    timeframe starting there and whose cell was not filtered out. -/
def ClosedInTime (cfg : WSConfig) (l : Lane) : LaneEvent → Prop
  | .flush _ => nonEmpty l.agg.currentCells = [] → l.held = []
  | .batchInsert ok => ok = true
  | .notify =>
    match l.closer with
    | .notifying b cached => l.onClose = true ∧ cached.isSome ∧
      ∀ t ∈ b.trades, cfg.bin t ∈ b.cells.map ClusterCell.price ∧ StartsAt l.timeframe b.label t
    | _ => True
  | _ => True

theorem label_eq_iff {tf : String} {boundary : ℤ} (grid : OnGrid tf boundary) (t : Trade) :
    candleTimeUnix t.tradeTimeMs tf = boundary ↔ StartsAt tf boundary t := by
  obtain ⟨positive, secs, known, divides⟩ := grid
  rw [candleTimeUnix_eq_iff known t.tradeTimeMs positive divides]
  simp only [StartsAt, Option.mem_def] at known ⊢
  simp only [known, Option.some.injEq, exists_eq_left']

theorem written_iff {cfg : WSConfig} {tf : String} {b : Batch} (sound : BatchSound cfg tf b)
    {cached : Option ClusterCandle} (made : ∀ candle ∈ cached, candle = candleOf cfg b)
    (onClose : Bool) (t : Trade) :
    WrittenUnderOwnTime cfg tf ⟨b.trades, rowsOf cfg tf b, cached,
      if onClose then some (b.label, b.cells) else none⟩ t ↔
      onClose = true ∧ cached.isSome ∧ cfg.bin t ∈ b.cells.map ClusterCell.price ∧
        StartsAt tf b.label t := by
  rw [← label_eq_iff sound.label t]
  constructor
  · intro written
    obtain ⟨_, ⟨candle, isCached, _⟩, n, notified, time, cell⟩ := written
    cases onClose with
    | false => cases notified
    | true =>
      simp only [↓reduceIte, Option.mem_def, Option.some.injEq] at notified
      subst n
      exact ⟨rfl, Option.isSome_of_mem isCached, cell, time.symm⟩
  · intro condition
    obtain ⟨callback, isCached, cell, time⟩ := condition
    obtain ⟨candle, isCached⟩ := Option.isSome_iff_exists.mp isCached
    have frame := candleLoop_frame (fun c => c.price + cfg.compression.toNat * cfg.tickSize)
      b.label b.cells
    subst onClose
    refine ⟨?_, ⟨candle, isCached, ?_, ?_⟩, (b.label, b.cells), rfl, time.symm, cell⟩
    · obtain ⟨c, hc, price⟩ := List.mem_map.mp cell
      exact ⟨_, List.mem_map_of_mem hc, price, time.symm⟩
    · rw [made candle isCached, time]
      exact frame.1
    · rw [made candle isCached, candleOf, frame.2]
      exact cell

theorem labelled_append {cfg : WSConfig} {l : Lane} (labelled : Labelled cfg l) (r : CloseRecord) :
    (∀ q ∈ l.closes ++ [r], ∀ t ∈ q.trades, WrittenUnderOwnTime cfg l.timeframe q t) ↔
      ∀ t ∈ r.trades, WrittenUnderOwnTime cfg l.timeframe r t := by
  constructor
  · intro all
    exact all r (by simp)
  · intro last q hq
    cases List.mem_append.mp hq with
    | inl earlier => exact labelled q earlier
    | inr same => exact List.mem_singleton.mp same ▸ last

theorem unwritten (cfg : WSConfig) (tf : String) (trades : List Trade) (t : Trade) :
    ¬ WrittenUnderOwnTime cfg tf ⟨trades, [], none, none⟩ t := by
  intro written
  obtain ⟨⟨row, inside, _⟩, _⟩ := written
  cases inside

theorem trades_nonempty {cfg : WSConfig} {tf : String} {b : Batch} (sound : BatchSound cfg tf b) :
    ∃ t, t ∈ b.trades := by
  obtain ⟨c, cells, split⟩ := List.exists_cons_of_ne_nil sound.cells
  obtain ⟨t, ht, _⟩ := sound.own c (by rw [split]; simp)
  exact ⟨t, ht⟩

theorem closedInTime_iff {cfg : WSConfig} {l l' : Lane} {e : LaneEvent} (sound : Sound cfg l)
    (labelled : Labelled cfg l) (taken : laneStep cfg l e = some l') :
    Labelled cfg l' ↔ ClosedInTime cfg l e := by
  have closer := sound.closer
  cases laneStep_moves taken with
  | process | incr | arm | cached | deleted => exact iff_of_true labelled trivial
  | flush here late =>
    by_cases empty : nonEmpty l.agg.currentCells = []
    · simp only [Labelled, Lane.flush, flush_output, empty, ↓reduceIte, ClosedInTime,
        true_implies]
      rw [labelled_append labelled]
      simp only [unwritten, imp_false, List.eq_nil_iff_forall_not_mem]
    · simp only [Labelled, Lane.flush, flush_output, empty, ↓reduceIte, ClosedInTime,
        false_implies, iff_true]
      exact labelled
  | inserted here => exact iff_of_true labelled rfl
  | insertFailed here =>
    rw [here] at closer
    refine iff_of_false ?_ (by simp [ClosedInTime])
    intro still
    obtain ⟨t, ht⟩ := trades_nonempty closer
    exact unwritten cfg _ _ t ((labelled_append labelled _).mp still t ht)
  | notified here =>
    rw [here] at closer
    simp only [Labelled, ClosedInTime, here]
    rw [labelled_append labelled]
    simp only [written_iff closer.1 closer.2]
    constructor
    · intro all
      obtain ⟨t, ht⟩ := trades_nonempty closer.1
      exact ⟨(all t ht).1, (all t ht).2.1, fun u hu => (all u hu).2.2⟩
    · intro condition t ht
      exact ⟨condition.1, condition.2.1, condition.2.2 t ht⟩

theorem every_trade_labelled_iff (cfg : WSConfig) (timeframes : List String) (onClose : Bool)
    (clock : ℕ) (store : RedisCache.Store) (events : List Event) :
    Always step (fun s => ∀ i, Labelled cfg (s.lane i)) (start cfg timeframes onClose clock store)
      events ↔
      Guarded step (LaneGuard (ClosedInTime cfg)) (start cfg timeframes onClose clock store) events := by
  apply lanes_always_iff (fun l => Sound cfg l ∧ Labelled cfg l)
  · intro l inv
    exact inv.2
  · intro l e l' inv meets taken
    exact ⟨laneStep_sound inv.1 taken, (closedInTime_iff inv.1 inv.2 taken).mpr meets⟩
  · intro l e l' inv fails taken still
    exact fails ((closedInTime_iff inv.1 inv.2 taken).mp still)
  · rfl
  · intro i
    exact ⟨newLane_sound cfg onClose _, by simp [Labelled, start, newLane]⟩

/-- A trade of 00:30 is closed at 01:00.2 and written under 01:00, not under 00:00. -/
theorem trade_labelled_with_close_boundary :
    ¬ Always step (fun s => ∀ i, Labelled sampleConfig (s.lane i))
      (start sampleConfig ["1m"] true 30000 [])
      [.message (sampleTrade 1 30000), .processTrade, .arm 0, .advance 30200, .flush 0,
        .batchInsert 0 true, .setLastCandle 0 true, .delAggKey 0 true, .notify 0] := by
  intro always
  have reached : (run step (start sampleConfig ["1m"] true 30000 [])
      [.message (sampleTrade 1 30000), .processTrade, .arm 0, .advance 30200, .flush 0,
        .batchInsert 0 true, .setLastCandle 0 true, .delAggKey 0 true, .notify 0]).map
        (fun s => (s.lane 0).closes.any fun r => r.trades.any fun t => r.rows.all fun row =>
          row.candleTime ≠ candleTimeUnix t.tradeTimeMs (s.lane 0).timeframe) = some true := by
    decide +kernel
  obtain ⟨s, reach, mislabelled⟩ := Option.map_eq_some_iff.mp reached
  simp only [List.any_eq_true, List.all_eq_true, decide_eq_true_eq] at mislabelled
  obtain ⟨r, hr, t, ht, other⟩ := mislabelled
  obtain ⟨⟨row, inside, _, time⟩, _⟩ := always_final always reach 0 r hr t ht
  exact other row inside time

end CandleLabels
