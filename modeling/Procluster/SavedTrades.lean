import Procluster.LiveIngest

/-!
Which accepted trades survive failed writes. Flush takes the trades out of the
aggregator before the insert is tried, and nothing tries a failed insert again.
-/
namespace SavedTrades
open Aggregate EventRuns LiveIngest

def pending (cfg : WSConfig) (l : Lane) : List Trade :=
  match l.closer with
  | .inserting b => b.kept cfg
  | _ => []

/-- Every accepted trade is held by the aggregator, in a batch on its way to the table,
    or in one whose insert succeeded. -/
def NoTradeLost (cfg : WSConfig) (l : Lane) : Prop :=
  l.accepted.Perm (l.held ++ pending cfg l ++ l.saved)

/-- No cell of a held trade is filtered out as empty, and no insert fails. -/
def Written (cfg : WSConfig) (l : Lane) : LaneEvent → Prop
  | .flush _ => ∀ t ∈ l.held, cfg.bin t ∈ (nonEmpty l.agg.currentCells).map ClusterCell.price
  | .batchInsert ok => ok = true
  | _ => True

theorem pending_of_other {cfg : WSConfig} {l : Lane} (other : ∀ b, l.closer ≠ .inserting b) :
    pending cfg l = [] := by
  unfold pending
  split
  · rename_i b here
    exact absurd here (other b)
  · rfl

theorem pending_process (cfg : WSConfig) (l : Lane) (t : Trade) :
    pending cfg (l.process t) = pending cfg l := rfl

theorem process_keeps {cfg : WSConfig} {l : Lane} (kept : NoTradeLost cfg l) (t : Trade) :
    NoTradeLost cfg (l.process t) := by
  unfold NoTradeLost at kept ⊢
  rw [pending_process]
  by_cases old : t.tradeID ∈ l.agg.seen
  · simpa only [Lane.process, old, ↓reduceIte] using kept
  · simp only [Lane.process, old, ↓reduceIte]
    have moved : (l.held ++ pending cfg l ++ l.saved ++ [t]).Perm
        (l.held ++ [t] ++ pending cfg l ++ l.saved) := by
      rw [List.perm_iff_count]
      intro u
      simp only [List.count_append]
      omega
    exact (kept.append_right [t]).trans moved

theorem pending_flush (cfg : WSConfig) (l : Lane) (next : ℤ) :
    pending cfg (l.flush next) = l.held.filter fun t =>
      cfg.bin t ∈ (nonEmpty l.agg.currentCells).map ClusterCell.price := by
  simp only [pending, Lane.flush, flush_output]
  by_cases empty : nonEmpty l.agg.currentCells = []
  · simp [empty]
  · simp only [empty, ↓reduceIte, Batch.kept]

theorem flush_keeps_iff {cfg : WSConfig} {l : Lane} (kept : NoTradeLost cfg l)
    (idle : pending cfg l = []) (next : ℤ) :
    NoTradeLost cfg (l.flush next) ↔
      ∀ t ∈ l.held, cfg.bin t ∈ (nonEmpty l.agg.currentCells).map ClusterCell.price := by
  unfold NoTradeLost at kept ⊢
  rw [pending_flush]
  rw [idle, List.append_nil] at kept
  constructor
  · intro still t ht
    have length := still.length_eq.symm.trans kept.length_eq
    simp only [Lane.flush, List.nil_append, List.length_append] at length
    have whole := List.length_filter_eq_length_iff.mp (by omega : (l.held.filter fun t =>
      cfg.bin t ∈ (nonEmpty l.agg.currentCells).map ClusterCell.price).length = l.held.length)
    simpa only [decide_eq_true_eq] using whole t ht
  · intro all
    have whole : (l.held.filter fun t =>
        cfg.bin t ∈ (nonEmpty l.agg.currentCells).map ClusterCell.price) = l.held := by
      apply List.filter_eq_self.mpr
      intro t ht
      simpa only [decide_eq_true_eq] using all t ht
    rw [whole]
    exact kept

theorem written_iff {cfg : WSConfig} {l l' : Lane} {e : LaneEvent} (sound : Sound cfg l)
    (kept : NoTradeLost cfg l) (taken : laneStep cfg l e = some l') :
    NoTradeLost cfg l' ↔ Written cfg l e := by
  have closer := sound.closer
  cases laneStep_moves taken with
  | process t => exact iff_of_true (process_keeps kept t) trivial
  | incr u => exact iff_of_true kept trivial
  | arm here armed =>
    refine iff_of_true ?_ trivial
    simpa only [NoTradeLost, pending, here] using kept
  | flush here late => exact flush_keeps_iff kept (pending_of_other (by simp [here])) _
  | inserted here =>
    simp only [NoTradeLost, pending, here] at kept
    refine iff_of_true ?_ rfl
    simp only [NoTradeLost, pending, List.append_nil]
    exact kept.trans (by rw [List.append_assoc]; exact List.perm_append_comm.append_left _)
  | insertFailed here =>
    -- a batch holds a trade, so what was pending is short of the accepted trades
    rw [here] at closer
    simp only [NoTradeLost, pending, here] at kept
    refine iff_of_false ?_ (by simp [Written])
    intro still
    have length := still.length_eq.symm.trans kept.length_eq
    have lost := List.length_pos_iff.mpr (kept_nonempty closer)
    simp only [pending, List.append_nil, List.length_append] at length
    omega
  | cached ok here =>
    refine iff_of_true ?_ trivial
    simpa only [NoTradeLost, pending, here] using kept
  | deleted here =>
    refine iff_of_true ?_ trivial
    simpa only [NoTradeLost, pending, here] using kept
  | notified here =>
    refine iff_of_true ?_ trivial
    simpa only [NoTradeLost, pending, here] using kept

theorem no_trade_lost_iff (cfg : WSConfig) (timeframes : List String) (onClose : Bool) (clock : ℕ)
    (store : RedisCache.Store) (events : List Event) :
    Always step (fun s => ∀ i, NoTradeLost cfg (s.lane i)) (start cfg timeframes onClose clock store)
      events ↔ Guarded step (LaneGuard (Written cfg)) (start cfg timeframes onClose clock store) events := by
  apply lanes_always_iff (fun l => Sound cfg l ∧ NoTradeLost cfg l)
  · intro l inv
    exact inv.2
  · intro l e l' inv meets taken
    exact ⟨laneStep_sound inv.1 taken, (written_iff inv.1 inv.2 taken).mpr meets⟩
  · intro l e l' inv fails taken still
    exact fails ((written_iff inv.1 inv.2 taken).mp still)
  · rfl
  · intro i
    exact ⟨newLane_sound cfg onClose _, List.Perm.refl _⟩

/-- One trade, one close whose insert fails: the trade is nowhere any more. -/
theorem failed_insert_loses_trade :
    ¬ Always step (fun s => ∀ i, NoTradeLost sampleConfig (s.lane i))
      (start sampleConfig ["1m"] true 30000 [])
      [.message (sampleTrade 1 30000), .processTrade, .arm 0, .advance 30200, .flush 0,
        .batchInsert 0 false] := by
  intro always
  have reached : (run step (start sampleConfig ["1m"] true 30000 [])
      [.message (sampleTrade 1 30000), .processTrade, .arm 0, .advance 30200, .flush 0,
        .batchInsert 0 false]).map (fun s => ((s.lane 0).accepted.length, (s.lane 0).held.length +
          (pending sampleConfig (s.lane 0)).length + (s.lane 0).saved.length)) = some (1, 0) := by
    decide +kernel
  obtain ⟨s, reach, lengths⟩ := Option.map_eq_some_iff.mp reached
  have kept := (always_final always reach 0).length_eq
  simp only [List.length_append, Prod.mk.injEq] at kept lengths
  omega

end SavedTrades
