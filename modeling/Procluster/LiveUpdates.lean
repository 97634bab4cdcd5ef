import Procluster.LiveIngest

/-!
The live hash beside the aggregator. runConn sends every streamed trade to Redis, also
one that ProcessTrade dropped, and no trade of FillGap.
-/
namespace LiveUpdates
open Aggregate EventRuns LiveIngest

/-- The update of the trade in hand, once a lane has processed it and until it is sent. -/
def due (s : Live) (i : ℕ) : List Update :=
  match s.stage with
  | .fillGap t j _ _ | .gapTrades t j _ | .incr t j =>
    if j = i then [updateOf s.cfg (s.lane i).timeframe t] else []
  | _ => []

/-- What was sent to Redis, with what is due, is what the aggregator accepted. -/
def Matched (cfg : WSConfig) (l : Lane) (due : List Update) : Prop :=
  (l.sent ++ due).Perm (l.accepted.map (updateOf cfg l.timeframe))

def SameTrades (cfg : WSConfig) (s : Live) : Prop := ∀ i, Matched cfg (s.lane i) (due s i)

/-- A streamed trade is new to the aggregator, and FillGap returned only trades the
    aggregator has seen. -/
def OnlyStreamed (s : Live) : Event → Prop
  | .processTrade =>
    match s.stage with
    | .process t i => t.tradeID ∉ (s.lane i).agg.seen
    | _ => True
  | .gapTrade =>
    match s.stage with
    | .gapTrades _ i (g :: _) => g.tradeID ∈ (s.lane i).agg.seen
    | _ => True
  | _ => True

theorem matched_process_iff {cfg : WSConfig} {l : Lane} (matched : Matched cfg l []) (t : Trade) :
    Matched cfg (l.process t) [updateOf cfg l.timeframe t] ↔ t.tradeID ∉ l.agg.seen := by
  simp only [Matched, List.append_nil] at matched
  simp only [Matched, Lane.process]
  by_cases old : t.tradeID ∈ l.agg.seen
  · simp only [old, ↓reduceIte, not_true_eq_false, iff_false]
    intro still
    have length := still.length_eq.trans matched.length_eq.symm
    simp at length
  · simp only [old, ↓reduceIte, not_false_eq_true, iff_true, List.map_append]
    exact matched.append_right _

theorem matched_gap_iff {cfg : WSConfig} {l : Lane} {due : List Update}
    (matched : Matched cfg l due) (g : Trade) :
    Matched cfg (l.process g) due ↔ g.tradeID ∈ l.agg.seen := by
  simp only [Matched] at matched
  simp only [Matched, Lane.process]
  by_cases old : g.tradeID ∈ l.agg.seen
  · simp only [old, ↓reduceIte, iff_true]
    exact matched
  · simp only [old, ↓reduceIte, iff_false]
    intro still
    have length := still.length_eq.symm.trans matched.length_eq
    simp at length

theorem laneStep_books {cfg : WSConfig} {l l' : Lane} {e : LaneEvent}
    (taken : laneStep cfg l e = some l') (process : ∀ t, e ≠ .processTrade t)
    (incr : ∀ u, e ≠ .incrCell u) :
    l'.timeframe = l.timeframe ∧ l'.sent = l.sent ∧ l'.accepted = l.accepted := by
  cases laneStep_moves taken with
  | process t => exact absurd rfl (process t)
  | incr u => exact absurd rfl (incr u)
  | arm | flush | inserted | insertFailed | cached | deleted | notified => exact ⟨rfl, rfl, rfl⟩

theorem sameTrades_update {cfg : WSConfig} {s s' : Live} {i : ℕ} {l : Lane}
    (same : SameTrades cfg s) (lanes : s'.lane = Function.update s.lane i l)
    (others : ∀ j, j ≠ i → due s' j = due s j) :
    SameTrades cfg s' ↔ Matched cfg l (due s' i) := by
  constructor
  · intro all
    have here := all i
    rwa [lanes, Function.update_self] at here
  · intro here j
    by_cases at_lane : j = i
    · subst at_lane
      rwa [lanes, Function.update_self]
    · rw [lanes, Function.update_of_ne at_lane, others j at_lane]
      exact same j

theorem sameTrades_of_due {cfg : WSConfig} {s s' : Live} (same : SameTrades cfg s)
    (lanes : s'.lane = s.lane) (dues : ∀ i, due s' i = due s i) : SameTrades cfg s' := by
  intro i
  rw [lanes, dues]
  exact same i

theorem sameTrades_closer {cfg : WSConfig} {s s' : Live} {i : ℕ} {e : LaneEvent} {l : Lane}
    (same : SameTrades cfg s) (taken : laneStep s.cfg (s.lane i) e = some l)
    (process : ∀ t, e ≠ .processTrade t) (incr : ∀ u, e ≠ .incrCell u)
    (lanes : s'.lane = Function.update s.lane i l) (config : s'.cfg = s.cfg)
    (stage : s'.stage = s.stage) : SameTrades cfg s' := by
  obtain ⟨timeframe, sent, accepted⟩ := laneStep_books taken process incr
  have frames : ∀ j, (s'.lane j).timeframe = (s.lane j).timeframe := by
    intro j
    rw [lanes]
    by_cases at_lane : j = i
    · subst at_lane
      rw [Function.update_self, timeframe]
    · rw [Function.update_of_ne at_lane]
  have dues : ∀ j, due s' j = due s j := by
    intro j
    simp only [due, stage, config, frames]
  rw [sameTrades_update same lanes (fun j _ => dues j), dues]
  unfold Matched
  rw [timeframe, sent, accepted]
  exact same i

theorem due_loopAt {s s' : Live} {t : Trade} {i : ℕ} (stage : s'.stage = s.loopAt t i) (j : ℕ) :
    due s' j = [] := by
  by_cases more : i < s.count
  · simp only [due, stage, Live.loopAt, more, ↓reduceIte]
  · simp only [due, stage, Live.loopAt, more, ↓reduceIte]

def InHand (s : Live) (t : Trade) (i : ℕ) : Prop :=
  s.stage = .incr t i ∨ (∃ a b, s.stage = .fillGap t i a b) ∨ ∃ rest, s.stage = .gapTrades t i rest

theorem due_inHand {s : Live} {t : Trade} {i : ℕ} (hand : InHand s t i) (j : ℕ) :
    due s j = if i = j then [updateOf s.cfg (s.lane j).timeframe t] else [] := by
  obtain stage | ⟨a, b, stage⟩ | ⟨rest, stage⟩ := hand
  · simp only [due, stage]
  · simp only [due, stage]
  · simp only [due, stage]

theorem due_inHand_other {s : Live} {t : Trade} {i : ℕ} (hand : InHand s t i) {j : ℕ}
    (other : j ≠ i) : due s j = [] := by
  rw [due_inHand hand, if_neg (Ne.symm other)]

theorem sameTrades_inHand {cfg : WSConfig} {s s' : Live} {t : Trade} {i : ℕ}
    (same : SameTrades cfg s) (before : InHand s t i) (after : InHand s' t i)
    (config : s'.cfg = s.cfg) (lanes : s'.lane = s.lane) : SameTrades cfg s' := by
  apply sameTrades_of_due same lanes
  intro j
  rw [due_inHand after, due_inHand before, config, lanes]

theorem sameTrades_processTrade {cfg : WSConfig} {s s' : Live} {t : Trade} {i : ℕ}
    (same : SameTrades cfg s) (stage : s.stage = .process t i) (after : InHand s' t i)
    (config : s'.cfg = cfg) (lanes : s'.lane = Function.update s.lane i ((s.lane i).process t)) :
    SameTrades cfg s' ↔ t.tradeID ∉ (s.lane i).agg.seen := by
  have idle : ∀ j, due s j = [] := by
    intro j
    simp only [due, stage]
  have before := same i
  rw [idle] at before
  have others : ∀ j, j ≠ i → due s' j = due s j := by
    intro j other
    rw [due_inHand_other after other, idle]
  rw [sameTrades_update same lanes others, due_inHand after, if_pos rfl, lanes,
    Function.update_self, process_timeframe, config]
  exact matched_process_iff before t

theorem sameTrades_gapTrade {cfg : WSConfig} {s s' : Live} {t g : Trade} {i : ℕ}
    (same : SameTrades cfg s) (before : InHand s t i) (after : InHand s' t i)
    (config : s'.cfg = s.cfg) (lanes : s'.lane = Function.update s.lane i ((s.lane i).process g)) :
    SameTrades cfg s' ↔ g.tradeID ∈ (s.lane i).agg.seen := by
  have others : ∀ j, j ≠ i → due s' j = due s j := by
    intro j other
    rw [due_inHand_other after other, due_inHand_other before other]
  have unchanged : due s' i = due s i := by
    rw [due_inHand after, due_inHand before, if_pos rfl, if_pos rfl, config, lanes,
      Function.update_self, process_timeframe]
  rw [sameTrades_update same lanes others, unchanged]
  exact matched_gap_iff (same i) g

theorem sameTrades_incrCell {cfg : WSConfig} {s s' : Live} {t : Trade} {i : ℕ}
    (same : SameTrades cfg s) (before : InHand s t i) (after : ∀ j, due s' j = [])
    (lanes : s'.lane = Function.update s.lane i { s.lane i with
      sent := (s.lane i).sent ++ [updateOf s.cfg (s.lane i).timeframe t] }) : SameTrades cfg s' := by
  have others : ∀ j, j ≠ i → due s' j = due s j := by
    intro j other
    rw [after, due_inHand_other before other]
  rw [sameTrades_update same lanes others, after]
  have matched := same i
  rw [due_inHand before, if_pos rfl] at matched
  simpa only [Matched, List.append_nil] using matched

theorem sameTrades_iff {cfg : WSConfig} {s s' : Live} {e : Event} (config : s.cfg = cfg)
    (same : SameTrades cfg s) (taken : step s e = some s') :
    SameTrades cfg s' ↔ OnlyStreamed s e := by
  cases step_steps taken with
  | advance ms => exact iff_of_true (sameTrades_of_due same rfl fun _ => rfl) trivial
  | message here =>
    refine iff_of_true (sameTrades_of_due same rfl ?_) trivial
    intro i
    rw [due_loopAt rfl]
    simp only [due, here]
  | @process t i here =>
    simp only [OnlyStreamed, here]
    refine sameTrades_processTrade same here ?_ config rfl
    cases gap : (Aggregate.processTrade (s.lane i).agg t).2 with
    | none => exact .inl rfl
    | some range => exact .inr (.inl ⟨_, _, rfl⟩)
  | fillGap reply here =>
    refine iff_of_true (sameTrades_inHand same (.inr (.inl ⟨_, _, here⟩)) ?_ rfl rfl) trivial
    cases reply with
    | none => exact .inl rfl
    | some trades => exact .inr (.inr ⟨_, rfl⟩)
  | gapDone here =>
    simp only [OnlyStreamed, here, iff_true]
    exact sameTrades_inHand same (.inr (.inr ⟨_, here⟩)) (.inl rfl) rfl rfl
  | gapTrade here =>
    simp only [OnlyStreamed, here]
    exact sameTrades_gapTrade same (.inr (.inr ⟨_, here⟩)) (.inr (.inr ⟨_, rfl⟩)) rfl rfl
  | incr readOk here update =>
    subst update
    exact iff_of_true (sameTrades_incrCell same (.inl here) (fun _ => rfl) rfl) trivial
  | hSet ok here =>
    refine iff_of_true (sameTrades_of_due same rfl ?_) trivial
    intro i
    rw [due_loopAt rfl]
    simp only [due, here]
  | deleted ok moved =>
    exact iff_of_true (sameTrades_closer same moved (by simp) (by simp) rfl rfl rfl) trivial
  | closer acts moved =>
    cases e with
    | arm i | flush i | batchInsert i ok | setLastCandle i ok | notify i =>
      cases acts
      exact iff_of_true (sameTrades_closer same moved (by simp) (by simp) rfl rfl rfl) trivial
    | _ => cases acts

theorem same_trades_sent_iff (cfg : WSConfig) (timeframes : List String) (onClose : Bool)
    (clock : ℕ) (store : RedisCache.Store) (events : List Event) :
    Always step (SameTrades cfg) (start cfg timeframes onClose clock store) events ↔
      Guarded step OnlyStreamed (start cfg timeframes onClose clock store) events := by
  apply always_iff_guarded (fun s => s.cfg = cfg ∧ SameTrades cfg s)
  · intro s inv
    exact inv.2
  · intro s e s' inv meets taken
    exact ⟨(step_lanes taken).1.trans inv.1, (sameTrades_iff inv.1 inv.2 taken).mpr meets⟩
  · intro s e s' inv fails taken still
    exact fails ((sameTrades_iff inv.1 inv.2 taken).mp still)
  · exact ⟨rfl, fun _ => List.Perm.refl _⟩

/-- The same trade delivered twice is sent twice and accepted once. -/
theorem duplicate_sent_again :
    ¬ Always step (SameTrades sampleConfig) (start sampleConfig ["1m"] true 30000 [])
      [.message (sampleTrade 1 30000), .processTrade, .incrCell true, .hSet true,
        .message (sampleTrade 1 30000), .processTrade, .incrCell true, .hSet true] := by
  intro always
  have reached : (run step (start sampleConfig ["1m"] true 30000 [])
      [.message (sampleTrade 1 30000), .processTrade, .incrCell true, .hSet true,
        .message (sampleTrade 1 30000), .processTrade, .incrCell true, .hSet true]).map
        (fun s => ((s.lane 0).sent.length + (due s 0).length, (s.lane 0).accepted.length)) =
      some (2, 1) := by
    decide +kernel
  obtain ⟨s, reach, lengths⟩ := Option.map_eq_some_iff.mp reached
  have same := (always_final always reach 0).length_eq
  simp only [List.length_append, List.length_map, Prod.mk.injEq] at same lengths
  omega

end LiveUpdates
