import Procluster.LiveAndLoaded

/-!
Package ingest: lost messages and the gap filler together. While every gap is filled
with what the exchange has, a lane holds the exchange's trades of one range of ids,
whatever messages a reconnect swallowed, and so does every candle that it closes.
-/
namespace HealedFeed
open Aggregate EventRuns LiveIngest

section Content
variable (content : List Trade)

def between (a b : ℤ) : List Trade := content.filter fun t => a ≤ t.tradeID ∧ t.tradeID ≤ b

def missing : Stage → ℕ → ℤ → Prop
  | .fillGap _ j gapStart gapEnd, i, x => i = j ∧ gapStart ≤ x ∧ x ≤ gapEnd
  | .gapTrades _ j rest, i, x => i = j ∧ x ∈ rest.map Trade.tradeID
  | _, _, _ => False

/-- Up to its largest id an aggregator holds every trade that follows one it holds, those
    that are out apart. -/
structure Contiguous (out : ℤ → Prop) (agg : Aggregator) (held : List Trade) : Prop where
  existing : ∀ t ∈ held, t ∈ content
  distinct : (held.map Trade.tradeID).Nodup
  seen : ∀ x, x ∈ agg.seen ↔ x ∈ held.map Trade.tradeID
  last : held = [] ∧ agg.lastTradeID = 0 ∨ ∃ t ∈ held, t.tradeID = agg.lastTradeID
  below : ∀ t ∈ held, t.tradeID ≤ agg.lastTradeID
  whole : ∀ t ∈ held, ∀ u ∈ content, t.tradeID ≤ u.tradeID → u.tradeID ≤ agg.lastTradeID →
    u ∈ held ∨ out u.tradeID

def Ranged (trades : List Trade) : Prop := ∃ a b, trades.Perm (between content a b)

def CloserRanged : Closer → Prop
  | .head | .waiting _ => True
  | .inserting b | .caching b | .deleting b _ | .notifying b _ => Ranged content b.trades

structure LaneWhole (out : ℤ → Prop) (l : Lane) : Prop where
  held : Contiguous content out l.agg l.held
  closer : CloserRanged content l.closer
  closes : ∀ r ∈ l.closes, Ranged content r.trades

/-- The streamed trade is one of the exchange and not older than all that its lane holds. -/
def Streams (lane : ℕ → Lane) : Stage → Prop
  | .process t i => t ∈ content ∧ ((lane i).held = [] ∨ ∃ u ∈ (lane i).held, u.tradeID ≤ t.tradeID)
  | _ => True

/-- The gap is filled with all that the exchange has of it. -/
def Fills (trades : List Trade) : Stage → Prop
  | .fillGap _ _ a b => (∀ u ∈ trades, u ∈ between content a b) ∧ ∀ u ∈ between content a b, u ∈ trades
  | _ => True

def Undivided (i : ℕ) : Stage → Prop
  | .fillGap _ j _ _ => i ≠ j
  | .gapTrades _ j rest => i = j → rest = []
  | _ => True

/-- What the steps of a healed feed are like; no closer flushes a lane inside its gap. -/
def Heals (s : Live) : Event → Prop
  | .processTrade => Streams content s.lane s.stage
  | .fillGap reply => Fills content (reply.getD []) s.stage
  | .flush i => Undivided i s.stage
  | _ => True

instance (lane : ℕ → Lane) : ∀ stage, Decidable (Streams content lane stage)
  | .process .. => inferInstanceAs (Decidable (_ ∧ _))
  | .read | .fillGap .. | .gapTrades .. | .incr .. | .hSet .. => isTrue trivial

instance (trades : List Trade) : ∀ stage, Decidable (Fills content trades stage)
  | .fillGap .. => inferInstanceAs (Decidable (_ ∧ _))
  | .read | .process .. | .gapTrades .. | .incr .. | .hSet .. => isTrue trivial

instance (i : ℕ) : ∀ stage, Decidable (Undivided i stage)
  | .fillGap .. => inferInstanceAs (Decidable (_ ≠ _))
  | .gapTrades .. => inferInstanceAs (Decidable (_ → _))
  | .read | .process .. | .incr .. | .hSet .. => isTrue trivial

instance (s : Live) : ∀ e, Decidable (Heals content s e)
  | .processTrade => inferInstanceAs (Decidable (Streams content s.lane s.stage))
  | .fillGap reply => inferInstanceAs (Decidable (Fills content (reply.getD []) s.stage))
  | .flush i => inferInstanceAs (Decidable (Undivided i s.stage))
  | .advance _ | .message _ | .gapTrade | .incrCell _ | .hSet _ | .arm _ | .batchInsert .. |
    .setLastCandle .. | .delAggKey .. | .notify _ => isTrue trivial

theorem undivided_missing {i : ℕ} {stage : Stage} (undivided : Undivided i stage) (x : ℤ) :
    ¬ missing stage i x := by
  cases stage with
  | fillGap t j a b =>
    rintro ⟨same, -⟩
    exact undivided same
  | gapTrades t j rest =>
    rintro ⟨same, inside⟩
    simp [undivided same] at inside
  | _ => exact id

/-- Where runConn is inside a gap, the gap lies between two trades of the lane. -/
def StageFits (stage : Stage) (lane : ℕ → Lane) : Prop :=
  match stage with
  | .fillGap _ i a b => a ≤ b ∧ b < (lane i).agg.lastTradeID ∧ ∃ u ∈ (lane i).held, u.tradeID < a
  | .gapTrades _ i rest => ∀ g ∈ rest, g ∈ content ∧ g.tradeID < (lane i).agg.lastTradeID ∧
      ∃ u ∈ (lane i).held, u.tradeID ≤ g.tradeID
  | _ => True

structure Healed (cfg : WSConfig) (s : Live) : Prop where
  config : s.cfg = cfg
  lanes : ∀ i, LaneWhole content (missing s.stage i) (s.lane i)
  stage : StageFits content s.stage s.lane

end Content

section Process
variable {content : List Trade} {l : Lane}

theorem contiguous_new {out later : ℤ → Prop} (held : Contiguous content out l.agg l.held) {t : Trade}
    (existing : t ∈ content) (positive : 0 < t.tradeID) (new : t.tradeID ∉ l.agg.seen)
    (fits : ∀ v ∈ l.held ++ [t], ∀ u ∈ content, v.tradeID ≤ u.tradeID →
      u.tradeID ≤ max l.agg.lastTradeID t.tradeID → u ∈ l.held ++ [t] ∨ later u.tradeID) :
    Contiguous content later (l.process t).agg (l.process t).held := by
  have trades : (l.process t).held = l.held ++ [t] := if_neg new
  have largest : (l.process t).agg.lastTradeID = max l.agg.lastTradeID t.tradeID :=
    processTrade_lastTradeID new
  constructor
  · rw [trades]
    intro u inside
    rcases List.mem_append.mp inside with earlier | last
    · exact held.existing u earlier
    · exact List.mem_singleton.mp last ▸ existing
  · rw [trades, List.map_append, List.nodup_append]
    refine ⟨held.distinct, by simp, ?_⟩
    intro x inside y last same
    obtain rfl : y = t.tradeID := by simpa using last
    exact new ((held.seen _).mpr (same ▸ inside))
  · intro x
    have ids : (l.process t).agg.seen = insert t.tradeID l.agg.seen := processTrade_seen_set _ _
    rw [ids, trades, Finset.mem_insert, held.seen, List.map_append, List.mem_append, List.map_singleton,
      List.mem_singleton, or_comm]
  · right
    rw [trades, largest]
    rcases held.last with ⟨-, zero⟩ | ⟨u, here, same⟩
    · exact ⟨t, by simp, by omega⟩
    · rcases le_total l.agg.lastTradeID t.tradeID with up | down
      · exact ⟨t, by simp, (max_eq_right up).symm⟩
      · exact ⟨u, List.mem_append_left _ here, by rw [same, max_eq_left down]⟩
  · rw [trades, largest]
    intro u inside
    rcases List.mem_append.mp inside with earlier | last
    · exact (held.below u earlier).trans (le_max_left _ _)
    · obtain rfl := List.mem_singleton.mp last
      exact le_max_right _ _
  · rw [trades, largest]
    exact fits

theorem process_old {t : Trade} (old : t.tradeID ∈ l.agg.seen) : l.process t = l := by
  simp only [Lane.process, processTrade_seen old, old, ↓reduceIte]

section Distinct
variable (distinct : (content.map Trade.tradeID).Nodup)
include distinct

theorem same_trade {t u : Trade} (first : t ∈ content) (second : u ∈ content)
    (same : t.tradeID = u.tradeID) : t = u :=
  List.inj_on_of_nodup_map distinct first second same

theorem held_of_seen {out : ℤ → Prop} (held : Contiguous content out l.agg l.held) {t : Trade} (existing : t ∈ content)
    (old : t.tradeID ∈ l.agg.seen) : t ∈ l.held := by
  obtain ⟨u, here, same⟩ := List.mem_map.mp ((held.seen _).mp old)
  exact same_trade distinct (held.existing u here) existing same ▸ here

theorem process_streamed (held : Contiguous content (fun _ => False) l.agg l.held) {t : Trade}
    (existing : t ∈ content) (positive : ∀ u ∈ content, 0 < u.tradeID)
    (follows : l.held = [] ∨ ∃ u ∈ l.held, u.tradeID ≤ t.tradeID) :
    match (processTrade l.agg t).2 with
    | none => Contiguous content (fun _ => False) (l.process t).agg (l.process t).held
    | some (a, b) => Contiguous content (fun x => a ≤ x ∧ x ≤ b) (l.process t).agg (l.process t).held ∧ a ≤ b ∧
        b < (l.process t).agg.lastTradeID ∧ ∃ u ∈ (l.process t).held, u.tradeID < a := by
  by_cases old : t.tradeID ∈ l.agg.seen
  · rw [processTrade_seen old, process_old old]
    exact held
  have absent : t ∉ l.held := fun here => old ((held.seen _).mpr (List.mem_map_of_mem here))
  have lower : ∀ v ∈ l.held ++ [t], ∀ u ∈ content, v.tradeID ≤ u.tradeID →
      u.tradeID ≤ l.agg.lastTradeID → l.agg.lastTradeID < t.tradeID → u ∈ l.held := by
    intro v inside u there after within up
    rcases List.mem_append.mp inside with earlier | last
    · exact (held.whole v earlier u there after within).resolve_right id
    · obtain rfl := List.mem_singleton.mp last
      omega
  -- A new trade is past the largest id, or the lane would hold it.
  have up : l.agg.lastTradeID < t.tradeID := by
    by_contra inside
    rcases follows with empty | ⟨u, here, before⟩
    · have zero : l.agg.lastTradeID = 0 := by
        rcases held.last with ⟨-, zero⟩ | ⟨u, here, -⟩
        · exact zero
        · simp [empty] at here
      have above := positive t existing
      omega
    · exact absent ((held.whole u here t existing before (by omega)).resolve_right id)
  rw [processTrade_gap old]
  by_cases gap : 0 < l.agg.lastTradeID ∧ l.agg.lastTradeID + 1 < t.tradeID
  · rw [if_pos gap]
    have trades : (l.process t).held = l.held ++ [t] := if_neg old
    have largest : (l.process t).agg.lastTradeID = max l.agg.lastTradeID t.tradeID :=
      processTrade_lastTradeID old
    refine ⟨contiguous_new held existing (positive t existing) old ?_, by omega, ?_, ?_⟩
    · intro v inside u there after within
      by_cases low : u.tradeID ≤ l.agg.lastTradeID
      · exact .inl (List.mem_append_left _ (lower v inside u there after low up))
      · by_cases top : u.tradeID = t.tradeID
        · exact .inl (by simp [same_trade distinct there existing top])
        · exact .inr (by omega)
    · rw [largest]
      omega
    · rw [trades]
      rcases held.last with ⟨-, zero⟩ | ⟨u, here, same⟩
      · omega
      · exact ⟨u, List.mem_append_left _ here, by omega⟩
  · rw [if_neg gap]
    apply contiguous_new held existing (positive t existing) old
    intro v inside u there after within
    left
    by_cases low : u.tradeID ≤ l.agg.lastTradeID
    · exact List.mem_append_left _ (lower v inside u there after low up)
    · have top : u.tradeID = t.tradeID := by
        rcases List.mem_append.mp inside with earlier | last
        · have above := positive v (held.existing v earlier)
          have reached := held.below v earlier
          omega
        · obtain rfl := List.mem_singleton.mp last
          omega
      simp [same_trade distinct there existing top]

theorem process_filled {g : Trade} {rest : List Trade}
    (held : Contiguous content (fun x => x ∈ (g :: rest).map Trade.tradeID) l.agg l.held)
    (existing : g ∈ content) (positive : 0 < g.tradeID) (inside : g.tradeID < l.agg.lastTradeID)
    (follows : ∃ u ∈ l.held, u.tradeID ≤ g.tradeID) :
    Contiguous content (fun x => x ∈ rest.map Trade.tradeID) (l.process g).agg (l.process g).held ∧
      (l.process g).agg.lastTradeID = l.agg.lastTradeID ∧ ∀ u ∈ l.held, u ∈ (l.process g).held := by
  by_cases old : g.tradeID ∈ l.agg.seen
  · rw [process_old old]
    refine ⟨{ held with whole := ?_ }, rfl, fun u here => here⟩
    intro v here u there after within
    rcases held.whole v here u there after within with has | lacks
    · exact .inl has
    · rcases List.mem_cons.mp lacks with same | later
      · have own := held_of_seen distinct held existing old
        exact .inl (same_trade distinct there existing same ▸ own)
      · exact .inr later
  · have trades : (l.process g).held = l.held ++ [g] := if_neg old
    have largest : (l.process g).agg.lastTradeID = l.agg.lastTradeID := by
      have last : (l.process g).agg.lastTradeID = max l.agg.lastTradeID g.tradeID :=
        processTrade_lastTradeID old
      omega
    refine ⟨contiguous_new held existing positive old ?_, largest, ?_⟩
    · intro v here u there after within
      obtain ⟨w, first, before⟩ := follows
      have bound : u.tradeID ≤ l.agg.lastTradeID := by omega
      have from_held : u ∈ l.held ∨ u.tradeID ∈ (g :: rest).map Trade.tradeID := by
        rcases List.mem_append.mp here with earlier | last
        · exact held.whole v earlier u there after bound
        · obtain rfl := List.mem_singleton.mp last
          exact held.whole w first u there (before.trans after) bound
      rcases from_held with has | lacks
      · exact .inl (List.mem_append_left _ has)
      · rcases List.mem_cons.mp lacks with same | later
        · exact .inl (by simp [same_trade distinct there existing same])
        · exact .inr later
    · intro u here
      rw [trades]
      exact List.mem_append_left _ here

/- With nothing out a lane holds one range of ids, from its smallest to its largest. -/
theorem ranged_held {out : ℤ → Prop} (held : Contiguous content out l.agg l.held) (complete : ∀ x, ¬ out x) :
    Ranged content l.held := by
  by_cases empty : l.held = []
  · refine ⟨1, 0, ?_⟩
    have nothing : between content 1 0 = [] := by
      apply List.filter_eq_nil_iff.mpr
      intro t _
      rw [decide_eq_true_eq]
      omega
    rw [empty, nothing]
  · obtain ⟨first, here, smallest⟩ := Finset.exists_min_image l.held.toFinset Trade.tradeID
      (List.toFinset_nonempty_iff _ |>.mpr empty)
    rw [List.mem_toFinset] at here
    refine ⟨first.tradeID, l.agg.lastTradeID, ?_⟩
    have once : content.Nodup := distinct.of_map
    apply (List.perm_ext_iff_of_nodup held.distinct.of_map (once.filter _)).mpr
    intro t
    rw [List.mem_filter, decide_eq_true_eq]
    constructor
    · intro inside
      exact ⟨held.existing t inside, smallest t (List.mem_toFinset.mpr inside), held.below t inside⟩
    · rintro ⟨there, after, within⟩
      exact (held.whole first here t there after within).resolve_right (complete _)

end Distinct

end Process

section Closer
variable {content : List Trade} {cfg : WSConfig} {l l' : Lane}

theorem contiguous_empty (content : List Trade) (out : ℤ → Prop) {agg : Aggregator} (seen : agg.seen = ∅)
    (last : agg.lastTradeID = 0) : Contiguous content out agg [] := by
  constructor <;> simp [seen, last]

theorem closes_append {closes : List CloseRecord} {r : CloseRecord}
    (before : ∀ q ∈ closes, Ranged content q.trades) (now : Ranged content r.trades) :
    ∀ q ∈ closes ++ [r], Ranged content q.trades := by
  intro q inside
  rcases List.mem_append.mp inside with earlier | last
  · exact before q earlier
  · exact List.mem_singleton.mp last ▸ now

theorem closer_step (distinct : (content.map Trade.tradeID).Nodup) {out : ℤ → Prop}
    (whole : LaneWhole content out l) {e : LaneEvent} (taken : laneStep cfg l e = some l')
    (flushes : ∀ nowMs, e = .flush nowMs → ∀ x, ¬ out x) (other : ∀ t, e ≠ .processTrade t) :
    LaneWhole content out l' := by
  have closer := whole.closer
  cases laneStep_moves taken with
  | process t => exact absurd rfl (other t)
  | incr u => exact ⟨whole.held, closer, whole.closes⟩
  | arm here armed => exact ⟨whole.held, trivial, whole.closes⟩
  | @flush nowMs next here late =>
    have range := ranged_held distinct whole.held (flushes nowMs rfl)
    refine ⟨contiguous_empty content out rfl rfl, ?_, ?_⟩
    · simp only [Lane.flush]
      split
      · trivial
      · exact range
    · simp only [Lane.flush]
      split
      · exact closes_append whole.closes range
      · exact whole.closes
  | inserted here =>
    rw [here] at closer
    exact ⟨whole.held, closer, whole.closes⟩
  | insertFailed here =>
    rw [here] at closer
    exact ⟨whole.held, trivial, closes_append whole.closes closer⟩
  | cached ok here =>
    rw [here] at closer
    exact ⟨whole.held, closer, whole.closes⟩
  | deleted here =>
    rw [here] at closer
    exact ⟨whole.held, closer, whole.closes⟩
  | notified here =>
    rw [here] at closer
    exact ⟨whole.held, trivial, closes_append whole.closes closer⟩

end Closer

section Run
variable {content : List Trade} {cfg : WSConfig} {s s' : Live}

theorem lanes_update {out out' : ℕ → ℤ → Prop} {lane : ℕ → Lane} {i : ℕ} {l : Lane}
    (whole : ∀ j, LaneWhole content (out j) (lane j)) (others : ∀ j, j ≠ i → out' j = out j)
    (moved : LaneWhole content (out' i) l) (j : ℕ) :
    LaneWhole content (out' j) (Function.update lane i l j) := by
  by_cases same : j = i
  · subst same
    rw [Function.update_self]
    exact moved
  · rw [Function.update_of_ne same, others j same]
    exact whole j

def Quiet : Stage → Prop
  | .fillGap .. | .gapTrades .. => False
  | _ => True

theorem quiet_missing {stage : Stage} (quiet : Quiet stage) (i : ℕ) : missing stage i = fun _ => False := by
  cases stage with
  | fillGap | gapTrades => cases quiet
  | _ => rfl

theorem quiet_fits {stage : Stage} (quiet : Quiet stage) (lane : ℕ → Lane) : StageFits content stage lane := by
  cases stage with
  | fillGap | gapTrades => cases quiet
  | _ => trivial

theorem loopAt_quiet (s : Live) (t : Trade) (i : ℕ) : Quiet (s.loopAt t i) := by
  unfold Live.loopAt
  split <;> trivial

theorem quiet_lanes {stage : Stage} {lane : ℕ → Lane} (quiet : Quiet stage)
    (lanes : ∀ i, LaneWhole content (missing stage i) (lane i)) (i : ℕ) :
    LaneWhole content (fun _ => False) (lane i) := quiet_missing quiet i ▸ lanes i

theorem healed_quiet (config : s.cfg = cfg) (quiet : Quiet s.stage)
    (lanes : ∀ i, LaneWhole content (fun _ => False) (s.lane i)) : Healed content cfg s := by
  refine ⟨config, ?_, quiet_fits quiet _⟩
  intro i
  rw [quiet_missing quiet]
  exact lanes i

theorem lane_out {out out' : ℤ → Prop} {l : Lane} (whole : LaneWhole content out l)
    (still : ∀ u ∈ content, out u.tradeID → out' u.tradeID) : LaneWhole content out' l where
  held := { whole.held with
    whole := fun t here u there after within =>
      (whole.held.whole t here u there after within).imp_right (still u there) }
  closer := whole.closer
  closes := whole.closes

theorem fits_same {stage : Stage} {lane lane' : ℕ → Lane} (fits : StageFits content stage lane)
    (same : ∀ j x, missing stage j x → (lane' j).agg = (lane j).agg ∧ (lane' j).held = (lane j).held) :
    StageFits content stage lane' := by
  cases stage with
  | fillGap t i a b =>
    obtain ⟨agg, held⟩ := same i a ⟨rfl, le_rfl, fits.1⟩
    simpa only [StageFits, agg, held] using fits
  | gapTrades t i rest =>
    intro g inside
    obtain ⟨agg, held⟩ := same i g.tradeID ⟨rfl, List.mem_map_of_mem inside⟩
    rw [agg, held]
    exact fits g inside
  | _ => trivial

theorem closer_frame {l l' : Lane} {e : LaneEvent} (taken : laneStep cfg l e = some l')
    (no_flush : ∀ nowMs, e ≠ .flush nowMs) (other : ∀ t, e ≠ .processTrade t) :
    l'.agg = l.agg ∧ l'.held = l.held := by
  cases laneStep_moves taken with
  | process t => exact absurd rfl (other t)
  | flush here late => exact absurd rfl (no_flush _)
  | _ => exact ⟨rfl, rfl⟩

theorem healed_closer (distinct : (content.map Trade.tradeID).Nodup) {stage : Stage} {lane : ℕ → Lane}
    (lanes : ∀ j, LaneWhole content (missing stage j) (lane j)) (fits : StageFits content stage lane)
    {i : ℕ} {e : LaneEvent} {l : Lane} (moved : laneStep cfg (lane i) e = some l)
    (flushes : ∀ nowMs, e = .flush nowMs → ∀ x, ¬ missing stage i x) (other : ∀ t, e ≠ .processTrade t) :
    (∀ j, LaneWhole content (missing stage j) (Function.update lane i l j)) ∧
      StageFits content stage (Function.update lane i l) := by
  refine ⟨lanes_update lanes (fun _ _ => rfl) (closer_step distinct (lanes i) moved flushes other),
    fits_same fits ?_⟩
  intro j x lacks
  by_cases same : j = i
  · subst same
    rw [Function.update_self]
    exact closer_frame moved (fun nowMs flush => flushes nowMs flush x lacks) other
  · rw [Function.update_of_ne same]
    exact ⟨rfl, rfl⟩

theorem healed_process (distinct : (content.map Trade.tradeID).Nodup)
    (positive : ∀ t ∈ content, 0 < t.tradeID) (healed : Healed content cfg s) {t : Trade} {i : ℕ}
    (here : s.stage = .process t i) (heals : Heals content s .processTrade) :
    Healed content cfg { s with
      lane := Function.update s.lane i ((s.lane i).process t)
      stage := match (processTrade (s.lane i).agg t).2 with
        | none => .incr t i
        | some (gapStart, gapEnd) => .fillGap t i gapStart gapEnd } := by
  obtain ⟨config, lanes, -⟩ := healed
  have before := quiet_lanes (by rw [here]; trivial) lanes
  obtain ⟨existing, follows⟩ : Streams content s.lane (.process t i) := here ▸ heals
  have streamed := process_streamed distinct (before i).held existing positive follows
  cases gap : (processTrade (s.lane i).agg t).2 with
  | none =>
    rw [gap] at streamed
    refine healed_quiet config trivial ?_
    exact lanes_update before (fun _ _ => rfl) ⟨streamed, (before i).closer, (before i).closes⟩
  | some gap' =>
    obtain ⟨a, b⟩ := gap'
    rw [gap] at streamed
    obtain ⟨held, ordered, inside, first⟩ := streamed
    refine ⟨config, ?_, ?_⟩
    · intro j
      have others : ∀ k, k ≠ i → missing (.fillGap t i a b) k = fun _ => False := by
        intro k other
        funext x
        simp [missing, other]
      have own : missing (.fillGap t i a b) i = fun x => a ≤ x ∧ x ≤ b := by
        funext x
        simp [missing]
      exact lanes_update before others (own ▸ ⟨held, (before i).closer, (before i).closes⟩) j
    · simp only [StageFits, Function.update_self]
      exact ⟨ordered, inside, first⟩

theorem healed_unfilled (healed : Healed content cfg s) {t : Trade} {i : ℕ} {a b : ℤ}
    (here : s.stage = .fillGap t i a b) (nothing : ∀ u, u ∉ between content a b) :
    Healed content cfg { s with stage := .incr t i } := by
  obtain ⟨config, lanes, -⟩ := healed
  rw [here] at lanes
  refine healed_quiet config trivial ?_
  intro j
  apply lane_out (lanes j)
  rintro u there ⟨-, low, high⟩
  exact nothing u (List.mem_filter.mpr ⟨there, by simp [low, high]⟩)

theorem healed_filled (healed : Healed content cfg s) {t : Trade} {i : ℕ} {a b : ℤ} {trades : List Trade}
    (here : s.stage = .fillGap t i a b) (filled : Fills content trades (.fillGap t i a b)) :
    Healed content cfg { s with stage := .gapTrades t i trades } := by
  obtain ⟨config, lanes, stage⟩ := healed
  rw [here] at lanes stage
  obtain ⟨-, above, u, first, below⟩ := stage
  refine ⟨config, ?_, ?_⟩
  · intro j
    apply lane_out (lanes j)
    rintro u there ⟨own, low, high⟩
    have found := filled.2 u (List.mem_filter.mpr ⟨there, by simp [low, high]⟩)
    exact ⟨own, List.mem_map_of_mem found⟩
  · intro g inside
    obtain ⟨there, low, high⟩ : g ∈ content ∧ a ≤ g.tradeID ∧ g.tradeID ≤ b := by
      simpa [between] using filled.1 g inside
    exact ⟨there, high.trans_lt above, u, first, by omega⟩

theorem healed_gap (distinct : (content.map Trade.tradeID).Nodup)
    (positive : ∀ t ∈ content, 0 < t.tradeID) (healed : Healed content cfg s) {t g : Trade} {i : ℕ}
    {rest : List Trade} (here : s.stage = .gapTrades t i (g :: rest)) : Healed content cfg { s with
      lane := Function.update s.lane i ((s.lane i).process g)
      stage := .gapTrades t i rest } := by
  obtain ⟨config, lanes, stage⟩ := healed
  rw [here] at lanes stage
  obtain ⟨existing, inside, follows⟩ := stage g (by simp)
  have own : ∀ gap : List Trade, missing (.gapTrades t i gap) i = fun x => x ∈ gap.map Trade.tradeID := by
    intro gap
    funext x
    simp [missing]
  have whole := lanes i
  rw [own] at whole
  obtain ⟨held, last, keeps⟩ := process_filled distinct whole.held existing (positive g existing) inside follows
  have others : ∀ j, j ≠ i → missing (.gapTrades t i rest) j = missing (.gapTrades t i (g :: rest)) j := by
    intro j other
    funext x
    simp [missing, other]
  refine ⟨config, lanes_update lanes others (own rest ▸ ⟨held, whole.closer, whole.closes⟩), ?_⟩
  intro h later
  obtain ⟨there, within, u, first, before⟩ := stage h (List.mem_cons_of_mem g later)
  simp only [Function.update_self, last]
  exact ⟨there, within, u, keeps u first, before⟩

theorem healed_step (distinct : (content.map Trade.tradeID).Nodup) (positive : ∀ t ∈ content, 0 < t.tradeID)
    {e : Event} (healed : Healed content cfg s) (heals : Heals content s e) (taken : step s e = some s') :
    Healed content cfg s' := by
  have config := healed.config
  have lanes := healed.lanes
  cases step_steps taken with
  | advance ms => exact ⟨config, lanes, healed.stage⟩
  | @message t here =>
    exact healed_quiet config (loopAt_quiet s t 0) (quiet_lanes (by rw [here]; trivial) lanes)
  | @process t i here => exact healed_process distinct positive healed here heals
  | @fillGap t i a b reply here =>
    have filled : Fills content (reply.getD []) (.fillGap t i a b) := here ▸ heals
    cases reply with
    | none => exact healed_unfilled healed here fun u inside => by simpa using filled.2 u inside
    | some trades => exact healed_filled healed here filled
  | @gapDone t i here =>
    refine healed_quiet config trivial ?_
    intro j
    apply lane_out (lanes j)
    rw [here]
    rintro u - ⟨-, none_left⟩
    simp at none_left
  | @gapTrade t g i rest here => exact healed_gap distinct positive healed here
  | @incr t i u readOk here update =>
    have before := quiet_lanes (by rw [here]; trivial) lanes
    refine healed_quiet config trivial ?_
    exact lanes_update before (fun _ _ => rfl) ⟨(before i).held, (before i).closer, (before i).closes⟩
  | @hSet t i key field value ok here =>
    exact healed_quiet config (loopAt_quiet s t (i + 1)) (quiet_lanes (by rw [here]; trivial) lanes)
  | @deleted i l ok moved =>
    obtain ⟨lanes', fits⟩ := healed_closer distinct lanes healed.stage moved (by simp) (by simp)
    exact ⟨config, lanes', fits⟩
  | @closer e i le l acts moved =>
    have flushes : ∀ nowMs, le = .flush nowMs → ∀ x, ¬ missing s.stage i x := by
      intro nowMs flush
      subst flush
      cases e <;> simp only [Live.closerTurn, reduceCtorEq, Option.some.injEq, Prod.mk.injEq, and_false] at acts
      obtain ⟨rfl, -⟩ := acts
      exact undivided_missing heals
    have other : ∀ t, le ≠ .processTrade t := by
      rintro t rfl
      cases e <;> simp [Live.closerTurn] at acts
    obtain ⟨lanes', fits⟩ := healed_closer distinct lanes healed.stage moved flushes other
    exact ⟨config, lanes', fits⟩

theorem healed_start (content : List Trade) (cfg : WSConfig) (timeframes : List String) (onClose : Bool)
    (clock : ℕ) (store : RedisCache.Store) :
    Healed content cfg (start cfg timeframes onClose clock store) := by
  refine healed_quiet rfl trivial ?_
  intro i
  exact ⟨contiguous_empty content _ rfl rfl, trivial, by simp [start, newLane]⟩

/-- Lost messages do not matter while the gaps are filled: every close of every timeframe wrote
    the book of all the trades that the exchange had in one range of ids, or nothing. -/
theorem healed_closes (distinct : (content.map Trade.tradeID).Nodup)
    (positive : ∀ t ∈ content, 0 < t.tradeID) {timeframes : List String} {onClose : Bool} {clock : ℕ}
    {store : RedisCache.Store} {events : List Event}
    (healing : Guarded step (Heals content) (start cfg timeframes onClose clock store) events)
    (reach : run step (start cfg timeframes onClose clock store) events = some s) {i : ℕ}
    {r : CloseRecord} (closed : r ∈ (s.lane i).closes) :
    ∃ a b, r.trades.Perm (between content a b) ∧ (r.rows = [] ∨ ∃ label, OnGrid (s.lane i).timeframe label ∧
      r.rows = rowsOf cfg (s.lane i).timeframe
        ⟨label, nonEmpty (book cfg.bin (between content a b)), between content a b⟩) := by
  have healed := invariant_run (Healed content cfg) (Heals content)
    (fun _ _ _ healed heals taken => healed_step distinct positive healed heals taken)
    (healed_start content cfg timeframes onClose clock store) healing reach
  obtain ⟨a, b, range⟩ := (healed.lanes i).closes r closed
  refine ⟨a, b, range, ?_⟩
  rcases (LiveAndLoaded.booked_run reach i).closes r closed with nothing | ⟨label, grid, rows⟩
  · exact .inl nothing
  · refine .inr ⟨label, grid, ?_⟩
    rw [rows, rowsOf, rowsOf, book_perm cfg.bin range]

end Run

def traded : List Trade := [⟨5, 100, 1, 30000, true⟩, ⟨6, 101, 2, 40000, false⟩, ⟨7, 100, 3, 50000, true⟩]

def oneLost : List Event :=
  [.message ⟨5, 100, 1, 30000, true⟩, .processTrade, .incrCell true, .hSet true,
    .message ⟨7, 100, 3, 50000, true⟩, .processTrade, .fillGap (some [⟨6, 101, 2, 40000, false⟩]), .gapTrade,
    .gapTrade, .incrCell true, .hSet true, .arm 0, .advance 30200, .flush 0, .batchInsert 0 true,
    .setLastCandle 0 true, .delAggKey 0 true, .notify 0]

theorem one_lost_healed : ∃ s r, run step (start LiveAndLoaded.btcLive ["1m"] true 30000 []) oneLost = some s ∧
    r ∈ (s.lane 0).closes ∧ ∃ a b, r.trades.Perm (between traded a b) ∧ (r.rows = [] ∨
      ∃ label, OnGrid (s.lane 0).timeframe label ∧ r.rows = rowsOf LiveAndLoaded.btcLive (s.lane 0).timeframe
        ⟨label, nonEmpty (book LiveAndLoaded.btcLive.bin (between traded a b)), between traded a b⟩) := by
  have healing : Guarded step (Heals traded) (start LiveAndLoaded.btcLive ["1m"] true 30000 []) oneLost := by
    decide +kernel
  have closes : (run step (start LiveAndLoaded.btcLive ["1m"] true 30000 []) oneLost).map
      (fun s => (s.lane 0).closes.length) = some 1 := by
    decide +kernel
  obtain ⟨s, reach, one⟩ := Option.map_eq_some_iff.mp closes
  obtain ⟨r, closed⟩ := List.exists_mem_of_length_pos (one ▸ Nat.one_pos)
  exact ⟨s, r, reach, closed, healed_closes (by decide) (by decide) healing reach closed⟩

end HealedFeed
