import Procluster.TradeLedger

/-!
The open and close price of an aggregator along whole runs. Beside it stand the trades
accepted since the last Flush and the first one it ever accepted, whose price is the
open price from then on; the close price follows the arrival of the trades.
-/
namespace CandleEnds
open Aggregate EventRuns TradeLedger

structure Candle where
  agg : Aggregator
  accepted : List Trade
  first : Option Trade

def openPrice (a : Aggregator) : ℚ := a.firstTradePrice

def closePrice (a : Aggregator) : ℚ := a.lastTradePrice

def step (s : Candle) : Op → Option Candle
  | .processTrade t => some
      { agg := (processTrade s.agg t).1
        accepted := if t.tradeID ∈ s.agg.seen then s.accepted else s.accepted ++ [t]
        first := if t.tradeID ∈ s.agg.seen then s.first else some (s.first.getD t) }
  | .flush => some { s with agg := (flush s.agg).2, accepted := [] }

def fresh (symbol market tf : String) (tickSize : ℚ) (compression : UInt32) : Candle :=
  ⟨newAggregator symbol market tf tickSize compression, [], none⟩

def oldest (trades : List Trade) : Option Trade :=
  @List.argmin Trade ℤ Int.instLinearOrder.toPartialOrder.toPreorder _ Trade.tradeID trades

def newest (trades : List Trade) : Option Trade :=
  @List.argmax Trade ℤ Int.instLinearOrder.toPartialOrder.toPreorder _ Trade.tradeID trades

structure EndsRight (s : Candle) : Prop where
  opens : ∀ t ∈ oldest s.accepted, openPrice s.agg = t.price
  closes : ∀ t ∈ newest s.accepted, closePrice s.agg = t.price

/-- An accepted trade is behind the oldest of its candle or has the price of the first
    trade of all, and is behind the newest of its candle or has its price. -/
def KeepsEnds (s : Candle) : Op → Prop
  | .processTrade t => t.tradeID ∈ s.accepted.map Trade.tradeID ∨
      ((∀ f ∈ s.first, (∃ u ∈ oldest s.accepted, u.tradeID < t.tradeID) ∨ f.price = t.price) ∧
        ∀ u ∈ newest s.accepted, u.tradeID < t.tradeID ∨ u.price = t.price)
  | .flush => True

structure Tracks (s : Candle) : Prop where
  seen : ∀ x, x ∈ s.agg.seen ↔ x ∈ s.accepted.map Trade.tradeID
  begun : s.agg.tradeCount = 0 ↔ s.first = none
  first : ∀ f ∈ s.first, s.agg.firstTradePrice = f.price
  known : s.accepted ≠ [] → s.first ≠ none

theorem step_old {s s' : Candle} {t : Trade} (old : t.tradeID ∈ s.agg.seen)
    (taken : step s (.processTrade t) = some s') : s' = s := by
  simp only [step, old, ↓reduceIte, processTrade_seen old, Option.some.injEq] at taken
  exact taken.symm

theorem step_new {s s' : Candle} {t : Trade} (tracks : Tracks s) (new : t.tradeID ∉ s.agg.seen)
    (taken : step s (.processTrade t) = some s') :
    s'.accepted = s.accepted ++ [t] ∧ s'.first = some (s.first.getD t) ∧
      s'.agg.seen = insert t.tradeID s.agg.seen ∧ s'.agg.tradeCount ≠ 0 ∧
      openPrice s'.agg = (s.first.getD t).price ∧ closePrice s'.agg = t.price := by
  simp only [step, new, ↓reduceIte, Option.some.injEq] at taken
  subst taken
  refine ⟨rfl, rfl, processTrade_seen_set s.agg t, ?_, ?_, ?_⟩
  · simp [processTrade, processTradeBy, new]
  · simp only [openPrice, processTrade, processTradeBy, new, ↓reduceIte]
    cases earlier : s.first with
    | none => rw [if_pos (tracks.begun.mpr earlier), Option.getD_none]
    | some f =>
      have counted : s.agg.tradeCount ≠ 0 := fun zero => by
        rw [tracks.begun.mp zero] at earlier
        cases earlier
      rw [if_neg counted, Option.getD_some]
      exact tracks.first f earlier
  · simp [closePrice, processTrade, processTradeBy, new]

theorem step_tracks {s s' : Candle} {op : Op} (tracks : Tracks s) (taken : step s op = some s') :
    Tracks s' := by
  cases op with
  | flush =>
    simp only [step, Option.some.injEq] at taken
    subst taken
    exact ⟨by simp, tracks.begun, tracks.first, fun some => absurd rfl some⟩
  | processTrade t =>
    by_cases old : t.tradeID ∈ s.agg.seen
    · rw [step_old old taken]
      exact tracks
    · obtain ⟨accepted, first, seen, counted, price, -⟩ := step_new tracks old taken
      refine ⟨?_, ?_, ?_, ?_⟩
      · intro x
        rw [seen, accepted, Finset.mem_insert, tracks.seen x, List.map_append, List.mem_append, or_comm]
        simp
      · simp [counted, first]
      · intro f earlier
        rw [first, Option.mem_some_iff] at earlier
        rw [← earlier]
        exact price
      · simp [first]

theorem new_ends_iff {s s' : Candle} {t : Trade} (tracks : Tracks s) (ends : EndsRight s)
    (new : t.tradeID ∉ s.agg.seen) (taken : step s (.processTrade t) = some s') :
    EndsRight s' ↔ KeepsEnds s (.processTrade t) := by
  obtain ⟨accepted, -, -, -, opens, closes⟩ := step_new tracks new taken
  have apart : ∀ u ∈ s.accepted, u.tradeID ≠ t.tradeID := by
    intro u inside same
    exact new ((tracks.seen _).mpr (same ▸ List.mem_map_of_mem inside))
  have fresh : t.tradeID ∉ s.accepted.map Trade.tradeID := fun old => new ((tracks.seen _).mpr old)
  have openIff : (∀ u ∈ oldest s'.accepted, openPrice s'.agg = u.price) ↔
      ∀ f ∈ s.first, (∃ u ∈ oldest s.accepted, u.tradeID < t.tradeID) ∨ f.price = t.price := by
    rw [opens, accepted, oldest, List.argmin_concat]
    cases least : s.accepted.argmin Trade.tradeID with
    | none => cases s.first <;> simp [oldest, least]
    | some c =>
      have inside := List.argmin_mem least
      have right := ends.opens c least
      cases earlier : s.first with
      | none => exact absurd earlier (tracks.known (List.ne_nil_of_mem inside))
      | some f =>
        have same : f.price = c.price := (tracks.first f earlier).symm.trans right
        by_cases behind : t.tradeID < c.tradeID
        · simp [behind, oldest, least, behind.not_gt]
        · have later : c.tradeID < t.tradeID :=
            lt_of_le_of_ne (not_lt.mp behind) (apart c inside)
          simp [behind, oldest, least, later, same]
  have closeIff : (∀ u ∈ newest s'.accepted, closePrice s'.agg = u.price) ↔
      ∀ u ∈ newest s.accepted, u.tradeID < t.tradeID ∨ u.price = t.price := by
    rw [closes, accepted, newest, List.argmax_concat]
    cases most : s.accepted.argmax Trade.tradeID with
    | none => simp [newest, most]
    | some c =>
      by_cases ahead : c.tradeID < t.tradeID
      · simp [ahead, newest, most]
      · simp [ahead, newest, most, eq_comm]
  simp only [KeepsEnds, fresh, false_or]
  exact ⟨fun right => ⟨openIff.mp right.opens, closeIff.mp right.closes⟩,
    fun keeps => ⟨openIff.mpr keeps.1, closeIff.mpr keeps.2⟩⟩

theorem step_ends_iff {s s' : Candle} {op : Op} (tracks : Tracks s) (ends : EndsRight s)
    (taken : step s op = some s') : EndsRight s' ↔ KeepsEnds s op := by
  cases op with
  | flush =>
    simp only [step, Option.some.injEq] at taken
    subst taken
    exact iff_of_true ⟨fun _ none => (by cases none), fun _ none => (by cases none)⟩ trivial
  | processTrade t =>
    by_cases old : t.tradeID ∈ s.agg.seen
    · rw [step_old old taken]
      exact iff_of_true ends (.inl ((tracks.seen _).mp old))
    · exact new_ends_iff tracks ends old taken

/-- Open and close are the prices of the candle's oldest and newest trade in every state of
    a run exactly if each accepted trade keeps them. -/
theorem candle_ends_iff (symbol market tf : String) (tickSize : ℚ) (compression : UInt32)
    (ops : List Op) :
    Always step EndsRight (fresh symbol market tf tickSize compression) ops ↔
      Guarded step KeepsEnds (fresh symbol market tf tickSize compression) ops := by
  apply always_iff_guarded (fun s => Tracks s ∧ EndsRight s)
  · exact fun _ kept => kept.2
  · exact fun s op s' kept keeps taken =>
      ⟨step_tracks kept.1 taken, (step_ends_iff kept.1 kept.2 taken).mpr keeps⟩
  · exact fun s op s' kept breaks taken right => breaks ((step_ends_iff kept.1 kept.2 taken).mp right)
  · exact ⟨⟨by simp [fresh, newAggregator], by simp [fresh, newAggregator], by simp [fresh],
      by simp [fresh]⟩, ⟨fun _ none => (by cases none), fun _ none => (by cases none)⟩⟩

/- The second candle keeps the open price of the first, and a trade of a gap that is
   filled afterwards becomes the close price. -/
theorem ends_of_other_trades :
    ¬ Always step EndsRight (fresh "BTCUSDT" "futures" "1m" (1 / 10) 25)
      [.processTrade ⟨1, 100, 1, 0, true⟩, .flush, .processTrade ⟨2, 200, 1, 60000, true⟩] ∧
    ¬ Always step EndsRight (fresh "BTCUSDT" "futures" "1m" (1 / 10) 25)
      [.processTrade ⟨1, 100, 1, 0, true⟩, .processTrade ⟨3, 200, 1, 2, true⟩,
        .processTrade ⟨2, 300, 1, 1, true⟩] := by
  constructor
  · intro always
    have opens := (always_final always rfl).opens ⟨2, 200, 1, 60000, true⟩ rfl
    revert opens
    decide +kernel
  · intro always
    have closes := (always_final always rfl).closes ⟨3, 200, 1, 2, true⟩ rfl
    revert closes
    decide +kernel

end CandleEnds
