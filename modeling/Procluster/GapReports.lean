import Procluster.TradeLedger

/-!
Gap detection over whole runs of one aggregator. A report keeps the interval that
ProcessTrade returned and the ids processed before it. The largest id processed so
far is a fact about the run; lastTradeID is what the aggregator remembers of it,
and Flush makes it forget. Trade ids are below 2^63 - 1, so lastTradeID + 1 is an int64.
-/
namespace GapReports
open Aggregate EventRuns TradeLedger

structure GapReport where
  lo : ℤ
  hi : ℤ
  before : List ℤ
  deriving DecidableEq

abbrev GapReport.Contains (r : GapReport) (x : ℤ) : Prop := r.lo ≤ x ∧ x ≤ r.hi

structure Watch where
  agg : Aggregator
  processed : List ℤ
  reports : List GapReport

def step (s : Watch) : Op → Option Watch
  | .processTrade t =>
    let r := processTrade s.agg t
    some
      { agg := r.1
        processed := s.processed ++ [t.tradeID]
        reports := match r.2 with
          | none => s.reports
          | some (lo, hi) => s.reports ++ [⟨lo, hi, s.processed⟩] }
  | .flush => some { s with agg := (flush s.agg).2 }

def fresh (symbol market tf : String) (tickSize : ℚ) (compression : UInt32) : Watch :=
  ⟨newAggregator symbol market tf tickSize compression, [], []⟩

def largest (ids : List ℤ) : ℤ := ids.foldr max 0

/-- x lies strictly between the first processed id and the largest processed one. -/
def Inside (ids : List ℤ) (x : ℤ) : Prop := (∃ f ∈ ids.head?, f < x) ∧ ∃ m ∈ ids, x < m

structure GapsComplete (s : Watch) : Prop where
  reported_once : ∀ x, Inside s.processed x → x ∉ s.processed →
    (s.reports.filter fun r => r.Contains x).length = 1
  disjoint : s.reports.Pairwise fun r q => ∀ x, ¬ (r.Contains x ∧ q.Contains x)
  unprocessed : ∀ r ∈ s.reports, ∀ x ∈ r.before, ¬ r.Contains x

/-- The trade does not jump past what the aggregator remembers, unless lastTradeID is
    still the largest id processed; right after a Flush it may be the next id. -/
def Continues (s : Watch) : Op → Prop
  | .processTrade t =>
    s.agg.lastTradeID = largest s.processed ∨ t.tradeID ≤ s.agg.lastTradeID + 1 ∨
      (s.agg.lastTradeID = 0 ∧ t.tradeID ≤ largest s.processed + 1)
  | .flush => True

instance (s : Watch) (op : Op) : Decidable (Continues s op) := by
  cases op <;> simp only [Continues] <;> infer_instance

def PositiveID : Op → Prop
  | .processTrade t => 0 < t.tradeID
  | .flush => True

theorem le_largest {ids : List ℤ} {x : ℤ} (member : x ∈ ids) : x ≤ largest ids := by
  induction ids with
  | nil => simp at member
  | cons y ys ih =>
    simp only [largest, List.foldr_cons] at ih ⊢
    rcases List.mem_cons.mp member with same | later
    · subst same; exact le_max_left _ _
    · exact le_trans (ih later) (le_max_right _ _)

theorem largest_mem {ids : List ℤ} (positive : 0 < largest ids) : largest ids ∈ ids := by
  induction ids with
  | nil => simp [largest] at positive
  | cons y ys ih =>
    simp only [largest, List.foldr_cons] at ih positive ⊢
    rcases le_total y (ys.foldr max 0) with less | more
    · rw [max_eq_right less] at positive ⊢
      exact List.mem_cons_of_mem _ (ih positive)
    · rw [max_eq_left more]
      simp

theorem largest_nonneg (ids : List ℤ) : 0 ≤ largest ids := by
  induction ids with
  | nil => simp [largest]
  | cons y ys ih =>
    simp only [largest, List.foldr_cons] at ih ⊢
    exact le_trans ih (le_max_right _ _)

/- What gap detection knows at every moment: all processed ids are positive, the
   aggregator's ids were processed, and below the largest processed id every id
   after the first was processed or reported. -/
structure Covered (s : Watch) : Prop where
  positive : ∀ x ∈ s.processed, 0 < x
  last_known : s.agg.lastTradeID = 0 ∨ s.agg.lastTradeID ∈ s.processed
  seen_known : ∀ x ∈ s.agg.seen, x ∈ s.processed
  complete : ∀ x, Inside s.processed x → x ∈ s.processed ∨ ∃ r ∈ s.reports, r.Contains x
  below : ∀ r ∈ s.reports, r.hi < largest s.processed
  disjoint : s.reports.Pairwise fun r q => ∀ x, ¬ (r.Contains x ∧ q.Contains x)
  unprocessed : ∀ r ∈ s.reports, ∀ x ∈ r.before, ¬ r.Contains x

theorem length_le_one {R : GapReport → GapReport → Prop} {rs : List GapReport}
    (pairwise : rs.Pairwise R) (never : ∀ r ∈ rs, ∀ q ∈ rs, ¬ R r q) : rs.length ≤ 1 := by
  match rs with
  | [] => simp
  | [r] => simp
  | r :: q :: rest =>
    have related := (List.pairwise_cons.mp pairwise).1 q (by simp)
    exact absurd related (never r (by simp) q (by simp))

theorem covered_complete {s : Watch} (covered : Covered s) : GapsComplete s := by
  refine ⟨?_, covered.disjoint, covered.unprocessed⟩
  intro x inside missing
  have atMost : (s.reports.filter fun r => r.Contains x).length ≤ 1 := by
    apply length_le_one (covered.disjoint.sublist List.filter_sublist)
    intro r hr q hq apart
    simp only [List.mem_filter, decide_eq_true_eq] at hr hq
    exact apart x ⟨hr.2, hq.2⟩
  have some_report : (s.reports.filter fun r => r.Contains x) ≠ [] := by
    rcases covered.complete x inside with processed | ⟨r, hr, contains⟩
    · exact absurd processed missing
    · exact List.ne_nil_of_mem (List.mem_filter.mpr ⟨hr, by simpa using contains⟩)
  have atLeast := List.length_pos_iff.mpr some_report
  omega

theorem largest_append (ids : List ℤ) (x : ℤ) :
    largest (ids ++ [x]) = max (largest ids) x := by
  induction ids with
  | nil => simp [largest, max_comm]
  | cons y ys ih =>
    simp only [largest, List.cons_append, List.foldr_cons] at ih ⊢
    rw [ih, max_assoc]

/- An id that becomes interior with the new trade lies between the previous largest
   id and the trade; before the first trade nothing becomes interior. -/
theorem inside_append {ids : List ℤ} {t x : ℤ} (positive : ∀ y ∈ ids, 0 < y)
    (inside : Inside (ids ++ [t]) x) :
    Inside ids x ∨ (0 < largest ids ∧ largest ids ≤ x ∧ x < t) := by
  obtain ⟨⟨f, first, above⟩, m, member, below⟩ := inside
  cases ids with
  | nil =>
    simp only [List.nil_append, List.head?_cons, Option.mem_def, Option.some.injEq,
      List.mem_singleton] at first member
    omega
  | cons y ys =>
    have started : 0 < largest (y :: ys) :=
      lt_of_lt_of_le (positive y (by simp)) (le_largest (by simp))
    simp only [List.cons_append, List.head?_cons, Option.mem_def, Option.some.injEq] at first
    by_cases lower : x < largest (y :: ys)
    · exact Or.inl ⟨⟨f, by simp [first], above⟩, largest (y :: ys), largest_mem started, lower⟩
    · refine Or.inr ⟨started, by omega, ?_⟩
      rcases List.mem_append.mp member with old | new
      · have := le_largest old; omega
      · simp only [List.mem_singleton] at new; omega

theorem covered_process_seen {s s' : Watch} {t : Trade} (covered : Covered s)
    (old : t.tradeID ∈ s.agg.seen) (taken : step s (.processTrade t) = some s') : Covered s' := by
  simp only [step, processTrade_seen old, Option.some.injEq] at taken
  subst s'
  have known := covered.seen_known _ old
  have top : largest (s.processed ++ [t.tradeID]) = largest s.processed := by
    rw [largest_append, max_eq_left (le_largest known)]
  constructor
  · intro x member
    rcases List.mem_append.mp member with earlier | last
    · exact covered.positive x earlier
    · simp only [List.mem_singleton] at last
      exact last ▸ covered.positive _ known
  · rcases covered.last_known with zero | member
    · exact Or.inl zero
    · exact Or.inr (List.mem_append_left _ member)
  · intro x member
    exact List.mem_append_left _ (covered.seen_known x member)
  · intro x inside
    rcases inside_append covered.positive inside with earlier | ⟨_, atLeast, less⟩
    · rcases covered.complete x earlier with processed | reported
      · exact Or.inl (List.mem_append_left _ processed)
      · exact Or.inr reported
    · have := le_largest known; omega
  · intro r member
    rw [top]
    exact covered.below r member
  · exact covered.disjoint
  · exact covered.unprocessed

theorem last_le_largest {s : Watch} (covered : Covered s) : s.agg.lastTradeID ≤ largest s.processed := by
  rcases covered.last_known with zero | member
  · rw [zero]; exact largest_nonneg _
  · exact le_largest member

section NewTrade
variable {s : Watch} {t : Trade} (covered : Covered s) (positive : 0 < t.tradeID)
include covered

theorem seen_append : ∀ x ∈ insert t.tradeID s.agg.seen, x ∈ s.processed ++ [t.tradeID] := by
  intro x member
  rcases Finset.mem_insert.mp member with same | earlier
  · subst same; simp
  · exact List.mem_append_left _ (covered.seen_known x earlier)

include positive

theorem positive_append : ∀ x ∈ s.processed ++ [t.tradeID], 0 < x := by
  intro x member
  rcases List.mem_append.mp member with earlier | current
  · exact covered.positive x earlier
  · simp only [List.mem_singleton] at current; omega

theorem last_append : max s.agg.lastTradeID t.tradeID = 0 ∨
    max s.agg.lastTradeID t.tradeID ∈ s.processed ++ [t.tradeID] := by
  right
  rcases le_total s.agg.lastTradeID t.tradeID with less | more
  · rw [max_eq_right less]; simp
  · rw [max_eq_left more]
    rcases covered.last_known with zero | member
    · omega
    · exact List.mem_append_left _ member

/- A reported jump starts right above the largest id, so it covers what became
   interior and meets no earlier report. -/
theorem covered_jump (new : t.tradeID ∉ s.agg.seen)
    (known : s.agg.lastTradeID = largest s.processed)
    (jump : 0 < s.agg.lastTradeID ∧ s.agg.lastTradeID + 1 < t.tradeID) :
    Covered ⟨(processTrade s.agg t).1, s.processed ++ [t.tradeID],
      s.reports ++ [⟨s.agg.lastTradeID + 1, t.tradeID - 1, s.processed⟩]⟩ := by
  have top : largest (s.processed ++ [t.tradeID]) = t.tradeID := by
    rw [largest_append]; omega
  constructor
  · exact positive_append covered positive
  · simpa only [processTrade_lastTradeID new] using last_append covered positive
  · simpa only [processTrade_seen_set] using seen_append covered
  · intro x inside
    rcases inside_append covered.positive inside with earlier | ⟨started, atLeast, less⟩
    · rcases covered.complete x earlier with processed | ⟨r, hr, contains⟩
      · exact Or.inl (List.mem_append_left _ processed)
      · exact Or.inr ⟨r, List.mem_append_left _ hr, contains⟩
    · by_cases same : x = largest s.processed
      · exact Or.inl (List.mem_append_left _ (same ▸ largest_mem started))
      · exact Or.inr ⟨_, List.mem_append_right _ (List.mem_singleton.mpr rfl), by
          simp only [GapReport.Contains]; omega⟩
  · intro r member
    rw [top]
    rcases List.mem_append.mp member with earlier | current
    · have := covered.below r earlier; omega
    · simp only [List.mem_singleton] at current
      subst current
      simp only
      omega
  · refine List.pairwise_append.mpr ⟨covered.disjoint, List.pairwise_singleton _ _, ?_⟩
    intro r hr q hq x both
    simp only [List.mem_singleton] at hq
    subst hq
    have := covered.below r hr
    simp only [GapReport.Contains] at both
    omega
  · intro r member
    rcases List.mem_append.mp member with earlier | current
    · exact covered.unprocessed r earlier
    · simp only [List.mem_singleton] at current
      subst current
      intro x processed contains
      have atMost : x ≤ largest s.processed := le_largest processed
      simp only [GapReport.Contains] at contains
      omega

/- A first trade makes nothing interior, and one at most one above the largest id only
   that id. -/
theorem covered_quiet (new : t.tradeID ∉ s.agg.seen)
    (near : 0 < largest s.processed → t.tradeID ≤ largest s.processed + 1) :
    Covered ⟨(processTrade s.agg t).1, s.processed ++ [t.tradeID], s.reports⟩ := by
  constructor
  · exact positive_append covered positive
  · simpa only [processTrade_lastTradeID new] using last_append covered positive
  · simpa only [processTrade_seen_set] using seen_append covered
  · intro x inside
    rcases inside_append covered.positive inside with earlier | ⟨started, atLeast, less⟩
    · rcases covered.complete x earlier with processed | reported
      · exact Or.inl (List.mem_append_left _ processed)
      · exact Or.inr reported
    · have close := near started
      have next : x = largest s.processed := by omega
      exact Or.inl (List.mem_append_left _ (next ▸ largest_mem started))
  · intro r member
    have := covered.below r member
    rw [largest_append]
    omega
  · exact covered.disjoint
  · exact covered.unprocessed

/- Only an aggregator that still knows the largest id reaches a report. -/
theorem covered_process_new {s' : Watch} (new : t.tradeID ∉ s.agg.seen)
    (continues : Continues s (.processTrade t)) (taken : step s (.processTrade t) = some s') :
    Covered s' := by
  have bounded := last_le_largest covered
  have gap := processTrade_gap new
  simp only [Continues] at continues
  by_cases jump : 0 < s.agg.lastTradeID ∧ s.agg.lastTradeID + 1 < t.tradeID
  · simp only [step, gap, jump, and_self, ↓reduceIte, Option.some.injEq] at taken
    subst s'
    exact covered_jump covered positive new (by omega) jump
  · simp only [step, gap, jump, ↓reduceIte, Option.some.injEq] at taken
    subst s'
    exact covered_quiet covered positive new (by omega)

end NewTrade

theorem covered_step (s : Watch) (op : Op) (s' : Watch) (covered : Covered s)
    (ok : Continues s op ∧ PositiveID op) (taken : step s op = some s') : Covered s' := by
  cases op with
  | processTrade t =>
    by_cases old : t.tradeID ∈ s.agg.seen
    · exact covered_process_seen covered old taken
    · exact covered_process_new covered ok.2 old ok.1 taken
  | flush =>
    simp only [step, Option.some.injEq] at taken
    subst s'
    exact ⟨covered.positive, Or.inl rfl, by simp, covered.complete, covered.below,
      covered.disjoint, covered.unprocessed⟩

theorem covered_fresh (symbol market tf : String) (tickSize : ℚ) (compression : UInt32) :
    Covered (fresh symbol market tf tickSize compression) := by
  constructor <;> simp [fresh, newAggregator, Inside]

theorem mem_deliveries {ops : List Op} {t : Trade} (member : Op.processTrade t ∈ ops) :
    t ∈ deliveries ops := by
  induction ops with
  | nil => simp at member
  | cons first rest ih =>
    cases first with
    | flush => simp only [deliveries]; exact ih (by simpa using member)
    | processTrade u =>
      simp only [List.mem_cons, Op.processTrade.injEq, deliveries] at member ⊢
      exact member.imp_right ih

/- Along every run whose trades continue what the aggregator remembers, gap detection
   misses nothing and reports nothing twice, in every state reached. -/
theorem gaps_complete_along_run (symbol market tf : String) (tickSize : ℚ)
    (compression : UInt32) (ops : List Op) (positive : ∀ t ∈ deliveries ops, 0 < t.tradeID)
    (continues : Guarded step Continues (fresh symbol market tf tickSize compression) ops) :
    Always step GapsComplete (fresh symbol market tf tickSize compression) ops := by
  have ids : ∀ op ∈ ops, ∀ _ : Watch, PositiveID op := by
    intro op member _
    cases op with
    | flush => trivial
    | processTrade t => exact positive t (mem_deliveries member)
  exact invariant_always Covered (fun _ => covered_complete) covered_step (covered_fresh ..)
    (guarded_and continues ids)

theorem gaps_complete_continued_candle :
    Always step GapsComplete (fresh "BTCUSDT" "futures" "1m" (1 / 10) 25)
      [.processTrade (sampleTrade 1), .processTrade (sampleTrade 4), .flush,
        .processTrade (sampleTrade 5)] :=
  gaps_complete_along_run _ _ _ _ _ _ (by decide) (by decide +kernel)

/-- A gap that straddles a candle close is not reported. -/
theorem straddling_gap_missed :
    ¬ Always step GapsComplete (fresh "BTCUSDT" "futures" "1m" (1 / 10) 25)
      [.processTrade (sampleTrade 1), .flush, .processTrade (sampleTrade 3)] := by
  intro always
  have complete := always_final always rfl
  have once := complete.reported_once 2 ⟨⟨1, by decide +kernel, by decide⟩, 3, by decide +kernel, by decide⟩
    (by decide +kernel)
  revert once
  decide +kernel

end GapReports
