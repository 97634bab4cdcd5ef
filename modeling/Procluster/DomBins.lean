import Procluster.DomStreams
import Procluster.Library.Scales

/-!
Package api: what aggregateDOM makes of a depth response. Both sides are rounded down to
one grid; the middle price is taken from the bins, and the levels within a twentieth of
it stay. Every statement holds for any order in which the two maps are read. The banded
sums are in exact arithmetic, the spread is followed in float64.
-/
namespace DomStreams
open KeyedFold FloorGrid
open FloatRounding (float64 float64_mono float64_zero float64_float64 float64_twice float64_pos float64_nonneg)

section Side
variable (parseFloat : String → Option ℚ) (binSize : ℚ) (rows : List (List String))

def entriesOf : List (ℚ × ℚ) := rows.filterMap (parseLevel parseFloat)

def entriesFrom (price : ℚ) : List (ℚ × ℚ) :=
  (entriesOf parseFloat rows).filter fun e => price ≤ e.1 ∧ e.1 < price + binSize

/-- A side of the answer: bins of the grid with the sums of their entries, and every bin
    that has an entry unless it is left out. -/
structure BandedSum (leftOut : ℚ → Prop) (levels : List DomLevel) : Prop where
  aligned : ∀ l ∈ levels, ∃ k : ℤ, l.price = k * binSize
  occupied : ∀ l ∈ levels, entriesFrom parseFloat binSize rows l.price ≠ []
  summed : ∀ l ∈ levels, l.qty = ((entriesFrom parseFloat binSize rows l.price).map Prod.snd).sum
  complete : ∀ k : ℤ, entriesFrom parseFloat binSize rows (k * binSize) ≠ [] →
    ((∀ l ∈ levels, l.price ≠ k * binSize) ↔ leftOut (k * binSize))

variable {parseFloat binSize rows}

theorem fold_quantities (entries : List (ℚ × ℚ)) :
    entries.foldl (fun total e => some (total.getD 0 + e.2)) (none : Option ℚ) =
      if entries = [] then none else some (entries.map Prod.snd).sum := by
  induction entries using List.reverseRecOn with
  | nil => rfl
  | append_singleton entries e ih =>
    rw [List.foldl_append, ih, if_neg (List.append_ne_nil_of_right_ne_nil _ (by simp)), List.map_append,
      List.sum_append]
    by_cases first : entries = []
    · subst first
      simp
    · simp [first]

theorem find_binMap (positive : 0 < binSize) (k : ℤ) :
    find (k * binSize) (binMap id parseFloat binSize rows) =
      if entriesFrom parseFloat binSize rows (k * binSize) = [] then none
      else some ((entriesFrom parseFloat binSize rows (k * binSize)).map Prod.snd).sum := by
  have own : (rows.filterMap (parseLevel parseFloat)).filter (fun e => (⌊e.1 / binSize⌋ : ℚ) * binSize = k * binSize) =
      entriesFrom parseFloat binSize rows (k * binSize) := by
    apply List.filter_congr
    intro e _
    simp only [floor_mul_iff positive]
  simp only [binMap, binLevel, id_eq]
  rw [find_gather, own, fold_quantities]

theorem binMap_price {round : ℚ → ℚ} {p : ℚ × ℚ} (member : p ∈ binMap round parseFloat binSize rows) :
    ∃ e ∈ entriesOf parseFloat rows, binLevel round binSize e.1 = p.1 :=
  (mem_gather_keys _ _ _ p.1).mp (List.mem_map_of_mem member)

theorem binMap_distinct {round : ℚ → ℚ} : (keys (binMap round parseFloat binSize rows)).Nodup :=
  gather_keys_nodup _ _ _

theorem mem_binMap (positive : 0 < binSize) (p : ℚ × ℚ) : p ∈ binMap id parseFloat binSize rows ↔
    (∃ k : ℤ, p.1 = k * binSize) ∧ entriesFrom parseFloat binSize rows p.1 ≠ [] ∧
      p.2 = ((entriesFrom parseFloat binSize rows p.1).map Prod.snd).sum := by
  constructor
  · intro member
    obtain ⟨e, -, bin⟩ := binMap_price member
    simp only [binLevel, id_eq] at bin
    have found := find_of_mem binMap_distinct member
    rw [← bin, find_binMap positive, bin] at found
    split at found
    · cases found
    · rename_i some_entry
      exact ⟨⟨_, bin.symm⟩, some_entry, (Option.some.inj found).symm⟩
  · rintro ⟨⟨k, bin⟩, some_entry, total⟩
    have found : find (k * binSize) (binMap id parseFloat binSize rows) = _ := find_binMap positive k
    rw [← bin, if_neg some_entry, ← total] at found
    exact mem_of_find found

theorem banded_of_kept (positive : 0 < binSize) (keeps : ℚ → Prop) [DecidablePred keeps] {levels : List DomLevel}
    (listed : ∀ l, l ∈ levels ↔ (l.price, l.qty) ∈ binMap id parseFloat binSize rows ∧ keeps l.price) :
    BandedSum parseFloat binSize rows (fun price => ¬ keeps price) levels := by
  have each : ∀ l ∈ levels, (∃ k : ℤ, l.price = k * binSize) ∧
      entriesFrom parseFloat binSize rows l.price ≠ [] ∧
      l.qty = ((entriesFrom parseFloat binSize rows l.price).map Prod.snd).sum :=
    fun l member => (mem_binMap positive _).mp ((listed l).mp member).1
  refine ⟨fun l member => (each l member).1, fun l member => (each l member).2.1,
    fun l member => (each l member).2.2, ?_⟩
  intro k some_entry
  constructor
  · intro absent kept
    apply absent ⟨k * binSize, ((entriesFrom parseFloat binSize rows (k * binSize)).map Prod.snd).sum⟩ _ rfl
    exact (listed _).mpr ⟨(mem_binMap positive _).mpr ⟨⟨k, rfl⟩, some_entry, rfl⟩, kept⟩
  · intro out l member same
    exact out (same ▸ ((listed l).mp member).2)

theorem sorted_side {table : List (ℚ × ℚ)} (distinct : (keys table).Nodup) (sign : ℚ → ℚ)
    (injective : Function.Injective sign) (keeps : ℚ × ℚ → Bool) :
    ((table.filter keeps).map fun p => (⟨p.1, p.2⟩ : DomLevel)).mergeSort
      (fun a b => sign a.price ≤ sign b.price) |>.Pairwise fun a b => sign a.price < sign b.price := by
  have prices : (((table.filter keeps).map fun p => (⟨p.1, p.2⟩ : DomLevel)).map DomLevel.price).Nodup := by
    rw [List.map_map]
    exact distinct.sublist (List.filter_sublist.map Prod.fst)
  have apart := ((List.mergeSort_perm _ fun a b : DomLevel =>
    decide (sign a.price ≤ sign b.price)).map DomLevel.price).nodup_iff.mpr prices
  refine ((sorted_levels (fun l => sign l.price) _).and (List.pairwise_map.mp apart)).imp ?_
  intro a b both
  exact lt_of_le_of_ne both.1 fun same => both.2 (injective same)

theorem mem_side (table : List (ℚ × ℚ)) (le : DomLevel → DomLevel → Bool) (keeps : ℚ → Prop)
    [DecidablePred keeps] (l : DomLevel) :
    l ∈ ((table.filter fun p => keeps p.1).map fun p => (⟨p.1, p.2⟩ : DomLevel)).mergeSort le ↔
      (l.price, l.qty) ∈ table ∧ keeps l.price := by
  rw [List.mem_mergeSort, List.mem_map]
  constructor
  · rintro ⟨p, kept, rfl⟩
    obtain ⟨member, passes⟩ := List.mem_filter.mp kept
    exact ⟨member, of_decide_eq_true passes⟩
  · rintro ⟨member, passes⟩
    exact ⟨_, List.mem_filter.mpr ⟨member, decide_eq_true passes⟩, rfl⟩

end Side

/-- The answer to one depth response: the banded sums of both sides, best price first. -/
structure BandedBook (parseFloat : String → Option ℚ) (depth : DepthResponse) (binSize : ℚ)
    (bids asks : List DomLevel) (midPrice : ℚ) : Prop where
  bidsDescend : bids.Pairwise fun a b => b.price < a.price
  asksAscend : asks.Pairwise fun a b => a.price < b.price
  bidSums : BandedSum parseFloat binSize depth.bids
    (fun price => price < midPrice * (95 / 100) ∨ midPrice ≤ 0) bids
  askSums : BandedSum parseFloat binSize depth.asks
    (fun price => midPrice * (105 / 100) < price ∨ midPrice ≤ 0) asks

theorem BandedSum.congr {parseFloat : String → Option ℚ} {binSize : ℚ} {rows : List (List String)}
    {leftOut other : ℚ → Prop} {levels : List DomLevel} (same : ∀ price, leftOut price ↔ other price)
    (sums : BandedSum parseFloat binSize rows leftOut levels) :
    BandedSum parseFloat binSize rows other levels := by
  refine ⟨sums.aligned, sums.occupied, sums.summed, ?_⟩
  intro k some_entry
  rw [← same]
  exact sums.complete k some_entry

section Made
variable {round : ℚ → ℚ} {parseFloat : String → Option ℚ} {order : MapOrder} {depth : DepthResponse}
  {binSize : ℚ} {bids asks : List DomLevel} {midPrice : ℚ}
  (made : aggregateDOM round parseFloat order depth binSize = (bids, asks, midPrice))
include made

theorem mem_levels :
    (∀ l, l ∈ bids ↔ (l.price, l.qty) ∈ binMap round parseFloat binSize depth.bids ∧
      (0 < midPrice ∧ round (midPrice - round (midPrice * round (1 / 20))) ≤ l.price)) ∧
    (∀ l, l ∈ asks ↔ (l.price, l.qty) ∈ binMap round parseFloat binSize depth.asks ∧
      (0 < midPrice ∧ l.price ≤ round (midPrice + round (midPrice * round (1 / 20))))) := by
  simp only [aggregateDOM, Prod.mk.injEq] at made
  obtain ⟨bidsEq, asksEq, mid⟩ := made
  rw [mid] at bidsEq asksEq
  subst bidsEq asksEq
  constructor
  · exact mem_side _ _ fun price =>
      0 < midPrice ∧ round (midPrice - round (midPrice * round (1 / 20))) ≤ price
  · exact mem_side _ _ fun price =>
      0 < midPrice ∧ price ≤ round (midPrice + round (midPrice * round (1 / 20)))

theorem levels_sorted :
    bids.Pairwise (fun a b => b.price < a.price) ∧ asks.Pairwise fun a b => a.price < b.price := by
  simp only [aggregateDOM, Prod.mk.injEq] at made
  obtain ⟨bidsEq, asksEq, -⟩ := made
  subst bidsEq asksEq
  constructor
  · have distinct : (keys (binMap round parseFloat binSize depth.bids)).Nodup := binMap_distinct
    have descending := sorted_side distinct (fun price => -price) neg_injective
    simp only [neg_le_neg_iff, neg_lt_neg_iff] at descending
    exact descending _
  · exact sorted_side binMap_distinct id Function.injective_id _

theorem midPrice_eq : midPrice =
    let best := bestPrices order (binMap round parseFloat binSize depth.bids)
      (binMap round parseFloat binSize depth.asks)
    if 0 < best.1 ∧ 0 < best.2 then middle round best.1 best.2 else if 0 < best.1 then best.1 else best.2 :=
  (congrArg (fun answer => answer.2.2) made).symm

end Made

/-- aggregateDOM is the exact banded sum of the book. -/
theorem aggregateDOM_banded (parseFloat : String → Option ℚ) (order : MapOrder) (depth : DepthResponse)
    {binSize : ℚ} (positive : 0 < binSize) {bids asks : List DomLevel} {midPrice : ℚ}
    (made : aggregateDOM id parseFloat order depth binSize = (bids, asks, midPrice)) :
    BandedBook parseFloat depth binSize bids asks midPrice := by
  obtain ⟨bidLevels, askLevels⟩ := mem_levels made
  obtain ⟨descending, ascending⟩ := levels_sorted made
  have nearBid (price : ℚ) : ¬ (0 < midPrice ∧ midPrice - midPrice * (1 / 20) ≤ price) ↔
      price < midPrice * (95 / 100) ∨ midPrice ≤ 0 := by
    rw [not_and_or, not_lt, not_le, or_comm, show midPrice - midPrice * (1 / 20) = midPrice * (95 / 100) by ring]
  have nearAsk (price : ℚ) : ¬ (0 < midPrice ∧ price ≤ midPrice + midPrice * (1 / 20)) ↔
      midPrice * (105 / 100) < price ∨ midPrice ≤ 0 := by
    rw [not_and_or, not_lt, not_le, or_comm, show midPrice + midPrice * (1 / 20) = midPrice * (105 / 100) by ring]
  exact ⟨descending, ascending, (banded_of_kept positive _ bidLevels).congr nearBid,
    (banded_of_kept positive _ askLevels).congr nearAsk⟩

def plainFloat (s : String) : Option ℚ := DecimalText.parsePlain s.toList

def unevenDepth : DepthResponse where
  bids := [["101", "1"], ["100.5", "2"], ["x", "1"], ["99"]]
  asks := [["103", "1.5"], ["104", ""], ["200", "1"]]

theorem uneven_depth_banded : BandedBook plainFloat unevenDepth (5 / 2)
    (aggregateDOM id plainFloat anyOrder unevenDepth (5 / 2)).1
    (aggregateDOM id plainFloat anyOrder unevenDepth (5 / 2)).2.1
    (aggregateDOM id plainFloat anyOrder unevenDepth (5 / 2)).2.2 :=
  aggregateDOM_banded plainFloat anyOrder unevenDepth (by norm_num) rfl

section Spread

structure Uncrossed (bids asks : List (ℚ × ℚ)) : Prop where
  someBid : bids ≠ []
  someAsk : asks ≠ []
  positive : ∀ b ∈ bids, 0 < b.1
  apart : ∀ b ∈ bids, ∀ a ∈ asks, b.1 < a.1

/-- The levels do not cross and the middle price lies between the best raw prices. -/
structure Centred (bids asks : List DomLevel) (midPrice bestBid bestAsk : ℚ) : Prop where
  uncrossed : ∀ b ∈ bids, ∀ a ∈ asks, b.price < a.price
  aboveBid : bestBid ≤ midPrice
  belowAsk : midPrice ≤ bestAsk

theorem scan_bids (prices : List ℚ) (best : ℚ) :
    let found := prices.foldl (fun best p => if best < p then p else best) best
    (found = best ∨ found ∈ prices) ∧ best ≤ found ∧ ∀ p ∈ prices, p ≤ found := by
  induction prices generalizing best with
  | nil => simp
  | cons p prices ih =>
    obtain ⟨source, above, all⟩ := ih (if best < p then p else best)
    simp only [List.foldl_cons]
    have start : best ≤ (if best < p then p else best) ∧ p ≤ if best < p then p else best := by
      split
      · rename_i less
        exact ⟨less.le, le_rfl⟩
      · rename_i notLess
        exact ⟨le_rfl, not_lt.mp notLess⟩
    refine ⟨?_, start.1.trans above, ?_⟩
    · rcases source with same | member
      · rw [same]
        split
        · exact .inr List.mem_cons_self
        · exact .inl rfl
      · exact .inr (List.mem_cons_of_mem _ member)
    · intro q hq
      rcases List.mem_cons.mp hq with rfl | later
      · exact start.2.trans above
      · exact all q later

theorem scan_asks_source (prices : List ℚ) (best : ℚ) :
    let found := prices.foldl (fun best p => if best = 0 ∨ p < best then p else best) best
    found = best ∨ found ∈ prices := by
  induction prices generalizing best with
  | nil => exact .inl rfl
  | cons p prices ih =>
    rw [List.foldl_cons]
    rcases ih (if best = 0 ∨ p < best then p else best) with same | member
    · rw [same]
      split
      · exact .inr List.mem_cons_self
      · exact .inl rfl
    · exact .inr (List.mem_cons_of_mem _ member)

theorem scan_asks {prices : List ℚ} (positive : ∀ p ∈ prices, 0 < p) {best : ℚ} (start : 0 ≤ best) :
    let found := prices.foldl (fun best p => if best = 0 ∨ p < best then p else best) best
    (0 < best → found ≤ best) ∧ ∀ p ∈ prices, found ≤ p := by
  induction prices generalizing best with
  | nil => simp
  | cons p prices ih =>
    have first := positive p List.mem_cons_self
    have next : 0 < (if best = 0 ∨ p < best then p else best) ∧
        (if best = 0 ∨ p < best then p else best) ≤ p ∧
        (0 < best → (if best = 0 ∨ p < best then p else best) ≤ best) := by
      split
      · rename_i taken
        refine ⟨first, le_rfl, ?_⟩
        intro set
        exact (taken.resolve_left set.ne').le
      · rename_i kept
        rw [not_or, not_lt] at kept
        exact ⟨lt_of_le_of_ne start (Ne.symm kept.1), kept.2, fun _ => le_rfl⟩
    obtain ⟨below, all⟩ := ih (fun q hq => positive q (List.mem_cons_of_mem _ hq)) next.1.le
    simp only [List.foldl_cons]
    refine ⟨fun set => (below next.1).trans (next.2.2 set), ?_⟩
    intro q hq
    rcases List.mem_cons.mp hq with rfl | later
    · exact (below next.1).trans next.2.1
    · exact all q later

variable {parseFloat : String → Option ℚ} {order : MapOrder} {depth : DepthResponse} {binSize : ℚ}

theorem mem_ranged {table : List (ℚ × ℚ)} {price : ℚ} :
    price ∈ (order.list table).map Prod.fst ↔ price ∈ keys table :=
  ((order.perm table).map Prod.fst).mem_iff

theorem bestPrices_eq (bidMap askMap : List (ℚ × ℚ)) : bestPrices order bidMap askMap =
    (((order.list bidMap).map Prod.fst).foldl (fun best p => if best < p then p else best) 0,
      ((order.list askMap).map Prod.fst).foldl (fun best p => if best = 0 ∨ p < best then p else best) 0) := by
  simp only [bestPrices, List.foldl_map]

abbrev levelOf (binSize price : ℚ) : ℚ := binLevel float64 binSize price

theorem mem_binMap_keys {rows : List (List String)} {price : ℚ} :
    price ∈ keys (binMap float64 parseFloat binSize rows) ↔
      ∃ e ∈ entriesOf parseFloat rows, levelOf binSize e.1 = price :=
  mem_gather_keys _ _ _ price

section Levels
variable (positive : 0 < binSize)
include positive

theorem levelOf_mono : Monotone (levelOf binSize) := by
  intro p q below
  have quotients := float64_mono (div_le_div_of_nonneg_right below positive.le)
  have bins : ((⌊float64 (p / binSize)⌋ : ℤ) : ℚ) ≤ ⌊float64 (q / binSize)⌋ := by
    exact_mod_cast Int.floor_le_floor quotients
  exact float64_mono (mul_le_mul_of_nonneg_right bins positive.le)

theorem levelOf_nonneg {price : ℚ} (nonneg : 0 ≤ price) : 0 ≤ levelOf binSize price := by
  have bin : 0 ≤ ⌊float64 (price / binSize)⌋ :=
    Int.floor_nonneg.mpr (float64_nonneg (div_nonneg nonneg positive.le))
  exact float64_nonneg (mul_nonneg (by exact_mod_cast bin) positive.le)

theorem levelOf_pos_iff {price : ℚ} :
    0 < levelOf binSize price ↔ 1 ≤ ⌊float64 (price / binSize)⌋ := by
  rw [levelOf, binLevel, float64_pos, mul_pos_iff_of_pos_right positive, Int.cast_pos, Int.lt_iff_add_one_le,
    zero_add]

theorem first_bin_below {price : ℚ} (first : ¬ 0 < levelOf binSize price) :
    price < binSize := by
  by_contra past
  have quotient : 1 ≤ price / binSize := (one_le_div positive).mpr (not_lt.mp past)
  have whole : float64 1 = 1 := by decide +kernel
  have rounded := float64_mono quotient
  rw [whole] at rounded
  apply first
  rw [levelOf_pos_iff positive, Int.le_floor]
  exact_mod_cast rounded

theorem later_bin_above (double : float64 binSize = binSize) {price : ℚ}
    (later : 0 < levelOf binSize price) : binSize ≤ levelOf binSize price := by
  have bin := (levelOf_pos_iff positive).mp later
  have least : (1 : ℚ) * binSize ≤ ⌊float64 (price / binSize)⌋ * binSize :=
    mul_le_mul_of_nonneg_right (by exact_mod_cast bin) positive.le
  rw [one_mul] at least
  calc binSize = float64 binSize := double.symm
    _ ≤ levelOf binSize price := float64_mono least

end Levels

variable (order) in
theorem best_bid_bin (positive : 0 < binSize) {bestBid : ℚ}
    (best : IsGreatest {p | ∃ e ∈ entriesOf parseFloat depth.bids, e.1 = p} bestBid) (nonneg : 0 ≤ bestBid)
    (askMap : List (ℚ × ℚ)) :
    (bestPrices order (binMap float64 parseFloat binSize depth.bids) askMap).1 = levelOf binSize bestBid := by
  obtain ⟨source, -, all⟩ :=
    scan_bids ((order.list (binMap float64 parseFloat binSize depth.bids)).map Prod.fst) 0
  rw [bestPrices_eq]
  apply le_antisymm
  · rcases source with none | member
    · rw [none]
      exact levelOf_nonneg positive nonneg
    · obtain ⟨e, he, bin⟩ := mem_binMap_keys.mp (mem_ranged.mp member)
      rw [← bin]
      exact levelOf_mono positive (best.2 ⟨e, he, rfl⟩)
  · obtain ⟨e, he, rfl⟩ := best.1
    exact all _ (mem_ranged.mpr (mem_binMap_keys.mpr ⟨e, he, rfl⟩))

theorem scan_asks_found {prices : List ℚ} (some_price : prices ≠ []) :
    prices.foldl (fun best p => if best = 0 ∨ p < best then p else best) 0 ∈ prices := by
  obtain ⟨p, rest, rfl⟩ := List.exists_cons_of_ne_nil some_price
  rw [List.foldl_cons, if_pos (.inl rfl)]
  rcases scan_asks_source rest p with same | member
  · rw [same]
    exact List.mem_cons_self
  · exact List.mem_cons_of_mem _ member

section BestAsk
variable (order binSize) {bestAsk : ℚ}
  (best : IsLeast {p | ∃ e ∈ entriesOf parseFloat depth.asks, e.1 = p} bestAsk) (bidMap : List (ℚ × ℚ))
include best

theorem best_ask_bin : ∃ e ∈ entriesOf parseFloat depth.asks, bestAsk ≤ e.1 ∧
    (bestPrices order bidMap (binMap float64 parseFloat binSize depth.asks)).2 = levelOf binSize e.1 := by
  obtain ⟨a, ha, rfl⟩ := best.1
  have listed : levelOf binSize a.1 ∈
      (order.list (binMap float64 parseFloat binSize depth.asks)).map Prod.fst :=
    mem_ranged.mpr (mem_binMap_keys.mpr ⟨a, ha, rfl⟩)
  have found := scan_asks_found (List.ne_nil_of_mem listed)
  obtain ⟨e, he, bin⟩ := mem_binMap_keys.mp (mem_ranged.mp found)
  exact ⟨e, he, best.2 ⟨e, he, rfl⟩, by rw [bestPrices_eq, bin]⟩

theorem best_ask_above (positive : 0 < binSize) (above : 0 < levelOf binSize bestAsk) :
    (bestPrices order bidMap (binMap float64 parseFloat binSize depth.asks)).2 = levelOf binSize bestAsk := by
  have each : ∀ p ∈ (order.list (binMap float64 parseFloat binSize depth.asks)).map Prod.fst,
      levelOf binSize bestAsk ≤ p := by
    intro p member
    obtain ⟨e, he, rfl⟩ := mem_binMap_keys.mp (mem_ranged.mp member)
    exact levelOf_mono positive (best.2 ⟨e, he, rfl⟩)
  obtain ⟨e, he, least, bin⟩ := best_ask_bin order binSize best bidMap
  apply le_antisymm
  · rw [bestPrices_eq]
    apply (scan_asks (fun p member => above.trans_le (each p member)) le_rfl).2
    obtain ⟨a, ha, rfl⟩ := best.1
    exact mem_ranged.mpr (mem_binMap_keys.mpr ⟨a, ha, rfl⟩)
  · rw [bin]
    exact levelOf_mono positive least

end BestAsk

theorem middle_banded {midPrice : ℚ} (positive : 0 < midPrice) (double : float64 midPrice = midPrice) :
    float64 (midPrice - float64 (midPrice * float64 (1 / 20))) ≤ midPrice ∧
      midPrice ≤ float64 (midPrice + float64 (midPrice * float64 (1 / 20))) := by
  have twentieth : 0 ≤ float64 (1 / 20) := float64_nonneg (by norm_num)
  have margin : 0 ≤ float64 (midPrice * float64 (1 / 20)) :=
    float64_nonneg (mul_nonneg positive.le twentieth)
  have low := float64_mono (sub_le_self midPrice margin)
  have high := float64_mono (le_add_of_nonneg_right margin : midPrice ≤ _)
  rw [double] at low high
  exact ⟨low, high⟩

theorem middle_self (price : ℚ) : middle float64 (levelOf binSize price) (levelOf binSize price) =
    levelOf binSize price := by
  have double : float64 (levelOf binSize price) = levelOf binSize price := float64_float64 _
  rw [middle, ← two_mul, float64_twice, double, mul_div_cancel_left₀ _ (by norm_num), double]

section Centre
variable (positive : 0 < binSize) {bestBid bestAsk : ℚ}
  (uncrossed : Uncrossed (entriesOf parseFloat depth.bids) (entriesOf parseFloat depth.asks))
  (highest : IsGreatest {p | ∃ e ∈ entriesOf parseFloat depth.bids, e.1 = p} bestBid)
  (lowest : IsLeast {p | ∃ e ∈ entriesOf parseFloat depth.asks, e.1 = p} bestAsk)
  {bids asks : List DomLevel} {midPrice : ℚ}
  (made : aggregateDOM float64 parseFloat order depth binSize = (bids, asks, midPrice))

include uncrossed highest lowest in
theorem best_prices_apart : 0 < bestBid ∧ bestBid < bestAsk := by
  obtain ⟨b, hb, rfl⟩ := highest.1
  obtain ⟨a, ha, rfl⟩ := lowest.1
  exact ⟨uncrossed.positive b hb, uncrossed.apart b hb a ha⟩

include positive highest made in
theorem bid_levels_below : ∀ l ∈ bids, l.price ≤ levelOf binSize bestBid := by
  intro l member
  obtain ⟨e, he, bin⟩ := binMap_price ((mem_levels made).1 l |>.mp member).1
  rw [← show _ = l.price from bin]
  exact levelOf_mono positive (highest.2 ⟨e, he, rfl⟩)

include positive lowest made in
theorem ask_levels_above : ∀ l ∈ asks, levelOf binSize bestAsk ≤ l.price := by
  intro l member
  obtain ⟨e, he, bin⟩ := binMap_price ((mem_levels made).2 l |>.mp member).1
  rw [← show _ = l.price from bin]
  exact levelOf_mono positive (lowest.2 ⟨e, he, rfl⟩)

include positive highest lowest made

omit lowest in
/- In the first bin the best bid counts as none. -/
theorem mid_in_first_bin (some_bid : 0 < bestBid) (first : levelOf binSize bestBid = 0) : midPrice =
    (bestPrices order (binMap float64 parseFloat binSize depth.bids)
      (binMap float64 parseFloat binSize depth.asks)).2 := by
  have none := best_bid_bin order positive highest some_bid.le (binMap float64 parseFloat binSize depth.asks)
  rw [first] at none
  rw [midPrice_eq made]
  simp only [none, lt_irrefl, false_and, ↓reduceIte]

theorem mid_above (some_bid : 0 < bestBid) (bid : 0 < levelOf binSize bestBid)
    (ask : 0 < levelOf binSize bestAsk) :
    midPrice = middle float64 (levelOf binSize bestBid) (levelOf binSize bestAsk) := by
  have bidBin := best_bid_bin order positive highest some_bid.le (binMap float64 parseFloat binSize depth.asks)
  have askBin := best_ask_above order binSize lowest (binMap float64 parseFloat binSize depth.bids) positive ask
  rw [midPrice_eq made]
  simp only [bidBin, askBin, bid, ask, and_self, ↓reduceIte]

theorem shared_bin_crosses (some_bid : 0 < bestBid) (bid : 0 < levelOf binSize bestBid)
    (shared : levelOf binSize bestAsk = levelOf binSize bestBid) : ∃ b ∈ bids, ∃ a ∈ asks, a.price ≤ b.price := by
  have mid := mid_above positive highest lowest made some_bid bid (shared ▸ bid)
  rw [shared, middle_self] at mid
  obtain ⟨b, hb, topBid⟩ := highest.1
  obtain ⟨a, ha, lowAsk⟩ := lowest.1
  have bidKey : midPrice ∈ keys (binMap float64 parseFloat binSize depth.bids) :=
    mem_binMap_keys.mpr ⟨b, hb, by rw [topBid, mid]⟩
  have askKey : midPrice ∈ keys (binMap float64 parseFloat binSize depth.asks) :=
    mem_binMap_keys.mpr ⟨a, ha, by rw [lowAsk, shared, mid]⟩
  obtain ⟨p, hp, bidPrice⟩ := List.mem_map.mp bidKey
  obtain ⟨q, hq, askPrice⟩ := List.mem_map.mp askKey
  have double : float64 midPrice = midPrice := by rw [mid]; exact float64_float64 _
  rw [← mid] at bid
  obtain ⟨low, high⟩ := middle_banded bid double
  refine ⟨⟨p.1, p.2⟩, ((mem_levels made).1 _).mpr ⟨hp, bid, ?_⟩, ⟨q.1, q.2⟩,
    ((mem_levels made).2 _).mpr ⟨hq, bid, ?_⟩, ?_⟩
  · simp only [bidPrice, low]
  · simp only [askPrice, high]
  · simp only [bidPrice, askPrice, le_refl]

theorem levels_apart (differ : levelOf binSize bestBid < levelOf binSize bestAsk) :
    ∀ b ∈ bids, ∀ a ∈ asks, b.price < a.price := by
  intro b hb a ha
  exact (bid_levels_below positive highest made b hb).trans_lt
    (differ.trans_le (ask_levels_above positive lowest made a ha))

include uncrossed

theorem centred_first_bin_iff (double : float64 binSize = binSize) (first : levelOf binSize bestBid = 0) :
    Centred bids asks midPrice bestBid bestAsk ↔ 0 < levelOf binSize bestAsk ∧
      bestBid ≤ levelOf binSize bestAsk ∧ levelOf binSize bestAsk ≤ bestAsk := by
  obtain ⟨some_bid, apart⟩ := best_prices_apart uncrossed highest lowest
  have some_ask := some_bid.trans apart
  have mid := mid_in_first_bin positive highest made some_bid first
  constructor
  · intro centred
    have above : 0 < levelOf binSize bestAsk := by
      by_contra notAbove
      obtain ⟨e, he, least, bin⟩ :=
        best_ask_bin order binSize lowest (binMap float64 parseFloat binSize depth.bids)
      have nonneg := some_ask.le.trans least
      have below := first_bin_below positive notAbove
      rw [← mid] at bin
      -- the scan left 0 or went past the first bin, so on one side of the spread
      rcases (levelOf_nonneg positive nonneg).eq_or_lt with zero | later
      · linarith [centred.aboveBid]
      · linarith [centred.belowAsk, later_bin_above positive double later]
    rw [best_ask_above order binSize lowest _ positive above] at mid
    exact ⟨above, mid ▸ centred.aboveBid, mid ▸ centred.belowAsk⟩
  · rintro ⟨above, low, high⟩
    rw [best_ask_above order binSize lowest _ positive above] at mid
    exact ⟨levels_apart positive highest lowest made (first ▸ above), mid ▸ low, mid ▸ high⟩

theorem centred_above_iff (above : 0 < levelOf binSize bestBid) :
    Centred bids asks midPrice bestBid bestAsk ↔ levelOf binSize bestBid < levelOf binSize bestAsk ∧
      bestBid ≤ middle float64 (levelOf binSize bestBid) (levelOf binSize bestAsk) ∧
        middle float64 (levelOf binSize bestBid) (levelOf binSize bestAsk) ≤ bestAsk := by
  obtain ⟨some_bid, apart⟩ := best_prices_apart uncrossed highest lowest
  have order : levelOf binSize bestBid ≤ levelOf binSize bestAsk := levelOf_mono positive apart.le
  have mid := mid_above positive highest lowest made some_bid above (above.trans_le order)
  constructor
  · intro centred
    have differ : levelOf binSize bestAsk ≠ levelOf binSize bestBid := by
      intro shared
      obtain ⟨b, hb, a, ha, crossed⟩ := shared_bin_crosses positive highest lowest made some_bid above shared
      exact absurd (centred.uncrossed b hb a ha) (not_lt.mpr crossed)
    exact ⟨lt_of_le_of_ne order differ.symm, mid ▸ centred.aboveBid, mid ▸ centred.belowAsk⟩
  · rintro ⟨differ, low, high⟩
    exact ⟨levels_apart positive highest lowest made differ, mid ▸ low, mid ▸ high⟩

end Centre

def centreOf (binSize bestBid bestAsk : ℚ) : ℚ :=
  if levelOf binSize bestBid = 0 then levelOf binSize bestAsk
  else middle float64 (levelOf binSize bestBid) (levelOf binSize bestAsk)

end Spread

def touchingBins : DepthResponse := ⟨[["101", "1"]], [["103", "2"]]⟩

def sharedBin : DepthResponse := ⟨[["101", "1"]], [["102", "2"]]⟩

theorem single_greatest (e : ℚ × ℚ) : IsGreatest {p | ∃ f ∈ [e], f.1 = p} e.1 := by
  simp [IsGreatest, upperBounds]

theorem single_least (e : ℚ × ℚ) : IsLeast {p | ∃ f ∈ [e], f.1 = p} e.1 := by
  simp [IsLeast, lowerBounds]

theorem single_uncrossed {b a : ℚ × ℚ} (positive : 0 < b.1) (apart : b.1 < a.1) : Uncrossed [b] [a] := by
  refine ⟨by simp, by simp, ?_, ?_⟩
  · simpa using positive
  · simpa using apart

theorem touching_entries : entriesOf plainFloat touchingBins.bids = [(101, 1)] ∧
    entriesOf plainFloat touchingBins.asks = [(103, 2)] := by decide +kernel

theorem shared_entries : entriesOf plainFloat sharedBin.bids = [(101, 1)] ∧
    entriesOf plainFloat sharedBin.asks = [(102, 2)] := by decide +kernel

end DomStreams
