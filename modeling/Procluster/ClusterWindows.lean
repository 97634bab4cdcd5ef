import Procluster.ClusterSearch
import Procluster.Library.LargestFirst

/-!
The windows that Cluster Search marks, against its description: consecutive price levels,
exact sums and shares, and the colour of the side with the larger share. The loop takes
neighbours of the sorted cells, adds and divides doubles, and where both sides reach the
threshold it takes the bid's colour.
-/
namespace ClusterSearch
open CandlesApi (CandleJSON CellJSON)
open SlidingWindows FloatRounding

structure Binned (step : ℚ) (cells : List CellJSON) : Prop where
  positive : 0 < step
  grid : ∀ cell ∈ cells, ∃ k : ℤ, cell.price = k * step
  distinct : (cells.map CellJSON.price).Nodup

def InPart (location : Value) (minBody maxBody price : ℚ) : Prop :=
  (location = .string "body" → minBody ≤ price ∧ price ≤ maxBody) ∧
    (location = .string "lowerWick" → price < minBody) ∧ (location = .string "upperWick" → maxBody < price)

instance (location : Value) (minBody maxBody price : ℚ) : Decidable (InPart location minBody maxBody price) :=
  inferInstanceAs (Decidable (_ ∧ _))

section Description
variable (cs : Filter) (candle : CandleJSON) (w : List CellJSON)

def sumOf (side : CellJSON → ℚ) : ℚ := (w.map side).sum

def share (side : CellJSON → ℚ) : ℚ := sumOf w side / sumOf w CellJSON.volume * 100

def mid : ℚ :=
  match w.head?, w.getLast? with
  | some top, some bottom => (top.price + bottom.price) / 2
  | _, _ => 0

/-- Volume, share of a side, and delta of the window pass the filter. -/
def Weighs : Prop :=
  0 < sumOf w CellJSON.volume ∧ cs.minVolume ≤ sumOf w CellJSON.volume ∧
    (¬ ∃ most ∈ cs.maxVolume, most < sumOf w CellJSON.volume) ∧
      cs.imbalancePercent ≤ max (share w CellJSON.bid) (share w CellJSON.ask) ∧
        cs.minDelta ≤ |sumOf w CellJSON.ask - sumOf w CellJSON.bid|

def InZone : Prop :=
  InPart cs.location (min candle.openPrice candle.close) (max candle.openPrice candle.close) (mid w)

instance : Decidable (Weighs cs w) := inferInstanceAs (Decidable (_ ∧ _))

instance : Decidable (InZone cs candle w) := inferInstanceAs (Decidable (InPart ..))

def largerColor : Value := if share w CellJSON.bid < share w CellJSON.ask then cs.colorAsk else cs.colorBid

end Description

section Tests
variable (cs : Filter) (candle : CandleJSON) (w : List CellJSON)

def runningSum (side : CellJSON → ℚ) : ℚ := w.foldl (fun sum cell => fadd sum (side cell)) 0

def testedShare (side : CellJSON → ℚ) : ℚ :=
  fmul (fdiv (runningSum w side) (runningSum w CellJSON.volume)) 100

def PassesTests : Prop :=
  0 < runningSum w CellJSON.volume ∧ float64 cs.minVolume ≤ runningSum w CellJSON.volume ∧
    (¬ ∃ most ∈ cs.maxVolume, float64 most < runningSum w CellJSON.volume) ∧
      float64 cs.imbalancePercent ≤ max (testedShare w CellJSON.bid) (testedShare w CellJSON.ask) ∧
        float64 cs.minDelta ≤ |fsub (runningSum w CellJSON.ask) (runningSum w CellJSON.bid)|

instance : Decidable (PassesTests cs w) := inferInstanceAs (Decidable (_ ∧ _))

def midPrice (top bottom : CellJSON) : ℚ := fdiv (fadd top.price bottom.price) 2

def PassesZone (price : ℚ) : Prop :=
  InPart cs.location (min (float64 candle.openPrice) (float64 candle.close))
    (max (float64 candle.openPrice) (float64 candle.close)) price

instance (price : ℚ) : Decidable (PassesZone cs candle price) := inferInstanceAs (Decidable (InPart ..))

def sizeFor (volume : ℚ) : ℚ :=
  fadd cs.minSize (fmul (if 0 < cs.range then min 1 (fdiv (fsub volume cs.minVolume) cs.range) else 0)
    (fsub cs.maxSize cs.minSize))

def takenColor : Value :=
  if float64 cs.imbalancePercent ≤ testedShare w CellJSON.bid then cs.colorBid else cs.colorAsk

end Tests

/-- The figure of a window in a colour; place and size are those that the code computes. -/
def figureOf (cs : Drawing) (w : List CellJSON) (color : Value) : Item where
  price :=
    match w.head?, w.getLast? with
    | some top, some bottom => midPrice top bottom
    | _, _ => 0
  color := color
  shape := cs.shape
  opacity := cs.opacity
  size := sizeFor cs.toFilter (runningSum w CellJSON.volume)

def adjacentWindows (step size : ℚ) (sortedCells : List CellJSON) : List (List CellJSON) :=
  if size.den = 1 then
    sortedCells.filterMap fun top => runFrom step CellJSON.price sortedCells size.num.toNat top.price
  else []

def described (step : ℚ) (cs : Option Drawing) (candle : CandleJSON) : List Item :=
  match cs with
  | none => []
  | some cs =>
    let sortedCells := byPrice candle.cells
    ((adjacentWindows step (windowSize cs.mergeLevels sortedCells) sortedCells).filter fun w =>
      Weighs cs.toFilter w ∧ InZone cs.toFilter candle w).map fun w => figureOf cs w (largerColor cs.toFilter w)

def neighbours (size : ℚ) (sortedCells : List CellJSON) (i : ℕ) : List CellJSON :=
  (sortedCells.drop i).take ⌈size⌉₊

section Positions
variable (step : ℚ) (cs : Drawing) (candle : CandleJSON)

def positions : List ℕ :=
  upTo (fsub (byPrice candle.cells).length (windowSize cs.mergeLevels (byPrice candle.cells)))

def IsDescribed (i : ℕ) : Prop :=
  let size := windowSize cs.mergeLevels (byPrice candle.cells)
  let w := neighbours size (byPrice candle.cells) i
  size.den = 1 ∧ Consecutive step CellJSON.price w ∧ Weighs cs.toFilter w ∧ InZone cs.toFilter candle w

instance (i : ℕ) : Decidable (IsDescribed step cs candle i) := inferInstanceAs (Decidable (_ ∧ _))

def meant (i : ℕ) : Option Item :=
  let w := neighbours (windowSize cs.mergeLevels (byPrice candle.cells)) (byPrice candle.cells) i
  if IsDescribed step cs candle i then some (figureOf cs w (largerColor cs.toFilter w)) else none

end Positions

/-- At each position of the two loops that figure is drawn which is meant there, and so
    in all those of the windows of adjacent bins that pass, medium and large. -/
structure MarksAdjacent (step : ℚ) (csSettings : Settings) (candle : CandleJSON) : Prop where
  windows : ∀ cs, drawMedium csSettings = some cs ∨ drawLarge csSettings = some cs →
    ∀ i ∈ positions cs candle, drawWindow cs candle (byPrice candle.cells)
      (windowSize cs.mergeLevels (byPrice candle.cells)) i = some (meant step cs candle i)
  figures : itemsToDraw csSettings candle =
    some (described step (drawMedium csSettings) candle ++ described step (drawLarge csSettings) candle)

section Condition
variable (step : ℚ) (cs : Drawing) (candle : CandleJSON)

def lastCell (i : ℕ) : Option CellJSON :=
  atIndex (byPrice candle.cells) (fsub (fadd i (windowSize cs.mergeLevels (byPrice candle.cells))) 1)

def PassesAll (i : ℕ) : Prop :=
  PassesTests cs.toFilter (neighbours (windowSize cs.mergeLevels (byPrice candle.cells)) (byPrice candle.cells) i) ∧
    ∃ top ∈ (byPrice candle.cells)[i]?, ∃ bottom ∈ lastCell cs candle i,
      PassesZone cs.toFilter candle (midPrice top bottom)

instance (i : ℕ) : Decidable (PassesAll cs candle i) := inferInstanceAs (Decidable (_ ∧ _))

/-- Wherever neighbouring cells pass the tests on their amounts the last of them exists;
    where they pass all tests, their number is the configured one, no level is missing
    between them, exact arithmetic passes them too, and the bid's tested share reaches the
    threshold exactly if its exact one is not the smaller, unless both colours are the
    same; and adjacent levels that pass in exact arithmetic pass the tests. -/
def NoneAstray : Prop :=
  ∀ i ∈ positions cs candle,
    let w := neighbours (windowSize cs.mergeLevels (byPrice candle.cells)) (byPrice candle.cells) i
    (PassesTests cs.toFilter w → (lastCell cs candle i).isSome) ∧
      (PassesAll cs candle i → IsDescribed step cs candle i ∧ (cs.colorBid = cs.colorAsk ∨
        (float64 cs.imbalancePercent ≤ testedShare w CellJSON.bid ↔ share w CellJSON.ask ≤ share w CellJSON.bid))) ∧
      (IsDescribed step cs candle i → PassesAll cs candle i)

end Condition

theorem grid_gap {step : ℚ} (positive : 0 < step) {k l : ℤ} (above : (l : ℚ) * step < k * step) :
    (l : ℚ) * step + step ≤ k * step := by
  have order : l < k := by exact_mod_cast lt_of_mul_lt_mul_right above positive.le
  have next : ((l + 1 : ℤ) : ℚ) ≤ k := by exact_mod_cast order
  have scaled := mul_le_mul_of_nonneg_right next positive.le
  push_cast at scaled
  linarith

theorem spaced_byPrice {step : ℚ} {cells : List CellJSON} (binned : Binned step cells) :
    Spaced step CellJSON.price (byPrice cells) := by
  have sorted : (byPrice cells).Pairwise fun a b => b.price ≤ a.price :=
    LargestFirst.descending_pairwise CellJSON.price cells
  have perm : (byPrice cells).Perm cells := List.mergeSort_perm cells _
  have distinct : (byPrice cells).Pairwise fun a b => a.price ≠ b.price :=
    List.pairwise_map.mp ((perm.map CellJSON.price).nodup_iff.mpr binned.distinct)
  refine (sorted.and distinct).imp_of_mem ?_
  intro a b memberA memberB ⟨order, different⟩
  obtain ⟨k, priceA⟩ := binned.grid a (perm.mem_iff.mp memberA)
  obtain ⟨l, priceB⟩ := binned.grid b (perm.mem_iff.mp memberB)
  have strict := lt_of_le_of_ne order different.symm
  rw [priceA, priceB] at strict ⊢
  exact grid_gap binned.positive strict

theorem amount_checks (cs : Filter) (w : List CellJSON) (rest : Option (Option Item)) :
    (if runningSum w CellJSON.volume ≤ 0 then some none
    else if runningSum w CellJSON.volume < float64 cs.minVolume ∨
        ∃ most ∈ cs.maxVolume, float64 most < runningSum w CellJSON.volume then some none
    else if (!decide (float64 cs.imbalancePercent ≤ testedShare w CellJSON.bid) &&
        !decide (float64 cs.imbalancePercent ≤ testedShare w CellJSON.ask)) = true then some none
    else if |fsub (runningSum w CellJSON.ask) (runningSum w CellJSON.bid)| < float64 cs.minDelta then some none
    else rest) = if PassesTests cs w then rest else some none := by
  have skew : (!decide (float64 cs.imbalancePercent ≤ testedShare w CellJSON.bid) &&
      !decide (float64 cs.imbalancePercent ≤ testedShare w CellJSON.ask)) = true ↔
        ¬ float64 cs.imbalancePercent ≤ max (testedShare w CellJSON.bid) (testedShare w CellJSON.ask) := by
    simp
  by_cases passes : PassesTests cs w
  · obtain ⟨traded, least, most, larger, delta⟩ := passes
    rw [if_neg (not_le.mpr traded), if_neg (not_or.mpr ⟨not_lt.mpr least, most⟩),
      if_neg (mt skew.mp (not_not.mpr larger)), if_neg (not_lt.mpr delta),
      if_pos ⟨traded, least, most, larger, delta⟩]
  · rw [if_neg passes]
    split_ifs with empty outside level small
    · rfl
    · rfl
    · rfl
    · rfl
    · obtain ⟨least, most⟩ := not_or.mp outside
      exact absurd ⟨not_le.mp empty, not_lt.mp least, most, not_not.mp (mt skew.mpr level), not_lt.mp small⟩ passes

theorem zone_checks (location : Value) (minBody maxBody price : ℚ) (rest : Option (Option Item)) :
    (if location = .string "body" ∧ ¬ (minBody ≤ price ∧ price ≤ maxBody) then some none
    else if location = .string "lowerWick" ∧ ¬ price < minBody then some none
    else if location = .string "upperWick" ∧ ¬ maxBody < price then some none
    else rest) = if InPart location minBody maxBody price then rest else some none := by
  by_cases zone : InPart location minBody maxBody price
  · obtain ⟨body, lower, upper⟩ := zone
    rw [if_neg (not_and_not_right.mpr body), if_neg (not_and_not_right.mpr lower),
      if_neg (not_and_not_right.mpr upper), if_pos ⟨body, lower, upper⟩]
  · rw [if_neg zone]
    split_ifs with body lower upper
    · rfl
    · rfl
    · rfl
    · exact absurd ⟨not_and_not_right.mp body, not_and_not_right.mp lower, not_and_not_right.mp upper⟩ zone

/- The inner loop adds up the neighbours; a position past the end adds nothing. -/
theorem windowSums_eq (sortedCells : List CellJSON) (size : ℚ) (i : ℕ) :
    windowSums sortedCells size i = ⟨runningSum (neighbours size sortedCells i) CellJSON.volume,
      runningSum (neighbours size sortedCells i) CellJSON.bid,
      runningSum (neighbours size sortedCells i) CellJSON.ask⟩ := by
  unfold windowSums neighbours
  induction ⌈size⌉₊ with
  | zero => rfl
  | succ n ih =>
    rw [List.range_succ, List.foldl_append, ih, List.take_add_one, List.getElem?_drop]
    cases here : sortedCells[i + n]? <;> simp [runningSum, here]

theorem windowSize_pos (mergeLevels : ℚ) (sortedCells : List CellJSON) :
    1 ≤ windowSize mergeLevels sortedCells := le_max_left _ _

theorem windowSize_le (mergeLevels : ℚ) (sortedCells : List CellJSON) :
    windowSize mergeLevels sortedCells ≤ max 1 (sortedCells.length : ℚ) :=
  max_le_max le_rfl (min_le_right _ _)

theorem mem_upTo {last : ℚ} {i : ℕ} : i ∈ upTo last ↔ (i : ℚ) ≤ last := by
  rw [upTo, List.mem_range, Int.lt_toNat, Int.lt_add_one_iff, Int.le_floor]
  push_cast
  rfl

theorem whole_size {size : ℚ} (some_size : 1 ≤ size) (whole : size.den = 1) :
    ∃ n : ℕ, 1 ≤ n ∧ size = n := by
  have number := (Rat.den_eq_one_iff size).mp whole
  have positive : 0 ≤ size.num := Rat.num_nonneg.mpr (by linarith)
  have value : size = size.num.toNat := by
    rw [← Int.cast_natCast, Int.toNat_of_nonneg positive, number]
  rw [value] at some_size
  exact ⟨size.num.toNat, by exact_mod_cast some_size, value⟩

theorem fsub_natCast {a b : ℕ} (a_small : a < 2 ^ 53) (b_small : b < 2 ^ 53) :
    fsub a b = (((a : ℤ) - b : ℤ) : ℚ) := by
  have first : float64 a = a := float64_intCast (m := a) (by rw [abs_of_nonneg (by omega)]; exact_mod_cast a_small)
  have second : float64 b = b := float64_intCast (m := b) (by rw [abs_of_nonneg (by omega)]; exact_mod_cast b_small)
  rw [fsub, first, second, ← float64_intCast (abs_lt.mpr ⟨by omega, by omega⟩ : |(a : ℤ) - b| < 2 ^ 53)]
  push_cast
  rfl

theorem fadd_natCast {a b : ℕ} (small : a + b < 2 ^ 53) : fadd a b = ((a + b : ℕ) : ℚ) := by
  have first : float64 a = a := float64_intCast (m := a) (by rw [abs_of_nonneg (by omega)]; omega)
  have second : float64 b = b := float64_intCast (m := b) (by rw [abs_of_nonneg (by omega)]; omega)
  have sum : float64 ((a + b : ℕ) : ℚ) = ((a + b : ℕ) : ℚ) :=
    float64_intCast (m := (a + b : ℕ)) (by rw [abs_of_nonneg (by omega)]; omega)
  rw [fadd, first, second, ← sum]
  push_cast
  rfl

theorem upTo_whole {length n : ℕ} (length_small : length < 2 ^ 53) (small : n < 2 ^ 53) :
    upTo (fsub length n) = List.range (length + 1 - n) := by
  rw [fsub_natCast length_small small, upTo, Int.floor_intCast]
  congr 1
  omega

theorem adjacentWindows_eq {step size : ℚ} {sortedCells : List CellJSON}
    (spaced : Spaced step CellJSON.price sortedCells) (positive : 0 < step) (some_size : 1 ≤ size)
    (length_small : sortedCells.length < 2 ^ 53) (small : size < 2 ^ 53) :
    adjacentWindows step size sortedCells = (upTo (fsub sortedCells.length size)).filterMap fun i =>
      if size.den = 1 ∧ Consecutive step CellJSON.price (neighbours size sortedCells i) then
        some (neighbours size sortedCells i)
      else none := by
  by_cases whole : size.den = 1
  · obtain ⟨n, first, rfl⟩ := whole_size some_size whole
    have few : n < 2 ^ 53 := by exact_mod_cast small
    simp only [adjacentWindows, neighbours, whole, ↓reduceIte, true_and, Rat.num_natCast,
      Int.toNat_natCast, Nat.ceil_natCast, upTo_whole length_small few]
    exact runs_eq_windows spaced positive first
  · simp [adjacentWindows, whole]

section Positions
variable {step : ℚ} (cs : Drawing) {candle : CandleJSON} (short : candle.cells.length < 2 ^ 32)

theorem length_byPrice : (byPrice candle.cells).length = candle.cells.length := List.length_mergeSort _

include short in
theorem windowSize_small : windowSize cs.mergeLevels (byPrice candle.cells) < 2 ^ 53 := by
  refine (windowSize_le _ _).trans_lt (max_lt (by norm_num) ?_)
  rw [length_byPrice]
  exact_mod_cast short.trans (by norm_num)

variable {i : ℕ} (inside : i ∈ positions cs candle)
include inside

include short in
theorem position_inside : i < (byPrice candle.cells).length := by
  have bound := mem_upTo.mp inside
  have count : (byPrice candle.cells).length < 2 ^ 32 := length_byPrice.trans_lt short
  have size := float64_mono (windowSize_pos cs.mergeLevels (byPrice candle.cells))
  have length : float64 (byPrice candle.cells).length = (byPrice candle.cells).length :=
    float64_intCast (m := (byPrice candle.cells).length) (by rw [abs_of_nonneg (by omega)]; omega)
  have last : float64 (((byPrice candle.cells).length - 1 : ℤ) : ℚ) = (((byPrice candle.cells).length - 1 : ℤ) : ℚ) :=
    float64_intCast (abs_lt.mpr ⟨by omega, by omega⟩)
  have one : float64 1 = 1 := by decide +kernel
  have below : fsub (byPrice candle.cells).length (windowSize cs.mergeLevels (byPrice candle.cells)) ≤
      (((byPrice candle.cells).length - 1 : ℤ) : ℚ) := by
    rw [← last, fsub, length]
    apply float64_mono
    push_cast
    linarith
  have whole : (i : ℤ) ≤ (byPrice candle.cells).length - 1 := by exact_mod_cast bound.trans below
  omega

section Whole
variable (whole : (windowSize cs.mergeLevels (byPrice candle.cells)).den = 1)
include short whole

theorem whole_last : ∃ top bottom, (byPrice candle.cells)[i]? = some top ∧ lastCell cs candle i = some bottom ∧
    (neighbours (windowSize cs.mergeLevels (byPrice candle.cells)) (byPrice candle.cells) i).head? = some top ∧
      (neighbours (windowSize cs.mergeLevels (byPrice candle.cells)) (byPrice candle.cells) i).getLast? =
        some bottom := by
  have count : (byPrice candle.cells).length < 2 ^ 32 := length_byPrice.trans_lt short
  have here := position_inside cs short inside
  have atMost := windowSize_le cs.mergeLevels (byPrice candle.cells)
  obtain ⟨n, first, size⟩ := whole_size (windowSize_pos _ _) whole
  unfold positions at inside
  unfold lastCell
  rw [size] at inside atMost ⊢
  have few : n < 2 ^ 33 := by
    have bound : (n : ℚ) < 2 ^ 33 := atMost.trans_lt (max_lt (by norm_num) (by exact_mod_cast count.trans (by norm_num)))
    exact_mod_cast bound
  rw [upTo_whole (by omega) (by omega), List.mem_range] at inside
  have one : ((1 : ℕ) : ℚ) = 1 := Nat.cast_one
  have index : fsub (fadd i n) 1 = ((i + n - 1 : ℕ) : ℚ) := by
    rw [fadd_natCast (by omega), ← one, fsub_natCast (by omega) (by omega), Nat.cast_sub (by omega)]
    push_cast
    rfl
  have top : (byPrice candle.cells)[i]? = some (byPrice candle.cells)[i] := List.getElem?_eq_getElem here
  have bottom : (byPrice candle.cells)[i + n - 1]? = some (byPrice candle.cells)[i + n - 1] :=
    List.getElem?_eq_getElem (by omega)
  have some_cells : n ≠ 0 := Nat.one_le_iff_ne_zero.mp first
  have last : ((byPrice candle.cells).drop i)[n - 1]? = some (byPrice candle.cells)[i + n - 1] := by
    rw [List.getElem?_drop, ← Nat.add_sub_assoc first, bottom]
  refine ⟨(byPrice candle.cells)[i], (byPrice candle.cells)[i + n - 1], top, ?_, ?_, ?_⟩
  · rw [index, atIndex, if_pos ⟨Nat.cast_nonneg _, Rat.den_natCast _⟩, Rat.num_natCast, Int.toNat_natCast, bottom]
  · rw [neighbours, Nat.ceil_natCast, List.head?_take, if_neg some_cells, List.head?_drop, top]
  · rw [neighbours, Nat.ceil_natCast, List.getLast?_take, if_neg some_cells, last, Option.some_or]

end Whole

omit inside in
theorem drawWindow_eq : drawWindow cs candle (byPrice candle.cells)
    (windowSize cs.mergeLevels (byPrice candle.cells)) i =
      let w := neighbours (windowSize cs.mergeLevels (byPrice candle.cells)) (byPrice candle.cells) i
      if PassesTests cs.toFilter w then
        match (byPrice candle.cells)[i]?, lastCell cs candle i with
        | some top, some bottom =>
          if PassesZone cs.toFilter candle (midPrice top bottom) then
            some (some ⟨midPrice top bottom, takenColor cs.toFilter w, cs.shape, cs.opacity,
              sizeFor cs.toFilter (runningSum w CellJSON.volume)⟩)
          else some none
        | _, _ => none
      else some none := by
  simp only [drawWindow, windowSums_eq]
  refine (amount_checks cs.toFilter _ _).trans ?_
  congr 1
  unfold lastCell
  cases (byPrice candle.cells)[i]? with
  | none => rfl
  | some top =>
    cases atIndex (byPrice candle.cells) (fsub (fadd i (windowSize cs.mergeLevels (byPrice candle.cells))) 1) with
    | none => rfl
    | some bottom =>
      refine (zone_checks cs.location _ _ (midPrice top bottom) _).trans ?_
      simp only [takenColor, decide_eq_true_eq]
      rfl

omit inside in
/- With the colours apart the code and the description agree where the bid's share reaches
   the threshold in the test exactly if it is not the smaller one. -/
theorem takenColor_eq_iff (cs : Filter) (w : List CellJSON) : takenColor cs w = largerColor cs w ↔
    cs.colorBid = cs.colorAsk ∨
      (float64 cs.imbalancePercent ≤ testedShare w CellJSON.bid ↔ share w CellJSON.ask ≤ share w CellJSON.bid) := by
  unfold takenColor largerColor
  by_cases bid : float64 cs.imbalancePercent ≤ testedShare w CellJSON.bid
  · by_cases larger : share w CellJSON.bid < share w CellJSON.ask
    · simp [bid, larger]
    · simp [bid, larger, not_lt.mp larger]
  · by_cases larger : share w CellJSON.bid < share w CellJSON.ask
    · simp [bid, larger]
    · simp [bid, larger, not_lt.mp larger, eq_comm]

include short in
/- A turn of the loop draws what is meant exactly if its window does not go astray. -/
theorem drawn_meant_iff : drawWindow cs candle (byPrice candle.cells)
    (windowSize cs.mergeLevels (byPrice candle.cells)) i = some (meant step cs candle i) ↔
      let w := neighbours (windowSize cs.mergeLevels (byPrice candle.cells)) (byPrice candle.cells) i
      (PassesTests cs.toFilter w → (lastCell cs candle i).isSome) ∧
        (PassesAll cs candle i → IsDescribed step cs candle i ∧ (cs.colorBid = cs.colorAsk ∨
          (float64 cs.imbalancePercent ≤ testedShare w CellJSON.bid ↔
            share w CellJSON.ask ≤ share w CellJSON.bid))) ∧
        (IsDescribed step cs candle i → PassesAll cs candle i) := by
  obtain ⟨top, here⟩ : ∃ top, (byPrice candle.cells)[i]? = some top :=
    ⟨_, List.getElem?_eq_getElem (position_inside cs short inside)⟩
  rw [drawWindow_eq cs]
  dsimp only
  rw [← takenColor_eq_iff]
  by_cases passes : PassesTests cs.toFilter
      (neighbours (windowSize cs.mergeLevels (byPrice candle.cells)) (byPrice candle.cells) i)
  · cases last : lastCell cs candle i with
    | none => simp [passes, here]
    | some bottom =>
      by_cases zone : PassesZone cs.toFilter candle (midPrice top bottom)
      · have all : PassesAll cs candle i := ⟨passes, top, here, bottom, last, zone⟩
        by_cases described : IsDescribed step cs candle i
        · obtain ⟨_, _, first, second, head, end_⟩ := whole_last cs short inside described.1
          obtain rfl := Option.some.inj (here.symm.trans first)
          obtain rfl := Option.some.inj (last.symm.trans second)
          simp [passes, here, zone, all, described, meant, figureOf, head, end_]
        · simp [passes, here, zone, all, described, meant]
      · have some_fails : ¬ PassesAll cs candle i := by
          rintro ⟨_, top', first, bottom', second, zone'⟩
          obtain rfl := Option.some.inj (here.symm.trans first)
          obtain rfl := Option.some.inj (last.symm.trans second)
          exact zone zone'
        by_cases described : IsDescribed step cs candle i
        · simp [passes, here, zone, some_fails, described, meant]
        · simp [passes, here, zone, some_fails, described, meant]
  · have some_fails : ¬ PassesAll cs candle i := fun all => passes all.1
    by_cases described : IsDescribed step cs candle i
    · simp [passes, some_fails, described, meant]
    · simp [passes, some_fails, described, meant]

end Positions

section Candle
variable {step : ℚ} {candle : CandleJSON} (binned : Binned step candle.cells)
  (short : candle.cells.length < 2 ^ 32)
include binned short

theorem described_eq (cs : Drawing) :
    described step (some cs) candle = (positions cs candle).filterMap (meant step cs candle) := by
  have length_small : (byPrice candle.cells).length < 2 ^ 53 :=
    length_byPrice.trans_lt (short.trans (by norm_num))
  simp only [described, positions]
  rw [adjacentWindows_eq (spaced_byPrice binned) binned.positive (windowSize_pos _ _) length_small
    (windowSize_small cs short), List.filter_filterMap, List.map_filterMap]
  apply List.filterMap_congr
  intro i _
  by_cases adjacent : (windowSize cs.mergeLevels (byPrice candle.cells)).den = 1 ∧ Consecutive step CellJSON.price
      (neighbours (windowSize cs.mergeLevels (byPrice candle.cells)) (byPrice candle.cells) i)
  · simp only [meant, IsDescribed, adjacent, and_self, ↓reduceIte, Option.filter_some, true_and, decide_eq_true_eq]
    split_ifs <;> rfl
  · have none_meant : ¬ IsDescribed step cs candle i := fun described => adjacent ⟨described.1, described.2.1⟩
    rw [meant, if_neg adjacent, if_neg none_meant, Option.filter_none, Option.map_none]

theorem drawFilter_described {draw : Option Drawing} (each : ∀ cs, draw = some cs → ∀ i ∈ positions cs candle,
    drawWindow cs candle (byPrice candle.cells) (windowSize cs.mergeLevels (byPrice candle.cells)) i =
      some (meant step cs candle i)) :
    drawFilter draw candle (byPrice candle.cells) = some (described step draw candle) := by
  cases draw with
  | none => rfl
  | some cs =>
    rw [described_eq binned short]
    exact scan_meant (each cs rfl)

omit binned short in
theorem itemsToDraw_eq (csSettings : Settings) : itemsToDraw csSettings candle = do
    let medium ← drawFilter (drawMedium csSettings) candle (byPrice candle.cells)
    let large ← drawFilter (drawLarge csSettings) candle (byPrice candle.cells)
    return medium ++ large := by
  by_cases some_cells : 0 < candle.cells.length
  · rw [itemsToDraw, if_pos some_cells]
  · have empty : candle.cells = [] := List.length_eq_zero_iff.mp (Nat.eq_zero_of_not_pos some_cells)
    have nothing : ∀ draw, drawFilter draw candle (byPrice candle.cells) = some [] := by
      intro draw
      cases draw with
      | none => rfl
      | some cs =>
        have none_inside : positions cs candle = [] := by
          apply List.eq_nil_iff_forall_not_mem.mpr
          intro i member
          have inside := position_inside cs (by rw [empty]; exact Nat.two_pow_pos 32) member
          rw [length_byPrice, empty] at inside
          exact absurd inside (Nat.not_lt_zero i)
        change scan _ (positions cs candle) = some []
        rw [none_inside]
        rfl
    rw [itemsToDraw, if_neg some_cells, nothing, nothing]
    rfl

end Candle

def mergeTwo : Settings := fun field => if field = "csMedMergeLevels" then .number 2 else .undefined

def soldCell (price : ℚ) : CellJSON := ⟨price, 80, 20, 100, false, false, false⟩

def candleOf (cells : List CellJSON) : CandleJSON := ⟨0, 100, 110, 90, 110, 200, -120, cells⟩

theorem byPrice_two {a b : ℚ} (order : b ≤ a) : byPrice [soldCell a, soldCell b] = [soldCell a, soldCell b] := by
  apply List.mergeSort_of_pairwise
  simpa [soldCell] using order

end ClusterSearch
