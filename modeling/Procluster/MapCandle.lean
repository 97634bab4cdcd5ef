import Procluster.DeltaTotals
import Procluster.Library.LargestFirst

/-!
The browser's two decoders of a candle, mapBackendCandle of wsClient.ts and of api.ts.
They differ in what they put for missing cell fields. A JavaScript number is NaN or the
double nearest to a rational; a missing field is undefined, which arithmetic and
comparisons read as NaN, and a comparator's NaN counts as equal in the stable sort.
-/
namespace MapCandle
open Aggregate QueryCandles CandlesApi FloatRounding

/-- none is NaN, or undefined read as a number. -/
abbrev Num := Option ℚ

def add : Num → Num → Num
  | some a, some b => some (fadd a b)
  | _, _ => none

def sub : Num → Num → Num
  | some a, some b => some (fsub a b)
  | _, _ => none

/-- Every comparison with NaN is false. -/
def less : Num → Num → Bool
  | some a, some b => float64 a < float64 b
  | _, _ => false

def atMost : Num → Num → Bool
  | some a, some b => float64 a ≤ float64 b
  | _, _ => false

structure BackendCell where
  price : ℚ
  bid : ℚ
  ask : ℚ
  volume : Option ℚ
  isPoc : Option Bool
  isBuyImbalance : Option Bool
  isSellImbalance : Option Bool

structure BackendCandle where
  time : ℤ
  openPrice : ℚ
  high : ℚ
  low : ℚ
  close : ℚ
  volume : ℚ
  delta : ℚ
  cells : List BackendCell

structure ChartCandle where
  timestamp : ℤ
  openPrice : ℚ
  high : ℚ
  low : ℚ
  close : ℚ
  volume : ℚ
  delta : ℚ
  pocPrice : ℚ
  cells : List BackendCell
  vah : ℚ
  val : ℚ

/-- The price of the first cell of the greatest positive volume, or Open. -/
def pocLoop (openPrice : ℚ) (cells : List BackendCell) : ℚ :=
  (cells.foldl (fun (best : Num × ℚ) c =>
    if less best.1 c.volume then (c.volume, c.price) else best) (some 0, openPrice)).2

def sortByVol (cells : List BackendCell) : List BackendCell :=
  cells.mergeSort fun a b => !less (some 0) (sub b.volume a.volume)

def vaPrices (targetVol : Num) : Num → List BackendCell → List ℚ
  | _, [] => []
  | runningVol, c :: cells =>
    let runningVol := add runningVol c.volume
    c.price :: if atMost targetVol runningVol then [] else vaPrices targetVol runningVol cells

def mapBackendCandle (cellOf : BackendCell → BackendCell) (bc : BackendCandle) : ChartCandle :=
  let prices := vaPrices (some (fmul bc.volume (7 / 10))) (some 0) (sortByVol bc.cells)
  { timestamp := bc.time * 1000
    openPrice := bc.openPrice
    high := bc.high
    low := bc.low
    close := bc.close
    volume := bc.volume
    delta := bc.delta
    pocPrice := pocLoop bc.openPrice bc.cells
    cells := bc.cells.map cellOf
    vah := prices.max?.getD bc.high
    val := prices.min?.getD bc.low }

/-- mapBackendCandle of wsClient.ts -/
def wsMapBackendCandle : BackendCandle → ChartCandle :=
  mapBackendCandle fun c => { c with
    volume := some (c.volume.getD (fadd c.bid c.ask))
    isPoc := some (c.isPoc.getD false)
    isBuyImbalance := some (c.isBuyImbalance.getD false)
    isSellImbalance := some (c.isSellImbalance.getD false) }

/-- mapBackendCandle of api.ts -/
def apiMapBackendCandle : BackendCandle → ChartCandle := mapBackendCandle fun c => c

/-- The JSON of aggregate.ClusterCandle: its cells have a price, a bid and an ask. -/
def hubJSON (c : ClusterCandle) : BackendCandle where
  time := c.time
  openPrice := c.openPrice
  high := c.high
  low := c.low
  close := c.close
  volume := c.volume
  delta := c.delta
  cells := c.cells.map fun cell => ⟨cell.price, cell.bid, cell.ask, none, none, none, none⟩

def restCell (cell : CellJSON) : BackendCell where
  price := cell.price
  bid := cell.bid
  ask := cell.ask
  volume := some cell.volume
  isPoc := some cell.isPoc
  isBuyImbalance := some cell.isBuyImbalance
  isSellImbalance := some cell.isSellImbalance

def restJSON (c : CandleJSON) : BackendCandle where
  time := c.time
  openPrice := c.openPrice
  high := c.high
  low := c.low
  close := c.close
  volume := c.volume
  delta := c.delta
  cells := c.cells.map restCell

structure ReadAlike (live rest : ChartCandle) : Prop where
  pocPrice : live.pocPrice = rest.pocPrice
  vah : live.vah = rest.vah
  val : live.val = rest.val
  volumes : live.cells.map (fun c => c.volume.map float64) = rest.cells.map fun c => c.volume.map float64

def level (c : ClusterCell) : ℚ × ℚ := (c.price, fadd c.bid c.ask)

def byVolume (cells : List ClusterCell) : List (ℚ × ℚ) :=
  (cells.map level).mergeSort fun a b => b.2 ≤ a.2

def runningVol (levels : List (ℚ × ℚ)) : ℚ := levels.foldl (fun running p => fadd running p.2) 0

/-- The levels in front of some level of the price stay below 70 % of the volume. -/
def InValueArea (cells : List ClusterCell) (volume price : ℚ) : Prop :=
  ∃ before after vol, byVolume cells = before ++ (price, vol) :: after ∧
    ∀ front, front <+: before → front ≠ [] → runningVol front < fmul volume (7 / 10)

def FirstBusiest (cells : List ClusterCell) (c : ClusterCell) : Prop :=
  ∃ before after, cells = before ++ c :: after ∧
    (∀ d ∈ before, fadd d.bid d.ask < fadd c.bid c.ask) ∧ ∀ d ∈ after, fadd d.bid d.ask ≤ fadd c.bid c.ask

def firstPrice (cells : List ClusterCell) : ℚ :=
  ((cells.find? fun c => c.price ≠ 0).map ClusterCell.price).getD 0

/-- The sum of bid and ask is the double of the tenth that round1 makes of it. -/
def SumIsTenth (c : ClusterCell) : Prop :=
  float64 (CandlesApi.round1 fmul (fadd c.bid c.ask)) = fadd c.bid c.ask

/-- No cell is dropped or rounded on the way, the busiest cell comes first among the
    priced ones, and the value area reaches the lowest and the highest price. -/
structure Unambiguous (cells : List ClusterCell) (volume : ℚ) : Prop where
  kept : ∀ c ∈ cells, ¬ (c.price = 0 ∧ c.bid = 0 ∧ c.ask = 0)
  tenths : ∀ c ∈ cells, SumIsTenth c
  busiest : ∃ c, FirstBusiest cells c ∧ c.price = firstPrice cells
  lowest : ∀ c ∈ cells, (∀ d ∈ cells, c.price ≤ d.price) → InValueArea cells volume c.price
  highest : ∀ c ∈ cells, (∀ d ∈ cells, d.price ≤ c.price) → InValueArea cells volume c.price

section Live
variable {cells : List BackendCell} (missing : ∀ c ∈ cells, c.volume = none)
include missing

/- Without volumes no comparison succeeds: the POC stays at Open, the order stays, and
   every price is pushed. -/
theorem pocLoop_missing (openPrice : ℚ) : pocLoop openPrice cells = openPrice := by
  have stays : cells.foldl (fun (best : Num × ℚ) c =>
      if less best.1 c.volume then (c.volume, c.price) else best) (some 0, openPrice) =
        (some 0, openPrice) := by
    apply List.foldlRecOn (motive := fun best => best = (some 0, openPrice)) cells _ rfl
    intro best same c hc
    rw [same, missing c hc]
    rfl
  rw [pocLoop, stays]

theorem sortByVol_missing : sortByVol cells = cells := by
  apply List.mergeSort_of_pairwise
  apply List.pairwise_of_forall_mem_list
  intro a ha b _
  rw [missing a ha]
  cases b.volume <;> rfl

theorem vaPrices_missing (targetVol running : Num) :
    vaPrices targetVol running cells = cells.map BackendCell.price := by
  induction cells generalizing running with
  | nil => rfl
  | cons c cells ih =>
    obtain ⟨first, rest⟩ := List.forall_mem_cons.mp missing
    have sum : add running c.volume = none := by
      rw [first]
      cases running <;> rfl
    have never : atMost targetVol none = false := by cases targetVol <;> rfl
    rw [vaPrices, sum, never, List.map_cons, ← ih rest none]
    rfl

end Live

theorem loop_open (closeOf : ClusterCell → ℚ) (cells : List ClusterCell) (init : ClusterCandle) :
    (cells.foldl (loopStep closeOf) init).openPrice =
      if init.openPrice = 0 then firstPrice cells else init.openPrice := by
  induction cells generalizing init with
  | nil =>
    split
    · rename_i zero
      exact zero
    · rfl
  | cons c cells ih =>
    rw [List.foldl_cons, ih]
    simp only [loopStep, firstPrice]
    by_cases unset : init.openPrice = 0
    · by_cases unpriced : c.price = 0
      · simp [unset, unpriced]
      · simp [unset, unpriced]
    · simp [unset]

theorem hub_open (closeOf : ClusterCell → ℚ) (time : ℤ) (cells : List ClusterCell) :
    (WsHub.candleOf closeOf time cells).openPrice = firstPrice cells := by
  change (candleLoop closeOf time cells).openPrice = firstPrice cells
  rw [candleLoop_eq, loop_open]
  rfl

theorem hub_cells (closeOf : ClusterCell → ℚ) (time : ℤ) (cells : List ClusterCell) :
    (WsHub.candleOf closeOf time cells).cells = cells := (candleLoop_frame closeOf time cells).2

def vaLevels (target running : ℚ) (levels : List (ℚ × ℚ)) : List (ℚ × ℚ) :=
  LargestFirst.takeUntil (fun s => decide (target ≤ s)) (fun s p => fadd s p.2) running levels

def staysBefore (a b : ℚ × Num) : Bool := !less (some 0) (sub b.2 a.2)

def pocStep (best : ℚ × ℚ) (p : ℚ × ℚ) : ℚ × ℚ := if best.1 < p.2 then (p.2, p.1) else best

section Known
variable {cells : List BackendCell} {levels : List (ℚ × ℚ)}
  (known : cells.map (fun c => (c.price, c.volume.map float64)) = levels.map fun p => (p.1, some p.2))
include known

theorem pocLoop_known (openPrice : ℚ) :
    pocLoop openPrice cells = (levels.foldl pocStep (0, openPrice)).2 := by
  have scans : ∀ (best : Num) (double : ℚ) (price : ℚ), best.map float64 = some double →
      (cells.foldl (fun (best : Num × ℚ) c =>
        if less best.1 c.volume then (c.volume, c.price) else best) (best, price)).2 =
        (levels.foldl pocStep (double, price)).2 := by
    induction levels generalizing cells with
    | nil =>
      rw [List.map_nil, List.map_eq_nil_iff] at known
      rw [known]
      intro best double price _
      rfl
    | cons p levels ih =>
      intro best double price seen
      obtain ⟨c, rest, rfl, first, later⟩ := List.map_eq_cons_iff.mp known
      obtain ⟨named, volume⟩ := Prod.mk.inj first
      obtain ⟨number, rfl, same⟩ := Option.map_eq_some_iff.mp seen
      obtain ⟨vol, given, value⟩ := Option.map_eq_some_iff.mp volume
      rw [List.foldl_cons, List.foldl_cons, pocStep, given, named, less, same, value]
      by_cases greater : double < p.2
      · simp only [greater, decide_true, ↓reduceIte]
        exact ih later _ _ _ (by rw [Option.map_some, value])
      · simp only [greater, decide_false, Bool.false_eq_true, ↓reduceIte]
        exact ih later _ _ _ seen
  exact scans (some 0) 0 openPrice (by simp)

theorem vaPrices_known (target running : ℚ) :
    vaPrices (some target) (some running) cells =
      (vaLevels (float64 target) (float64 running) levels).map Prod.fst := by
  induction levels generalizing cells running with
  | nil =>
    rw [List.map_nil, List.map_eq_nil_iff] at known
    rw [known]
    rfl
  | cons p levels ih =>
    obtain ⟨c, rest, rfl, first, later⟩ := List.map_eq_cons_iff.mp known
    obtain ⟨price, volume⟩ := Prod.mk.inj first
    obtain ⟨vol, given, value⟩ := Option.map_eq_some_iff.mp volume
    have sum : fadd running vol = fadd (float64 running) p.2 := by
      rw [← value, fadd, fadd, float64_float64, float64_float64]
    have whole := ih later (fadd running vol)
    rw [float64_fadd, sum] at whole
    simp only [vaPrices, vaLevels, LargestFirst.takeUntil, given, price, add, atMost, decide_eq_true_eq,
      float64_fadd, sum, List.map_cons, List.cons.injEq, true_and]
    split
    · rfl
    · exact whole

theorem sortByVol_known : (sortByVol cells).map (fun c => (c.price, c.volume.map float64)) =
    (levels.mergeSort fun a b => b.2 ≤ a.2).map fun p => (p.1, some p.2) := by
  have byKey : ∀ a ∈ cells, ∀ b ∈ cells, (!less (some 0) (sub b.volume a.volume)) =
      staysBefore (a.price, a.volume.map float64) (b.price, b.volume.map float64) := by
    intro a _ b _
    cases a.volume <;> cases b.volume <;> simp [staysBefore, less, sub, fsub]
  have doubles : ∀ p ∈ levels, float64 p.2 = p.2 := by
    intro p hp
    have member := List.mem_map_of_mem (f := fun p : ℚ × ℚ => (p.1, some p.2)) hp
    rw [← known] at member
    obtain ⟨c, -, same⟩ := List.mem_map.mp member
    obtain ⟨vol, -, value⟩ := Option.map_eq_some_iff.mp (Prod.mk.inj same).2
    rw [← value, float64_float64]
  have byLevel : ∀ a ∈ levels, ∀ b ∈ levels, (decide (b.2 ≤ a.2)) =
      staysBefore (a.1, some a.2) (b.1, some b.2) := by
    intro a ha b hb
    simp only [staysBefore, less, sub, float64_zero, float64_pos, fsub, sub_pos, doubles a ha,
      doubles b hb]
    rw [← decide_not, decide_eq_decide, not_lt]
  rw [sortByVol, List.map_mergeSort byKey, known, List.map_mergeSort byLevel]

end Known

def AllZero (c : ClusterCell) : Prop := c.price = 0 ∧ c.bid = 0 ∧ c.ask = 0

theorem forall_zipIdx {cells : List ClusterCell} (holds : ClusterCell → Prop) :
    (∀ p ∈ cells.zipIdx, holds p.1) ↔ ∀ c ∈ cells, holds c := by
  rw [← List.forall_mem_map (f := Prod.fst), List.zipIdx_map_fst]

theorem cellsJSON_length_iff (cells : List ClusterCell) :
    (cellsJSON cells).length = cells.length ↔ ∀ c ∈ cells, ¬ AllZero c := by
  rw [← forall_zipIdx, ← List.length_zipIdx (l := cells), cellsJSON, List.filterMap_length_eq_length]
  apply forall₂_congr
  intro p _
  unfold AllZero
  split <;> simp_all

theorem cellsJSON_kept {cells : List ClusterCell} (kept : ∀ c ∈ cells, ¬ AllZero c) :
    cellsJSON cells = cells.zipIdx.map fun p => cellJSON cells p.2 p.1 := by
  rw [← List.filterMap_eq_map, cellsJSON]
  apply List.filterMap_congr
  intro p hp
  exact if_neg ((forall_zipIdx fun c => ¬ AllZero c).mpr kept p hp)

theorem volumes_iff (cells : List ClusterCell) :
    cells.map (fun c => some (fadd c.bid c.ask)) = (cellsJSON cells).map (fun c => some (float64 c.volume)) ↔
      (∀ c ∈ cells, ¬ AllZero c) ∧ ∀ c ∈ cells, SumIsTenth c := by
  have rounded : (∀ c ∈ cells, ¬ AllZero c) → (cellsJSON cells).map (fun c => some (float64 c.volume)) =
      cells.map fun c => some (float64 (CandlesApi.round1 fmul (fadd c.bid c.ask))) := by
    intro kept
    rw [cellsJSON_kept kept, List.map_map]
    conv_rhs => rw [← List.zipIdx_map_fst 0 cells, List.map_map]
    rfl
  constructor
  · intro same
    have length := congrArg List.length same
    rw [List.length_map, List.length_map] at length
    have kept := (cellsJSON_length_iff cells).mp length.symm
    refine ⟨kept, ?_⟩
    intro c hc
    rw [rounded kept, List.map_inj_left] at same
    exact (Option.some.inj (same c hc)).symm
  · rintro ⟨kept, tenths⟩
    rw [rounded kept, List.map_inj_left]
    intro c hc
    rw [tenths c hc]

theorem rest_known {cells : List ClusterCell} (kept : ∀ c ∈ cells, ¬ AllZero c)
    (tenths : ∀ c ∈ cells, SumIsTenth c) :
    ((cellsJSON cells).map restCell).map (fun c => (c.price, c.volume.map float64)) =
      (cells.map level).map fun p => (p.1, some p.2) := by
  rw [cellsJSON_kept kept, List.map_map, List.map_map, List.map_map]
  conv_rhs => rw [← List.zipIdx_map_fst 0 cells, List.map_map]
  apply List.map_congr_left
  intro p hp
  have exact := (forall_zipIdx SumIsTenth).mpr tenths p hp
  change (p.1.price, some (float64 (CandlesApi.round1 fmul (fadd p.1.bid p.1.ask)))) = _
  rw [exact]
  rfl

theorem busiest_iff (cells : List ClusterCell) (c : ClusterCell) : FirstBusiest cells c ↔
    LargestFirst.FirstMost (fun d : ClusterCell => fadd d.bid d.ask) cells c := Iff.rfl

theorem pocStep_scan (openPrice : ℚ) (levels : List (ℚ × ℚ)) :
    (levels.foldl pocStep (0, openPrice)).2 =
      ((LargestFirst.scan Prod.snd levels).map Prod.fst).getD openPrice := by
  let seen (best : ℚ × Option (ℚ × ℚ)) : ℚ × ℚ := (best.1, (best.2.map Prod.fst).getD openPrice)
  have start : ((0, openPrice) : ℚ × ℚ) = seen (0, none) := rfl
  rw [LargestFirst.scan, start, List.foldl_hom seen]
  intro best p
  by_cases greater : best.1 < p.2
  · simp [seen, pocStep, greater]
  · simp [seen, pocStep, greater]

theorem poc_busiest {cells : List ClusterCell} {c : ClusterCell} (first : FirstBusiest cells c)
    (positive : 0 < fadd c.bid c.ask) (openPrice : ℚ) :
    ((cells.map level).foldl pocStep (0, openPrice)).2 = c.price := by
  have levels : LargestFirst.FirstMost Prod.snd (cells.map level) (level c) :=
    ((busiest_iff cells c).mp first).map fun _ _ => rfl
  rw [pocStep_scan, LargestFirst.scan_firstMost levels positive]
  rfl

/- Of two lists, one inside the other, the extreme elements agree when those of the
   larger list are in the smaller one. -/
theorem extreme_iff {r : ℚ → ℚ → Prop} (antisymm : ∀ a b, r a b → r b a → a = b)
    {xs ys : List ℚ} (inside : ∀ y ∈ ys, y ∈ xs) {m n : ℚ} (least : m ∈ xs ∧ ∀ x ∈ xs, r m x)
    (leastInside : n ∈ ys ∧ ∀ y ∈ ys, r n y) :
    m = n ↔ ∀ x ∈ xs, (∀ y ∈ xs, r x y) → x ∈ ys := by
  constructor
  · rintro rfl x hx extreme
    rw [antisymm x m (extreme m least.1) (least.2 x hx)]
    exact leastInside.1
  · intro reaches
    exact antisymm m n (least.2 n (inside n leastInside.1))
      (leastInside.2 m (reaches m least.1 least.2))

section ValueArea
variable (cells : List ClusterCell) (volume : ℚ)

def vaOf : List ℚ := (vaLevels (fmul volume (7 / 10)) 0 (byVolume cells)).map Prod.fst

theorem mem_vaOf (price : ℚ) : price ∈ vaOf cells volume ↔ InValueArea cells volume price := by
  have taken (p : ℚ × ℚ) : p ∈ vaLevels (fmul volume (7 / 10)) 0 (byVolume cells) ↔
      ∃ before after, byVolume cells = before ++ p :: after ∧
        ∀ front, front <+: before → front ≠ [] → runningVol front < fmul volume (7 / 10) := by
    rw [vaLevels, LargestFirst.mem_takeUntil]
    simp only [decide_eq_false_iff_not, not_le, runningVol]
  rw [vaOf, List.mem_map]
  constructor
  · rintro ⟨⟨price, vol⟩, inside, rfl⟩
    obtain ⟨before, after, split, each⟩ := (taken _).mp inside
    exact ⟨before, after, vol, split, each⟩
  · rintro ⟨before, after, vol, split, each⟩
    exact ⟨(price, vol), (taken _).mpr ⟨before, after, split, each⟩, rfl⟩

theorem vaOf_inside : ∀ price ∈ vaOf cells volume, price ∈ cells.map ClusterCell.price := by
  intro price inside
  obtain ⟨before, after, vol, split, _⟩ := (mem_vaOf cells volume price).mp inside
  have member : (price, vol) ∈ byVolume cells := by rw [split]; simp
  rw [byVolume, (List.mergeSort_perm _ _).mem_iff] at member
  obtain ⟨c, hc, same⟩ := List.mem_map.mp member
  exact List.mem_map.mpr ⟨c, hc, congrArg Prod.fst same⟩

variable {cells} (nonempty : cells ≠ [])
include nonempty

theorem vaOf_nonempty : vaOf cells volume ≠ [] := by
  have some_level : byVolume cells ≠ [] := by
    intro empty
    have length : (byVolume cells).length = cells.length := by
      rw [byVolume, (List.mergeSort_perm _ _).length_eq, List.length_map]
    rw [empty, List.length_nil] at length
    exact nonempty (List.length_eq_zero_iff.mp length.symm)
  rw [vaOf, Ne, List.map_eq_nil_iff]
  exact LargestFirst.takeUntil_ne_nil some_level

theorem val_iff (low other : ℚ) :
    (cells.map ClusterCell.price).min?.getD low = (vaOf cells volume).min?.getD other ↔
      ∀ c ∈ cells, (∀ d ∈ cells, c.price ≤ d.price) → InValueArea cells volume c.price := by
  have prices : cells.map ClusterCell.price ≠ [] := mt List.map_eq_nil_iff.mp nonempty
  obtain ⟨m, lowest⟩ := Option.isSome_iff_exists.mp (List.isSome_min?_of_ne_nil prices)
  obtain ⟨n, inside⟩ :=
    Option.isSome_iff_exists.mp (List.isSome_min?_of_ne_nil (vaOf_nonempty volume nonempty))
  rw [lowest, inside, Option.getD_some, Option.getD_some,
    extreme_iff (fun _ _ => le_antisymm) (vaOf_inside cells volume) (List.min?_eq_some_iff.mp lowest)
      (List.min?_eq_some_iff.mp inside)]
  simp only [List.forall_mem_map, mem_vaOf]

theorem vah_iff (high other : ℚ) :
    (cells.map ClusterCell.price).max?.getD high = (vaOf cells volume).max?.getD other ↔
      ∀ c ∈ cells, (∀ d ∈ cells, d.price ≤ c.price) → InValueArea cells volume c.price := by
  have prices : cells.map ClusterCell.price ≠ [] := mt List.map_eq_nil_iff.mp nonempty
  obtain ⟨m, highest⟩ := Option.isSome_iff_exists.mp (List.isSome_max?_of_ne_nil prices)
  obtain ⟨n, inside⟩ :=
    Option.isSome_iff_exists.mp (List.isSome_max?_of_ne_nil (vaOf_nonempty volume nonempty))
  rw [highest, inside, Option.getD_some, Option.getD_some,
    extreme_iff (r := fun a b => b ≤ a) (fun _ _ below above => le_antisymm above below)
      (vaOf_inside cells volume) (List.max?_eq_some_iff.mp highest)
      (List.max?_eq_some_iff.mp inside)]
  simp only [List.forall_mem_map, mem_vaOf]

end ValueArea

theorem live_decoded (closeOf : ClusterCell → ℚ) (time : ℤ) (cells : List ClusterCell) :
    let live := wsMapBackendCandle (hubJSON (WsHub.candleOf closeOf time cells))
    live.pocPrice = firstPrice cells ∧
      (∃ high, live.vah = (cells.map ClusterCell.price).max?.getD high) ∧
      (∃ low, live.val = (cells.map ClusterCell.price).min?.getD low) ∧
      live.cells.map (fun c => c.volume.map float64) = cells.map fun c => some (fadd c.bid c.ask) := by
  have missing : ∀ c ∈ (hubJSON (WsHub.candleOf closeOf time cells)).cells, c.volume = none := by
    intro c hc
    obtain ⟨d, _, rfl⟩ := List.mem_map.mp hc
    rfl
  have prices : (hubJSON (WsHub.candleOf closeOf time cells)).cells.map BackendCell.price =
      cells.map ClusterCell.price := by
    rw [hubJSON, List.map_map, hub_cells]
    rfl
  simp only [wsMapBackendCandle, mapBackendCandle, pocLoop_missing missing,
    sortByVol_missing missing, vaPrices_missing missing, prices]
  refine ⟨hub_open closeOf time cells, ⟨_, rfl⟩, ⟨_, rfl⟩, ?_⟩
  rw [hubJSON, List.map_map, List.map_map, hub_cells]
  apply List.map_congr_left
  intro c _
  exact congrArg some (float64_fadd c.bid c.ask)

theorem rest_volumes (r : ClusterCandle) :
    (apiMapBackendCandle (restJSON (candleJSON r))).cells.map (fun c => c.volume.map float64) =
      (cellsJSON r.cells).map fun c => some (float64 c.volume) := by
  rw [apiMapBackendCandle, mapBackendCandle, restJSON, candleJSON, List.map_map, List.map_map]
  rfl

theorem rest_decoded {r : ClusterCandle} (kept : ∀ c ∈ r.cells, ¬ AllZero c)
    (tenths : ∀ c ∈ r.cells, SumIsTenth c) :
    let rest := apiMapBackendCandle (restJSON (candleJSON r))
    rest.pocPrice = ((r.cells.map level).foldl pocStep (0, r.openPrice)).2 ∧
      rest.vah = (vaOf r.cells r.volume).max?.getD r.high ∧
      rest.val = (vaOf r.cells r.volume).min?.getD r.low := by
  have known := rest_known kept tenths
  have sorted := sortByVol_known known
  simp only [apiMapBackendCandle, mapBackendCandle, restJSON, candleJSON, pocLoop_known known,
    vaPrices_known sorted, vaOf, byVolume, float64_fmul, float64_zero, and_self]

/-- Live and REST candle of one list of cells are read alike exactly when nothing is
    dropped or rounded, the first priced cell is the busiest one, and the value area
    reaches both ends. -/
theorem read_alike_iff (closeOf : ClusterCell → ℚ) (time : ℤ) (cells : List ClusterCell)
    (r : ClusterCandle) (same : r.cells = cells) (traded : ∃ c ∈ cells, 0 < fadd c.bid c.ask) :
    ReadAlike (wsMapBackendCandle (hubJSON (WsHub.candleOf closeOf time cells)))
      (apiMapBackendCandle (restJSON (candleJSON r))) ↔ Unambiguous cells r.volume := by
  subst same
  obtain ⟨c, hc, positive⟩ := traded
  have nonempty : r.cells ≠ [] := List.ne_nil_of_mem hc
  obtain ⟨livePoc, ⟨high, liveVah⟩, ⟨low, liveVal⟩, liveVolumes⟩ :=
    live_decoded closeOf time r.cells
  have poc : ∀ d, FirstBusiest r.cells d →
      ((r.cells.map level).foldl pocStep (0, r.openPrice)).2 = d.price :=
    fun d first =>
      poc_busiest first (positive.trans_le (((busiest_iff r.cells d).mp first).most c hc)) _
  constructor
  · intro alike
    have volumes := alike.volumes
    rw [liveVolumes, rest_volumes] at volumes
    obtain ⟨kept, tenths⟩ := (volumes_iff r.cells).mp volumes
    obtain ⟨restPoc, restVah, restVal⟩ := rest_decoded kept tenths
    obtain ⟨d, first⟩ : ∃ d, FirstBusiest r.cells d := LargestFirst.exists_firstMost nonempty
    refine ⟨kept, tenths, ⟨d, first, ?_⟩, ?_, ?_⟩
    · rw [← poc d first, ← restPoc, ← alike.pocPrice, livePoc]
    · refine (val_iff r.volume nonempty low r.low).mp ?_
      rw [← liveVal, ← restVal, alike.val]
    · refine (vah_iff r.volume nonempty high r.high).mp ?_
      rw [← liveVah, ← restVah, alike.vah]
  · intro clear
    obtain ⟨restPoc, restVah, restVal⟩ := rest_decoded clear.kept clear.tenths
    obtain ⟨d, first, price⟩ := clear.busiest
    constructor
    · rw [livePoc, restPoc, poc d first, price]
    · rw [liveVah, restVah]
      exact (vah_iff r.volume nonempty high r.high).mpr clear.highest
    · rw [liveVal, restVal]
      exact (val_iff r.volume nonempty low r.low).mpr clear.lowest
    · rw [liveVolumes, rest_volumes]
      exact (volumes_iff r.cells).mpr ⟨clear.kept, clear.tenths⟩

theorem single_cell_alike :
    ReadAlike (wsMapBackendCandle (hubJSON (WsHub.buildCandle 60 [⟨1000, 1, 2⟩])))
      (apiMapBackendCandle (restJSON (candleJSON ⟨60, 1000, 1000, 1000, 1000, 3, 1, [⟨1000, 1, 2⟩]⟩))) := by
  refine (read_alike_iff (fun c => c.price) 60 [⟨1000, 1, 2⟩]
    ⟨60, 1000, 1000, 1000, 1000, 3, 1, [⟨1000, 1, 2⟩]⟩ rfl ⟨⟨1000, 1, 2⟩, by decide, by decide +kernel⟩).mpr ?_
  have area : InValueArea [⟨1000, 1, 2⟩] 3 1000 := by
    refine ⟨[], [], fadd 1 2, by simp [byVolume, level], ?_⟩
    intro front inside some_front
    exact absurd (List.prefix_nil.mp inside) some_front
  constructor
  · decide +kernel
  · intro c hc
    obtain rfl := List.mem_singleton.mp hc
    unfold SumIsTenth
    decide +kernel
  · exact ⟨⟨1000, 1, 2⟩, ⟨[], [], rfl, by simp, by simp⟩, by decide +kernel⟩
  · intro c hc _
    obtain rfl := List.mem_singleton.mp hc
    exact area
  · intro c hc _
    obtain rfl := List.mem_singleton.mp hc
    exact area

/-- Two cells, the higher one busier: the live POC is Open, the REST one the busy cell. -/
theorem live_poc_is_open :
    ¬ ReadAlike (wsMapBackendCandle (hubJSON
        (WsHub.buildCandle 60 [⟨1000, 1, 1⟩, ⟨2005 / 2, 5, 5⟩])))
      (apiMapBackendCandle (restJSON (candleJSON
        ⟨60, 1000, 2005 / 2, 1000, 2005 / 2, 12, 0, [⟨1000, 1, 1⟩, ⟨2005 / 2, 5, 5⟩]⟩))) := by
  intro alike
  have poc := alike.pocPrice
  revert poc
  decide +kernel

end MapCandle
