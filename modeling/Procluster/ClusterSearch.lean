import Procluster.CandlesApi
import Procluster.Library.SlidingWindows

/-!
Cluster Search of ClusterChart.tsx, which is written out twice: for the mouse, which
collects matches, and for the canvas, which collects items to draw. A number is the
double that a rational names. An access to a field of undefined throws, which is none here.
-/
namespace ClusterSearch
open CandlesApi (CandleJSON CellJSON)
open SlidingWindows FloatRounding

/-- A field of the settings object; a missing field is undefined. -/
inductive Value where
  | undefined
  | null
  | bool (b : Bool)
  | number (q : ℚ)
  | string (s : String)
  | object
  deriving DecidableEq

def Value.truthy : Value → Bool
  | .undefined | .null => false
  | .bool b => b
  | .number q => q ≠ 0
  | .string s => s ≠ ""
  | .object => true

/-- value || other -/
def Value.orElse (value other : Value) : Value := if value.truthy then value else other

/-- typeof value === "number" ? value : other -/
def Value.numberOr (value : Value) (other : ℚ) : ℚ :=
  match value with
  | .number q => q
  | _ => other

abbrev Settings := String → Value

inductive FilterType where
  | medium
  | large
  deriving DecidableEq

structure Filter where
  mergeLevels : ℚ
  imbalancePercent : ℚ
  minDelta : ℚ
  location : Value
  minVolume : ℚ
  maxVolume : Option ℚ
  range : ℚ
  minSize : ℚ
  maxSize : ℚ
  colorBid : Value
  colorAsk : Value

structure Match where
  filterType : FilterType
  sumVolume : ℚ
  bidPercent : ℚ
  askPercent : ℚ
  isBidDominant : Bool
  isAskDominant : Bool
  price : ℚ
  size : ℚ
  color : Value

structure Drawing extends Filter where
  shape : Value
  opacity : ℚ

structure Item where
  price : ℚ
  color : Value
  shape : Value
  opacity : ℚ
  size : ℚ
  deriving DecidableEq

structure Sums where
  volume : ℚ
  bid : ℚ
  ask : ℚ

/-- The inner loop, whose j runs below a size that need not be whole. -/
def windowSums (sortedCells : List CellJSON) (size : ℚ) (i : ℕ) : Sums :=
  (List.range ⌈size⌉₊).foldl (fun (sums : Sums) j =>
    match sortedCells[i + j]? with
    | some cell => ⟨fadd sums.volume cell.volume, fadd sums.bid cell.bid, fadd sums.ask cell.ask⟩
    | none => sums) ⟨0, 0, 0⟩

/-- An array at an index that may be a fraction; none is undefined. -/
def atIndex (sortedCells : List CellJSON) (index : ℚ) : Option CellJSON :=
  if 0 ≤ index ∧ index.den = 1 then sortedCells[index.num.toNat]? else none

def upTo (last : ℚ) : List ℕ := List.range (⌊last⌋ + 1).toNat

def byPrice (cells : List CellJSON) : List CellJSON := cells.mergeSort fun a b => b.price ≤ a.price

/-- Math.max(1, Math.min(levels, length)) -/
def windowSize (mergeLevels : ℚ) (sortedCells : List CellJSON) : ℚ :=
  max 1 (min (float64 mergeLevels) sortedCells.length)

def hoverMedium (csSettings : Settings) : Option Filter :=
  let csMergeLevels := (csSettings "csMergeLevels").numberOr 1
  let csImbalancePercent := (csSettings "csImbalancePercent").numberOr 60
  let csMedMinVolume := (csSettings "csMedMinVolume").numberOr 100
  let csMedMaxVolume := (csSettings "csMedMaxVolume").numberOr 500
  if csSettings "csMedEnabled" = .bool false then none
  else some {
    mergeLevels := (csSettings "csMedMergeLevels").numberOr csMergeLevels
    imbalancePercent := (csSettings "csMedImbalancePercent").numberOr csImbalancePercent
    minDelta := (csSettings "csMedMinDelta").numberOr 0
    location := (csSettings "csMedLocation").orElse (.string "any")
    minVolume := csMedMinVolume
    maxVolume := some csMedMaxVolume
    range := fsub csMedMaxVolume csMedMinVolume
    minSize := (csSettings "csMedMinSize").numberOr 4
    maxSize := (csSettings "csMedMaxSize").numberOr 12
    colorBid := (csSettings "csMedColorBid").orElse (.string "#ef4444")
    colorAsk := (csSettings "csMedColorAsk").orElse (.string "#10b981") }

def hoverLarge (csSettings : Settings) : Option Filter :=
  let csMergeLevels := (csSettings "csMergeLevels").numberOr 1
  let csImbalancePercent := (csSettings "csImbalancePercent").numberOr 60
  let csLargeMinVolume := (csSettings "csLargeMinVolume").numberOr 500
  if csSettings "csLargeEnabled" = .bool false then none
  else some {
    mergeLevels := (csSettings "csLargeMergeLevels").numberOr csMergeLevels
    imbalancePercent := (csSettings "csLargeImbalancePercent").numberOr csImbalancePercent
    minDelta := (csSettings "csLargeMinDelta").numberOr 0
    location := (csSettings "csLargeLocation").orElse (.string "any")
    minVolume := csLargeMinVolume
    maxVolume := none
    range := fmul csLargeMinVolume 2
    minSize := (csSettings "csLargeMinSize").numberOr 10
    maxSize := (csSettings "csLargeMaxSize").numberOr 20
    colorBid := (csSettings "csLargeColorBid").orElse (.string "#f43f5e")
    colorAsk := (csSettings "csLargeColorAsk").orElse (.string "#34d399") }

/-- One turn of the hover loop; askPercentOf is the expression its filter has. -/
def hoverWindow (filterType : FilterType) (askPercentOf : ℚ → ℚ) (cs : Filter) (candle : CandleJSON)
    (sortedCells : List CellJSON) (size : ℚ) (i : ℕ) : Option (Option Match) :=
  let maxBody := max (float64 candle.openPrice) (float64 candle.close)
  let minBody := min (float64 candle.openPrice) (float64 candle.close)
  let sums := windowSums sortedCells size i
  if sums.volume ≤ 0 then some none
  else if sums.volume < float64 cs.minVolume ∨ ∃ most ∈ cs.maxVolume, float64 most < sums.volume then some none
  else
    let bidPercent := fmul (fdiv sums.bid sums.volume) 100
    let askPercent := askPercentOf (fdiv sums.ask sums.volume)
    let isBidDominant := decide (float64 cs.imbalancePercent ≤ bidPercent)
    let isAskDominant := decide (float64 cs.imbalancePercent ≤ askPercent)
    if !isBidDominant && !isAskDominant then some none
    else if |fsub sums.ask sums.bid| < float64 cs.minDelta then some none
    else
      match sortedCells[i]?, atIndex sortedCells (fsub (fadd i size) 1) with
      | some top, some bottom =>
        let midPrice := fdiv (fadd top.price bottom.price) 2
        if cs.location = .string "body" ∧ ¬ (minBody ≤ midPrice ∧ midPrice ≤ maxBody) then some none
        else if cs.location = .string "lowerWick" ∧ ¬ midPrice < minBody then some none
        else if cs.location = .string "upperWick" ∧ ¬ maxBody < midPrice then some none
        else
          let ratio := if 0 < cs.range then min 1 (fdiv (fsub sums.volume cs.minVolume) cs.range) else 0
          some (some {
            filterType := filterType
            sumVolume := sums.volume
            bidPercent := bidPercent
            askPercent := askPercent
            isBidDominant := isBidDominant
            isAskDominant := isAskDominant
            price := midPrice
            size := fadd cs.minSize (fmul ratio (fsub cs.maxSize cs.minSize))
            color := if isBidDominant then cs.colorBid else cs.colorAsk })
      | _, _ => none

def hoverFilter (filterType : FilterType) (askPercentOf : ℚ → ℚ) (cs : Option Filter)
    (candle : CandleJSON) (sortedCells : List CellJSON) : Option (List Match) :=
  match cs with
  | none => some []
  | some cs =>
    let size := windowSize cs.mergeLevels sortedCells
    scan (hoverWindow filterType askPercentOf cs candle sortedCells size)
      (upTo (fsub sortedCells.length size))

/-- The guard of the medium filter's ask share; the large filter has none. -/
def guardedPercent (share : ℚ) : ℚ := if fmul share 105 ≠ 0 then fmul share 100 else 0

def hoverMatches (csSettings : Settings) (candle : CandleJSON) : Option (List Match) :=
  let sortedCells := byPrice candle.cells
  if sortedCells.length = 0 then some []
  else do
    let medium ← hoverFilter .medium guardedPercent (hoverMedium csSettings) candle sortedCells
    let large ← hoverFilter .large (fun share => fmul share 100) (hoverLarge csSettings) candle sortedCells
    return medium ++ large

def drawMedium (csSettings : Settings) : Option Drawing :=
  let csMergeLevels := (csSettings "csMergeLevels").numberOr 1
  let csImbalancePercent := (csSettings "csImbalancePercent").numberOr 60
  let csMedMinVolume := (csSettings "csMedMinVolume").numberOr 100
  let csMedMaxVolume := (csSettings "csMedMaxVolume").numberOr 500
  if csSettings "csMedEnabled" = .bool false then none
  else some {
    mergeLevels := (csSettings "csMedMergeLevels").numberOr csMergeLevels
    imbalancePercent := (csSettings "csMedImbalancePercent").numberOr csImbalancePercent
    minDelta := (csSettings "csMedMinDelta").numberOr 0
    location := (csSettings "csMedLocation").orElse (.string "any")
    minVolume := csMedMinVolume
    maxVolume := some csMedMaxVolume
    range := fsub csMedMaxVolume csMedMinVolume
    minSize := (csSettings "csMedMinSize").numberOr 4
    maxSize := (csSettings "csMedMaxSize").numberOr 12
    colorBid := (csSettings "csMedColorBid").orElse (.string "#ef4444")
    colorAsk := (csSettings "csMedColorAsk").orElse (.string "#10b981")
    shape := (csSettings "csMedShape").orElse (.string "circle")
    opacity := (csSettings "csMedOpacity").numberOr (70 / 100) }

def drawLarge (csSettings : Settings) : Option Drawing :=
  let csMergeLevels := (csSettings "csMergeLevels").numberOr 1
  let csImbalancePercent := (csSettings "csImbalancePercent").numberOr 60
  let csLargeMinVolume := (csSettings "csLargeMinVolume").numberOr 500
  if csSettings "csLargeEnabled" = .bool false then none
  else some {
    mergeLevels := (csSettings "csLargeMergeLevels").numberOr csMergeLevels
    imbalancePercent := (csSettings "csLargeImbalancePercent").numberOr csImbalancePercent
    minDelta := (csSettings "csLargeMinDelta").numberOr 0
    location := (csSettings "csLargeLocation").orElse (.string "any")
    minVolume := csLargeMinVolume
    maxVolume := none
    range := fmul csLargeMinVolume 2
    minSize := (csSettings "csLargeMinSize").numberOr 10
    maxSize := (csSettings "csLargeMaxSize").numberOr 20
    colorBid := (csSettings "csLargeColorBid").orElse (.string "#f43f5e")
    colorAsk := (csSettings "csLargeColorAsk").orElse (.string "#34d399")
    shape := (csSettings "csLargeShape").orElse (.string "rhombus")
    opacity := (csSettings "csLargeOpacity").numberOr (90 / 100) }

def drawWindow (cs : Drawing) (candle : CandleJSON) (sortedCells : List CellJSON) (size : ℚ) (i : ℕ) :
    Option (Option Item) :=
  let maxBody := max (float64 candle.openPrice) (float64 candle.close)
  let minBody := min (float64 candle.openPrice) (float64 candle.close)
  let sums := windowSums sortedCells size i
  if sums.volume ≤ 0 then some none
  else if sums.volume < float64 cs.minVolume ∨ ∃ most ∈ cs.maxVolume, float64 most < sums.volume then some none
  else
    let bidPercent := fmul (fdiv sums.bid sums.volume) 100
    let askPercent := fmul (fdiv sums.ask sums.volume) 100
    let isBidDominant := decide (float64 cs.imbalancePercent ≤ bidPercent)
    let isAskDominant := decide (float64 cs.imbalancePercent ≤ askPercent)
    if !isBidDominant && !isAskDominant then some none
    else if |fsub sums.ask sums.bid| < float64 cs.minDelta then some none
    else
      match sortedCells[i]?, atIndex sortedCells (fsub (fadd i size) 1) with
      | some top, some bottom =>
        let midPrice := fdiv (fadd top.price bottom.price) 2
        if cs.location = .string "body" ∧ ¬ (minBody ≤ midPrice ∧ midPrice ≤ maxBody) then some none
        else if cs.location = .string "lowerWick" ∧ ¬ midPrice < minBody then some none
        else if cs.location = .string "upperWick" ∧ ¬ maxBody < midPrice then some none
        else
          let ratio := if 0 < cs.range then min 1 (fdiv (fsub sums.volume cs.minVolume) cs.range) else 0
          some (some {
            price := midPrice
            color := if isBidDominant then cs.colorBid else cs.colorAsk
            shape := cs.shape
            opacity := cs.opacity
            size := fadd cs.minSize (fmul ratio (fsub cs.maxSize cs.minSize)) })
      | _, _ => none

def drawFilter (cs : Option Drawing) (candle : CandleJSON) (sortedCells : List CellJSON) :
    Option (List Item) :=
  match cs with
  | none => some []
  | some cs =>
    let size := windowSize cs.mergeLevels sortedCells
    scan (drawWindow cs candle sortedCells size) (upTo (fsub sortedCells.length size))

def itemsToDraw (csSettings : Settings) (candle : CandleJSON) : Option (List Item) :=
  if 0 < candle.cells.length then do
    let sortedCells := byPrice candle.cells
    let medium ← drawFilter (drawMedium csSettings) candle sortedCells
    let large ← drawFilter (drawLarge csSettings) candle sortedCells
    return medium ++ large
  else some []

/-- What the two copies are compared by: where a figure is, its size and its colour. -/
structure Figure where
  price : ℚ
  size : ℚ
  color : Value
  deriving DecidableEq

def Match.figure (m : Match) : Figure := ⟨m.price, m.size, m.color⟩

def Item.figure (item : Item) : Figure := ⟨item.price, item.size, item.color⟩

theorem guardedPercent_eq (share : ℚ) : guardedPercent share = fmul share 100 := by
  unfold guardedPercent
  split_ifs with nonzero
  · rfl
  · have product : float64 share * float64 105 = 0 := float64_eq_zero.mp (not_not.mp nonzero)
    have zero : share = 0 := by
      rcases mul_eq_zero.mp product with share_zero | impossible
      · exact float64_eq_zero.mp share_zero
      · exact absurd (float64_eq_zero.mp impossible) (by norm_num)
    rw [zero, fmul, float64_zero, zero_mul, float64_zero]

section Copies
variable (filterType : FilterType) {askPercentOf : ℚ → ℚ} (percent : ∀ share, askPercentOf share = fmul share 100)
  (candle : CandleJSON) (sortedCells : List CellJSON)
include percent

theorem windows_agree (cs : Drawing) (size : ℚ) (i : ℕ) :
    (hoverWindow filterType askPercentOf cs.toFilter candle sortedCells size i).map (Option.map Match.figure) =
      (drawWindow cs candle sortedCells size i).map (Option.map Item.figure) := by
  simp only [hoverWindow, drawWindow, percent]
  simp only [map_skip]
  cases sortedCells[i]? with
  | none => rfl
  | some top =>
    cases atIndex sortedCells (fsub (fadd i size) 1) with
    | none => rfl
    | some bottom =>
      simp only [map_skip]
      rfl

theorem filters_agree {hover : Option Filter} {draw : Option Drawing}
    (same : hover = draw.map Drawing.toFilter) :
    (hoverFilter filterType askPercentOf hover candle sortedCells).map (List.map Match.figure) =
      (drawFilter draw candle sortedCells).map (List.map Item.figure) := by
  subst same
  cases draw with
  | none => rfl
  | some cs => exact scan_map fun i _ => windows_agree filterType percent candle sortedCells cs _ i

end Copies

/- Both filters of a copy, the first one's figures before the second one's. -/
theorem filters_append {α : Type} {β : Type} {f : α → Figure} {g : β → Figure} {a b : Option (List α)}
    {a' b' : Option (List β)} (first : a.map (List.map f) = a'.map (List.map g))
    (second : b.map (List.map f) = b'.map (List.map g)) :
    (do let medium ← a; let large ← b; return medium ++ large).map (List.map f) =
      (do let medium ← a'; let large ← b'; return medium ++ large).map (List.map g) := by
  cases a <;> cases a' <;> simp only [Option.map_none, Option.map_some, reduceCtorEq, Option.some.injEq] at first
  · rfl
  · cases b <;> cases b' <;> simp only [Option.map_none, Option.map_some, reduceCtorEq, Option.some.injEq] at second
    · rfl
    · simp [first, second]

theorem medium_settings (csSettings : Settings) :
    hoverMedium csSettings = (drawMedium csSettings).map Drawing.toFilter := by
  simp only [hoverMedium, drawMedium]
  split_ifs <;> rfl

theorem large_settings (csSettings : Settings) :
    hoverLarge csSettings = (drawLarge csSettings).map Drawing.toFilter := by
  simp only [hoverLarge, drawLarge]
  split_ifs <;> rfl

/-- The mouse finds the figures that are drawn, in the order in which they are. -/
theorem drawn_is_hovered (csSettings : Settings) (candle : CandleJSON) :
    (itemsToDraw csSettings candle).map (List.map Item.figure) =
      (hoverMatches csSettings candle).map (List.map Match.figure) := by
  have medium := filters_agree .medium guardedPercent_eq candle (byPrice candle.cells)
    (medium_settings csSettings)
  have large := filters_agree .large (fun _ => rfl) candle (byPrice candle.cells) (large_settings csSettings)
  have length : (byPrice candle.cells).length = candle.cells.length := List.length_mergeSort _
  by_cases empty : candle.cells.length = 0
  · simp [itemsToDraw, hoverMatches, length, empty]
  · simp only [itemsToDraw, hoverMatches, length, Nat.pos_of_ne_zero empty, empty, ↓reduceIte]
    exact (filters_append medium large).symm

end ClusterSearch
