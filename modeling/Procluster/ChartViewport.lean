import Mathlib.Data.Rat.Floor
import Procluster.Library.EventRuns
import Procluster.Library.Scales

/-!
The viewport of the cluster chart: zoom by wheel, buttons and drags of the scales, panning,
and the container that scrolls under it. Handlers read the last render or the refs, and
their updates show with the next render. Numbers are rationals: float64 rounding is left out.
-/
namespace ChartViewport
open EventRuns LinearScale

structure Candle where
  high : ℚ
  low : ℚ
  deriving DecidableEq

inductive CandleType where
  | auto
  | japanese
  | footprint
  | clusters
  deriving DecidableEq

structure Margin where
  top : ℚ
  right : ℚ
  bottom : ℚ
  left : ℚ

def margin : Margin := ⟨30, 90, 40, 60⟩

/-- `x || d` of a number. -/
def orElse (x d : ℚ) : ℚ := if x = 0 then d else x

/-- Math.round -/
def round (x : ℚ) : ℚ := (⌊x + 1 / 2⌋ : ℤ)

def candleSpacing (candleWidth : ℚ) : ℚ :=
  max 1 (if candleWidth < 30 then ((⌊candleWidth * (35 / 100)⌋ : ℤ) : ℚ) else 12)

def pitch (candleWidth : ℚ) : ℚ := candleWidth + candleSpacing candleWidth

def minW (candleType : CandleType) : ℚ :=
  match candleType with
  | .japanese | .auto => 2
  | .footprint | .clusters => 8

def clampWidth (candleType : CandleType) (next : ℚ) : ℚ := min 450 (max (minW candleType) next)

def clampScale (next : ℚ) : ℚ := min 2000 (max (1 / 10) next)

structure Panels where
  containerHeight : ℚ
  delta : Bool
  cvd : Bool
  deltaPanelHeight : ℚ
  cvdPanelHeight : ℚ
  deriving DecidableEq

def panelGap : ℚ := 24

def heightTotal (active : Bool) (panelHeight : ℚ) : ℚ := if active then panelHeight + panelGap else 0

def Panels.chartHeight (p : Panels) : ℚ :=
  max 150 (p.containerHeight - margin.top - margin.bottom - heightTotal p.delta p.deltaPanelHeight -
    heightTotal p.cvd p.cvdPanelHeight)

def Panels.totalSvgHeight (p : Panels) : ℚ :=
  margin.top + p.chartHeight + heightTotal p.delta p.deltaPanelHeight + heightTotal p.cvd p.cvdPanelHeight +
    margin.bottom

structure PriceBounds where
  maxPriceRaw : ℚ
  minPriceRaw : ℚ
  priceRange : ℚ
  basePriceCenter : ℚ

def highest (candles : List Candle) (first : ℚ) : ℚ :=
  candles.foldl (fun m c => if m < c.high then c.high else m) first

def lowest (candles : List Candle) (first : ℚ) : ℚ :=
  candles.foldl (fun m c => if c.low < m then c.low else m) first

def priceBounds (candles : List Candle) : PriceBounds :=
  match candles with
  | [] => ⟨100, 0, 100, 50⟩
  | first :: _ =>
    let maxPriceRaw := highest candles first.high
    let minPriceRaw := lowest candles first.low
    ⟨maxPriceRaw, minPriceRaw, orElse (maxPriceRaw - minPriceRaw) 1, (maxPriceRaw + minPriceRaw) / 2⟩

structure Props where
  candles : List Candle
  candleType : CandleType
  symbol : String
  loadId : ℕ
  panels : Panels
  deriving DecidableEq

def Props.bounds (p : Props) : PriceBounds := priceBounds p.candles

structure Zoom where
  candleWidth : ℚ
  verticalScale : ℚ
  priceCenterOffset : ℚ
  deriving DecidableEq

structure Pan where
  startX : ℚ
  startY : ℚ
  scrollLeft : ℚ
  startPriceOffset : ℚ
  deriving DecidableEq

/-- pan is isDragging with the state set on mouse down. -/
structure View where
  zoom : Zoom
  visibleScrollLeft : ℚ
  visibleClientWidth : ℚ
  pan : Option Pan
  isDraggingPriceScale : Bool
  isDraggingTimeScale : Bool
  deriving DecidableEq

structure Refs where
  zoom : Zoom
  hasInitializedZoom : Option String
  startPriceScaleY : ℚ
  startVerticalScale : ℚ
  startTimeScaleX : ℚ
  startCandleWidth : ℚ
  zoomAnchorIndex : Option ℚ
  zoomAnchorClickX : ℚ
  deriving DecidableEq

/-- The scrolling element; scrolled tells that its scroll event is still to come. -/
structure Container where
  clientWidth : ℚ
  spacer : ℚ
  scrollLeft : ℚ
  scrolled : Bool
  deriving DecidableEq

def Container.maxScroll (c : Container) : ℚ := max 0 (c.spacer - c.clientWidth)

/-- What the browser makes of a scrollLeft that is assigned. -/
def Container.scrollTo (c : Container) (v : ℚ) : Container :=
  let next := max 0 (min c.maxScroll v)
  { c with scrollLeft := next, scrolled := c.scrolled || next ≠ c.scrollLeft }

/-- A layout leaves no scroll position beyond the content. -/
def Container.layout (c : Container) (clientWidth spacer : ℚ) : Container :=
  Container.scrollTo { c with clientWidth := clientWidth, spacer := spacer } c.scrollLeft

structure Deps where
  symbol : String
  length : ℕ
  loadId : ℕ
  visibleClientWidth : ℚ
  priceRange : ℚ
  basePriceCenter : ℚ
  deriving DecidableEq

/-- view is what the updates so far make of the state; shown and props were rendered last;
    measured and deps are those that two of the effects ran with. -/
structure Chart where
  view : View
  shown : View
  props : Props
  refs : Refs
  container : Container
  measured : Option ℕ
  deps : Option Deps
  deriving DecidableEq

section Prices

/-- minPrice + (1 - (y - top) / height) * range, as yToPrice and the wheel handler have it. -/
def extractPriceFromY (b : PriceBounds) (chartHeight y scaleVal offsetVal : ℚ) : ℚ :=
  let zoomedRange := b.priceRange / max (1 / 10) scaleVal
  let centerPrice := b.basePriceCenter + offsetVal
  let maxP := centerPrice + zoomedRange * (58 / 100)
  let minP := centerPrice - zoomedRange * (58 / 100)
  let range := orElse (maxP - minP) 1
  minP + (1 - (y - margin.top) / max 1 chartHeight) * range

variable (p : Props) (z : Zoom)

def zoomedPriceRange : ℚ := p.bounds.priceRange / max (1 / 10) z.verticalScale
def priceCenter : ℚ := p.bounds.basePriceCenter + z.priceCenterOffset
def maxPrice : ℚ := priceCenter p z + zoomedPriceRange p z * (58 / 100)
def minPrice : ℚ := priceCenter p z - zoomedPriceRange p z * (58 / 100)

def priceToY (price : ℚ) : ℚ :=
  let range := orElse (maxPrice p z - minPrice p z) 1
  margin.top + p.panels.chartHeight * (1 - (price - minPrice p z) / range)

def yToPrice (y : ℚ) : ℚ :=
  let range := orElse (maxPrice p z - minPrice p z) 1
  minPrice p z + (1 - (y - margin.top) / max 1 p.panels.chartHeight) * range

end Prices

/-- The candle under x, with fractions, for a scroll position and a candle width. -/
def column (scrollLeft candleWidth x : ℚ) : ℚ := (scrollLeft + x - margin.left) / pitch candleWidth

structure Wheel where
  deltaY : ℚ
  ctrl : Bool
  shift : Bool
  x : ℚ
  y : ℚ
  deriving DecidableEq

def multiplier (direction : ℚ) : ℚ := if direction < 0 then 108 / 100 else 92 / 100

def scrollWidth (n : ℕ) (candleWidth clientWidth : ℚ) : ℚ :=
  n * pitch candleWidth + margin.left + margin.right + round (orElse clientWidth 800 * (85 / 100))

namespace Chart
variable (s : Chart)

/-- The spacer is there once there are candles. -/
def resizeSpacer (width : ℚ) : Container :=
  if s.props.candles = [] then s.container else { s.container with spacer := width }

def nextWidthClamped (direction : ℚ) : ℚ :=
  clampWidth s.props.candleType (s.refs.zoom.candleWidth * multiplier direction)

def cursorScroll (nextWidthClamped x : ℚ) : ℚ :=
  let activeChartX := s.container.scrollLeft + x - margin.left
  let ratio := pitch nextWidthClamped / pitch s.refs.zoom.candleWidth
  margin.left + activeChartX * ratio - x

def setWidth (nextWidthClamped nextScrollLeft : ℚ) : Chart :=
  let spacer := scrollWidth s.props.candles.length nextWidthClamped s.container.clientWidth
  { s with
    container := (s.resizeSpacer spacer).scrollTo nextScrollLeft
    view := { s.view with
      zoom := { s.view.zoom with candleWidth := nextWidthClamped }
      visibleScrollLeft := nextScrollLeft }
    refs := { s.refs with zoom := { s.refs.zoom with candleWidth := nextWidthClamped } } }

def wheelWidth (direction x : ℚ) : Chart :=
  if s.nextWidthClamped direction = s.refs.zoom.candleWidth then s
  else
    s.setWidth (s.nextWidthClamped direction) (max 0 (s.cursorScroll (s.nextWidthClamped direction) x))

def nextVerticalScale (direction : ℚ) : ℚ := clampScale (s.refs.zoom.verticalScale * multiplier direction)

def cursorOffset (actualMultiplier relativeY : ℚ) : ℚ :=
  let cur := s.refs.zoom
  let b := s.props.bounds
  let mousePrice :=
    extractPriceFromY b s.props.panels.chartHeight relativeY cur.verticalScale cur.priceCenterOffset
  let currentPriceCenter := b.basePriceCenter + cur.priceCenterOffset
  let newPriceCenter := mousePrice - (mousePrice - currentPriceCenter) / actualMultiplier
  newPriceCenter - b.basePriceCenter

def setScale (nextVerticalScale nextPriceCenterOffset : ℚ) : Chart :=
  { s with
    view := { s.view with
      zoom := ⟨s.view.zoom.candleWidth, nextVerticalScale, nextPriceCenterOffset⟩ }
    refs := { s.refs with
      zoom := ⟨s.refs.zoom.candleWidth, nextVerticalScale, nextPriceCenterOffset⟩ } }

def InPlot (relativeY : ℚ) : Prop :=
  margin.top ≤ relativeY ∧ relativeY ≤ margin.top + s.props.panels.chartHeight

instance (relativeY : ℚ) : Decidable (s.InPlot relativeY) := inferInstanceAs (Decidable (_ ∧ _))

def wheelScale (direction relativeY : ℚ) : Chart :=
  let actualMultiplier := s.nextVerticalScale direction / s.refs.zoom.verticalScale
  if s.InPlot relativeY ∧ actualMultiplier ≠ 1 then
    s.setScale (s.nextVerticalScale direction) (s.cursorOffset actualMultiplier relativeY)
  else s

def handleWheel (w : Wheel) : Chart :=
  if w.deltaY = 0 then s
  else if w.shift then s.wheelScale w.deltaY w.y
  else if w.ctrl then s.wheelWidth w.deltaY w.x
  else (s.wheelWidth w.deltaY w.x).wheelScale w.deltaY w.y

def setZoom (zoom : Zoom) : Chart := { s with view := { s.view with zoom := zoom } }

def scaleWheel (deltaY : ℚ) : Chart :=
  if deltaY = 0 then s
  else
    let multiplier : ℚ := if deltaY < 0 then 115 / 100 else 85 / 100
    s.setZoom { s.view.zoom with verticalScale := clampScale (s.view.zoom.verticalScale * multiplier) }

def handleZoom (factor : ℚ) : Chart :=
  s.setZoom { s.view.zoom with candleWidth := clampWidth s.props.candleType (s.view.zoom.candleWidth + factor) }

def handleVerticalZoom (factor : ℚ) : Chart :=
  let multiplier : ℚ := if 0 < factor then 125 / 100 else 8 / 10
  s.setZoom { s.view.zoom with verticalScale := clampScale (s.view.zoom.verticalScale * multiplier) }

end Chart

def fitWidth (spacePerCandle : ℚ) : ℕ → ℕ → ℕ → ℕ
  | 0, _, bestWidth => bestWidth
  | fuel + 1, w, bestWidth =>
    if pitch w ≤ spacePerCandle then fitWidth spacePerCandle fuel (w + 1) w else bestWidth

def bestWidth (clientWidth : ℚ) : ℚ :=
  let visibleWidth := clientWidth - margin.left - margin.right
  max 2 (fitWidth (visibleWidth / 40) 118 2 10 : ℕ)

def last40 (candles : List Candle) : List Candle := candles.drop (candles.length - 40)

def maxL40 (candles : List Candle) : ℚ :=
  match last40 candles with
  | [] => 100
  | first :: rest => highest (first :: rest) first.high

def minL40 (candles : List Candle) : ℚ :=
  match last40 candles with
  | [] => 0
  | first :: rest => lowest (first :: rest) first.low

def fitPrices (p : Props) (candleWidth : ℚ) : Zoom :=
  let rangeL40 := orElse (maxL40 p.candles - minL40 p.candles) 1
  let centerL40 := (maxL40 p.candles + minL40 p.candles) / 2
  let targetVerticalScale := p.bounds.priceRange * (812 / 1000) / rangeL40
  ⟨candleWidth, clampScale targetVerticalScale, centerL40 - p.bounds.basePriceCenter⟩

namespace Chart
variable (s : Chart)

def handleResetZoom : Chart :=
  let width := if 100 < s.shown.visibleClientWidth then bestWidth s.shown.visibleClientWidth else 10
  s.setZoom (fitPrices s.props width)

/-- handleMouseDown where no drawing is under way or hit. -/
def handleMouseDown (x y : ℚ) : Chart :=
  if s.props.panels.totalSvgHeight - margin.bottom ≤ y then
    { s with
      view := { s.view with isDraggingTimeScale := true }
      refs := { s.refs with
        startTimeScaleX := x
        startCandleWidth := s.shown.zoom.candleWidth
        zoomAnchorIndex := some (column s.container.scrollLeft s.shown.zoom.candleWidth x)
        zoomAnchorClickX := x } }
  else
    { s with view := { s.view with
        pan := some ⟨x, y, s.container.scrollLeft, s.shown.zoom.priceCenterOffset⟩ } }

def handleMouseMove (x y : ℚ) : Chart :=
  match s.shown.pan with
  | none => s
  | some p =>
    let nextScroll := p.scrollLeft - (x - p.startX)
    let currentPriceRange := maxPrice s.props s.shown.zoom - minPrice s.props s.shown.zoom
    let priceChange := (y - p.startY) / max 1 s.props.panels.chartHeight * currentPriceRange
    { s with
      container := s.container.scrollTo nextScroll
      view := { s.view with
        visibleScrollLeft := nextScroll
        zoom := { s.view.zoom with priceCenterOffset := p.startPriceOffset + priceChange } } }

def handleMouseUpOrLeave : Chart := { s with view := { s.view with pan := none } }

def startPriceScale (y : ℚ) : Chart :=
  { s with
    view := { s.view with isDraggingPriceScale := true }
    refs := { s.refs with startPriceScaleY := y, startVerticalScale := s.shown.zoom.verticalScale } }

/-- The window's mousemove while the price scale is dragged; exp is Math.exp. -/
def dragPriceScale (exp : ℚ → ℚ) (y : ℚ) : Chart :=
  if s.shown.isDraggingPriceScale then
    let nextScale := s.refs.startVerticalScale * exp ((s.refs.startPriceScaleY - y) / 200)
    s.setZoom { s.view.zoom with verticalScale := clampScale nextScale }
  else s

def dragTimeScale (x : ℚ) : Chart :=
  if s.shown.isDraggingTimeScale then
    let clampedW := clampWidth s.props.candleType (s.refs.startCandleWidth + (x - s.refs.startTimeScaleX))
    let s := s.setZoom { s.view.zoom with candleWidth := clampedW }
    match s.refs.zoomAnchorIndex with
    | none => s
    | some anchor =>
      -- candleSpacing is that of the render
      let spaced := clampedW + candleSpacing s.shown.zoom.candleWidth
      let nextScrollLeft := anchor * spaced + margin.left - s.refs.zoomAnchorClickX
      let scrollRightPadding := round (orElse s.shown.visibleClientWidth 800 * (85 / 100))
      let scrollWidthCalculated :=
        s.props.candles.length * spaced + margin.left + margin.right + scrollRightPadding
      let maxScroll := max 0 (scrollWidthCalculated - orElse s.container.clientWidth 800)
      let clampedScrollLeft := max 0 (min maxScroll nextScrollLeft)
      { s with
        view := { s.view with visibleScrollLeft := clampedScrollLeft }
        container := s.container.scrollTo clampedScrollLeft }
  else s

def handleWindowMouseUp : Chart :=
  { s with view := { s.view with isDraggingPriceScale := false, isDraggingTimeScale := false } }

/-- The effects that copy the zoom to the refs, each when its own value changed. -/
def syncRefs (before : Zoom) : Chart :=
  let z := s.shown.zoom
  { s with refs := { s.refs with
      zoom :=
        ⟨if z.candleWidth = before.candleWidth then s.refs.zoom.candleWidth else z.candleWidth,
          if z.verticalScale = before.verticalScale then s.refs.zoom.verticalScale else z.verticalScale,
          if z.priceCenterOffset = before.priceCenterOffset then s.refs.zoom.priceCenterOffset
          else z.priceCenterOffset⟩ } }

def observe : Chart :=
  if 100 < s.container.clientWidth then
    { s with view := { s.view with visibleClientWidth := s.container.clientWidth } }
  else s

def measure : Chart :=
  if s.measured = some s.props.candles.length then s
  else { s with measured := some s.props.candles.length }.observe

def currentDeps : Deps :=
  ⟨s.props.symbol, s.props.candles.length, s.props.loadId, s.shown.visibleClientWidth,
    s.props.bounds.priceRange, s.props.bounds.basePriceCenter⟩

def initializeZoom (clientWidth : ℚ) : Chart :=
  if s.refs.hasInitializedZoom = some s.props.symbol then s
  else
    { s.setZoom (fitPrices s.props (bestWidth clientWidth)) with
      refs := { s.refs with hasInitializedZoom := some s.props.symbol } }

def effectWidth (clientWidth : ℚ) : ℚ :=
  if s.refs.hasInitializedZoom = some s.props.symbol then s.shown.zoom.candleWidth
  else bestWidth clientWidth

def showLatest : Chart :=
  let clientWidth := orElse s.container.clientWidth 800
  let currentWidth := s.effectWidth clientWidth
  let s := s.initializeZoom clientWidth
  let candlesTotalWidth := s.props.candles.length * pitch currentWidth
  let lastCandleRight := margin.left + candlesTotalWidth
  let targetScrollLeft := lastCandleRight - (clientWidth - margin.right - 120)
  let rightPadding := round (clientWidth * (85 / 100))
  let computedScrollWidth := candlesTotalWidth + margin.left + margin.right + rightPadding
  let maxScroll := computedScrollWidth - clientWidth
  let finalScrollLeft := max 0 (min maxScroll targetScrollLeft)
  { s with
    container := s.container.scrollTo finalScrollLeft
    view := { s.view with visibleScrollLeft := finalScrollLeft, visibleClientWidth := clientWidth } }

def autoScroll : Chart :=
  if s.deps = some s.currentDeps then s
  else
    let s := { s with deps := some s.currentDeps }
    if s.props.candles = [] then s else s.showLatest

def commit (props : Props) : Chart :=
  let spacer :=
    if props.candles = [] then 0
    else scrollWidth props.candles.length s.view.zoom.candleWidth s.view.visibleClientWidth
  { s with
    shown := s.view, props := props, container := s.container.layout s.container.clientWidth spacer }

/-- A render with its layout and then its effects, in the order of the source. -/
def render (props : Props) : Chart := (((s.commit props).syncRefs s.shown.zoom).measure).autoScroll

def initialZoom : Zoom := ⟨145, 7 / 10, 0⟩

def mount (clientWidth : ℚ) (props : Props) : Chart :=
  let view : View := ⟨initialZoom, 0, 800, none, false, false⟩
  let refs : Refs := ⟨initialZoom, none, 0, 1, 0, 145, none, 0⟩
  render ⟨view, view, props, refs, ⟨clientWidth, 0, 0, false⟩, none, none⟩ props

end Chart

/-- scroll is the user's own, scrolled the delivery of a scroll event, drag a mousemove of
    the window. -/
inductive Event where
  | wheel (w : Wheel)
  | scaleWheel (deltaY : ℚ)
  | zoom (factor : ℚ)
  | verticalZoom (factor : ℚ)
  | resetZoom
  | mouseDown (x y : ℚ)
  | mouseMove (x y : ℚ)
  | mouseUp
  | scaleDown (y : ℚ)
  | drag (x y : ℚ)
  | windowUp
  | scroll (v : ℚ)
  | scrolled
  | resize (clientWidth : ℚ)
  | render (props : Props)

def step (exp : ℚ → ℚ) (s : Chart) : Event → Option Chart
  | .wheel w => some (s.handleWheel w)
  | .scaleWheel deltaY => some (s.scaleWheel deltaY)
  | .zoom factor => some (s.handleZoom factor)
  | .verticalZoom factor => some (s.handleVerticalZoom factor)
  | .resetZoom => some s.handleResetZoom
  | .mouseDown x y => some (s.handleMouseDown x y)
  | .mouseMove x y => some (s.handleMouseMove x y)
  | .mouseUp => some s.handleMouseUpOrLeave
  | .scaleDown y => some (s.startPriceScale y)
  | .drag x y => some ((s.dragPriceScale exp y).dragTimeScale x)
  | .windowUp => some s.handleWindowMouseUp
  | .scroll v => some { s with container := s.container.scrollTo v }
  | .scrolled =>
    if s.container.scrolled then
      some { s with
        container := { s.container with scrolled := false }
        view := { s.view with
          visibleScrollLeft := s.container.scrollLeft, visibleClientWidth := s.container.clientWidth } }
    else none
  | .resize clientWidth =>
    if 0 ≤ clientWidth then
      some { s with container := s.container.layout clientWidth s.container.spacer }.observe
    else none
  | .render props => some (s.render props)

section Scales

theorem candleSpacing_pos (candleWidth : ℚ) : 1 ≤ candleSpacing candleWidth := le_max_left _ _

theorem pitch_pos {candleWidth : ℚ} (wide : 2 ≤ candleWidth) : 0 < pitch candleWidth := by
  have spacing := candleSpacing_pos candleWidth
  unfold pitch
  linarith

theorem chartHeight_pos (p : Panels) : 150 ≤ p.chartHeight := le_max_left _ _

theorem orElse_of_ne {x d : ℚ} (nonzero : x ≠ 0) : orElse x d = x := if_neg nonzero

theorem orElse_ne_zero {x d : ℚ} (other : d ≠ 0) : orElse x d ≠ 0 := by
  unfold orElse
  split
  · exact other
  · assumption

theorem priceRange_ne_zero (candles : List Candle) : (priceBounds candles).priceRange ≠ 0 := by
  cases candles with
  | nil => norm_num [priceBounds]
  | cons first rest => exact orElse_ne_zero one_ne_zero

def candleScale (scrollLeft candleWidth : ℚ) : Scale ℚ := ⟨margin.left - scrollLeft, pitch candleWidth⟩

theorem column_under (scrollLeft candleWidth x : ℚ) :
    column scrollLeft candleWidth x = (candleScale scrollLeft candleWidth).under x := by
  simp only [column, candleScale, Scale.under]
  ring

def priceScale (p : Props) (z : Zoom) : Scale ℚ :=
  let unit := -(p.panels.chartHeight * z.verticalScale) / (116 / 100 * p.bounds.priceRange)
  ⟨margin.top + p.panels.chartHeight / 2 - priceCenter p z * unit, unit⟩

variable {p : Props} {z : Zoom}

theorem priceScale_unit (shown : 1 / 10 ≤ z.verticalScale) : (priceScale p z).unit ≠ 0 := by
  have range := priceRange_ne_zero p.candles
  have height := chartHeight_pos p.panels
  have positive : 0 < p.panels.chartHeight * z.verticalScale := by
    apply mul_pos
    · linarith
    · linarith
  apply div_ne_zero
  · exact neg_ne_zero.mpr positive.ne'
  · exact mul_ne_zero (by norm_num) range

theorem extractPrice_under (shown : 1 / 10 ≤ z.verticalScale) (y : ℚ) :
    extractPriceFromY p.bounds p.panels.chartHeight y z.verticalScale z.priceCenterOffset =
      (priceScale p z).under y := by
  have range : p.bounds.priceRange ≠ 0 := priceRange_ne_zero p.candles
  have height := chartHeight_pos p.panels
  have tall : p.panels.chartHeight ≠ 0 := by linarith
  have scale : z.verticalScale ≠ 0 := by linarith
  have wide : p.bounds.basePriceCenter + z.priceCenterOffset +
      p.bounds.priceRange / z.verticalScale * (58 / 100) -
      (p.bounds.basePriceCenter + z.priceCenterOffset -
        p.bounds.priceRange / z.verticalScale * (58 / 100)) ≠ 0 := by
    rw [add_sub_sub_cancel, ← two_mul]
    exact mul_ne_zero two_ne_zero (mul_ne_zero (div_ne_zero range scale) (by norm_num))
  simp only [extractPriceFromY, max_eq_right shown, max_eq_right (show 1 ≤ p.panels.chartHeight by linarith),
    orElse_of_ne wide, priceScale, Scale.under, priceCenter]
  field_simp
  ring

theorem yToPrice_under (shown : 1 / 10 ≤ z.verticalScale) (y : ℚ) :
    yToPrice p z y = (priceScale p z).under y :=
  extractPrice_under shown y

theorem priceToY_place (shown : 1 / 10 ≤ z.verticalScale) (price : ℚ) :
    priceToY p z price = (priceScale p z).place price := by
  have range : p.bounds.priceRange ≠ 0 := priceRange_ne_zero p.candles
  have scale : z.verticalScale ≠ 0 := by linarith
  have wide : maxPrice p z - minPrice p z = 116 / 100 * (p.bounds.priceRange / z.verticalScale) := by
    simp only [maxPrice, minPrice, zoomedPriceRange, max_eq_right shown]
    ring
  have nonzero : maxPrice p z - minPrice p z ≠ 0 := by
    rw [wide]
    exact mul_ne_zero (by norm_num) (div_ne_zero range scale)
  rw [priceToY, orElse_of_ne nonzero, wide]
  simp only [minPrice, zoomedPriceRange, max_eq_right shown, priceScale, Scale.place]
  field_simp
  ring

end Scales

section Limits

structure InRange (z : Zoom) : Prop where
  wide : 2 ≤ z.candleWidth
  narrow : z.candleWidth ≤ 450
  flat : 1 / 10 ≤ z.verticalScale
  tall : z.verticalScale ≤ 2000

theorem clampWidth_range (t : CandleType) (next : ℚ) : 2 ≤ clampWidth t next ∧ clampWidth t next ≤ 450 := by
  have least : (2 : ℚ) ≤ minW t := by cases t <;> norm_num [minW]
  refine ⟨le_min (by norm_num) (least.trans (le_max_left _ _)), min_le_left _ _⟩

theorem clampScale_range (next : ℚ) : 1 / 10 ≤ clampScale next ∧ clampScale next ≤ 2000 :=
  ⟨le_min (by norm_num) (le_max_left _ _), min_le_left _ _⟩

theorem InRange.setWidth {z : Zoom} (inside : InRange z) {t : CandleType} (next : ℚ) :
    InRange { z with candleWidth := clampWidth t next } :=
  ⟨(clampWidth_range t next).1, (clampWidth_range t next).2, inside.flat, inside.tall⟩

theorem InRange.setScale {z : Zoom} (inside : InRange z) (next : ℚ) :
    InRange { z with verticalScale := clampScale next } :=
  ⟨inside.wide, inside.narrow, (clampScale_range next).1, (clampScale_range next).2⟩

theorem fitWidth_le (space : ℚ) (fuel w best : ℕ) : fitWidth space fuel w best ≤ max best (w + fuel) := by
  induction fuel generalizing w best with
  | zero => simp [fitWidth]
  | succ fuel ih =>
    rw [fitWidth]
    split
    · have later := ih (w + 1) w
      omega
    · exact le_max_left _ _

theorem bestWidth_range (clientWidth : ℚ) : 2 ≤ bestWidth clientWidth ∧ bestWidth clientWidth ≤ 450 := by
  refine ⟨le_max_left _ _, max_le (by norm_num) ?_⟩
  have least := fitWidth_le ((clientWidth - margin.left - margin.right) / 40) 118 2 10
  have bound : fitWidth ((clientWidth - margin.left - margin.right) / 40) 118 2 10 ≤ 450 := by omega
  exact_mod_cast bound

theorem fitPrices_range (p : Props) {width : ℚ} (wide : 2 ≤ width) (narrow : width ≤ 450) :
    InRange (fitPrices p width) :=
  ⟨wide, narrow, (clampScale_range _).1, (clampScale_range _).2⟩

structure Zoomed (s : Chart) : Prop where
  view : InRange s.view.zoom
  shown : InRange s.shown.zoom
  refs : InRange s.refs.zoom

/-- The refs are those of the last render, or the wheel has set them with the state. -/
def Current (s : Chart) : Prop := s.refs.zoom = s.view.zoom ∨ s.refs.zoom = s.shown.zoom

structure Steady (s : Chart) : Prop where
  zoomed : Zoomed s
  current : Current s

end Limits

/-- The zoom is rendered before another handler than the wheel's changes it, and the refs
    are up to date before the wheel does. A move that drags nothing changes nothing. -/
def Prompt (s : Chart) : Event → Prop
  | .wheel _ => s.view.zoom = s.refs.zoom
  | .scaleWheel _ | .zoom _ | .verticalZoom _ | .resetZoom => s.view.zoom = s.shown.zoom
  | .mouseMove _ _ => s.shown.pan = none ∨ s.view.zoom = s.shown.zoom
  | .drag _ _ => s.shown.isDraggingPriceScale = false ∧ s.shown.isDraggingTimeScale = false ∨
    s.view.zoom = s.shown.zoom
  | .mouseDown _ _ | .mouseUp | .scaleDown _ | .windowUp | .scroll _ | .scrolled | .resize _ | .render _ => True

instance (s : Chart) : ∀ e, Decidable (Prompt s e)
  | .wheel _ => inferInstanceAs (Decidable (s.view.zoom = s.refs.zoom))
  | .scaleWheel _ | .zoom _ | .verticalZoom _ | .resetZoom =>
    inferInstanceAs (Decidable (s.view.zoom = s.shown.zoom))
  | .mouseMove _ _ => inferInstanceAs (Decidable (_ ∨ _))
  | .drag _ _ => inferInstanceAs (Decidable (_ ∨ _))
  | .mouseDown _ _ | .mouseUp | .scaleDown _ | .windowUp | .scroll _ | .scrolled | .resize _ | .render _ =>
    isTrue trivial

section Steps
variable {s : Chart}

theorem steady_of_kept {s' : Chart} (steady : Steady s) (view : s'.view.zoom = s.view.zoom)
    (shown : s'.shown.zoom = s.shown.zoom) (refs : s'.refs.zoom = s.refs.zoom) : Steady s' := by
  refine ⟨⟨?_, ?_, ?_⟩, ?_⟩
  · rw [view]; exact steady.zoomed.view
  · rw [shown]; exact steady.zoomed.shown
  · rw [refs]; exact steady.zoomed.refs
  · unfold Current
    rw [view, shown, refs]
    exact steady.current

theorem steady_of_set {s' : Chart} (steady : Steady s) (rendered : s.view.zoom = s.shown.zoom)
    (view : InRange s'.view.zoom) (shown : s'.shown.zoom = s.shown.zoom)
    (refs : s'.refs.zoom = s.refs.zoom) : Steady s' := by
  have current : s.refs.zoom = s.shown.zoom := steady.current.elim (·.trans rendered) id
  refine ⟨⟨view, ?_, ?_⟩, .inr ?_⟩
  · rw [shown]; exact steady.zoomed.shown
  · rw [refs]; exact steady.zoomed.refs
  · rw [refs, shown, current]

structure Agreed (s : Chart) : Prop where
  same : s.view.zoom = s.refs.zoom
  inside : InRange s.refs.zoom

theorem agreed_width (agreed : Agreed s) (direction x : ℚ) : Agreed (s.wheelWidth direction x) := by
  unfold Chart.wheelWidth
  split
  · exact agreed
  · refine ⟨?_, agreed.inside.setWidth _⟩
    simp only [Chart.setWidth, agreed.same]

theorem agreed_scale (agreed : Agreed s) (direction y : ℚ) : Agreed (s.wheelScale direction y) := by
  unfold Chart.wheelScale
  dsimp only
  split
  · refine ⟨?_, ?_⟩
    · simp only [Chart.setScale, agreed.same]
    · exact ⟨agreed.inside.wide, agreed.inside.narrow, (clampScale_range _).1, (clampScale_range _).2⟩
  · exact agreed

theorem agreed_wheel (agreed : Agreed s) (w : Wheel) : Agreed (s.handleWheel w) := by
  unfold Chart.handleWheel
  split
  · exact agreed
  · split
    · exact agreed_scale agreed _ _
    · split
      · exact agreed_width agreed _ _
      · exact agreed_scale (agreed_width agreed _ _) _ _

@[simp] theorem wheelWidth_shown (direction x : ℚ) : (s.wheelWidth direction x).shown = s.shown := by
  unfold Chart.wheelWidth
  split <;> rfl

@[simp] theorem wheelScale_shown (direction y : ℚ) : (s.wheelScale direction y).shown = s.shown := by
  unfold Chart.wheelScale
  dsimp only
  split <;> rfl

@[simp] theorem handleWheel_shown (w : Wheel) : (s.handleWheel w).shown = s.shown := by
  unfold Chart.handleWheel
  split
  · rfl
  · split
    · simp
    · split <;> simp

theorem steady_wheel (steady : Steady s) (same : s.view.zoom = s.refs.zoom) (w : Wheel) :
    Steady (s.handleWheel w) := by
  have after := agreed_wheel ⟨same, steady.zoomed.refs⟩ w
  refine ⟨⟨?_, ?_, after.inside⟩, .inl after.same.symm⟩
  · rw [after.same]
    exact after.inside
  · rw [handleWheel_shown]
    exact steady.zoomed.shown

theorem effectZoom_range (inside : InRange s.view.zoom) (clientWidth : ℚ) :
    InRange (s.initializeZoom clientWidth).view.zoom := by
  unfold Chart.initializeZoom
  split
  · exact inside
  · exact fitPrices_range s.props (bestWidth_range clientWidth).1 (bestWidth_range clientWidth).2

theorem measure_zoom : s.measure.view.zoom = s.view.zoom ∧ s.measure.shown = s.shown ∧ s.measure.refs = s.refs := by
  unfold Chart.measure Chart.observe
  split
  · exact ⟨rfl, rfl, rfl⟩
  · split <;> exact ⟨rfl, rfl, rfl⟩

theorem showLatest_zoom (inside : InRange s.view.zoom) :
    InRange s.showLatest.view.zoom ∧ s.showLatest.shown = s.shown ∧ s.showLatest.refs.zoom = s.refs.zoom := by
  have kept (c : ℚ) : (s.initializeZoom c).shown = s.shown ∧ (s.initializeZoom c).refs.zoom = s.refs.zoom := by
    unfold Chart.initializeZoom
    split <;> exact ⟨rfl, rfl⟩
  exact ⟨effectZoom_range (s := s) inside _, (kept _).1, (kept _).2⟩

theorem autoScroll_zoom (inside : InRange s.view.zoom) :
    InRange s.autoScroll.view.zoom ∧ s.autoScroll.shown = s.shown ∧ s.autoScroll.refs.zoom = s.refs.zoom := by
  unfold Chart.autoScroll
  dsimp only
  split
  · exact ⟨inside, rfl, rfl⟩
  · split
    · exact ⟨inside, rfl, rfl⟩
    · exact showLatest_zoom (s := { s with deps := some s.currentDeps }) inside

theorem syncRefs_zoom {before : Zoom} (current : s.refs.zoom = s.shown.zoom ∨ s.refs.zoom = before) :
    (s.syncRefs before).refs.zoom = s.shown.zoom := by
  rcases current with same | same
  · simp only [Chart.syncRefs, same]
    simp
  · simp only [Chart.syncRefs, same]
    congr 1 <;> (split <;> simp_all)

theorem steady_render (steady : Steady s) (props : Props) : Steady (s.render props) := by
  have synced : ((s.commit props).syncRefs s.shown.zoom).refs.zoom = s.view.zoom :=
    syncRefs_zoom (s := s.commit props) steady.current
  obtain ⟨view, shown, refs⟩ := measure_zoom (s := (s.commit props).syncRefs s.shown.zoom)
  have inside : InRange ((s.commit props).syncRefs s.shown.zoom).measure.view.zoom := by
    rw [view]
    exact steady.zoomed.view
  obtain ⟨inside', shown', refs'⟩ := autoScroll_zoom inside
  have rendered : (s.render props).shown.zoom = s.view.zoom := by
    rw [Chart.render, shown', shown]
    rfl
  have current : (s.render props).refs.zoom = s.view.zoom := by rw [Chart.render, refs', refs, synced]
  refine ⟨⟨inside', ?_, ?_⟩, .inr (current.trans rendered.symm)⟩
  · rw [rendered]
    exact steady.zoomed.view
  · rw [current]
    exact steady.zoomed.view

theorem dragPriceScale_frame (exp : ℚ → ℚ) (y : ℚ) : (s.dragPriceScale exp y).props = s.props ∧
    (s.dragPriceScale exp y).deps = s.deps ∧ (s.dragPriceScale exp y).refs = s.refs ∧
    (s.dragPriceScale exp y).shown = s.shown := by
  unfold Chart.dragPriceScale
  split <;> exact ⟨rfl, rfl, rfl, rfl⟩

theorem dragTimeScale_frame (x : ℚ) : (s.dragTimeScale x).props = s.props ∧
    (s.dragTimeScale x).deps = s.deps ∧ (s.dragTimeScale x).refs = s.refs ∧
    (s.dragTimeScale x).shown = s.shown := by
  unfold Chart.dragTimeScale
  split
  · dsimp only
    split <;> exact ⟨rfl, rfl, rfl, rfl⟩
  · exact ⟨rfl, rfl, rfl, rfl⟩

theorem drag_frame (exp : ℚ → ℚ) (x y : ℚ) :
    ((s.dragPriceScale exp y).dragTimeScale x).props = s.props ∧
      ((s.dragPriceScale exp y).dragTimeScale x).deps = s.deps ∧
      ((s.dragPriceScale exp y).dragTimeScale x).refs = s.refs ∧
      ((s.dragPriceScale exp y).dragTimeScale x).shown = s.shown := by
  obtain ⟨props, deps, refs, shown⟩ := dragPriceScale_frame (s := s) exp y
  obtain ⟨props', deps', refs', shown'⟩ := dragTimeScale_frame (s := s.dragPriceScale exp y) x
  exact ⟨props'.trans props, deps'.trans deps, refs'.trans refs, shown'.trans shown⟩

theorem steady_drag (steady : Steady s) (rendered : s.view.zoom = s.shown.zoom) (exp : ℚ → ℚ) (x y : ℚ) :
    Steady ((s.dragPriceScale exp y).dragTimeScale x) := by
  have price : InRange (s.dragPriceScale exp y).view.zoom := by
    unfold Chart.dragPriceScale
    split
    · exact steady.zoomed.view.setScale _
    · exact steady.zoomed.view
  have time {t : Chart} (inside : InRange t.view.zoom) : InRange (t.dragTimeScale x).view.zoom := by
    unfold Chart.dragTimeScale
    split
    · dsimp only
      split <;> exact inside.setWidth _
    · exact inside
  obtain ⟨-, -, refs, shown⟩ := drag_frame (s := s) exp x y
  exact steady_of_set steady rendered (time price) (by rw [shown]) (by rw [refs])

theorem steady_step {exp : ℚ → ℚ} {e : Event} {s' : Chart} (steady : Steady s) (prompt : Prompt s e)
    (stepped : step exp s e = some s') : Steady s' := by
  cases e with
  | wheel w =>
    cases stepped
    exact steady_wheel steady prompt w
  | scaleWheel deltaY =>
    cases stepped
    unfold Chart.scaleWheel
    split
    · exact steady
    · exact steady_of_set steady prompt (steady.zoomed.view.setScale _) rfl rfl
  | zoom factor =>
    cases stepped
    exact steady_of_set steady prompt (steady.zoomed.view.setWidth _) rfl rfl
  | verticalZoom factor =>
    cases stepped
    exact steady_of_set steady prompt (steady.zoomed.view.setScale _) rfl rfl
  | resetZoom =>
    cases stepped
    have width : 2 ≤ (if 100 < s.shown.visibleClientWidth then bestWidth s.shown.visibleClientWidth else 10) ∧
        (if 100 < s.shown.visibleClientWidth then bestWidth s.shown.visibleClientWidth else 10) ≤ 450 := by
      split
      · exact bestWidth_range _
      · norm_num
    exact steady_of_set steady prompt (fitPrices_range s.props width.1 width.2) rfl rfl
  | mouseDown x y =>
    cases stepped
    unfold Chart.handleMouseDown
    split <;> exact steady_of_kept steady rfl rfl rfl
  | mouseMove x y =>
    cases stepped
    unfold Chart.handleMouseMove
    split
    · exact steady
    · rename_i dragged
      have rendered := prompt.resolve_left (by simp [dragged])
      have inside := steady.zoomed.view
      exact steady_of_set steady rendered ⟨inside.wide, inside.narrow, inside.flat, inside.tall⟩ rfl rfl
  | mouseUp | scaleDown y | windowUp | scroll v =>
    cases stepped
    exact steady_of_kept steady rfl rfl rfl
  | drag x y =>
    cases stepped
    rcases prompt with idle | rendered
    · simpa only [Chart.dragPriceScale, Chart.dragTimeScale, idle, Bool.false_eq_true, ↓reduceIte] using steady
    · exact steady_drag steady rendered exp x y
  | scrolled =>
    rw [step] at stepped
    split at stepped
    · cases stepped
      exact steady_of_kept steady rfl rfl rfl
    · cases stepped
  | resize clientWidth =>
    rw [step] at stepped
    split at stepped
    · cases stepped
      unfold Chart.observe
      split <;> exact steady_of_kept steady rfl rfl rfl
    · cases stepped
  | render props =>
    cases stepped
    exact steady_render steady props

theorem steady_mount (clientWidth : ℚ) (props : Props) : Steady (Chart.mount clientWidth props) := by
  have initial : InRange Chart.initialZoom := by constructor <;> norm_num [Chart.initialZoom]
  exact steady_render ⟨⟨initial, initial, initial⟩, .inl rfl⟩ props

end Steps

end ChartViewport
