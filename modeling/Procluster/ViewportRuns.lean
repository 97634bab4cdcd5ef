import Procluster.ChartViewport

/-!
What stays under the cursor: along every run the wheel keeps the price and, within the reach
of the scroll position, the candle; a pan keeps both; a drag of the time scale keeps the
candle as long as the spacing between candles does not change.
-/
namespace ChartViewport
open EventRuns LinearScale

section Wheel

theorem priceCenter_under {p : Props} {z : Zoom} (flat : 1 / 10 ≤ z.verticalScale) :
    (priceScale p z).under (margin.top + p.panels.chartHeight / 2) = priceCenter p z := by
  have unit := priceScale_unit (p := p) flat
  have mid : margin.top + p.panels.chartHeight / 2 = (priceScale p z).place (priceCenter p z) := by
    simp only [priceScale, Scale.place]
    ring
  rw [mid, under_place unit]

variable {s : Chart}

/- The factor by which a tick scales the prices is that of the units, so the new centre is
   the one under which the price of the cursor stays. -/
theorem cursorOffset_keeps {z : Zoom} (flat : 1 / 10 ≤ s.refs.zoom.verticalScale)
    (flat' : 1 / 10 ≤ z.verticalScale) (y : ℚ)
    (offset : z.priceCenterOffset = s.cursorOffset (z.verticalScale / s.refs.zoom.verticalScale) y) :
    yToPrice s.props z y = yToPrice s.props s.refs.zoom y := by
  have scale : s.refs.zoom.verticalScale ≠ 0 := by linarith
  have scale' : z.verticalScale ≠ 0 := by linarith
  rw [yToPrice_under flat', yToPrice_under flat]
  apply under_zoom (priceScale_unit flat) (div_ne_zero scale' scale)
  · simp only [priceScale]
    field_simp
  · rw [priceCenter_under flat', priceCenter_under flat, priceCenter, offset, Chart.cursorOffset,
      extractPrice_under flat]
    simp only [priceCenter]
    ring

theorem yToPrice_congr {p : Props} {z z' : Zoom} (scale : z'.verticalScale = z.verticalScale)
    (offset : z'.priceCenterOffset = z.priceCenterOffset) (y : ℚ) : yToPrice p z' y = yToPrice p z y := by
  simp only [yToPrice, maxPrice, minPrice, priceCenter, zoomedPriceRange, scale, offset]

theorem wheelScale_price (agreed : Agreed s) (direction y : ℚ) :
    yToPrice s.props (s.wheelScale direction y).view.zoom y = yToPrice s.props s.view.zoom y := by
  rw [(agreed_scale agreed direction y).same, agreed.same]
  unfold Chart.wheelScale
  dsimp only
  split
  · exact cursorOffset_keeps agreed.inside.flat (clampScale_range _).1 y rfl
  · rfl

theorem wheelScale_scale (agreed : Agreed s) (direction y : ℚ) :
    (s.wheelScale direction y).view.zoom.verticalScale =
      if s.InPlot y then clampScale (s.view.zoom.verticalScale * multiplier direction)
      else s.view.zoom.verticalScale := by
  have nonzero : s.refs.zoom.verticalScale ≠ 0 := by linarith [agreed.inside.flat]
  rw [(agreed_scale agreed direction y).same, agreed.same]
  unfold Chart.wheelScale
  dsimp only
  by_cases inside : s.InPlot y
  · by_cases same : s.nextVerticalScale direction / s.refs.zoom.verticalScale = 1
    · rw [if_neg (fun both => both.2 same), if_pos inside]
      exact ((div_eq_one_iff_eq nonzero).mp same).symm
    · rw [if_pos ⟨inside, same⟩, if_pos inside]
      rfl
  · rw [if_neg (fun both => inside both.1), if_neg inside]

theorem wheelWidth_frame (agreed : Agreed s) (direction x : ℚ) :
    (s.wheelWidth direction x).props = s.props ∧
      (s.wheelWidth direction x).view.zoom =
        { s.view.zoom with candleWidth := s.nextWidthClamped direction } := by
  unfold Chart.wheelWidth
  split
  · rename_i same
    refine ⟨rfl, ?_⟩
    rw [same, agreed.same]
  · exact ⟨rfl, rfl⟩

theorem wheelScale_frame (direction y : ℚ) :
    (s.wheelScale direction y).props = s.props ∧ (s.wheelScale direction y).container = s.container ∧
      (s.wheelScale direction y).view.visibleScrollLeft = s.view.visibleScrollLeft ∧
      (s.wheelScale direction y).view.zoom.candleWidth = s.view.zoom.candleWidth := by
  unfold Chart.wheelScale
  dsimp only
  split <;> exact ⟨rfl, rfl, rfl, rfl⟩

/-- A tick zooms the prices where the cursor is in the plot, about the price under it. -/
structure PriceKept (s : Chart) (w : Wheel) (s' : Chart) : Prop where
  scale : s'.view.zoom.verticalScale =
    if w.deltaY ≠ 0 ∧ (w.shift ∨ ¬ w.ctrl) ∧ s.InPlot w.y then
      clampScale (s.view.zoom.verticalScale * multiplier w.deltaY)
    else s.view.zoom.verticalScale
  price : yToPrice s'.props s'.view.zoom w.y = yToPrice s.props s.view.zoom w.y

theorem priceKept_scale (agreed : Agreed s) {w : Wheel} (turned : w.deltaY ≠ 0) (vertical : w.shift ∨ ¬ w.ctrl) :
    PriceKept s w (s.wheelScale w.deltaY w.y) := by
  refine ⟨?_, ?_⟩
  · rw [wheelScale_scale agreed]
    simp only [turned, vertical, ne_eq, not_false_eq_true, true_and]
  · rw [(wheelScale_frame w.deltaY w.y).1]
    exact wheelScale_price agreed w.deltaY w.y

theorem priceKept_wheel (agreed : Agreed s) (w : Wheel) : PriceKept s w (s.handleWheel w) := by
  unfold Chart.handleWheel
  split
  · rename_i still
    exact ⟨by simp [still], rfl⟩
  · rename_i turned
    split
    · rename_i shift
      exact priceKept_scale agreed turned (.inl shift)
    · rename_i plain
      obtain ⟨props, zoom⟩ := wheelWidth_frame agreed w.deltaY w.x
      have kept : yToPrice s.props (s.wheelWidth w.deltaY w.x).view.zoom w.y = yToPrice s.props s.view.zoom w.y :=
        yToPrice_congr (by rw [zoom]) (by rw [zoom]) w.y
      split
      · rename_i ctrl
        refine ⟨?_, ?_⟩
        · rw [zoom, if_neg]
          intro vertical
          exact vertical.2.1.elim plain (· ctrl)
        · rw [props, kept]
      · rename_i no_ctrl
        have then_scale := priceKept_scale (agreed_width agreed w.deltaY w.x) turned (.inr no_ctrl)
        refine ⟨?_, ?_⟩
        · have plot : (s.wheelWidth w.deltaY w.x).InPlot w.y ↔ s.InPlot w.y := by
            rw [Chart.InPlot, Chart.InPlot, props]
          simp only [then_scale.scale, zoom, plot]
        · rw [then_scale.price, props, kept]

/-- Every tick of the wheel zooms about the price under the cursor, in every run. -/
theorem wheel_keeps_price (exp : ℚ → ℚ) (clientWidth : ℚ) (props : Props) (es : List Event)
    (prompt : Guarded (step exp) Prompt (Chart.mount clientWidth props) es) :
    EachStep (step exp) (fun s e s' => ∀ w, e = .wheel w → PriceKept s w s')
      (Chart.mount clientWidth props) es := by
  apply eachStep_of_invariant Steady (fun _ _ _ => steady_step) ?_ (steady_mount clientWidth props) prompt
  intro s e s' steady agree stepped w tick
  subst tick
  cases stepped
  exact priceKept_wheel ⟨agree, steady.zoomed.refs⟩ w

def threeCandles : Props :=
  ⟨[⟨110, 100⟩, ⟨120, 105⟩, ⟨118, 111⟩], .auto, "BTCUSDT", 0, ⟨550, true, false, 120, 120⟩⟩

def ticks : List Event :=
  [.render threeCandles, .wheel ⟨-1, false, false, 400, 100⟩, .wheel ⟨1, true, false, 300, 50⟩, .scrolled,
    .wheel ⟨-1, false, true, 300, 200⟩, .render threeCandles, .zoom 15, .render threeCandles,
    .wheel ⟨-1, false, false, 500, 90⟩]

theorem ticks_keep_price : (run (step fun _ => 1) (Chart.mount 1200 threeCandles) ticks).isSome ∧
    EachStep (step fun _ => 1) (fun s e s' => ∀ w, e = .wheel w → PriceKept s w s')
      (Chart.mount 1200 threeCandles) ticks :=
  ⟨by decide +kernel, wheel_keeps_price (fun _ => 1) 1200 threeCandles ticks (by decide +kernel)⟩

end Wheel

section Candles

theorem maxScroll_nonneg (c : Container) : 0 ≤ c.maxScroll := le_max_left _ _

@[simp] theorem scrollTo_maxScroll (c : Container) (v : ℚ) : (c.scrollTo v).maxScroll = c.maxScroll := rfl

/-- The container takes a position from 0 to maxScroll, and no other. -/
theorem scrollTo_eq_iff (c : Container) (v : ℚ) :
    (c.scrollTo (max 0 v)).scrollLeft = v ↔ 0 ≤ v ∧ v ≤ c.maxScroll := by
  have room := maxScroll_nonneg c
  constructor
  · intro taken
    rw [← taken]
    exact ⟨le_max_left _ _, max_le room (min_le_left _ _)⟩
  · rintro ⟨left, right⟩
    show max 0 (min c.maxScroll (max 0 v)) = v
    rw [max_eq_right left, min_eq_right right, max_eq_right left]

/-- The position that leaves the candle at x where a chart drawn at scrollLeft has it. -/
def candlePlace (s s' : Chart) (scrollLeft x : ℚ) : ℚ :=
  margin.left + (scrollLeft + x - margin.left) *
    (pitch s'.view.zoom.candleWidth / pitch s.view.zoom.candleWidth) - x

def drawnColumn (s : Chart) (x : ℚ) : ℚ := column s.view.visibleScrollLeft s.view.zoom.candleWidth x

theorem drawnColumn_eq_iff {s s' : Chart} (wide : 2 ≤ s.view.zoom.candleWidth)
    (wide' : 2 ≤ s'.view.zoom.candleWidth) (x : ℚ) : drawnColumn s' x = drawnColumn s x ↔
      s'.view.visibleScrollLeft = candlePlace s s' s.view.visibleScrollLeft x := by
  rw [drawnColumn, drawnColumn, column_under, column_under,
    under_eq_iff (pitch_pos wide).ne' (pitch_pos wide').ne']
  simp only [candleScale, candlePlace]
  constructor
  · intro placed
    linear_combination -placed
  · intro placed
    linear_combination -placed

/-- A tick zooms the candles about the one at the cursor, as it is drawn, where the position
    taken from the container's is that for the drawn one; and the container stays with the
    chart as far as it can scroll with the spacer for the new width. -/
structure CandleKept (s : Chart) (w : Wheel) (s' : Chart) : Prop where
  width : s'.view.zoom.candleWidth =
    if w.deltaY ≠ 0 ∧ ¬ w.shift then
      clampWidth s.props.candleType (s.view.zoom.candleWidth * multiplier w.deltaY)
    else s.view.zoom.candleWidth
  room : s'.view.zoom.candleWidth ≠ s.view.zoom.candleWidth → s.props.candles ≠ [] →
    s'.container.maxScroll = max 0 (scrollWidth s.props.candles.length s'.view.zoom.candleWidth
      s.container.clientWidth - s.container.clientWidth)
  candle : drawnColumn s' w.x = drawnColumn s w.x ↔
    s'.view.zoom.candleWidth = s.view.zoom.candleWidth ∨
      max 0 (candlePlace s s' s.container.scrollLeft w.x) = candlePlace s s' s.view.visibleScrollLeft w.x
  together : s.container.scrollLeft = s.view.visibleScrollLeft →
    (drawnColumn s' w.x = drawnColumn s w.x ∧ s'.container.scrollLeft = s'.view.visibleScrollLeft ↔
      s'.view.zoom.candleWidth = s.view.zoom.candleWidth ∨
        0 ≤ candlePlace s s' s.container.scrollLeft w.x ∧
          candlePlace s s' s.container.scrollLeft w.x ≤ s'.container.maxScroll)

variable {s : Chart}

/-- The width that a tick asks for. -/
def wheelTarget (s : Chart) (w : Wheel) : ℚ :=
  if w.deltaY ≠ 0 ∧ ¬ w.shift then clampWidth s.props.candleType (s.view.zoom.candleWidth * multiplier w.deltaY)
  else s.view.zoom.candleWidth

theorem wheelTarget_still {w : Wheel} (still : w.deltaY = 0 ∨ w.shift) :
    wheelTarget s w = s.view.zoom.candleWidth := by
  rw [wheelTarget, if_neg]
  intro turned
  exact still.elim turned.1 turned.2

theorem wheelTarget_turned (agreed : Agreed s) {w : Wheel} (turned : w.deltaY ≠ 0) (plain : ¬ w.shift) :
    wheelTarget s w = s.nextWidthClamped w.deltaY := by
  rw [wheelTarget, if_pos ⟨turned, plain⟩, agreed.same]
  rfl

theorem candleKept_same {w : Wheel} {s' : Chart} (still : wheelTarget s w = s.view.zoom.candleWidth)
    (zoom : s'.view.zoom.candleWidth = s.view.zoom.candleWidth) (container : s'.container = s.container)
    (visible : s'.view.visibleScrollLeft = s.view.visibleScrollLeft) : CandleKept s w s' where
  width := zoom.trans still.symm
  room := fun changed => absurd zoom changed
  candle := by simp only [drawnColumn, zoom, visible, true_or]
  together := by
    intro together
    simp only [drawnColumn, zoom, container, visible, together, true_or, and_self]

/- A chart with a new width, drawn at a position that the container scrolls to. -/
theorem candleKept_moved {w : Wheel} {s' : Chart} (wide : 2 ≤ s.view.zoom.candleWidth)
    (wide' : 2 ≤ s'.view.zoom.candleWidth) (width : s'.view.zoom.candleWidth = wheelTarget s w)
    (changed : s'.view.zoom.candleWidth ≠ s.view.zoom.candleWidth)
    (visible : s'.view.visibleScrollLeft = max 0 (candlePlace s s' s.container.scrollLeft w.x))
    (container : s'.container = (s.resizeSpacer (scrollWidth s.props.candles.length s'.view.zoom.candleWidth
      s.container.clientWidth)).scrollTo (max 0 (candlePlace s s' s.container.scrollLeft w.x))) :
    CandleKept s w s' := by
  constructor
  · exact width
  · intro _ some_candles
    rw [container]
    simp only [scrollTo_maxScroll, Chart.resizeSpacer, if_neg some_candles]
    rfl
  · rw [drawnColumn_eq_iff wide wide', visible]
    simp only [changed, false_or]
  · intro together
    rw [drawnColumn_eq_iff wide wide', visible, ← together]
    simp only [changed, false_or, max_eq_right_iff]
    apply and_congr_right
    intro left
    rw [max_eq_right left] at container ⊢
    rw [container, scrollTo_maxScroll]
    have taken := scrollTo_eq_iff (s.resizeSpacer (scrollWidth s.props.candles.length
      s'.view.zoom.candleWidth s.container.clientWidth)) (candlePlace s s' s.container.scrollLeft w.x)
    rw [max_eq_right left] at taken
    exact taken.trans (and_iff_right left)

theorem candleKept_width (agreed : Agreed s) {w : Wheel} (turned : w.deltaY ≠ 0) (plain : ¬ w.shift) :
    CandleKept s w (s.wheelWidth w.deltaY w.x) := by
  have after := agreed_width agreed w.deltaY w.x
  have target := wheelTarget_turned agreed turned plain
  have width : (s.wheelWidth w.deltaY w.x).view.zoom.candleWidth = s.nextWidthClamped w.deltaY := by
    rw [(wheelWidth_frame agreed w.deltaY w.x).2]
  by_cases same : s.nextWidthClamped w.deltaY = s.refs.zoom.candleWidth
  · have kept : s.wheelWidth w.deltaY w.x = s := if_pos same
    rw [kept]
    exact candleKept_same (by rw [target, same, agreed.same]) rfl rfl rfl
  · have moved : s.wheelWidth w.deltaY w.x = s.setWidth (s.nextWidthClamped w.deltaY)
        (max 0 (s.cursorScroll (s.nextWidthClamped w.deltaY) w.x)) := if_neg same
    have place : s.cursorScroll (s.nextWidthClamped w.deltaY) w.x =
        candlePlace s (s.wheelWidth w.deltaY w.x) s.container.scrollLeft w.x := by
      rw [candlePlace, width, agreed.same]
      rfl
    apply candleKept_moved
    · exact agreed.same ▸ agreed.inside.wide
    · exact after.same ▸ after.inside.wide
    · exact width.trans target.symm
    · rw [width, agreed.same]
      exact same
    · rw [← place, moved]
      rfl
    · rw [width, ← place, moved]
      rfl

theorem candleKept_wheel (agreed : Agreed s) (w : Wheel) : CandleKept s w (s.handleWheel w) := by
  unfold Chart.handleWheel
  split
  · rename_i still
    exact candleKept_same (wheelTarget_still (.inl still)) rfl rfl rfl
  · rename_i turned
    split
    · rename_i shift
      obtain ⟨-, container, visible, width⟩ := wheelScale_frame (s := s) w.deltaY w.y
      exact candleKept_same (wheelTarget_still (.inr shift)) width container visible
    · rename_i plain
      have kept := candleKept_width agreed turned plain
      split
      · exact kept
      · obtain ⟨-, container, visible, width⟩ := wheelScale_frame (s := s.wheelWidth w.deltaY w.x) w.deltaY w.y
        constructor
        · rw [width]
          exact kept.width
        · rw [width, container]
          exact kept.room
        · simp only [drawnColumn, candlePlace, width, visible]
          exact kept.candle
        · simp only [drawnColumn, candlePlace, width, container, visible]
          exact kept.together

/-- Every tick of the wheel zooms about the candle under the cursor, in every run, exactly
    where the scroll position that this takes is the drawn one's. -/
theorem wheel_keeps_candle (exp : ℚ → ℚ) (clientWidth : ℚ) (props : Props) (es : List Event)
    (prompt : Guarded (step exp) Prompt (Chart.mount clientWidth props) es) :
    EachStep (step exp) (fun s e s' => ∀ w, e = .wheel w → CandleKept s w s')
      (Chart.mount clientWidth props) es := by
  apply eachStep_of_invariant Steady (fun _ _ _ => steady_step) ?_ (steady_mount clientWidth props) prompt
  intro s e s' steady agree stepped w tick
  subst tick
  cases stepped
  exact candleKept_wheel ⟨agree, steady.zoomed.refs⟩ w

theorem ticks_keep_candle :
    EachStep (step fun _ => 1) (fun s e s' => ∀ w, e = .wheel w → CandleKept s w s')
      (Chart.mount 1200 threeCandles) ticks :=
  wheel_keeps_candle (fun _ => 1) 1200 threeCandles ticks (by decide +kernel)

end Candles

end ChartViewport
