import Procluster.ViewportRuns

/-!
Drags over the chart: a pan follows the cursor; a drag of the time scale holds the candle
that it grabbed as long as the spacing between candles is that of the last render.
-/
namespace ChartViewport
open EventRuns LinearScale

section Started

def Started (s : Chart) : Prop :=
  ∃ d, s.deps = some d ∧ d.symbol = s.props.symbol ∧ d.length = s.props.candles.length ∧
    (s.props.candles ≠ [] → s.refs.hasInitializedZoom = some s.props.symbol)

theorem initializeZoom_symbol (s : Chart) (clientWidth : ℚ) :
    (s.initializeZoom clientWidth).refs.hasInitializedZoom = some s.props.symbol := by
  unfold Chart.initializeZoom
  split
  · assumption
  · rfl

theorem initializeZoom_frame (s : Chart) (clientWidth : ℚ) :
    (s.initializeZoom clientWidth).props = s.props ∧ (s.initializeZoom clientWidth).deps = s.deps := by
  unfold Chart.initializeZoom
  split <;> exact ⟨rfl, rfl⟩

theorem started_autoScroll {s : Chart}
    (ran : ∀ d, s.deps = some d → d.symbol = s.props.symbol → d.length = s.props.candles.length →
      s.props.candles ≠ [] → s.refs.hasInitializedZoom = some s.props.symbol) : Started s.autoScroll := by
  unfold Chart.autoScroll
  dsimp only
  split
  · rename_i same
    exact ⟨s.currentDeps, same, rfl, rfl, ran s.currentDeps same rfl rfl⟩
  · split
    · rename_i none_loaded
      exact ⟨s.currentDeps, rfl, rfl, rfl, fun some_candles => absurd none_loaded some_candles⟩
    · set t : Chart := { s with deps := some s.currentDeps } with changed
      obtain ⟨props, deps⟩ := initializeZoom_frame t (orElse t.container.clientWidth 800)
      have symbol := initializeZoom_symbol t (orElse t.container.clientWidth 800)
      exact ⟨s.currentDeps, deps, by rw [Chart.showLatest, props]; rfl, by rw [Chart.showLatest, props]; rfl,
        fun _ => by rw [Chart.showLatest, symbol, props]⟩

theorem measure_frame (s : Chart) : s.measure.props = s.props ∧ s.measure.deps = s.deps ∧
    s.measure.refs = s.refs ∧ s.measure.shown = s.shown ∧
    ∃ width, s.measure.view = { s.view with visibleClientWidth := width } := by
  unfold Chart.measure Chart.observe
  split
  · exact ⟨rfl, rfl, rfl, rfl, s.view.visibleClientWidth, rfl⟩
  · split
    · exact ⟨rfl, rfl, rfl, rfl, s.container.clientWidth, rfl⟩
    · exact ⟨rfl, rfl, rfl, rfl, s.view.visibleClientWidth, rfl⟩

theorem started_render {s : Chart} (ran : s.deps = none ∨ Started s) (props : Props) : Started (s.render props) := by
  obtain ⟨same_props, same_deps, same_refs, -⟩ := measure_frame ((s.commit props).syncRefs s.shown.zoom)
  apply started_autoScroll
  intro d deps symbol length some_candles
  rw [same_deps] at deps
  rw [same_props] at symbol length some_candles ⊢
  rw [same_refs]
  rcases ran with never | ⟨old, old_deps, old_symbol, old_length, initialized⟩
  · exact absurd (never.symm.trans deps) (by simp)
  · obtain rfl : old = d := Option.some.inj (old_deps.symm.trans deps)
    have old_candles : s.props.candles ≠ [] := by
      have some_loaded := List.length_pos_iff.mpr some_candles
      rw [← length, old_length] at some_loaded
      exact List.length_pos_iff.mp some_loaded
    have shown : s.props.symbol = props.symbol := old_symbol.symm.trans symbol
    exact (initialized old_candles).trans (congrArg some shown)

theorem wheel_frame (s : Chart) (w : Wheel) : (s.handleWheel w).props = s.props ∧
    (s.handleWheel w).deps = s.deps ∧ (s.handleWheel w).refs.hasInitializedZoom = s.refs.hasInitializedZoom := by
  have width (t : Chart) (x : ℚ) : (t.wheelWidth w.deltaY x).props = t.props ∧
      (t.wheelWidth w.deltaY x).deps = t.deps ∧
      (t.wheelWidth w.deltaY x).refs.hasInitializedZoom = t.refs.hasInitializedZoom := by
    unfold Chart.wheelWidth
    split <;> exact ⟨rfl, rfl, rfl⟩
  have scale (t : Chart) (y : ℚ) : (t.wheelScale w.deltaY y).props = t.props ∧
      (t.wheelScale w.deltaY y).deps = t.deps ∧
      (t.wheelScale w.deltaY y).refs.hasInitializedZoom = t.refs.hasInitializedZoom := by
    unfold Chart.wheelScale
    dsimp only
    split <;> exact ⟨rfl, rfl, rfl⟩
  unfold Chart.handleWheel
  split
  · exact ⟨rfl, rfl, rfl⟩
  · split
    · exact scale s w.y
    · split
      · exact width s w.x
      · obtain ⟨props, deps, initialized⟩ := scale (s.wheelWidth w.deltaY w.x) w.y
        obtain ⟨props', deps', initialized'⟩ := width s w.x
        exact ⟨props.trans props', deps.trans deps', initialized.trans initialized'⟩

theorem started_step {exp : ℚ → ℚ} {s s' : Chart} {e : Event} (started : Started s)
    (stepped : step exp s e = some s') : Started s' := by
  obtain ⟨d, deps, symbol, length, initialized⟩ := started
  have kept {t : Chart} (props : t.props = s.props) (same : t.deps = s.deps)
      (refs : t.refs.hasInitializedZoom = s.refs.hasInitializedZoom) : Started t :=
    ⟨d, same.trans deps, props ▸ symbol, props ▸ length, by rw [props, refs]; exact initialized⟩
  cases e with
  | wheel w =>
    cases stepped
    obtain ⟨props, same, refs⟩ := wheel_frame s w
    exact kept props same refs
  | scaleWheel deltaY =>
    cases stepped
    unfold Chart.scaleWheel
    split <;> exact kept rfl rfl rfl
  | zoom | verticalZoom | resetZoom | mouseUp | scaleDown | windowUp | scroll =>
    cases stepped
    exact kept rfl rfl rfl
  | mouseDown x y =>
    cases stepped
    unfold Chart.handleMouseDown
    split <;> exact kept rfl rfl rfl
  | mouseMove x y =>
    cases stepped
    unfold Chart.handleMouseMove
    split <;> exact kept rfl rfl rfl
  | drag x y =>
    cases stepped
    obtain ⟨props, same, refs, -⟩ := drag_frame (s := s) exp x y
    exact kept props same (by rw [refs])
  | scrolled =>
    rw [step] at stepped
    split at stepped
    · cases stepped
      exact kept rfl rfl rfl
    · cases stepped
  | resize clientWidth =>
    rw [step] at stepped
    split at stepped
    · cases stepped
      unfold Chart.observe
      split <;> exact kept rfl rfl rfl
    · cases stepped
  | render props =>
    cases stepped
    exact started_render (.inr ⟨d, deps, symbol, length, initialized⟩) props

theorem started_run {exp : ℚ → ℚ} {clientWidth : ℚ} {props : Props} {es : List Event} {s : Chart}
    (reach : run (step exp) (Chart.mount clientWidth props) es = some s) : Started s := by
  have free : Guarded (step exp) (fun _ _ => True) (Chart.mount clientWidth props) es :=
    guarded_of_events (fun _ _ _ => trivial)
  exact invariant_run Started (fun _ _ => True) (fun _ _ _ started _ => started_step started)
    (started_render (.inl rfl) props) free reach

end Started

section Pan

def grabbed (s : Chart) (x y : ℚ) : Pan := ⟨x, y, s.container.scrollLeft, s.shown.zoom.priceCenterOffset⟩

/-- What may happen while the mouse is held: moves, scrolling, a new size and renders. -/
def Holding (held : Props) (_ : Chart) : Event → Prop
  | .mouseMove _ _ | .scroll _ | .scrolled | .resize _ => True
  | .render props => props = held
  | _ => False

instance (held : Props) (t : Chart) : ∀ e, Decidable (Holding held t e)
  | .mouseMove _ _ | .scroll _ | .scrolled | .resize _ => isTrue trivial
  | .render props => inferInstanceAs (Decidable (props = held))
  | .wheel _ | .scaleWheel _ | .zoom _ | .verticalZoom _ | .resetZoom | .mouseDown _ _ | .mouseUp
  | .scaleDown _ | .drag _ _ | .windowUp => isFalse id

def SameScales (z z' : Zoom) : Prop := z'.candleWidth = z.candleWidth ∧ z'.verticalScale = z.verticalScale

structure Held (s : Chart) (x y : ℚ) (t : Chart) : Prop where
  started : Started t
  props : t.props = s.props
  view : SameScales s.shown.zoom t.view.zoom
  shown : SameScales s.shown.zoom t.shown.zoom
  pan : t.view.pan = some (grabbed s x y)
  rendered : t.shown.pan = none ∨ t.shown.pan = some (grabbed s x y)

/-- The price of the grab is under the cursor, and the candle of the grab, as it was drawn,
    if the chart was drawn where the container was. -/
structure Followed (s : Chart) (x₀ y₀ : ℚ) (t : Chart) (x y : ℚ) : Prop where
  candle : column t.view.visibleScrollLeft t.view.zoom.candleWidth x =
      column s.shown.visibleScrollLeft s.shown.zoom.candleWidth x₀ ↔
    s.shown.visibleScrollLeft = s.container.scrollLeft
  price : yToPrice t.props t.view.zoom y = yToPrice s.props s.shown.zoom y₀

variable {s t : Chart} {x₀ y₀ : ℚ}

theorem held_down (started : Started s) (rendered : s.view.zoom = s.shown.zoom) (free : s.shown.pan = none)
    (above : y₀ < s.props.panels.totalSvgHeight - margin.bottom) : Held s x₀ y₀ (s.handleMouseDown x₀ y₀) := by
  unfold Chart.handleMouseDown
  rw [if_neg (not_le.mpr above)]
  exact ⟨started, rfl, ⟨by rw [rendered], by rw [rendered]⟩, ⟨rfl, rfl⟩, rfl, .inl free⟩

theorem showLatest_frame (u : Chart) (symbol : u.refs.hasInitializedZoom = some u.props.symbol) :
    ∃ left width, u.showLatest.view = { u.view with visibleScrollLeft := left, visibleClientWidth := width } ∧
      u.showLatest.refs = u.refs ∧ u.showLatest.shown = u.shown ∧ u.showLatest.props = u.props := by
  have same (c : ℚ) : u.initializeZoom c = u := if_pos symbol
  refine ⟨u.showLatest.view.visibleScrollLeft, u.showLatest.view.visibleClientWidth, ?_⟩
  unfold Chart.showLatest
  simp only [same, and_self]

/- Of the effects after a render none changes the zoom of a symbol that was shown before. -/
theorem render_frame (started : Started t) : ∃ left width zoom,
    (t.render t.props).view = { t.view with visibleScrollLeft := left, visibleClientWidth := width } ∧
      (t.render t.props).refs = { t.refs with zoom := zoom } ∧
      (t.render t.props).shown = t.view ∧ (t.render t.props).props = t.props := by
  obtain ⟨d, -, -, -, initialized⟩ := started
  set synced := (t.commit t.props).syncRefs t.shown.zoom with committed
  set u := synced.measure with measured
  obtain ⟨props, -, refs, shown, width, view⟩ := measure_frame synced
  have refs' : u.refs = { t.refs with zoom := synced.refs.zoom } := refs
  show ∃ left width zoom, u.autoScroll.view = { t.view with visibleScrollLeft := left, visibleClientWidth := width } ∧
    u.autoScroll.refs = { t.refs with zoom := zoom } ∧ u.autoScroll.shown = t.view ∧ u.autoScroll.props = t.props
  unfold Chart.autoScroll
  dsimp only
  split
  · exact ⟨t.view.visibleScrollLeft, width, synced.refs.zoom, view, refs', shown, props⟩
  · split
    · exact ⟨t.view.visibleScrollLeft, width, synced.refs.zoom, view, refs', shown, props⟩
    · rename_i some_candles
      have props' : u.props = t.props := props
      have symbol : u.refs.hasInitializedZoom = some u.props.symbol := by
        rw [refs', props']
        exact initialized (by rw [← props']; exact some_candles)
      obtain ⟨left, width', latest, refs'', shown', props''⟩ :=
        showLatest_frame { u with deps := some u.currentDeps } symbol
      refine ⟨left, width', synced.refs.zoom, latest.trans ?_, refs''.trans refs', shown'.trans shown,
        props''.trans props⟩
      rw [view]
      rfl

theorem held_step {exp : ℚ → ℚ} {e : Event} {t' : Chart} (held : Held s x₀ y₀ t) (holding : Holding s.props t e)
    (stepped : step exp t e = some t') : Held s x₀ y₀ t' := by
  have started := started_step held.started stepped
  cases e with
  | mouseMove x y =>
    cases stepped
    unfold Chart.handleMouseMove at started ⊢
    split at started
    · rename_i idle
      exact ⟨started, held.props, held.view, held.shown, held.pan, held.rendered⟩
    · exact ⟨started, held.props, held.view, held.shown, held.pan, held.rendered⟩
  | scroll v =>
    cases stepped
    exact ⟨started, held.props, held.view, held.shown, held.pan, held.rendered⟩
  | scrolled =>
    rw [step] at stepped
    split at stepped
    · cases stepped
      exact ⟨started, held.props, held.view, held.shown, held.pan, held.rendered⟩
    · cases stepped
  | resize clientWidth =>
    rw [step] at stepped
    split at stepped
    · cases stepped
      unfold Chart.observe at started ⊢
      split at started
      · rename_i wide
        rw [if_pos wide]
        exact ⟨started, held.props, held.view, held.shown, held.pan, held.rendered⟩
      · rename_i narrow
        rw [if_neg narrow]
        exact ⟨started, held.props, held.view, held.shown, held.pan, held.rendered⟩
    · cases stepped
  | render props =>
    cases stepped
    obtain rfl : props = t.props := holding.trans held.props.symm
    obtain ⟨left, width, zoom, view, -, shown, props⟩ := render_frame held.started
    refine ⟨started, props.trans held.props, ?_, ?_, ?_, .inr ?_⟩
    · rw [view]
      exact held.view
    · rw [shown]
      exact held.view
    · rw [view]
      exact held.pan
    · rw [shown]
      exact held.pan
  | wheel | scaleWheel | zoom | verticalZoom | resetZoom | mouseDown | mouseUp | scaleDown | drag | windowUp =>
    exact holding.elim

theorem priceRange_shown {p : Props} {z : Zoom} (flat : 1 / 10 ≤ z.verticalScale) :
    maxPrice p z - minPrice p z = 116 / 100 * (p.bounds.priceRange / z.verticalScale) := by
  simp only [maxPrice, minPrice, zoomedPriceRange, max_eq_right flat]
  ring

theorem price_panned {p : Props} {z z' : Zoom} (flat : 1 / 10 ≤ z.verticalScale)
    (same : z'.verticalScale = z.verticalScale) {y₀ y : ℚ}
    (offset : z'.priceCenterOffset = z.priceCenterOffset +
      (y - y₀) / max 1 p.panels.chartHeight * (maxPrice p z - minPrice p z)) :
    yToPrice p z' y = yToPrice p z y₀ := by
  have height := chartHeight_pos p.panels
  have tall : p.panels.chartHeight ≠ 0 := by linarith
  have range : p.bounds.priceRange ≠ 0 := priceRange_ne_zero p.candles
  have scale : z.verticalScale ≠ 0 := by linarith
  rw [priceRange_shown flat, max_eq_right (show 1 ≤ p.panels.chartHeight by linarith)] at offset
  rw [yToPrice_under (same ▸ flat), yToPrice_under flat]
  apply (under_shift_iff (priceScale_unit flat) ?_ y₀ y).mpr
  · simp only [priceScale, priceCenter, same, offset]
    field_simp
    ring
  · simp only [priceScale, same]

theorem move_follows (inside : InRange s.shown.zoom) (held : Held s x₀ y₀ t) (x y : ℚ)
    (rendered : t.shown.pan = some (grabbed s x₀ y₀)) : Followed s x₀ y₀ (t.handleMouseMove x y) x y := by
  obtain ⟨view_width, view_scale⟩ := held.view
  obtain ⟨-, shown_scale⟩ := held.shown
  have range : maxPrice t.props t.shown.zoom - minPrice t.props t.shown.zoom =
      maxPrice s.props s.shown.zoom - minPrice s.props s.shown.zoom := by
    rw [priceRange_shown (shown_scale ▸ inside.flat), priceRange_shown inside.flat, shown_scale, held.props]
  unfold Chart.handleMouseMove
  rw [rendered]
  dsimp only [grabbed]
  constructor
  · have wide : pitch s.shown.zoom.candleWidth ≠ 0 := (pitch_pos inside.wide).ne'
    simp only [column, view_width]
    rw [div_left_inj' wide]
    constructor
    · intro same
      linear_combination -same
    · intro together
      linear_combination -together
  · dsimp only
    rw [held.props]
    refine price_panned inside.flat (by exact view_scale) ?_
    rw [← range, held.props]

/-- A pan follows the cursor as long as the mouse is held, whatever scrolling, sizes and
    renders come in between. -/
theorem pan_follows (exp : ℚ → ℚ) (clientWidth : ℚ) (props : Props) (pre es : List Event)
    (prompt : Guarded (step exp) Prompt (Chart.mount clientWidth props) pre)
    (reach : run (step exp) (Chart.mount clientWidth props) pre = some s)
    (rendered : s.view.zoom = s.shown.zoom) (free : s.shown.pan = none)
    (above : y₀ < s.props.panels.totalSvgHeight - margin.bottom)
    (holding : Guarded (step exp) (Holding s.props) (s.handleMouseDown x₀ y₀) es) :
    EachStep (step exp)
      (fun t e t' => ∀ x y, e = .mouseMove x y → t.shown.pan ≠ none → Followed s x₀ y₀ t' x y)
      (s.handleMouseDown x₀ y₀) es := by
  have steady : Steady s :=
    invariant_run Steady Prompt (fun _ _ _ => steady_step) (steady_mount clientWidth props) prompt reach
  apply eachStep_of_invariant (Held s x₀ y₀) (fun _ _ _ => held_step) ?_
    (held_down (started_run reach) rendered free above) holding
  intro t e t' held _ stepped x y moved dragging
  subst moved
  cases stepped
  exact move_follows steady.zoomed.shown held x y (held.rendered.resolve_left dragging)

def threeShown : Chart := (Chart.mount 1200 threeCandles).render threeCandles

def panMoves : List Event :=
  [.render threeCandles, .mouseMove 350 130, .scrolled, .render threeCandles, .mouseMove 410 80]

theorem three_panned : EachStep (step fun _ => 1)
    (fun t e t' => ∀ x y, e = .mouseMove x y → t.shown.pan ≠ none → Followed threeShown 400 100 t' x y)
    (threeShown.handleMouseDown 400 100) panMoves :=
  pan_follows (fun _ => 1) 1200 threeCandles [.render threeCandles] panMoves (by decide +kernel) rfl
    (by decide +kernel) rfl (by decide +kernel) (by decide +kernel)

end Pan

section TimeScale

def Dragging (held : Props) (_ : Chart) : Event → Prop
  | .drag _ _ | .mouseMove _ _ | .scroll _ | .scrolled | .resize _ => True
  | .render props => props = held
  | _ => False

instance (held : Props) (t : Chart) : ∀ e, Decidable (Dragging held t e)
  | .drag _ _ | .mouseMove _ _ | .scroll _ | .scrolled | .resize _ => isTrue trivial
  | .render props => inferInstanceAs (Decidable (props = held))
  | .wheel _ | .scaleWheel _ | .zoom _ | .verticalZoom _ | .resetZoom | .mouseDown _ _ | .mouseUp
  | .scaleDown _ | .windowUp => isFalse id

def anchor (s : Chart) (x : ℚ) : ℚ := column s.container.scrollLeft s.shown.zoom.candleWidth x

structure Anchored (s : Chart) (x : ℚ) (t : Chart) : Prop where
  started : Started t
  props : t.props = s.props
  view : 2 ≤ t.view.zoom.candleWidth
  shown : 2 ≤ t.shown.zoom.candleWidth
  idle : t.view.pan = none ∧ t.shown.pan = none
  index : t.refs.zoomAnchorIndex = some (anchor s x)
  click : t.refs.zoomAnchorClickX = x
  price : t.view.isDraggingPriceScale = false ∧ t.shown.isDraggingPriceScale = false

def draggedWidth (t : Chart) (x : ℚ) : ℚ :=
  clampWidth t.props.candleType (t.refs.startCandleWidth + (x - t.refs.startTimeScaleX))

/-- nextScrollLeft and maxScroll of the handler, with the spacing of the render. -/
def draggedScroll (t : Chart) (index click x : ℚ) : ℚ :=
  index * (draggedWidth t x + candleSpacing t.shown.zoom.candleWidth) + margin.left - click

def draggedMax (t : Chart) (x : ℚ) : ℚ :=
  max 0 (t.props.candles.length * (draggedWidth t x + candleSpacing t.shown.zoom.candleWidth) + margin.left +
    margin.right + round (orElse t.shown.visibleClientWidth 800 * (85 / 100)) - orElse t.container.clientWidth 800)

/-- The move does not run into an end, neither the handler's nor that of the content. -/
def InReach (s : Chart) (x₀ : ℚ) (t : Chart) (x : ℚ) : Prop :=
  0 ≤ draggedScroll t (anchor s x₀) x₀ x ∧ draggedScroll t (anchor s x₀) x₀ x ≤ draggedMax t x ∧
    draggedScroll t (anchor s x₀) x₀ x ≤ t.container.maxScroll

/-- The new width has the spacing that was rendered. -/
def SameSpacing (s : Chart) (x₀ : ℚ) (t : Chart) : Event → Prop
  | .drag x _ => t.shown.isDraggingTimeScale = true → InReach s x₀ t x →
    anchor s x₀ = 0 ∨ candleSpacing (draggedWidth t x) = candleSpacing t.shown.zoom.candleWidth
  | _ => True

instance (s : Chart) (x₀ : ℚ) (t : Chart) (x : ℚ) : Decidable (InReach s x₀ t x) :=
  inferInstanceAs (Decidable (_ ∧ _ ∧ _))

instance (s : Chart) (x₀ : ℚ) (t : Chart) : ∀ e, Decidable (SameSpacing s x₀ t e)
  | .drag x _ => inferInstanceAs (Decidable (t.shown.isDraggingTimeScale = true → InReach s x₀ t x →
      anchor s x₀ = 0 ∨ candleSpacing (draggedWidth t x) = candleSpacing t.shown.zoom.candleWidth))
  | .wheel _ | .scaleWheel _ | .zoom _ | .verticalZoom _ | .resetZoom | .mouseDown _ _ | .mouseMove _ _ | .mouseUp
  | .scaleDown _ | .windowUp | .scroll _ | .scrolled | .resize _ | .render _ => isTrue trivial

/-- The chart has the candle that was drawn at the grab where it was grabbed. -/
def AnchorHeld (s : Chart) (x₀ : ℚ) (t : Chart) (e : Event) (t' : Chart) : Prop :=
  ∀ x y, e = .drag x y → t.shown.isDraggingTimeScale = true → InReach s x₀ t x →
    drawnColumn t' x₀ = column s.shown.visibleScrollLeft s.shown.zoom.candleWidth x₀ ∧
      t'.container.scrollLeft = t'.view.visibleScrollLeft

variable {s t : Chart} {x₀ y₀ : ℚ}

theorem dragTimeScale_eq {index : ℚ} (dragging : t.shown.isDraggingTimeScale = true)
    (anchored : t.refs.zoomAnchorIndex = some index) (x : ℚ) :
    (t.dragTimeScale x).view.zoom.candleWidth = draggedWidth t x ∧
      (t.dragTimeScale x).view.visibleScrollLeft =
        max 0 (min (draggedMax t x) (draggedScroll t index t.refs.zoomAnchorClickX x)) ∧
      (t.dragTimeScale x).container = t.container.scrollTo
        (max 0 (min (draggedMax t x) (draggedScroll t index t.refs.zoomAnchorClickX x))) := by
  unfold Chart.dragTimeScale
  rw [if_pos dragging]
  dsimp only
  have still : (t.setZoom { t.view.zoom with candleWidth := draggedWidth t x }).refs.zoomAnchorIndex = some index :=
    anchored
  split
  · rename_i absent
    exact absurd (absent.symm.trans still) (by simp)
  · rename_i found same
    obtain rfl : found = index := Option.some.inj (same.symm.trans still)
    exact ⟨rfl, rfl, rfl⟩

/- Within reach the chart and the container take the position that the handler wants; it is
   the one for the grabbed candle if the spacing is right. -/
theorem drag_holds_iff (anchored : Anchored s x₀ t) (dragging : t.shown.isDraggingTimeScale = true) {x : ℚ}
    (reach : InReach s x₀ t x) :
    (drawnColumn (t.dragTimeScale x) x₀ = anchor s x₀ ∧
        (t.dragTimeScale x).container.scrollLeft = (t.dragTimeScale x).view.visibleScrollLeft) ↔
      anchor s x₀ = 0 ∨ candleSpacing (draggedWidth t x) = candleSpacing t.shown.zoom.candleWidth := by
  obtain ⟨width, visible, container⟩ := dragTimeScale_eq dragging anchored.index x
  obtain ⟨left, right, room⟩ := reach
  rw [anchored.click, min_eq_right right] at container visible
  have placed : (t.dragTimeScale x).container.scrollLeft = draggedScroll t (anchor s x₀) x₀ x := by
    rw [container]
    exact (scrollTo_eq_iff t.container _).mpr ⟨left, room⟩
  rw [max_eq_right left] at visible
  have wide : 0 < pitch (draggedWidth t x) := pitch_pos (clampWidth_range _ _).1
  rw [drawnColumn, placed, visible, width, column, draggedScroll, div_eq_iff wide.ne', pitch,
    and_iff_left rfl]
  constructor
  · intro same
    have product : anchor s x₀ * (candleSpacing (draggedWidth t x) - candleSpacing t.shown.zoom.candleWidth) = 0 := by
      linear_combination -same
    exact (mul_eq_zero.mp product).imp_right sub_eq_zero.mp
  · rintro (none | same)
    · rw [none]
      ring
    · rw [same]
      ring

theorem anchored_down (started : Started s) (steady : Steady s) (idle : s.view.pan = none ∧ s.shown.pan = none)
    (price : s.view.isDraggingPriceScale = false ∧ s.shown.isDraggingPriceScale = false)
    (below : s.props.panels.totalSvgHeight - margin.bottom ≤ y₀) : Anchored s x₀ (s.handleMouseDown x₀ y₀) := by
  unfold Chart.handleMouseDown
  rw [if_pos below]
  exact ⟨started, rfl, steady.zoomed.view.wide, steady.zoomed.shown.wide, idle, rfl, rfl, price⟩

theorem anchored_drag (anchored : Anchored s x₀ t) {exp : ℚ → ℚ} {x y : ℚ}
    (started : Started ((t.dragPriceScale exp y).dragTimeScale x)) :
    Anchored s x₀ ((t.dragPriceScale exp y).dragTimeScale x) := by
  have still : t.dragPriceScale exp y = t := by
    unfold Chart.dragPriceScale
    rw [anchored.price.2]
    rfl
  rw [still] at started ⊢
  obtain ⟨props, -, refs, shown⟩ := dragTimeScale_frame (s := t) x
  have view : 2 ≤ (t.dragTimeScale x).view.zoom.candleWidth ∧ (t.dragTimeScale x).view.pan = none ∧
      (t.dragTimeScale x).view.isDraggingPriceScale = false := by
    unfold Chart.dragTimeScale
    split
    · dsimp only
      split <;> exact ⟨(clampWidth_range _ _).1, anchored.idle.1, anchored.price.1⟩
    · exact ⟨anchored.view, anchored.idle.1, anchored.price.1⟩
  constructor
  · exact started
  · exact props.trans anchored.props
  · exact view.1
  · rw [shown]
    exact anchored.shown
  · rw [shown]
    exact ⟨view.2.1, anchored.idle.2⟩
  · rw [refs]
    exact anchored.index
  · rw [refs]
    exact anchored.click
  · rw [shown]
    exact ⟨view.2.2, anchored.price.2⟩

/- A step that leaves the zoom, the pan, the drag of the price scale, the last render and
   the refs. -/
theorem anchored_same (anchored : Anchored s x₀ t) {u : Chart} (started : Started u)
    (props : u.props = t.props) (view : u.view.zoom = t.view.zoom) (pan : u.view.pan = t.view.pan)
    (price : u.view.isDraggingPriceScale = t.view.isDraggingPriceScale) (shown : u.shown = t.shown)
    (refs : u.refs = t.refs) : Anchored s x₀ u := by
  refine ⟨started, props.trans anchored.props, ?_, ?_, ?_, ?_, ?_, ?_⟩
  · rw [view]; exact anchored.view
  · rw [shown]; exact anchored.shown
  · rw [pan, shown]; exact anchored.idle
  · rw [refs]; exact anchored.index
  · rw [refs]; exact anchored.click
  · rw [price, shown]; exact anchored.price

theorem anchored_render (anchored : Anchored s x₀ t) (started : Started (t.render t.props)) :
    Anchored s x₀ (t.render t.props) := by
  obtain ⟨left, width, zoom, view, refs, shown, props⟩ := render_frame anchored.started
  constructor
  · exact started
  · exact props.trans anchored.props
  · rw [view]; exact anchored.view
  · rw [shown]; exact anchored.view
  · rw [view, shown]; exact ⟨anchored.idle.1, anchored.idle.1⟩
  · rw [refs]; exact anchored.index
  · rw [refs]; exact anchored.click
  · rw [view, shown]; exact ⟨anchored.price.1, anchored.price.1⟩

theorem anchored_step {exp : ℚ → ℚ} {e : Event} {t' : Chart} (anchored : Anchored s x₀ t)
    (dragging : Dragging s.props t e) (stepped : step exp t e = some t') : Anchored s x₀ t' := by
  have started := started_step anchored.started stepped
  cases e with
  | drag x y =>
    cases stepped
    exact anchored_drag anchored started
  | mouseMove x y =>
    cases stepped
    have idle : t.handleMouseMove x y = t := by
      unfold Chart.handleMouseMove
      rw [anchored.idle.2]
    rw [idle]
    exact anchored
  | scroll v =>
    cases stepped
    exact anchored_same anchored started rfl rfl rfl rfl rfl rfl
  | scrolled =>
    rw [step] at stepped
    split at stepped
    · cases stepped
      exact anchored_same anchored started rfl rfl rfl rfl rfl rfl
    · cases stepped
  | resize clientWidth =>
    rw [step] at stepped
    split at stepped
    · cases stepped
      unfold Chart.observe at started ⊢
      split at started
      · rename_i wide
        rw [if_pos wide]
        exact anchored_same anchored started rfl rfl rfl rfl rfl rfl
      · rename_i narrow
        rw [if_neg narrow]
        exact anchored_same anchored started rfl rfl rfl rfl rfl rfl
    · cases stepped
  | render props =>
    cases stepped
    obtain rfl : props = t.props := dragging.trans anchored.props.symm
    exact anchored_render anchored started
  | wheel | scaleWheel | zoom | verticalZoom | resetZoom | mouseDown | mouseUp | scaleDown | windowUp =>
    exact dragging.elim

/-- A drag of the time scale holds the candle that it grabbed: of all moves that run into no
    end, each leaves the candle where it was drawn exactly if each takes a width with the
    spacing that was rendered last. -/
theorem time_drag_holds_iff (exp : ℚ → ℚ) (clientWidth : ℚ) (props : Props) (pre es : List Event)
    (prompt : Guarded (step exp) Prompt (Chart.mount clientWidth props) pre)
    (reach : run (step exp) (Chart.mount clientWidth props) pre = some s)
    (idle : s.view.pan = none ∧ s.shown.pan = none)
    (price : s.view.isDraggingPriceScale = false ∧ s.shown.isDraggingPriceScale = false)
    (below : s.props.panels.totalSvgHeight - margin.bottom ≤ y₀)
    (together : s.shown.visibleScrollLeft = s.container.scrollLeft)
    (dragging : Guarded (step exp) (Dragging s.props) (s.handleMouseDown x₀ y₀) es) :
    EachStep (step exp) (AnchorHeld s x₀) (s.handleMouseDown x₀ y₀) es ↔
      Guarded (step exp) (SameSpacing s x₀) (s.handleMouseDown x₀ y₀) es := by
  have steady : Steady s :=
    invariant_run Steady Prompt (fun _ _ _ => steady_step) (steady_mount clientWidth props) prompt reach
  apply eachStep_iff_guarded_under (Anchored s x₀) (fun _ _ _ => anchored_step) ?_
    (anchored_down (started_run reach) steady idle price below) dragging
  intro t e t' anchored _ stepped
  cases e with
  | drag x y =>
    cases stepped
    have still : t.dragPriceScale exp y = t := by
      unfold Chart.dragPriceScale
      rw [anchored.price.2]
      rfl
    rw [still]
    have grabbed : column s.shown.visibleScrollLeft s.shown.zoom.candleWidth x₀ = anchor s x₀ := by
      rw [together, anchor]
    constructor
    · intro held moving reach
      have there := held x y rfl moving reach
      rw [grabbed] at there
      exact (drag_holds_iff anchored moving reach).mp there
    · intro spacing x' y' same moving reach
      obtain ⟨rfl, rfl⟩ := Event.drag.inj same
      rw [grabbed]
      exact (drag_holds_iff anchored moving reach).mpr (spacing moving reach)
  | wheel | scaleWheel | zoom | verticalZoom | resetZoom | mouseDown | mouseMove | mouseUp | scaleDown | windowUp
  | scroll | scrolled | resize | render =>
    constructor
    · intro _
      trivial
    · intro _ x y same
      cases same

def fortyCandles : Props := { threeCandles with candles := List.replicate 40 ⟨110, 100⟩ }

def fortyShown : Chart := (Chart.mount 1200 fortyCandles).render fortyCandles

/-- From 19 to 17 pixels the spacing goes from 6 to 5, and the candle moves. -/
theorem forty_dragged : ¬ EachStep (step fun _ => 1) (AnchorHeld fortyShown 400)
    (fortyShown.handleMouseDown 400 540) [.render fortyCandles, .drag 398 540] := by
  intro held
  have spacing := (time_drag_holds_iff (fun _ => 1) 1200 fortyCandles [.render fortyCandles] _
    (by decide +kernel) rfl ⟨rfl, rfl⟩ ⟨rfl, rfl⟩ (by decide +kernel) (by decide +kernel)
    (by decide +kernel)).mp held
  revert spacing
  decide +kernel

end TimeScale

end ChartViewport
