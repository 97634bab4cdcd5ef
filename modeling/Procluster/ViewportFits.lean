import Procluster.ViewportDrags

/-!
What is in view: the default zoom fits the last 40 candles, and the effect that shows the
latest candle puts it 120 px from the price scale.
-/
namespace ChartViewport
open EventRuns LinearScale

section Widths

theorem candleSpacing_mono {v w : ℚ} (less : v ≤ w) : candleSpacing v ≤ candleSpacing w := by
  have small {u : ℚ} (narrow : u < 30) : ((⌊u * (35 / 100)⌋ : ℤ) : ℚ) ≤ 12 := by
    have below := Int.floor_le (u * (35 / 100))
    linarith
  unfold candleSpacing
  apply max_le_max le_rfl
  by_cases narrow : w < 30
  · rw [if_pos (lt_of_le_of_lt less narrow), if_pos narrow]
    exact_mod_cast Int.floor_le_floor (by linarith)
  · rw [if_neg narrow]
    split
    · exact small (by assumption)
    · exact le_rfl

theorem pitch_mono {v w : ℚ} (less : v ≤ w) : pitch v ≤ pitch w :=
  add_le_add less (candleSpacing_mono less)

theorem pitch_two : pitch 2 = 3 := by decide +kernel

theorem pitch_ten : pitch 10 = 13 := by decide +kernel

/- The loop ends at the last width that fits; pitch_mono makes it the widest one. -/
theorem fitWidth_widest {space : ℚ} (fuel : ℕ) {w : ℕ} (best : ℕ) (fits : pitch w ≤ space) :
    w ≤ fitWidth space (fuel + 1) w best ∧ pitch (fitWidth space (fuel + 1) w best : ℕ) ≤ space ∧
      ∀ v : ℕ, v < w + (fuel + 1) → pitch v ≤ space → v ≤ fitWidth space (fuel + 1) w best := by
  induction fuel generalizing w best with
  | zero =>
    rw [fitWidth, if_pos fits, fitWidth]
    exact ⟨le_rfl, fits, fun v less _ => by omega⟩
  | succ fuel ih =>
    rw [fitWidth, if_pos fits]
    by_cases next : pitch ((w + 1 : ℕ) : ℚ) ≤ space
    · obtain ⟨least, still, widest⟩ := ih w next
      refine ⟨by omega, still, ?_⟩
      intro v less fit
      exact widest v (by omega) fit
    · rw [fitWidth, if_neg next]
      refine ⟨le_rfl, fits, ?_⟩
      intro v _ fit
      by_contra beyond
      have later : ((w + 1 : ℕ) : ℚ) ≤ v := by exact_mod_cast Nat.lt_of_not_le beyond
      exact next ((pitch_mono later).trans fit)

def FortyFit (clientWidth candleWidth : ℚ) : Prop :=
  40 * pitch candleWidth ≤ clientWidth - margin.left - margin.right

theorem fortyFit_iff (clientWidth candleWidth : ℚ) :
    FortyFit clientWidth candleWidth ↔ pitch candleWidth ≤ (clientWidth - margin.left - margin.right) / 40 := by
  rw [FortyFit, le_div_iff₀ (by norm_num), mul_comm]

theorem bestWidth_fits {clientWidth : ℚ} (room : 270 ≤ clientWidth) :
    FortyFit clientWidth (bestWidth clientWidth) ∧
      ∀ w : ℕ, w < 120 → FortyFit clientWidth w → w ≤ bestWidth clientWidth := by
  have two : pitch ((2 : ℕ) : ℚ) ≤ (clientWidth - margin.left - margin.right) / 40 := by
    rw [Nat.cast_ofNat, pitch_two, le_div_iff₀ (by norm_num)]
    simp only [margin]
    linarith
  obtain ⟨least, fits, widest⟩ := fitWidth_widest 117 10 two
  have best : bestWidth clientWidth =
      (fitWidth ((clientWidth - margin.left - margin.right) / 40) 118 2 10 : ℕ) :=
    max_eq_right (by exact_mod_cast least)
  rw [best]
  refine ⟨(fortyFit_iff _ _).mpr fits, ?_⟩
  intro w less fit
  exact_mod_cast widest w (by omega) ((fortyFit_iff _ _).mp fit)

/-- Without room for 40 of the narrowest candles the loop leaves a width of 10. -/
theorem bestWidth_narrow {clientWidth : ℚ} (narrow : clientWidth < 270) : bestWidth clientWidth = 10 := by
  have none_fits : ¬ pitch ((2 : ℕ) : ℚ) ≤ (clientWidth - margin.left - margin.right) / 40 := by
    rw [Nat.cast_ofNat, pitch_two, le_div_iff₀ (by norm_num)]
    simp only [margin]
    linarith
  rw [bestWidth, fitWidth, if_neg none_fits]
  norm_num

theorem bestWidth_fits_iff (clientWidth : ℚ) :
    FortyFit clientWidth (bestWidth clientWidth) ↔ 270 ≤ clientWidth := by
  constructor
  · intro fits
    by_contra narrow
    rw [bestWidth_narrow (not_le.mp narrow), FortyFit, pitch_ten] at fits
    simp only [margin] at fits
    linarith
  · intro room
    exact (bestWidth_fits room).1

end Widths

section Ranges

theorem highest_le_iff {candles : List Candle} {first k : ℚ} :
    highest candles first ≤ k ↔ first ≤ k ∧ ∀ c ∈ candles, c.high ≤ k := by
  induction candles generalizing first with
  | nil => simp [highest]
  | cons c rest ih =>
    have next : highest (c :: rest) first = highest rest (if first < c.high then c.high else first) := rfl
    rw [next, ih, List.forall_mem_cons]
    split
    · constructor
      · rintro ⟨high, others⟩
        exact ⟨by linarith, high, others⟩
      · rintro ⟨-, high, others⟩
        exact ⟨high, others⟩
    · constructor
      · rintro ⟨low, others⟩
        exact ⟨low, by linarith, others⟩
      · rintro ⟨low, -, others⟩
        exact ⟨low, others⟩

theorem le_lowest_iff {candles : List Candle} {first k : ℚ} :
    k ≤ lowest candles first ↔ k ≤ first ∧ ∀ c ∈ candles, k ≤ c.low := by
  induction candles generalizing first with
  | nil => simp [lowest]
  | cons c rest ih =>
    have next : lowest (c :: rest) first = lowest rest (if c.low < first then c.low else first) := rfl
    rw [next, ih, List.forall_mem_cons]
    split
    · constructor
      · rintro ⟨low, others⟩
        exact ⟨by linarith, low, others⟩
      · rintro ⟨-, low, others⟩
        exact ⟨low, others⟩
    · constructor
      · rintro ⟨high, others⟩
        exact ⟨high, by linarith, others⟩
      · rintro ⟨high, -, others⟩
        exact ⟨high, others⟩

theorem range_last40 (candles : List Candle) (apart : minL40 candles < maxL40 candles) :
    maxL40 candles - minL40 candles ≤ (priceBounds candles).priceRange := by
  cases candles with
  | nil =>
    show (100 : ℚ) - 0 ≤ 100
    norm_num
  | cons first rest =>
    have inside : ∀ c ∈ last40 (first :: rest), c ∈ first :: rest := fun c member => List.mem_of_mem_drop member
    have high := highest_le_iff.mp (le_refl (highest (first :: rest) first.high))
    have low := le_lowest_iff.mp (le_refl (lowest (first :: rest) first.low))
    have some_last : last40 (first :: rest) ≠ [] := by
      intro none_left
      have length := congrArg List.length none_left
      simp only [last40, List.length_drop, List.length_cons, List.length_nil] at length
      omega
    have above : maxL40 (first :: rest) ≤ highest (first :: rest) first.high := by
      unfold maxL40
      split
      · rename_i absent
        exact absurd absent some_last
      · rename_i c others found
        rw [found] at inside
        exact highest_le_iff.mpr ⟨high.2 c (inside c (by simp)), fun d member => high.2 d (inside d member)⟩
    have below : lowest (first :: rest) first.low ≤ minL40 (first :: rest) := by
      unfold minL40
      split
      · rename_i absent
        exact absurd absent some_last
      · rename_i c others found
        rw [found] at inside
        exact le_lowest_iff.mpr ⟨low.2 c (inside c (by simp)), fun d member => low.2 d (inside d member)⟩
    have wide : highest (first :: rest) first.high - lowest (first :: rest) first.low ≠ 0 := by linarith
    simp only [priceBounds, orElse_of_ne wide]
    linarith

end Ranges

section Reset

/-- A zoom for the last 40 candles: side by side where that is possible, then with the widest
    candles, centred in the height and over 70 % of it within the limit of the scale. -/
structure Fitted (p : Props) (clientWidth : ℚ) (z : Zoom) : Prop where
  candles : FortyFit clientWidth z.candleWidth ↔ 270 ≤ clientWidth
  widest : 270 ≤ clientWidth → ∀ w : ℕ, w < 120 → FortyFit clientWidth w → w ≤ z.candleWidth
  centered : priceToY p z ((maxL40 p.candles + minL40 p.candles) / 2) = margin.top + p.panels.chartHeight / 2
  filled : minL40 p.candles < maxL40 p.candles →
    (priceToY p z (minL40 p.candles) - priceToY p z (maxL40 p.candles) = 7 / 10 * p.panels.chartHeight ↔
      p.bounds.priceRange * (812 / 1000) ≤ 2000 * (maxL40 p.candles - minL40 p.candles))

variable (p : Props)

theorem fitPrices_flat (width : ℚ) : 1 / 10 ≤ (fitPrices p width).verticalScale := (clampScale_range _).1

theorem fitPrices_centered (width : ℚ) :
    priceToY p (fitPrices p width) ((maxL40 p.candles + minL40 p.candles) / 2) =
      margin.top + p.panels.chartHeight / 2 := by
  have flat := fitPrices_flat p width
  have center : priceCenter p (fitPrices p width) = (maxL40 p.candles + minL40 p.candles) / 2 := by
    simp only [priceCenter, fitPrices]
    ring
  rw [priceToY_place flat, ← center, ← priceCenter_under flat, place_under (priceScale_unit flat)]

theorem clampScale_eq_iff {target : ℚ} (low : 1 / 10 ≤ target) : clampScale target = target ↔ target ≤ 2000 := by
  rw [clampScale, max_eq_right low]
  exact min_eq_right_iff

theorem fitPrices_filled (width : ℚ) (apart : minL40 p.candles < maxL40 p.candles) :
    priceToY p (fitPrices p width) (minL40 p.candles) - priceToY p (fitPrices p width) (maxL40 p.candles) =
        7 / 10 * p.panels.chartHeight ↔
      p.bounds.priceRange * (812 / 1000) ≤ 2000 * (maxL40 p.candles - minL40 p.candles) := by
  have flat := fitPrices_flat p width
  have range : 0 < maxL40 p.candles - minL40 p.candles := by linarith
  have whole : maxL40 p.candles - minL40 p.candles ≤ p.bounds.priceRange := range_last40 p.candles apart
  have positive : 0 < p.bounds.priceRange := lt_of_lt_of_le range whole
  have height := chartHeight_pos p.panels
  set target := p.bounds.priceRange * (812 / 1000) / (maxL40 p.candles - minL40 p.candles) with aimed
  have scale : (fitPrices p width).verticalScale = clampScale target := by
    simp only [fitPrices, orElse_of_ne range.ne', aimed]
  have low : 1 / 10 ≤ target := by
    rw [aimed, le_div_iff₀ range]
    linarith
  have spread : priceToY p (fitPrices p width) (minL40 p.candles) -
      priceToY p (fitPrices p width) (maxL40 p.candles) =
        7 / 10 * p.panels.chartHeight * (clampScale target / target) := by
    rw [priceToY_place flat, priceToY_place flat]
    simp only [Scale.place, priceScale, scale, aimed]
    field_simp
    ring
  have tall : 7 / 10 * p.panels.chartHeight ≠ 0 := by linarith
  have some_target : target ≠ 0 := by linarith
  rw [spread, mul_eq_left₀ tall, div_eq_one_iff_eq some_target, clampScale_eq_iff low, aimed, div_le_iff₀ range]

theorem fitPrices_fitted (clientWidth : ℚ) : Fitted p clientWidth (fitPrices p (bestWidth clientWidth)) where
  candles := bestWidth_fits_iff clientWidth
  widest := fun room => (bestWidth_fits room).2
  centered := fitPrices_centered p _
  filled := fitPrices_filled p _

/-- Resetting the zoom fits the widths and the heights of the last 40 candles, from every state
    of the chart, and scrolls nothing. -/
theorem reset_fits (s : Chart) : Fitted s.props s.shown.visibleClientWidth s.handleResetZoom.view.zoom ∧
    s.handleResetZoom = s.setZoom s.handleResetZoom.view.zoom := by
  have width : (if 100 < s.shown.visibleClientWidth then bestWidth s.shown.visibleClientWidth else 10) =
      bestWidth s.shown.visibleClientWidth := by
    split
    · rfl
    · rw [bestWidth_narrow (by linarith)]
  refine ⟨?_, rfl⟩
  show Fitted s.props s.shown.visibleClientWidth (fitPrices s.props _)
  rw [width]
  exact fitPrices_fitted s.props s.shown.visibleClientWidth

end Reset

section Latest

def depsOf (s : Chart) (props : Props) : Deps :=
  ⟨props.symbol, props.candles.length, props.loadId, s.view.visibleClientWidth, props.bounds.priceRange,
    props.bounds.basePriceCenter⟩

/-- The right edge of the last candle, 120 px from the price scale for a scroll position. -/
def LastPlaced (n : ℕ) (candleWidth clientWidth scrollLeft : ℚ) : Prop :=
  margin.left + n * pitch candleWidth - scrollLeft = clientWidth - margin.right - 120

theorem rightPadding_wide {clientWidth : ℚ} (wide : 141 ≤ clientWidth) : 120 ≤ round (clientWidth * (85 / 100)) := by
  have least : (120 : ℤ) ≤ ⌊clientWidth * (85 / 100) + 1 / 2⌋ := by
    apply Int.le_floor.mpr
    push_cast
    linarith
  rw [round]
  exact_mod_cast least

theorem effectWidth_zoom {s : Chart} (rendered : s.shown.zoom = s.view.zoom) (clientWidth : ℚ) :
    (s.initializeZoom clientWidth).view.zoom.candleWidth = s.effectWidth clientWidth := by
  unfold Chart.initializeZoom Chart.effectWidth
  split
  · rw [rendered]
  · rfl

theorem initializeZoom_container (s : Chart) (clientWidth : ℚ) :
    (s.initializeZoom clientWidth).container = s.container := by
  unfold Chart.initializeZoom
  split <;> rfl

/- The padding on the right leaves room for the margin of 120, so only the first candle and
   the spacer of the width before can be in the way. -/
theorem showLatest_eq {s : Chart} (rendered : s.shown.zoom = s.view.zoom) (wide : 141 ≤ s.container.clientWidth)
    {target : ℚ} (aimed : target = margin.left + s.props.candles.length * pitch s.showLatest.view.zoom.candleWidth -
      (s.container.clientWidth - margin.right - 120)) :
    s.showLatest.view.visibleScrollLeft = max 0 target ∧
      s.showLatest.container = s.container.scrollTo (max 0 target) := by
  have width : orElse s.container.clientWidth 800 = s.container.clientWidth := orElse_of_ne (by linarith)
  have padding := rightPadding_wide wide
  have zoomed : s.showLatest.view.zoom.candleWidth = s.effectWidth s.container.clientWidth := by
    rw [← effectWidth_zoom rendered, ← width]
    simp only [Chart.showLatest, width]
  obtain ⟨props, -⟩ := initializeZoom_frame s s.container.clientWidth
  have room : target ≤ s.props.candles.length * pitch (s.effectWidth s.container.clientWidth) + margin.left +
      margin.right + round (s.container.clientWidth * (85 / 100)) - s.container.clientWidth := by
    rw [aimed, zoomed]
    linarith
  have final : max 0 (min (s.props.candles.length * pitch (s.effectWidth s.container.clientWidth) + margin.left +
      margin.right + round (s.container.clientWidth * (85 / 100)) - s.container.clientWidth)
        (margin.left + s.props.candles.length * pitch (s.effectWidth s.container.clientWidth) -
          (s.container.clientWidth - margin.right - 120))) = max 0 target := by
    rw [← zoomed, ← aimed, zoomed, min_eq_right room]
  simp only [Chart.showLatest, width, props, initializeZoom_container, final, and_self]

theorem measure_container (s : Chart) : s.measure.container = s.container := by
  unfold Chart.measure Chart.observe
  split
  · rfl
  · split <;> rfl

/-- A render that runs the effect is the commit and then the effect. -/
theorem render_latest {s : Chart} {props : Props} (some_candles : props.candles ≠ [])
    (runs : s.deps ≠ some (depsOf s props)) : ∃ u : Chart, s.render props = u.showLatest ∧ u.props = props ∧
      u.shown.zoom = s.view.zoom ∧ u.view.zoom = s.view.zoom ∧
      u.container = s.container.layout s.container.clientWidth
        (scrollWidth props.candles.length s.view.zoom.candleWidth s.view.visibleClientWidth) := by
  set synced := (s.commit props).syncRefs s.shown.zoom with committed
  obtain ⟨same_props, deps, -, shown, width, view⟩ := measure_frame synced
  have props' : synced.measure.props = props := same_props
  have shown' : synced.measure.shown = s.view := shown
  have current : synced.measure.currentDeps = depsOf s props := by
    simp only [Chart.currentDeps, depsOf, props', shown']
  have ran : synced.measure.deps ≠ some synced.measure.currentDeps := by
    rw [current, deps]
    exact runs
  refine ⟨{ synced.measure with deps := some synced.measure.currentDeps }, ?_, props', ?_, ?_, ?_⟩
  · show synced.measure.autoScroll = _
    have loaded : synced.measure.props.candles ≠ [] := by
      rw [props']
      exact some_candles
    unfold Chart.autoScroll
    rw [if_neg ran]
    exact if_neg loaded
  · exact congrArg View.zoom shown'
  · show synced.measure.view.zoom = s.view.zoom
    rw [view]
    rfl
  · have commit : synced.container = s.container.layout s.container.clientWidth
        (scrollWidth props.candles.length s.view.zoom.candleWidth s.view.visibleClientWidth) := by
      rw [committed]
      simp only [Chart.syncRefs, Chart.commit, if_neg some_candles]
    exact (measure_container synced).trans commit

/-- What a render that shows the latest candles does, once they fill the width: it draws the
    last one 120 px from the price scale at once, and it stays there, under the container's
    own position, exactly if the candles did not get wider by more than the padding. -/
theorem latest_placed_iff (s : Chart) (props : Props) (some_candles : props.candles ≠ [])
    (runs : s.deps ≠ some (depsOf s props)) (wide : 141 ≤ s.container.clientWidth)
    (measured : s.view.visibleClientWidth = s.container.clientWidth)
    (full : s.container.clientWidth <
      props.candles.length * pitch (s.render props).view.zoom.candleWidth + 270) :
    LastPlaced props.candles.length (s.render props).view.zoom.candleWidth s.container.clientWidth
        (s.render props).view.visibleScrollLeft ∧
      (LastPlaced props.candles.length (s.render props).view.zoom.candleWidth s.container.clientWidth
          (s.render props).container.scrollLeft ↔
        props.candles.length * (pitch (s.render props).view.zoom.candleWidth - pitch s.view.zoom.candleWidth) ≤
          round (s.container.clientWidth * (85 / 100)) - 120) := by
  obtain ⟨u, render, same_props, shown, view, container⟩ := render_latest some_candles runs
  have client : u.container.clientWidth = s.container.clientWidth := by rw [container]; rfl
  rw [render] at full ⊢
  set pitches := props.candles.length * pitch u.showLatest.view.zoom.candleWidth with candles
  have aimed : margin.left + pitches - (s.container.clientWidth - margin.right - 120) =
      margin.left + u.props.candles.length * pitch u.showLatest.view.zoom.candleWidth -
        (u.container.clientWidth - margin.right - 120) := by rw [candles, same_props, client]
  obtain ⟨seen, placed⟩ := showLatest_eq (shown.trans view.symm) (client ▸ wide) aimed
  have positive : 0 < margin.left + pitches - (s.container.clientWidth - margin.right - 120) := by
    simp only [margin]
    linarith
  have room : u.container.maxScroll = max 0 (props.candles.length * pitch s.view.zoom.candleWidth + margin.left +
      margin.right + round (s.container.clientWidth * (85 / 100)) - s.container.clientWidth) := by
    rw [container]
    show max 0 (scrollWidth _ _ _ - s.container.clientWidth) = _
    rw [scrollWidth, measured, orElse_of_ne (by linarith)]
  rw [max_eq_right positive.le] at seen
  constructor
  · rw [LastPlaced, ← candles, seen]
    ring
  · have moved : LastPlaced props.candles.length u.showLatest.view.zoom.candleWidth s.container.clientWidth
        u.showLatest.container.scrollLeft ↔ (u.container.scrollTo
          (max 0 (margin.left + pitches - (s.container.clientWidth - margin.right - 120)))).scrollLeft =
            margin.left + pitches - (s.container.clientWidth - margin.right - 120) := by
      rw [LastPlaced, ← candles, placed]
      constructor
      · intro same
        linear_combination -same
      · intro same
        rw [same]
        ring
    rw [moved, scrollTo_eq_iff, room, mul_sub, ← candles]
    simp only [margin] at positive ⊢
    constructor
    · rintro ⟨-, inside⟩
      rcases le_max_iff.mp inside with none_left | inside
      · linarith
      · linarith
    · intro narrow
      exact ⟨positive.le, le_max_of_le_right (by linarith)⟩

def zoomedOut : Chart :=
  let s := (Chart.mount 1200 threeCandles).render threeCandles
  ((s.setZoom { s.view.zoom with candleWidth := 2 }).render threeCandles).render threeCandles

def otherSymbol : Props := { threeCandles with candles := List.replicate 300 ⟨110, 100⟩, symbol := "ETHUSDT" }

/-- The new symbol's last candle does not stay in view. -/
theorem symbol_switched : ¬ LastPlaced otherSymbol.candles.length (zoomedOut.render otherSymbol).view.zoom.candleWidth
    zoomedOut.container.clientWidth (zoomedOut.render otherSymbol).container.scrollLeft := by
  intro placed
  have narrow := (latest_placed_iff zoomedOut otherSymbol (by decide +kernel) (by decide +kernel)
    (by decide +kernel) (by decide +kernel) (by decide +kernel)).2.mp placed
  revert narrow
  decide +kernel

end Latest

section Drawn

def startIdx (v : View) : ℤ :=
  max 0 ⌊(v.visibleScrollLeft - margin.left - v.zoom.candleWidth) / pitch v.zoom.candleWidth⌋

def endIdx (v : View) (n : ℕ) : ℤ :=
  min (n - 1) ⌈(v.visibleScrollLeft + orElse v.visibleClientWidth 800 - margin.left) / pitch v.zoom.candleWidth⌉

def drawnIndices (v : View) (n : ℕ) : List ℕ :=
  List.range' (startIdx v).toNat (endIdx v n + 1 - startIdx v).toNat

def Visible (v : View) (cIdx : ℕ) : Prop :=
  let x := margin.left + cIdx * pitch v.zoom.candleWidth
  v.visibleScrollLeft ≤ x + v.zoom.candleWidth ∧ x ≤ v.visibleScrollLeft + v.visibleClientWidth

instance (v : View) (cIdx : ℕ) : Decidable (Visible v cIdx) := inferInstanceAs (Decidable (_ ∧ _))

variable {v : View} {n i : ℕ}

theorem mem_drawn : i ∈ drawnIndices v n ↔ startIdx v ≤ i ∧ (i : ℤ) ≤ endIdx v n := by
  have least : 0 ≤ startIdx v := le_max_left _ _
  simp only [drawnIndices, List.mem_range'_1]
  omega

def leftEdge (v : View) : ℚ :=
  (v.visibleScrollLeft - margin.left - v.zoom.candleWidth) / pitch v.zoom.candleWidth

def rightEdge (v : View) : ℚ :=
  (v.visibleScrollLeft + orElse v.visibleClientWidth 800 - margin.left) / pitch v.zoom.candleWidth

theorem visible_iff (wide : 2 ≤ v.zoom.candleWidth) (measured : 0 < v.visibleClientWidth) :
    Visible v i ↔ leftEdge v ≤ ((i : ℤ) : ℚ) ∧ ((i : ℤ) : ℚ) ≤ rightEdge v := by
  have unit := pitch_pos wide
  rw [leftEdge, rightEdge, orElse_of_ne measured.ne', div_le_iff₀ unit, le_div_iff₀ unit]
  push_cast
  constructor
  · rintro ⟨left, right⟩
    constructor <;> linarith
  · rintro ⟨left, right⟩
    constructor <;> linarith

theorem visible_drawn (wide : 2 ≤ v.zoom.candleWidth) (measured : 0 < v.visibleClientWidth) (inside : i < n)
    (visible : Visible v i) : i ∈ drawnIndices v n := by
  obtain ⟨left, right⟩ := (visible_iff wide measured).mp visible
  have start : ⌊leftEdge v⌋ ≤ (i : ℤ) := by exact_mod_cast (Int.floor_le (leftEdge v)).trans left
  have stop : (i : ℤ) ≤ ⌈rightEdge v⌉ := by exact_mod_cast right.trans (Int.le_ceil (rightEdge v))
  exact mem_drawn.mpr ⟨max_le (by omega) start, le_min (by omega) stop⟩

/- A drawn candle out of view is the one before the first or the one after the last. -/
theorem drawn_hidden (wide : 2 ≤ v.zoom.candleWidth) (measured : 0 < v.visibleClientWidth)
    (drawn : i ∈ drawnIndices v n) (hidden : ¬ Visible v i) : (i : ℤ) = ⌊leftEdge v⌋ ∨ (i : ℤ) = ⌈rightEdge v⌉ := by
  obtain ⟨start, stop⟩ := mem_drawn.mp drawn
  have start' : ⌊leftEdge v⌋ ≤ (i : ℤ) := (le_max_right _ _).trans start
  have stop' : (i : ℤ) ≤ ⌈rightEdge v⌉ := stop.trans (min_le_right _ _)
  rw [visible_iff wide measured, not_and_or, not_le, not_le] at hidden
  rcases hidden with before | after
  · exact .inl (le_antisymm (Int.le_floor.mpr before.le) start')
  · exact .inr (le_antisymm stop' (Int.ceil_le.mpr after.le))

/-- The drawing loops go through every candle in view, and through two others at most, in
    every state that a run reaches. -/
theorem drawn_visible (exp : ℚ → ℚ) (clientWidth : ℚ) (props : Props) (es : List Event) {s : Chart}
    (prompt : Guarded (step exp) Prompt (Chart.mount clientWidth props) es)
    (reach : run (step exp) (Chart.mount clientWidth props) es = some s)
    (measured : 0 < s.shown.visibleClientWidth) :
    (∀ i, i ∈ drawnIndices s.shown s.props.candles.length → i < s.props.candles.length) ∧
      (∀ i, i < s.props.candles.length → Visible s.shown i → i ∈ drawnIndices s.shown s.props.candles.length) ∧
      ((drawnIndices s.shown s.props.candles.length).filter fun i => ¬ Visible s.shown i).length ≤ 2 := by
  have steady : Steady s :=
    invariant_run Steady Prompt (fun _ _ _ => steady_step) (steady_mount clientWidth props) prompt reach
  have wide := steady.zoomed.shown.wide
  refine ⟨?_, fun i inside visible => visible_drawn wide measured inside visible, ?_⟩
  · intro i drawn
    have stop : (i : ℤ) ≤ s.props.candles.length - 1 := (mem_drawn.mp drawn).2.trans (min_le_left _ _)
    omega
  · have distinct : ((drawnIndices s.shown s.props.candles.length).filter fun i => ¬ Visible s.shown i).Nodup :=
      List.Pairwise.filter _ List.nodup_range'
    have among : ((drawnIndices s.shown s.props.candles.length).filter fun i => ¬ Visible s.shown i) ⊆
        [⌊leftEdge s.shown⌋.toNat, ⌈rightEdge s.shown⌉.toNat] := by
      intro i member
      obtain ⟨drawn, hidden⟩ := List.mem_filter.mp member
      rcases drawn_hidden wide measured drawn (by simpa using hidden) with first | last
      · simp only [List.mem_cons]
        omega
      · simp only [List.mem_cons]
        omega
    exact (List.subperm_of_subset distinct among).length_le

theorem forty_drawn : (drawnIndices fortyShown.shown fortyShown.props.candles.length).length = 40 ∧
    ((drawnIndices fortyShown.shown fortyShown.props.candles.length).filter fun i =>
      ¬ Visible fortyShown.shown i).length ≤ 2 :=
  ⟨by decide +kernel, (drawn_visible (fun _ => 1) 1200 fortyCandles [.render fortyCandles] (by decide +kernel) rfl
    (by decide +kernel)).2.2⟩

end Drawn

end ChartViewport
