import Procluster.HubMessages
import Procluster.ServedHistory

/-!
The Delta of one list of cells on every path that puts it out. Three packages round
the signed sum to a tenth: the hub and QueryCandles add a half and cut towards zero,
handleCandles rounds to the nearest tenth after a merge. The candle that the closer
caches keeps its running sum of doubles, and handleCandles passes that on.
-/
namespace DeltaTotals
open Aggregate KeyedFold DecimalText FloatRounding QueryCandles CandlesApi ServedHistory
open WsHub (TickEnv SubMessage SendCloseOpen updateMessage closeMessage updateCandle closeCandle mergeUp
  divU32 updateMessage_built closeMessage_built sampleValidator)

inductive Path where
  | update
  | close
  | query
  | rest
  | cached

def storedCells (rows : List StoredRow) (time : ℤ) : List ClusterCell :=
  (rowsAt (rows.map scan) time).map ScanRow.cell

/-- The sum of CandleCloser.Run: candle.Delta += cell.Ask - cell.Bid -/
def runningDelta (cells : List ClusterCell) : ℚ :=
  cells.foldl (fun delta c => fadd delta (fsub c.ask c.bid)) 0

/-- The Delta a path puts out for a list of cells: the messages of the hub, a candle of
    QueryCandles, and a candle that handleCandles serves from the table or the cache. -/
inductive DeltaOf : Path → List ClusterCell → ℚ → Prop where
  | update {env : TickEnv} {validator : WsHub.Validator} {key : SubKey} {msg : SubMessage}
      {cells : List ClusterCell} {candle : ClusterCandle}
      (answered : ∀ text, env.getAggCells text = some cells)
      (built : updateMessage env validator key = .ok (some msg))
      (carries : msg.candle = some candle) : DeltaOf .update cells candle.delta
  | close {validator : WsHub.Validator} {args : SendCloseOpen} {msg : SubMessage}
      {candle : ClusterCandle} (built : closeMessage validator args = .ok (some msg))
      (carries : msg.candle = some candle) : DeltaOf .close args.cells candle.delta
  | query {answer : List StoredRow} {candle : ClusterCandle} {cells : List ClusterCell}
      (built : candle ∈ queryCandles answer)
      (stored : (storedCells answer candle.time).Perm cells) : DeltaOf .query cells candle.delta
  | rest {m : Validate.CaseMap} {v : Validate.Validator} {env : Outside} {r : Request} {p : Params}
      {answer : List StoredRow} {data : CandlesData} {candle : CandleJSON}
      {cells : List ClusterCell} (valid : readParams m v r = .ok p)
      (missed : cachedCandles env p = []) (answered : env.query (candlesQuery p) = some answer)
      (returned : handleCandles m v env r = .ok data) (served : candle ∈ data.candles)
      (stored : (storedCells answer candle.time).Perm cells) : DeltaOf .rest cells candle.delta
  | cached {m : Validate.CaseMap} {v : Validate.Validator} {env : Outside} {r : Request} {p : Params}
      {data : CandlesData} {candle : ClusterCandle} {cells : List ClusterCell}
      (valid : readParams m v r = .ok p) (held : candle ∈ cachedCandles env p)
      (closed : candle.cells = cells ∧ candle.delta = shortest (runningDelta cells))
      (returned : handleCandles m v env r = .ok data)
      (served : candleJSON (mergeCandle p candle) ∈ data.candles) :
      DeltaOf .cached cells (candleJSON (mergeCandle p candle)).delta

def swapSides (cells : List ClusterCell) : List ClusterCell :=
  cells.map fun c => ⟨c.price, c.ask, c.bid⟩

def DeltaExact (cells : List ClusterCell) : Prop :=
  ∀ path delta, DeltaOf path cells delta → delta = totalDelta cells

def DeltaAntisymmetric (cells : List ClusterCell) : Prop :=
  ∀ path delta swapped, DeltaOf path cells delta → DeltaOf path (swapSides cells) swapped →
    swapped = -delta

theorem totalDelta_perm {cells others : List ClusterCell} (perm : cells.Perm others) :
    totalDelta cells = totalDelta others := (perm.map _).sum_eq

theorem totalDelta_swap (cells : List ClusterCell) :
    totalDelta (swapSides cells) = -totalDelta cells := by
  induction cells with
  | nil => simp [swapSides, totalDelta]
  | cons c cells ih =>
    simp only [swapSides, totalDelta, List.map_cons, List.sum_cons] at ih ⊢
    rw [ih]
    ring

theorem swapSides_tenths {cells : List ClusterCell} (tenths : TenthCells cells) :
    TenthCells (swapSides cells) := by
  intro c hc
  obtain ⟨d, hd, rfl⟩ := List.mem_map.mp hc
  exact (tenths d hd).symm

theorem totalDelta_tenths {cells : List ClusterCell} (tenths : TenthCells cells) :
    Tenths (totalDelta cells) := by
  apply tenths_sum
  intro x hx
  obtain ⟨c, hc, rfl⟩ := List.mem_map.mp hx
  obtain ⟨⟨k, bid⟩, ⟨m, ask⟩⟩ := tenths c hc
  exact ⟨m - k, by rw [bid, ask]; push_cast; ring⟩

section Paths
variable {cells : List ClusterCell} (tenths : TenthCells cells)
include tenths

theorem mergeUp_delta {tc : TickerConfig} {compression : UInt32} {merged : List ClusterCell}
    (merges : mergeUp tc compression cells = .ok merged) : totalDelta merged = totalDelta cells := by
  unfold mergeUp at merges
  split at merges
  · rename_i above
    unfold divU32 at merges
    split at merges
    · cases merges
    · rename_i divides
      cases merges
      rw [mergeCells_eq _ _ (quotient_ne_zero divides above)]
      exact mergeInto_delta _ tenths
  · cases merges
    rfl

theorem update_delta {tc : TickerConfig} {compression : UInt32} {time : ℤ} {candle : ClusterCandle}
    (built : updateCandle tc compression time cells = .ok candle) :
    candle.delta = truncTenth (totalDelta cells) := by
  obtain ⟨merged, merges, made⟩ := bind_ok built
  cases made
  rw [← mergeUp_delta tenths merges]
  exact congrArg truncTenth (candleLoop_delta _ _ _)

theorem close_delta {tc : TickerConfig} {compression : UInt32} {time : ℤ} {candle : ClusterCandle}
    (built : closeCandle tc compression time cells = .ok candle) :
    candle.delta = truncTenth (totalDelta cells) := by
  obtain ⟨merged, merges, made⟩ := bind_ok built
  cases made
  rw [← mergeUp_delta tenths merges]
  exact congrArg truncTenth (candleLoop_delta _ _ _)

omit tenths in
theorem query_delta {answer : List StoredRow} {candle : ClusterCandle}
    (built : candle ∈ queryCandles answer)
    (stored : (storedCells answer candle.time).Perm cells) :
    candle.cells.Perm cells ∧ candle.delta = truncTenth (totalDelta cells) := by
  obtain ⟨own, _, delta⟩ := candle_of_rows built
  refine ⟨own.trans stored, ?_⟩
  rw [delta, ← totalDelta_perm stored, QueryCandles.round1]
  congr 1
  simp only [deltaAt, totalDelta, storedCells, List.map_map]
  rfl

end Paths

theorem nearest_tenth_exact {v : ℚ} (tenths : Tenths v) : CandlesApi.round1 (· * ·) v = v := by
  obtain ⟨k, rfl⟩ := tenths
  rw [CandlesApi.round1, show (k : ℚ) / 10 * 10 = (k : ℚ) by ring,
    nearest_intCast roundHalfAway_near]

theorem merged_delta {cells : List ClusterCell} (tenths : TenthCells cells) {p : Params}
    (divides : p.tc.baseCompression < p.compression → p.tc.baseCompression ≠ 0)
    {candle : ClusterCandle} (own : candle.cells.Perm cells) :
    (mergeCandle p candle).delta = candle.delta ∨
      (mergeCandle p candle).delta = totalDelta cells := by
  unfold mergeCandle mergeCandleBy
  split
  · rename_i above
    right
    have mine : TenthCells candle.cells := fun c hc => tenths c (own.mem_iff.mp hc)
    have group := quotient_ne_zero (divides above) above
    have kept := mergeInto_delta (coarseBin (p.compression / p.tc.baseCompression) p.tc.tickSize
      p.tc.baseCompression) mine
    rw [← mergeCells_eq _ _ group] at kept
    have total := totalDelta_tenths tenths
    rw [← totalDelta_perm own] at total ⊢
    rw [← kept] at total ⊢
    exact nearest_tenth_exact total
  · exact .inl rfl

theorem cached_delta {env : Outside} {p : Params} {candle : ClusterCandle}
    (held : candle ∈ cachedCandles env p) : (candleJSON (mergeCandle p candle)).delta = candle.delta := by
  unfold cachedCandles at held
  split at held
  · rename_i base
    have plain : ¬ p.tc.baseCompression < p.compression := by
      rw [base.2]
      exact UInt32.lt_irrefl _
    rw [mergeCandle, mergeCandleBy, if_neg plain]
    rfl
  · cases held

theorem deltaOf_cached {cells : List ClusterCell} {d : ℚ} (put : DeltaOf .cached cells d) :
    d = shortest (runningDelta cells) := by
  cases put with
  | cached valid held closed returned served => exact (cached_delta held).trans closed.2

theorem deltaOf_value {cells : List ClusterCell} (tenths : TenthCells cells) {path : Path} {d : ℚ}
    (put : DeltaOf path cells d) (computed : path ≠ .cached) :
    d = totalDelta cells ∨ d = truncTenth (totalDelta cells) := by
  cases put with
  | update answered built carries =>
    obtain ⟨tc, secs, answer, candle, _, _, read, made, carried⟩ := updateMessage_built built
    rw [answered] at read
    cases read
    rw [carries] at carried
    cases carried
    exact .inr (update_delta tenths made)
  | close built carries =>
    obtain ⟨tc, candle, _, made, carried⟩ := closeMessage_built built
    rw [carries] at carried
    cases carried
    exact .inr (close_delta tenths made)
  | query built stored => exact .inr (query_delta built stored).2
  | @rest m v env r p answer data candle _ valid missed answered returned served stored =>
    obtain ⟨candles, read, made⟩ := handleCandles_ok valid returned
    rw [readCandles, missed, answered] at read
    cases read
    rw [made] at served
    obtain ⟨c, hc, rfl⟩ := List.mem_map.mp served
    rw [candleJSON_mergeCandle_time] at stored
    obtain ⟨own, delta⟩ := query_delta (List.mem_filter.mp hc).1 stored
    rcases merged_delta tenths (readParams_divides valid) own with same | merged
    · exact .inr (same.trans delta)
    · exact .inl merged
  | cached => exact absurd rfl computed

theorem close_put (cells : List ClusterCell) :
    DeltaOf .close cells (truncTenth (totalDelta cells)) := by
  have built : closeMessage sampleValidator ⟨"futures", "BTCUSDT", "1m", 25, 0, cells, []⟩ =
      .ok (some ⟨"close", "BTCUSDT", "futures", "1m", 25, some (WsHub.buildCandle 0 cells), 0⟩) := rfl
  have delta : (WsHub.buildCandle 0 cells).delta = truncTenth (totalDelta cells) :=
    congrArg truncTenth (candleLoop_delta _ _ _)
  exact delta ▸ DeltaOf.close built rfl

theorem cached_put (cells : List ClusterCell) : DeltaOf .cached cells (shortest (runningDelta cells)) := by
  let candle : ClusterCandle := ⟨60, 0, 0, 0, 0, 0, shortest (runningDelta cells), cells⟩
  let env : Outside := ⟨0, fun _ _ => some [candle], fun _ => none⟩
  have returned : handleCandles asciiCase (Validate.newValidator [sampleConfig]) env sampleRequest =
      .ok ⟨[candleJSON (mergeCandle sampleParams candle)], false⟩ := by
    rw [handleCandles_of_params sampleRequest_params]
    rfl
  exact DeltaOf.cached sampleRequest_params (List.mem_singleton.mpr rfl) ⟨rfl, rfl⟩ returned
    (List.mem_singleton.mpr rfl)

theorem runningDelta_swap (cells : List ClusterCell) : runningDelta (swapSides cells) = -runningDelta cells := by
  have mirrored : ∀ s : ℚ, (swapSides cells).foldl (fun delta c => fadd delta (fsub c.ask c.bid)) (-s) =
      -cells.foldl (fun delta c => fadd delta (fsub c.ask c.bid)) s := by
    induction cells with
    | nil => simp [swapSides]
    | cons c cells ih =>
      intro s
      have flipped : fadd (-s) (fsub c.bid c.ask) = -fadd s (fsub c.ask c.bid) := by
        rw [fsub, ← neg_sub, float64_neg, fadd, float64_neg, float64_neg, ← neg_add, float64_neg]
        rfl
      have next := ih (fadd s (fsub c.ask c.bid))
      rw [← flipped] at next
      exact next
  have start := mirrored 0
  rwa [neg_zero] at start

theorem truncTenth_iff {v : ℚ} (tenths : Tenths v) : truncTenth v = v ↔ 0 ≤ v := by
  obtain ⟨k, rfl⟩ := tenths
  exact truncTenth_tenths k

theorem delta_exact_of_nonneg {cells : List ClusterCell} (tenths : TenthCells cells)
    (nonneg : 0 ≤ totalDelta cells) {path : Path} {d : ℚ} (put : DeltaOf path cells d)
    (computed : path ≠ .cached) : d = totalDelta cells := by
  rcases deltaOf_value tenths put computed with exact | cut
  · exact exact
  · exact cut.trans ((truncTenth_iff (totalDelta_tenths tenths)).mpr nonneg)

theorem total_zero_of_antisymmetric {cells : List ClusterCell} (tenths : TenthCells cells)
    (antisymmetric : DeltaAntisymmetric cells) : totalDelta cells = 0 := by
  have mirrored := antisymmetric .close _ _ (close_put cells) (close_put (swapSides cells))
  have swapped := totalDelta_tenths (swapSides_tenths tenths)
  rw [totalDelta_swap] at mirrored swapped
  have own := truncTenth_iff (totalDelta_tenths tenths)
  have other := truncTenth_iff swapped
  by_contra nonzero
  rcases lt_or_gt_of_ne nonzero with negative | positive
  · -- the swapped total is positive and exact, so the own one would have to be exact too
    have exactOther := other.mpr (by linarith)
    have exactOwn := own.mp (by linarith)
    linarith
  · have exactOwn := own.mpr positive.le
    have exactOther := other.mp (by linarith)
    linarith

/-- On whole tenths every path puts out the exact Delta exactly when it is not negative and
    the closer's running sum comes to it too, and swapping the sides negates every Delta
    exactly when it is zero. -/
theorem delta_exact_iff (cells : List ClusterCell) (tenths : TenthCells cells) :
    (DeltaExact cells ↔ 0 ≤ totalDelta cells ∧ shortest (runningDelta cells) = totalDelta cells) ∧
      (DeltaAntisymmetric cells ↔ totalDelta cells = 0) := by
  refine ⟨⟨?_, ?_⟩, total_zero_of_antisymmetric tenths, ?_⟩
  · intro exact
    exact ⟨(truncTenth_iff (totalDelta_tenths tenths)).mp (exact .close _ (close_put cells)),
      exact .cached _ (cached_put cells)⟩
  · rintro ⟨nonneg, running⟩ path d put
    by_cases cached : path = .cached
    · subst cached
      exact (deltaOf_cached put).trans running
    · exact delta_exact_of_nonneg tenths nonneg put cached
  · intro zero path d swapped put putSwapped
    have mirror : 0 ≤ totalDelta (swapSides cells) := by rw [totalDelta_swap, zero, neg_zero]
    by_cases cached : path = .cached
    · subst cached
      rw [deltaOf_cached put, deltaOf_cached putSwapped, runningDelta_swap, shortest_neg]
    · rw [delta_exact_of_nonneg tenths zero.ge put cached,
        delta_exact_of_nonneg (swapSides_tenths tenths) mirror putSwapped cached, totalDelta_swap]

theorem buyers_delta_exact : DeltaExact [⟨1000, 1, 3⟩, ⟨2005 / 2, 1 / 2, 2⟩] :=
  (delta_exact_iff [⟨1000, 1, 3⟩, ⟨2005 / 2, 1 / 2, 2⟩] (by
    intro c hc
    simp only [List.mem_cons, List.not_mem_nil, or_false] at hc
    rcases hc with rfl | rfl
    · exact ⟨⟨10, by norm_num⟩, ⟨30, by norm_num⟩⟩
    · exact ⟨⟨5, by norm_num⟩, ⟨20, by norm_num⟩⟩)).1.mpr (by decide +kernel)

/-- Five sold and none bought is closed with a Delta of -4.9. -/
theorem sellers_delta_cut : ¬ DeltaExact [⟨1000, 5, 0⟩] := by
  intro exact
  have cut := exact .close _ (close_put _)
  revert cut
  decide +kernel

end DeltaTotals
