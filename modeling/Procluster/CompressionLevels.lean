import Procluster.Hub
import Procluster.MergedBins
import Procluster.PriceGrids

/-!
ValidateCompression against the levels of a ticker, its product of 32 bits included, and
the configs that handlePostTicker lets through to the functions that divide by them.
-/
namespace Validate
open Aggregate
open RWMutex (Fault)
open WsHub (divU32)

def Level (tc : TickerConfig) (comp : UInt32) : Prop :=
  comp = 0 ∨ ∃ k, 1 ≤ k ∧ k ≤ tc.compressionLevels.toNat ∧ comp.toNat = tc.baseCompression.toNat * k

def modU32 (a b : UInt32) : Except Fault UInt32 :=
  if b = 0 then .error (.panic "integer divide by zero") else .ok (a % b)

def checkedCompression (comp : UInt32) (tc : TickerConfig) : Except Fault (Except ValidateError Unit) :=
  if comp = 0 then .ok (.ok ())
  else if comp < tc.baseCompression then
    .ok (.error (invalidParams "compression must be >= base_compression"))
  else if tc.baseCompression * tc.compressionLevels.toUInt32 < comp then
    .ok (.error (invalidParams "compression must be <= base_compression * levels"))
  else do
    let rest ← modU32 comp tc.baseCompression
    if rest ≠ 0 then
      return .error (invalidParams "compression must be a multiple of base_compression")
    else return .ok ()

/-- What is said of one compression: the levels pass and nothing else, no modulus is by
    zero, and above the base the callers' group size is the factor of the level. -/
structure ExactLevels (tc : TickerConfig) (comp : UInt32) : Prop where
  accepts : validateCompression comp tc = .ok () ↔ Level tc comp
  divides : checkedCompression comp tc = .ok (validateCompression comp tc)
  groupSize : validateCompression comp tc = .ok () → tc.baseCompression < comp →
    ∃ g, divU32 comp tc.baseCompression = .ok g ∧ 1 ≤ g.toNat ∧ g.toNat ≤ tc.compressionLevels.toNat ∧
      comp.toNat = tc.baseCompression.toNat * g.toNat

/-- The product with the levels does not fit 32 bits, and what is left is below a multiple
    of the base. -/
def WrapsBelow (tc : TickerConfig) (comp : UInt32) : Prop :=
  let maxComp := tc.baseCompression.toNat * tc.compressionLevels.toNat
  2 ^ 32 ≤ maxComp ∧ tc.baseCompression.toNat ∣ comp.toNat ∧ maxComp % 2 ^ 32 < comp.toNat

theorem validateCompression_iff (comp : UInt32) (tc : TickerConfig) :
    validateCompression comp tc = .ok () ↔ comp = 0 ∨
      (tc.baseCompression.toNat ≤ comp.toNat ∧ tc.baseCompression.toNat ∣ comp.toNat ∧
        comp.toNat ≤ tc.baseCompression.toNat * tc.compressionLevels.toNat % 2 ^ 32) := by
  have multiple : comp % tc.baseCompression = 0 ↔ tc.baseCompression.toNat ∣ comp.toNat := by
    rw [← UInt32.toNat_inj, UInt32.toNat_mod]
    exact (Nat.dvd_iff_mod_eq_zero ..).symm
  have product : (tc.baseCompression * tc.compressionLevels.toUInt32).toNat =
      tc.baseCompression.toNat * tc.compressionLevels.toNat % 2 ^ 32 := by
    rw [UInt32.toNat_mul, UInt8.toNat_toUInt32]
  rw [← product]
  simp only [validateCompression, UInt32.lt_iff_toNat_lt]
  split_ifs with zero below above uneven
  · simp [zero]
  · simp only [zero, false_or, false_iff]
    omega
  · simp only [zero, false_or, false_iff]
    omega
  · have odd := mt multiple.mpr uneven
    simp [zero, odd]
  · have even := multiple.mp (not_not.mp uneven)
    simp only [true_iff]
    exact .inr ⟨not_lt.mp below, even, not_lt.mp above⟩

/- Past the bound by the product the base is not zero, or the compression would be. -/
theorem checkedCompression_eq (comp : UInt32) (tc : TickerConfig) :
    checkedCompression comp tc = .ok (validateCompression comp tc) := by
  simp only [checkedCompression, validateCompression]
  split_ifs with zero below above uneven
  · rfl
  · rfl
  · rfl
  all_goals
    have based : tc.baseCompression ≠ 0 := by
      intro noBase
      rw [noBase, UInt32.zero_mul] at above
      exact above (UInt32.pos_iff_ne_zero.mpr zero)
    simp [modU32, based, uneven, bind, Except.bind, pure, Except.pure]

theorem level_of_multiple {comp : UInt32} {tc : TickerConfig} (nonzero : 0 < comp.toNat)
    (multiple : tc.baseCompression.toNat ∣ comp.toNat)
    (bound : comp.toNat ≤ tc.baseCompression.toNat * tc.compressionLevels.toNat) : Level tc comp := by
  obtain ⟨k, factor⟩ := multiple
  rw [factor] at nonzero bound
  exact .inr ⟨k, Nat.pos_of_mul_pos_left nonzero,
    Nat.le_of_mul_le_mul_left bound (Nat.pos_of_mul_pos_right nonzero), factor⟩

theorem accepted_level {comp : UInt32} {tc : TickerConfig} (valid : validateCompression comp tc = .ok ()) :
    Level tc comp := by
  rcases (validateCompression_iff comp tc).mp valid with zero | ⟨-, multiple, bound⟩
  · exact .inl zero
  · by_cases zero : comp = 0
    · exact .inl zero
    · have nonzero : 0 < comp.toNat := UInt32.lt_iff_toNat_lt.mp (UInt32.pos_iff_ne_zero.mpr zero)
      exact level_of_multiple nonzero multiple (bound.trans (Nat.mod_le _ _))

theorem level_accepted_iff {comp : UInt32} {tc : TickerConfig} (level : Level tc comp) :
    validateCompression comp tc = .ok () ↔ ¬ WrapsBelow tc comp := by
  rw [validateCompression_iff]
  rcases level with zero | ⟨k, first, last, factor⟩
  · simp [zero, WrapsBelow]
  · have even : tc.baseCompression.toNat ∣ comp.toNat := ⟨k, factor⟩
    have above : tc.baseCompression.toNat ≤ comp.toNat := factor ▸ Nat.le_mul_of_pos_right _ first
    have below : comp.toNat ≤ tc.baseCompression.toNat * tc.compressionLevels.toNat :=
      factor ▸ Nat.mul_le_mul_left _ last
    have fits : tc.baseCompression.toNat * tc.compressionLevels.toNat < 2 ^ 32 →
        tc.baseCompression.toNat * tc.compressionLevels.toNat % 2 ^ 32 =
          tc.baseCompression.toNat * tc.compressionLevels.toNat := Nat.mod_eq_of_lt
    have zero : comp = 0 ↔ comp.toNat = 0 := UInt32.toNat_inj.symm
    simp only [zero, WrapsBelow, even, above, true_and]
    omega

theorem wrapsBelow_level {comp : UInt32} {tc : TickerConfig} (wraps : WrapsBelow tc comp) : Level tc comp := by
  obtain ⟨large, multiple, above⟩ := wraps
  have small : comp.toNat < 2 ^ 32 := comp.toNat_lt
  exact level_of_multiple (Nat.zero_lt_of_lt above) multiple (by omega)

theorem accepted_groupSize {comp : UInt32} {tc : TickerConfig} (valid : validateCompression comp tc = .ok ())
    (above : tc.baseCompression < comp) :
    ∃ g, divU32 comp tc.baseCompression = .ok g ∧ 1 ≤ g.toNat ∧ g.toNat ≤ tc.compressionLevels.toNat ∧
      comp.toNat = tc.baseCompression.toNat * g.toNat := by
  have larger : tc.baseCompression.toNat < comp.toNat := UInt32.lt_iff_toNat_lt.mp above
  rcases accepted_level valid with zero | ⟨k, first, last, factor⟩
  · rw [zero] at above
    exact absurd above UInt32.not_lt_zero
  · have based : 0 < tc.baseCompression.toNat := by
      apply Nat.pos_of_ne_zero
      intro noBase
      rw [noBase, Nat.zero_mul] at factor
      omega
    have quotient : (comp / tc.baseCompression).toNat = k := by
      rw [UInt32.toNat_div, factor, Nat.mul_div_cancel_left k based]
    have nonzero : tc.baseCompression ≠ 0 := by
      intro noBase
      rw [noBase] at based
      exact absurd based (by decide)
    exact ⟨comp / tc.baseCompression, if_neg nonzero, quotient ▸ first, quotient ▸ last, quotient ▸ factor⟩

/-- The validator accepts exactly the levels, unless the product with the levels wraps
    around to a bound below the compression. -/
theorem exact_levels_iff (tc : TickerConfig) (comp : UInt32) : ExactLevels tc comp ↔ ¬ WrapsBelow tc comp := by
  constructor
  · intro exact wraps
    have level := wrapsBelow_level wraps
    exact (level_accepted_iff level).mp (exact.accepts.mpr level) wraps
  · intro holds
    exact ⟨⟨accepted_level, fun level => (level_accepted_iff level).mpr holds⟩,
      checkedCompression_eq comp tc, accepted_groupSize⟩

/-- Twice the base is a level of the ticker, and 10 ^ 10 is 1410065408 in 32 bits. -/
theorem second_level_rejected :
    ¬ ExactLevels ⟨"SHIBUSDT", "futures", 1 / 100000000, 1000000000, 10, 1000000000, 365, 60, true⟩ 2000000000 := by
  intro exact
  have level := exact.accepts.mpr (.inr ⟨2, by decide, by decide, by decide⟩)
  exact absurd level (by decide)

end Validate

namespace PriceGrids
open Aggregate
open CandlesApi (ApiError readCompression)
open Validate
open WsHub (divU32)

/-- What the handlers that compute with a ticker rely on: no bin size is zero, of a trade or
    an order book (gridOf) or of a merge, and the default compression is served. -/
structure SafeTicker (tc : TickerConfig) : Prop where
  tickSize : 0 < tc.tickSize
  base : 0 < tc.baseCompression
  bins : gridOf tc ≠ 0
  merges : ∀ comp g, validateCompression comp tc = .ok () → tc.baseCompression < comp →
    divU32 comp tc.baseCompression = .ok g → binWidth g tc.tickSize tc.baseCompression ≠ 0
  default : validateCompression tc.defaultCompression tc = .ok ()
  candles : ∃ comp, readCompression tc "" = .ok comp

/-- The numbers of the body, with zero read as the default, are those of a usable ticker;
    of the tick size also what the column keeps of it. -/
structure SafeBody (decimal8 : ℚ → ℚ) (req : TickerRequest) : Prop where
  tickSize : 0 < req.tickSize
  kept : 0 < decimal8 req.tickSize
  base : 0 < req.baseCompression
  multiple : req.baseCompression.toNat ∣ req.defaultCompression.toNat
  bound : (if req.defaultCompression = 0 then req.baseCompression else req.defaultCompression).toNat ≤
    req.baseCompression.toNat * (if req.compressionLevels = 0 then 10 else req.compressionLevels).toNat % 2 ^ 32

theorem setTicker_found (tc : TickerConfig) (configs : List TickerConfig) :
    findTicker (setTicker tc configs) tc.symbol tc.market = some tc := by
  induction configs with
  | nil => simp [setTicker, findTicker]
  | cons c rest ih =>
    unfold findTicker at ih
    by_cases same : c.symbol = tc.symbol ∧ c.market = tc.market
    · simp [setTicker, same, findTicker]
    · simp only [setTicker, same, ↓reduceIte, findTicker]
      rw [List.find?_cons_of_neg (by simpa using same)]
      exact ih

theorem accepted_post {server : Server} {s s' : State} {body : Except String TickerRequest}
    {db : Option String} (accepted : handlePostTicker server s body db = .ok s') :
    ∃ req, body = .ok req ∧ s' = { s with
      tickerConfig := s.tickerConfig ++ [storedConfig server.decimal8 (postedConfig server.caseMap req)]
      configs := setTicker (postedConfig server.caseMap req) s.configs } := by
  unfold handlePostTicker at accepted
  split at accepted
  · cases accepted
  · rename_i req
    split at accepted
    · cases accepted
    · split at accepted
      · cases accepted
      · exact ⟨req, rfl, (Except.ok.inj accepted).symm⟩

theorem merge_width {tc : TickerConfig} (tickSize : 0 < tc.tickSize) (base : 0 < tc.baseCompression)
    {comp g : UInt32} (valid : validateCompression comp tc = .ok ()) (above : tc.baseCompression < comp)
    (divided : divU32 comp tc.baseCompression = .ok g) :
    binWidth g tc.tickSize tc.baseCompression ≠ 0 := by
  obtain ⟨g', divided', first, -⟩ := accepted_groupSize valid above
  obtain rfl := Except.ok.inj (divided.symm.trans divided')
  have some_group : g ≠ 0 := by
    intro none
    rw [none] at first
    exact absurd first (by decide)
  exact (binWidth_pos tickSize some_group (UInt32.pos_iff_ne_zero.mp base)).ne'

theorem default_served {tc : TickerConfig} (some_default : tc.defaultCompression ≠ 0)
    (valid : validateCompression tc.defaultCompression tc = .ok ()) :
    readCompression tc "" = .ok tc.defaultCompression := by
  simp [readCompression, some_default, valid]

theorem postedDefault_ne_zero (m : CaseMap) {req : TickerRequest} (base : 0 < req.baseCompression) :
    (postedConfig m req).defaultCompression ≠ 0 := by
  simp only [postedConfig]
  split_ifs with missing
  · exact UInt32.pos_iff_ne_zero.mp base
  · exact missing

theorem postedDefault_valid_iff (m : CaseMap) {req : TickerRequest} (base : 0 < req.baseCompression) :
    validateCompression (postedConfig m req).defaultCompression (postedConfig m req) = .ok () ↔
      req.baseCompression.toNat ∣ req.defaultCompression.toNat ∧
        (if req.defaultCompression = 0 then req.baseCompression else req.defaultCompression).toNat ≤
          req.baseCompression.toNat *
            (if req.compressionLevels = 0 then 10 else req.compressionLevels).toNat % 2 ^ 32 := by
  rw [validateCompression_iff, or_iff_right (postedDefault_ne_zero m base)]
  simp only [postedConfig]
  by_cases missing : req.defaultCompression = 0
  · simp [missing]
  · have nonzero : 0 < req.defaultCompression.toNat :=
      UInt32.lt_iff_toNat_lt.mp (UInt32.pos_iff_ne_zero.mpr missing)
    simp only [missing, ↓reduceIte]
    constructor
    · rintro ⟨-, multiple, bound⟩
      exact ⟨multiple, bound⟩
    · rintro ⟨multiple, bound⟩
      exact ⟨Nat.le_of_dvd nonzero multiple, multiple, bound⟩

theorem safe_numbers_iff (m : CaseMap) (req : TickerRequest) (tick : ℚ) :
    SafeTicker { postedConfig m req with tickSize := tick } ↔ 0 < tick ∧ 0 < req.baseCompression ∧
      validateCompression (postedConfig m req).defaultCompression (postedConfig m req) = .ok () := by
  constructor
  · intro safe
    exact ⟨safe.tickSize, safe.base, safe.default⟩
  · intro ⟨tickSize, base, valid⟩
    have comp : (0 : ℚ) < req.baseCompression.toNat := by
      exact_mod_cast UInt32.lt_iff_toNat_lt.mp base
    have grid : 0 < gridOf { postedConfig m req with tickSize := tick } := mul_pos comp tickSize
    exact ⟨tickSize, base, grid.ne', fun _ _ => merge_width tickSize base, valid, _,
      default_served (postedDefault_ne_zero m base) valid⟩

theorem safe_posted_iff (m : CaseMap) (decimal8 : ℚ → ℚ) (req : TickerRequest) :
    SafeTicker (postedConfig m req) ∧ SafeTicker (storedConfig decimal8 (postedConfig m req)) ↔
      SafeBody decimal8 req := by
  have held := safe_numbers_iff m req req.tickSize
  have stored := safe_numbers_iff m req (decimal8 req.tickSize)
  constructor
  · intro ⟨safe, safe_row⟩
    obtain ⟨tickSize, base, valid⟩ := held.mp safe
    obtain ⟨multiple, bound⟩ := (postedDefault_valid_iff m base).mp valid
    exact ⟨tickSize, (stored.mp safe_row).1, base, multiple, bound⟩
  · intro ⟨tickSize, kept, base, multiple, bound⟩
    have valid := (postedDefault_valid_iff m base).mpr ⟨multiple, bound⟩
    exact ⟨held.mpr ⟨tickSize, base, valid⟩, stored.mpr ⟨kept, base, valid⟩⟩

/-- An accepted body becomes the ticker of the handler and a row of the table, which a
    restart reads; both are safe exactly if the numbers of the body are. -/
theorem posted_safe_iff {server : Server} {s s' : State} {body : Except String TickerRequest}
    {db : Option String} (accepted : handlePostTicker server s body db = .ok s') :
    ∃ req, body = .ok req ∧ ∃ tc row, s'.tickerConfig = s.tickerConfig ++ [row] ∧
      row = storedConfig server.decimal8 tc ∧
      findTicker s'.configs (server.caseMap.toUpper req.symbol) (server.caseMap.toLower req.market) =
        some tc ∧
      (SafeTicker tc ∧ SafeTicker row ↔ SafeBody server.decimal8 req) := by
  obtain ⟨req, rfl, rfl⟩ := accepted_post accepted
  exact ⟨req, rfl, postedConfig server.caseMap req, _, rfl, rfl,
    setTicker_found (postedConfig server.caseMap req) s.configs,
    safe_posted_iff server.caseMap server.decimal8 req⟩

/-- The handler accepts a base compression of 50 at a tick of 0.1, and the ticker is safe. -/
theorem btc_post_safe : ∃ s' tc row,
    handlePostTicker btcServer (runServer none 0 []) (.ok (btcPost 50)) none = .ok s' ∧
      s'.tickerConfig = [row] ∧
      findTicker s'.configs (btcServer.caseMap.toUpper "btcusdt") (btcServer.caseMap.toLower "futures") =
        some tc ∧ SafeTicker tc ∧ SafeTicker row := by
  have accepted := named_accepted btcServer (runServer none 0 []) (btcPost 50) (by decide)
  obtain ⟨req, body, tc, row, rows, -, found, safe⟩ := posted_safe_iff accepted
  obtain rfl := Except.ok.inj body
  refine ⟨_, tc, row, accepted, rows, found, safe.mpr ?_⟩
  exact ⟨by norm_num [btcPost], by decide +kernel, by decide, by decide, by decide⟩

def bareBody : TickerRequest := ⟨"ethusdt", "futures", 0, 0, 0, 0, 0, 0⟩

/-- The bare body is accepted as a ticker with a tick size and a base compression of zero. -/
theorem bare_body_accepted : ∃ s' tc,
    handlePostTicker btcServer (runServer none 0 []) (.ok bareBody) none = .ok s' ∧
      findTicker s'.configs "ETHUSDT" "futures" = some tc ∧ ¬ SafeTicker tc := by
  have accepted := named_accepted btcServer (runServer none 0 []) bareBody (by decide)
  have found := setTicker_found (postedConfig btcServer.caseMap bareBody) (uniqueConfigs none)
  rw [show (postedConfig btcServer.caseMap bareBody).symbol = "ETHUSDT" by decide +kernel,
    show (postedConfig btcServer.caseMap bareBody).market = "futures" by decide +kernel] at found
  exact ⟨_, _, accepted, found, fun safe => absurd safe.tickSize (lt_irrefl 0)⟩

end PriceGrids
