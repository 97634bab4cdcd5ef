import Procluster.Aggregate

/-!
Package api: the validator of symbols, timeframes and compressions. strings.ToUpper
and strings.ToLower map unicode.ToUpper and unicode.ToLower over the runes.
-/
namespace Validate
open Aggregate KeyedFold

structure CaseMap where
  upper : Char → Char
  lower : Char → Char

def CaseMap.toUpper (m : CaseMap) (s : String) : String := s.map m.upper

def CaseMap.toLower (m : CaseMap) (s : String) : String := s.map m.lower

structure Validator where
  configs : List (String × TickerConfig)

/-- A later config of the same symbol and market replaces an earlier one. -/
def newValidator (configs : List TickerConfig) : Validator :=
  ⟨gather (fun tc => tc.symbol ++ ":" ++ tc.market) (fun tc _ => tc) configs⟩

structure ValidateError where
  code : String
  message : String
  deriving DecidableEq

def invalidParams (message : String) : ValidateError := ⟨"INVALID_PARAMS", message⟩

def getConfig (m : CaseMap) (v : Validator) (symbol market : String) : Option TickerConfig :=
  find (m.toUpper symbol ++ ":" ++ m.toLower market) v.configs

def validateSymbolMarket (m : CaseMap) (v : Validator) (symbol market : String) :
    Except ValidateError TickerConfig :=
  let symbol := m.toUpper symbol
  let market := m.toLower market
  if symbol = "" then .error (invalidParams "symbol is required")
  else if market = "" then .error (invalidParams "market is required")
  else if market ≠ "futures" ∧ market ≠ "spot" then
    .error (invalidParams "market must be 'futures' or 'spot'")
  else
    match getConfig m v symbol market with
    | none => .error ⟨"UNKNOWN_TICKER", "unknown symbol/market: " ++ symbol ++ "/" ++ market⟩
    | some tc => .ok tc

def validTimeframes (market : String) : List String :=
  if market = "spot" then ["15m", "30m", "1h", "4h"]
  else ["1m", "5m", "15m", "30m", "1h", "4h"]

def validateTF (tf : String) (tc : TickerConfig) : Except ValidateError Unit :=
  if tf = "" then .error (invalidParams "tf (timeframe) is required")
  else if tf ∈ validTimeframes tc.market then .ok ()
  else .error (invalidParams ("invalid timeframe '" ++ tf ++ "' for " ++ tc.market))

/-- The largest compression is a product of 32 bits, which wraps around. -/
def validateCompression (comp : UInt32) (tc : TickerConfig) : Except ValidateError Unit :=
  if comp = 0 then .ok ()
  else if comp < tc.baseCompression then
    .error (invalidParams "compression must be >= base_compression")
  else
    let maxComp := tc.baseCompression * tc.compressionLevels.toUInt32
    if maxComp < comp then
      .error (invalidParams "compression must be <= base_compression * levels")
    else if comp % tc.baseCompression ≠ 0 then
      .error (invalidParams "compression must be a multiple of base_compression")
    else .ok ()

theorem validateCompression_ok {comp : UInt32} {tc : TickerConfig}
    (valid : validateCompression comp tc = .ok ()) :
    comp = 0 ∨ (tc.baseCompression ≠ 0 ∧ tc.baseCompression ≤ comp ∧ comp % tc.baseCompression = 0) := by
  simp only [validateCompression] at valid
  split_ifs at valid with zero below above uneven
  · exact .inl zero
  · refine .inr ⟨?_, UInt32.not_lt.mp below, not_not.mp uneven⟩
    intro noBase
    have positive : comp.toNat ≠ 0 := fun h => zero (UInt32.toNat_inj.mp h)
    have bound : comp ≤ tc.baseCompression * tc.compressionLevels.toUInt32 := UInt32.not_lt.mp above
    rw [noBase, UInt32.zero_mul] at bound
    have small : comp.toNat ≤ 0 := UInt32.le_iff_toNat_le.mp bound
    omega

end Validate
