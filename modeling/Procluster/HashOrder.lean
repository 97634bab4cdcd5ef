import Procluster.HubMessages
import Procluster.RedisCache

/-!
The update of a live hash against the order in which HGETALL and the Go map list its
fields. The merge sorts by price and adds commutatively; without it the cells go out
as they were listed, with Open and Close from the two ends.
-/
namespace HashOrder
open Aggregate KeyedFold RedisCache WsHub RWMutex

def Lists (s : Store) (order : String → Hash) : Prop := ∀ key, (order key).Perm (hGetAll s key)

def redisEnv (nowSec : SubKey → ℤ) (order : String → Hash) : TickEnv :=
  ⟨nowSec, fun key => some (getAggCells (order key))⟩

/-- Every order gives the same update, and its cells ascend in price. -/
def OrderIrrelevant (nowSec : SubKey → ℤ) (validator : Validator) (s : Store) (key : SubKey) : Prop :=
  ∀ order other, Lists s order → Lists s other →
    updateMessage (redisEnv nowSec order) validator key =
      updateMessage (redisEnv nowSec other) validator key ∧
    ∀ msg candle, updateMessage (redisEnv nowSec order) validator key = .ok (some msg) →
      msg.candle = some candle → candle.cells.Pairwise fun c d => c.price ≤ d.price

def liveKey (nowSec : SubKey → ℤ) (key : SubKey) (secs : ℤ) : String :=
  redisAggKey key.parse.market key.parse.symbol key.parse.tf ((nowSec key).tdiv secs * secs)

def OneCell (data : Hash) : Prop := ∀ c ∈ getAggCells data, ∀ d ∈ getAggCells data, c = d

/-- Where an update is due, its compression is merged or the hash holds one cell. -/
def MergedOrSingle (nowSec : SubKey → ℤ) (validator : Validator) (s : Store) (key : SubKey) : Prop :=
  ∀ tc secs, validator.getConfig key.parse.symbol key.parse.market = some tc →
    tfSeconds key.parse.tf = some secs →
    tc.baseCompression < effective tc key.parse.compression ∨
      OneCell (hGetAll s (liveKey nowSec key secs))

theorem getAggCells_perm {data other : Hash} (perm : data.Perm other) :
    (getAggCells data).Perm (getAggCells other) := perm.filterMap _

theorem listed_first {data : Hash} {c : ClusterCell} (member : c ∈ getAggCells data) :
    ∃ listed rest, listed.Perm data ∧ getAggCells listed = c :: rest := by
  obtain ⟨p, hp, decoded⟩ := List.mem_filterMap.mp member
  refine ⟨p :: data.erase p, getAggCells (data.erase p), (List.perm_cons_erase hp).symm, ?_⟩
  exact List.filterMap_cons_some decoded

section Candle
variable {tc : TickerConfig} {compression : UInt32} (time : ℤ)

theorem mergeUp_perm (merged : tc.baseCompression < compression) {cells others : List ClusterCell}
    (perm : cells.Perm others) : mergeUp tc compression cells = mergeUp tc compression others := by
  unfold mergeUp divU32
  rw [if_pos merged, if_pos merged]
  by_cases zero : tc.baseCompression = 0
  · simp only [zero, ↓reduceIte]
    rfl
  · simp only [zero, ↓reduceIte]
    change Except.ok _ = Except.ok _
    rw [mergeCells_eq _ _ (quotient_ne_zero zero merged), mergeCells_eq _ _ (quotient_ne_zero zero merged),
      mergeInto_perm _ perm]

theorem updateCandle_perm (merged : tc.baseCompression < compression)
    {cells others : List ClusterCell} (perm : cells.Perm others) :
    updateCandle tc compression time cells = updateCandle tc compression time others := by
  rw [updateCandle, mergeUp_perm merged perm, updateCandle]

variable {time} in
theorem updateCandle_sorted (merged : tc.baseCompression < compression) {cells : List ClusterCell}
    {candle : ClusterCandle} (built : updateCandle tc compression time cells = .ok candle) :
    candle.cells.Pairwise fun c d => c.price ≤ d.price := by
  unfold updateCandle mergeUp divU32 at built
  rw [if_pos merged] at built
  by_cases zero : tc.baseCompression = 0
  · rw [if_pos zero] at built
    cases built
  · rw [if_neg zero] at built
    cases built
    change (candleLoop _ _ _).cells.Pairwise _
    rw [(candleLoop_frame _ _ _).2]
    rw [mergeCells_eq _ _ (quotient_ne_zero zero merged)]
    exact mergeInto_sorted _ _

theorem updateCandle_base (base : ¬ tc.baseCompression < compression) (cells : List ClusterCell) :
    ∃ candle, updateCandle tc compression time cells = .ok candle ∧ candle.cells = cells := by
  unfold updateCandle mergeUp
  rw [if_neg base]
  exact ⟨_, rfl, (candleLoop_frame _ _ _).2⟩

end Candle

def messageOf (tc : TickerConfig) (parts : SubKey.Parts) (time : ℤ) (cells : List ClusterCell) :
    Except Fault (Option SubMessage) :=
  if cells = [] then .ok none
  else (updateCandle tc (effective tc parts.compression) time cells).map fun candle =>
    some ⟨"update", parts.symbol, parts.market, parts.tf, effective tc parts.compression,
      some candle, 0⟩

theorem messageOf_candle {tc : TickerConfig} {parts : SubKey.Parts} {time : ℤ}
    {cells : List ClusterCell} {msg : SubMessage} {candle : ClusterCandle}
    (built : messageOf tc parts time cells = .ok (some msg)) (carries : msg.candle = some candle) :
    updateCandle tc (effective tc parts.compression) time cells = .ok candle := by
  unfold messageOf at built
  split at built
  · cases built
  · cases made : updateCandle tc (effective tc parts.compression) time cells with
    | error fault =>
      rw [made] at built
      cases built
    | ok sent =>
      rw [made] at built
      cases built
      cases carries
      rfl

section Update
variable {nowSec : SubKey → ℤ} {validator : Validator} {key : SubKey} {tc : TickerConfig} {secs : ℤ}
  (config : validator.getConfig key.parse.symbol key.parse.market = some tc)
  (seconds : tfSeconds key.parse.tf = some secs)
include config seconds

theorem updateMessage_of_cells (order : String → Hash) :
    updateMessage (redisEnv nowSec order) validator key =
      messageOf tc key.parse ((nowSec key).tdiv secs * secs)
        (getAggCells (order (liveKey nowSec key secs))) := by
  simp only [updateMessage, config, seconds, redisEnv, liveKey]
  generalize getAggCells _ = cells
  cases cells with
  | nil => rfl
  | cons cell cells =>
    rw [messageOf, if_neg (by simp)]
    dsimp only
    generalize updateCandle tc _ _ _ = built
    cases built <;> rfl

theorem irrelevant_of_merged {s : Store}
    (merged : tc.baseCompression < effective tc key.parse.compression) :
    OrderIrrelevant nowSec validator s key := by
  intro order other lists listsOther
  have perm : (getAggCells (order (liveKey nowSec key secs))).Perm
      (getAggCells (other (liveKey nowSec key secs))) :=
    getAggCells_perm ((lists _).trans (listsOther _).symm)
  rw [updateMessage_of_cells config seconds, updateMessage_of_cells config seconds]
  constructor
  · have empty : getAggCells (order (liveKey nowSec key secs)) = [] ↔
        getAggCells (other (liveKey nowSec key secs)) = [] := by
      rw [← List.length_eq_zero_iff, perm.length_eq, List.length_eq_zero_iff]
    rw [messageOf, messageOf, updateCandle_perm _ merged perm]
    simp only [empty]
  · intro msg candle built carries
    exact updateCandle_sorted merged (messageOf_candle built carries)

theorem irrelevant_of_single {s : Store} (base : ¬ tc.baseCompression < effective tc key.parse.compression)
    (single : OneCell (hGetAll s (liveKey nowSec key secs))) :
    OrderIrrelevant nowSec validator s key := by
  intro order other lists listsOther
  have perm : (getAggCells (order (liveKey nowSec key secs))).Perm
      (getAggCells (other (liveKey nowSec key secs))) :=
    getAggCells_perm ((lists _).trans (listsOther _).symm)
  have equal : ∀ c ∈ getAggCells (order (liveKey nowSec key secs)),
      ∀ d ∈ getAggCells (order (liveKey nowSec key secs)), c = d := by
    have stored := getAggCells_perm (lists (liveKey nowSec key secs))
    intro c hc d hd
    exact single c (stored.mem_iff.mp hc) d (stored.mem_iff.mp hd)
  have same : getAggCells (order (liveKey nowSec key secs)) =
      getAggCells (other (liveKey nowSec key secs)) := by
    have related : ∀ cells : List ClusterCell, cells.Pairwise fun _ _ => True :=
      fun cells => List.pairwise_of_forall fun _ _ => trivial
    refine perm.eq_of_pairwise ?_ (related _) (related _)
    intro c d hc hd _ _
    exact equal c hc d (perm.mem_iff.mpr hd)
  rw [updateMessage_of_cells config seconds, updateMessage_of_cells config seconds, same]
  refine ⟨rfl, ?_⟩
  intro msg candle built carries
  obtain ⟨sent, made, cells⟩ := updateCandle_base ((nowSec key).tdiv secs * secs) base
    (getAggCells (other (liveKey nowSec key secs)))
  rw [messageOf_candle built carries] at made
  cases made
  rw [cells, ← same]
  exact List.pairwise_of_forall_mem_list fun c hc d hd => (equal c hc d hd ▸ le_rfl)

theorem single_of_irrelevant {s : Store}
    (base : ¬ tc.baseCompression < effective tc key.parse.compression)
    (irrelevant : OrderIrrelevant nowSec validator s key) :
    OneCell (hGetAll s (liveKey nowSec key secs)) := by
  intro c hc d hd
  have listing : ∀ e ∈ getAggCells (hGetAll s (liveKey nowSec key secs)), ∃ order rest,
      Lists s order ∧ getAggCells (order (liveKey nowSec key secs)) = e :: rest := by
    intro e he
    obtain ⟨listed, rest, perm, first⟩ := listed_first he
    refine ⟨Function.update (hGetAll s) (liveKey nowSec key secs) listed, rest, ?_, by simp [first]⟩
    intro other
    by_cases same : other = liveKey nowSec key secs
    · subst same
      simpa using perm
    · rw [Function.update_of_ne same]
  obtain ⟨order, rest, lists, first⟩ := listing c hc
  obtain ⟨other, rest', listsOther, first'⟩ := listing d hd
  have same := (irrelevant order other lists listsOther).1
  rw [updateMessage_of_cells config seconds, updateMessage_of_cells config seconds, first, first'] at same
  obtain ⟨candle, made, cells⟩ := updateCandle_base ((nowSec key).tdiv secs * secs) base (c :: rest)
  obtain ⟨candle', made', cells'⟩ :=
    updateCandle_base ((nowSec key).tdiv secs * secs) base (d :: rest')
  rw [messageOf, messageOf, if_neg (by simp), if_neg (by simp), made, made'] at same
  have sent : candle = candle' := by
    simp only [Except.map, Except.ok.injEq, Option.some.injEq, SubMessage.mk.injEq] at same
    exact same.2.2.2.2.2.1
  rw [sent, cells'] at cells
  exact (List.cons.inj cells).1.symm

end Update

theorem irrelevant_of_silent {nowSec : SubKey → ℤ} {validator : Validator} {s : Store} {key : SubKey}
    (silent : validator.getConfig key.parse.symbol key.parse.market = none ∨
      tfSeconds key.parse.tf = none) : OrderIrrelevant nowSec validator s key := by
  have nothing : ∀ env, updateMessage env validator key = .ok none := by
    intro env
    unfold updateMessage
    dsimp only
    split
    · rfl
    · rename_i tc config
      rw [silent.resolve_left (by simp [config])]
      rfl
  intro order other _ _
  rw [nothing, nothing]
  exact ⟨rfl, fun msg candle built => by cases built⟩

/-- The update does not depend on the order of the hash exactly when it is merged, or the
    hash holds one cell. -/
theorem update_order_irrelevant_iff (nowSec : SubKey → ℤ) (validator : Validator) (s : Store)
    (key : SubKey) :
    OrderIrrelevant nowSec validator s key ↔ MergedOrSingle nowSec validator s key := by
  constructor
  · intro irrelevant tc secs config seconds
    by_cases merged : tc.baseCompression < effective tc key.parse.compression
    · exact .inl merged
    · exact .inr (single_of_irrelevant config seconds merged irrelevant)
  · intro condition
    cases config : validator.getConfig key.parse.symbol key.parse.market with
    | none => exact irrelevant_of_silent (.inl config)
    | some tc =>
      cases seconds : tfSeconds key.parse.tf with
      | none => exact irrelevant_of_silent (.inr seconds)
      | some secs =>
        by_cases merged : tc.baseCompression < effective tc key.parse.compression
        · exact irrelevant_of_merged config seconds merged
        · exact irrelevant_of_single config seconds merged
            ((condition tc secs config seconds).resolve_left merged)

/-- Two bins at the base compression: HGETALL may list the higher one first. -/
theorem base_update_follows_order :
    ¬ OrderIrrelevant (fun _ => 60) sampleValidator
      [("agg:futures:BTCUSDT:1m:60", [(['5'], ['1', ',', '2']), (['9'], ['1', ',', '2'])])]
      (SubKey.make "futures" "BTCUSDT" "1m" 25) := by
  intro irrelevant
  have config : sampleValidator.getConfig "BTCUSDT" "futures" =
      some ⟨"BTCUSDT", "futures", 1 / 10, 25, 10, 25, 365, 60, true⟩ := rfl
  have single := single_of_irrelevant config rfl (by decide +kernel) irrelevant
  revert single
  unfold OneCell
  decide +kernel

end HashOrder
