import Procluster.HubEffects

/-!
The two maps behind a subscription along sequences of operations: the hub's sets of
clients and each client's keys. Every operation but Subscribe and Unsubscribe leaves
both as they are, and in every reachable hub they say the same.
-/
namespace WsHub
open Aggregate KeyedFold EventRuns RWMutex

structure SameBooks (h h' : Hub) : Prop where
  validator : h'.validator = h.validator
  subs : h'.subs = h.subs
  subKeys : ∀ c, (h'.heap c).subKeys = (h.heap c).subKeys

/-- No set is empty, and a client is in the set of a key if it holds the key. -/
structure Registry (h : Hub) : Prop where
  idle : Idle h
  distinct : (keys h.subs).Nodup
  nonempty : ∀ p ∈ h.subs, p.2 ≠ []
  held : ∀ key c, key ∈ (h.heap c).subKeys ↔ ∃ set, find key h.subs = some set ∧ c ∈ set

/-- Unsubscribe takes back what Subscribe did to both maps. -/
def TakenBack (h h₁ : Hub) (c : ClientId) (market symbol tf : String) (compression : UInt32) : Prop :=
  ∃ h₂, unsubscribe c market symbol tf compression h₁ = .ok h₂ ∧ SameBooks h h₂

theorem mem_remove [DecidableEq α] (x y : α) (xs : List α) : y ∈ remove x xs ↔ y ∈ xs ∧ y ≠ x := by
  simp [remove]

theorem find_dropSub (key other : SubKey) (c : ClientId) (subs : List (SubKey × List ClientId)) :
    find other (dropSub key c subs) =
      if other = key then (find key subs).bind fun set =>
        if remove c set = [] then none else some (remove c set)
      else find other subs := by
  unfold dropSub
  cases found : find key subs with
  | none =>
    by_cases same : other = key
    · simp [same, found]
    · simp [same]
  | some set =>
    dsimp only [Option.bind_some]
    split
    · rw [find_erase]
    · rw [find_upsert]

theorem mem_dropSub (key other : SubKey) (c d : ClientId) (subs : List (SubKey × List ClientId)) :
    (∃ set, find other (dropSub key c subs) = some set ∧ d ∈ set) ↔
      (∃ set, find other subs = some set ∧ d ∈ set) ∧ ¬ (other = key ∧ d = c) := by
  rw [find_dropSub]
  by_cases same : other = key
  · subst same
    cases found : find other subs with
    | none => simp
    | some set =>
      simp only [↓reduceIte, Option.bind_some, Option.some.injEq, exists_eq_left', true_and]
      rw [← mem_remove c d set]
      split
      · rename_i emptied
        simp [emptied]
      · simp
  · simp [same]

theorem dropSub_keys (key : SubKey) (c : ClientId) {subs : List (SubKey × List ClientId)}
    (distinct : (keys subs).Nodup) : (keys (dropSub key c subs)).Nodup := by
  unfold dropSub
  split
  · exact distinct
  · split
    · exact distinct.sublist (erase_sublist key subs |>.map Prod.fst)
    · exact keys_upsert_nodup _ _ _ distinct

theorem dropSub_entries (holds : SubKey → List ClientId → Prop) (key : SubKey) {c : ClientId}
    {subs : List (SubKey × List ClientId)}
    (kept : ∀ k set, holds k set → remove c set ≠ [] → holds k (remove c set))
    (each : ∀ p ∈ subs, holds p.1 p.2) : ∀ p ∈ dropSub key c subs, holds p.1 p.2 := by
  unfold dropSub
  split
  · exact each
  · rename_i set found
    split
    · exact fun p hp => each p ((erase_sublist key subs).subset hp)
    · rename_i left
      have smaller := kept key set (each (key, set) (mem_of_find found)) left
      exact upsert_entries holds smaller (fun _ _ => smaller) each

def Records.Listed (r : Records) (key : SubKey) (c : ClientId) : Prop :=
  ∃ set, find key r.subs = some set ∧ c ∈ set

def Records.Agrees (r : Records) (c : ClientId) : Prop := ∀ key, key ∈ r.subKeys c ↔ r.Listed key c

/-- One set for a key, and none is empty. -/
structure Records.Filed (r : Records) : Prop where
  distinct : (keys r.subs).Nodup
  nonempty : ∀ p ∈ r.subs, p.2 ≠ []

section Updates
variable {r : Records} (c : ClientId) (key : SubKey)

theorem filed_entered (filed : r.Filed) : (r.entered c key).Filed := by
  have member : ∀ set : List ClientId, set.insert c ≠ [] :=
    fun set => List.ne_nil_of_mem List.mem_insert_self
  exact ⟨keys_upsert_nodup _ _ _ filed.distinct,
    upsert_entries (fun _ set => set ≠ []) (member _) (fun _ _ => member _) filed.nonempty⟩

theorem filed_left (filed : r.Filed) : (r.left c key).Filed :=
  ⟨dropSub_keys key c filed.distinct,
    dropSub_entries (fun _ set => set ≠ []) key (fun _ _ _ left => left) filed.nonempty⟩

theorem listed_entered (other : SubKey) (d : ClientId) :
    (r.entered c key).Listed other d ↔ r.Listed other d ∨ (other = key ∧ d = c) := by
  simp only [Records.Listed, Records.entered, find_upsert]
  by_cases same : other = key
  · subst same
    cases found : find other r.subs with
    | none => simp
    | some set => simp [or_comm]
  · simp [same]

theorem held_entered (other : SubKey) (d : ClientId) :
    other ∈ (r.entered c key).subKeys d ↔ other ∈ r.subKeys d ∨ (other = key ∧ d = c) := by
  by_cases mine : d = c
  · subst mine
    simp [Records.entered, or_comm]
  · simp [Records.entered, mine]

theorem agrees_entered {d : ClientId} (agrees : r.Agrees d) : (r.entered c key).Agrees d := by
  intro other
  rw [held_entered, listed_entered, agrees other]

theorem listed_left (other : SubKey) (d : ClientId) :
    (r.left c key).Listed other d ↔ r.Listed other d ∧ ¬ (other = key ∧ d = c) :=
  mem_dropSub key other c d r.subs

theorem held_left (other : SubKey) (d : ClientId) :
    other ∈ (r.left c key).subKeys d ↔ other ∈ r.subKeys d ∧ ¬ (other = key ∧ d = c) := by
  by_cases mine : d = c
  · subst mine
    simp [Records.left, mem_remove]
  · simp [Records.left, mine]

theorem agrees_left {d : ClientId} (agrees : r.Agrees d) : (r.left c key).Agrees d := by
  intro other
  rw [held_left, listed_left, agrees other]

end Updates

theorem registry_of_records {h : Hub} (idle : Idle h) (filed : (records h).Filed)
    (agrees : ∀ c, (records h).Agrees c) : Registry h :=
  ⟨idle, filed.distinct, filed.nonempty, fun key c => agrees c key⟩

section Kept
variable {h : Hub} (registry : Registry h)
include registry

theorem registry_filed : (records h).Filed := ⟨registry.distinct, registry.nonempty⟩

theorem registry_agrees (c : ClientId) : (records h).Agrees c := fun key => registry.held key c

theorem registry_same {h' : Hub} (idle : Idle h') (same : records h' = records h) : Registry h' :=
  registry_of_records idle (same ▸ registry_filed registry) (same ▸ registry_agrees registry)

theorem registry_subscribed (c : ClientId) (key : SubKey) : Registry (subscribed c key h) := by
  have effect : records (subscribed c key h) = (records h).entered c key := by
    unfold records Records.entered subscribed
    congr 1
    funext d
    by_cases mine : d = c
    · subst mine
      simp [setClient]
    · simp [setClient, Function.update_of_ne mine]
  exact registry_of_records (subscribed_idle registry.idle c key)
    (effect ▸ filed_entered c key (registry_filed registry))
    (effect ▸ fun d => agrees_entered c key (registry_agrees registry d))

end Kept

theorem answer_of_some {Answer : Type} {result : Except Fault Answer} {a : Answer}
    (some_answer : result.toOption = some a) : result = .ok a := by
  cases result with
  | error fault => cases some_answer
  | ok b => exact congrArg Except.ok (Option.some.inj some_answer)

theorem step_done {h h' : Hub} {op : Op} (taken : step h op = some h') : exec h op = .ok h' :=
  answer_of_some taken

theorem registry_step {h h' : Hub} {op : Op} (registry : Registry h) (taken : step h op = some h') :
    Registry h' := by
  have done := step_done taken
  have idle : Idle h' := by
    by_cases returns : Returns h op
    · obtain ⟨other, again, idle⟩ := exec_returns registry.idle returns
      exact Except.ok.inj (done.symm.trans again) ▸ idle
    · rcases exec_faults registry.idle returns with ⟨stuck, -⟩ | panics
      · rw [stuck] at done
        cases done
      · rw [panics] at done
        cases done
  have effect := exec_effect done
  have filed := registry_filed registry
  have agrees := registry_agrees registry
  cases op with
  | register c => exact registry_of_records idle (effect ▸ ⟨filed.1, filed.2⟩) (effect ▸ agrees)
  | subscribe c market symbol tf compression =>
    rcases effect with same | ⟨tc, -, -, -, -, entered⟩
    · exact registry_same registry idle same
    · exact registry_of_records idle (entered ▸ filed_entered c _ filed)
        (entered ▸ fun d => agrees_entered c _ (agrees d))
  | unsubscribe c market symbol tf compression =>
    exact registry_of_records idle (effect ▸ filed_left c _ filed)
      (effect ▸ fun d => agrees_left c _ (agrees d))
  | unregister c =>
    rw [exec, unregister_deadlocks registry.idle] at done
    cases done
  | clientCount => exact registry_same registry idle effect
  | broadcastTick env => exact registry_same registry idle effect
  | notifyCandleClose market symbol tf candleTimeUnix cells => exact registry_same registry idle effect
  | goroutine k nowSec => exact registry_same registry idle effect

theorem registry_new (validator : Validator) (writeBufSize : ℕ) :
    Registry (newHub validator writeBufSize) :=
  ⟨newHub_idle validator writeBufSize, List.nodup_nil, by simp [newHub],
    by simp [newHub, newClient]⟩

theorem registry_kept {h h' : Hub} {ops : List Op} (registry : Registry h)
    (reach : run step h ops = some h') : Registry h' :=
  invariant_run Registry (fun _ _ => True) (fun _ _ _ registry _ taken => registry_step registry taken)
    registry (guarded_of_events (by simp)) reach

/-- In every reachable hub the two maps agree. -/
theorem registry_run {validator : Validator} {writeBufSize : ℕ} {ops : List Op} {h : Hub}
    (reach : run step (newHub validator writeBufSize) ops = some h) : Registry h :=
  registry_kept (registry_new validator writeBufSize) reach

theorem make_injective {market symbol tf : String} {a b : UInt32}
    (same : SubKey.make market symbol tf a = SubKey.make market symbol tf b) : a = b := by
  have texts : SubKey.subKey market symbol tf a = SubKey.subKey market symbol tf b :=
    congrArg Subtype.val same
  unfold SubKey.subKey at texts
  have digits := String.ofList_injective ((String.append_right_inj _).mp texts)
  rw [← SubKey.parseU32_itoa a, digits, SubKey.parseU32_itoa]

theorem remove_insert [DecidableEq α] {x : α} {xs : List α} (absent : x ∉ xs) :
    remove x (xs.insert x) = xs := by
  rw [List.insert_of_not_mem absent, remove, List.filter_cons_of_neg (by simp)]
  exact List.filter_eq_self.mpr fun y hy => by
    simp only [decide_eq_true_eq]
    exact fun same => absent (same ▸ hy)

theorem dropSub_entered {key : SubKey} {c : ClientId} {subs : List (SubKey × List ClientId)}
    (nonempty : ∀ p ∈ subs, p.2 ≠ []) (absent : ∀ set, find key subs = some set → c ∉ set) :
    dropSub key c (upsert key (fun set => (set.getD []).insert c) subs) = subs := by
  unfold dropSub
  rw [find_upsert_self]
  dsimp only
  cases found : find key subs with
  | none =>
    have alone : remove c (List.insert c []) = [] := remove_insert (by simp)
    rw [Option.getD_none, if_pos alone]
    exact erase_upsert found _
  | some set =>
    have others : set ≠ [] := nonempty (key, set) (mem_of_find found)
    rw [Option.getD_some, remove_insert (absent set found), if_neg others, upsert_upsert]
    exact upsert_same found

theorem effective_eq_iff (tc : TickerConfig) (compression : UInt32) :
    effective tc compression = compression ↔ compression ≠ 0 ∨ tc.baseCompression = 0 := by
  unfold effective
  by_cases zero : compression = 0 <;> simp [zero]

/- The request takes away the key it names, which is the new one only with its effective
   compression; otherwise the new key stays with the client. -/
theorem taken_back_iff {h : Hub} (registry : Registry h) {c : ClientId} {tc : TickerConfig}
    {market symbol tf : String} {compression : UInt32}
    (new : SubKey.make market symbol tf (effective tc compression) ∉ (h.heap c).subKeys) :
    TakenBack h (subscribed c (SubKey.make market symbol tf (effective tc compression)) h) c market symbol tf
      compression ↔ effective tc compression = compression := by
  have answer := unsubscribe_idle (registry_subscribed registry c
    (SubKey.make market symbol tf (effective tc compression))).idle c market symbol tf compression
  constructor
  · rintro ⟨h₃, done, same⟩
    obtain rfl := Except.ok.inj (done.symm.trans answer)
    by_contra other
    have kept := same.subKeys c
    have differs : SubKey.make market symbol tf (effective tc compression) ≠
        SubKey.make market symbol tf compression := fun keys => other (make_injective keys)
    have still : SubKey.make market symbol tf (effective tc compression) ∈
        remove (SubKey.make market symbol tf compression)
          ((h.heap c).subKeys.insert (SubKey.make market symbol tf (effective tc compression))) :=
      (mem_remove _ _ _).mpr ⟨List.mem_insert_self, differs⟩
    simp only [setClient, subscribed, Function.update_self] at kept
    exact new (kept ▸ still)
  · intro same
    rw [same] at new answer ⊢
    refine ⟨_, answer, rfl, ?_, ?_⟩
    · exact dropSub_entered registry.nonempty fun set found member =>
        new ((registry.held _ c).mpr ⟨set, found, member⟩)
    · intro d
      by_cases mine : d = c
      · subst mine
        simp only [setClient, subscribed, Function.update_self]
        exact remove_insert new
      · simp only [setClient, subscribed, Function.update_of_ne mine]

/-- Unsubscribe takes a subscription back exactly if the request names its compression:
    it is not zero, or the ticker's base compression is zero as well. -/
theorem unsubscribe_undoes_iff {validator : Validator} {writeBufSize : ℕ} {ops : List Op} {h h₁ : Hub}
    (reach : run step (newHub validator writeBufSize) ops = some h) (c : ClientId)
    (market symbol tf : String) (compression : UInt32)
    (accepted : subscribe c market symbol tf compression h = .ok (none, h₁))
    (fresh : ∀ tc ∈ h.validator.getConfig symbol market,
      SubKey.make market symbol tf (effective tc compression) ∉ (h.heap c).subKeys) :
    TakenBack h h₁ c market symbol tf compression ↔
      compression ≠ 0 ∨ ∀ tc ∈ h.validator.getConfig symbol market, tc.baseCompression = 0 := by
  have registry := registry_run reach
  obtain ⟨tc, config, rfl⟩ := subscribe_accepted registry.idle accepted
  have only : (∀ tc' ∈ h.validator.getConfig symbol market, tc'.baseCompression = 0) ↔
      tc.baseCompression = 0 := by
    rw [config]
    simp
  rw [only, ← effective_eq_iff]
  exact taken_back_iff registry (fresh tc config)

/- A subscription with compression zero is entered at the base compression 25 and the
   same request does not take it back. -/
theorem default_compression_stays : ¬ ∀ (ops : List Op) (h h₁ : Hub),
    run step (newHub sampleValidator 256) ops = some h → ∀ c ∈ h.clients,
    ∀ (market symbol tf : String) (compression : UInt32),
    subscribe c market symbol tf compression h = .ok (none, h₁) →
    (∀ tc ∈ h.validator.getConfig symbol market,
      SubKey.make market symbol tf (effective tc compression) ∉ (h.heap c).subKeys) →
    TakenBack h h₁ c market symbol tf compression := by
  intro claim
  obtain ⟨h₂, left, same⟩ := claim [.register 1] _ _ rfl 1 (by decide) "futures" "BTCUSDT" "1m" 0 rfl
    (fun _ _ => List.not_mem_nil)
  obtain rfl := Except.ok.inj left
  have remains := congrArg List.length same.subs
  revert remains
  decide

/- With its compression named, 25, the subscription is taken back. -/
theorem named_compression_undone :
    ∃ h h₁, run step (newHub sampleValidator 256) [.register 1] = some h ∧
      subscribe 1 "futures" "BTCUSDT" "1m" 25 h = .ok (none, h₁) ∧
      TakenBack h h₁ 1 "futures" "BTCUSDT" "1m" 25 := by
  have reach : run step (newHub sampleValidator 256) [.register 1] =
      some { newHub sampleValidator 256 with clients := [1] } := rfl
  exact ⟨_, _, reach, rfl, (unsubscribe_undoes_iff reach 1 "futures" "BTCUSDT" "1m" 25 rfl
    fun _ _ => List.not_mem_nil).mpr (.inl (by decide))⟩

end WsHub
