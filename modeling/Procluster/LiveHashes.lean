import Procluster.LiveIngest

/-!
What a close deletes from Redis. runConn writes the hash of the trade's own candle;
the closer deletes the hash of the boundary, the candle that has just begun.
-/
namespace LiveHashes
open Aggregate EventRuns RedisCache LiveIngest

def closedKey (cfg : WSConfig) (tf : String) (b : Batch) (secs : ℤ) : String :=
  cfg.redisKeyFn tf (b.label - secs)

/-- The delete of a close empties the closed candle's hash and leaves every other as it
    is; no other step removes a field. -/
def DeletesClosedCandle (s : Live) (e : Event) (s' : Live) : Prop :=
  match e with
  | .delAggKey i _ =>
    match (s.lane i).closer with
    | .deleting b _ => ∀ secs ∈ tfSeconds (s.lane i).timeframe, ∀ key, hGetAll s'.store key =
      if key = closedKey s.cfg (s.lane i).timeframe b secs then [] else hGetAll s.store key
    | _ => True
  | _ => ∀ key field, (hGet s.store key field).isSome → (hGet s'.store key field).isSome

/-- The closer wrote rows of the boundary and is past the delete of that close. -/
def Closed (l : Lane) (label : ℤ) : Prop :=
  (∃ record ∈ l.closes, ∃ row ∈ record.rows, row.candleTime = label) ∨
    ∃ b cached, l.closer = .notifying b cached ∧ b.label = label

def ClosedKey (s : Live) (key : String) : Prop :=
  ∃ i label, Closed (s.lane i) label ∧ ∃ secs ∈ tfSeconds (s.lane i).timeframe,
    key = s.cfg.redisKeyFn (s.lane i).timeframe (label - secs)

/-- No closed candle has a hash in Redis. -/
def Gone (s : Live) : Prop := ∀ key, ClosedKey s key → hGetAll s.store key = []

/-- Redis holds nothing of the closed candle, and nothing of the candle that begins at
    the boundary unless the delete fails. -/
def NothingLive (s : Live) : Event → Prop
  | .delAggKey i ok =>
    match (s.lane i).closer with
    | .deleting b _ => ∀ secs ∈ tfSeconds (s.lane i).timeframe,
      hGetAll s.store (closedKey s.cfg (s.lane i).timeframe b secs) = [] ∧
        (ok = true → hGetAll s.store (s.cfg.redisKeyFn (s.lane i).timeframe b.label) = [])
    | _ => True
  | _ => True

/-- The write of runConn is not to the hash of a closed candle. -/
def NotLate (s : Live) : Event → Prop
  | .hSet true =>
    match s.stage with
    | .hSet _ _ key _ _ => ¬ ClosedKey s key
    | _ => True
  | _ => True

theorem hGetAll_delAggKey (store : Store) (key other : String) :
    hGetAll (RedisCache.delAggKey store key) other = if other = key then [] else hGetAll store other := by
  unfold hGetAll RedisCache.delAggKey
  rw [KeyedFold.find_erase]
  split <;> rfl

theorem step_store {s s' : Live} {e : Event} (taken : step s e = some s') :
    match e with
    | .hSet ok => ∃ key field value, s'.store =
      if ok then RedisCache.hSet s.store key field value else s.store
    | .delAggKey i ok => s'.store = s.storeAfterDel i ok
    | _ => s'.store = s.store := by
  cases step_steps taken with
  | hSet ok here => exact ⟨_, _, _, rfl⟩
  | closer acts moved => cases e <;> first | rfl | cases acts
  | advance | message | process | fillGap | gapDone | gapTrade | incr | deleted => rfl

/- The two steps of runConn, with no step of a closer between them, are IncrCell. -/
theorem incrCell_steps {s s' : Live} (taken : run step s [.incrCell true, .hSet true] = some s') :
    ∃ t i, s.stage = .incr t i ∧
      let u := updateOf s.cfg (s.lane i).timeframe t
      s'.store = RedisCache.incrCell s.store u.key u.inc.bin u.inc.bidDelta u.inc.askDelta := by
  simp only [run_cons, run_nil, Option.bind_eq_some_iff, Option.some.injEq, exists_eq_right] at taken
  obtain ⟨m, first, second⟩ := taken
  cases step_steps first with
  | incr readOk here update =>
    simp only [step, ↓reduceIte, Option.some.injEq] at second
    subst s' update
    exact ⟨_, _, here, (incrCell_eq _ _ _).symm⟩
  | closer acts moved => cases acts

theorem hSet_keeps_fields (store : Store) (key : String) (field value : Text) (other : String)
    (g : Text) (present : (hGet store other g).isSome) :
    (hGet (RedisCache.hSet store key field value) other g).isSome := by
  unfold hGet hGetAll RedisCache.hSet at *
  by_cases same : other = key
  · subst same
    rw [KeyedFold.find_upsert_self, Option.getD_some, KeyedFold.find_upsert]
    split
    · rfl
    · exact present
  · rw [KeyedFold.find_upsert_other _ _ same]
    exact present

/- The delete meets the claim exactly when there is nothing to delete: the keys of the
   two candles differ. -/
theorem delete_iff {cfg : WSConfig} {tf : String} {secs : ℤ} (length : 0 < secs) (b : Batch)
    (store : Store) (ok : Bool) :
    (∀ key, hGetAll (if ok then RedisCache.delAggKey store (cfg.redisKeyFn tf b.label) else store) key =
      if key = closedKey cfg tf b secs then [] else hGetAll store key) ↔
    hGetAll store (closedKey cfg tf b secs) = [] ∧
      (ok = true → hGetAll store (cfg.redisKeyFn tf b.label) = []) := by
  have differ : closedKey cfg tf b secs ≠ cfg.redisKeyFn tf b.label := by
    intro same
    have := redisAggKey_injective same
    omega
  cases ok with
  | false =>
    simp only [Bool.false_eq_true, ↓reduceIte, false_implies, and_true]
    constructor
    · intro each
      simpa using each (closedKey cfg tf b secs)
    · intro empty key
      split
      · rename_i same
        rw [same, empty]
      · rfl
  | true =>
    simp only [↓reduceIte, hGetAll_delAggKey, true_implies]
    constructor
    · intro each
      have closed := each (closedKey cfg tf b secs)
      have boundary := each (cfg.redisKeyFn tf b.label)
      simp only [differ, ↓reduceIte] at closed
      simp only [differ.symm, ↓reduceIte] at boundary
      exact ⟨closed, boundary.symm⟩
    · intro empty key
      by_cases closed : key = closedKey cfg tf b secs
      · rw [closed, if_neg differ, if_pos rfl, empty.1]
      · rw [if_neg closed]
        split
        · rename_i same
          rw [same, empty.2]
        · rfl

theorem step_iff {s s' : Live} {e : Event} (taken : step s e = some s') :
    DeletesClosedCandle s e s' ↔ NothingLive s e := by
  have store := step_store taken
  cases e with
  | delAggKey i ok =>
    simp only [DeletesClosedCandle, NothingLive]
    cases here : (s.lane i).closer with
    | deleting b cached =>
      simp only [Live.storeAfterDel, here] at store
      rw [store]
      apply forall_congr'
      intro secs
      apply forall_congr'
      intro known
      exact delete_iff (tfSeconds_pos known) b s.store ok
    | _ => exact Iff.rfl
  | hSet ok =>
    obtain ⟨key, field, value, written⟩ := store
    refine iff_of_true ?_ trivial
    intro other g present
    rw [written]
    split
    · exact hSet_keeps_fields s.store key field value other g present
    · exact present
  | advance | message | processTrade | fillGap | gapTrade | incrCell | arm | flush | batchInsert
    | setLastCandle | notify =>
    refine iff_of_true ?_ trivial
    intro other g present
    rw [store]
    exact present

theorem closed_of_records {l l' : Lane} {label : ℤ} (closed : Closed l' label)
    (records : ∀ record ∈ l'.closes, record.rows ≠ [] → record ∈ l.closes)
    (elsewhere : ∀ b cached, l'.closer ≠ .notifying b cached) : Closed l label := by
  rcases closed with written | past
  · obtain ⟨record, member, row, has, same⟩ := written
    exact .inl ⟨record, records record member (List.ne_nil_of_mem has), row, has, same⟩
  · obtain ⟨b, cached, here, _⟩ := past
    exact absurd here (elsewhere b cached)

theorem records_append {records : List CloseRecord} {last : CloseRecord} (empty : last.rows = []) :
    ∀ record ∈ records ++ [last], record.rows ≠ [] → record ∈ records := by
  intro record member some
  rcases List.mem_append.mp member with old | new
  · exact old
  · rw [List.mem_singleton.mp new] at some
    exact absurd empty some

theorem laneStep_closed {cfg : WSConfig} {l l' : Lane} {e : LaneEvent} {label : ℤ}
    (taken : laneStep cfg l e = some l') (closed : Closed l' label) :
    Closed l label ∨ e = .delAggKey ∧ ∃ b cached, l.closer = .deleting b cached ∧ b.label = label := by
  cases laneStep_moves taken with
  | process t => exact .inl closed
  | incr u => exact .inl closed
  | arm here armed =>
    exact .inl (closed_of_records closed (fun _ member _ => member) (fun b cached => by simp))
  | inserted here =>
    exact .inl (closed_of_records closed (fun _ member _ => member) (fun b cached => by simp))
  | cached ok here =>
    exact .inl (closed_of_records closed (fun _ member _ => member) (fun b cached => by simp))
  | insertFailed here =>
    exact .inl (closed_of_records closed (records_append rfl) (fun b cached => by simp))
  | flush here late =>
    refine .inl (closed_of_records closed ?_ ?_)
    · simp only [Lane.flush]
      split
      · exact records_append rfl
      · exact fun _ member _ => member
    · intro b cached
      simp only [Lane.flush]
      split <;> simp
  | deleted here =>
    rcases closed with written | past
    · exact .inl (.inl written)
    · obtain ⟨b, cached, same, at_label⟩ := past
      cases same
      exact .inr ⟨rfl, _, _, here, at_label⟩
  | notified here =>
    refine .inl ?_
    rcases closed with written | past
    · obtain ⟨record, member, row, has, same⟩ := written
      rcases List.mem_append.mp member with old | new
      · exact .inl ⟨record, old, row, has, same⟩
      · rw [List.mem_singleton.mp new] at has
        obtain ⟨c, _, rfl⟩ := List.mem_map.mp has
        exact .inr ⟨_, _, here, same⟩
    · obtain ⟨b, cached, same, _⟩ := past
      cases same

theorem laneStep_timeframe {cfg : WSConfig} {l l' : Lane} {e : LaneEvent}
    (taken : laneStep cfg l e = some l') : l'.timeframe = l.timeframe := by
  cases laneStep_moves taken <;> rfl

theorem step_closedKey {s s' : Live} {e : Event} (taken : step s e = some s') {key : String}
    (closed : ClosedKey s' key) :
    ClosedKey s key ∨ ∃ i ok b cached, e = .delAggKey i ok ∧ (s.lane i).closer = .deleting b cached ∧
      ∃ secs ∈ tfSeconds (s.lane i).timeframe, key = closedKey s.cfg (s.lane i).timeframe b secs := by
  obtain ⟨i, label, ended, secs, known, rfl⟩ := closed
  obtain ⟨config, moves⟩ := step_lanes taken
  unfold LanesMove at moves
  cases acts : s.target e with
  | none =>
    simp only [acts] at moves
    rw [moves] at ended known
    exact .inl ⟨i, label, ended, secs, known, by rw [config, moves]⟩
  | some target =>
    obtain ⟨j, le⟩ := target
    simp only [acts] at moves
    obtain ⟨l, change, lanes⟩ := moves
    rw [lanes, config]
    rw [lanes] at ended known
    by_cases here : i = j
    · subst here
      rw [Function.update_self] at ended known ⊢
      rw [laneStep_timeframe change] at known ⊢
      rcases laneStep_closed change ended with before | ⟨rfl, b, cached, deleting, rfl⟩
      · exact .inl ⟨i, label, before, secs, known, rfl⟩
      · refine .inr ?_
        cases step_steps taken with
        | deleted ok moved =>
          cases acts
          exact ⟨i, ok, b, cached, rfl, deleting, secs, known, rfl⟩
        | closer turn moved =>
          rw [target_closerTurn turn, Option.some.injEq, Prod.mk.injEq] at acts
          obtain ⟨_, rfl⟩ := acts
          cases e <;> cases turn
        | advance | message | fillGap | hSet => cases acts
        | gapDone here | process here | gapTrade here | incr readOk here update =>
          simp only [Live.target, here, reduceCtorEq, Option.some.injEq, Prod.mk.injEq, and_false] at acts
    · rw [Function.update_of_ne here] at ended known ⊢
      exact .inl ⟨i, label, ended, secs, known, rfl⟩

theorem hGetAll_hSet_self (store : Store) (key : String) (field value : Text) :
    hGetAll (RedisCache.hSet store key field value) key ≠ [] := by
  intro empty
  have written : hGet (RedisCache.hSet store key field value) key field = some value := by
    unfold hGet hGetAll RedisCache.hSet
    rw [KeyedFold.find_upsert_self, Option.getD_some, KeyedFold.find_upsert_self]
  rw [hGet, empty] at written
  cases written

theorem hGetAll_hSet_other (store : Store) {key other : String} (differ : other ≠ key)
    (field value : Text) : hGetAll (RedisCache.hSet store key field value) other = hGetAll store other := by
  unfold hGetAll RedisCache.hSet
  rw [KeyedFold.find_upsert_other _ _ differ]

theorem gone_deleted {s s' : Live} {i : ℕ} {ok : Bool} (gone : Gone s)
    (taken : step s (.delAggKey i ok) = some s')
    (deletes : DeletesClosedCandle s (.delAggKey i ok) s') : Gone s' := by
  intro key closed
  cases step_steps taken with
  | closer acts moved => cases acts
  | deleted _ moved =>
    cases laneStep_moves moved with
    | deleted here =>
      rename_i b cached
      simp only [DeletesClosedCandle, here] at deletes
      rcases step_closedKey taken closed with before | after
      · obtain ⟨j, label, ended, secs, known, rfl⟩ := before
        have empty := gone _ ⟨j, label, ended, secs, known, rfl⟩
        simp only [Live.storeAfterDel, here]
        split
        · rw [hGetAll_delAggKey, empty, ite_self]
        · exact empty
      · obtain ⟨j, _, c, _, same, deleting, secs, known, rfl⟩ := after
        cases same
        rw [here] at deleting
        cases deleting
        rw [deletes secs known, if_pos rfl]

theorem gone_written {s s' : Live} {ok : Bool} (gone : Gone s) (taken : step s (.hSet ok) = some s') :
    Gone s' ↔ NotLate s (.hSet ok) := by
  have same : ∀ key, ClosedKey s' key ↔ ClosedKey s key := by
    intro key
    cases step_steps taken with
    | hSet _ here => exact Iff.rfl
    | closer acts moved => cases acts
  cases step_steps taken with
  | closer acts moved => cases acts
  | hSet _ here =>
    rename_i target _ _
    cases ok with
    | false =>
      refine iff_of_true ?_ trivial
      intro key closed
      exact gone key ((same key).mp closed)
    | true =>
      simp only [NotLate, here]
      constructor
      · intro after closed
        exact hGetAll_hSet_self _ _ _ _ (after _ ((same _).mpr closed))
      · intro elsewhere key closed
        have before := (same key).mp closed
        have differ : key ≠ target := by
          intro at_target
          rw [at_target] at before
          exact elsewhere before
        simp only [↓reduceIte]
        rw [hGetAll_hSet_other _ differ]
        exact gone key before

theorem gone_kept {s s' : Live} {e : Event} (gone : Gone s) (taken : step s e = some s')
    (store : s'.store = s.store) (other : ∀ i ok, e ≠ .delAggKey i ok) : Gone s' := by
  intro key closed
  rw [store]
  rcases step_closedKey taken closed with before | ⟨i, ok, _, _, same, _⟩
  · exact gone key before
  · exact absurd same (other i ok)

/- One step: the delete is right when there is nothing to delete, and the closed candles
   stay without a hash when no write comes after their close. -/
theorem gone_step_iff {s s' : Live} {e : Event} (gone : Gone s) (taken : step s e = some s') :
    DeletesClosedCandle s e s' ∧ Gone s' ↔ NothingLive s e ∧ NotLate s e := by
  rw [step_iff taken]
  apply and_congr_right
  intro nothing
  cases e with
  | delAggKey i ok => exact iff_of_true (gone_deleted gone taken ((step_iff taken).mpr nothing)) trivial
  | hSet ok => exact gone_written gone taken
  | advance | message | processTrade | fillGap | gapTrade | incrCell | arm | flush | batchInsert
    | setLastCandle | notify =>
    exact iff_of_true (gone_kept gone taken (step_store taken) (fun _ _ => nofun)) trivial

theorem start_gone (cfg : WSConfig) (timeframes : List String) (onClose : Bool) (clock : ℕ)
    (store : Store) : Gone (start cfg timeframes onClose clock store) := by
  intro key closed
  obtain ⟨i, label, written | past, _⟩ := closed
  · obtain ⟨record, member, _⟩ := written
    cases member
  · obtain ⟨b, cached, here, _⟩ := past
    cases here

theorem close_deletes_own_hash_iff (cfg : WSConfig) (timeframes : List String) (onClose : Bool)
    (clock : ℕ) (store : Store) (events : List Event) :
    EachStep step (fun s e s' => DeletesClosedCandle s e s' ∧ Gone s')
        (start cfg timeframes onClose clock store) events ↔
      Guarded step (fun s e => NothingLive s e ∧ NotLate s e)
        (start cfg timeframes onClose clock store) events := by
  apply eachStep_iff_guarded Gone _ _ (start_gone cfg timeframes onClose clock store)
  · intro s e s' gone meets taken
    exact ((gone_step_iff gone taken).mpr meets).2
  · intro s e s' gone taken
    exact gone_step_iff gone taken

/-- The close at 01:00 leaves the hash of 00:00, which holds the closed candle's trade. -/
theorem closed_hash_remains :
    ¬ EachStep step (fun s e s' => DeletesClosedCandle s e s' ∧ Gone s')
      (start sampleConfig ["1m"] true 30000 [])
      [.message (sampleTrade 1 30000), .processTrade, .incrCell true, .hSet true, .arm 0,
        .advance 30200, .flush 0, .batchInsert 0 true, .setLastCandle 0 true, .delAggKey 0 true] := by
  intro each
  have reached : ((run step (start sampleConfig ["1m"] true 30000 [])
      [.message (sampleTrade 1 30000), .processTrade, .incrCell true, .hSet true, .arm 0,
        .advance 30200, .flush 0, .batchInsert 0 true, .setLastCandle 0 true]).bind fun s =>
      (step s (.delAggKey 0 true)).map fun s' => ((s.lane 0).closer, (s.lane 0).timeframe,
        (hGetAll s'.store (s.cfg.redisKeyFn "1m" 0)).length)) =
      some (.deleting ⟨60, [⟨100, 1, 0⟩], [sampleTrade 1 30000]⟩
        (some ⟨60, 100, 100, 100, 205 / 2, 1, -1, [⟨100, 1, 0⟩]⟩), "1m", 1) := by
    decide +kernel
  obtain ⟨s, reach, deleted⟩ := Option.bind_eq_some_iff.mp reached
  obtain ⟨s', last, left⟩ := Option.map_eq_some_iff.mp deleted
  simp only [Prod.mk.injEq] at left
  obtain ⟨closer, timeframe, fields⟩ := left
  have effect := (eachStep_last each reach last).1
  simp only [DeletesClosedCandle, closer, timeframe] at effect
  have emptied : hGetAll s'.store (s.cfg.redisKeyFn "1m" 0) = [] := by
    simpa only [closedKey, sub_self, ↓reduceIte] using effect 60 (by decide) (s.cfg.redisKeyFn "1m" 0)
  rw [emptied] at fields
  cases fields

end LiveHashes
