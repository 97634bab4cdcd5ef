import Procluster.RedisCache
import Procluster.Library.NewestFirst
import Procluster.Library.ScoredSet

/-!
Package cache: the last-candles cache of one key, under any sequence of SetLastCandle.
A member of the sorted set is the JSON text of a candle, so a time that is written again
with other contents gets a second member. Redis answers every call, and the float64 of a
time is the time.
-/
namespace LastCandles
open Aggregate ScoredSet NewestFirst
open RedisCache (Text)

/-- encoding/json on a cachedCandle. None is an error of Marshal; what it prints,
    Unmarshal reads back. -/
structure CandleCodec where
  marshal : ClusterCandle → Option Text
  unmarshal : Text → Option ClusterCandle
  reads : ∀ candle text, marshal candle = some text → unmarshal text = some candle

abbrev LastSet := SortedSet ℤ Text

def maxLastCandles : ℕ := 700

def setLastCandle (codec : CandleCodec) (set : LastSet) (candle : ClusterCandle) : LastSet :=
  match codec.marshal candle with
  | none => set
  | some text => zRemRangeByRank (zAdd set candle.time text) 0 (-(maxLastCandles + 1 : ℕ))

def readEntry (codec : CandleCodec) (e : ℤ ×ₗ Text) : Option ClusterCandle := codec.unmarshal (ofLex e).2

def getLastCandles (codec : CandleCodec) (set : LastSet) (limit : ℕ) : List ClusterCandle :=
  (zRevRange set limit).filterMap (readEntry codec)

def cacheAfter (codec : CandleCodec) (calls : List ClusterCandle) : LastSet :=
  calls.foldl (setLastCandle codec) .empty

def written (codec : CandleCodec) (calls : List ClusterCandle) : List ClusterCandle :=
  calls.filter fun c => (codec.marshal c).isSome

def lastWritten (codec : CandleCodec) (calls : List ClusterCandle) (time : ℤ) : Option ClusterCandle :=
  (written codec calls).reverse.find? fun c => c.time = time

def writtenTimes (codec : CandleCodec) (calls : List ClusterCandle) : List ℤ :=
  (written codec calls).map ClusterCandle.time

def newestTimes (codec : CandleCodec) (calls : List ClusterCandle) : List ℤ :=
  (newest (writtenTimes codec calls) maxLastCandles).reverse

/-- The cache answers the newest times, each once with its last contents. -/
def MapOfNewest (codec : CandleCodec) (calls : List ClusterCandle) : Prop :=
  ∀ limit, 1 ≤ limit → (getLastCandles codec (cacheAfter codec calls) limit).map some =
    ((newestTimes codec calls).take limit).map (lastWritten codec calls)

def textOf (codec : CandleCodec) (candle : ClusterCandle) : Text := (codec.marshal candle).getD []

def newerTimes (codec : CandleCodec) (calls : List ClusterCandle) (time : ℤ) : ℕ :=
  newer (writtenTimes codec calls).toFinset time

/-- A time was written with its last contents only, unless 699 newer times were written:
    with exactly 699 no contents has a text above the last one's. -/
def RewritesHidden (codec : CandleCodec) (calls : List ClusterCandle) : Prop :=
  ∀ c ∈ written codec calls, ∀ last, lastWritten codec calls c.time = some last →
    (newerTimes codec calls c.time < 699 → c = last) ∧
    (newerTimes codec calls c.time = 699 → textOf codec c ≤ textOf codec last)

section Written
variable {codec : CandleCodec} {calls : List ClusterCandle}

theorem marshal_written {c : ClusterCandle} (member : c ∈ written codec calls) :
    codec.marshal c = some (textOf codec c) := by
  obtain ⟨text, printed⟩ := Option.isSome_iff_exists.mp (List.mem_filter.mp member).2
  simp only [textOf, printed, Option.getD_some]

theorem unmarshal_written {c : ClusterCandle} (member : c ∈ written codec calls) :
    codec.unmarshal (textOf codec c) = some c := codec.reads c _ (marshal_written member)

theorem text_injective {c d : ClusterCandle} (hc : c ∈ written codec calls) (hd : d ∈ written codec calls)
    (same : textOf codec c = textOf codec d) : c = d := by
  have read := unmarshal_written hc
  rw [same, unmarshal_written hd, Option.some.injEq] at read
  exact read.symm

theorem lastWritten_spec {time : ℤ} {last : ClusterCandle} (found : lastWritten codec calls time = some last) :
    last ∈ written codec calls ∧ last.time = time :=
  ⟨List.mem_reverse.mp (List.mem_of_find?_eq_some found), by simpa using List.find?_some found⟩

theorem lastWritten_exists {time : ℤ} (present : time ∈ writtenTimes codec calls) :
    ∃ last, lastWritten codec calls time = some last := by
  obtain ⟨c, member, same⟩ := List.mem_map.mp present
  apply Option.isSome_iff_exists.mp
  rw [lastWritten, List.find?_isSome]
  exact ⟨c, List.mem_reverse.mpr member, by simpa using same⟩

def entryOf (codec : CandleCodec) (c : ClusterCandle) : ℤ ×ₗ Text := toLex (c.time, textOf codec c)

theorem cacheAfter_eq (codec : CandleCodec) (calls : List ClusterCandle) :
    cacheAfter codec calls = ((written codec calls).map (entryOf codec)).foldl
      (fun set e => addCapped maxLastCandles set (ofLex e).1 (ofLex e).2) .empty := by
  induction calls using List.reverseRecOn with
  | nil => rfl
  | append_singleton calls c ih =>
    rw [cacheAfter, List.foldl_append, List.foldl_cons, List.foldl_nil, ← cacheAfter, ih]
    cases printed : codec.marshal c with
    | none => simp [setLastCandle, written, printed]
    | some text => simp [setLastCandle, written, printed, addCapped, entryOf, textOf]

def writtenEntries (codec : CandleCodec) (calls : List ClusterCandle) : Finset (ℤ ×ₗ Text) :=
  ((written codec calls).map (entryOf codec)).toFinset

theorem mem_writtenEntries {e : ℤ ×ₗ Text} :
    e ∈ writtenEntries codec calls ↔ ∃ c ∈ written codec calls, entryOf codec c = e := by
  rw [writtenEntries, List.mem_toFinset, List.mem_map]

theorem mem_entries (codec : CandleCodec) (calls : List ClusterCandle) (e : ℤ ×ₗ Text) :
    e ∈ (cacheAfter codec calls).entries ↔ e ∈ top maxLastCandles (writtenEntries codec calls) := by
  rw [cacheAfter_eq]
  refine entries_of_writes (by decide) ?_ (fun e => List.mem_toFinset) e
  intro e he f hf same
  obtain ⟨c, hc, rfl⟩ := List.mem_map.mp he
  obtain ⟨d, hd, rfl⟩ := List.mem_map.mp hf
  rw [text_injective hc hd same]

theorem keysOf_entries (codec : CandleCodec) (calls : List ClusterCandle) :
    keysOf (writtenEntries codec calls) = (writtenTimes codec calls).toFinset := by
  ext time
  rw [mem_keysOf, List.mem_toFinset, writtenTimes, List.mem_map]
  constructor
  · rintro ⟨e, member, rfl⟩
    obtain ⟨c, hc, rfl⟩ := mem_writtenEntries.mp member
    exact ⟨c, hc, rfl⟩
  · rintro ⟨c, hc, rfl⟩
    exact ⟨_, mem_writtenEntries.mpr ⟨c, hc, rfl⟩, rfl⟩

theorem mem_newest_top (times : List ℤ) (time : ℤ) :
    time ∈ newest times maxLastCandles ↔ time ∈ top maxLastCandles times.toFinset := by
  have kept : newest times maxLastCandles = TailWindow.keepLast maxLastCandles (ascending times) := by
    rw [TailWindow.keepLast, if_neg (by decide), newest]
  have same : (ascending times).toFinset = times.toFinset := by
    ext t
    simp only [List.mem_toFinset, mem_ascending]
  rw [kept, mem_keepLast_top (ascending_strict times) (by decide), same]

def lastText (codec : CandleCodec) (calls : List ClusterCandle) (time : ℤ) : Text :=
  ((lastWritten codec calls time).map (textOf codec)).getD []

theorem lastText_entry {time : ℤ} {last : ClusterCandle} (found : lastWritten codec calls time = some last) :
    toLex (time, lastText codec calls time) = entryOf codec last := by
  simp only [lastText, found, Option.map_some, Option.getD_some, entryOf, (lastWritten_spec found).2]

theorem one_entry_iff (codec : CandleCodec) (calls : List ClusterCandle) :
    OneForEachKey maxLastCandles (writtenEntries codec calls) (lastText codec calls) ↔
      (cacheAfter codec calls).entries = (newest (writtenTimes codec calls) maxLastCandles).map
        fun time => toLex (time, lastText codec calls time) := by
  have expected : ((newest (writtenTimes codec calls) maxLastCandles).map
      fun time => toLex (time, lastText codec calls time)).Pairwise (· < ·) := by
    rw [List.pairwise_map]
    exact (newest_ascending _ _).imp fun less => lex_lt.mpr (.inl less)
  have listed (e : ℤ ×ₗ Text) : e ∈ (newest (writtenTimes codec calls) maxLastCandles).map
      (fun time => toLex (time, lastText codec calls time)) ↔
      (ofLex e).1 ∈ top maxLastCandles (writtenTimes codec calls).toFinset ∧
        (ofLex e).2 = lastText codec calls (ofLex e).1 := by
    rw [List.mem_map, ← mem_newest_top]
    constructor
    · rintro ⟨time, recent, rfl⟩
      exact ⟨recent, rfl⟩
    · rintro ⟨recent, content⟩
      exact ⟨_, recent, lex_ext rfl content.symm⟩
  unfold OneForEachKey
  rw [keysOf_entries]
  simp only [← mem_entries, ← listed]
  constructor
  · exact ascending_unique (cacheAfter codec calls).ascending expected
  · intro same e
    rw [same]

theorem newest_written {time : ℤ} (recent : time ∈ newest (writtenTimes codec calls) maxLastCandles) :
    ∃ last, lastWritten codec calls time = some last := lastWritten_exists (mem_of_newest recent)

theorem entry_read {e : ℤ ×ₗ Text} (held : e ∈ (cacheAfter codec calls).entries) :
    ∃ c, readEntry codec e = some c ∧ entryOf codec c = e := by
  obtain ⟨c, member, rfl⟩ := mem_writtenEntries.mp (mem_top.mp ((mem_entries codec calls e).mp held)).1
  exact ⟨c, unmarshal_written member, rfl⟩

theorem entries_of_candles {entries : List (ℤ ×ₗ Text)}
    (each : ∀ e ∈ entries, ∃ c, readEntry codec e = some c ∧ entryOf codec c = e) :
    (entries.filterMap (readEntry codec)).map (entryOf codec) = entries := by
  induction entries with
  | nil => rfl
  | cons e entries ih =>
    obtain ⟨c, read, made⟩ := each e List.mem_cons_self
    rw [List.filterMap_cons_some read, List.map_cons, made, ih fun f hf => each f (List.mem_cons_of_mem _ hf)]

theorem candles_of_times {times : List ℤ} (each : ∀ time ∈ times, ∃ last, lastWritten codec calls time = some last) :
    ((times.map fun time => toLex (time, lastText codec calls time)).filterMap (readEntry codec)).map some =
      times.map (lastWritten codec calls) := by
  induction times with
  | nil => rfl
  | cons time times ih =>
    obtain ⟨last, found⟩ := each time List.mem_cons_self
    have read : readEntry codec (toLex (time, lastText codec calls time)) = some last := by
      simp only [readEntry, ofLex_toLex, lastText, found, Option.map_some, Option.getD_some]
      exact unmarshal_written (lastWritten_spec found).1
    rw [List.map_cons, List.filterMap_cons_some read, List.map_cons, List.map_cons, found,
      ih fun t ht => each t (List.mem_cons_of_mem _ ht)]

/- The answers are right for every limit exactly if the entries are those of the last
   contents: a limit that asks for all shows every entry. -/
theorem mapOfNewest_entries (codec : CandleCodec) (calls : List ClusterCandle) :
    MapOfNewest codec calls ↔ (cacheAfter codec calls).entries =
      (newest (writtenTimes codec calls) maxLastCandles).map
        fun time => toLex (time, lastText codec calls time) := by
  constructor
  · intro answers
    have whole := answers ((cacheAfter codec calls).entries.length +
      (newestTimes codec calls).length + 1) (by omega)
    simp only [getLastCandles, zRevRange] at whole
    rw [List.take_of_length_le (by rw [List.length_reverse]; omega), List.take_of_length_le (by omega)] at whole
    have entries := congrArg (List.map fun c : Option ClusterCandle => (c.map (entryOf codec)).getD (toLex (0, []))) whole
    simp only [List.map_map, Function.comp_def, Option.map_some, Option.getD_some] at entries
    rw [entries_of_candles fun e he => entry_read (List.mem_reverse.mp he), newestTimes, List.map_reverse] at entries
    rw [List.reverse_injective entries]
    apply List.map_congr_left
    intro time recent
    obtain ⟨last, found⟩ := newest_written recent
    rw [lastText_entry found, found, Option.map_some, Option.getD_some]
  · intro entries limit _
    simp only [getLastCandles, zRevRange]
    rw [entries, ← List.map_reverse, ← List.map_take, ← newestTimes]
    apply candles_of_times
    intro time taken
    exact newest_written (List.mem_reverse.mp (List.mem_of_mem_take taken))

theorem othersBelow_iff (codec : CandleCodec) (calls : List ClusterCandle) :
    OthersBelow maxLastCandles (writtenEntries codec calls) (lastText codec calls) ↔
      RewritesHidden codec calls := by
  have content {c last : ClusterCandle} (found : lastWritten codec calls c.time = some last) :
      lastText codec calls c.time = textOf codec last := by
    simp only [lastText, found, Option.map_some, Option.getD_some]
  have inner (time : ℤ) : newer (keysOf (writtenEntries codec calls)) time + 1 < maxLastCandles ↔
      newerTimes codec calls time < 699 := by
    rw [keysOf_entries, ← newerTimes, maxLastCandles]
    omega
  have edge (time : ℤ) : newer (keysOf (writtenEntries codec calls)) time + 1 = maxLastCandles ↔
      newerTimes codec calls time = 699 := by
    rw [keysOf_entries, ← newerTimes, maxLastCandles]
    omega
  unfold OthersBelow
  simp only [inner, edge]
  constructor
  · intro below c member last found
    obtain ⟨same, lower⟩ := below _ (mem_writtenEntries.mpr ⟨c, member, rfl⟩)
    simp only [entryOf, ofLex_toLex, content found] at same lower
    exact ⟨fun few => text_injective member (lastWritten_spec found).1 (same few), lower⟩
  · intro hidden e member
    obtain ⟨c, hc, rfl⟩ := mem_writtenEntries.mp member
    obtain ⟨last, found⟩ := lastWritten_exists (List.mem_map_of_mem hc)
    obtain ⟨same, lower⟩ := hidden c hc last found
    simp only [entryOf, ofLex_toLex, content found]
    exact ⟨fun few => congrArg _ (same few), lower⟩

/-- The cache is the map of the newest times exactly if no earlier contents of a time
    can be seen beside its last ones. -/
theorem map_of_newest_iff (codec : CandleCodec) (calls : List ClusterCandle) :
    MapOfNewest codec calls ↔ RewritesHidden codec calls := by
  have chosen : ∀ time ∈ keysOf (writtenEntries codec calls),
      toLex (time, lastText codec calls time) ∈ writtenEntries codec calls := by
    intro time present
    rw [keysOf_entries, List.mem_toFinset] at present
    obtain ⟨last, found⟩ := lastWritten_exists present
    rw [lastText_entry found]
    exact mem_writtenEntries.mpr ⟨last, (lastWritten_spec found).1, rfl⟩
  rw [mapOfNewest_entries, ← one_entry_iff, one_for_each_iff chosen, othersBelow_iff]

end Written

def closedCandle : ClusterCandle := ⟨60, 100, 100, 100, 205 / 2, 3, 1, [⟨100, 1, 2⟩]⟩

def closedText : Text :=
  ("\x7b\"time\":60,\"open\":100,\"high\":100,\"low\":100" ++
    ",\"close\":102.5,\"volume\":3,\"delta\":1" ++
    ",\"cells\":[\x7b\"price\":100,\"bid\":1,\"ask\":2\x7d]\x7d").toList

def closedAgain : ClusterCandle := ⟨60, 100, 100, 100, 205 / 2, 4, 2, [⟨100, 1, 3⟩]⟩

def closedAgainText : Text :=
  ("\x7b\"time\":60,\"open\":100,\"high\":100,\"low\":100" ++
    ",\"close\":102.5,\"volume\":4,\"delta\":2" ++
    ",\"cells\":[\x7b\"price\":100,\"bid\":1,\"ask\":3\x7d]\x7d").toList

def twoCloses : CandleCodec where
  marshal c := if c = closedCandle then some closedText else if c = closedAgain then some closedAgainText else none
  unmarshal text :=
    if text = closedText then some closedCandle else if text = closedAgainText then some closedAgain else none
  reads := by
    have apart : closedAgainText ≠ closedText := by decide +kernel
    intro candle text printed
    split_ifs at printed with first second
    · obtain rfl := Option.some.inj printed
      rw [if_pos rfl, first]
    · obtain rfl := Option.some.inj printed
      rw [if_neg apart, if_pos rfl, second]

/- Both contents of the one time come back. -/
theorem closed_twice_answered_twice : ¬ MapOfNewest twoCloses [closedCandle, closedAgain] := by
  intro answers
  have both := answers 2 (by decide)
  revert both
  decide +kernel

end LastCandles
