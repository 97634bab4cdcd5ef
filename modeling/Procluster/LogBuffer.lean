import Procluster.Library.CyclicWindow

/-!
Package admin: the ring buffer behind the log page. Indices are Go's ints, unbounded
here; an index outside the buffer, a remainder by zero and a slice of negative length
are panics, written none. Each call holds the buffer's lock from its start to its end.
-/
namespace LogBuffer
open CyclicWindow

structure RingBuffer where
  buf : List String
  size : ℤ
  start : ℤ
  count : ℤ
  deriving DecidableEq

/-- The % of Go truncates towards zero and panics on a zero divisor. -/
def remainder (a b : ℤ) : Option ℤ := if b = 0 then none else some (a.tmod b)

def InBounds (buf : List String) (idx : ℤ) : Prop := 0 ≤ idx ∧ idx < buf.length

instance (buf : List String) (idx : ℤ) : Decidable (InBounds buf idx) := inferInstanceAs (Decidable (_ ∧ _))

def setAt (buf : List String) (idx : ℤ) (s : String) : Option (List String) :=
  if InBounds buf idx then some (buf.set idx.toNat s) else none

def getAt (buf : List String) (idx : ℤ) : Option String :=
  if InBounds buf idx then buf[idx.toNat]? else none

def newRingBuffer (size : ℤ) : Option RingBuffer :=
  if size < 0 then none else some ⟨List.replicate size.toNat "", size, 0, 0⟩

def writeIndex (rb : RingBuffer) : Option ℤ := remainder (rb.start + rb.count) rb.size

def write (rb : RingBuffer) (s : String) : Option RingBuffer := do
  let idx ← writeIndex rb
  let buf ← setAt rb.buf idx s
  if rb.count < rb.size then return { rb with buf := buf, count := rb.count + 1 }
  else
    let start ← remainder (rb.start + 1) rb.size
    return { rb with buf := buf, start := start }

def readIndex (rb : RingBuffer) (n i : ℤ) : Option ℤ := remainder (rb.start + rb.count - n + i) rb.size

def lastN (rb : RingBuffer) (n : ℤ) : Option (List String) :=
  let n := if rb.count < n then rb.count else n
  if n < 0 then none
  else (List.range n.toNat).mapM fun i : ℕ => do
    let idx ← readIndex rb n i
    getAt rb.buf idx

def written (size : ℤ) (messages : List String) : Option RingBuffer := do
  let rb ← newRingBuffer size
  messages.foldlM write rb

/-- What the buffer is for: LastN answers the tail of all writes, and no index that Write
    or LastN computes is outside the buffer. -/
structure TailOf (capacity : ℕ) (messages : List String) (rb : RingBuffer) : Prop where
  answer : ∀ n : ℕ, lastN rb n = some (messages.rtake (min n (min capacity messages.length)))
  writeIndex : ∃ idx, writeIndex rb = some idx ∧ InBounds rb.buf idx
  readIndex : ∀ n i : ℕ, i < min n (min capacity messages.length) →
    ∃ idx, readIndex rb (min n (min capacity messages.length) : ℕ) i = some idx ∧ InBounds rb.buf idx

/-- The buffer holds the last messages from its start on. -/
structure Represents (capacity : ℕ) (messages : List String) (rb : RingBuffer) : Prop where
  length : rb.buf.length = capacity
  size : rb.size = capacity
  start : InBounds rb.buf rb.start
  count : rb.count = (messages.rtake capacity).length
  held : Holds rb.buf rb.start.toNat (messages.rtake capacity)

theorem remainder_nat (a : ℕ) {b : ℕ} (nonzero : b ≠ 0) : remainder a b = some ((a % b : ℕ) : ℤ) := by
  rw [remainder, if_neg (by exact_mod_cast nonzero), Int.ofNat_tmod]

theorem inBounds_nat (buf : List String) (idx : ℕ) : InBounds buf idx ↔ idx < buf.length := by
  simp [InBounds]

theorem represents_new {capacity : ℕ} (positive : 1 ≤ capacity) :
    ∃ rb, newRingBuffer capacity = some rb ∧ Represents capacity [] rb := by
  refine ⟨_, if_neg (by omega), ?_⟩
  exact {
    length := by simp
    size := rfl
    start := by simp only [InBounds, List.length_replicate, Int.toNat_natCast]; omega
    count := by simp
    held := by rw [List.rtake_nil]; exact holds_nil _ _ }

section Step
variable {capacity : ℕ} {messages : List String} {rb : RingBuffer}
  (represents : Represents capacity messages rb)
include represents

theorem natural_start : ∃ start : ℕ, rb.start = start ∧ start < capacity ∧
    Holds rb.buf start (messages.rtake capacity) := by
  obtain ⟨nonneg, below⟩ := represents.start
  rw [represents.length] at below
  exact ⟨rb.start.toNat, (Int.toNat_of_nonneg nonneg).symm, by omega, represents.held⟩

theorem writeIndex_eq {start : ℕ} (begins : rb.start = start) (inside : start < capacity) :
    writeIndex rb = some (((start + (messages.rtake capacity).length) % capacity : ℕ) : ℤ) := by
  rw [writeIndex, begins, represents.count, represents.size, ← Int.natCast_add, remainder_nat _ (by omega)]

/- One write: behind the window while there is room, else over its oldest message. -/
theorem represents_write (s : String) :
    ∃ rb', write rb s = some rb' ∧ Represents capacity (messages ++ [s]) rb' := by
  obtain ⟨start, begins, inside, held⟩ := natural_start represents
  have lengths := length_rtake messages capacity
  have position : (start + (messages.rtake capacity).length) % capacity < rb.buf.length := by
    rw [represents.length]
    exact Nat.mod_lt _ (by omega)
  have tail := rtake_append_one messages s (capacity - 1)
  rw [Nat.sub_add_cancel (by omega)] at tail
  have stored : setAt rb.buf (((start + (messages.rtake capacity).length) % capacity : ℕ) : ℤ) s =
      some (rb.buf.set ((start + (messages.rtake capacity).length) % capacity) s) := by
    rw [setAt, if_pos ((inBounds_nat _ _).mpr position), Int.toNat_natCast]
  have room_iff : rb.count < rb.size ↔ messages.length ≤ capacity - 1 := by
    rw [represents.count, represents.size]
    omega
  simp only [write, writeIndex_eq represents begins inside, stored, Option.bind_eq_bind, Option.bind_some]
  by_cases room : messages.length ≤ capacity - 1
  · rw [if_pos room] at tail
    rw [if_pos (room_iff.mpr room)]
    refine ⟨_, rfl, ?_⟩
    have longer := holds_write held (by rw [represents.length]; omega) s
    rw [represents.length] at longer
    exact {
      length := by rw [List.length_set, represents.length]
      size := represents.size
      start := by
        have same := represents.start
        rwa [InBounds, List.length_set]
      count := by
        rw [tail, List.length_append, List.length_singleton, represents.count]
        push_cast
        rfl
      held := by
        rw [tail, begins, Int.toNat_natCast]
        exact longer }
  · rw [if_neg room] at tail
    rw [if_neg (mt room_iff.mp room), begins, represents.size, show (start : ℤ) + 1 = (start + 1 : ℕ) by push_cast; rfl,
      remainder_nat _ (by omega)]
    refine ⟨_, rfl, ?_⟩
    have moved := holds_overwrite held (by rw [represents.length]; omega)
      (List.ne_nil_of_length_pos (by omega)) s
    rw [represents.length] at moved
    have round := holds_mod moved
    rw [List.length_set, represents.length] at round
    exact {
      length := by rw [List.length_set, represents.length]
      size := rfl
      start := by
        rw [inBounds_nat, List.length_set, represents.length]
        exact Nat.mod_lt _ (by omega)
      count := by
        rw [tail, List.length_append, List.length_drop, List.length_singleton, represents.count]
        omega
      held := by
        rw [tail, Int.toNat_natCast]
        exact round }

theorem readIndex_eq {start m : ℕ} (begins : rb.start = start) (inside : start < capacity)
    (few : m ≤ (messages.rtake capacity).length) (i : ℕ) : readIndex rb m i =
      some (((start + ((messages.rtake capacity).length - m) + i) % capacity : ℕ) : ℤ) := by
  have sum : rb.start + rb.count - m + i =
      ((start + ((messages.rtake capacity).length - m) + i : ℕ) : ℤ) := by
    rw [begins, represents.count]
    omega
  rw [readIndex, sum, represents.size, remainder_nat _ (by omega)]

theorem getAt_eq (position : ℕ) (below : position < capacity) :
    getAt rb.buf (position : ℤ) = rb.buf[position]? := by
  rw [getAt, if_pos ((inBounds_nat _ _).mpr (by rw [represents.length]; exact below)), Int.toNat_natCast]

theorem lastN_eq (n : ℕ) : lastN rb n = some (messages.rtake (min n (min capacity messages.length))) := by
  obtain ⟨start, begins, inside, held⟩ := natural_start represents
  have lengths := length_rtake messages capacity
  have taken : (if rb.count < n then rb.count else (n : ℤ)) = (min n (min capacity messages.length) : ℕ) := by
    rw [represents.count]
    split_ifs <;> omega
  have few : min n (min capacity messages.length) ≤ (messages.rtake capacity).length := by omega
  simp only [lastN, taken]
  generalize min n (min capacity messages.length) = m at few
  have tail : messages.rtake m = (messages.rtake capacity).drop ((messages.rtake capacity).length - m) := by
    rw [← List.rtake, rtake_rtake, min_eq_left (show m ≤ capacity by omega)]
  have loop := read_window (holds_drop held ((messages.rtake capacity).length - m))
  rw [← tail, length_rtake messages m, min_eq_left (show m ≤ messages.length by omega), represents.length] at loop
  have turn (i : ℕ) : (readIndex rb m i).bind (getAt rb.buf) =
      rb.buf[(start + ((messages.rtake capacity).length - m) + i) % capacity]? := by
    rw [readIndex_eq represents begins inside few]
    exact getAt_eq represents _ (Nat.mod_lt _ (by omega))
  rw [if_neg (by omega), Int.toNat_natCast]
  exact (congrArg (List.mapM · (List.range m)) (funext turn)).trans loop

theorem tail_of_represents : TailOf capacity messages rb := by
  obtain ⟨start, begins, inside, -⟩ := natural_start represents
  have lengths := length_rtake messages capacity
  have bounds : ∀ position, InBounds rb.buf ((position % capacity : ℕ) : ℤ) := by
    intro position
    rw [inBounds_nat, represents.length]
    exact Nat.mod_lt _ (by omega)
  exact {
    answer := lastN_eq represents
    writeIndex := ⟨_, writeIndex_eq represents begins inside, bounds _⟩
    readIndex := by
      intro n i _
      exact ⟨_, readIndex_eq represents begins inside (by omega) i, bounds _⟩ }

end Step

theorem represents_written {capacity : ℕ} (positive : 1 ≤ capacity) (messages : List String) :
    ∃ rb, written capacity messages = some rb ∧ Represents capacity messages rb := by
  obtain ⟨fresh, made, represents⟩ := represents_new positive
  induction messages using List.reverseRecOn with
  | nil => exact ⟨fresh, by rw [written, made]; rfl, represents⟩
  | append_singleton messages s ih =>
    obtain ⟨rb, reached, held⟩ := ih
    obtain ⟨rb', done, next⟩ := represents_write held s
    refine ⟨rb', ?_, next⟩
    rw [written, made] at reached ⊢
    change messages.foldlM write fresh = some rb at reached
    change (messages ++ [s]).foldlM write fresh = some rb'
    rw [List.foldlM_append, reached]
    exact (Option.bind_some ..).trans (by simp [done])

/-- The log ring buffer is the tail of its history, for every capacity and all writes. -/
theorem written_tail {capacity : ℕ} (positive : 1 ≤ capacity) (messages : List String) :
    ∃ rb, written capacity messages = some rb ∧ TailOf capacity messages rb := by
  obtain ⟨rb, reached, represents⟩ := represents_written positive messages
  exact ⟨rb, reached, tail_of_represents represents⟩

/- A buffer of three that has begun its second round. -/
theorem second_round_tail : ∃ rb, written 3 ["a", "b", "c", "d"] = some rb ∧ TailOf 3 ["a", "b", "c", "d"] rb :=
  written_tail (by decide : 1 ≤ 3) ["a", "b", "c", "d"]

example : (written 3 ["a", "b", "c", "d"]).bind (lastN · 2) = some ["c", "d"] := by decide

end LogBuffer
