import Mathlib.Data.List.DropRight
import Mathlib.Data.Nat.ModEq

/- A list read cyclically: a window begins at some position and goes on at the front
   where it reaches the end. Writing behind the window makes it longer, moving its
   start makes it shorter. -/
namespace CyclicWindow
universe u
variable {Item : Type u}

/-- The items stand in the buffer from first on, round the end. -/
def Holds (buf : List Item) (first : ℕ) (items : List Item) : Prop :=
  ∀ i x, items[i]? = some x → buf[(first + i) % buf.length]? = some x

theorem holds_nil (buf : List Item) (first : ℕ) : Holds buf first [] := by
  intro i x found
  simp at found

theorem holds_drop {buf : List Item} {first : ℕ} {items : List Item} (held : Holds buf first items)
    (k : ℕ) : Holds buf (first + k) (items.drop k) := by
  intro i x found
  rw [List.getElem?_drop] at found
  rw [Nat.add_assoc]
  exact held (k + i) x found

theorem holds_mod {buf : List Item} {first : ℕ} {items : List Item} (held : Holds buf first items) :
    Holds buf (first % buf.length) items := by
  intro i x found
  rw [Nat.mod_add_mod]
  exact held i x found

theorem positions_differ {size first i j : ℕ} (before : i < j) (round : j < i + size) :
    (first + i) % size ≠ (first + j) % size := by
  intro same
  have offsets : i ≡ j [MOD size] := Nat.ModEq.add_left_cancel' first same
  have whole := Nat.le_of_dvd (by omega) ((Nat.modEq_iff_dvd' before.le).mp offsets)
  omega

theorem holds_write {buf : List Item} {first : ℕ} {items : List Item} (held : Holds buf first items)
    (room : items.length < buf.length) (x : Item) :
    Holds (buf.set ((first + items.length) % buf.length) x) first (items ++ [x]) := by
  intro i y found
  rw [List.length_set]
  have some_buf : 0 < buf.length := by omega
  rcases lt_trichotomy i items.length with inside | last | outside
  · rw [List.getElem?_append_left inside] at found
    rw [List.getElem?_set_ne (positions_differ inside (by omega)).symm]
    exact held i y found
  · subst last
    rw [List.getElem?_concat_length] at found
    rw [List.getElem?_set_self (Nat.mod_lt _ some_buf), found]
  · rw [List.getElem?_eq_none (by rw [List.length_append, List.length_singleton]; omega)] at found
    cases found

theorem holds_overwrite {buf : List Item} {first : ℕ} {items : List Item} (held : Holds buf first items)
    (full : items.length = buf.length) (some_item : items ≠ []) (x : Item) :
    Holds (buf.set ((first + items.length) % buf.length) x) (first + 1) (items.drop 1 ++ [x]) := by
  have positive := List.length_pos_of_ne_nil some_item
  have shorter : (items.drop 1).length + 1 = items.length := by
    rw [List.length_drop]
    omega
  have written := holds_write (holds_drop held 1) (by omega) x
  rwa [show first + 1 + (items.drop 1).length = first + items.length by omega] at written

theorem read_window {buf : List Item} {first : ℕ} {items : List Item} (held : Holds buf first items) :
    (List.range items.length).mapM (fun i => buf[(first + i) % buf.length]?) = some items := by
  induction items generalizing first with
  | nil => rfl
  | cons x rest ih =>
    have here : buf[(first + 0) % buf.length]? = some x := held 0 x rfl
    have later := ih (holds_drop held 1)
    rw [List.length_cons, List.range_succ_eq_map, List.mapM_cons, here, List.mapM_map]
    simp only [Option.bind_eq_bind, Option.bind_some, Function.comp_def, Nat.succ_eq_add_one, ← Nat.add_assoc,
      Nat.add_right_comm first _ 1, later]
    rfl

theorem rtake_rtake (items : List Item) (m n : ℕ) : (items.rtake m).rtake n = items.rtake (min n m) := by
  unfold List.rtake
  rw [List.drop_drop, List.length_drop]
  congr 1
  omega

theorem length_rtake (items : List Item) (n : ℕ) : (items.rtake n).length = min n items.length := by
  rw [List.rtake, List.length_drop]
  omega

theorem rtake_append_one (items : List Item) (x : Item) (n : ℕ) : (items ++ [x]).rtake (n + 1) =
    if items.length ≤ n then items.rtake (n + 1) ++ [x] else (items.rtake (n + 1)).drop 1 ++ [x] := by
  rw [List.rtake_concat_succ]
  split_ifs with short
  · rw [List.rtake, List.rtake, show items.length - n = 0 by omega, show items.length - (n + 1) = 0 by omega]
  · rw [List.rtake, List.rtake, List.drop_drop, show items.length - (n + 1) + 1 = items.length - n by omega]

end CyclicWindow
