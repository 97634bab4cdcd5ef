import Mathlib

/-!
Package ws: the text key of a subscription and its parser. A key that subKey made has
at least three colons, so parseSubKey never slices out of range on it; the subtype
SubKey carries this.
-/
namespace SubKey

/-- The loop of appendU32: one digit into each slot of the buffer, from the right. -/
def appendDigits : ℕ → ℕ → List Char → List Char
  | 0, _, buf => buf
  | slots + 1, n, buf =>
    if n = 0 then buf else appendDigits slots (n / 10) (Nat.digitChar (n % 10) :: buf)

def itoa (n : UInt32) : List Char := if n = 0 then ['0'] else appendDigits 10 n.toNat []

def subKey (market symbol tf : String) (compression : UInt32) : String :=
  market ++ ":" ++ symbol ++ ":" ++ tf ++ ":" ++ String.ofList (itoa compression)

def splitAtLast : List Char → Option (List Char × List Char)
  | [] => none
  | c :: cs =>
    match splitAtLast cs with
    | some (before, after) => some (c :: before, after)
    | none => if c = ':' then some ([], cs) else none

def splitAtFirst : List Char → Option (List Char × List Char)
  | [] => none
  | c :: cs => if c = ':' then some ([], cs) else (splitAtFirst cs).map fun p => (c :: p.1, p.2)

def parseU32 (s : List Char) : UInt32 :=
  s.foldl (fun n c => if '0' ≤ c ∧ c ≤ '9' then n * 10 + UInt32.ofNat (c.toNat - '0'.toNat) else n) 0

structure Parts where
  market : String
  symbol : String
  tf : String
  compression : UInt32
  deriving DecidableEq

/-- The parts of a key; none where a slice starts behind the end of its string. -/
def parseSubKey (key : List Char) : Option Parts :=
  match splitAtLast key with
  | none => some ⟨"", "", "", 0⟩
  | some (rest, compStr) =>
    match splitAtLast rest with
    | none => some ⟨"", "", "", parseU32 compStr⟩
    | some (rest2, tf) =>
      (splitAtFirst rest2).map fun p =>
        ⟨String.ofList p.1, String.ofList p.2, String.ofList tf, parseU32 compStr⟩

theorem splitAtLast_no_colon {cs : List Char} (absent : ':' ∉ cs) : splitAtLast cs = none := by
  induction cs with
  | nil => rfl
  | cons c cs ih =>
    simp only [List.mem_cons, not_or] at absent
    simp [splitAtLast, ih absent.2, Ne.symm absent.1]

theorem splitAtLast_of_colon {cs : List Char} (colon : ':' ∈ cs) :
    ∃ before after, splitAtLast cs = some (before, after) ∧
      before.count ':' + 1 = cs.count ':' := by
  induction cs with
  | nil => cases colon
  | cons c cs ih =>
    by_cases later : ':' ∈ cs
    · obtain ⟨before, after, split, count⟩ := ih later
      refine ⟨c :: before, after, by simp [splitAtLast, split], ?_⟩
      simp only [List.count_cons]
      omega
    · have here : c = ':' := by
        cases List.mem_cons.mp colon with
        | inl same => exact same.symm
        | inr later' => exact absurd later' later
      refine ⟨[], cs, by simp [splitAtLast, splitAtLast_no_colon later, here], ?_⟩
      simp [here, List.count_eq_zero_of_not_mem later]

theorem splitAtFirst_of_colon {cs : List Char} (colon : ':' ∈ cs) :
    (splitAtFirst cs).isSome := by
  induction cs with
  | nil => cases colon
  | cons c cs ih =>
    by_cases here : c = ':'
    · simp [splitAtFirst, here]
    · have later := List.mem_of_ne_of_mem (Ne.symm here) colon
      simpa [splitAtFirst, here] using ih later

theorem parseSubKey_of_colons {key : List Char} (colons : 3 ≤ key.count ':') :
    (parseSubKey key).isSome := by
  obtain ⟨rest, compStr, last, count⟩ :=
    splitAtLast_of_colon (List.count_pos_iff.mp (by omega : 0 < key.count ':'))
  obtain ⟨rest2, tf, second, count2⟩ :=
    splitAtLast_of_colon (List.count_pos_iff.mp (by omega : 0 < rest.count ':'))
  have first := splitAtFirst_of_colon (List.count_pos_iff.mp (by omega : 0 < rest2.count ':'))
  simp only [parseSubKey, last, second, Option.isSome_map, first]

theorem subKey_colons (market symbol tf : String) (compression : UInt32) :
    3 ≤ (subKey market symbol tf compression).toList.count ':' := by
  simp only [subKey, String.toList_append, List.count_append]
  have one : ":".toList.count ':' = 1 := by decide
  omega

theorem splitAtLast_append {after : List Char} (clean : ':' ∉ after) (before : List Char) :
    splitAtLast (before ++ ':' :: after) = some (before, after) := by
  induction before with
  | nil => simp [splitAtLast, splitAtLast_no_colon clean]
  | cons c before ih => simp [splitAtLast, ih]

theorem splitAtFirst_append {before : List Char} (clean : ':' ∉ before) (after : List Char) :
    splitAtFirst (before ++ ':' :: after) = some (before, after) := by
  induction before with
  | nil => simp [splitAtFirst]
  | cons c before ih =>
    simp only [List.mem_cons, not_or] at clean
    simp [splitAtFirst, Ne.symm clean.1, ih clean.2]

def readDigit (n : UInt32) (c : Char) : UInt32 :=
  if '0' ≤ c ∧ c ≤ '9' then n * 10 + UInt32.ofNat (c.toNat - '0'.toNat) else n

theorem readDigit_digitChar (n : ℕ) :
    readDigit (UInt32.ofNat (n / 10)) (Nat.digitChar (n % 10)) = UInt32.ofNat n := by
  have digit : ∀ d < 10, '0' ≤ Nat.digitChar d ∧ Nat.digitChar d ≤ '9' ∧
      (Nat.digitChar d).toNat - '0'.toNat = d := by decide
  obtain ⟨low, high, value⟩ := digit (n % 10) (Nat.mod_lt n (by decide))
  rw [readDigit, if_pos ⟨low, high⟩, value]
  have split : n / 10 * 10 + n % 10 = n := by omega
  rw [← UInt32.toNat_inj]
  simp only [UInt32.toNat_add, UInt32.toNat_mul, UInt32.toNat_ofNat']
  change ((n / 10 % 2 ^ 32 * (10 % 2 ^ 32) % 2 ^ 32 + n % 10 % 2 ^ 32) % 2 ^ 32) = n % 2 ^ 32
  omega

theorem read_appendDigits (slots n : ℕ) (buf : List Char) (fits : n < 10 ^ slots) :
    (appendDigits slots n buf).foldl readDigit 0 = buf.foldl readDigit (UInt32.ofNat n) := by
  induction slots generalizing n buf with
  | zero =>
    have none : n = 0 := by omega
    subst none
    rfl
  | succ slots ih =>
    by_cases zero : n = 0
    · subst zero
      rfl
    · have shorter : n / 10 < 10 ^ slots := by
        rw [pow_succ] at fits
        omega
      rw [appendDigits, if_neg zero, ih _ _ shorter, List.foldl_cons, readDigit_digitChar]

theorem parseU32_itoa (n : UInt32) : parseU32 (itoa n) = n := by
  change (itoa n).foldl readDigit 0 = n
  unfold itoa
  split
  · rename_i zero
    subst zero
    rfl
  · have fits : n.toNat < 10 ^ 10 := n.toNat_lt.trans (by decide)
    rw [read_appendDigits 10 n.toNat [] fits]
    exact UInt32.ofNat_toNat

theorem colon_not_in_appendDigits (slots n : ℕ) (buf : List Char) (clean : ':' ∉ buf) :
    ':' ∉ appendDigits slots n buf := by
  have digit : ∀ d < 10, ':' ≠ Nat.digitChar d := by decide
  induction slots generalizing n buf with
  | zero => exact clean
  | succ slots ih =>
    rw [appendDigits]
    split
    · exact clean
    · apply ih
      rw [List.mem_cons, not_or]
      exact ⟨digit (n % 10) (Nat.mod_lt n (by decide)), clean⟩

theorem colon_not_in_itoa (n : UInt32) : ':' ∉ itoa n := by
  unfold itoa
  split
  · decide
  · exact colon_not_in_appendDigits 10 n.toNat [] (by simp)

theorem toList_subKey (market symbol tf : String) (compression : UInt32) :
    (subKey market symbol tf compression).toList =
      (market.toList ++ ':' :: symbol.toList ++ ':' :: tf.toList) ++ ':' :: itoa compression := by
  simp [subKey]

theorem parseSubKey_subKey {market tf : String} (cleanMarket : ':' ∉ market.toList)
    (cleanTf : ':' ∉ tf.toList) (symbol : String) (compression : UInt32) :
    parseSubKey (subKey market symbol tf compression).toList = some ⟨market, symbol, tf, compression⟩ := by
  rw [parseSubKey, toList_subKey, splitAtLast_append (colon_not_in_itoa compression)]
  dsimp only
  rw [splitAtLast_append cleanTf]
  dsimp only
  rw [splitAtFirst_append cleanMarket, parseU32_itoa]
  simp

end SubKey

/-- A key of the subs map: a text that subKey made. -/
def SubKey : Type :=
  { text : String // ∃ market symbol tf compression, text = SubKey.subKey market symbol tf compression }

namespace SubKey

instance : DecidableEq SubKey := inferInstanceAs (DecidableEq (Subtype _))

def make (market symbol tf : String) (compression : UInt32) : SubKey :=
  ⟨subKey market symbol tf compression, market, symbol, tf, compression, rfl⟩

theorem parse_isSome (key : SubKey) : (parseSubKey key.1.toList).isSome := by
  obtain ⟨text, market, symbol, tf, compression, rfl⟩ := key
  exact parseSubKey_of_colons (subKey_colons market symbol tf compression)

def parse (key : SubKey) : Parts := (parseSubKey key.1.toList).get key.parse_isSome

theorem parse_make {market tf : String} (cleanMarket : ':' ∉ market.toList)
    (cleanTf : ':' ∉ tf.toList) (symbol : String) (compression : UInt32) :
    (make market symbol tf compression).parse = ⟨market, symbol, tf, compression⟩ := by
  have parsed := parseSubKey_subKey cleanMarket cleanTf symbol compression
  unfold parse
  exact Option.get_of_eq_some _ parsed

theorem splitAtLast_some {cs before after : List Char} (split : splitAtLast cs = some (before, after)) :
    cs = before ++ ':' :: after ∧ ':' ∉ after := by
  induction cs generalizing before with
  | nil => cases split
  | cons c cs ih =>
    unfold splitAtLast at split
    cases later : splitAtLast cs with
    | some p =>
      rw [later] at split
      obtain ⟨rfl, rfl⟩ := Prod.mk.inj (Option.some.inj split)
      obtain ⟨text, clean⟩ := ih later
      exact ⟨congrArg (c :: ·) text, clean⟩
    | none =>
      have absent : ':' ∉ cs := by
        intro colon
        obtain ⟨_, _, found, -⟩ := splitAtLast_of_colon colon
        rw [later] at found
        cases found
      rw [later] at split
      obtain ⟨rfl, same⟩ := Option.ite_none_right_eq_some.mp split
      obtain ⟨rfl, rfl⟩ := Prod.mk.inj (Option.some.inj same)
      exact ⟨rfl, absent⟩

theorem splitAtFirst_some {cs before after : List Char}
    (split : splitAtFirst cs = some (before, after)) : cs = before ++ ':' :: after ∧ ':' ∉ before := by
  induction cs generalizing before with
  | nil => cases split
  | cons c cs ih =>
    unfold splitAtFirst at split
    by_cases here : c = ':'
    · rw [if_pos here] at split
      obtain ⟨rfl, rfl⟩ := Prod.mk.inj (Option.some.inj split)
      exact ⟨congrArg (· :: cs) here, List.not_mem_nil⟩
    · rw [if_neg here] at split
      obtain ⟨p, later, same⟩ := Option.map_eq_some_iff.mp split
      obtain ⟨rfl, rfl⟩ := Prod.mk.inj same
      obtain ⟨text, clean⟩ := ih later
      refine ⟨congrArg (c :: ·) text, ?_⟩
      rw [List.mem_cons, not_or]
      exact ⟨Ne.symm here, clean⟩

/- The parts of a key write the key again, so a key has no other parts. -/
theorem parse_text (key : SubKey) :
    key.1 = subKey key.parse.market key.parse.symbol key.parse.tf key.parse.compression ∧
      ':' ∉ key.parse.market.toList ∧ ':' ∉ key.parse.tf.toList := by
  have parsed : parseSubKey key.1.toList = some key.parse := (Option.some_get key.parse_isSome).symm
  obtain ⟨market, symbol, tf, compression, made⟩ := key.2
  generalize key.parse = parts at parsed ⊢
  generalize key.1 = text at parsed made ⊢
  subst made
  rw [parseSubKey, toList_subKey, splitAtLast_append (colon_not_in_itoa compression)] at parsed
  cases second : splitAtLast (market.toList ++ ':' :: symbol.toList ++ ':' :: tf.toList) with
  | none =>
    obtain ⟨_, _, found, -⟩ := splitAtLast_of_colon
      (show ':' ∈ market.toList ++ ':' :: symbol.toList ++ ':' :: tf.toList by simp)
    rw [second] at found
    cases found
  | some p =>
    simp only [second] at parsed
    obtain ⟨q, first, rfl⟩ := Option.map_eq_some_iff.mp parsed
    obtain ⟨rest, cleanTf⟩ := splitAtLast_some second
    obtain ⟨rest2, cleanMarket⟩ := splitAtFirst_some first
    refine ⟨String.toList_injective ?_, by simpa using cleanMarket, by simpa using cleanTf⟩
    simp only [toList_subKey, rest, rest2, parseU32_itoa, String.toList_ofList]

theorem parse_injective : Function.Injective parse := by
  intro key other same
  apply Subtype.ext
  rw [(parse_text key).1, (parse_text other).1, same]

/- A key made with a timeframe without a colon gives its timeframe and compression back,
   and its market and symbol up to the place where they were joined. -/
theorem parse_made {tf : String} (cleanTf : ':' ∉ tf.toList) (market symbol : String)
    (compression : UInt32) :
    let parts := (make market symbol tf compression).parse
    parts.market ++ ":" ++ parts.symbol = market ++ ":" ++ symbol ∧ ':' ∉ parts.market.toList ∧
      parts.tf = tf ∧ parts.compression = compression := by
  intro parts
  obtain ⟨written, cleanMarket, cleanTf'⟩ := parse_text (make market symbol tf compression)
  change subKey market symbol tf compression = subKey parts.market parts.symbol parts.tf parts.compression
    at written
  have lasts := congrArg (fun text : String => splitAtLast text.toList) written
  simp only [toList_subKey, splitAtLast_append (colon_not_in_itoa _), Option.some.injEq,
    Prod.mk.injEq] at lasts
  have rests := congrArg splitAtLast lasts.1
  rw [splitAtLast_append cleanTf, splitAtLast_append cleanTf', Option.some.injEq, Prod.mk.injEq] at rests
  refine ⟨String.toList_injective ?_, cleanMarket, (String.toList_injective rests.2).symm, ?_⟩
  · simpa using rests.1.symm
  · rw [← parseU32_itoa parts.compression, ← lasts.2, parseU32_itoa]

theorem joined_cancel {market market' symbol symbol' : String} (clean : ':' ∉ market.toList)
    (clean' : ':' ∉ market'.toList) (same : market ++ ":" ++ symbol = market' ++ ":" ++ symbol') :
    market = market' ∧ symbol = symbol' := by
  have splits := congrArg (fun text : String => splitAtFirst text.toList) same
  have text : ∀ a b : String, (a ++ ":" ++ b).toList = a.toList ++ ':' :: b.toList := by simp
  rw [text, text, splitAtFirst_append clean, splitAtFirst_append clean', Option.some.injEq,
    Prod.mk.injEq] at splits
  exact ⟨String.toList_injective splits.1, String.toList_injective splits.2⟩

example : (make "futures" "BTCUSDT" "1m" 125).parse = ⟨"futures", "BTCUSDT", "1m", 125⟩ := by
  decide

end SubKey
