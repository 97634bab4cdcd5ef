import Procluster.SubKey

/-!
Package ws: the subscription keys on bytes, with the index loops of the source. A Go
string is any list of bytes; none is an index or a slice out of range. The range loop of
parseU32 decodes runes, but a digit is always a rune of its one byte.
-/
namespace SubKeyBytes
open SubKey (Parts)

abbrev colon : UInt8 := 58

def sliceFrom (s : List UInt8) (i : ℕ) : Option (List UInt8) :=
  if i ≤ s.length then some (s.drop i) else none

def sliceTo (s : List UInt8) (i : ℕ) : Option (List UInt8) :=
  if i ≤ s.length then some (s.take i) else none

def fillDigits (n : UInt32) : ℕ → List UInt8 → Option (ℕ × List UInt8)
  | 0, tmp => if n = 0 then some (0, tmp) else none
  | i + 1, tmp =>
    if n = 0 then some (i + 1, tmp)
    else if i < tmp.length then fillDigits (n / 10) i (tmp.set i (48 + n % 10).toUInt8)
    else none

def appendU32 (buf : List UInt8) (n : UInt32) : Option (List UInt8) :=
  if n = 0 then some (buf ++ [48])
  else do
    let (i, tmp) ← fillDigits n 10 (List.replicate 10 0)
    let digits ← sliceFrom tmp i
    return buf ++ digits

def itoa (n : UInt32) : Option (List UInt8) := appendU32 [] n

def subKey (market symbol tf : List UInt8) (compression : UInt32) : Option (List UInt8) :=
  (itoa compression).map fun digits => market ++ [colon] ++ symbol ++ [colon] ++ tf ++ [colon] ++ digits

/-- The loop that looks for a colon from the index below start downwards; none is below 0. -/
def lastColon (s : List UInt8) : ℕ → Option ℕ
  | 0 => none
  | idx + 1 => if s[idx]? = some colon then some idx else lastColon s idx

/-- The loop that looks for the first colon; the length where there is none. -/
def firstColon (s : List UInt8) : ℕ := s.findIdx fun b => b = colon

def parseU32 (s : List UInt8) : UInt32 :=
  s.foldl (fun n b => if 48 ≤ b ∧ b ≤ 57 then n * 10 + (b - 48).toUInt32 else n) 0

structure KeyParts where
  market : List UInt8
  symbol : List UInt8
  tf : List UInt8
  compression : UInt32
  deriving DecidableEq

def parseSubKey (key : List UInt8) : Option KeyParts :=
  match lastColon key key.length with
  | none => some ⟨[], [], [], 0⟩
  | some idx => do
    let compStr ← sliceFrom key (idx + 1)
    let compression := parseU32 compStr
    let rest ← sliceTo key idx
    match lastColon rest rest.length with
    | none => return ⟨[], [], [], compression⟩
    | some idx2 =>
      let tf ← sliceFrom rest (idx2 + 1)
      let rest2 ← sliceTo rest idx2
      let idx3 := firstColon rest2
      let market ← sliceTo rest2 idx3
      let symbol ← sliceFrom rest2 (idx3 + 1)
      return ⟨market, symbol, tf, compression⟩

def digitsOf (n : ℕ) : List UInt8 := (Nat.digits 10 n).reverse.map fun d => 48 + UInt8.ofNat d

theorem digitsOf_step {n : ℕ} (positive : 0 < n) :
    digitsOf n = digitsOf (n / 10) ++ [48 + UInt8.ofNat (n % 10)] := by
  rw [digitsOf, Nat.digits_def' (by decide) positive, List.reverse_cons, List.map_append]
  rfl

theorem digit_byte (n : UInt32) : (48 + n % 10).toUInt8 = 48 + UInt8.ofNat (n.toNat % 10) := by
  rw [← UInt8.toNat_inj, UInt32.toNat_toUInt8, UInt32.toNat_add, UInt32.toNat_mod, UInt8.toNat_add,
    UInt8.toNat_ofNat']
  change (48 + n.toNat % 10) % 2 ^ 32 % 2 ^ 8 = (48 + n.toNat % 10 % 2 ^ 8) % 2 ^ 8
  omega

theorem fillDigits_digits (n : UInt32) (i : ℕ) (tmp : List UInt8) (slots : i ≤ tmp.length)
    (fits : n.toNat < 10 ^ i) : ∃ j tmp', fillDigits n i tmp = some (j, tmp') ∧ j ≤ tmp'.length ∧
      tmp'.drop j = digitsOf n.toNat ++ tmp.drop i := by
  induction i generalizing n tmp with
  | zero =>
    have zero : n = 0 := UInt32.toNat_inj.mp (by simpa using fits)
    subst zero
    exact ⟨0, tmp, rfl, Nat.zero_le _, rfl⟩
  | succ i ih =>
    by_cases zero : n = 0
    · subst zero
      exact ⟨i + 1, tmp, rfl, slots, rfl⟩
    · have positive : 0 < n.toNat := UInt32.pos_iff_ne_zero.mpr zero
      have inside : i < tmp.length := slots
      have shorter : (n / 10).toNat < 10 ^ i := by
        rw [UInt32.toNat_div]
        change n.toNat / 10 < 10 ^ i
        rw [pow_succ] at fits
        omega
      obtain ⟨j, tmp', filled, bound, written⟩ := ih (n / 10) (tmp.set i (48 + n % 10).toUInt8)
        (by rw [List.length_set]; exact inside.le) shorter
      refine ⟨j, tmp', ?_, bound, ?_⟩
      · rw [fillDigits, if_neg zero, if_pos inside, filled]
      · have front : (tmp.set i (48 + n % 10).toUInt8).drop i =
            (48 + n % 10).toUInt8 :: tmp.drop (i + 1) := by
          rw [List.drop_eq_getElem_cons (by rw [List.length_set]; exact inside), List.getElem_set_self,
            List.drop_set_of_lt (Nat.lt_succ_self i)]
        rw [written, front, digitsOf_step positive, UInt32.toNat_div, digit_byte, List.append_assoc]
        rfl

theorem itoa_digits (n : UInt32) :
    itoa n = some (if n = 0 then [48] else digitsOf n.toNat) := by
  unfold itoa appendU32
  by_cases zero : n = 0
  · rw [if_pos zero, if_pos zero]
    rfl
  · rw [if_neg zero, if_neg zero]
    obtain ⟨j, tmp, filled, bound, written⟩ := fillDigits_digits n 10 (List.replicate 10 0) le_rfl
      (n.toNat_lt.trans (by decide))
    rw [filled]
    change (sliceFrom tmp j >>= fun digits => some ([] ++ digits)) = _
    rw [sliceFrom, if_pos bound, written]
    simp

def readNat (s : List UInt8) : ℕ :=
  s.foldl (fun n b => if 48 ≤ b ∧ b ≤ 57 then n * 10 + (b - 48).toNat else n) 0

theorem digit_read {d : ℕ} (small : d < 10) : (48 : UInt8) ≤ 48 + UInt8.ofNat d ∧
    48 + UInt8.ofNat d ≤ 57 ∧ (48 + UInt8.ofNat d - 48).toNat = d := by
  revert d
  decide

theorem readNat_append (s : List UInt8) {d : ℕ} (small : d < 10) :
    readNat (s ++ [48 + UInt8.ofNat d]) = readNat s * 10 + d := by
  obtain ⟨low, high, value⟩ := digit_read small
  rw [readNat, List.foldl_append, List.foldl_cons, List.foldl_nil, if_pos ⟨low, high⟩, value]
  rfl

theorem parseU32_append (s : List UInt8) {d : ℕ} (small : d < 10) :
    parseU32 (s ++ [48 + UInt8.ofNat d]) = parseU32 s * 10 + UInt32.ofNat d := by
  obtain ⟨low, high, value⟩ := digit_read small
  have digit : (48 + UInt8.ofNat d - 48).toUInt32 = UInt32.ofNat d := by
    rw [← UInt32.toNat_inj, UInt8.toNat_toUInt32, value, UInt32.toNat_ofNat']
    omega
  rw [parseU32, List.foldl_append, List.foldl_cons, List.foldl_nil, if_pos ⟨low, high⟩, digit]
  rfl

theorem parseU32_digitsOf (n : ℕ) : parseU32 (digitsOf n) = UInt32.ofNat n := by
  induction n using Nat.strongRecOn with
  | ind n ih =>
    rcases Nat.eq_zero_or_pos n with rfl | positive
    · rfl
    · rw [digitsOf_step positive, parseU32_append _ (Nat.mod_lt n (by decide)),
        ih (n / 10) (Nat.div_lt_self positive (by decide))]
      rw [← UInt32.toNat_inj, UInt32.toNat_add, UInt32.toNat_mul]
      simp only [UInt32.toNat_ofNat']
      change (n / 10 % 2 ^ 32 * 10 % 2 ^ 32 + n % 10 % 2 ^ 32) % 2 ^ 32 = n % 2 ^ 32
      omega

theorem readNat_front {n : ℕ} {front : List UInt8} (part : front <+: digitsOf n) :
    readNat front ≤ n := by
  induction n using Nat.strongRecOn generalizing front with
  | ind n ih =>
    rcases Nat.eq_zero_or_pos n with rfl | positive
    · have none : front = [] := List.prefix_nil.mp part
      subst none
      exact le_rfl
    · have shorter := Nat.div_lt_self positive (by decide : 1 < 10)
      rw [digitsOf_step positive] at part
      rcases List.prefix_concat_iff.mp part with whole | before
      · have value : readNat (digitsOf (n / 10)) ≤ n / 10 := ih _ shorter List.prefix_rfl
        rw [whole, readNat_append _ (Nat.mod_lt n (by decide))]
        omega
      · exact (ih _ shorter before).trans shorter.le

theorem colon_not_in_digits (n : UInt32) {digits : List UInt8} (written : itoa n = some digits) :
    colon ∉ digits := by
  have other : ∀ d < 10, colon ≠ 48 + UInt8.ofNat d := by decide
  rw [itoa_digits, Option.some.injEq] at written
  subst written
  split
  · decide
  · rw [digitsOf]
    intro inside
    obtain ⟨d, hd, same⟩ := List.mem_map.mp inside
    exact other d (Nat.digits_lt_base (by decide) (List.mem_reverse.mp hd)) same.symm

theorem parseU32_itoa {n : UInt32} {digits : List UInt8} (written : itoa n = some digits) :
    parseU32 digits = n := by
  rw [itoa_digits, Option.some.injEq] at written
  subst written
  split
  · rename_i zero
    rw [zero]
    rfl
  · rw [parseU32_digitsOf, UInt32.ofNat_toNat]

theorem lastColon_append {after : List UInt8} (clean : colon ∉ after) (before : List UInt8) :
    lastColon (before ++ colon :: after) (before ++ colon :: after).length = some before.length := by
  have down : ∀ k, k ≤ after.length →
      lastColon (before ++ colon :: after) (before.length + 1 + k) = some before.length := by
    intro k
    induction k with
    | zero =>
      intro _
      rw [Nat.add_zero, lastColon, if_pos]
      simp
    | succ k ih =>
      intro inside
      have here : (before ++ colon :: after)[before.length + 1 + k]? = after[k]? := by
        rw [List.getElem?_append_right (by omega),
          show before.length + 1 + k - before.length = k + 1 by omega, List.getElem?_cons_succ]
      rw [← Nat.add_assoc, lastColon, if_neg, ih (by omega)]
      rw [here]
      exact fun found => clean (List.mem_of_getElem? found)
  have whole : (before ++ colon :: after).length = before.length + 1 + after.length := by
    rw [List.length_append, List.length_cons]
    omega
  rw [whole]
  exact down _ le_rfl

theorem firstColon_append {before : List UInt8} (clean : colon ∉ before) (after : List UInt8) :
    firstColon (before ++ colon :: after) = before.length := by
  induction before with
  | nil => rw [firstColon, List.nil_append, List.findIdx_cons, decide_eq_true rfl, cond_true, List.length_nil]
  | cons b before ih =>
    obtain ⟨other, later⟩ := List.ne_and_not_mem_of_not_mem_cons clean
    rw [firstColon] at ih ⊢
    rw [List.cons_append, List.findIdx_cons, ih later]
    simp [Ne.symm other]

theorem slices_append (before after : List UInt8) :
    sliceTo (before ++ colon :: after) before.length = some before ∧
      sliceFrom (before ++ colon :: after) (before.length + 1) = some after := by
  simp [sliceTo, sliceFrom]

section Text

def utf8 (s : String) : List UInt8 := s.toByteArray.data.toList

theorem utf8_append (s t : String) : utf8 (s ++ t) = utf8 s ++ utf8 t := by
  simp [utf8]

theorem utf8_ofList (cs : List Char) : utf8 (String.ofList cs) = cs.flatMap String.utf8EncodeChar := by
  simp [utf8, List.utf8Encode]

theorem appendDigits_utf8 (slots n : ℕ) (buf : List Char) (fits : n < 10 ^ slots) :
    (SubKey.appendDigits slots n buf).flatMap String.utf8EncodeChar =
      digitsOf n ++ buf.flatMap String.utf8EncodeChar := by
  have digit : ∀ d < 10, String.utf8EncodeChar (Nat.digitChar d) = [48 + UInt8.ofNat d] := by decide
  induction slots generalizing n buf with
  | zero =>
    have none : n = 0 := by omega
    subst none
    rfl
  | succ slots ih =>
    by_cases zero : n = 0
    · subst zero
      rfl
    · have shorter : n / 10 < 10 ^ slots := by
        rw [pow_succ] at fits
        omega
      rw [SubKey.appendDigits, if_neg zero, ih _ _ shorter, List.flatMap_cons,
        digit _ (Nat.mod_lt n (by decide)), digitsOf_step (Nat.pos_of_ne_zero zero), List.append_assoc]

theorem subKey_utf8 (market symbol tf : String) (compression : UInt32) :
    subKey (utf8 market) (utf8 symbol) (utf8 tf) compression =
      some (utf8 (SubKey.subKey market symbol tf compression)) := by
  have number : itoa compression = some (utf8 (String.ofList (SubKey.itoa compression))) := by
    rw [itoa_digits, utf8_ofList, SubKey.itoa]
    split
    · rfl
    · rw [appendDigits_utf8 10 _ _ (compression.toNat_lt.trans (by decide)), List.flatMap_nil,
        List.append_nil]
  have separator : utf8 ":" = [colon] := by decide
  rw [subKey, number, SubKey.subKey]
  simp only [Option.map_some, utf8_append, separator]

end Text

/-- A key is written, decodes to its parts, and is no other parts' key; its compression is
    read back without overflow. -/
structure Decodes (parts : KeyParts) : Prop where
  decoded : ∃ key, subKey parts.market parts.symbol parts.tf parts.compression = some key ∧
    parseSubKey key = some parts
  distinct : ∀ other : KeyParts, colon ∉ other.market → colon ∉ other.tf →
    subKey other.market other.symbol other.tf other.compression =
      subKey parts.market parts.symbol parts.tf parts.compression → other = parts
  exact_number : ∃ digits, itoa parts.compression = some digits ∧
    parseU32 digits = parts.compression ∧ ∀ front, front <+: digits → readNat front < 2 ^ 32

theorem subKey_decoded (parts : KeyParts) (cleanMarket : colon ∉ parts.market)
    (cleanTf : colon ∉ parts.tf) :
    ∃ key, subKey parts.market parts.symbol parts.tf parts.compression = some key ∧
      parseSubKey key = some parts := by
  obtain ⟨digits, written⟩ : ∃ digits, itoa parts.compression = some digits := ⟨_, itoa_digits _⟩
  have read := parseU32_itoa written
  refine ⟨(parts.market ++ colon :: parts.symbol ++ colon :: parts.tf) ++ colon :: digits, ?_, ?_⟩
  · simp [subKey, written]
  · obtain ⟨rest, compStr⟩ := slices_append
      (parts.market ++ colon :: parts.symbol ++ colon :: parts.tf) digits
    obtain ⟨rest2, tf⟩ := slices_append (parts.market ++ colon :: parts.symbol) parts.tf
    obtain ⟨market, symbol⟩ := slices_append parts.market parts.symbol
    rw [parseSubKey, lastColon_append (colon_not_in_digits _ written)]
    dsimp only
    rw [compStr, rest]
    dsimp only [Option.bind_eq_bind, Option.bind_some]
    rw [lastColon_append cleanTf]
    dsimp only
    rw [tf, rest2]
    dsimp only [Option.bind_some]
    rw [firstColon_append cleanMarket, market, symbol, read]
    rfl

/-- Every key of a market and a timeframe without a colon decodes. -/
theorem key_decodes (parts : KeyParts) (cleanMarket : colon ∉ parts.market)
    (cleanTf : colon ∉ parts.tf) : Decodes parts := by
  have decoded := subKey_decoded parts cleanMarket cleanTf
  refine ⟨decoded, ?_, ?_⟩
  · intro other cleanMarket' cleanTf' same
    obtain ⟨key, written, parsed⟩ := decoded
    obtain ⟨key', written', parsed'⟩ := subKey_decoded other cleanMarket' cleanTf'
    rw [same, written, Option.some.injEq] at written'
    rw [← written', parsed, Option.some.injEq] at parsed'
    exact parsed'.symm
  · refine ⟨_, itoa_digits parts.compression, parseU32_itoa (itoa_digits _), ?_⟩
    intro front part
    split at part
    · rcases List.prefix_cons_iff.mp part with none | ⟨rest, whole, tail⟩
      · rw [none]
        decide
      · rw [whole, List.prefix_nil.mp tail]
        decide
    · exact (readNat_front part).trans_lt parts.compression.toNat_lt

/-- The largest compression, with colons and a byte of no UTF-8 text in the symbol. -/
theorem odd_symbol_decodes : Decodes ⟨[115], [58, 255, 58], [], 4294967295⟩ :=
  key_decodes ⟨[115], [58, 255, 58], [], 4294967295⟩ (by decide) (by decide)

end SubKeyBytes
