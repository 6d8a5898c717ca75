/-
Hexadecimal digits. Reading in pairs accepts the sixteen digits in either case
and nothing else, and gives one byte for two of them (`decodePairs_eq_ok_iff`);
so what `Hex.encode` writes, `Hex.decode` reads back (`decode_encode`). No
digit is an `x`, so digits are never taken for a leading `0x`.
-/
import EvmSandbox.Hex
import EvmSandbox.Proofs.Bytes
import Mathlib.Data.Nat.Digits.Lemmas

namespace EvmSandbox.Hex

/-! ## One digit -/

def lowerDigits : List Char :=
  ['0', '1', '2', '3', '4', '5', '6', '7', '8', '9', 'a', 'b', 'c', 'd', 'e', 'f']

def upperDigits : List Char :=
  ['0', '1', '2', '3', '4', '5', '6', '7', '8', '9', 'A', 'B', 'C', 'D', 'E', 'F']

/-- `c` is the digit of `n`, in either case. -/
def Spells (c : Char) (n : Nat) : Prop :=
  lowerDigits[n]? = some c ∨ upperDigits[n]? = some c

theorem Spells.lt {c : Char} {n : Nat} (h : Spells c n) : n < 16 := by
  rcases h with h | h <;> exact (List.getElem?_eq_some_iff.1 h).1

theorem spells_digit {n : Nat} (h : n < 16) : Spells (digit n) n := by
  have hall : ∀ n < 16, lowerDigits[n]? = some (digit n) := by decide
  exact .inl (hall n h)

/-- The digits by their places among the characters. -/
theorem spells_iff {c : Char} {n : Nat} :
    Spells c n ↔ n < 10 ∧ c.toNat = 0x30 + n ∨
      10 ≤ n ∧ n < 16 ∧ (c.toNat = 0x57 + n ∨ c.toNat = 0x37 + n) := by
  have hplace : ∀ digits : List Char, digits[n]? = some c ↔ digits[n]?.map Char.toNat = some c.toNat := by
    intro digits
    cases digits[n]? with
    | none => simp
    | some d => simp [Char.toNat_inj]
  have hlower : ∀ n < 16, lowerDigits[n]?.map Char.toNat =
      some (if n < 10 then 0x30 + n else 0x57 + n) := by decide
  have hupper : ∀ n < 16, upperDigits[n]?.map Char.toNat =
      some (if n < 10 then 0x30 + n else 0x37 + n) := by decide
  by_cases hlt : n < 16
  · rw [Spells, hplace, hplace, hlower n hlt, hupper n hlt]
    split_ifs <;> simp only [Option.some.injEq] <;> omega
  · exact iff_of_false (fun h => hlt h.lt) (by omega)

/-- The digits that are read are the digits. -/
theorem digit?_eq_some_iff {c : Char} {n : Nat} : digit? c = some n ↔ Spells c n := by
  rw [spells_iff]
  simp only [digit?]
  split_ifs <;> simp only [Option.some.injEq, false_iff] <;> omega

theorem Spells.utf8Size {c : Char} {n : Nat} (h : Spells c n) : c.utf8Size = 1 := by
  rw [spells_iff] at h
  rw [Char.utf8Size_eq_one_iff, UInt32.le_iff_toNat_le]
  change c.toNat ≤ 127
  omega

theorem Spells.not_blank {c : Char} {n : Nat} (h : Spells c n) : Text.isBlank c = false := by
  rw [spells_iff] at h
  simp only [Text.isBlank, Bool.or_eq_false_iff, Bool.and_eq_false_iff, decide_eq_false_iff_not,
    beq_eq_false_iff_ne]
  omega

/-! ## Digits in a row -/

theorem utf8Length_cons (c : Char) (cs : List Char) :
    utf8Length (c :: cs) = c.utf8Size + utf8Length cs := by
  have hfold : ∀ start, cs.foldl (fun length c => length + c.utf8Size) start =
      start + utf8Length cs := by
    induction cs with
    | nil => exact fun _ => rfl
    | cons d cs ih =>
      intro start
      rw [List.foldl_cons, ih, show utf8Length (d :: cs) = 0 + d.utf8Size + utf8Length cs from ih _]
      omega
  rw [utf8Length, List.foldl_cons, hfold, Nat.zero_add]

section Digits

variable {cs : List Char} {values : List Nat} (h : List.Forall₂ Spells cs values)
include h

theorem spells_of_mem : ∀ c ∈ cs, ∃ n, Spells c n := by
  induction h with
  | nil => simp
  | cons hc _ ih => exact List.forall_mem_cons.2 ⟨⟨_, hc⟩, ih⟩

theorem lt_of_mem_digits : ∀ value ∈ values, value < 16 := by
  induction h with
  | nil => simp
  | cons hc _ ih => exact List.forall_mem_cons.2 ⟨hc.lt, ih⟩

theorem utf8Length_digits : utf8Length cs = cs.length := by
  induction h with
  | nil => rfl
  | cons hc _ ih =>
    rw [utf8Length_cons, ih, hc.utf8Size, List.length_cons]
    omega

/-- Digits do not begin with a mark. -/
theorem unmark_digits : unmark cs = cs := by
  have hno : ∀ c ∈ ['x', 'X'], ∀ n, ¬ Spells c n := by
    intro c hc n hspells
    rw [← digit?_eq_some_iff] at hspells
    rcases List.mem_pair.1 hc with rfl | rfl <;> cases hspells
  rw [unmark.eq_def]
  split
  · obtain ⟨_, _, -, hrest, -⟩ := List.forall₂_cons_left_iff.1 h
    obtain ⟨n, _, hx, -⟩ := List.forall₂_cons_left_iff.1 hrest
    exact absurd hx (hno _ (by simp) n)
  · obtain ⟨_, _, -, hrest, -⟩ := List.forall₂_cons_left_iff.1 h
    obtain ⟨n, _, hx, -⟩ := List.forall₂_cons_left_iff.1 hrest
    exact absurd hx (hno _ (by simp) n)
  · rfl

end Digits

/-- The bytes of digits, two to a byte. -/
def ofHalves : List Nat → Bytes
  | high :: low :: rest => UInt8.ofNat (16 * high + low) :: ofHalves rest
  | _ => []

/-- Pairs of digits are read, and nothing else is. -/
theorem decodePairs_eq_ok_iff {done : Bytes} {position : Nat} {cs : List Char} {bytes : Bytes} :
    decodePairs done position cs = .ok bytes ↔
      ∃ values, List.Forall₂ Spells cs values ∧ values.length % 2 = 0 ∧
        bytes = done.reverse ++ ofHalves values := by
  fun_induction decodePairs done position cs with
  | case1 done position =>
    constructor
    · intro h
      cases h
      exact ⟨[], .nil, rfl, by simp [ofHalves]⟩
    · rintro ⟨values, hvalues, -, rfl⟩
      cases hvalues
      simp [ofHalves]
  | case2 | case3 =>
    refine iff_of_false (by simp) ?_
    rintro ⟨values, hvalues, heven, -⟩
    have := hvalues.length_eq
    simp only [List.length_cons, List.length_nil] at this
    omega
  | case4 done position high low rest hhigh =>
    refine iff_of_false (by simp) ?_
    rintro ⟨values, hvalues, -⟩
    obtain ⟨n, _, hn, -⟩ := List.forall₂_cons_left_iff.1 hvalues
    simp [digit?_eq_some_iff.2 hn] at hhigh
  | case5 done position high low rest _ hlow =>
    refine iff_of_false (by simp) ?_
    rintro ⟨values, hvalues, -⟩
    obtain ⟨_, _, -, hrest, -⟩ := List.forall₂_cons_left_iff.1 hvalues
    obtain ⟨n, _, hn, -⟩ := List.forall₂_cons_left_iff.1 hrest
    simp [digit?_eq_some_iff.2 hn] at hlow
  | case6 done position high low rest h l hlow hhigh ih =>
    rw [ih]
    constructor
    · rintro ⟨values, hvalues, heven, rfl⟩
      refine ⟨h :: l :: values, .cons (digit?_eq_some_iff.1 hhigh)
        (.cons (digit?_eq_some_iff.1 hlow) hvalues), ?_, by simp [ofHalves]⟩
      simp only [List.length_cons]
      omega
    · rintro ⟨values, hpairs, heven, rfl⟩
      obtain ⟨h', _, hh', hrest, rfl⟩ := List.forall₂_cons_left_iff.1 hpairs
      obtain ⟨l', values, hl', hvalues, rfl⟩ := List.forall₂_cons_left_iff.1 hrest
      obtain rfl : h = h' := Option.some.inj (hhigh.symm.trans (digit?_eq_some_iff.2 hh'))
      obtain rfl : l = l' := Option.some.inj (hlow.symm.trans (digit?_eq_some_iff.2 hl'))
      simp only [List.length_cons] at heven
      exact ⟨values, hvalues, by omega, by simp [ofHalves]⟩

/-- Digits in pairs spell in base 16 the number that their bytes spell in base 256. -/
theorem toNat_ofHalves {values : List Nat} (hlt : ∀ value ∈ values, value < 16)
    (heven : values.length % 2 = 0) :
    2 * (ofHalves values).length = values.length ∧
      Bytes.toNat (ofHalves values) = Nat.ofDigits 16 values.reverse := by
  fun_induction ofHalves values with
  | case1 high low rest ih =>
    simp only [List.mem_cons, forall_eq_or_imp, List.length_cons] at hlt heven
    obtain ⟨hhigh, hlow, hrest⟩ := hlt
    obtain ⟨hlength, hnumber⟩ := ih hrest (by omega)
    have hbyte : (UInt8.ofNat (16 * high + low)).toNat = 16 * high + low := by
      rw [UInt8.toNat_ofNat']
      omega
    have hpow : 256 ^ (ofHalves rest).length = 16 ^ rest.length := by
      rw [← hlength, pow_mul]
      norm_num
    refine ⟨by simp only [List.length_cons]; omega, ?_⟩
    rw [Bytes.toNat_cons, hbyte, hnumber, hpow, List.reverse_cons, List.reverse_cons,
      List.append_assoc, Nat.ofDigits_append, List.length_reverse]
    simp only [List.singleton_append, Nat.ofDigits_cons, Nat.ofDigits_nil]
    ring
  | case2 values hnot =>
    -- an even number of digits without a pair is none
    cases values with
    | nil => exact ⟨rfl, rfl⟩
    | cons high rest =>
      cases rest with
      | nil => simp at heven
      | cons low rest => exact absurd rfl (hnot high low rest)

/-! ## Digits that are written -/

/-- The two digits of each byte. -/
def halves (bytes : Bytes) : List Nat :=
  bytes.flatMap fun byte => [byte.toNat / 16, byte.toNat % 16]

theorem spells_encodeChars (bytes : Bytes) :
    List.Forall₂ Spells (encodeChars bytes) (halves bytes) := by
  induction bytes with
  | nil => exact .nil
  | cons byte bytes ih =>
    have hbyte := byte.toNat_lt
    exact .cons (spells_digit (by omega)) (.cons (spells_digit (by omega)) ih)

theorem length_halves (bytes : Bytes) : (halves bytes).length = 2 * bytes.length := by
  induction bytes with
  | nil => rfl
  | cons byte bytes ih =>
    simp only [halves, List.flatMap_cons, List.length_append, List.length_cons, List.length_nil] at ih ⊢
    omega

theorem ofHalves_halves (bytes : Bytes) : ofHalves (halves bytes) = bytes := by
  induction bytes with
  | nil => rfl
  | cons byte bytes ih =>
    have hhalves : 16 * (byte.toNat / 16) + byte.toNat % 16 = byte.toNat := by omega
    simp only [halves, List.flatMap_cons, List.cons_append, List.nil_append, ofHalves, hhalves,
      UInt8.ofNat_toNat] at ih ⊢
    rw [ih]

theorem decodePairs_encodeChars (bytes : Bytes) : decodePairs [] 0 (encodeChars bytes) = .ok bytes :=
  decodePairs_eq_ok_iff.2 ⟨halves bytes, spells_encodeChars bytes, by rw [length_halves]; omega,
    by simp [ofHalves_halves]⟩

theorem utf8Length_encodeChars (bytes : Bytes) : utf8Length (encodeChars bytes) = 2 * bytes.length := by
  rw [utf8Length_digits (spells_encodeChars bytes), (spells_encodeChars bytes).length_eq, length_halves]

theorem decode_encode (bytes : Bytes) : decode (encode bytes).toList = .ok bytes := by
  have heven : ¬ 2 * bytes.length % 2 = 1 := by omega
  simp only [decode, encode, String.toList_ofList, unmark_digits (spells_encodeChars bytes),
    utf8Length_encodeChars, if_neg heven]
  exact decodePairs_encodeChars bytes

end EvmSandbox.Hex
