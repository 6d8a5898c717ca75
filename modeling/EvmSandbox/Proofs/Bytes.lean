/-
Numbers in base 256: what `Bytes.ofNat` writes, `Bytes.toNat` reads back, as
long as the number fits in the width, and the other way round; `byteWidth` is
the least width in which a number fits. Leading zero bytes do not count, and a
number of 32 bits can be read by shifting its bytes in.
-/
import EvmSandbox.Bytes
import Mathlib.Tactic

namespace EvmSandbox

namespace Bytes

theorem foldl_toNat (bytes : Bytes) (value : Nat) :
    bytes.foldl (fun value byte => value * 256 + byte.toNat) value =
      value * 256 ^ bytes.length + toNat bytes := by
  induction bytes generalizing value with
  | nil => simp [toNat]
  | cons byte bytes ih =>
    simp only [toNat, List.foldl_cons, List.length_cons]
    rw [ih (value * 256 + byte.toNat), ih (0 * 256 + byte.toNat), pow_succ]
    ring

theorem toNat_cons (byte : UInt8) (bytes : Bytes) :
    toNat (byte :: bytes) = byte.toNat * 256 ^ bytes.length + toNat bytes := by
  rw [toNat, List.foldl_cons, foldl_toNat]
  simp

theorem toNat_lt (bytes : Bytes) : toNat bytes < 256 ^ bytes.length := by
  induction bytes with
  | nil => simp [toNat]
  | cons byte bytes ih =>
    have hbyte : byte.toNat ≤ 255 := Nat.le_of_lt_succ byte.toNat_lt
    have hmul := Nat.mul_le_mul_right (256 ^ bytes.length) hbyte
    rw [toNat_cons, List.length_cons, pow_succ]
    omega

theorem toNat_ofNat_mod (width value : Nat) : toNat (ofNat width value) = value % 256 ^ width := by
  induction width with
  | zero => simp [ofNat, toNat, Nat.mod_one]
  | succ width ih =>
    have hdigit : (UInt8.ofNat (value / Nat.pow 256 width)).toNat = value / 256 ^ width % 256 :=
      UInt8.toNat_ofNat'
    rw [ofNat, toNat_cons, length_ofNat, ih, hdigit, @Nat.mod_pow_succ value 256 width]
    ring

/-- Writing a number in a width that holds it loses nothing. -/
theorem toNat_ofNat {width value : Nat} (h : value < 256 ^ width) :
    toNat (ofNat width value) = value := by
  rw [toNat_ofNat_mod, Nat.mod_eq_of_lt h]

@[simp] theorem toNat_significant (bytes : Bytes) : toNat (significant bytes) = toNat bytes := by
  induction bytes with
  | nil => rfl
  | cons byte bytes ih =>
    by_cases hzero : byte = 0
    · subst hzero
      rw [toNat_cons, ← ih]
      simp [significant]
    · simp [significant, hzero]

/-- A number fits in `width` bytes exactly if no more of its bytes count. -/
theorem length_significant_le_iff {bytes : Bytes} {width : Nat} :
    (significant bytes).length ≤ width ↔ toNat bytes < 256 ^ width := by
  rw [← toNat_significant]
  constructor
  · intro h
    exact (toNat_lt _).trans_le (Nat.pow_le_pow_right (by decide) h)
  · intro h
    cases hbytes : significant bytes with
    | nil => exact Nat.zero_le _
    | cons byte rest =>
      have hbyte : byte ≠ 0 := by
        have hhead := List.head?_dropWhile_not (· == (0 : UInt8)) bytes
        rw [← significant, hbytes] at hhead
        simpa using hhead
      have hpos : 1 ≤ byte.toNat := Nat.pos_of_ne_zero (fun hz => hbyte (UInt8.toNat_inj.1 hz))
      rw [hbytes, toNat_cons] at h
      have hle : 256 ^ rest.length ≤ byte.toNat * 256 ^ rest.length := Nat.le_mul_of_pos_left _ hpos
      exact (Nat.pow_lt_pow_iff_right (a := 256) (by decide)).1 (by omega)

theorem toNat_shift_or {value : UInt32} {byte : UInt8} (h : value.toNat < 2 ^ 24) :
    ((value <<< 8) ||| byte.toUInt32).toNat = value.toNat * 256 + byte.toNat := by
  have hbyte : byte.toNat < 2 ^ 8 := byte.toNat_lt
  have hshift : (value.toNat <<< 8) % 2 ^ 32 = value.toNat <<< 8 := by
    rw [Nat.shiftLeft_eq]
    omega
  simp only [UInt32.toNat_or, UInt32.toNat_shiftLeft, UInt8.toNat_toUInt32, UInt32.reduceToNat,
    Nat.reduceMod]
  rw [hshift, ← Nat.shiftLeft_add_eq_or_of_lt hbyte, Nat.shiftLeft_eq]

/-- A number of 32 bits is read without loss by shifting its bytes in. -/
theorem toNat_foldl_shift {bytes : Bytes} {value : UInt32}
    (h : value.toNat * 256 ^ bytes.length + toNat bytes < 2 ^ 32) :
    (bytes.foldl (fun (value : UInt32) byte => (value <<< 8) ||| byte.toUInt32) value).toNat =
      value.toNat * 256 ^ bytes.length + toNat bytes := by
  induction bytes generalizing value with
  | nil => simp [toNat]
  | cons byte bytes ih =>
    have hassoc : value.toNat * 256 ^ (byte :: bytes).length + toNat (byte :: bytes) =
        (value.toNat * 256 + byte.toNat) * 256 ^ bytes.length + toNat bytes := by
      rw [toNat_cons, List.length_cons, pow_succ]
      ring
    have hpos : 0 < 256 ^ bytes.length := by positivity
    have hvalue : value.toNat < 2 ^ 24 := by
      have := Nat.le_mul_of_pos_right (value.toNat * 256 + byte.toNat) hpos
      omega
    rw [hassoc] at h ⊢
    rw [List.foldl_cons, ih (by rwa [toNat_shift_or hvalue]), toNat_shift_or hvalue]

/-- Byte strings of one length that spell the same number are the same. -/
theorem eq_of_toNat_eq {a b : Bytes} (hlength : a.length = b.length) (h : toNat a = toNat b) :
    a = b := by
  induction a generalizing b with
  | nil => exact (List.length_eq_zero_iff.1 hlength.symm).symm
  | cons x a ih =>
    cases b with
    | nil => cases hlength
    | cons y b =>
      have hlength : a.length = b.length := Nat.succ.inj hlength
      have hb := toNat_lt b
      rw [toNat_cons, toNat_cons, ← hlength] at h
      rw [← hlength] at hb
      -- the first byte is the quotient by the weight of the others, which make up the remainder
      have hdiv := congrArg (· / 256 ^ a.length) h
      have hmod := congrArg (· % 256 ^ a.length) h
      have hpos : 0 < 256 ^ a.length := by positivity
      simp only [Nat.mul_comm _ (256 ^ a.length), Nat.mul_add_div hpos, Nat.mul_add_mod,
        Nat.div_eq_of_lt (toNat_lt a), Nat.div_eq_of_lt hb, Nat.mod_eq_of_lt (toNat_lt a),
        Nat.mod_eq_of_lt hb, Nat.add_zero] at hdiv hmod
      rw [UInt8.toNat_inj.1 hdiv, ih hlength hmod]

/-- Writing the number that a byte string spells in its own width gives the string back. -/
theorem ofNat_toNat (bytes : Bytes) : ofNat bytes.length (toNat bytes) = bytes :=
  eq_of_toNat_eq (length_ofNat _ _) (toNat_ofNat (toNat_lt bytes))

end Bytes

namespace FixedBytes

theorem eq_of_bytes {n : Nat} {a b : FixedBytes n} (h : a.bytes = b.bytes) : a = b := by
  obtain ⟨bytes, hbytes⟩ := a
  obtain rfl : bytes = b.bytes := h
  rfl

theorem ofBytes?_eq_some_iff {n : Nat} {bytes : Bytes} {fixed : FixedBytes n} :
    ofBytes? n bytes = some fixed ↔ bytes = fixed.bytes := by
  rw [ofBytes?]
  split
  · rename_i hlength
    rw [Option.some.injEq]
    exact ⟨fun h => h ▸ rfl, fun h => eq_of_bytes h⟩
  · rename_i hlength
    simp only [reduceCtorEq, false_iff]
    exact fun h => hlength (h ▸ fixed.length_eq)

end FixedBytes

/-- A width of at least one holds exactly the numbers whose `byteWidth` is not larger. -/
theorem byteWidth_le_iff {value width : Nat} (h : 0 < width) :
    byteWidth value ≤ width ↔ value < 256 ^ width := by
  have hpow : (256 : Nat) ^ width = 2 ^ (8 * width) := by rw [pow_mul]; norm_num
  rw [hpow, byteWidth]
  by_cases hv : value = 0
  · subst hv
    simp only [Nat.log2_zero, Nat.zero_div, Nat.zero_add]
    exact iff_of_true h (Nat.two_pow_pos _)
  · rw [← Nat.log2_lt hv]
    omega

theorem byteWidth_pos (value : Nat) : 0 < byteWidth value := by
  rw [byteWidth]
  omega

end EvmSandbox
