/-
The text of a mask. Exactly the texts of 64 digits are read, behind one mark
or none and between blank characters (`Written`); a mark is taken off twice on
the way and the length is counted in bytes before the digits are looked at,
but neither lets anything else through. The mask that is read is the number
that the digits spell, so the code of a bit is its place in that number, and
the text of a mask is read back as that mask (`mask_text`).
-/
import EvmSandbox.Whitelist
import EvmSandbox.Proofs.HexDigits

namespace EvmSandbox

/-! ## Marks -/

namespace Hex

/-- What may stand before digits. -/
def marks : List (List Char) := [[], ['0', 'x'], ['0', 'X']]

/-- If a mark is taken off, it was there, and the text gets shorter. -/
theorem unmark_cases (cs : List Char) :
    (∃ mark ∈ marks, cs = mark ++ unmark cs) ∧
      (unmark cs = cs ∨ utf8Length cs = 2 + utf8Length (unmark cs)) := by
  have hlength : ∀ (x : Char) (rest : List Char), x.utf8Size = 1 →
      utf8Length ('0' :: x :: rest) = 2 + utf8Length rest := by
    intro x rest hx
    have hzero : ('0').utf8Size = 1 := by decide
    rw [utf8Length_cons, utf8Length_cons, hx, hzero, ← Nat.add_assoc]
  rw [unmark.eq_def]
  split
  · exact ⟨⟨['0', 'x'], by simp [marks], rfl⟩, .inr (hlength _ _ (by decide))⟩
  · exact ⟨⟨['0', 'X'], by simp [marks], rfl⟩, .inr (hlength _ _ (by decide))⟩
  · exact ⟨⟨[], by simp [marks], rfl⟩, .inl rfl⟩

theorem unmark_append_digits {mark cs : List Char} {values : List Nat} (hmark : mark ∈ marks)
    (h : List.Forall₂ Spells cs values) : unmark (mark ++ cs) = cs := by
  simp only [marks, List.mem_cons, List.not_mem_nil, or_false] at hmark
  rcases hmark with rfl | rfl | rfl
  · exact unmark_digits h
  · rfl
  · rfl

/-- Of a text of the right length, digits alone are read. A text with a mark is too short without
it. -/
theorem decodeFixed_eq_ok_iff {n : Nat} {cs : List Char} (hlength : utf8Length cs = 2 * n)
    {fixed : FixedBytes n} :
    decodeFixed n cs = .ok fixed ↔
      ∃ values, List.Forall₂ Spells cs values ∧ fixed.bytes = ofHalves values := by
  constructor
  · intro h
    simp only [decodeFixed] at h
    split at h
    · rename_i hunmarked
      have hsame : unmark cs = cs := by
        rcases (unmark_cases cs).2 with hsame | hshort
        · exact hsame
        · omega
      rw [hsame] at h
      split at h
      · cases h
      · rename_i bytes hpairs
        obtain ⟨values, hvalues, -, rfl⟩ := decodePairs_eq_ok_iff.1 hpairs
        split at h
        · rename_i found hfixed
          cases h
          exact ⟨values, hvalues, (FixedBytes.ofBytes?_eq_some_iff.1 hfixed).symm⟩
        · cases h
    · split at h <;> cases h
  · rintro ⟨values, hvalues, hfixed⟩
    have hcount : values.length = 2 * n := by
      rw [← hvalues.length_eq, ← utf8Length_digits hvalues, hlength]
    have hpairs : decodePairs [] 0 cs = .ok (ofHalves values) :=
      decodePairs_eq_ok_iff.2 ⟨values, hvalues, by omega, by simp⟩
    have hsome : FixedBytes.ofBytes? n (ofHalves values) = some fixed :=
      FixedBytes.ofBytes?_eq_some_iff.2 hfixed.symm
    simp only [decodeFixed, unmark_digits hvalues, hlength, if_true, hpairs, hsome]

end Hex

/-! ## The number of a row of digits -/

namespace Hex

/-- The number of a row of digits, the first one being the highest. -/
def number (values : List Nat) : Nat :=
  Nat.ofDigits 16 values.reverse

/-- Each digit holds four bits of the number. -/
theorem testBit_ofDigits {values : List Nat} (h : ∀ value ∈ values, value < 16) (i : Nat) :
    (Nat.ofDigits 16 values).testBit i = (values.getD (i / 4) 0).testBit (i % 4) := by
  induction values generalizing i with
  | nil => simp
  | cons value values ih =>
    simp only [List.mem_cons, forall_eq_or_imp] at h
    obtain ⟨hvalue, hvalues⟩ := h
    rw [Nat.ofDigits_cons, Nat.add_comm, show (16 : Nat) = 2 ^ 4 from rfl,
      Nat.testBit_two_pow_mul_add _ hvalue]
    split
    · rename_i hlt
      rw [Nat.div_eq_of_lt hlt, Nat.mod_eq_of_lt hlt]
      rfl
    · rename_i hge
      obtain ⟨j, rfl⟩ := Nat.exists_eq_add_of_le' (Nat.le_of_not_lt hge)
      rw [Nat.add_sub_cancel, Nat.add_div_right _ (by decide), Nat.add_mod_right]
      exact ih hvalues j

theorem testBit_number {values : List Nat} (h : ∀ value ∈ values, value < 16) {i : Nat}
    (hi : i / 4 < values.length) :
    (number values).testBit i = (values.getD (values.length - 1 - i / 4) 0).testBit (i % 4) := by
  rw [number, testBit_ofDigits (fun value hvalue => h value (List.mem_reverse.1 hvalue)),
    List.getD_eq_getElem?_getD, List.getD_eq_getElem?_getD, List.getElem?_reverse hi]

end Hex

namespace Whitelist

open Hex (Spells)

/-! ## The texts that are read -/

/-- The text is 64 digits, those of `values`, behind a mark or none and between blank characters. -/
inductive Written : List Char → List Nat → Prop where
  | text {before mark digits after : List Char} {values : List Nat}
    (hbefore : ∀ c ∈ before, Text.isBlank c = true) (hmark : mark ∈ Hex.marks)
    (hdigits : List.Forall₂ Spells digits values) (hlength : values.length = 64)
    (hafter : ∀ c ∈ after, Text.isBlank c = true) :
    Written (before ++ (mark ++ digits) ++ after) values

theorem trim_written {mark digits : List Char} {values : List Nat} (hmark : mark ∈ Hex.marks)
    (hdigits : List.Forall₂ Spells digits values) {before after : List Char}
    (hbefore : ∀ c ∈ before, Text.isBlank c = true) (hafter : ∀ c ∈ after, Text.isBlank c = true) :
    Text.trim (before ++ (mark ++ digits) ++ after) = mark ++ digits := by
  have hmarks : ∀ mark ∈ Hex.marks, ∀ c ∈ mark, Text.isBlank c = false := by
    simp [Hex.marks, Text.isBlank]
  refine Text.trim_blanks hbefore (List.forall_mem_append.2 ⟨hmarks mark hmark, fun c hc => ?_⟩) hafter
  obtain ⟨n, hn⟩ := Hex.spells_of_mem hdigits c hc
  exact hn.not_blank

/-- The mask that digits spell. -/
def ofDigits (values : List Nat) : Whitelist :=
  ⟨BitVec.ofNat 256 (Hex.number values)⟩

theorem parse_eq_ok_iff {cs : List Char} {w : Whitelist} :
    parse cs = .ok w ↔ ∃ values, Written cs values ∧ w = ofDigits values := by
  have hnumber : ∀ {digits : List Char} {values : List Nat}, List.Forall₂ Spells digits values →
      values.length = 64 → Bytes.toNat (Hex.ofHalves values) = Hex.number values := fun h hlength =>
    (Hex.toNat_ofHalves (Hex.lt_of_mem_digits h) (by omega)).2
  constructor
  · intro h
    simp only [parse] at h
    split at h
    · rename_i hbits
      split at h
      · cases h
      · rename_i fixed hfixed
        cases h
        obtain ⟨values, hdigits, hbytes⟩ := (Hex.decodeFixed_eq_ok_iff (by omega)).1 hfixed
        have hlength : values.length = 64 := by
          rw [← hdigits.length_eq, ← Hex.utf8Length_digits hdigits]
          omega
        refine ⟨values, ?_, by rw [hbytes, hnumber hdigits hlength, ofDigits]⟩
        obtain ⟨before, after, htext, hbefore, hafter⟩ := Text.exists_blanks_trim cs
        obtain ⟨mark, hmark, htrim⟩ := (Hex.unmark_cases (Text.trim cs)).1
        rw [htrim] at htext
        rw [htext]
        exact .text hbefore hmark hdigits hlength hafter
    · cases h
  · rintro ⟨values, hwritten, rfl⟩
    cases hwritten with
    | @text _ _ digits _ _ hbefore hmark hdigits hlength hafter =>
      have hbits : 4 * Hex.utf8Length digits = 256 := by
        rw [Hex.utf8Length_digits hdigits, hdigits.length_eq, hlength]
      obtain ⟨hcount, -⟩ := Hex.toNat_ofHalves (Hex.lt_of_mem_digits hdigits) (by omega)
      have hfixed : Hex.decodeFixed 32 digits = .ok ⟨Hex.ofHalves values, by omega⟩ :=
        (Hex.decodeFixed_eq_ok_iff (by omega)).2 ⟨values, hdigits, rfl⟩
      simp only [parse, trim_written hmark hdigits hbefore hafter,
        Hex.unmark_append_digits hmark hdigits, hbits, if_true, hfixed, hnumber hdigits hlength,
        ofDigits]

/-- The code of a bit is its place in the number. -/
theorem isAllowed_ofDigits (values : List Nat) (code : UInt8) :
    (ofDigits values).isAllowed code = (Hex.number values).testBit code.toNat := by
  have hcode : code.toNat < 256 := code.toNat_lt
  rw [isAllowed, ofDigits, BitVec.getLsbD_ofNat, decide_eq_true hcode, Bool.true_and]

/-- Masks that allow the same codes are the same. -/
theorem eq_of_isAllowed {a b : Whitelist} (h : ∀ code, a.isAllowed code = b.isAllowed code) : a = b := by
  obtain ⟨a⟩ := a
  obtain ⟨b⟩ := b
  congr 1
  refine BitVec.eq_of_getLsbD_eq fun i hi => ?_
  have hcode := h (UInt8.ofNat i)
  rwa [isAllowed, isAllowed, UInt8.toNat_ofNat', Nat.mod_eq_of_lt hi] at hcode

theorem parse_text (w : Whitelist) : parse w.text.toList = .ok w := by
  have hdigits := Hex.spells_encodeChars (Bytes.ofNat 32 w.mask.toNat)
  have hlength : (Hex.halves (Bytes.ofNat 32 w.mask.toNat)).length = 64 := by
    rw [Hex.length_halves, Bytes.length_ofNat]
  have hnumber : Hex.number (Hex.halves (Bytes.ofNat 32 w.mask.toNat)) = w.mask.toNat := by
    rw [Hex.number, ← (Hex.toNat_ofHalves (Hex.lt_of_mem_digits hdigits) (by omega)).2,
      Hex.ofHalves_halves]
    exact Bytes.toNat_ofNat w.mask.isLt
  refine parse_eq_ok_iff.2 ⟨_, ?_, by rw [ofDigits, hnumber, BitVec.ofNat_toNat, BitVec.setWidth_eq]⟩
  have hwritten := @Written.text [] ['0', 'x'] _ [] _ (by simp) (by simp [Hex.marks]) hdigits hlength
    (by simp)
  simpa [text, Hex.encodeMarked] using hwritten

/-- **The text of a mask.** A text is read if and only if it is 64 hexadecimal digits of either case
behind one mark or none and between blank characters. The mask allows a code if the bit at that place
of the number is set: the bits of the first digit are those of the codes from `0xff` down to `0xfc`,
and so on. The text of a mask is read as that mask. -/
theorem mask_text :
    (∀ cs w, parse cs = .ok w ↔ ∃ values, Written cs values ∧
      ∀ code : UInt8, w.isAllowed code = (Nat.ofDigits 16 values.reverse).testBit code.toNat) ∧
    (∀ cs values w, Written cs values → parse cs = .ok w → ∀ code : UInt8,
      w.isAllowed code = (values.getD (63 - code.toNat / 4) 0).testBit (code.toNat % 4)) ∧
    ∀ w : Whitelist, parse w.text.toList = .ok w := by
  refine ⟨fun cs w => ?_, fun cs values w hwritten hparse code => ?_, parse_text⟩
  · rw [parse_eq_ok_iff]
    refine exists_congr fun values => and_congr_right fun _ => ⟨?_, fun h => ?_⟩
    · rintro rfl
      exact isAllowed_ofDigits values
    · exact eq_of_isAllowed fun code => (h code).trans (isAllowed_ofDigits values code).symm
  · have hcode := code.toNat_lt
    have hread : parse cs = .ok (ofDigits values) := parse_eq_ok_iff.2 ⟨values, hwritten, rfl⟩
    obtain rfl : ofDigits values = w := Except.ok.inj (hread.symm.trans hparse)
    cases hwritten with
    | text _ _ hdigits hlength _ =>
      rw [isAllowed_ofDigits, Hex.testBit_number (Hex.lt_of_mem_digits hdigits) (by omega), hlength]

/-- The bytes of the mask that allows the last code and the first. -/
def edgeBytes : Bytes := 0x80 :: List.replicate 30 0 ++ [0x01]

/-- The digits of `edgeBytes` behind a capital mark, after a space that does not break and before the
end of a line. -/
def edgeText : List Char := ['\u00a0'] ++ (['0', 'X'] ++ Hex.encodeChars edgeBytes) ++ ['\n']

theorem mask_text_edges :
    Written edgeText (Hex.halves edgeBytes) ∧ ∃ w, parse edgeText = .ok w ∧
      w.isAllowed 0xff = true ∧ w.isAllowed 0xfe = false ∧ w.isAllowed 0x00 = true ∧
      parse w.text.toList = .ok w := by
  have hwritten : Written edgeText (Hex.halves edgeBytes) :=
    .text (List.forall_mem_singleton.2 (by decide)) (by decide) (Hex.spells_encodeChars edgeBytes)
      (by decide) (List.forall_mem_singleton.2 (by decide))
  obtain ⟨hread, hbits, htext⟩ := mask_text
  have hparse := (hread edgeText _).2 ⟨_, hwritten, isAllowed_ofDigits _⟩
  have hcodes := hbits _ _ _ hwritten hparse
  exact ⟨hwritten, _, hparse, (hcodes 0xff).trans (by decide), (hcodes 0xfe).trans (by decide),
    (hcodes 0x00).trans (by decide), htext _⟩

end Whitelist

end EvmSandbox
