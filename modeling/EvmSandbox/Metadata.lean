/-
The metadata trailer that compilers append to runtime code: a CBOR map and
its length in two bytes.
-/
import EvmSandbox.Bytes

namespace EvmSandbox.Metadata

/-- Whether the byte opens a CBOR map of one to five entries. -/
def opensMap (byte : UInt8) : Bool :=
  0xa1 ≤ byte && byte ≤ 0xa5

/-- The offset at which the trailer begins. The last two bytes are the length of the map before
them; there is no trailer if the map does not fit or does not begin as one. -/
def start? (code : Bytes) : Option Nat :=
  if code.length < 2 then none
  else
    let payload := Bytes.toNat (code.drop (code.length - 2))
    if code.length < payload + 2 then none
    else
      let start := code.length - (payload + 2)
      match code[start]? with
      | some byte => if opensMap byte then some start else none
      | none => none

/-- `code` without its trailer. -/
def strip (code : Bytes) : Bytes :=
  match start? code with
  | some start => code.take start
  | none => code

theorem lt_length_of_start? {code : Bytes} {start : Nat} (h : start? code = some start) :
    start < code.length := by
  simp only [start?] at h
  split at h
  · cases h
  · split at h
    · cases h
    · split at h
      · rename_i byte hbyte
        split at h
        · cases h
          exact (List.getElem?_eq_some_iff.1 hbyte).1
        · cases h
      · cases h

theorem isPrefix_strip (code : Bytes) : strip code <+: code := by
  rw [strip]
  split
  · exact List.take_prefix _ _
  · exact List.prefix_rfl

/-- Code keeps all its bytes exactly if it has no trailer. -/
theorem strip_eq_self_iff {code : Bytes} : strip code = code ↔ start? code = none := by
  cases hstart : start? code with
  | none => simp [strip, hstart]
  | some start =>
    have hlt := lt_length_of_start? hstart
    simp only [strip, hstart, reduceCtorEq, iff_false]
    intro hsame
    have hlength := congrArg List.length hsame
    rw [List.length_take] at hlength
    omega

end EvmSandbox.Metadata
