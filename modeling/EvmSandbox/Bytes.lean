/-
Byte strings. Numbers stand in them most significant byte first. A string of
a fixed length carries the proof of its length.
-/
namespace EvmSandbox

abbrev Bytes := List UInt8

namespace Bytes

/-- The number that `bytes` spells in base 256, most significant byte first. -/
def toNat (bytes : Bytes) : Nat :=
  bytes.foldl (fun value byte => value * 256 + byte.toNat) 0

/-- The last `width` base-256 digits of `value`, most significant first. -/
def ofNat : (width value : Nat) → Bytes
  | 0, _ => []
  | width + 1, value => UInt8.ofNat (value / Nat.pow 256 width) :: ofNat width value

@[simp] theorem length_ofNat (width value : Nat) : (ofNat width value).length = width := by
  induction width with
  | zero => rfl
  | succ width ih => simp [ofNat, ih]

/-- `bytes` without its leading zero bytes. -/
def significant (bytes : Bytes) : Bytes :=
  bytes.dropWhile (· == 0)

end Bytes

/-- The number of bytes needed to write `value`, at least one. -/
def byteWidth (value : Nat) : Nat :=
  value.log2 / 8 + 1

/-- A byte string of length `n`. -/
structure FixedBytes (n : Nat) where
  bytes : Bytes
  length_eq : bytes.length = n
  deriving DecidableEq

namespace FixedBytes

/-- `bytes` as a string of length `n`, if that is its length. -/
def ofBytes? (n : Nat) (bytes : Bytes) : Option (FixedBytes n) :=
  if h : bytes.length = n then some ⟨bytes, h⟩ else none

/-- The `n` bytes of `value`, most significant first. -/
def ofNat (n value : Nat) : FixedBytes n :=
  ⟨Bytes.ofNat n value, Bytes.length_ofNat n value⟩

instance (n : Nat) : Inhabited (FixedBytes n) :=
  ⟨ofNat n 0⟩

end FixedBytes

end EvmSandbox
