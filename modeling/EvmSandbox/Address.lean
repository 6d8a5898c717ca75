/-
Addresses of contracts: their text, in which the case of the letters is a
checksum, and the addresses that the manager gives to the contracts created
through it.
-/
import EvmSandbox.Hex
import EvmSandbox.Keccak

namespace EvmSandbox

abbrev Address := FixedBytes 20

namespace Address

/-- A letter is written in upper case if the digit of the hash at its place is at least 8. -/
private def checksumDigit (c : Char) (hashDigit : Nat) : Char :=
  if 8 ≤ hashDigit then c.toUpper else c

/-- The two halves of each byte, high half first. -/
private def halves (bytes : Bytes) : List Nat :=
  bytes.flatMap fun byte => [byte.toNat / 16, byte.toNat % 16]

/-- The text of an address: `0x` and 40 digits. The hash of the lower case digits decides which
letters are in upper case. -/
def text (address : Address) : String :=
  let digits := Hex.encodeChars address.bytes
  let hash := Keccak.hash (digits.map fun c => c.toNat.toUInt8)
  String.ofList ('0' :: 'x' :: List.zipWith checksumDigit digits (halves hash.bytes))

/-- Reads an address; the case of the letters is not looked at. -/
def parse (cs : List Char) : Except Hex.Error Address :=
  Hex.decodeFixed 20 cs

/-- The order of addresses as numbers. -/
def le (a b : Address) : Bool :=
  Bytes.toNat a.bytes ≤ Bytes.toNat b.bytes

/-- The last 20 bytes of a hash. -/
def ofHash (hash : FixedBytes 32) : Address :=
  FixedBytes.ofNat 20 (Bytes.toNat hash.bytes)

private def ascii (text : String) : Bytes :=
  text.toList.map fun c => c.toNat.toUInt8

/-- The address of the contract that `deployer` creates as its creation number `nonce`. -/
def created (deployer : Address) (nonce : UInt64) : Address :=
  ofHash (Keccak.hash (ascii "rollup.create" ++ deployer.bytes ++ Bytes.ofNat 8 nonce.toNat))

/-- The address of the contract that `deployer` creates from code with hash `initCodeHash` under
`salt`. -/
def createdSalted (deployer : Address) (salt initCodeHash : FixedBytes 32) : Address :=
  ofHash (Keccak.hash
    (ascii "rollup.create2" ++ deployer.bytes ++ salt.bytes ++ initCodeHash.bytes))

end Address

end EvmSandbox
