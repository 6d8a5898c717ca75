/-
Bytes written as hexadecimal digits. Writing gives two lower case digits per
byte. Reading takes digits of either case, behind an optional `0x` or `0X`,
and says where and why it failed. Lengths and positions count the bytes of
the text in UTF-8, so the byte at fault is the first byte of the first
character that is no digit.
-/
import EvmSandbox.Bytes
import EvmSandbox.Text.Blank
import EvmSandbox.Text.Quoted

namespace EvmSandbox.Hex

inductive Error where
  | oddLength
  | wrongLength
  | invalidByte (byte : UInt8) (position : Nat)
  deriving DecidableEq

def Error.message : Error → String
  | .oddLength => "odd number of digits"
  | .wrongLength => "invalid string length"
  | .invalidByte byte position =>
    let shown := Text.quoteChar (Char.ofNat byte.toNat)
    s!"invalid character {shown} at position {position}"

/-- The digit of a number below 16. -/
def digit (n : Nat) : Char :=
  if n < 10 then Char.ofNat (0x30 + n) else Char.ofNat (0x57 + n)

/-- The number that a digit stands for. -/
def digit? (c : Char) : Option Nat :=
  let n := c.toNat
  if 0x30 ≤ n ∧ n ≤ 0x39 then some (n - 0x30)
  else if 0x61 ≤ n ∧ n ≤ 0x66 then some (n - 0x57)
  else if 0x41 ≤ n ∧ n ≤ 0x46 then some (n - 0x37)
  else none

/-- The two digits of a byte, high half first. -/
def digitPair (byte : UInt8) : List Char :=
  [digit (byte.toNat / 16), digit (byte.toNat % 16)]

def encodeChars (bytes : Bytes) : List Char :=
  bytes.flatMap digitPair

def encode (bytes : Bytes) : String :=
  String.ofList (encodeChars bytes)

/-- `bytes` in digits behind `0x`. -/
def encodeMarked (bytes : Bytes) : String :=
  String.ofList ('0' :: 'x' :: encodeChars bytes)

/-- `cs` without one leading `0x` or `0X`. -/
def unmark : List Char → List Char
  | '0' :: 'x' :: rest => rest
  | '0' :: 'X' :: rest => rest
  | cs => cs

/-- The number of bytes of `cs` in UTF-8. -/
def utf8Length (cs : List Char) : Nat :=
  cs.foldl (fun length c => length + c.utf8Size) 0

private def invalidAt (c : Char) (position : Nat) : Error :=
  .invalidByte ((String.utf8EncodeChar c).headD 0) position

/-- Reads digits in pairs from byte `position` on, after the bytes `done`, last byte first. -/
def decodePairs (done : Bytes) (position : Nat) : List Char → Except Error Bytes
  | [] => .ok done.reverse
  | [c] =>
    match digit? c with
    | none => .error (invalidAt c position)
    | some _ => .error .oddLength
  | high :: low :: rest =>
    match digit? high, digit? low with
    | none, _ => .error (invalidAt high position)
    | some _, none => .error (invalidAt low (position + 1))
    | some h, some l => decodePairs (UInt8.ofNat (16 * h + l) :: done) (position + 2) rest

/-- The bytes of any number of digit pairs. -/
def decode (text : List Char) : Except Error Bytes :=
  let digits := unmark text
  if utf8Length digits % 2 = 1 then .error .oddLength
  else decodePairs [] 0 digits

/-- The bytes of any number of digit pairs between blanks. -/
def decodeTrimmed (text : String) : Except Error Bytes :=
  decode (Text.trim text.toList)

/-- The bytes of exactly `n` digit pairs. -/
def decodeFixed (n : Nat) (text : List Char) : Except Error (FixedBytes n) :=
  let digits := unmark text
  let length := utf8Length digits
  if length = 2 * n then
    match decodePairs [] 0 digits with
    | .error e => .error e
    | .ok bytes =>
      match FixedBytes.ofBytes? n bytes with
      | some fixed => .ok fixed
      | none => .error .wrongLength
  else if length % 2 = 1 then .error .oddLength
  else .error .wrongLength

end EvmSandbox.Hex
