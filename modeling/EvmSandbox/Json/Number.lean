/-
Numbers of JSON texts. Whole numbers that fit 64 bits are kept exactly; any
other number is a 64-bit floating point number, held by its bits. A number goes
to text and back by way of its digits.
-/
import EvmSandbox.Decimal.Rounding

namespace EvmSandbox.Json

open Decimal (Rounded)

inductive Number where
  /-- A whole number from 0 to 2^64 - 1. -/
  | natural (n : Nat)
  /-- The whole number `-n`, from -2^63 to -1. -/
  | negative (n : Nat)
  | real (bits : UInt64)
  deriving DecidableEq, Inhabited

namespace Number

/-- The digits of a number in a text. -/
structure Lexeme where
  negative : Bool
  whole : List Nat
  fraction : Option (List Nat)
  /-- Whether the exponent is negative, and its digits. -/
  exponent : Option (Bool × List Nat)
  deriving DecidableEq

/-! ## From digits -/

/-- The largest significand. -/
def maxSignificand : Nat := 0xffffffffffffffff

/-- The largest exponent that is told apart from larger ones. -/
def maxExponent : Nat := 0x7fffffff

/-- A number on its way from text: `significand * 10 ^ exponent`. -/
structure Parts where
  significand : Nat
  exponent : Int

/-- Takes whole digits into the significand. From the first digit on that no longer fits, digits
only count towards the exponent. The second result says whether that happened. -/
def takeWhole (significand : Nat) : List Nat → Parts × Bool
  | [] => (⟨significand, 0⟩, false)
  | digit :: digits =>
    if maxSignificand < significand * 10 + digit then
      (⟨significand, (digits.length + 1 : Nat)⟩, true)
    else takeWhole (significand * 10 + digit) digits

/-- Takes digits behind the point into the significand, up to the first that no longer fits. -/
def takeFraction (parts : Parts) : List Nat → Parts
  | [] => parts
  | digit :: digits =>
    if maxSignificand < parts.significand * 10 + digit then parts
    else takeFraction ⟨parts.significand * 10 + digit, parts.exponent - 1⟩ digits

/-- The exponent of digits, `none` if it is beyond `maxExponent`. -/
def takeExponent (exponent : Nat) : List Nat → Option Nat
  | [] => some exponent
  | digit :: digits =>
    if maxExponent < exponent * 10 + digit then none
    else takeExponent (exponent * 10 + digit) digits

/-- Powers of ten as floating point numbers. -/
def tenTo (exponent : Nat) : Rounded :=
  .ofNat (Nat.pow 10 exponent)

/-- `value / 10 ^ exponent`, in steps that floating point numbers can make. -/
def divideByTen (value : Rounded) (exponent : Nat) : Rounded :=
  if exponent ≤ 308 then value.div (tenTo exponent)
  else if value.mantissa = 0 then value
  else divideByTen (value.div (tenTo 308)) (exponent - 308)
  termination_by exponent

/-- The bits of the floating point number of `parts`: the significand is rounded first, then
multiplied or divided. `none` if it is too large. -/
def toBits? (parts : Parts) : Option Nat :=
  let value := Rounded.ofNat parts.significand
  match parts.exponent with
  | .ofNat e =>
    if e ≤ 308 then (value.mul (tenTo e)).bits?
    else if parts.significand = 0 then value.bits?
    else none
  | .negSucc e => (divideByTen value (e + 1)).bits?

/-- The bit that tells negative floating point numbers from others. -/
def signBit : Nat := 0x8000000000000000

def signed (negative : Bool) (bits : Nat) : Number :=
  .real (UInt64.ofNat (if negative then signBit + bits else bits))

/-- The number that digits stand for; `none` if it is too large. -/
def ofLexeme (lexeme : Lexeme) : Option Number :=
  let (parts, overflowed) := takeWhole 0 lexeme.whole
  if lexeme.fraction.isNone && lexeme.exponent.isNone && !overflowed then
    if !lexeme.negative then some (.natural parts.significand)
    else if parts.significand = 0 || 0x8000000000000000 < parts.significand then
      (toBits? parts).map (signed true)
    else some (.negative parts.significand)
  else
    let parts := takeFraction parts (lexeme.fraction.getD [])
    match lexeme.exponent with
    | none => (toBits? parts).map (signed lexeme.negative)
    | some (below, digits) =>
      match takeExponent 0 digits with
      | none =>
        if parts.significand ≠ 0 && !below then none else some (signed lexeme.negative 0)
      | some e =>
        let exponent := if below then parts.exponent - e else parts.exponent + e
        (toBits? ⟨parts.significand, exponent⟩).map (signed lexeme.negative)

/-! ## To digits -/

/-- The decimal digits of a whole number. -/
def digitsOf (n : Nat) : List Nat :=
  (Nat.toDigits 10 n).map fun c => c.toNat - 0x30

/-- Digits before and behind a point, at least one on each side of it. -/
def positional (digits : List Nat) (exponent : Int) : List Nat × List Nat :=
  match exponent with
  | .ofNat e => (digits ++ List.replicate e 0, [0])
  | .negSucc e =>
    let places := e + 1
    if places < digits.length then digits.splitAt (digits.length - places)
    else ([0], List.replicate (places - digits.length) 0 ++ digits)

/-- The exponents of the first digit for which a number is written without an exponent. -/
def isPositional (leading : Int) : Bool :=
  -5 ≤ leading && leading ≤ 15

/-- The digits of a decimal with a point or an exponent. With an exponent, only the first digit
stands before the point, and no point if there are no others. -/
def lexemeOf (negative : Bool) (decimal : Decimal.Scientific) : Lexeme :=
  let digits := digitsOf decimal.digits
  let leading := decimal.exponent + digits.length - 1
  if isPositional leading then
    let (whole, fraction) := positional digits decimal.exponent
    ⟨negative, whole, some fraction, none⟩
  else
    let (whole, others) := digits.splitAt 1
    let fraction := if others.isEmpty then none else some others
    ⟨negative, whole, fraction, some (leading < 0, digitsOf leading.natAbs)⟩

/-- The digits with which a number is written, for a floating point number the fewest that tell it
apart. There are none for a number that is not finite. -/
def lexeme? : Number → Option Lexeme
  | .natural n => some ⟨false, digitsOf n, none, none⟩
  | .negative n => some ⟨true, digitsOf n, none, none⟩
  | .real bits =>
    (Decimal.Binary.ofBits bits).map fun b => lexemeOf b.negative (Decimal.shortest b)

/-! ## Text -/

namespace Lexeme

def fractionText : Option (List Nat) → List Char
  | none => []
  | some digits => '.' :: digits.map Nat.digitChar

/-- An exponent is written with a sign in any case. -/
def exponentText : Option (Bool × List Nat) → List Char
  | none => []
  | some (below, digits) => 'e' :: (if below then '-' else '+') :: digits.map Nat.digitChar

/-- The text of digits, apart from the sign in front. -/
def unsignedText (lexeme : Lexeme) : List Char :=
  lexeme.whole.map Nat.digitChar ++ fractionText lexeme.fraction ++ exponentText lexeme.exponent

def text (lexeme : Lexeme) : List Char :=
  if lexeme.negative then '-' :: lexeme.unsignedText else lexeme.unsignedText

end Lexeme

def text (n : Number) : String :=
  match n.lexeme? with
  | none => "null"
  | some lexeme => String.ofList lexeme.text

end Number

end EvmSandbox.Json
