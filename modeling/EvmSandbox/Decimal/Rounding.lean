/-
Binary floating point numbers of 64 bits as results of computations. A
fraction is rounded to the nearest number, and if two are equally near, to the
one with the even mantissa. Signs are left out. All of it is computed in whole
numbers.
-/
import EvmSandbox.Decimal.Shortest

namespace EvmSandbox.Decimal

/-- `num / den` as a whole number, halves going to the even one. -/
def roundedQuotient (num den : Nat) : Nat :=
  let twice := 2 * (num % den)
  if twice < den then num / den
  else if den < twice then num / den + 1
  else num / den + num / den % 2

/-- The number `mantissa * 2 ^ exponent` as rounding leaves it. -/
structure Rounded where
  mantissa : Nat
  exponent : Int
  deriving DecidableEq

namespace Ratio

/-- The exponent of the highest binary digit of a fraction that is not zero. -/
def leadingBit (r : Ratio) : Int :=
  let guess := (r.num.log2 : Int) - r.den.log2
  if (scaled 1 2 guess).le r then guess else guess - 1

/-- The number nearest to a fraction. It has 53 binary digits, or fewer if it is very small. -/
def rounded (r : Ratio) : Rounded :=
  if r.num = 0 then ⟨0, -1074⟩
  else
    let exponent := max (r.leadingBit - 52) (-1074)
    match exponent with
    | .ofNat e => ⟨roundedQuotient r.num (r.den * Nat.pow 2 e), exponent⟩
    | .negSucc e => ⟨roundedQuotient (r.num * Nat.pow 2 (e + 1)) r.den, exponent⟩

end Ratio

namespace Rounded

def ofNat (n : Nat) : Rounded := Ratio.rounded ⟨n, 1⟩

def ratio (a : Rounded) : Ratio := .scaled a.mantissa 2 a.exponent

def mul (a b : Rounded) : Rounded :=
  Ratio.rounded ⟨a.ratio.num * b.ratio.num, a.ratio.den * b.ratio.den⟩

def div (a b : Rounded) : Rounded :=
  Ratio.rounded ⟨a.ratio.num * b.ratio.den, a.ratio.den * b.ratio.num⟩

/-- The first bits that stand for no finite number. -/
def infinityBits : Nat := 0x7ff0000000000000

/-- The bits of a number; `none` if it is too large. The exponent is counted from the lowest one on,
and a mantissa with its highest bit set carries into it. -/
def bits? (a : Rounded) : Option Nat :=
  let bits := (a.exponent + 1074).toNat * hiddenBit + a.mantissa
  if bits < infinityBits then some bits else none

end Rounded

end EvmSandbox.Decimal
