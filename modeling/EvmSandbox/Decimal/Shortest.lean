/-
The shortest decimal of a binary floating point number: the fewest digits
that lie nearer to the number than to its neighbours, and of several such
decimals the nearest. All of it is computed in whole numbers.
-/
namespace EvmSandbox.Decimal

/-- The number `digits * 10 ^ exponent`. -/
structure Scientific where
  digits : Nat
  exponent : Int
  deriving DecidableEq

/-- The finite number `mantissa * 2 ^ exponent`, apart from its sign. -/
structure Binary where
  negative : Bool
  mantissa : Nat
  exponent : Int
  /-- Whether the neighbour below is only half as far away as the one above. -/
  lowerIsNear : Bool
  deriving DecidableEq

/-- The bit above those of the fraction, which is not written. -/
def hiddenBit : Nat := 0x10000000000000

/-- The number with the given 64 bits; `none` if it is not finite. -/
def Binary.ofBits (bits : UInt64) : Option Binary :=
  let n := bits.toNat
  let negative := n >>> 63 == 1
  let field := (n >>> 52) % 0x800
  let fraction := n % hiddenBit
  if field == 2047 then none
  else if field == 0 then some ⟨negative, fraction, -1074, false⟩
  else some ⟨negative, hiddenBit + fraction, Int.ofNat field - 1075, fraction == 0 && field != 1⟩

/-- A fraction of whole numbers. -/
structure Ratio where
  num : Nat
  den : Nat

namespace Ratio

def le (a b : Ratio) : Bool := a.num * b.den ≤ b.num * a.den

def lt (a b : Ratio) : Bool := a.num * b.den < b.num * a.den

/-- `mantissa * base ^ exponent`. -/
def scaled (mantissa base : Nat) (exponent : Int) : Ratio :=
  match exponent with
  | .ofNat e => ⟨mantissa * Nat.pow base e, 1⟩
  | .negSucc e => ⟨mantissa, Nat.pow base (e + 1)⟩

end Ratio

def Scientific.ratio (d : Scientific) : Ratio := .scaled d.digits 10 d.exponent

/-- The numbers that are nearer to a binary number than to its neighbours. The ends belong to them
if the mantissa is even. -/
structure Interval where
  low : Ratio
  middle : Ratio
  high : Ratio
  closed : Bool

def Binary.interval (b : Binary) : Interval :=
  let below := if b.lowerIsNear then 1 else 2
  { low := .scaled (4 * b.mantissa - below) 2 (b.exponent - 2)
    middle := .scaled (4 * b.mantissa) 2 (b.exponent - 2)
    high := .scaled (4 * b.mantissa + 2) 2 (b.exponent - 2)
    closed := b.mantissa % 2 == 0 }

def Interval.contains (i : Interval) (r : Ratio) : Bool :=
  if i.closed then i.low.le r && r.le i.high else i.low.lt r && r.lt i.high

/-- The exponent of the first decimal digit of a number that is not zero, looked for from
`guess` downwards. -/
def leadingExponent (r : Ratio) (guess : Int) : (tries : Nat) → Int
  | 0 => guess
  | tries + 1 =>
    if (Ratio.scaled 1 10 guess).le r then guess else leadingExponent r (guess - 1) tries

/-- The multiples of `10 ^ exponent` next to `r`, the lower one first. -/
def neighbours (r : Ratio) (exponent : Int) : Scientific × Scientific :=
  let lower :=
    match exponent with
    | .ofNat e => r.num / (r.den * Nat.pow 10 e)
    | .negSucc e => r.num * Nat.pow 10 (e + 1) / r.den
  (⟨lower, exponent⟩, ⟨lower + 1, exponent⟩)

/-- Of two decimals around `r` the nearer one, and of two equally near ones the even one. -/
def nearer (r : Ratio) (lower higher : Scientific) : Scientific :=
  let l := lower.ratio
  let h := higher.ratio
  -- Compares `r - l` with `h - r`, that is `2 r` with `l + h`.
  let twice := 2 * r.num * l.den * h.den
  let sum := (l.num * h.den + h.num * l.den) * r.den
  if twice < sum then lower
  else if sum < twice then higher
  else if lower.digits % 2 == 0 then lower else higher

/-- The nearest decimal in the interval among the multiples of `10 ^ exponent`. -/
def Interval.nearest? (i : Interval) (exponent : Int) : Option Scientific :=
  let (lower, higher) := neighbours i.middle exponent
  match i.contains lower.ratio && lower.digits != 0, i.contains higher.ratio with
  | true, true => some (nearer i.middle lower higher)
  | true, false => some lower
  | false, true => some higher
  | false, false => none

/-- Tries ever finer multiples, from `10 ^ exponent` on. -/
def Interval.shortestFrom (i : Interval) (exponent : Int) : (tries : Nat) → Scientific
  | 0 => (neighbours i.middle exponent).2
  | tries + 1 =>
    match i.nearest? exponent with
    | some decimal => decimal
    | none => i.shortestFrom (exponent - 1) tries

/-- Drops zeros at the end of the digits. -/
def Scientific.trimmed (d : Scientific) : (tries : Nat) → Scientific
  | 0 => d
  | tries + 1 =>
    if d.digits != 0 && d.digits % 10 == 0 then
      Scientific.trimmed ⟨d.digits / 10, d.exponent + 1⟩ tries
    else d

/-- The shortest decimal of a binary number, apart from its sign. -/
def shortest (b : Binary) : Scientific :=
  if b.mantissa == 0 then ⟨0, 0⟩
  else
    let i := b.interval
    let first := leadingExponent i.middle 309 640
    (i.shortestFrom first 18).trimmed 20

end EvmSandbox.Decimal
