/-
The tokens of a JSON text. A token that is broken off or is none ends the
list, since nothing after it is looked at.
-/
import EvmSandbox.Hex
import EvmSandbox.Json.Document

namespace EvmSandbox.Json

inductive Token where
  | openArray
  | closeArray
  | openObject
  | closeObject
  | comma
  | colon
  | null
  | bool (value : Bool)
  /-- No value if the number is too large. -/
  | number (value : Option Number)
  /-- No value if the text has half of a pair of escapes. -/
  | string (value : Option String)
  /-- A string that is broken off. -/
  | brokenString (fault : Break)
  /-- Anything else that is no token. -/
  | broken (fault : Break)

namespace Lexer

/-! ## Strings -/

/-- The number of the four digits after `\u`. -/
def unit? (a b c d : Char) : Option Nat :=
  match Hex.digit? a, Hex.digit? b, Hex.digit? c, Hex.digit? d with
  | some a, some b, some c, some d => some (((a * 16 + b) * 16 + c) * 16 + d)
  | _, _, _, _ => none

/-- The character of a one-letter escape. -/
def escaped? : Char → Option Char
  | '"' => some '"'
  | '\\' => some '\\'
  | '/' => some '/'
  | 'b' => some '\x08'
  | 'f' => some '\x0c'
  | 'n' => some '\n'
  | 'r' => some '\r'
  | 't' => some '\t'
  | _ => none

/-- What has been read of a string: its characters, last one first, and the first half of a pair
of escapes that waits for the second. A half alone makes the string unreadable. -/
structure Pending where
  chars : List Char := []
  high : Option Nat := none
  readable : Bool := true

namespace Pending

/-- No second half comes after a first half. -/
def endPair (p : Pending) : Pending :=
  if p.high.isSome then { p with high := none, readable := false } else p

def push (p : Pending) (c : Char) : Pending :=
  let p := p.endPair
  { p with chars := c :: p.chars }

/-- Takes a UTF-16 unit: first halves of pairs run from 0xd800, second ones from 0xdc00. -/
def pushUnit (p : Pending) (unit : Nat) : Pending :=
  if 0xdc00 ≤ unit && unit ≤ 0xdfff then
    match p.high with
    | some high =>
      { p with
        chars := Char.ofNat (0x10000 + (high - 0xd800) * 0x400 + (unit - 0xdc00)) :: p.chars
        high := none }
    | none => { p with readable := false }
  else if 0xd800 ≤ unit && unit ≤ 0xdbff then { p.endPair with high := some unit }
  else p.push (Char.ofNat unit)

/-- The fault at this place, as reading and skipping see it. -/
def fault (p : Pending) (f : Fault) : Break :=
  let reading := if p.readable then f else .malformed
  ⟨reading, f, reading⟩

def finished (p : Pending) : Token :=
  let p := p.endPair
  .string (if p.readable then some (String.ofList p.chars.reverse) else none)

end Pending

/-- Reads a string after its opening quote. Where fewer than four bytes follow `\u` the text is too
short, whatever they are. -/
def string (p : Pending) : List Char → Token × List Char
  | [] => (.brokenString (p.fault .incomplete), [])
  | '"' :: rest => (p.finished, rest)
  | ['\\'] => (.brokenString (p.fault .incomplete), [])
  | '\\' :: 'u' :: a :: b :: c :: d :: rest =>
    match unit? a b c d with
    | some unit => string (p.pushUnit unit) rest
    | none => (.brokenString (p.fault .malformed), [])
  | '\\' :: 'u' :: few =>
    let fault := if Hex.utf8Length few < 4 then .incomplete else .malformed
    (.brokenString (p.fault fault), [])
  | '\\' :: c :: rest =>
    match escaped? c with
    | some c => string (p.push c) rest
    | none => (.brokenString (p.fault .malformed), [])
  | c :: rest =>
    if c.toNat < 0x20 then (.brokenString (p.fault .malformed), [])
    else string (p.push c) rest

/-! ## Numbers -/

def isDigit (c : Char) : Bool := '0' ≤ c && c ≤ '9'

def digits (cs : List Char) : List Nat × List Char :=
  ((cs.takeWhile isDigit).map fun c => c.toNat - 0x30, cs.dropWhile isDigit)

/-- A number that stops where a digit is needed. A text that ends there is too short, but skipping
does not see it that way. -/
def noDigit (cs : List Char) : Break :=
  if cs.isEmpty then .unnamed .incomplete .malformed else .all .malformed

/-- The digits before a point: a zero alone or any others. -/
def whole (cs : List Char) : Except Break (List Nat × List Char) :=
  match digits cs with
  | ([], rest) => .error (noDigit rest)
  | (0 :: _ :: _, _) => .error (.all .malformed)
  | found => .ok found

/-- The digits behind a point. -/
def fraction (cs : List Char) : Except Break (Option (List Nat) × List Char) :=
  match cs with
  | '.' :: rest =>
    match digits rest with
    | ([], rest) => .error (noDigit rest)
    | (found, rest) => .ok (some found, rest)
  | cs => .ok (none, cs)

/-- The sign and the digits of an exponent. -/
def exponent (cs : List Char) : Except Break (Option (Bool × List Nat) × List Char) :=
  match cs with
  | c :: rest =>
    if c == 'e' || c == 'E' then
      let (below, rest) := match rest with
        | '+' :: rest => (false, rest)
        | '-' :: rest => (true, rest)
        | rest => (false, rest)
      match digits rest with
      | ([], rest) => .error (noDigit rest)
      | (found, rest) => .ok (some (below, found), rest)
    else .ok (none, cs)
  | [] => .ok (none, [])

/-- Reads a number after its sign. -/
def number (negative : Bool) (cs : List Char) : Token × List Char :=
  let lexeme : Except Break (Number.Lexeme × List Char) := do
    let (whole, rest) ← whole cs
    let (fraction, rest) ← fraction rest
    let (exponent, rest) ← exponent rest
    return (⟨negative, whole, fraction, exponent⟩, rest)
  match lexeme with
  | .error b => (.broken b, [])
  | .ok (lexeme, rest) => (.number (Number.ofLexeme lexeme), rest)

/-! ## Words -/

/-- Reads the rest of a word. -/
def word (token : Token) : (expected cs : List Char) → Token × List Char
  | [], rest => (token, rest)
  | _ :: _, [] => (.broken (.unnamed .incomplete .incomplete), [])
  | e :: expected, c :: rest =>
    if e == c then word token expected rest else (.broken (.all .malformed), [])

/-! ## Texts -/

def isSpace (c : Char) : Bool :=
  c == ' ' || c == '\n' || c == '\t' || c == '\r'

/-- The first token of a text without leading space, and what follows it. -/
def token (cs : List Char) : Token × List Char :=
  match cs with
  | [] => (.broken (.all .incomplete), [])
  | '[' :: rest => (.openArray, rest)
  | ']' :: rest => (.closeArray, rest)
  | '\x7b' :: rest => (.openObject, rest)
  | '\x7d' :: rest => (.closeObject, rest)
  | ',' :: rest => (.comma, rest)
  | ':' :: rest => (.colon, rest)
  | '"' :: rest => string {} rest
  | 'n' :: rest => word .null ['u', 'l', 'l'] rest
  | 't' :: rest => word (.bool true) ['r', 'u', 'e'] rest
  | 'f' :: rest => word (.bool false) ['a', 'l', 's', 'e'] rest
  | '-' :: rest => number true rest
  | c :: rest =>
    if isDigit c then number false (c :: rest) else (.broken (.all .malformed), [])

/-- The tokens of a text, after the tokens `done`, last one first. Every token takes at least one
character, so there are no more tokens than characters. -/
def scan (done : List Token) : (fuel : Nat) → List Char → List Token
  | 0, _ => done.reverse
  | fuel + 1, cs =>
    match cs.dropWhile isSpace with
    | [] => done.reverse
    | c :: rest =>
      match token (c :: rest) with
      | (.broken b, _) => (Token.broken b :: done).reverse
      | (.brokenString b, _) => (Token.brokenString b :: done).reverse
      | (found, rest) => scan (found :: done) fuel rest

def tokens (text : String) : List Token :=
  let cs := text.toList
  scan [] cs.length cs

end Lexer

end EvmSandbox.Json
