/-
The set of instruction codes that may run as they are, held as a 256-bit
mask: code `c` is allowed when bit `c` is set. A mask is changed in one of its
four words of 64 bits at a time. The text of a mask is a 256-bit number in
hexadecimal digits.
-/
import EvmSandbox.Hex
import EvmSandbox.Opcode
import EvmSandbox.Text.Blank

namespace EvmSandbox

structure Whitelist where
  mask : BitVec 256
  deriving DecidableEq

namespace Whitelist

def empty : Whitelist := ⟨0⟩

def full : Whitelist := ⟨BitVec.allOnes 256⟩

def isAllowed (w : Whitelist) (code : UInt8) : Bool :=
  w.mask.getLsbD code.toNat

/-! ## Changes -/

/-- Word `i` of the mask, the lowest being word 0. -/
def word (w : Whitelist) (i : Fin 4) : BitVec 64 :=
  w.mask.extractLsb' (64 * i) 64

def ofWords (words : Fin 4 → BitVec 64) : Whitelist :=
  ⟨words 3 ++ words 2 ++ words 1 ++ words 0⟩

/-- Changes the word that `code` belongs to; `change` takes that word and the bit of `code` in it. -/
def changeWord (w : Whitelist) (code : UInt8) (change : BitVec 64 → BitVec 64 → BitVec 64) :
    Whitelist :=
  ofWords fun i =>
    if i = code.toNat / 64 then change (w.word i) (1#64 <<< (code.toNat % 64)) else w.word i

def allow (w : Whitelist) (code : UInt8) : Whitelist :=
  w.changeWord code fun word bit => word ||| bit

def disallow (w : Whitelist) (code : UInt8) : Whitelist :=
  w.changeWord code fun word bit => word &&& ~~~ bit

theorem toNat_next {code : UInt8} (h : code ≠ 0xff) : (code + 1).toNat = code.toNat + 1 := by
  have hlt := code.toNat_lt
  have hne : code.toNat ≠ 255 := fun heq => h (UInt8.toNat_inj.1 heq)
  rw [UInt8.toNat_add, UInt8.toNat_one, Nat.mod_eq_of_lt (by omega)]

/-- Allows every code from `first` to `last`, both included. After `0xff` there is no next code. -/
def allowRange (w : Whitelist) (first last : UInt8) : Whitelist :=
  if first ≤ last then
    if first = 0xff then w.allow first else (w.allow first).allowRange (first + 1) last
  else w
termination_by 255 - first.toNat
decreasing_by
  rename_i hne
  have hlt := (first + 1).toNat_lt
  rw [toNat_next hne] at hlt ⊢
  omega

/-! ## Codes -/

/-- All 256 codes in ascending order. -/
def allCodes : List UInt8 :=
  (List.range 256).map UInt8.ofNat

/-- The allowed codes in ascending order. -/
def codes (w : Whitelist) : List UInt8 :=
  allCodes.filter w.isAllowed

/-- The codes that touch nothing but the stack, the memory, the call data and the code itself. -/
def standard : Whitelist :=
  [(Opcode.stop, Opcode.signExtend), (Opcode.lt, Opcode.sar),
   (Opcode.keccak256, Opcode.keccak256), (Opcode.callDataLoad, Opcode.codeCopy),
   (Opcode.returnDataSize, Opcode.returnDataCopy), (Opcode.pop, Opcode.mstore8),
   (Opcode.jump, Opcode.jumpI), (Opcode.msize, Opcode.jumpDest), (Opcode.mcopy, Opcode.swap16),
   (Opcode.log0, Opcode.log4), (Opcode.ret, Opcode.ret), (Opcode.revert, Opcode.invalid)].foldl
    (fun w range => w.allowRange range.1 range.2) empty

/-! ## Text -/

def text (w : Whitelist) : String :=
  Hex.encodeMarked (Bytes.ofNat 32 w.mask.toNat)

/-- The text of a mask with the name of its type. -/
def labelledText (w : Whitelist) : String :=
  s!"WhitelistMask({w.text})"

inductive ParseError where
  | length (bits : Nat)
  | digits (cause : Hex.Error)
  deriving DecidableEq

def ParseError.message : ParseError → String
  | .length bits => s!"whitelist mask must be 256 bits, got {bits}"
  | .digits cause => s!"invalid whitelist mask: {cause.message}"

/-- Reads a mask from `cs`, blanks at the ends aside. The length is looked at before the digits,
four bits to a byte of text, once the mark is off. -/
def parse (cs : List Char) : Except ParseError Whitelist :=
  let digits := Hex.unmark (Text.trim cs)
  let bits := 4 * Hex.utf8Length digits
  if bits = 256 then
    match Hex.decodeFixed 32 digits with
    | .error cause => .error (.digits cause)
    | .ok value => .ok ⟨BitVec.ofNat 256 (Bytes.toNat value.bytes)⟩
  else .error (.length bits)

end Whitelist

end EvmSandbox
