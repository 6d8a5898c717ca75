/-
Instruction codes: which bytes are instructions, their mnemonics, and how
many bytes of immediate operand follow them.
-/
import EvmSandbox.Hex

namespace EvmSandbox.Opcode

/-! ## The codes the library speaks of by name -/

def stop : UInt8 := 0x00
def sub : UInt8 := 0x03
def add : UInt8 := 0x01
def signExtend : UInt8 := 0x0b
def lt : UInt8 := 0x10
def sar : UInt8 := 0x1d
def keccak256 : UInt8 := 0x20
def address : UInt8 := 0x30
def balance : UInt8 := 0x31
def origin : UInt8 := 0x32
def caller : UInt8 := 0x33
def callValue : UInt8 := 0x34
def callDataLoad : UInt8 := 0x35
def codeSize : UInt8 := 0x38
def codeCopy : UInt8 := 0x39
def extCodeSize : UInt8 := 0x3b
def returnDataSize : UInt8 := 0x3d
def returnDataCopy : UInt8 := 0x3e
def extCodeHash : UInt8 := 0x3f
def timestamp : UInt8 := 0x42
def number : UInt8 := 0x43
def gasLimit : UInt8 := 0x45
def chainId : UInt8 := 0x46
def selfBalance : UInt8 := 0x47
def pop : UInt8 := 0x50
def mload : UInt8 := 0x51
def mstore : UInt8 := 0x52
def mstore8 : UInt8 := 0x53
def sload : UInt8 := 0x54
def sstore : UInt8 := 0x55
def jump : UInt8 := 0x56
def jumpI : UInt8 := 0x57
def msize : UInt8 := 0x59
def gas : UInt8 := 0x5a
def jumpDest : UInt8 := 0x5b
def mcopy : UInt8 := 0x5e
def push0 : UInt8 := 0x5f
def push1 : UInt8 := 0x60
def push20 : UInt8 := 0x73
def push32 : UInt8 := 0x7f
def dup1 : UInt8 := 0x80
def dup2 : UInt8 := 0x81
def dup3 : UInt8 := 0x82
def dup4 : UInt8 := 0x83
def dup16 : UInt8 := 0x8f
def swap1 : UInt8 := 0x90
def swap2 : UInt8 := 0x91
def swap16 : UInt8 := 0x9f
def log0 : UInt8 := 0xa0
def log4 : UInt8 := 0xa4
def create : UInt8 := 0xf0
def call : UInt8 := 0xf1
def callCode : UInt8 := 0xf2
def ret : UInt8 := 0xf3
def delegateCall : UInt8 := 0xf4
def create2 : UInt8 := 0xf5
def staticCall : UInt8 := 0xfa
def revert : UInt8 := 0xfd
def invalid : UInt8 := 0xfe

/-! ## Classes of codes -/

/-- Whether the byte is an instruction. -/
def isDefined (code : UInt8) : Bool :=
  code ≤ 0x0b || (0x10 ≤ code && code ≤ 0x1d) || code == 0x20 || (0x30 ≤ code && code ≤ 0x4a) ||
    (0x50 ≤ code && code ≤ 0xa4) || (0xf0 ≤ code && code ≤ 0xf5) || code == 0xfa || 0xfd ≤ code

/-- Whether the instruction pushes an immediate operand. -/
def isPush (code : UInt8) : Bool :=
  push1 ≤ code && code ≤ push32

/-- Whether the instruction calls another contract. -/
def isCall (code : UInt8) : Bool :=
  code == call || code == callCode || code == delegateCall || code == staticCall

/-- Whether the instruction jumps. -/
def isJump (code : UInt8) : Bool :=
  code == jump || code == jumpI

/-- The number of immediate bytes that follow the code. -/
def immediateLength (code : UInt8) : Nat :=
  if isPush code then code.toNat - 0x5f else 0

/-- The push of `width` bytes; pushes have one to 32 bytes. -/
def push? (width : Nat) : Option UInt8 :=
  if 1 ≤ width ∧ width ≤ 32 then some (UInt8.ofNat (0x5f + width)) else none

/-- What is said of a width that no push has. -/
def pushWidthMessage : String := "push width out of range"

/-- The push of `width` bytes, for a width from one to 32. -/
def push (width : Nat) : UInt8 :=
  UInt8.ofNat (0x5f + width)

/-! ## Mnemonics -/

private def arithmetic : List String :=
  ["STOP", "ADD", "MUL", "SUB", "DIV", "SDIV", "MOD", "SMOD", "ADDMOD", "MULMOD", "EXP",
   "SIGNEXTEND"]

private def logic : List String :=
  ["LT", "GT", "SLT", "SGT", "EQ", "ISZERO", "AND", "OR", "XOR", "NOT", "BYTE", "SHL", "SHR",
   "SAR"]

private def environment : List String :=
  ["ADDRESS", "BALANCE", "ORIGIN", "CALLER", "CALLVALUE", "CALLDATALOAD", "CALLDATASIZE",
   "CALLDATACOPY", "CODESIZE", "CODECOPY", "GASPRICE", "EXTCODESIZE", "EXTCODECOPY",
   "RETURNDATASIZE", "RETURNDATACOPY", "EXTCODEHASH", "BLOCKHASH", "COINBASE", "TIMESTAMP",
   "NUMBER", "DIFFICULTY", "GASLIMIT", "CHAINID", "SELFBALANCE", "BASEFEE", "BLOBHASH",
   "BLOBBASEFEE"]

private def storage : List String :=
  ["POP", "MLOAD", "MSTORE", "MSTORE8", "SLOAD", "SSTORE", "JUMP", "JUMPI", "PC", "MSIZE", "GAS",
   "JUMPDEST", "TLOAD", "TSTORE", "MCOPY", "PUSH0"]

private def calls : List String :=
  ["CREATE", "CALL", "CALLCODE", "RETURN", "DELEGATECALL", "CREATE2"]

private def numbered (name : String) (first code : Nat) : String :=
  s!"{name}{code - first}"

/-- The mnemonic of an instruction, `none` for a byte that is no instruction. -/
def mnemonic? (code : UInt8) : Option String :=
  let n := code.toNat
  if n < 0x10 then arithmetic[n]?
  else if n < 0x20 then logic[n - 0x10]?
  else if n == 0x20 then some "KECCAK256"
  else if n < 0x30 then none
  else if n < 0x50 then environment[n - 0x30]?
  else if n < 0x60 then storage[n - 0x50]?
  else if n < 0x80 then some (numbered "PUSH" 0x5f n)
  else if n < 0x90 then some (numbered "DUP" 0x7f n)
  else if n < 0xa0 then some (numbered "SWAP" 0x8f n)
  else if n < 0xa5 then some (numbered "LOG" 0xa0 n)
  else if n < 0xf0 then none
  else if n < 0xf6 then calls[n - 0xf0]?
  else if n == 0xfa then some "STATICCALL"
  else if n == 0xfd then some "REVERT"
  else if n == 0xfe then some "INVALID"
  else if n == 0xff then some "SELFDESTRUCT"
  else none

/-- The mnemonic of a code, `UNKNOWN` for a byte that is no instruction. -/
def mnemonic (code : UInt8) : String :=
  (mnemonic? code).getD "UNKNOWN"

/-- A code as `0x` and two digits. -/
def codeText (code : UInt8) : String :=
  Hex.encodeMarked [code]

/-- What is said of a byte that is no instruction. -/
def unknownMessage (code : UInt8) : String :=
  s!"unknown opcode {codeText code}"

end EvmSandbox.Opcode
