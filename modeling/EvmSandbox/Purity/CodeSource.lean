/-
Where the purity check gets the code of contracts from: a map of contracts,
or the accounts of a chain, which may hold their code only by its hash.
-/
import EvmSandbox.Address

namespace EvmSandbox

/-- Gives the code at an address, `none` where there is none, or says why it could not be had. -/
structure CodeSource where
  code : Address → Except String (Option Bytes)

namespace CodeSource

/-- Empty code counts as none. -/
def nonEmpty (code : Bytes) : Option Bytes :=
  if code.isEmpty then none else some code

/-- The contracts of a list; of several with one address the last counts. -/
def ofContracts (contracts : List (Address × Bytes)) : CodeSource :=
  ⟨fun address => .ok ((contracts.reverse.lookup address).bind nonEmpty)⟩

/-- An account: the hash of its code, and the code if it is at hand. -/
structure Account where
  codeHash : FixedBytes 32
  code : Option Bytes
  deriving DecidableEq

/-- The accounts of a chain, and the codes by their hashes. -/
structure Database where
  account : Address → Except String (Option Account)
  codeByHash : FixedBytes 32 → Except String Bytes

/-- The hash of the empty code. -/
def emptyHash : FixedBytes 32 :=
  Keccak.hash []

/-- The codes of the accounts of `database`. -/
def ofDatabase (database : Database) : CodeSource where
  code address :=
    match database.account address with
    | .error e => .error e
    | .ok none => .ok none
    | .ok (some account) =>
      match account.code with
      | some code => .ok (nonEmpty code)
      | none =>
        if account.codeHash = emptyHash then .ok none
        else
          match database.codeByHash account.codeHash with
          | .error e => .error e
          | .ok code => .ok (nonEmpty code)

end CodeSource

end EvmSandbox
