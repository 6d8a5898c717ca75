/-
Contracts given as a JSON object of hex code by address.
-/
import EvmSandbox.Address
import EvmSandbox.Json.Reader
import EvmSandbox.KeyMap

namespace EvmSandbox.Purity.Contracts

open Json (Document Fault)

inductive ParseError where
  | document (fault : Fault)
  | code (error : Hex.Error)

/-- A contract whose code is still text. -/
private structure Listed where
  address : Address
  code : String

/-- Takes a contract. The map is in the order of the addresses, and the last of several contracts
at one address counts. -/
private def takeContract (listed : KeyMap Listed) (key : String) (d : Document) :
    Except Fault (KeyMap Listed) :=
  match Address.parse key.toList with
  | .error _ => .error .mismatched
  | .ok address => do
    let code ← d.text
    return listed.insert (Hex.encode address.bytes) ⟨address, code⟩

/-- Reads contracts, in the order of their addresses. -/
def parse (text : String) : Except ParseError (List (Address × Bytes)) := do
  let listed ← (Json.read (Document.foldFields takeContract .empty) text).mapError .document
  listed.entries.mapM fun entry => do
    let code ← (Hex.decodeTrimmed entry.2.code).mapError .code
    return (entry.2.address, code)

end EvmSandbox.Purity.Contracts
