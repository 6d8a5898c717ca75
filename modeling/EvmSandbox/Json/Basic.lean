/-
JSON values.
-/
import EvmSandbox.Json.Number

namespace EvmSandbox

inductive Json where
  | null
  | bool (value : Bool)
  | number (value : Json.Number)
  | string (value : String)
  | array (items : List Json)
  /-- The fields in the order in which they are written. -/
  | object (fields : List (String × Json))
  deriving Inhabited

end EvmSandbox
