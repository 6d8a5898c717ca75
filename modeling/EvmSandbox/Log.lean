/-
What the library reports while it works. Events are returned beside the
answers, in the order in which they happened.
-/
namespace EvmSandbox

inductive Level where
  | error
  | warn
  | info
  | debug
  | trace
  deriving DecidableEq

def Level.text : Level → String
  | .error => "ERROR"
  | .warn => "WARN"
  | .info => "INFO"
  | .debug => "DEBUG"
  | .trace => "TRACE"

inductive Event.Value where
  | number (n : Nat)
  | text (s : String)
  deriving DecidableEq

structure Event where
  level : Level
  message : String
  fields : List (String × Event.Value)
  deriving DecidableEq

end EvmSandbox
