/-
Options and the rules by which they are told apart from other arguments.

An argument that begins with two dashes names an option, and may bring a
value after an equals sign. One that begins with a single dash is a cluster
of one-letter options, the last of which may bring a value. A dash alone is
an ordinary argument, and after two dashes alone all arguments are.

An option is settled when the argument after its value comes up. So what is
wrong with a value is reported late: an unknown option right after it comes
first.
-/
import EvmSandbox.Address

namespace EvmSandbox.CommandLine

/-- Why the arguments are not a command; asking for help or for the version is a reason as well. -/
inductive UsageError where
  | noArguments
  | help
  | version
  | invalidSubcommand
  | unknownArgument
  | missingArgument
  | invalidValue
  | emptyValue
  | repeatedOption
  | surplusValue
  deriving DecidableEq

/-- What arguments are given for. -/
inductive Key where
  | code
  | codeFile
  | input
  | output
  | pretty
  | address
  | contracts
  | maxDepth
  | settings
  | manager
  | whitelistMask
  | verbose
  | logFile
  | logNoColor
  deriving DecidableEq

/-! ## Values -/

inductive Value where
  | text (s : String)
  | address (a : Address)
  | number (n : Nat)

inductive ValueKind where
  | text
  /-- A text that is not empty. -/
  | path
  | address
  | number

/-- The greatest number an option may have. -/
def maxNumber : Nat := 0xffffffffffffffff

private def digitsToNat? (digits : List Char) : Option Nat :=
  if digits.isEmpty || !digits.all Char.isDigit then none
  else
    let n := digits.foldl (fun n c => 10 * n + (c.toNat - '0'.toNat)) 0
    if n ≤ maxNumber then some n else none

/-- A number in decimal digits, maybe with a plus sign. -/
def readNumber? (text : String) : Option Nat :=
  match text.toList with
  | '+' :: digits => digitsToNat? digits
  | digits => digitsToNat? digits

def ValueKind.read (kind : ValueKind) (text : String) : Except UsageError Value :=
  match kind with
  | .text => .ok (.text text)
  | .path => if text.isEmpty then .error .emptyValue else .ok (.text text)
  | .address =>
    match Address.parse text.toList with
    | .ok a => .ok (.address a)
    | .error _ => .error .invalidValue
  | .number =>
    match readNumber? text with
    | some n => .ok (.number n)
    | none => .error .invalidValue

/-! ## Options -/

inductive OptionKind where
  /-- Takes a value, and may be given once. -/
  | value (key : Key) (kind : ValueKind)
  /-- Takes no value, and may be given once. -/
  | switch (key : Key)
  /-- Takes no value, and may be given any number of times. -/
  | counter (key : Key)
  | help

structure OptionSpec where
  names : List String
  letter : Option Char := none
  kind : OptionKind

/-- The arguments a command takes: one that stands alone, and options. -/
structure Grammar where
  positional : Key × ValueKind
  options : List OptionSpec

namespace Grammar

def named? (g : Grammar) (name : String) : Option OptionKind :=
  (g.options.find? fun o => o.names.contains name).map (·.kind)

def lettered? (g : Grammar) (letter : Char) : Option OptionKind :=
  (g.options.find? fun o => o.letter == some letter).map (·.kind)

end Grammar

/-! ## What is given -/

/-- What has been given, latest first. An option without a value has an empty text. -/
abbrev Given := List (Key × Value)

namespace Given

def get? (given : Given) (key : Key) : Option Value :=
  given.lookup key

def has (given : Given) (key : Key) : Bool :=
  (given.get? key).isSome

def count (given : Given) (key : Key) : Nat :=
  given.countP fun entry => entry.1 = key

def text? (given : Given) (key : Key) : Option String :=
  match given.get? key with
  | some (.text s) => some s
  | _ => none

def address? (given : Given) (key : Key) : Option Address :=
  match given.get? key with
  | some (.address a) => some a
  | _ => none

def number? (given : Given) (key : Key) : Option Nat :=
  match given.get? key with
  | some (.number n) => some n
  | _ => none

/-- Takes a value for what may be given once. -/
def add (given : Given) (key : Key) (kind : ValueKind) (text : String) :
    Except UsageError Given :=
  if given.has key then .error .repeatedOption
  else do
    let value ← kind.read text
    return (key, value) :: given

end Given

/-! ## Going through the arguments -/

/-- An argument that is not settled yet; an option may still wait for its value. -/
structure Unsettled where
  key : Key
  kind : ValueKind
  value : Option String

structure Progress where
  given : Given := []
  unsettled : Option Unsettled := none
  /-- Whether the argument that stands alone has been given. -/
  positionalGiven : Bool := false
  /-- Whether all arguments that follow stand alone. -/
  optionsEnded : Bool := false

namespace Progress

def settle (p : Progress) : Except UsageError Progress :=
  match p.unsettled with
  | none => .ok p
  | some ⟨_, _, none⟩ => .error .emptyValue
  | some ⟨key, kind, some text⟩ => do
    let given ← p.given.add key kind text
    return { p with given, unsettled := none }

/-- Takes an option that came without a value. -/
def takeBare (p : Progress) (kind : OptionKind) : Except UsageError Progress := do
  let p ← p.settle
  match kind with
  | .value key kind => return { p with unsettled := some ⟨key, kind, none⟩ }
  | .switch key => return { p with given := ← p.given.add key .text "" }
  | .counter key => return { p with given := (key, .text "") :: p.given }
  | .help => .error .help

/-- Takes an option that came with its value. -/
def takeAttached (p : Progress) (key : Key) (kind : ValueKind) (text : String) :
    Except UsageError Progress := do
  let p ← p.settle
  return { p with given := ← p.given.add key kind text }

/-- Takes the option `name`, which may have brought a value. -/
def takeNamed (g : Grammar) (p : Progress) (name : String) (attached : Option String) :
    Except UsageError Progress :=
  match g.named? name, attached with
  | none, _ => .error .unknownArgument
  | some (.value key kind), some text => p.takeAttached key kind text
  | some _, some _ => .error .surplusValue
  | some kind, none => p.takeBare kind

/-- The value at the end of a cluster; an equals sign before it is no part of it. -/
def clusterValue : List Char → Option String
  | [] => none
  | '=' :: cs => some (String.ofList cs)
  | cs => some (String.ofList cs)

/-- Takes the one-letter options of a cluster. -/
def takeCluster (g : Grammar) (p : Progress) : List Char → Except UsageError Progress
  | [] => .ok p
  | letter :: rest =>
    match g.lettered? letter with
    | none => .error .unknownArgument
    | some (.value key kind) =>
      match clusterValue rest with
      | some text => p.takeAttached key kind text
      | none => p.takeBare (.value key kind)
    | some kind => do
      let p ← p.takeBare kind
      takeCluster g p rest

/-- Takes an argument that stands alone. -/
def takePositional (g : Grammar) (p : Progress) (arg : String) : Except UsageError Progress :=
  if p.positionalGiven then .error .unknownArgument
  else do
    let p ← p.settle
    return { p with
      unsettled := some ⟨g.positional.1, g.positional.2, some arg⟩
      positionalGiven := true }

/-- Takes an argument that is no option: a value if one is waited for. -/
def takePlain (g : Grammar) (p : Progress) (arg : String) : Except UsageError Progress :=
  match p.unsettled with
  | some ⟨key, kind, none⟩ => .ok { p with unsettled := some ⟨key, kind, some arg⟩ }
  | _ => takePositional g p arg

/-- An option's name, and what follows the first equals sign. -/
def splitName (cs : List Char) : String × Option String :=
  let name := String.ofList (cs.takeWhile (· != '='))
  match cs.dropWhile (· != '=') with
  | [] => (name, none)
  | _ :: value => (name, some (String.ofList value))

def take (g : Grammar) (p : Progress) (arg : String) : Except UsageError Progress :=
  if p.optionsEnded then takePositional g p arg
  else
    match arg.toList with
    | ['-', '-'] => .ok { p with optionsEnded := true }
    | '-' :: '-' :: cs => takeNamed g p (splitName cs).1 (splitName cs).2
    | '-' :: c :: cs => takeCluster g p (c :: cs)
    | _ => takePlain g p arg

end Progress

/-- What the arguments of a command give. -/
def Grammar.parse (g : Grammar) (args : List String) : Except UsageError Given := do
  let p ← args.foldlM (Progress.take g) {}
  let p ← p.settle
  return p.given

end EvmSandbox.CommandLine
