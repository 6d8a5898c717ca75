/-
Purity: a contract is pure if the inspection finds nothing wrong with it nor
with any contract it can reach by calls. Contracts are visited in the order
of their distance; those too far away make the contract impure.
-/
import EvmSandbox.Log
import EvmSandbox.Purity.Inspection

namespace EvmSandbox.Purity

inductive Verdict where
  | pure
  | impure (reason : Impurity)
  deriving DecidableEq

/-- The contracts seen so far, latest first, and those found for the next distance, in the order
in which they were found. -/
structure Frontier where
  visited : List Address
  next : List Address

/-- Takes note of the targets of a contract. `mayDescend` says whether the next distance is still
within bounds. -/
def Checker.note (c : Checker) (mayDescend : Bool) (f : Frontier) :
    List Address → Except Impurity Frontier
  | [] => .ok f
  | target :: targets =>
    if f.visited.contains target then c.note mayDescend f targets
    else if mayDescend then
      c.note mayDescend ⟨target :: f.visited, f.next ++ [target]⟩ targets
    else .error (.depthExceeded target c.maxDepth)

/-- A step of a check: where it leads, or what it found, and the events. -/
structure Visit where
  result : Except Impurity Frontier
  events : List Event

/-- The event of a visit. -/
def checking (address : Address) (depth : Nat) : Event :=
  ⟨.trace, "Checking contract purity",
    [("address", .text address.text), ("depth", .number depth)]⟩

/-- Visits the contracts at distance `depth` one after the other. -/
def Checker.visitAll (c : Checker) (mayDescend : Bool) (depth : Nat) (f : Frontier)
    (events : List Event) : List Address → Visit
  | [] => ⟨.ok f, events⟩
  | address :: rest =>
    let events := events ++ [checking address depth]
    match c.inspect address with
    | .error reason => ⟨.error reason, events⟩
    | .ok targets =>
      match c.note mayDescend f targets with
      | .error reason => ⟨.error reason, events⟩
      | .ok f => c.visitAll mayDescend depth f events rest

/-- Visits the contracts `f.next` at distance `depth` and all beyond, when `remaining` more calls
may be followed. -/
def Checker.walk (c : Checker) (f : Frontier) (depth : Nat) (events : List Event) :
    (remaining : Nat) → Visit
  | 0 => c.visitAll false depth ⟨f.visited, []⟩ events f.next
  | remaining + 1 =>
    match c.visitAll true depth ⟨f.visited, []⟩ events f.next with
    | ⟨.error reason, events⟩ => ⟨.error reason, events⟩
    | ⟨.ok f, events⟩ =>
      if f.next.isEmpty then ⟨.ok f, events⟩ else c.walk f (depth + 1) events remaining

/-- The event of a check that ends with a reason. -/
def foundImpure (root : Address) (reason : Impurity) : Event :=
  ⟨.debug, "Contract is impure",
    [("root", .text root.text), ("reason", .text reason.message)]⟩

/-- The event of a check that finds nothing wrong. -/
def foundPure (root : Address) (contracts : Nat) : Event :=
  ⟨.debug, "Contract is pure",
    [("root", .text root.text), ("contracts", .number contracts)]⟩

/-- What the last visit says about the contract at `root`, with all events. -/
def Visit.verdict (root : Address) : Visit → Verdict × List Event
  | ⟨.ok f, events⟩ => (.pure, events ++ [foundPure root f.visited.length])
  | ⟨.error reason, events⟩ => (.impure reason, events ++ [foundImpure root reason])

/-- The verdict on the contract at `root`, with the events of the check. -/
def Checker.check (c : Checker) (root : Address) : Verdict × List Event :=
  (c.walk ⟨[root], [root]⟩ 0 [] c.maxDepth).verdict root

end EvmSandbox.Purity
