/-
From tokens to documents. The values that are open, one inside the other, are
kept on a stack while their members are read.
-/
import EvmSandbox.Json.Lexer

namespace EvmSandbox.Json

/-- The largest number of values that may be open at one time. -/
def maxDepth : Nat := 127

namespace Reader

/-- An open value with its members so far, last one first. -/
inductive Frame where
  | array (deep : Bool) (items : List Document)
  /-- `key` is the key of the value that is being read. -/
  | object (deep : Bool) (fields : List (Option String × Document)) (key : Option String)

namespace Frame

/-- Takes the next member. -/
def add (frame : Frame) (value : Document) : Frame :=
  match frame with
  | .array deep items => .array deep (value :: items)
  | .object deep fields key => .object deep ((key, value) :: fields) none

def close (frame : Frame) (ending : Option Break) : Document :=
  match frame with
  | .array deep items => .array deep items.reverse ending
  | .object deep fields _ => .object deep fields.reverse ending

end Frame

/-- Closes all open values around a value in which the text breaks off. -/
def unwind (frames : List Frame) (value : Document) (fault : Break) : Document :=
  frames.foldl (fun value frame => (frame.add value).close (some fault)) value

/-- The document when the text breaks off at a place where a value should begin. -/
def breakValue (frames : List Frame) (fault : Break) : Document :=
  unwind frames (.broken fault) fault

/-- The document when the text breaks off between the members of the innermost value. -/
def breakMember (frames : List Frame) (fault : Break) : Document :=
  match frames with
  | [] => .broken fault
  | frame :: outer => unwind outer (frame.close (some fault)) fault

/-- What may come next. -/
inductive Expected where
  | value
  /-- The first member of an array, or its end. -/
  | firstItem
  /-- The first key of an object, or its end. -/
  | firstKey
  | key
  | colon
  /-- A comma or the end of the innermost value. -/
  | comma
  | nothing

/-- The document of a text, and whether something follows it. -/
structure Parsed where
  document : Document
  trailing : Bool

/-- Where a value was read: what is open then, what may come next, and the whole document if
nothing is open. -/
structure State where
  frames : List Frame
  expected : Expected
  root : Document

/-- Hands a finished value to the value around it. -/
def deliver (frames : List Frame) (value : Document) : State :=
  match frames with
  | [] => ⟨[], .nothing, value⟩
  | frame :: outer => ⟨frame.add value :: outer, .comma, .null⟩

/-- Opens a value inside those that are open. -/
def opened (frames : List Frame) (depth : Nat) (object : Bool) : State :=
  let deep := maxDepth ≤ depth
  if object then ⟨.object deep [] none :: frames, .firstKey, .null⟩
  else ⟨.array deep [] :: frames, .firstItem, .null⟩

/-- Closes the innermost value. -/
def closeInnermost (frames : List Frame) : State :=
  match frames with
  | [] => ⟨[], .nothing, .null⟩
  | frame :: outer => deliver outer (frame.close none)

/-- A token where a value should begin; the document if the text breaks off there. -/
def stepValue (s : State) (depth : Nat) (token : Token) : Except Document (State × Nat) :=
  match token with
  | .openArray => .ok (opened s.frames depth false, depth + 1)
  | .openObject => .ok (opened s.frames depth true, depth + 1)
  | .null => .ok (deliver s.frames .null, depth)
  | .bool b => .ok (deliver s.frames (.bool b), depth)
  | .number n => .ok (deliver s.frames (.number n), depth)
  | .string text => .ok (deliver s.frames (.string text), depth)
  | .broken b | .brokenString b => .error (breakValue s.frames b)
  | _ => .error (breakValue s.frames (.all .malformed))

/-- A token where a key should be. -/
def stepKey (s : State) (depth : Nat) (first : Bool) (token : Token) :
    Except Document (State × Nat) :=
  match token, s.frames with
  | .string text, .object deep fields _ :: outer =>
    .ok ({ s with frames := .object deep fields text :: outer, expected := .colon }, depth)
  | .brokenString b, _ =>
    .error (breakMember s.frames (if first then b else .unnamed b.reading b.skipping))
  | _, _ => .error (breakMember s.frames (.all .malformed))

/-- A token after a member. -/
def stepComma (s : State) (depth : Nat) (token : Token) : Except Document (State × Nat) :=
  match s.frames, token with
  | .array .. :: _, .comma => .ok ({ s with expected := .value }, depth)
  | .array .. :: _, .closeArray => .ok (closeInnermost s.frames, depth - 1)
  | .object .. :: _, .comma => .ok ({ s with expected := .key }, depth)
  | .object .. :: _, .closeObject => .ok (closeInnermost s.frames, depth - 1)
  | _, _ => .error (breakMember s.frames (.all .malformed))

/-- One token more, or the document if the text breaks off there. `depth` is the number of open
values. -/
def step (s : State) (depth : Nat) (token : Token) : Except Document (State × Nat) :=
  match s.expected, token with
  | .firstItem, .closeArray => .ok (closeInnermost s.frames, depth - 1)
  | .value, _ | .firstItem, _ => stepValue s depth token
  | .firstKey, .closeObject => .ok (closeInnermost s.frames, depth - 1)
  | .firstKey, _ => stepKey s depth true token
  | .key, _ => stepKey s depth false token
  | .colon, .colon => .ok ({ s with expected := .value }, depth)
  | .colon, _ => .error (breakValue s.frames (.all .malformed))
  | .comma, _ => stepComma s depth token
  | .nothing, _ => .ok (s, depth)

/-- The document when the text ends. -/
def finish (s : State) : Document :=
  match s.expected with
  | .nothing => s.root
  | .value | .colon => breakValue s.frames (.all .incomplete)
  | .firstItem | .firstKey | .comma => breakMember s.frames (.all .incomplete)
  | .key => breakMember s.frames (.unnamed .incomplete .incomplete)

/-- Reads tokens until the document is complete or breaks off. -/
def run (s : State) (depth : Nat) : List Token → Parsed
  | [] => ⟨finish s, false⟩
  | token :: rest =>
    match s.expected with
    | .nothing => ⟨s.root, true⟩
    | _ =>
      match step s depth token with
      | .ok (next, depth) => run next depth rest
      | .error document => ⟨document, false⟩

def parse (text : String) : Parsed :=
  run ⟨[], .value, .null⟩ 0 (Lexer.tokens text)

end Reader

/-- Reads a text as one value with `reader`; nothing may follow it. -/
def read {α : Type} (reader : Document → Except Fault α) (text : String) : Except Fault α := do
  let parsed := Reader.parse text
  let value ← reader parsed.document
  if parsed.trailing then .error .malformed else .ok value

end EvmSandbox.Json
