/-
The text of JSON values, on one line without spaces or over several lines
indented by two spaces.
-/
import EvmSandbox.Json.Basic
import EvmSandbox.Text.Quoted

namespace EvmSandbox.Json

/-- A character inside a string. Only quotes, backslashes and control characters are escaped. -/
def escapeChar (c : Char) : List Char :=
  if c == '"' then ['\\', '"']
  else if c == '\\' then ['\\', '\\']
  else if c == '\x08' then ['\\', 'b']
  else if c == '\t' then ['\\', 't']
  else if c == '\n' then ['\\', 'n']
  else if c == '\x0c' then ['\\', 'f']
  else if c == '\r' then ['\\', 'r']
  else if c.toNat < 0x20 then
    let digits := Text.hexDigits c.toNat
    ['\\', 'u'] ++ List.replicate (4 - digits.length) '0' ++ digits
  else [c]

def quoted (s : String) : List Char :=
  '"' :: s.toList.flatMap escapeChar ++ ['"']

inductive Style where
  | oneLine
  | indented

namespace Style

/-- What stands before a member of a value and before the end of its members, where `depth` values
are open. -/
def lineBreak (style : Style) (depth : Nat) : List Char :=
  match style with
  | .oneLine => []
  | .indented => '\n' :: List.replicate (2 * depth) ' '

/-- What stands between a key and its value. -/
def colon : Style → List Char
  | .oneLine => [':']
  | .indented => [':', ' ']

/-- Members between brackets, or the brackets alone. -/
def block (style : Style) (depth : Nat) (opening closing : Char) (members : List (List Char)) :
    List Char :=
  if members.isEmpty then [opening, closing]
  else
    let lines := members.map fun member => style.lineBreak (depth + 1) ++ member
    opening :: [','].intercalate lines ++ style.lineBreak depth ++ [closing]

end Style

mutual

/-- The text of a value inside `depth` others. -/
def render (style : Style) (depth : Nat) : Json → List Char
  | .null => ['n', 'u', 'l', 'l']
  | .bool true => ['t', 'r', 'u', 'e']
  | .bool false => ['f', 'a', 'l', 's', 'e']
  | .number n => n.text.toList
  | .string s => quoted s
  | .array items => style.block depth '[' ']' (renderItems style (depth + 1) items)
  | .object fields => style.block depth '\x7b' '\x7d' (renderFields style (depth + 1) fields)

def renderItems (style : Style) (depth : Nat) : List Json → List (List Char)
  | [] => []
  | item :: items => render style depth item :: renderItems style depth items

def renderFields (style : Style) (depth : Nat) : List (String × Json) → List (List Char)
  | [] => []
  | (key, value) :: fields =>
    (quoted key ++ style.colon ++ render style depth value) :: renderFields style depth fields

end

def compact (value : Json) : String :=
  String.ofList (value.render .oneLine 0)

def pretty (value : Json) : String :=
  String.ofList (value.render .indented 0)

end EvmSandbox.Json
