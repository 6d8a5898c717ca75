/-
What a command may do to the outside: read files and standard input, write a
file, and print. A workspace does all of that within a value; it is a
directory with some files, and the texts that come in and go out.
-/
import EvmSandbox.Bytes
import EvmSandbox.CommandLine.Error

namespace EvmSandbox.CommandLine

structure Host (m : Type → Type) where
  readFile : (path : String) → m (Except FileFault String)
  /-- Reads all that is left of standard input. -/
  readInput : m (Except FileFault String)
  writeFile : (path content : String) → m (Except FileFault Unit)
  print : (text : String) → m Unit

/-- A working directory, what is left of standard input, and what has been printed. Files are
known by their places: the names on the way to them from the working directory. A place that
starts with `..` lies above the working directory, and one that starts with `/` is counted from
the root of the file system. -/
structure Workspace where
  files : List (List String × Bytes) := []
  input : String := ""
  output : String := ""

namespace Workspace

/-- The names on the way to a file. -/
def names (path : String) : List String :=
  path.splitOn "/"

/-- The largest number of bytes in a name. -/
def maxNameLength : Nat := 255

/-- The largest number of bytes in a path. -/
def maxPathLength : Nat := 4095

/-- The directories that are there whatever the workspace holds. -/
def standingDirectories : List (List String) :=
  [[], [".."], ["/"]] ++ ["bin", "dev", "etc", "lib", "proc", "tmp", "usr", "var"].map (["/", ·])

/-- The file that is always empty. -/
def nullDevice : List String := ["/", "dev", "null"]

def isDirectory (w : Workspace) (place : List String) : Bool :=
  standingDirectories.contains place ||
    w.files.any fun file => place.isPrefixOf file.1 && place != file.1

/-- The content of the file at a place. -/
def content? (w : Workspace) (place : List String) : Option Bytes :=
  if place == nullDevice then some [] else w.files.lookup place

/-- The directory around a place. The root is around itself. -/
def parent (place : List String) : List String :=
  match place with
  | [] | [".."] => [".."]
  | ["/"] => ["/"]
  | _ => place.dropLast

/-- A place to go through or to look into has to be a directory. -/
def enter (w : Workspace) (place : List String) : Except FileFault Unit :=
  if w.isDirectory place then .ok ()
  else if (w.content? place).isSome then .error .notDirectory
  else .error .notFound

/-- Goes from a directory along one name. -/
def descend (w : Workspace) (place : List String) (name : String) :
    Except FileFault (List String) := do
  w.enter place
  if name == "" || name == "." then .ok place
  else if name == ".." then .ok (parent place)
  else if maxNameLength < name.utf8ByteSize then .error .nameTooLong
  else .ok (place ++ [name])

/-- Where a path starts. -/
def start (path : String) : Except FileFault (List String) :=
  if path.contains '\x00' then .error .invalidName
  else if maxPathLength < path.utf8ByteSize then .error .nameTooLong
  else if path.isEmpty then .error .notFound
  else .ok (if path.startsWith "/" then ["/"] else [])

/-- The place that a path leads to, at which there may be nothing. -/
def locate (w : Workspace) (path : String) : Except FileFault (List String) := do
  (names path).foldlM w.descend (← start path)

/-- The bytes of a file. -/
def bytes (w : Workspace) (path : String) : Except FileFault Bytes := do
  let place ← w.locate path
  if w.isDirectory place then .error .isDirectory
  else
    match w.content? place with
    | some content => .ok content
    | none => .error .notFound

def text (w : Workspace) (path : String) : Except FileFault String := do
  let content ← w.bytes path
  match String.fromUTF8? ⟨content.toArray⟩ with
  | some text => .ok text
  | none => .error .notText

/-- The workspace with the file `path`. -/
def put (w : Workspace) (path : String) (content : Bytes) : Workspace :=
  let place := (names path).filter fun name => name != "" && name != "."
  { w with files := (place, content) :: w.files }

/-- The place of the file to write to `path`. The name of a directory is no name for a file, be
there such a directory or not, if a slash ends it. -/
def target (w : Workspace) (path : String) : Except FileFault (List String) := do
  if path.endsWith "/" then
    let onTheWay := (names path).reverse.dropWhile (·.isEmpty)
    let place ← onTheWay.tail.reverse.foldlM w.descend (← start path)
    w.enter place
    .error .isDirectory
  else
    let place ← w.locate path
    if w.isDirectory place then .error .isDirectory else .ok place

/-- Writes a file, which may be new. -/
def write (w : Workspace) (path content : String) : Except FileFault Workspace := do
  let place ← w.target path
  if place == nullDevice then .ok w
  else .ok { w with files := (place, content.toUTF8.toList) :: w.files }

/-- The host that a workspace is. -/
def host : Host (StateM Workspace) where
  readFile path := do return (← get).text path
  readInput := modifyGet fun w => (.ok w.input, { w with input := "" })
  writeFile path content := modifyGet fun w =>
    match w.write path content with
    | .ok w => (.ok (), w)
    | .error fault => (.error fault, w)
  print text := modify fun w => { w with output := w.output ++ text }

end Workspace

end EvmSandbox.CommandLine
