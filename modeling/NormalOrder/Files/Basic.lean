/-!
# Files

Files and directories, and how paths name them. A path leads from the working directory, or from the
root if it starts with a slash, through one component after another; every component but the last
has to be a directory that exists.

A place is the list of names that lead to it from the working directory. Places above the working
directory start with `..`, and places below the root with `/`; these exist only if they are listed.
-/

namespace NormalOrder

inductive Files.Node
  | directory
  | file (bytes : List UInt8)
deriving DecidableEq, Repr

/-- What is at each place, apart from the working directory itself. -/
structure Files where
  entries : List (List String × Files.Node) := []

namespace Files

instance : Inhabited Files := ⟨{}⟩

/-- The parts of a text between its slashes; `part` is the first one so far, in reverse. -/
def splitSlashes (part : List Char) : List Char → List String
  | [] => [String.ofList part.reverse]
  | '/' :: rest => String.ofList part.reverse :: splitSlashes [] rest
  | c :: rest => splitSlashes (c :: part) rest

/-- Where a path starts, and the components that lead on. -/
def route (path : String) : List String × List String :=
  match splitSlashes [] path.toList with
  | "" :: components => (["/"], components)
  | components => ([], components)

/-- The place one component further on. -/
def next (place : List String) (component : String) : List String :=
  if component.isEmpty ∨ component = "." then place
  else if component = ".." then
    match place.getLast? with
    | none => [".."]
    | some ".." => place ++ [".."]
    | some "/" => place
    | some _ => place.dropLast
  else place ++ [component]

def node? (files : Files) (place : List String) : Option Node :=
  if place.isEmpty then some .directory else files.entries.lookup place

def isDirectoryAt (files : Files) (place : List String) : Bool :=
  files.node? place == some .directory

/-- Goes one component further, from a directory to what exists there. -/
def enter (files : Files) (place : List String) (component : String) : Option (List String) :=
  let there := next place component
  if files.isDirectoryAt place && (files.node? there).isSome then some there else none

/-- The most bytes that a path can have. -/
def maxPathBytes : Nat := 4095

/-- Where a path leads to, if it leads to something that exists. An empty path leads nowhere, and
neither does one that is too long. -/
def resolve (files : Files) (path : String) : Option (List String) :=
  if path.isEmpty ∨ maxPathBytes < path.utf8ByteSize then none
  else (route path).2.foldlM files.enter (route path).1

def find? (files : Files) (path : String) : Option Node :=
  (files.resolve path).bind files.node?

def contains (files : Files) (path : String) : Bool :=
  (files.find? path).isSome

def isDirectory (files : Files) (path : String) : Bool :=
  files.find? path == some .directory

/-- Why a file cannot be opened. -/
inductive OpenFault
  /-- The path has a null character in it, which is not looked for among the files at all. -/
  | nullCharacter
  /-- There is no such file, or it cannot be there. -/
  | unavailable
deriving DecidableEq, Repr

def hasNull (path : String) : Bool :=
  path.toList.contains '\x00'

def read (files : Files) (path : String) : Except OpenFault (List UInt8) :=
  if hasNull path then .error .nullCharacter
  else
    match files.find? path with
    | some (.file bytes) => .ok bytes
    | _ => .error .unavailable

def put (files : Files) (place : List String) (node : Node) : Files where
  entries := (place, node) :: files.entries.filter fun e => e.1 ≠ place

/-- The most bytes that the name of a file can have. -/
def maxNameBytes : Nat := 255

/-- Whether a file can have this name. -/
def isFileName (name : String) : Bool :=
  !name.isEmpty && name ≠ "." && name ≠ ".." && name.utf8ByteSize ≤ maxNameBytes

/-- Where a file can be put. It needs a path that is not too long, a name that a file can have and a
directory to be in. -/
def placeFor? (files : Files) (path : String) : Option (List String) := do
  guard (path.utf8ByteSize ≤ maxPathBytes)
  let (start, components) := route path
  let name ← components.getLast?
  let directory ← components.dropLast.foldlM files.enter start
  let place := directory ++ [name]
  if isFileName name && files.isDirectoryAt directory && !files.isDirectoryAt place then
    return place
  else none

/-- Puts a file in the place of an old one or where there is none. -/
def write (files : Files) (path : String) (bytes : List UInt8) : Except OpenFault Files :=
  if hasNull path then .error .nullCharacter
  else
    match files.placeFor? path with
    | some place => .ok (files.put place (.file bytes))
    | none => .error .unavailable

/-- The names in the directory that a path leads to. -/
def names (files : Files) (path : String) : List String :=
  match files.resolve path with
  | none => []
  | some place =>
    let inside := files.entries.filter fun e => e.1.dropLast = place
    (inside.filterMap fun e => e.1.getLast?).filter fun name => name ≠ ".." ∧ name ≠ "/"

/-- Makes a path lead to a file, with the directories on the way. A path that ends in a slash leads
to a directory. -/
def add (files : Files) (path : String) (bytes : List UInt8) : Files :=
  let (start, components) := route path
  let isDirectory := components.getLast? = some ""
  let steps := if isDirectory then components else components.dropLast
  let pass (way : Files × List String) (component : String) : Files × List String :=
    let there := next way.2 component
    (if there.isEmpty ∨ way.1.isDirectoryAt there then way.1 else way.1.put there .directory, there)
  let origin := if start.isEmpty then files else files.put start .directory
  let (files, place) := steps.foldl pass (origin, start)
  if isDirectory then files
  else files.put (next place (components.getLast?.getD "")) (.file bytes)

end Files

end NormalOrder
