import DirectoryHistory.Command.Session
import DirectoryHistory.Text.Split

/-!
# Files in memory

A host that keeps its files in memory, over which a command is a function of what they hold. A path
is followed part by part, from the root if it begins with a slash and otherwise from the working
directory. Every part behind which another one stands has to be a directory that is there, also the
one that `..` leads out of.
-/

namespace DirectoryHistory.Command

/-- The names that lead from the root to a file or a directory. -/
abbrev Place := List String

/-- A directory is there if it is listed or if something listed lies below it. -/
structure Files where
  working : Place
  directories : List Place
  files : List (Place × String)
  deriving DecidableEq, Repr

namespace Files

/-- Why a file or a directory cannot be reached or made. -/
inductive Fault where
  | missing
  | taken
  | notDirectory
  | directory
  deriving DecidableEq, Repr

def Fault.message : Fault → String
  | .missing => "No such file or directory (os error 2)"
  | .taken => "File exists (os error 17)"
  | .notDirectory => "Not a directory (os error 20)"
  | .directory => "Is a directory (os error 21)"

def content? (t : Files) (place : Place) : Option String :=
  t.files.lookup place

def isDirectory (t : Files) (place : Place) : Bool :=
  place.isEmpty || place.isPrefixOf t.working || t.directories.any place.isPrefixOf ||
    t.files.any fun (q, _) => place.isPrefixOf q && place != q

/-- One part further on from `place`, which has to be a directory. -/
def step (t : Files) (place : Place) (part : String) : Except Fault Place :=
  if t.isDirectory place then
    if part = "" ∨ part = "." then .ok place
    else if part = ".." then .ok place.dropLast
    else .ok (place ++ [part])
  else if (t.content? place).isSome then .error .notDirectory
  else .error .missing

def origin (t : Files) (path : String) : Place :=
  if path.startsWith "/" then [] else t.working

def partsOf (path : String) : List String :=
  (Text.split '/' path.toList).map String.ofList

/-- The place that a path leads to, whether or not there is something. -/
def locate (t : Files) (path : String) : Except Fault Place :=
  if path = "" then .error .missing else (partsOf path).foldlM t.step (t.origin path)

def isThere (t : Files) (path : String) : Bool :=
  match t.locate path with
  | .ok place => t.isDirectory place || (t.content? place).isSome
  | .error _ => false

def read (t : Files) (path : String) : Except Fault String := do
  let place ← t.locate path
  if t.isDirectory place then throw .directory
  match t.content? place with
  | some text => return text
  | none => throw .missing

/-- Writes a file. What ends in a slash is taken for a directory. -/
def write (t : Files) (path text : String) : Except Fault Files := do
  let named := String.ofList (path.toList.reverse.dropWhile (· == '/')).reverse
  let place ← t.locate named
  if named != path || t.isDirectory place then throw .directory
  return { t with files := (place, text) :: t.files.filter (·.1 != place) }

def makeDirectory (t : Files) (start : Place) (parts : List String) : Except Fault Files := do
  let place ← parts.foldlM t.step start
  if t.isDirectory place then return t
  else if (t.content? place).isSome then throw .taken
  else return { t with directories := place :: t.directories }

/-- Makes the directory that the parts lead to, which come last part first, and those above it that
are missing. -/
def makeDirectories (t : Files) (start : Place) : List String → Except Fault Files
  | [] => .ok t
  | part :: above =>
    match t.makeDirectory start (part :: above).reverse with
    | .error .missing => do
      let t ← makeDirectories t start above
      t.makeDirectory start (part :: above).reverse
    | made => made

/-- Makes the directory that the file at the end of `path` lies in. -/
def makeWay (t : Files) (path : String) : Except Fault Files :=
  t.makeDirectories (t.origin path)
    ((partsOf path).filter fun part => part != "" && part != ".").reverse.tail

/-- Runs a change of the files and says why it failed. -/
def change (f : Files → Except Fault Files) : StateM Files (Except String Unit) := do
  match f (← get) with
  | .ok t =>
    set t
    return .ok ()
  | .error e => return .error e.message

def host (now : UInt64) (home : Option String) : Host (StateM Files) where
  isThere path := do return isThere (← get) path
  read path := do return (read (← get) path).mapError Fault.message
  makeWay path := change (makeWay · path)
  write path text := change (write · path text)
  now := pure now
  home := home

end Files

end DirectoryHistory.Command
