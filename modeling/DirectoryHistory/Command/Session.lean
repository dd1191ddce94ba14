import DirectoryHistory.Settings
import DirectoryHistory.Store.Snapshot

/-!
# Sessions

A command reaches files and the clock through a host, so that it is one function of what the host
holds. What it printed before a failure stays printed.
-/

namespace DirectoryHistory.Command

/-- The files and the clock that a command works with. -/
structure Host (m : Type → Type) where
  /-- Whether a path leads to a file or a directory. -/
  isThere : String → m Bool
  /-- The text of a file, or why it cannot be read. -/
  read : String → m (Except String String)
  /-- Makes the directory that the file at the end of a path lies in. -/
  makeWay : String → m (Except String Unit)
  write : String → String → m (Except String Unit)
  now : m UInt64
  home : Option String

/-- A failure with its causes, each of them the cause of the one before. -/
structure Failure where
  message : String
  causes : List String
  deriving DecidableEq, Repr

/-- The lines of a cause, the first one behind `lead` and the others behind as many blanks. -/
def indented (lead : String) (cause : String) : List Char :=
  let blanks := List.replicate lead.length ' '
  lead.toList ++ cause.toList.flatMap fun c => if c = '\n' then '\n' :: blanks else [c]

/-- Causes are numbered if there are several. -/
def causeLines (causes : List String) : List (List Char) :=
  match causes with
  | [cause] => [indented "    " cause]
  | _ => causes.mapIdx fun i cause => indented ("    " ++ Text.decimal i ++ ": ") cause

def Failure.text (f : Failure) : String :=
  let causes := String.ofList ((causeLines f.causes).flatMap ('\n' :: ·))
  "Error: " ++ f.message ++ (if f.causes = [] then "" else "\n\nCaused by:" ++ causes) ++ "\n"

/-- What an invocation comes to. -/
structure Result where
  code : UInt8
  output : String
  errors : String
  deriving DecidableEq, Repr

/-- The run of a command, with what it has printed so far. -/
abbrev Session (m : Type → Type) := ExceptT Failure (StateT String m)

variable {m : Type → Type} [Monad m]

def print (line : String) : Session m Unit :=
  modify (· ++ line ++ "\n")

def fail {α : Type} (message : String) (causes : List String) : Session m α :=
  throw ⟨message, causes⟩

def check {α ε : Type} (message : ε → String) : Except ε α → Session m α
  | .ok a => pure a
  | .error e => fail (message e) []

/-- The result of a step whose failure is the cause of another one. -/
def checkFor {α ε : Type} (context : String) (message : ε → String) : Except ε α → Session m α
  | .ok a => pure a
  | .error e => fail context [message e]

def finish (session : Session m Unit) : m Result := do
  match ← session.run.run "" with
  | (.ok (), output) => return ⟨0, output, ""⟩
  | (.error f, output) => return ⟨1, output, f.text⟩

def loadSettings (host : Host m) : Option String → Session m Settings
  | none => pure .standard
  | some path => do
    match ← host.read path with
    | .error e => fail "failed to load config" ["failed to read " ++ path, e]
    | .ok text =>
      match Settings.parse? text with
      | some settings => pure settings
      | none => fail "failed to load config" ["malformed settings"]

def loadStore (host : Host m) (path : String) : Session m Store := do
  if !(← host.isThere path) then fail ("snapshot " ++ path ++ " does not exist") []
  let context := "failed to load snapshot " ++ path
  match ← host.read path with
  | .error e => fail context ["io error: " ++ e, e]
  | .ok text => checkFor context Store.SnapshotError.message (Store.ofSnapshot text)

def saveStore (host : Host m) (store : Store) (path : String) : Session m Unit := do
  if let .error e ← host.makeWay path then fail e []
  if let .error e ← host.write path store.snapshot then
    fail ("failed to save snapshot " ++ path) ["io error: " ++ e, e]

def parseName (s : String) : Session m DistinguishedName :=
  checkFor ("invalid DN " ++ Text.quoted s) DistinguishedName.Malformed.message
    (DistinguishedName.parse s)

end DirectoryHistory.Command
