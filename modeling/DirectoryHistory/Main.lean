import DirectoryHistory.Command
import Std.Time.DateTime.Timestamp

/-!
# The command line

The files, the clock and the environment of the process. The tool keeps its snapshot where the
`BURROW_SNAPSHOT` variable says, unless it is told otherwise.
-/

namespace DirectoryHistory.Main

open Command

def attempt {α : Type} (action : IO α) : IO (Except String α) := do
  try return .ok (← action)
  catch e => return .error (toString e)

def directoryOf (path : String) : Option String :=
  match path.toList.reverse.dropWhile (· != '/') with
  | [] => none
  | ['/'] => none
  | _ :: rest => some (String.ofList rest.reverse)

def makeWay (path : String) : IO Unit := do
  if let some directory := directoryOf path then IO.FS.createDirAll directory

def pathExists (path : String) : IO Bool := do
  if path.isEmpty then return false else ((← IO.currentDir) / path).pathExists

def wallClock : IO UInt64 := do
  return .ofNat (← Std.Time.Timestamp.now).toMillisecondsSinceUnixEpoch.toInt.toNat

def host (home : Option String) : Host IO where
  isThere := pathExists
  read path := attempt (IO.FS.readFile path)
  makeWay path := attempt (makeWay path)
  write path text := attempt (IO.FS.writeFile path text)
  now := wallClock
  home := home

def withEnvironment (snapshot : Option String) : Invocation → Invocation
  | .run command settings none =>
    if snapshot = some "" then .usage else .run command settings snapshot
  | invocation => invocation

/-- Runs an invocation and, if it is watched, runs it again after every pause. -/
partial def runAll (host : Host IO) (invocation : Invocation) : IO UInt32 := do
  let result ← run host invocation
  IO.print result.output
  IO.eprint result.errors
  match ← pause? host invocation with
  | some ms =>
    if result.code = 0 then
      (← IO.getStdout).flush
      IO.sleep (.ofNat ms)
      runAll host invocation
    else return result.code.toUInt32
  | none => return result.code.toUInt32

end DirectoryHistory.Main

def main (args : List String) : IO UInt32 := do
  let invocation := DirectoryHistory.Main.withEnvironment (← IO.getEnv "BURROW_SNAPSHOT")
    (DirectoryHistory.Command.parse args)
  DirectoryHistory.Main.runAll (DirectoryHistory.Main.host (← IO.getEnv "HOME")) invocation
