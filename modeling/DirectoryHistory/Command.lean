import DirectoryHistory.Command.Arguments
import DirectoryHistory.Command.Session
import DirectoryHistory.Replica.Replay
import DirectoryHistory.Sweep
import DirectoryHistory.Update.Json

/-!
# The commands

Every command works on a snapshot: it shows what is in it, rebuilds the updates that made it, or
purges its history. A pass started here is never cut short.
-/

namespace DirectoryHistory.Command

variable {m : Type → Type} [Monad m]

/-- What the status of a snapshot counts. -/
structure Census where
  tracked : Nat
  facts : Nat
  corrupt : Nat
  oldest : Option Stamp
  newest : Option Stamp
  deriving DecidableEq, Repr

def Census.count (c : Census) (e : Entry) : Census :=
  if e.historyValues = [] then c
  else
    let c := { c with tracked := c.tracked + 1, facts := c.facts + e.historyValues.length }
    match History.ofEntry e with
    | .error _ => { c with corrupt := c.corrupt + 1 }
    | .ok h =>
      { c with oldest := Stamp.oldest c.oldest h.oldest, newest := Stamp.newest c.newest h.latest }

def Census.ofStore (s : Store) : Census :=
  s.toList.foldl .count ⟨0, 0, 0, none, none⟩

def stampWithTime (s : Stamp) : String :=
  s.text ++ " (" ++ Text.decimal s.time.toNat ++ " ms)"

def showStatus (host : Host m) (settings : Settings) : Session m Unit := do
  let path := settings.snapshotPath host.home
  let store ← loadStore host path
  let census := Census.ofStore store
  print ("Snapshot: " ++ path)
  print ("Replica:  " ++ Text.decimal settings.replica.toNat ++ " (" ++ settings.base ++ ")")
  print ("Entries:  " ++ Text.decimal store.size)
  print ("  with history:    " ++ Text.decimal census.tracked)
  print ("  history values:  " ++ Text.decimal census.facts)
  print ("  undecodable:     " ++ Text.decimal census.corrupt)
  match census.oldest, census.newest with
  | some oldest, some newest =>
    print ("Oldest change: " ++ stampWithTime oldest)
    print ("Newest change: " ++ stampWithTime newest)
  | _, _ => pure ()

def showEntry (host : Host m) (settings : Settings) (name : DistinguishedName) :
    Session m Unit := do
  let store ← loadStore host (settings.snapshotPath host.home)
  match store.find? name with
  | none => fail ("no entry at " ++ name.text) []
  | some e =>
    print ("dn: " ++ e.name.text)
    print ("id: " ++ e.id.text)
    for (a, values) in e.userAttributes.toList do
      for v in values do
        print (a.text ++ ": " ++ v.lossyText)
    let h ← check Fact.Malformed.message (History.ofEntry e)
    print ""
    print ("history (" ++ Text.decimal e.historyValues.length ++ " values):")
    for f in h.facts do
      print ("  " ++ f.text)
    if let some s := h.created then
      print ("created: " ++ s.text)
    if let some s := h.renamed then
      print ("renamed: " ++ s.text)

def replicaOf (settings : Settings) (store : Store) : Session m Replica := do
  let base ← checkFor ("invalid base_dn " ++ Text.quoted settings.base)
    DistinguishedName.Malformed.message settings.baseName
  return .make settings.replica base settings.schema none store

/-- The names to rebuild: ancestors first, so that every creation finds its parent. -/
def targets (store : Store) : Option DistinguishedName → List DistinguishedName
  | some name => [name]
  | none => sortBy (fun d e => d.parts.length ≤ e.parts.length) (store.toList.map Entry.name)

def rebuildAll (r : Replica) : List DistinguishedName → Session m (List Update)
  | [] => pure []
  | name :: rest => do
    let rebuilt ← checkFor ("failed to rebuild " ++ name.text) Replica.Failure.message
      (r.rebuild name)
    return rebuilt.updates ++ (← rebuildAll r rest)

/-- One line about an update, its kind in a column of its own. -/
def updateLine (u : Update) : String :=
  u.stamp.text ++ " " ++ u.word ++ String.ofList (List.replicate (8 - u.word.length) ' ') ++ " " ++
    u.name.text

/-- Replays the updates one after the other; the result counts those that were applied. -/
def replayAll (r : Replica) : List Update → Nat → Session m (Replica × Nat)
  | [], applied => pure (r, applied)
  | u :: rest, applied => do
    match r.replay 0 u with
    | (.ok (.applied _), r) => replayAll r rest (applied + 1)
    | (.ok (.ignored _), r) => replayAll r rest applied
    | (.error (.nameInUse cause), _) =>
      fail (Replica.Failure.nameInUse cause).message [cause.message]
    | (.error e, _) => fail e.message []

def replayInto (host : Host m) (settings : Settings) (updates : List Update) (path : String) :
    Session m Unit := do
  let store ← if ← host.isThere path then loadStore host path else pure .empty
  let (r, applied) ← replayAll (← replicaOf settings store) updates 0
  saveStore host r.store path
  print ("Replayed " ++ Text.decimal updates.length ++ " messages into " ++ path ++ ": " ++
    Text.decimal applied ++ " applied, " ++ Text.decimal (updates.length - applied) ++ " ignored")

def replayHistory (host : Host m) (settings : Settings) (name : Option DistinguishedName)
    (into : Option String) (json : Bool) : Session m Unit := do
  let store ← loadStore host (settings.snapshotPath host.home)
  let r ← replicaOf settings store
  let updates ← rebuildAll r (targets store name)
  match into with
  | some path => replayInto host settings updates path
  | none =>
    for u in updates do
      print (if json then u.toJson.compact else updateLine u)

def printReport (r : Sweep.Report) : Session m Unit := do
  print ("Entries scanned:  " ++ Text.decimal r.scanned)
  print ("Entries purged:   " ++ Text.decimal r.purgedEntries)
  print ("Values purged:    " ++ Text.decimal r.purgedFacts)
  for (id, cause) in r.skipped do
    print ("Skipped " ++ id.text ++ ": " ++ cause.message)

/-- The delay asked for, or else that of the settings, which have to be sound either way. -/
def purging (settings : Settings) (delay : Option String) : Session m Settings.Purging := do
  let purging ← check Duration.Malformed.message settings.purging
  match delay with
  | none => return purging
  | some text => return { purging with delay := ← check Duration.Malformed.message (Duration.parse text) }

def purgeStore (host : Host m) (settings : Settings) (dryRun : Bool) (delay : Option String) :
    Session m Unit := do
  let path := settings.snapshotPath host.home
  let store ← loadStore host path
  let purging ← purging settings delay
  let (report, _, store) := (Sweep.start purging.delay).pass (← host.now) (fun _ => false) store
  printReport report
  if dryRun then print "Dry run: snapshot left unchanged"
  else if 0 < report.purgedFacts then saveStore host store path

def kindName : Fact.Kind → String
  | .add => "Add"
  | .delete => "Delete"
  | .replace => "Replace"
  | .deleteAttribute => "DeleteAttribute"

def showFact (token : String) : Session m Unit := do
  let f ← check Fact.Malformed.message (Fact.decode (Octets.ofText token))
  print f.text
  print ("  csn:       " ++ f.stamp.text)
  print ("  timestamp: " ++ Text.decimal f.stamp.time.toNat)
  print ("  sequence:  " ++ Text.decimal f.stamp.sequence.toNat)
  print ("  replica:   " ++ Text.decimal f.stamp.replica.toNat)
  if let .about a _ kind value := f then
    print ("  attribute: " ++ a.text)
    print ("  kind:      " ++ kindName kind)
    if let some v := value then
      print ("  value:     " ++ v.lossyText)

/-- Runs a command. A watched purge is an ordinary one that is run again and again. -/
def perform (host : Host m) (settings : Settings) : Command → Session m Unit
  | .status => showStatus host settings
  | .inspect name => do showEntry host settings (← parseName name)
  | .replay name into json => do
    match name with
    | some name => replayHistory host settings (some (← parseName name)) into json
    | none => replayHistory host settings none into json
  | .purge dryRun delay => purgeStore host settings dryRun delay
  | .watch delay => purgeStore host settings false delay
  | .decode token => showFact token

/-- The settings of a run, with the snapshot that the invocation names. -/
def settingsFor (host : Host m) (path snapshot : Option String) : Session m Settings := do
  let settings ← loadSettings host path
  return { settings with snapshot := snapshot.or settings.snapshot }

def usage : String :=
  "Usage: burrowctl [-c <CONFIG>] [-s <SNAPSHOT>] <COMMAND>\n\n" ++
  "Commands:\n" ++
  "  status                                    Summarize the snapshot and its history\n" ++
  "  inspect <DN>                              Show the values and the history of an entry\n" ++
  "  replay [DN] [--into <PATH>] [--json]      Rebuild the operations that history encodes\n" ++
  "  purge [--delay <TIME>] [--dry-run]        Drop history older than the retention\n" ++
  "  purge [--delay <TIME>] --watch            Keep on purging\n" ++
  "  decode <TOKEN>                            Read a single history value\n"

def run (host : Host m) : Invocation → m Result
  | .run command path snapshot =>
    finish do perform host (← settingsFor host path snapshot) command
  | .version => pure ⟨0, "burrowctl 0.1.0\n", ""⟩
  | .help => pure ⟨0, usage, ""⟩
  | .usage => pure ⟨2, "", usage⟩

def pause? (host : Host m) : Invocation → m (Option Nat)
  | .run (.watch _) path snapshot => do
    match ← (settingsFor host path snapshot).run.run "" with
    | (.ok settings, _) => return settings.purging.toOption.map (·.interval)
    | (.error _, _) => return none
  | _ => return none

end DirectoryHistory.Command
