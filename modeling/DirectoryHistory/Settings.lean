import DirectoryHistory.DistinguishedName
import DirectoryHistory.Duration
import DirectoryHistory.Schema
import DirectoryHistory.Toml.Reader

/-!
# Settings

What a replica and the tools around it are set up with, as a document of five sections says. Every
section and every field may be missing, and what is not known is passed over.
-/

namespace DirectoryHistory

/-- Durations are kept as written and read when they are asked for. -/
structure Settings where
  replica : UInt16
  base : String
  singleValued : List String
  delay : String
  interval : String
  maxDuration : String
  snapshot : Option String
  level : String
  deriving DecidableEq, Repr

namespace Toml

def string? : Toml → Option String
  | .string s => some s
  | _ => none

def strings? : Toml → Option (List String)
  | .array items => items.mapM string?
  | _ => none

def natUpTo? (bound : Nat) : Toml → Option Nat
  | .integer n => if 0 ≤ n ∧ n ≤ bound then some n.toNat else none
  | _ => none

/-- The fields of a record in the order of `names`. A record is a table, or an array of its fields
in their order; a time stands for a record without any. -/
def fields? (names : List String) : Toml → Option (List (Option Toml))
  | .table members => some (names.map (List.lookup · members))
  | .array items => some ((List.range names.length).map (items[·]?))
  | .time => some (names.map fun _ => none)
  | _ => none

def section? (names : List String) : Option Toml → Option (List (Option Toml))
  | some t => t.fields? names
  | none => some (names.map fun _ => none)

def orElse? {α : Type} (read : Toml → Option α) (default : α) : Option Toml → Option α
  | some t => read t
  | none => some default

end Toml

namespace Settings

def standard : Settings where
  replica := 1
  base := "o=example"
  singleValued := []
  delay := "1d"
  interval := "1h"
  maxDuration := "1h"
  snapshot := none
  level := "info"

def ofSections (replica schema purge store log : List (Option Toml)) : Option Settings := do
  let [id, base] := replica | failure
  let [singleValued] := schema | failure
  let [delay, interval, maxDuration] := purge | failure
  let [snapshot] := store | failure
  let [level] := log | failure
  return {
    replica := .ofNat (← Toml.orElse? (Toml.natUpTo? (UInt16.size - 1)) 1 id)
    base := ← Toml.orElse? Toml.string? standard.base base
    singleValued := ← Toml.orElse? Toml.strings? standard.singleValued singleValued
    delay := ← Toml.orElse? Toml.string? standard.delay delay
    interval := ← Toml.orElse? Toml.string? standard.interval interval
    maxDuration := ← Toml.orElse? Toml.string? standard.maxDuration maxDuration
    snapshot := ← Toml.orElse? (fun t => t.string?.map some) standard.snapshot snapshot
    level := ← Toml.orElse? Toml.string? standard.level level }

def ofToml? (t : Toml) : Option Settings := do
  let [replica, schema, purge, store, log] ←
    t.fields? ["replica", "schema", "purge", "store", "log"] | failure
  ofSections (← Toml.section? ["id", "base_dn"] replica)
    (← Toml.section? ["single_valued"] schema)
    (← Toml.section? ["delay", "interval", "max_duration"] purge)
    (← Toml.section? ["snapshot"] store) (← Toml.section? ["level"] log)

def parse? (s : String) : Option Settings :=
  (Toml.parse? s).bind ofToml?

def baseName (s : Settings) : Except DistinguishedName.Malformed DistinguishedName :=
  DistinguishedName.parse s.base

/-- Without any names the standard schema is used. -/
def schema (s : Settings) : Schema :=
  if s.singleValued = [] then .standard else .ofNames s.singleValued

/-- How history is purged, in milliseconds. Without a limit a pass takes the time it needs. -/
structure Purging where
  delay : Nat
  interval : Nat
  limit : Option Nat
  deriving DecidableEq, Repr

def Purging.standard : Purging :=
  ⟨24 * 60 * 60 * 1000, 60 * 60 * 1000, some (60 * 60 * 1000)⟩

/-- The limit of a pass; a blank one is none. -/
def passLimit (s : Settings) : Except Duration.Malformed (Option Nat) :=
  if Text.trimChars s.maxDuration.toList = [] then .ok none
  else (Duration.parse s.maxDuration).map some

def purging (s : Settings) : Except Duration.Malformed Purging := do
  let limit ← s.passLimit
  return ⟨← Duration.parse s.delay, ← Duration.parse s.interval, limit⟩

def snapshotPath (s : Settings) (home : Option String) : String :=
  match s.snapshot, home with
  | some path, _ => path
  | none, some home =>
    (if home.endsWith "/" then home else home ++ "/") ++ ".burrow/entries.json"
  | none, none => ".burrow/entries.json"

/-- The last part of a path, unless that leads upwards. -/
def fileName? (path : String) : Option String :=
  let parts := (Text.split '/' path.toList).filter fun part => part != [] && part != ['.']
  match parts.getLast? with
  | some part => if part = ['.', '.'] then none else some (String.ofList part)
  | none => none

end Settings

end DirectoryHistory
