/-!
# Arguments of the command line

The general switches may stand before or behind the subcommand, where the inner ones count; no
switch may be given twice on one side. A switch that takes a value takes it behind an equals sign or
from the next argument, and a short one also right behind its letter. Two dashes end the switches.
-/

namespace DirectoryHistory

/-- What the tool is asked to do. -/
inductive Command where
  | status
  | inspect (name : String)
  | replay (name : Option String) (into : Option String) (json : Bool)
  | purge (dryRun : Bool) (delay : Option String)
  | watch (delay : Option String)
  | decode (token : String)
  deriving DecidableEq, Repr

namespace Command

/-- An invocation: a command with the paths of the settings and the snapshot, a request for
information, or one that cannot be understood. -/
inductive Invocation where
  | run (command : Command) (settings : Option String) (snapshot : Option String)
  | version
  | help
  | usage
  deriving DecidableEq, Repr

inductive Switch where
  | config
  | snapshot
  | into
  | json
  | dryRun
  | delay
  | watch
  | version
  | help
  deriving DecidableEq, Repr

namespace Switch

def takesValue : Switch → Bool
  | config | snapshot | into | delay => true
  | json | dryRun | watch | version | help => false

def isPath : Switch → Bool
  | config | snapshot | into => true
  | _ => false

def ofWord? (word : String) : Option Switch :=
  [("config", config), ("snapshot", snapshot), ("into", into), ("json", json),
    ("dry-run", dryRun), ("delay", delay), ("watch", watch), ("version", version),
    ("help", help)].lookup word

def ofLetter? (letter : Char) : Option Switch :=
  [('c', config), ('s', snapshot), ('V', version), ('h', help)].lookup letter

end Switch

/-- How an argument reads on its own. -/
inductive Shape where
  | operand
  | separator
  | switch (s : Switch) (value : Option String)
  | unknown
  deriving DecidableEq, Repr

/-- What follows the letter of a short switch is its value. -/
def attached : List Char → Option String
  | [] => none
  | '=' :: value => some (String.ofList value)
  | value => some (String.ofList value)

/-- A long switch can have a value attached only if it takes one. -/
def longShape (word : List Char) (value : Option String) : Shape :=
  match Switch.ofWord? (String.ofList word) with
  | some s => if value.isSome && !s.takesValue then .unknown else .switch s value
  | none => .unknown

def shape (arg : String) : Shape :=
  match arg.toList with
  | ['-', '-'] => .separator
  | '-' :: '-' :: body =>
    match body.span (· != '=') with
    | (word, _ :: value) => longShape word (some (String.ofList value))
    | (word, []) => longShape word none
  | '-' :: letter :: rest =>
    match Switch.ofLetter? letter with
    | some s => .switch s (attached rest)
    | none => .unknown
  | _ => .operand

/-- The switches given on one side of the subcommand, each with its value. -/
abbrev Given := List (Switch × String)

def give (s : Switch) (value : String) (given : Given) : Except Invocation Given :=
  if (given.lookup s).isSome || (s.isPath && value == "") then .error .usage
  else .ok ((s, value) :: given)

/-- Adds a switch with the value attached to it or else taken from the arguments behind it. -/
def giveFrom (s : Switch) (value : Option String) (given : Given) (rest : List String) :
    Except Invocation (Given × List String) := do
  match s.takesValue, value, rest with
  | false, none, rest => return (← give s "" given, rest)
  | true, some value, rest => return (← give s value given, rest)
  | true, none, next :: rest =>
    if shape next = .operand then return (← give s next given, rest) else throw .usage
  | _, _, _ => throw .usage

/-- Reads the switches up to the first argument that is none. -/
def readSwitches (allowed : List Switch) :
    Nat → Given → List String → Except Invocation (Given × List String)
  | 0, given, args => .ok (given, args)
  | fuel + 1, given, args => do
    match args with
    | [] => return (given, [])
    | arg :: rest =>
      match shape arg with
      | .operand | .separator => return (given, arg :: rest)
      | .unknown => throw .usage
      | .switch s value =>
        if !allowed.contains s then throw .usage
        else if s = .version then throw .version
        else if s = .help then throw .help
        else
          let (given, rest) ← giveFrom s value given rest
          readSwitches allowed fuel given rest

/-- Reads switches and operands to the end; there is room for so many operands. -/
def readAll (allowed : List Switch) (room : Nat) :
    Nat → Given → List String → List String → Except Invocation (Given × List String)
  | 0, given, operands, _ => .ok (given, operands)
  | fuel + 1, given, operands, args => do
    let (given, rest) ← readSwitches allowed args.length given args
    match rest with
    | [] => return (given, operands)
    | arg :: rest =>
      if shape arg = .separator then return (given, operands ++ rest)
      else if room ≤ operands.length then throw .usage
      else readAll allowed room fuel given (operands ++ [arg]) rest

/-- The switches of a subcommand besides the general ones, and the number of its operands. -/
def signature? (word : String) : Option (List Switch × Nat) :=
  [("status", ([], 0)), ("inspect", ([], 1)), ("replay", ([.into, .json], 1)),
    ("purge", ([.dryRun, .delay, .watch], 0)), ("decode", ([], 1))].lookup word

/-- Help can be asked for about every subcommand, and about help itself. -/
def readHelp : List String → Invocation
  | [] => .help
  | "help" :: rest => if rest = [] then .help else .usage
  | [word] => if (signature? word).isSome then .help else .usage
  | _ => .usage

def ofParts (word : String) (given : Given) (operands : List String) : Option Command :=
  match word, operands with
  | "status", [] => some .status
  | "inspect", [name] => some (.inspect name)
  | "replay", [] => some (.replay none (given.lookup .into) (given.lookup .json).isSome)
  | "replay", [name] =>
    some (.replay (some name) (given.lookup .into) (given.lookup .json).isSome)
  | "purge", [] =>
    let dryRun := (given.lookup .dryRun).isSome
    if (given.lookup .watch).isSome then
      if dryRun then none else some (.watch (given.lookup .delay))
    else some (.purge dryRun (given.lookup .delay))
  | "decode", [token] => some (.decode token)
  | _, _ => none

/-- The subcommand `word` with the arguments behind it; `outer` was given before it. -/
def readCommand (outer : Given) (word : String) (args : List String) :
    Except Invocation Invocation := do
  if word = "help" then return readHelp args
  match signature? word with
  | none => throw .usage
  | some (own, room) =>
    let (given, operands) ← readAll ([.config, .snapshot, .help] ++ own) room (args.length + 1)
      [] [] args
    match ofParts word given operands with
    | some command =>
      return .run command ((given.lookup .config).or (outer.lookup .config))
        ((given.lookup .snapshot).or (outer.lookup .snapshot))
    | none => throw .usage

def readInvocation (args : List String) : Except Invocation Invocation := do
  let (outer, rest) ← readSwitches [.config, .snapshot, .version, .help] args.length [] args
  match rest with
  | [] => throw .usage
  | word :: rest =>
    if shape word = .separator then throw .usage else readCommand outer word rest

def parse (args : List String) : Invocation :=
  match readInvocation args with
  | .ok invocation | .error invocation => invocation

end Command

end DirectoryHistory
