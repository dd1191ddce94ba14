import DirectoryHistory.Attribute
import DirectoryHistory.Octets
import DirectoryHistory.Stamp
import DirectoryHistory.Text.Base64

/-!
# Facts

One fact is one value of the attribute that carries history. Its text joins the attribute, the
stamp, the kind of change and the value by colons; a fact about the entry itself stands in a slot
of its own and has no value. A value that is no text, spans lines or begins with a colon is written
in base 64 behind a second colon.
-/

namespace DirectoryHistory

inductive Fact.Kind where
  | add
  | delete
  | replace
  | deleteAttribute
  deriving DecidableEq, Repr

/-- A fact about an attribute has a value unless its kind is `deleteAttribute`. -/
inductive Fact where
  | created (stamp : Stamp)
  | renamed (stamp : Stamp)
  | about (attr : Attribute) (stamp : Stamp) (kind : Fact.Kind) (value : Option Octets)
  deriving DecidableEq, Repr

namespace Fact

def stamp : Fact → Stamp
  | created s | renamed s | about _ s _ _ => s

def Kind.word : Kind → String
  | .add => "add"
  | .delete => "del"
  | .replace => "repl"
  | .deleteAttribute => "attrDel"

def Kind.ofWord? (s : String) : Option Kind :=
  if s = "add" then some .add
  else if s = "del" then some .delete
  else if s = "repl" then some .replace
  else if s = "attrDel" then some .deleteAttribute
  else none

def needsBase64 (cs : List Char) : Bool :=
  cs.head? == some ':' || cs.contains '\n' || cs.contains '\r'

def base64Chars (v : Octets) : List Char :=
  (Text.Base64.encode v).map fun b => Char.ofNat b.toNat

def valueChars (v : Octets) : List Char :=
  match Octets.text? v with
  | some s => if needsBase64 s.toList then ':' :: base64Chars v else s.toList
  | none => ':' :: base64Chars v

def chars : Fact → List Char
  | created s => Attribute.entrySlot.toList ++ ':' :: s.text.toList ++ ":add".toList
  | renamed s => Attribute.entrySlot.toList ++ ':' :: s.text.toList ++ ":moddn".toList
  | about a s kind value =>
    a.chars ++ ':' :: s.text.toList ++ ':' :: kind.word.toList ++
      (match value with
        | some v => ':' :: valueChars v
        | none => [])

def text (f : Fact) : String :=
  String.ofList f.chars

def encode (f : Fact) : Octets :=
  Octets.ofText f.text

/-- Why a value of the history is no fact. -/
inductive Flaw where
  | notText
  | noStamp
  | noKind
  | stamp (flaw : Stamp.Flaw)
  | entryValue
  | entryKind (word : String)
  | slot (cause : Attribute.Malformed)
  | kind (word : String)
  | resetValue
  | noValue
  | base64 (fault : Text.Base64.Fault)
  deriving DecidableEq, Repr

def Flaw.reason : Flaw → String
  | .notText => "not valid UTF-8"
  | .noStamp => "missing CSN"
  | .noKind => "missing change kind"
  | .stamp flaw => flaw.reason
  | .entryValue => "entry fact carries a value"
  | .entryKind word => "unknown entry fact " ++ Text.quoted word
  | .slot cause => cause.message
  | .kind word => "unknown change kind " ++ Text.quoted word
  | .resetValue => "attrDel carries a value"
  | .noValue => "missing value"
  | .base64 fault => "bad base64 value: " ++ fault.message

/-- The rejected value and its flaw. -/
structure Malformed where
  raw : Octets
  flaw : Flaw
  deriving DecidableEq, Repr

def Malformed.message (e : Malformed) : String :=
  "cannot decode historical value " ++ Text.quoted (Octets.lossyText e.raw) ++ ": " ++
    e.flaw.reason

def decodeValue : List Char → Except Flaw Octets
  | ':' :: encoded =>
    (Text.Base64.decode (Octets.ofText (String.ofList encoded))).mapError .base64
  | cs => .ok (Octets.ofText (String.ofList cs))

/-- The kind of a fact and, behind the colon, its value. -/
def kindAndValue (cs : List Char) : String × Option (List Char) :=
  match Text.cut ':' cs with
  | none => (String.ofList cs, none)
  | some (word, value) => (String.ofList word, some value)

def ofEntrySlot (s : Stamp) (word : String) (value : Option (List Char)) : Except Flaw Fact :=
  if value.isSome then .error .entryValue
  else if word = "add" then .ok (.created s)
  else if word = "moddn" then .ok (.renamed s)
  else .error (.entryKind word)

def ofAttributeSlot (slot : List Char) (s : Stamp) (word : String) (value : Option (List Char)) :
    Except Flaw Fact := do
  let a ← (Attribute.parse (String.ofList slot)).mapError .slot
  match Kind.ofWord? word, value with
  | none, _ => throw (.kind word)
  | some .deleteAttribute, none => return .about a s .deleteAttribute none
  | some .deleteAttribute, some _ => throw .resetValue
  | some _, none => throw .noValue
  | some kind, some v => return .about a s kind (some (← decodeValue v))

def ofChars (cs : List Char) : Except Flaw Fact :=
  match Text.cut ':' cs with
  | none => .error .noStamp
  | some (slot, behindSlot) =>
    match Text.cut ':' behindSlot with
    | none => .error .noKind
    | some (stampChars, behindStamp) =>
      match Stamp.parse (String.ofList stampChars) with
      | .error e => .error (.stamp e.flaw)
      | .ok s =>
        let (word, value) := kindAndValue behindStamp
        if slot = Attribute.entrySlot.toList then ofEntrySlot s word value
        else ofAttributeSlot slot s word value

def decode (raw : Octets) : Except Malformed Fact :=
  match Octets.text? raw with
  | none => .error ⟨raw, .notText⟩
  | some s => (ofChars s.toList).mapError (⟨raw, ·⟩)

end Fact

end DirectoryHistory
