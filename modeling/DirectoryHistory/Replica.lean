import DirectoryHistory.Rebuild
import DirectoryHistory.Stamp.Clock
import DirectoryHistory.Store
import DirectoryHistory.Tracked

/-!
# Replicas

One replica of a subtree: its store, its clock and its schema. An operation of a client is stamped,
resolved and stored, and yields the update that tells the other replicas of it. An operation that
fails leaves the store alone; only the clock may have moved.
-/

namespace DirectoryHistory

/-- What the wall clock shows in the course of one operation: when its stamp is issued, and later when
an entry is stored. In between it may have moved either way. -/
structure Readings where
  issuing : UInt64
  storing : UInt64
  deriving DecidableEq, Repr

namespace Readings

/-- The readings of a wall clock that stands still during the operation. -/
def still (now : UInt64) : Readings :=
  ⟨now, now⟩

instance : Coe UInt64 Readings :=
  ⟨still⟩

instance (n : Nat) : OfNat Readings n :=
  ⟨still (.ofNat n)⟩

end Readings

structure Replica where
  base : DistinguishedName
  schema : Schema
  /-- How long facts are kept, in milliseconds; without a limit they are never dropped. -/
  retention : Option Nat
  clock : Clock
  store : Store
  deriving DecidableEq

/-- Why an operation fails. -/
inductive Replica.Failure where
  | history (cause : Fact.Malformed)
  | nameInUse (cause : Store.NameInUse)
  | noSuchEntry (name : DistinguishedName)
  | entryExists (name : DistinguishedName)
  | noSuchParent (name : DistinguishedName)
  | rootRename (name : DistinguishedName)
  | moveBelowSelf (name : DistinguishedName)
  | rejected (cause : Rejection)
  | abandoned (name : DistinguishedName) (committed : Nat) (update : Option Update)
  deriving DecidableEq

namespace Replica

def Failure.message : Failure → String
  | .history cause => cause.message
  | .nameInUse cause => "store error: " ++ cause.message
  | .noSuchEntry name => "no such entry: " ++ name.text
  | .entryExists name => "entry already exists: " ++ name.text
  | .noSuchParent name => "parent entry does not exist: " ++ name.text
  | .rootRename name =>
    "invalid rename of " ++ name.text ++ ": the root entry cannot be renamed"
  | .moveBelowSelf name =>
    "invalid rename of " ++ name.text ++ ": an entry cannot move below itself"
  | .rejected cause => cause.message
  | .abandoned name committed _ =>
    "modify of " ++ name.text ++ " abandoned after " ++ Text.decimal committed ++
      " committed change(s)"

def make (id : UInt16) (base : DistinguishedName) (schema : Schema) (retention : Option Nat)
    (store : Store) : Replica :=
  ⟨base, schema, retention, .start id, store⟩

def tick (r : Replica) (now : UInt64) : Replica :=
  { r with clock := r.clock.tick now }

def witness (r : Replica) (seen : Stamp) : Replica :=
  { r with clock := r.clock.witness seen }

def persist (r : Replica) (now : UInt64) (t : Tracked) : Except Failure Replica :=
  match r.store.put (t.store now r.retention) with
  | .error cause => .error (.nameInUse cause)
  | .ok store => .ok { r with store }

def find (r : Replica) (name : DistinguishedName) : Except Failure Entry :=
  match r.store.find? name with
  | some e => .ok e
  | none => .error (.noSuchEntry name)

def findTracked (r : Replica) (name : DistinguishedName) : Except Failure Tracked :=
  match r.find name with
  | .error e => .error e
  | .ok e => (Tracked.ofEntry e).mapError .history

/-- The parent of a new entry called `name`; the base has none. -/
def parentOf (r : Replica) (name : DistinguishedName) : Except Failure (Option EntryId) :=
  let parent := name.parent?.getD .root
  if name.same r.base then .ok none
  else if name.isBelow r.base then
    match r.store.find? parent with
    | some p => .ok (some p.id)
    | none => .error (.noSuchParent parent)
  else .error (.noSuchParent parent)

def storedParent? (r : Replica) (name : DistinguishedName) : Option EntryId :=
  if name.same r.base then none
  else name.parent?.bind fun parent => (r.store.find? parent).map (·.id)

/-- A new entry holds its attributes and the value that its name gives it. -/
def newEntry (name : DistinguishedName) (id : EntryId)
    (attributes : Table Attribute (List Octets)) : Entry :=
  let e := (attributes.filter fun a _ => !a.isHistory).toList.foldl
    (fun e (a, vs) => e.replaceValues a vs) (Entry.make name id)
  match name.leaf? with
  | some leaf => e.addValue (.make leaf.attr) (Octets.ofText leaf.value)
  | none => e

def create (r : Replica) (now : UInt64) (name : DistinguishedName) (id : EntryId)
    (attributes : Table Attribute (List Octets)) (stamp : Stamp) : Except Failure Replica :=
  r.persist now ⟨newEntry name id attributes, .ofCreation stamp⟩

/-- Whether two values are equal up to the case of ASCII letters. -/
def sameIgnoringCase (v w : Octets) : Bool :=
  v.map Text.lowerAsciiByte == w.map Text.lowerAsciiByte

/-- Adds the value of `leaf` unless the entry holds it in some case. -/
def takeLeaf (e : Entry) (leaf : RelativeName) : Entry :=
  let a := Attribute.make leaf.attr
  let v := Octets.ofText leaf.value
  if (e.values a).any (sameIgnoringCase · v) then e else e.addValue a v

/-- Removes the value of `leaf` in every case. -/
def dropLeaf (e : Entry) (leaf : RelativeName) : Entry :=
  let a := Attribute.make leaf.attr
  let stale := (e.values a).filter (sameIgnoringCase · (Octets.ofText leaf.value))
  stale.foldl (fun e v => e.removeValue a v) e

/-- Renames an entry and keeps the values that name it in step. They get no facts. -/
def renameEntry (e : Entry) (name : DistinguishedName) (leaf : RelativeName) (deleteOld : Bool) :
    Entry :=
  let renamed := takeLeaf { e with name } leaf
  match e.name.leaf? with
  | some old => if deleteOld && !old.same leaf then dropLeaf renamed old else renamed
  | none => renamed

/-- Attributes that a new entry may not be given. -/
def checkNewAttributes (attributes : Table Attribute (List Octets)) : Except Failure Unit :=
  match attributes.keys.find? Attribute.isHistory with
  | some a => .error (.rejected ⟨a, .historyAttribute⟩)
  | none =>
    match attributes.keys.find? fun a => a.name == Attribute.entrySlot with
    | some a => .error (.rejected ⟨a, .entrySlot⟩)
    | none => .ok ()

def add (r : Replica) (now : Readings) (name : DistinguishedName)
    (attributes : Table Attribute (List Octets)) : Except Failure Update × Replica :=
  match checkNewAttributes attributes with
  | .error e => (.error e, r)
  | .ok () =>
    match r.parentOf name with
    | .error e => (.error e, r)
    | .ok parent =>
      let r := r.tick now.issuing
      let stamp := r.clock.stamp
      let id := EntryId.generate name stamp
      if (r.store.find? name).isSome then (.error (.entryExists name), r)
      else
        match r.create now.storing name id attributes stamp with
        | .error e => (.error e, r)
        | .ok r => (.ok ⟨stamp, name, id, .add parent attributes⟩, r)

/-- Applies a modify request. An abandoned one keeps the steps it took, and the failure carries the
update that tells of them. -/
def modify (r : Replica) (now : Readings) (name : DistinguishedName) (mods : List Modification)
    (abandon : Nat → Bool) : Except Failure Update × Replica :=
  match r.findTracked name with
  | .error e => (.error e, r)
  | .ok t =>
    let r := r.tick now.issuing
    let stamp := r.clock.stamp
    match t.applyRequest r.schema mods stamp abandon with
    | .error e => (.error (.rejected e), r)
    | .ok (.completed, _, t') =>
      match r.persist now.storing t' with
      | .error e => (.error e, r)
      | .ok r => (.ok ⟨stamp, name, t.entry.id, .modify mods⟩, r)
    | .ok (.abandoned, tally, t') =>
      if tally.total = 0 then (.error (.abandoned name 0 none), r)
      else
        match r.persist now.storing t' with
        | .error e => (.error e, r)
        | .ok r =>
          let update : Update :=
            ⟨stamp, name, t.entry.id, .modify (committedPrefix mods tally.total)⟩
          (.error (.abandoned name tally.total (some update)), r)

def findSuperior (r : Replica) : Option DistinguishedName → Except Failure (Option EntryId)
  | none => .ok none
  | some superior =>
    match r.store.find? superior with
    | some p => .ok (some p.id)
    | none => .error (.noSuchParent superior)

def targetName (name : DistinguishedName) (leaf : RelativeName)
    (superior : Option DistinguishedName) : Except Failure DistinguishedName :=
  match superior.or name.parent? with
  | none => .error (.rootRename name)
  | some parent =>
    let target := parent.child leaf
    if target.isBelow name then .error (.moveBelowSelf name) else .ok target

/-- Whether another entry than `e` is called `target`. -/
def isTaken (r : Replica) (e : Entry) (target : DistinguishedName) : Bool :=
  !target.same e.name && (r.store.find? target).isSome

/-- Renames an entry or moves it below another superior. -/
def rename (r : Replica) (now : Readings) (name : DistinguishedName) (leaf : RelativeName)
    (deleteOld : Bool) (superior : Option DistinguishedName) : Except Failure Update × Replica :=
  match r.findSuperior superior with
  | .error e => (.error e, r)
  | .ok superiorId =>
    match r.find name with
    | .error e => (.error e, r)
    | .ok e =>
      match targetName name leaf superior with
      | .error e => (.error e, r)
      | .ok target =>
        if r.isTaken e target then (.error (.entryExists target), r)
        else
          match History.ofEntry e with
          | .error cause => (.error (.history cause), r)
          | .ok h =>
            let r := r.tick now.issuing
            let stamp := r.clock.stamp
            match r.persist now.storing ⟨renameEntry e target leaf deleteOld, h.rename stamp⟩ with
            | .error e => (.error e, r)
            | .ok r => (.ok ⟨stamp, name, e.id, .rename leaf deleteOld superior superiorId⟩, r)

def delete (r : Replica) (now : UInt64) (name : DistinguishedName) :
    Except Failure Update × Replica :=
  match r.find name with
  | .error e => (.error e, r)
  | .ok e =>
    let r := r.tick now
    (.ok ⟨r.clock.stamp, name, e.id, .delete⟩, { r with store := r.store.remove e.id })

def rebuild (r : Replica) (name : DistinguishedName) : Except Failure Rebuilt :=
  match r.find name with
  | .error e => .error e
  | .ok e => (Rebuilt.ofEntry r.schema e (r.storedParent? e.name)).mapError .history

def history (r : Replica) (name : DistinguishedName) : Except Failure History :=
  match r.find name with
  | .error e => .error e
  | .ok e => (History.ofEntry e).mapError .history

end Replica

end DirectoryHistory
