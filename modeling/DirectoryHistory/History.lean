import DirectoryHistory.Entry
import DirectoryHistory.Fact
import DirectoryHistory.Sort
import DirectoryHistory.Timeline

/-!
# Histories

The history of one entry: its creation, its latest rename, and a timeline for every attribute that
was changed since. A history is written as facts in the order of their stamps and read back from
facts in any order.
-/

namespace DirectoryHistory

structure History where
  timelines : Table Attribute Timeline
  created : Option Stamp
  renamed : Option Stamp
  deriving DecidableEq

namespace History

def empty : History :=
  ⟨.empty, none, none⟩

instance : Inhabited History := ⟨empty⟩

def ofCreation (s : Stamp) : History :=
  { empty with created := some s }

def timeline (h : History) (a : Attribute) : Timeline :=
  (h.timelines.get? a).getD .empty

def setTimeline (h : History) (a : Attribute) (t : Timeline) : History :=
  { h with timelines := h.timelines.insert a t }

@[simp] theorem timeline_setTimeline_self (h : History) (a : Attribute) (t : Timeline) :
    (h.setTimeline a t).timeline a = t := by
  simp [timeline, setTimeline]

theorem timeline_setTimeline_of_ne (h : History) {a b : Attribute} (hb : b ≠ a) (t : Timeline) :
    (h.setTimeline a t).timeline b = h.timeline b := by
  simp only [timeline, setTimeline]
  rw [Table.get?_insert_of_ne _ hb]

def isEmpty (h : History) : Bool :=
  h.created.isNone && h.renamed.isNone && h.timelines.values.all Timeline.isEmpty

/-- Whether a rename at `s` is newer than the recorded one. -/
def admitsRename (h : History) (s : Stamp) : Bool :=
  s.passes h.renamed

def rename (h : History) (s : Stamp) : History :=
  if h.admitsRename s then { h with renamed := some s } else h

/-- A mark at the stamp of the last reset is part of that reset. -/
def markKind (t : Timeline) (m : Mark) : Fact.Kind :=
  match m.sense with
  | .added => if t.lastReset = some m.stamp then .replace else .add
  | .deleted => .delete

def timelineFacts (a : Attribute) (t : Timeline) : List Fact :=
  (t.bareReset?.map fun s => Fact.about a s .deleteAttribute none).toList ++
    t.marks.map fun m => .about a m.stamp (markKind t m) (some m.value)

def unsortedFacts (h : History) : List Fact :=
  (h.created.map Fact.created).toList ++
    h.timelines.toList.flatMap (fun (a, t) => timelineFacts a t) ++
    (h.renamed.map Fact.renamed).toList

/-- All facts by stamp; those of one stamp keep the order of `unsortedFacts`. -/
def facts (h : History) : List Fact :=
  sortBy (fun f g => f.stamp ≤ g.stamp) h.unsortedFacts

def encode (h : History) : List Octets :=
  h.facts.map Fact.encode

def latest (h : History) : Option Stamp :=
  Stamp.newest ((h.timelines.values.map Timeline.latest).foldl Stamp.newest none)
    (Stamp.newest h.created h.renamed)

def oldest (h : History) : Option Stamp :=
  h.facts.head?.map Fact.stamp

def absorbAttribute (t : Timeline) (s : Stamp) : Fact.Kind → Option Octets → Timeline
  | .deleteAttribute, _ => t.reset s
  | .replace, some v => (t.reset s).record ⟨v, .added, s⟩
  | .add, some v => t.record ⟨v, .added, s⟩
  | .delete, some v => t.record ⟨v, .deleted, s⟩
  | _, none => t

/-- The oldest creation and the newest rename stay. -/
def absorb (h : History) : Fact → History
  | .created s => { h with created := Stamp.oldest h.created (some s) }
  | .renamed s => { h with renamed := Stamp.newest h.renamed (some s) }
  | .about a s kind value => h.setTimeline a (absorbAttribute (h.timeline a) s kind value)

def ofFacts (fs : List Fact) : History :=
  fs.foldl absorb empty

/-- Every value has to be a fact; the first one that is not is the error. -/
def ofValues (raws : List Octets) : Except Fact.Malformed History :=
  (raws.mapM Fact.decode).map ofFacts

def ofEntry (e : Entry) : Except Fact.Malformed History :=
  ofValues e.historyValues

/-- Drops every fact older than `cutoff`, and timelines that have none left. -/
def purge (h : History) (cutoff : Stamp) : History where
  timelines := h.timelines.filterMap fun _ t =>
    if (t.purge cutoff).isEmpty then none else some (t.purge cutoff)
  created := h.created.filter (cutoff ≤ ·)
  renamed := h.renamed.filter (cutoff ≤ ·)

def lostStamp (cutoff : Stamp) (s : Option Stamp) : Nat :=
  if s.any (· < cutoff) then 1 else 0

def purgeCount (h : History) (cutoff : Stamp) : Nat :=
  h.timelines.values.foldr (fun t n => t.size - (t.purge cutoff).size + n) 0 +
    lostStamp cutoff h.created + lostStamp cutoff h.renamed

def horizon (now : UInt64) (delay : Nat) : Stamp :=
  .floorAt (UInt64.ofNat (now.toNat - delay))

/-- Drops what is older than the retention allows; without one everything stays. -/
def expire (h : History) (now : UInt64) : Option Nat → History
  | some delay => h.purge (horizon now delay)
  | none => h

def expireCount (h : History) (now : UInt64) : Option Nat → Nat
  | some delay => h.purgeCount (horizon now delay)
  | none => 0

end History

end DirectoryHistory
