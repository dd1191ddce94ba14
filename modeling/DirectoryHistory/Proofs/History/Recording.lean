import DirectoryHistory.Proofs.History.Writing

/-!
# Recorded histories

A history is recorded one fact at a time, on its own or in the course of a change, and purged in
between. Whatever was recorded is read back from an entry that holds what the history is written as,
in whatever order the values stand, and is written again as it was.
-/

namespace DirectoryHistory

namespace Timeline

/-- What may be recorded about an attribute, or dropped again. -/
inductive Recording where
  | reset (stamp : Stamp)
  | record (m : Mark)
  | amend (m : Mark)
  | purge (cutoff : Stamp)
  deriving DecidableEq, Repr

def after (t : Timeline) : Recording → Timeline
  | .reset s => t.reset s
  | .record m => t.record m
  | .amend m => t.amend m
  | .purge cutoff => t.purge cutoff

theorem Ordered.after {t : Timeline} (ht : t.Ordered) (r : Recording) : (t.after r).Ordered := by
  cases r with
  | reset s => exact ht.reset s
  | record m => exact ht.record m
  | amend m => exact ht.amend m
  | purge cutoff => exact ht.purge cutoff

end Timeline

namespace History

/-- What may be recorded in the history of an entry, or dropped again. -/
inductive Recording where
  | about (a : Attribute) (r : Timeline.Recording)
  | rename (stamp : Stamp)
  | purge (cutoff : Stamp)
  | expire (now : UInt64) (retention : Option Nat)
  deriving DecidableEq, Repr

def Recording.attr? : Recording → Option Attribute
  | .about a _ => some a
  | _ => none

def after (h : History) : Recording → History
  | .about a r => h.setTimeline a ((h.timeline a).after r)
  | .rename s => h.rename s
  | .purge cutoff => h.purge cutoff
  | .expire now retention => h.expire now retention

/-- The history of an entry whose creation is known or not, after `run`. -/
def recorded (created : Option Stamp) (run : List Recording) : History :=
  run.foldl after { empty with created }

variable {h : History} {r : Recording} {run : List Recording}

theorem IsOrdered.after (ordered : h.IsOrdered) (r : Recording) : (h.after r).IsOrdered := by
  cases r with
  | about a r =>
    intro b
    by_cases hb : b = a
    · subst hb
      rw [History.after, timeline_setTimeline_self]
      exact (ordered b).after r
    · rw [History.after, timeline_setTimeline_of_ne h hb]
      exact ordered b
  | rename s =>
    intro a
    rw [History.after, timeline_rename]
    exact ordered a
  | purge cutoff => exact ordered.purge cutoff
  | expire now retention => exact ordered.expire now retention

theorem IsReadable.after (readable : h.IsReadable) (slot : ∀ a ∈ r.attr?, a.IsSlot) :
    (h.after r).IsReadable := by
  cases r with
  | about a r =>
    intro b nonempty
    by_cases hb : b = a
    · exact hb ▸ slot a rfl
    · rw [History.after, timeline_setTimeline_of_ne h hb] at nonempty
      exact readable b nonempty
  | rename s =>
    intro a
    rw [History.after, timeline_rename]
    exact readable a
  | purge cutoff => exact readable.purge cutoff
  | expire now retention => exact readable.expire now retention

theorem IsOrdered.foldl_after (ordered : h.IsOrdered) (run : List Recording) :
    (run.foldl History.after h).IsOrdered := by
  induction run generalizing h with
  | nil => exact ordered
  | cons r rest ih => exact ih (ordered.after r)

theorem IsReadable.foldl_after (readable : h.IsReadable)
    (slots : ∀ r ∈ run, ∀ a ∈ r.attr?, a.IsSlot) : (run.foldl History.after h).IsReadable := by
  induction run generalizing h with
  | nil => exact readable
  | cons r rest ih =>
    exact ih (readable.after (slots r (.head _))) fun s hs => slots s (.tail _ hs)

theorem isOrdered_recorded (created : Option Stamp) (run : List Recording) :
    (recorded created run).IsOrdered :=
  (isOrdered_of_untouched fun _ => rfl).foldl_after run

theorem isReadable_recorded (created : Option Stamp)
    (slots : ∀ r ∈ run, ∀ a ∈ r.attr?, a.IsSlot) : (recorded created run).IsReadable :=
  (isReadable_of_untouched fun _ => rfl).foldl_after slots

/-- A history is read back from an entry that holds what it is written as, in any order. -/
theorem exists_ofEntry_setHistory (ordered : h.IsOrdered) (readable : h.IsReadable)
    {raws : List Octets} (same : ∀ raw, raw ∈ raws ↔ raw ∈ h.encode) (e : Entry) :
    ∃ g, ofEntry (e.setHistory raws) = .ok g ∧ g.Agrees h := by
  have held : ∀ raw, raw ∈ (e.setHistory raws).historyValues ↔ raw ∈ h.encode := by
    intro raw
    rw [← same, Entry.historyValues, Entry.setHistory, Entry.replaceValues,
      Entry.values_setValues_self, Entry.mem_distinct]
  exact ofValues_of_mem_iff ordered readable held

/-- Whatever was recorded about plain attributes is read back from an entry that holds what the
history is written as, in any order: the creation, the rename, and for every attribute the last reset
and all marks. The history that was read is written as the recorded one. -/
theorem ofEntry_setHistory_of_recorded (created : Option Stamp)
    (plain : ∀ r ∈ run, ∀ a ∈ r.attr?, a.IsPlain ∧ a ≠ ⟨Attribute.entrySlot, []⟩)
    {raws : List Octets} (perm : raws.Perm (recorded created run).encode) (e : Entry) :
    ∃ g, ofEntry (e.setHistory raws) = .ok g ∧ g.created = (recorded created run).created ∧
      g.renamed = (recorded created run).renamed ∧
      (∀ a, (g.timeline a).lastReset = ((recorded created run).timeline a).lastReset ∧
        (g.timeline a).marks = ((recorded created run).timeline a).marks) ∧
      g.encode = (recorded created run).encode := by
  have ordered := isOrdered_recorded created run
  have readable := isReadable_recorded created fun r hr a ha =>
    (plain r hr a ha).1.isSlot_of_ne (plain r hr a ha).2
  obtain ⟨g, read, agrees⟩ := exists_ofEntry_setHistory ordered readable (fun _ => perm.mem_iff) e
  refine ⟨g, read, agrees.created, agrees.renamed, fun a => ?_, agrees.encode_eq⟩
  rw [agrees.timelines a]
  exact ⟨rfl, rfl⟩

/-- Two values are added by a reset, one of them is turned around in the same change, and the
creation is purged. The values are stored newest first. -/
theorem ofEntry_setHistory_of_recorded_reverse :
    let mail : Attribute := ⟨"mail", ["lang-de"]⟩
    let dn : Attribute := ⟨"dn", ["x"]⟩
    let h := recorded (some ⟨1, 0, 1⟩) [.about mail (.reset ⟨3, 0, 1⟩),
      .about mail (.record ⟨[97], .added, ⟨3, 0, 1⟩⟩), .about mail (.record ⟨[58], .added, ⟨3, 0, 1⟩⟩),
      .about mail (.amend ⟨[97], .deleted, ⟨3, 0, 1⟩⟩), .about dn (.reset ⟨4, 0, 2⟩),
      .rename ⟨2, 0, 1⟩, .purge ⟨2, 0, 0⟩]
    ∃ g, ofEntry ((Entry.make .root (.uniform 0)).setHistory h.encode.reverse) = .ok g ∧
      g.created = none ∧ g.renamed = some ⟨2, 0, 1⟩ ∧ (g.timeline dn).lastReset = some ⟨4, 0, 2⟩ ∧
      g.encode = h.encode := by
  intro mail dn h
  obtain ⟨g, read, created, renamed, timelines, written⟩ := ofEntry_setHistory_of_recorded
    (some ⟨1, 0, 1⟩) (by decide) (List.reverse_perm h.encode) (Entry.make .root (.uniform 0))
  exact ⟨g, read, created.trans (by decide), renamed.trans (by decide),
    (timelines dn).1.trans (by decide), written⟩

end History

end DirectoryHistory
