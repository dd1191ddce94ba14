import DirectoryHistory.Proofs.History.Purging
import DirectoryHistory.Proofs.Slot.Early
import DirectoryHistory.Proofs.Tracked.Storing

/-!
# Bounds on the stamps of a history

What holds of all stamps in a history holds of the stamps of its facts. A request brings in its own
stamp and no other, and so does a rename.
-/

namespace DirectoryHistory

variable {p q : Stamp → Prop} {stamp cutoff : Stamp}

namespace Timeline

/-- All stamps in the timeline satisfy `p`. -/
structure Within (p : Stamp → Prop) (t : Timeline) : Prop where
  marks : ∀ v, ∀ m ∈ t.mark? v, p m.stamp
  reset : ∀ r ∈ t.lastReset, p r

variable {t : Timeline}

theorem within_empty (p : Stamp → Prop) : Within p .empty where
  marks := by simp
  reset := nofun

theorem Within.mono (h : t.Within p) (weaker : ∀ s, p s → q s) : t.Within q where
  marks v m hm := weaker _ (h.marks v m hm)
  reset r hr := weaker _ (h.reset r hr)

theorem Within.merge (h : t.Within p) (ht : t.Ordered) (hs : p stamp) (c : Change) :
    (t.merge stamp c).Within p where
  marks v m hm := by
    rcases mark?_merge_eq_or ht stamp c v with same | ⟨x, new⟩
    · exact h.marks v m (same ▸ hm)
    · obtain rfl : ⟨v, x, stamp⟩ = m := Option.some.inj (new.symm.trans hm)
      exact hs
  reset r hr := by
    rw [Option.mem_def, lastReset_merge] at hr
    split at hr
    · cases before : t.lastReset with
      | none =>
        obtain rfl : stamp = r := by simpa [before] using hr
        exact hs
      | some r' =>
        obtain rfl : max r' stamp = r := by simpa [before] using hr
        rcases max_choice r' stamp with same | same <;> rw [same]
        · exact h.reset r' before
        · exact hs
    · exact h.reset r hr

theorem Within.mergeSince (h : t.Within p) (ht : t.Ordered) (hs : p stamp)
    (created : Option Stamp) (c : Change) : (t.mergeSince created stamp c).Within p := by
  rw [Timeline.mergeSince]
  split
  · exact h
  · exact h.merge ht hs c

theorem Within.foldl_mergeSince (h : t.Within p) (ht : t.Ordered) (hs : p stamp)
    (created : Option Stamp) (cs : List Change) :
    (cs.foldl (Timeline.mergeSince created stamp) t).Within p := by
  induction cs generalizing t with
  | nil => exact h
  | cons c cs ih => exact ih (h.mergeSince ht hs created c) (ht.mergeSince created stamp c)

theorem Within.purge (h : t.Within p) (ht : t.Ordered) (cutoff : Stamp) :
    (t.purge cutoff).Within p where
  marks v m hm := h.marks v m (ht.mark?_purge_eq_some_iff.mp hm).1
  reset r hr := h.reset r (Option.filter_eq_some_iff.mp hr).1

end Timeline

namespace History

/-- All stamps in the history satisfy `p`. -/
structure Within (p : Stamp → Prop) (h : History) : Prop where
  timelines : ∀ a, (h.timeline a).Within p
  created : ∀ s ∈ h.created, p s
  renamed : ∀ s ∈ h.renamed, p s

variable {g h : History}

theorem within_ofCreation (hs : p stamp) : (ofCreation stamp).Within p where
  timelines _ := Timeline.within_empty p
  created _ h := Option.some.inj h ▸ hs
  renamed := nofun

theorem Within.mono (h' : h.Within p) (weaker : ∀ s, p s → q s) : h.Within q where
  timelines a := (h'.timelines a).mono weaker
  created s hs := weaker s (h'.created s hs)
  renamed s hs := weaker s (h'.renamed s hs)

theorem Within.of_agrees (h' : h.Within p) (agrees : g.Agrees h) : g.Within p where
  timelines a := agrees.timelines a ▸ h'.timelines a
  created := agrees.created ▸ h'.created
  renamed := agrees.renamed ▸ h'.renamed

theorem Within.rename (h' : h.Within p) (hs : p stamp) : (h.rename stamp).Within p where
  timelines a := by
    rw [timeline_rename]
    exact h'.timelines a
  created := by
    rw [created_rename]
    exact h'.created
  renamed s hr := by
    rw [Option.mem_def, renamed_rename] at hr
    split at hr
    · exact Option.some.inj hr ▸ hs
    · exact h'.renamed s hr

theorem Within.purge (h' : h.Within p) (ordered : h.IsOrdered) (cutoff : Stamp) :
    (h.purge cutoff).Within p where
  timelines a := by
    rw [timeline_purge]
    exact (h'.timelines a).purge (ordered a) cutoff
  created s hs := h'.created s (Option.filter_eq_some_iff.mp hs).1
  renamed s hs := h'.renamed s (Option.filter_eq_some_iff.mp hs).1

theorem Within.expire (h' : h.Within p) (ordered : h.IsOrdered) (now : UInt64)
    (retention : Option Nat) : (h.expire now retention).Within p := by
  cases retention with
  | none => exact h'
  | some delay => exact h'.purge ordered _

theorem Within.of_mem_facts (h' : h.Within p) (ordered : h.IsOrdered) {f : Fact}
    (hf : f ∈ h.facts) : p f.stamp := by
  have recorded := records_of_mem_facts ordered hf
  cases f with
  | created s => exact h'.created s recorded
  | renamed s => exact h'.renamed s recorded
  | about a s kind value =>
    have within := h'.timelines a
    cases kind <;> cases value <;> simp only [Records, Timeline.Records] at recorded
    case add.some v | delete.some v => exact within.marks v _ recorded
    case replace.some v => exact within.marks v _ recorded.2
    case deleteAttribute.none => exact within.reset s recorded

end History

namespace Tracked

variable {t : Tracked} {schema : Schema}

theorem within_foldl_step (h : t.history.Within p) (ordered : t.history.IsOrdered) (hs : p stamp)
    (schema : Schema) (steps : List (Attribute × Change)) :
    (steps.foldl (step schema stamp) t).history.Within p where
  timelines a := by
    rw [← timeline_slot, slot_foldl_step, Slot.timeline_resolveEdit_since, timeline_slot]
    exact (h.timelines a).foldl_mergeSince (ordered a) hs _ _
  created := by
    rw [created_foldl_step]
    exact h.created
  renamed := by
    rw [renamed_foldl_step]
    exact h.renamed

end Tracked

end DirectoryHistory
