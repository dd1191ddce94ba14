import DirectoryHistory.Proofs.Slot.Convergence

/-!
# Changes from before the creation

A replica may learn of a change that is older than the creation of the entry. It is merged like any
other, except that a delete of a value that no mark is about is dropped.
-/

namespace DirectoryHistory

namespace Timeline

/-- Whether the change is a delete from before the creation of a value without a mark. -/
def drops (created : Option Stamp) (s : Stamp) (t : Timeline) : Change → Bool
  | .delete v => created.any (s ≤ ·) && (t.mark? v).isNone
  | _ => false

/-- The timeline of an entry created at `created` after a change made at `s`. -/
def mergeSince (created : Option Stamp) (s : Stamp) (t : Timeline) (c : Change) : Timeline :=
  if t.drops created s c then t else t.merge s c

variable {t : Timeline} {created : Option Stamp} {s : Stamp}

theorem Ordered.mergeSince (ht : t.Ordered) (created : Option Stamp) (s : Stamp) (c : Change) :
    (t.mergeSince created s c).Ordered := by
  rw [Timeline.mergeSince]
  split
  · exact ht
  · exact ht.merge s c

theorem Ordered.foldl_mergeSince (ht : t.Ordered) (created : Option Stamp) (s : Stamp)
    (cs : List Change) : (cs.foldl (Timeline.mergeSince created s) t).Ordered := by
  induction cs generalizing t with
  | nil => exact ht
  | cons c cs ih => exact ih (ht.mergeSince created s c)

end Timeline

namespace Slot

variable {s : Slot} {single : Bool} {created : Option Stamp} {stamp : Stamp}

/-- The timeline after a change, also if the entry was created later. -/
theorem timeline_resolve_since (single : Bool) (created : Option Stamp) (stamp : Stamp) (c : Change)
    (s : Slot) : (s.resolve single created stamp c).slot.timeline =
      s.timeline.mergeSince created stamp c := by
  have never : ∀ c ∈ (none : Option Stamp), c < stamp := nofun
  have alone := timeline_resolve single never c s
  cases c with
  | add v | clear | replace vs => exact alone
  | delete v =>
    by_cases dropped : (created.any (stamp ≤ ·) && (s.timeline.mark? v).isNone) = true
    · simp [resolve, Slot.delete, Timeline.mergeSince, Timeline.drops, dropped]
    · rw [Timeline.mergeSince, Timeline.drops, if_neg dropped, ← alone]
      simp only [resolve, Slot.delete, if_neg dropped]
      simp

theorem timeline_resolveEdit_since (single : Bool) (created : Option Stamp) (e : Edit) (s : Slot) :
    (s.resolveEdit single created e).timeline =
      e.changes.foldl (Timeline.mergeSince created e.stamp) s.timeline := by
  have fold : ∀ (cs : List Change) (s : Slot),
      (cs.foldl (fun s c => (s.resolve single created e.stamp c).slot) s).timeline =
        cs.foldl (Timeline.mergeSince created e.stamp) s.timeline := by
    intro cs
    induction cs with
    | nil => exact fun _ => rfl
    | cons c cs ih =>
      intro s
      rw [List.foldl_cons, ih, timeline_resolve_since, List.foldl_cons]
  exact fold e.changes s

end Slot

end DirectoryHistory
