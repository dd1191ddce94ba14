import DirectoryHistory.Proofs.Table
import DirectoryHistory.Proofs.Tracked.Requests

/-!
# Runs of single changes

Changes of single attributes, each with a stamp of its own, are resolved in any order and as often
as they come. What matters of the history in the end is which changes were resolved: the timelines
are those of the changes, and so are the facts that the history is written as.
-/

namespace DirectoryHistory

/-- A change to one attribute with its stamp. -/
structure StampedChange where
  stamp : Stamp
  attr : Attribute
  change : Change
  deriving DecidableEq, Repr

namespace StampedChange

def edit (a : Attribute) (c : StampedChange) : Edit :=
  ⟨c.stamp, if c.attr = a then [c.change] else []⟩

theorem isUniform_edit (a : Attribute) (c : StampedChange) : (c.edit a).IsUniform := by
  intro d hd d' hd'
  simp only [edit] at hd hd'
  split at hd
  · next h =>
    simp only [h, if_true, List.mem_singleton] at hd hd'
    rw [hd, hd']
  · simp at hd

end StampedChange

namespace History

theorem ext_get? {h h' : History} (timelines : ∀ a, h.timelines.get? a = h'.timelines.get? a)
    (created : h.created = h'.created) (renamed : h.renamed = h'.renamed) : h = h' := by
  cases h
  cases h'
  simp only at timelines created renamed
  rw [Table.ext_get? timelines, created, renamed]

end History

namespace Tracked

variable {schema : Schema} {t : Tracked} {changes run run' : List StampedChange}

/-- Resolves changes one after the other. A rejected one leaves the entry as it was. -/
def resolveEach (schema : Schema) (t : Tracked) (run : List StampedChange) : Tracked :=
  run.foldl (fun t c =>
    match t.resolve schema c.attr c.change c.stamp with
    | .ok (_, t') => t'
    | .error _ => t) t

def afterChange (schema : Schema) (t : Tracked) (c : StampedChange) : Tracked :=
  t.step schema c.stamp (c.attr, c.change)

theorem resolveEach_eq (run : List StampedChange) (t : Tracked) : t.resolveEach schema run =
    (run.filter fun c => Accepts schema (c.attr, c.change)).foldl (afterChange schema) t := by
  induction run generalizing t with
  | nil => rfl
  | cons c rest ih =>
    rw [resolveEach, List.foldl_cons, ← resolveEach, ih]
    by_cases h : Accepts schema (c.attr, c.change)
    · obtain ⟨verdict, taken⟩ := resolve_of_accepts h c.stamp t
      simp only at taken
      simp [taken, h, afterChange]
    · obtain ⟨e, rejected⟩ := resolve_of_not_accepts h c.stamp t
      simp only at rejected
      simp [rejected, h]

theorem slot_foldl_afterChange (run : List StampedChange) (t : Tracked) (a : Attribute) :
    (run.foldl (afterChange schema) t).slot a = (run.map (StampedChange.edit a)).foldl
      (Slot.resolveEdit (schema.isSingle a) t.history.created) (t.slot a) := by
  induction run generalizing t with
  | nil => rfl
  | cons c rest ih =>
    rw [List.foldl_cons, ih, afterChange, created_step]
    by_cases h : c.attr = a
    · subst h
      rw [slot_step_self]
      simp [StampedChange.edit, Slot.resolveEdit]
    · rw [slot_step_of_ne schema c.stamp t (p := (c.attr, c.change)) h]
      simp [StampedChange.edit, Slot.resolveEdit, h]

theorem timeline_foldl_afterChange (newer : ∀ c ∈ run, ∀ s ∈ t.history.created, s < c.stamp)
    (a : Attribute) : (run.foldl (afterChange schema) t).history.timeline a =
      (run.map (StampedChange.edit a)).foldl Timeline.mergeEdit (t.history.timeline a) := by
  have newer' : ∀ e ∈ run.map (StampedChange.edit a), ∀ s ∈ t.history.created, s < e.stamp := by
    rw [List.forall_mem_map]
    exact newer
  rw [← timeline_slot, slot_foldl_afterChange, Slot.timeline_foldl_resolveEdit newer',
    timeline_slot]

theorem isSome_get?_foldl_afterChange (run : List StampedChange) (t : Tracked) (a : Attribute) :
    ((run.foldl (afterChange schema) t).history.timelines.get? a).isSome = true ↔
      (∃ c ∈ run, c.attr = a) ∨ (t.history.timelines.get? a).isSome = true := by
  induction run generalizing t with
  | nil => simp
  | cons c rest ih =>
    rw [List.foldl_cons, ih]
    by_cases h : c.attr = a
    · subst h
      simp [afterChange, step, setSlot, History.setTimeline]
    · have other := Table.get?_insert_of_ne t.history.timelines (Ne.symm h)
      simp [afterChange, step, setSlot, History.setTimeline, other, h]

@[simp] theorem created_foldl_afterChange (run : List StampedChange) (t : Tracked) :
    (run.foldl (afterChange schema) t).history.created = t.history.created := by
  induction run generalizing t with
  | nil => rfl
  | cons c rest ih => rw [List.foldl_cons, ih, afterChange, created_step]

@[simp] theorem renamed_foldl_afterChange (run : List StampedChange) (t : Tracked) :
    (run.foldl (afterChange schema) t).history.renamed = t.history.renamed := by
  induction run generalizing t with
  | nil => rfl
  | cons c rest ih => rw [List.foldl_cons, ih, afterChange, step, renamed_setSlot]

/-- The timeline of every attribute reflects the changes to it. -/
theorem reflects_foldl_afterChange (schema : Schema) (fresh : t.history.IsFresh)
    (distinct : (changes.map (·.stamp)).Nodup)
    (newer : ∀ c ∈ changes, ∀ s ∈ t.history.created, s < c.stamp)
    (only : ∀ c ∈ run, c ∈ changes) (a : Attribute) :
    ((run.foldl (afterChange schema) t).history.timeline a).Reflects
      (run.map (StampedChange.edit a)) := by
  rw [timeline_foldl_afterChange (fun c hc => newer c (only c hc)), fresh.1 a]
  apply Timeline.reflects_nil.foldl_mergeEdit _
  simp only [List.nil_append, List.forall_mem_map]
  intro c hc d hd stamps
  rw [List.inj_on_of_nodup_map distinct (only d hd) (only c hc) stamps]

/-- Runs of the same changes leave the same history behind. -/
theorem history_foldl_afterChange_eq (schema : Schema) (fresh : t.history.IsFresh)
    (distinct : (changes.map (·.stamp)).Nodup)
    (newer : ∀ c ∈ changes, ∀ s ∈ t.history.created, s < c.stamp)
    (only : ∀ c ∈ run, c ∈ changes) (same : ∀ c, c ∈ run ↔ c ∈ run') :
    (run.foldl (afterChange schema) t).history = (run'.foldl (afterChange schema) t).history := by
  have only' : ∀ c ∈ run', c ∈ changes := fun c hc => only c ((same c).mpr hc)
  refine History.ext_get? (fun a => ?_) (by simp) (by simp)
  have edits : ∀ e, e ∈ run'.map (StampedChange.edit a) ↔ e ∈ run.map (StampedChange.edit a) := by
    intro e
    simp only [List.mem_map, same]
  have left := reflects_foldl_afterChange schema fresh distinct newer only a
  have right := reflects_foldl_afterChange schema fresh distinct newer only' a
  have timelines := left.eq_of_uniform (right.congr edits)
    (List.forall_mem_map.mpr fun c _ => c.isUniform_edit a)
  have known : ((run.foldl (afterChange schema) t).history.timelines.get? a).isSome =
      ((run'.foldl (afterChange schema) t).history.timelines.get? a).isSome := by
    rw [Bool.eq_iff_iff, isSome_get?_foldl_afterChange, isSome_get?_foldl_afterChange]
    simp only [same]
  simp only [History.timeline] at timelines
  cases hl : (run.foldl (afterChange schema) t).history.timelines.get? a <;>
    cases hr : (run'.foldl (afterChange schema) t).history.timelines.get? a <;> simp_all

/-- Changes with stamps of their own leave one history behind in every order. Each is taken by every
entry if its attribute may be changed and holds as many values as the change gives it. -/
theorem encode_resolveEach_eq (fresh : t.history.IsFresh)
    (distinct : (changes.map (·.stamp)).Nodup)
    (newer : ∀ c ∈ changes, ∀ s ∈ t.history.created, s < c.stamp)
    (same : ∀ c, c ∈ run ↔ c ∈ changes) (same' : ∀ c, c ∈ run' ↔ c ∈ changes) :
    (t.resolveEach schema run).history.encode = (t.resolveEach schema run').history.encode ∧
    ∀ c ∈ changes, checkTarget c.attr = .ok () →
      c.change.isOvercrowded (schema.isSingle c.attr) = false →
      ∀ u : Tracked, ∃ verdict u',
        u.resolve schema c.attr c.change c.stamp = .ok (verdict, u') := by
  constructor
  · rw [resolveEach_eq, resolveEach_eq, history_foldl_afterChange_eq schema fresh distinct newer]
    · exact fun c hc => (same c).mp (List.mem_filter.mp hc).1
    · intro c
      simp only [List.mem_filter, same, same']
  · intro c _ target uncrowded u
    obtain ⟨verdict, taken⟩ := resolve_of_accepts (p := (c.attr, c.change))
      ⟨target, uncrowded⟩ c.stamp u
    exact ⟨verdict, _, taken⟩

/-- An old add that comes last is overridden, and its fact is written all the same. -/
theorem encode_resolveEach_eq_old_add_last :
    ((justCreated ⟨1, 0, 1⟩ ⟨"mail", []⟩ [[1]]).resolveEach ⟨["uid"]⟩
      [⟨⟨2, 0, 2⟩, ⟨"mail", []⟩, .add [2]⟩,
        ⟨⟨3, 0, 1⟩, ⟨"mail", []⟩, .replace [[3]]⟩]).history.encode =
    ((justCreated ⟨1, 0, 1⟩ ⟨"mail", []⟩ [[1]]).resolveEach ⟨["uid"]⟩
      [⟨⟨3, 0, 1⟩, ⟨"mail", []⟩, .replace [[3]]⟩,
        ⟨⟨2, 0, 2⟩, ⟨"mail", []⟩, .add [2]⟩]).history.encode := by
  let older : StampedChange := ⟨⟨2, 0, 2⟩, ⟨"mail", []⟩, .add [2]⟩
  let newer : StampedChange := ⟨⟨3, 0, 1⟩, ⟨"mail", []⟩, .replace [[3]]⟩
  have distinct : ([older, newer].map (·.stamp)).Nodup := by decide
  have same : ∀ c, c ∈ [newer, older] ↔ c ∈ [older, newer] := by simp [or_comm]
  exact (encode_resolveEach_eq (History.isFresh_ofCreation _) distinct (by decide)
    (fun _ => Iff.rfl) same).1

end Tracked

end DirectoryHistory
