import DirectoryHistory.Proofs.History.Writing
import DirectoryHistory.Proofs.Tracked.Requests

/-!
# Storing an entry with its history

An entry whose history is written into it gives the same history back, and its user attributes are
untouched. So what a run of requests does to the slots of an entry does not depend on how often the
entry is stored and read again in between.
-/

namespace DirectoryHistory

theorem Attribute.ne_history {a : Attribute} (user : a.isHistory = false) : a ≠ .history := by
  rintro rfl
  revert user
  decide

theorem Entry.distinct_eq_self {vs : List Octets} (h : vs.Nodup) : distinct vs = vs := by
  have go : ∀ ws kept : List Octets, (kept ++ ws).Nodup →
      ws.foldl (fun kept v => if kept.contains v then kept else kept ++ [v]) kept = kept ++ ws := by
    intro ws
    induction ws with
    | nil => simp
    | cons w ws ih =>
      intro kept h
      have new : w ∉ kept := fun hw => (List.nodup_append.mp h).2.2 w hw w (.head _) rfl
      rw [List.foldl_cons, if_neg (by simpa using new), ih _ (by simpa using h)]
      simp
  exact go vs [] h

namespace Tracked

/-- Two entries of the same name and identifier, with the same values of user attributes and
histories that say the same. -/
structure Agrees (t u : Tracked) : Prop where
  id : t.entry.id = u.entry.id
  name : t.entry.name = u.entry.name
  values : ∀ a, a.isHistory = false → t.entry.values a = u.entry.values a
  history : t.history.Agrees u.history

variable {t u : Tracked}

theorem Agrees.slot (h : t.Agrees u) {a : Attribute} (user : a.isHistory = false) :
    t.slot a = u.slot a := by
  rw [Tracked.slot, Tracked.slot, h.values a user, h.history.timelines a]

theorem historyValues_store (ordered : t.history.IsOrdered) (readable : t.history.IsReadable)
    (now : UInt64) (retention : Option Nat) :
    (t.store now retention).historyValues = (t.history.expire now retention).encode := by
  have once := History.nodup_encode (ordered.expire now retention) (readable.expire now retention)
  simp [store, Entry.setHistory, Entry.replaceValues, Entry.historyValues,
    Entry.distinct_eq_self once]

theorem ofEntry_store (ordered : t.history.IsOrdered) (readable : t.history.IsReadable)
    (now : UInt64) : ∃ u, ofEntry (t.store now none) = .ok u ∧ u.entry = t.store now none ∧
      u.Agrees t := by
  have values : (t.store now none).historyValues = t.history.encode :=
    historyValues_store ordered readable now none
  obtain ⟨g, read, agrees⟩ := History.ofValues_of_mem_iff ordered readable fun _ => Iff.rfl
  refine ⟨⟨t.store now none, g⟩, ?_, rfl, rfl, rfl, fun a user => ?_, agrees⟩
  · simp [ofEntry, History.ofEntry, values, read, Except.map]
  · exact Entry.values_setValues_of_ne _ (Attribute.ne_history user) _

theorem isOrdered_step (ordered : t.history.IsOrdered) (schema : Schema) (stamp : Stamp)
    (p : Attribute × Change) : (t.step schema stamp p).history.IsOrdered := by
  intro b
  rw [← timeline_slot]
  obtain ⟨a, c⟩ := p
  by_cases h : a = b
  · subst h
    rw [slot_step_self]
    exact Slot.ordered_resolve (ordered a) _ _ _ c
  · rw [slot_step_of_ne schema stamp t (p := (a, c)) h]
    exact ordered b

theorem isOrdered_foldl_step (ordered : t.history.IsOrdered) (schema : Schema) (stamp : Stamp)
    (steps : List (Attribute × Change)) :
    (steps.foldl (step schema stamp) t).history.IsOrdered := by
  induction steps generalizing t with
  | nil => exact ordered
  | cons p rest ih => exact ih (isOrdered_step ordered schema stamp p)

theorem isReadable_step (readable : t.history.IsReadable) (schema : Schema) (stamp : Stamp)
    {p : Attribute × Change} (slot : p.1.IsSlot) : (t.step schema stamp p).history.IsReadable := by
  intro b nonempty
  by_cases h : p.1 = b
  · exact h ▸ slot
  · have same : (t.step schema stamp p).history.timeline b = t.history.timeline b :=
      congrArg Slot.timeline (slot_step_of_ne schema stamp t h)
    exact readable b (same ▸ nonempty)

theorem isReadable_foldl_step (readable : t.history.IsReadable) (schema : Schema) (stamp : Stamp)
    {steps : List (Attribute × Change)} (slots : ∀ p ∈ steps, p.1.IsSlot) :
    (steps.foldl (step schema stamp) t).history.IsReadable := by
  induction steps generalizing t with
  | nil => exact readable
  | cons p rest ih =>
    exact ih (isReadable_step readable schema stamp (slots p (.head _)))
      fun p hp => slots p (.tail _ hp)

theorem name_ne_of_checkTarget {a : Attribute} (h : checkTarget a = .ok ()) :
    a.name ≠ Attribute.entrySlot :=
  (checkTarget_eq_ok_iff.mp h).2.2

/-- The steps of a valid request with plain attributes are about attributes that can be told
apart. -/
theorem isSlot_of_validateAll {schema : Schema} {mods : List Modification}
    (valid : validateAll schema mods = .ok ()) (plain : ∀ m ∈ mods, m.attr.IsPlain) :
    ∀ p ∈ requestSteps mods, p.1.IsSlot := by
  intro p hp
  have target := (accepts_of_validateAll valid p hp).1
  obtain ⟨m, hm, hp⟩ := List.mem_flatMap.mp hp
  obtain ⟨c, -, rfl⟩ := List.mem_map.mp hp
  exact (plain m hm).isSlot (name_ne_of_checkTarget target)

/-- The entry was created at `created` with the values `initial` and has taken `requests` since. -/
structure Follows (schema : Schema) (created : Stamp) (initial : Attribute → List Octets)
    (t : Tracked) (requests : List Request) : Prop where
  created : t.history.created = some created
  ordered : t.history.IsOrdered
  readable : t.history.IsReadable
  slots : ∀ a, a.isHistory = false →
    (t.slot a).Follows (schema.isSingle a) (initial a) (requests.map (Request.edit a))

variable {schema : Schema} {created : Stamp} {initial : Attribute → List Octets}
variable {requests requests' : List Request} {r : Request}

theorem Follows.congr (h : t.Follows schema created initial requests)
    (same : ∀ r, r ∈ requests ↔ r ∈ requests') : t.Follows schema created initial requests' where
  created := h.created
  ordered := h.ordered
  readable := h.readable
  slots a user := (h.slots a user).congr fun e => by simp only [List.mem_map, same]

theorem Follows.of_agrees (h : t.Follows schema created initial requests) (agrees : u.Agrees t) :
    u.Follows schema created initial requests where
  created := agrees.history.created.trans h.created
  ordered := agrees.history.isOrdered h.ordered
  readable := agrees.history.isReadable h.readable
  slots a user := by
    rw [agrees.slot user]
    exact h.slots a user

/-- A valid request adds itself to those that the entry follows, also when it was taken before. -/
theorem Follows.afterRequest (h : t.Follows schema created initial requests)
    (valid : validateAll schema r.modifications = .ok ())
    (plain : ∀ m ∈ r.modifications, m.attr.IsPlain) (newer : created < r.stamp)
    (compatible : ∀ s ∈ requests, s.stamp = r.stamp → s = r) :
    (t.afterRequest schema r).Follows schema created initial (r :: requests) where
  created := (created_foldl_step _ t).trans h.created
  ordered := isOrdered_foldl_step h.ordered schema r.stamp _
  readable := isReadable_foldl_step h.readable schema r.stamp (isSlot_of_validateAll valid plain)
  slots a user := by
    rw [Tracked.afterRequest, slot_foldl_step]
    apply (h.slots a user).resolveEdit (by simp [h.created, newer])
    rw [List.forall_mem_map]
    intro s hs stamps
    rw [compatible s hs stamps]
    rfl

end Tracked

end DirectoryHistory
