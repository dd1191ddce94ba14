import DirectoryHistory.Proofs.Rebuild.Updates
import DirectoryHistory.Proofs.Replica.Sending
import DirectoryHistory.Proofs.Slot.Renaming
import DirectoryHistory.Proofs.Text.Case

/-!
# Renaming an entry

A rename keeps the values that name the entry in step without a word in the timelines: the value of
the new leaf is added unless it is held in some case, and that of a dropped leaf goes in every case.
The values of an attribute after a rename depend on its values before and on the two leaves.
-/

namespace DirectoryHistory

/-- Tidy names that give an attribute one value are the same. -/
theorem RelativeName.same_of_gives {m n : RelativeName} {a : Attribute} {v : Octets}
    (tidy : m.IsTidy) (tidy' : n.IsTidy) (h : m.Gives a v) (h' : n.Gives a v) : m.same n = true := by
  obtain ⟨rfl, value⟩ := h
  obtain ⟨attr, value'⟩ := h'
  have attr : m.attr = n.attr := by
    rw [tidy, tidy'] at attr
    exact congrArg Attribute.name attr
  refine same_of_sameIgnoringCase attr ?_
  rw [Replica.sameIgnoringCase, beq_iff_eq] at value value' ⊢
  rw [← value, value']

theorem Entry.values_addValue_of_ne (e : Entry) {a b : Attribute} (h : b ≠ a) (v : Octets) :
    (e.addValue a v).values b = e.values b := by
  rw [addValue]
  split
  · rfl
  · exact values_setValues_of_ne e h _

theorem Entry.values_addValue_congr {e f : Entry} {a : Attribute} (h : e.values a = f.values a)
    (b : Attribute) (v : Octets) : (e.addValue b v).values a = (f.addValue b v).values a := by
  by_cases hb : a = b
  · subst hb
    have held : e.hasValue a v = f.hasValue a v := by
      rw [hasValue, hasValue, h]
    rw [addValue, addValue, held]
    split
    · exact h
    · rw [values_setValues_self, values_setValues_self, h]
  · rw [values_addValue_of_ne e hb, values_addValue_of_ne f hb, h]

namespace Replica

variable {e f : Entry} {leaf old : RelativeName} {a : Attribute} {v : Octets}
variable {name : DistinguishedName} {deleteOld : Bool}

def dropped? (name : DistinguishedName) (leaf : RelativeName) (deleteOld : Bool) :
    Option RelativeName :=
  name.leaf?.filter fun old => deleteOld && !old.same leaf

theorem not_gives_dropped (tidy : leaf.IsTidy) (tidy' : ∀ old ∈ name.leaf?, old.IsTidy)
    (deleteOld : Bool) (given : leaf.Gives a v) :
    ∀ old ∈ dropped? name leaf deleteOld, ¬old.Gives a v := by
  intro old drops given'
  obtain ⟨named, drop⟩ := Option.filter_eq_some_iff.mp drops
  have same := RelativeName.same_of_gives (tidy' old named) tidy given' given
  simp [same] at drop

theorem takeLeaf_eq (e : Entry) (leaf : RelativeName) :
    takeLeaf e leaf = { e with attributes := (takeLeaf e leaf).attributes } := by
  simp only [takeLeaf]
  split
  · rfl
  · rw [Entry.addValue]
    split <;> rfl

theorem dropLeaf_eq (e : Entry) (old : RelativeName) :
    dropLeaf e old = { e with attributes := (dropLeaf e old).attributes } := by
  have fold : ∀ (vs : List Octets) (e : Entry), ∃ left,
      vs.foldl (fun e v => e.removeValue (.make old.attr) v) e = { e with attributes := left } := by
    intro vs
    induction vs with
    | nil => exact fun e => ⟨e.attributes, rfl⟩
    | cons v vs ih => exact fun e => ih (e.removeValue (.make old.attr) v)
  obtain ⟨left, h⟩ := fold ((e.values (.make old.attr)).filter
    (sameIgnoringCase · (Octets.ofText old.value))) e
  rw [dropLeaf, h]

theorem mem_values_takeLeaf : v ∈ (takeLeaf e leaf).values a ↔ v ∈ e.values a ∨
    leaf.Writes a v ∧ ∀ w ∈ e.values a, ¬leaf.Gives a w := by
  simp only [takeLeaf]
  split
  · next held =>
    obtain ⟨w, hw, same⟩ := List.any_eq_true.mp held
    refine ⟨.inl, fun h => h.elim id ?_⟩
    rintro ⟨⟨rfl, -⟩, others⟩
    exact absurd ⟨rfl, same⟩ (others w hw)
  · next missing =>
    rw [Entry.mem_values_addValue]
    refine or_congr Iff.rfl ⟨?_, And.left⟩
    rintro ⟨rfl, rfl⟩
    refine ⟨⟨rfl, rfl⟩, fun w hw given => missing ?_⟩
    exact List.any_eq_true.mpr ⟨w, hw, given.2⟩

theorem values_takeLeaf_of_ne (h : a ≠ .make leaf.attr) :
    (takeLeaf e leaf).values a = e.values a := by
  simp only [takeLeaf]
  split
  · rfl
  · exact Entry.values_addValue_of_ne e h _

theorem values_dropLeaf (e : Entry) (old : RelativeName) (a : Attribute) :
    (dropLeaf e old).values a = (e.values a).filter fun v => decide ¬old.Gives a v := by
  have fold : ∀ (vs : List Octets) (e : Entry),
      (vs.foldl (fun e v => e.removeValue (.make old.attr) v) e).values a =
        (e.values a).filter fun v => decide ¬(a = .make old.attr ∧ v ∈ vs) := by
    intro vs
    induction vs with
    | nil => simp
    | cons w vs ih =>
      intro e
      rw [List.foldl_cons, ih]
      by_cases ha : a = .make old.attr
      · subst ha
        rw [Entry.removeValue, Entry.values_setValues_self, List.filter_filter]
        refine List.filter_congr fun v _ => ?_
        by_cases hv : v = w <;> simp [hv]
      · simp [Entry.removeValue, Entry.values_setValues_of_ne e ha, ha]
  rw [dropLeaf, fold]
  refine List.filter_congr fun v hv => decide_eq_decide.mpr (not_congr (and_congr_right ?_))
  rintro rfl
  rw [List.mem_filter, and_iff_right hv]

theorem values_dropLeaf_of_ne (h : a ≠ .make old.attr) :
    (dropLeaf e old).values a = e.values a := by
  rw [values_dropLeaf, List.filter_eq_self]
  exact fun v _ => decide_eq_true fun given => h given.1

theorem renameEntry_eq (e : Entry) (name : DistinguishedName) (leaf : RelativeName)
    (deleteOld : Bool) : renameEntry e name leaf deleteOld =
      match dropped? e.name leaf deleteOld with
      | some old => dropLeaf (takeLeaf { e with name } leaf) old
      | none => takeLeaf { e with name } leaf := by
  simp only [renameEntry, dropped?]
  cases e.name.leaf? with
  | none => rfl
  | some old =>
    simp only [Option.filter_some]
    split <;> simp_all

theorem values_takeLeaf_congr (h : e.values a = f.values a) (leaf : RelativeName) :
    (takeLeaf e leaf).values a = (takeLeaf f leaf).values a := by
  by_cases ha : a = .make leaf.attr
  · subst ha
    simp only [takeLeaf, h]
    split
    · exact h
    · exact Entry.values_addValue_congr h _ _
  · rw [values_takeLeaf_of_ne ha, values_takeLeaf_of_ne ha, h]

/-- A rename takes the values away that the dropped leaf gives, after it has added that of the new
one. -/
theorem values_renameEntry (e : Entry) (name : DistinguishedName) (leaf : RelativeName)
    (deleteOld : Bool) (a : Attribute) : (renameEntry e name leaf deleteOld).values a =
      ((takeLeaf e leaf).values a).filter fun v =>
        decide (∀ old ∈ dropped? e.name leaf deleteOld, ¬old.Gives a v) := by
  have moved : (takeLeaf { e with name } leaf).values a = (takeLeaf e leaf).values a := by
    have same : ({ e with name } : Entry).values a = e.values a := rfl
    exact values_takeLeaf_congr same leaf
  rw [renameEntry_eq]
  split
  · next old drops => simp [values_dropLeaf, moved, drops]
  · next drops => simp [moved, drops]

theorem mem_values_renameEntry {name : DistinguishedName} {leaf : RelativeName} {deleteOld : Bool}
    {a : Attribute} {v : Octets} : v ∈ (renameEntry e name leaf deleteOld).values a ↔
      (v ∈ e.values a ∨ leaf.Writes a v ∧ ∀ w ∈ e.values a, ¬leaf.Gives a w) ∧
        ∀ old ∈ dropped? e.name leaf deleteOld, ¬old.Gives a v := by
  rw [values_renameEntry, List.mem_filter, mem_values_takeLeaf, decide_eq_true_iff]

theorem values_renameEntry_congr (named : e.name = f.name) (h : e.values a = f.values a)
    (target target' : DistinguishedName) (leaf : RelativeName) (deleteOld : Bool) :
    (renameEntry e target leaf deleteOld).values a =
      (renameEntry f target' leaf deleteOld).values a := by
  rw [values_renameEntry, values_renameEntry, named, values_takeLeaf_congr h leaf]

theorem name_renameEntry (e : Entry) (name : DistinguishedName) (leaf : RelativeName)
    (deleteOld : Bool) : (renameEntry e name leaf deleteOld).name = name := by
  rw [renameEntry_eq]
  split
  · rw [dropLeaf_eq, takeLeaf_eq]
  · rw [takeLeaf_eq]

theorem id_renameEntry (e : Entry) (name : DistinguishedName) (leaf : RelativeName)
    (deleteOld : Bool) : (renameEntry e name leaf deleteOld).id = e.id := by
  rw [renameEntry_eq]
  split
  · rw [dropLeaf_eq, takeLeaf_eq]
  · rw [takeLeaf_eq]

end Replica

/-- The entry under its new name. -/
def Tracked.rename (t : Tracked) (name : DistinguishedName) (leaf : RelativeName)
    (deleteOld : Bool) (s : Stamp) : Tracked :=
  ⟨Replica.renameEntry t.entry name leaf deleteOld, t.history.rename s⟩

theorem Tracked.Agrees.rename {t u : Tracked} (h : t.Agrees u) (name : DistinguishedName)
    (leaf : RelativeName) (deleteOld : Bool) (s : Stamp) :
    (t.rename name leaf deleteOld s).Agrees (u.rename name leaf deleteOld s) where
  id := (Replica.id_renameEntry _ _ _ _).trans (h.id.trans (Replica.id_renameEntry _ _ _ _).symm)
  name := (Replica.name_renameEntry _ _ _ _).trans (Replica.name_renameEntry _ _ _ _).symm
  values a user := Replica.values_renameEntry_congr h.name (h.values a user) name name leaf deleteOld
  history := by
    refine ⟨fun a => ?_, ?_, ?_⟩
    · rw [Tracked.rename, Tracked.rename, History.timeline_rename, History.timeline_rename]
      exact h.history.timelines a
    · rw [Tracked.rename, Tracked.rename, History.created_rename, History.created_rename]
      exact h.history.created
    · rw [Tracked.rename, Tracked.rename, History.renamed_rename, History.renamed_rename,
        h.history.renamed]

theorem Tracked.isRenamed_slot (t : Tracked) (name : DistinguishedName) (leaf : RelativeName)
    (deleteOld : Bool) (s : Stamp) (a : Attribute) :
    Slot.IsRenamed leaf (Replica.dropped? t.entry.name leaf deleteOld) a (t.slot a)
      ((t.rename name leaf deleteOld s).slot a) where
  timeline := History.timeline_rename _ _ _
  untouched other others := by
    have same : ({ t.entry with name } : Entry).values a = t.entry.values a := rfl
    simp only [slot, rename, Replica.renameEntry_eq]
    split
    · next old drops =>
      rw [Replica.values_dropLeaf_of_ne (others old drops), Replica.values_takeLeaf_of_ne other, same]
    · rw [Replica.values_takeLeaf_of_ne other, same]
  mem_held_iff _ := Replica.mem_values_renameEntry

namespace Replica

variable {r r' : Replica} {id : EntryId} {t : Tracked} {now : UInt64} {u : Update}
variable {name target : DistinguishedName} {leaf : RelativeName} {deleteOld : Bool}
variable {superior : Option DistinguishedName} {superiorId : Option EntryId}

/-- A rename leads right below the superior, or else right below where the entry was, and not below the
entry itself. -/
theorem of_targetName_eq_ok (h : targetName name leaf superior = .ok target) :
    ∃ parent, superior.or name.parent? = some parent ∧ target = parent.child leaf ∧
      ¬target.isBelow name = true := by
  simp only [targetName] at h
  split at h
  · cases h
  next parent above =>
  split at h
  · cases h
  next apart =>
  cases h
  exact ⟨parent, above, rfl, apart⟩

theorem leaf?_of_targetName (h : targetName name leaf superior = .ok target) :
    target.leaf? = some leaf := by
  obtain ⟨parent, -, rfl, -⟩ := of_targetName_eq_ok h
  rfl

theorem Holds.of_rename {now : Readings} (held : r.Holds id t) (indexed : r.store.IsIndexed)
    (unlimited : r.retention = none) (sound : t.history.IsSound)
    (done : r.rename now name leaf deleteOld superior = (.ok u, r')) (own : u.id = id) :
    u.stamp = (r.clock.tick now.issuing).stamp ∧ Alters id r r' ∧ ∃ target, target.leaf? = some leaf ∧
      ∃ t', r'.Holds id t' ∧ t'.Agrees (t.rename target leaf deleteOld u.stamp) := by
  have sends : Sends r now (.rename name leaf deleteOld superior) u r' := by
    have sends := sends_rename (u := u) (by rw [done]; rfl)
    rwa [done] at sends
  cases sends with
  | @rename _ target _ _ _ _ e h _ _ stamped _ found named _ read written =>
  obtain rfl := stamped
  obtain ⟨id', stored⟩ := of_find_eq_ok found
  have own : e.id = id := own
  obtain rfl : id' = id := (indexed.keyed id' e stored).symm.trans own
  obtain rfl : t.entry = e := Option.some.inj (held.stored.symm.trans stored)
  obtain rfl : t.history = h := Except.ok.inj (held.ofEntry_eq.symm.trans read)
  have after := sound.rename (r.clock.tick now.issuing).stamp
  have identified : (renameEntry t.entry target leaf deleteOld).id = id' :=
    (id_renameEntry _ _ _ _).trans held.identified
  obtain ⟨-, t', held', agrees⟩ :=
    holds_of_persist (r := r.tick now.issuing) unlimited after.ordered after.readable written
  refine ⟨rfl, alters_of_persist identified after.ordered after.readable written, target,
    leaf?_of_targetName named, t', identified ▸ held', agrees⟩

section Replaying

variable {e : Entry} {h : History} {parent : DistinguishedName}
variable (payload : u.payload = .rename leaf deleteOld superior superiorId)
variable (stored : r.store.get? u.id = some e) (read : History.ofEntry e = .ok h)
include payload stored read

theorem replay_rename_of_stale (stale : h.admitsRename u.stamp = false) (now : UInt64) :
    r.replay now u = (.ok (.ignored .stale), r.witness u.stamp) := by
  have stored : (r.witness u.stamp).store.get? u.id = some e := stored
  simp only [replay, replayWitnessed, payload, replayRename, stored, read, stale, Bool.false_eq_true,
    if_false]

/-- A replayed rename is applied if it leads to a name that is not taken, and the entry can be written
under that name. -/
theorem replay_rename_of_persist (admitted : h.admitsRename u.stamp = true)
    (goes : (r.witness u.stamp).renameParent? e superior superiorId = some parent)
    (untaken : (r.witness u.stamp).isTaken e (parent.child leaf) = false)
    (written : (r.witness u.stamp).persist now
      ⟨renameEntry e (parent.child leaf) leaf deleteOld, h.rename u.stamp⟩ = .ok r') :
    r.replay now u = (.ok (.applied .zero), r') := by
  have stored : (r.witness u.stamp).store.get? u.id = some e := stored
  simp only [replay, replayWitnessed, payload, replayRename, stored, read, admitted, goes, untaken,
    written, if_true, Bool.false_eq_true, if_false, Except.map]

end Replaying

/-- A replayed rename that leads an entry to the name that it has is applied. -/
theorem Holds.replay_rename (held : r.Holds id t) (unlimited : r.retention = none)
    (sound : t.history.IsSound) (first : t.history.renamed = none)
    (payload : u.payload = .rename leaf deleteOld superior superiorId) (own : u.id = id)
    {parent : DistinguishedName}
    (named : (r.witness u.stamp).renameParent? t.entry superior superiorId = some parent)
    (same : parent.child leaf = t.entry.name) (now : UInt64) :
    ∃ r' t', r.replay now u = (.ok (.applied .zero), r') ∧ Alters id r r' ∧ r'.Holds id t' ∧
      t'.Agrees (t.rename t.entry.name leaf deleteOld u.stamp) := by
  have witnessed : (r.witness u.stamp).Holds id t := held.of_store_eq rfl
  have after := sound.rename u.stamp
  have identified : (renameEntry t.entry t.entry.name leaf deleteOld).id = id :=
    (id_renameEntry _ _ _ _).trans held.identified
  obtain ⟨r', written⟩ := witnessed.persist_eq_ok
    (u := t.rename t.entry.name leaf deleteOld u.stamp) identified (name_renameEntry _ _ _ _) now
  have admitted : t.history.admitsRename u.stamp = true := by
    rw [History.admitsRename, first]
    rfl
  have free : (r.witness u.stamp).isTaken t.entry t.entry.name = false := by
    simp [isTaken]
  have replayed : r.replay now u = (.ok (.applied .zero), r') :=
    replay_rename_of_persist payload (own ▸ held.stored) held.ofEntry_eq admitted named
      (same ▸ free) (same ▸ written)
  obtain ⟨-, t', held', agrees⟩ :=
    holds_of_persist (r := r.witness u.stamp) unlimited after.ordered after.readable written
  exact ⟨r', t', replayed, alters_of_persist identified after.ordered after.readable written,
    identified ▸ held', agrees⟩

end Replica

end DirectoryHistory
