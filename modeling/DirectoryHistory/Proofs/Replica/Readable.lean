import DirectoryHistory.Proofs.Replica.Operations

/-!
# Stored histories are readable

As long as requests name plain attributes, every entry of a replica carries a history that can be
read, whatever operations the replica has taken. What is read are the facts of the history that was
last written into the entry, and written again they give the values that the entry holds.
-/

namespace DirectoryHistory

/-- The values that carry the history of the entry are what `h` is written as. -/
structure Entry.Carries (e : Entry) (h : History) : Prop where
  ordered : h.IsOrdered
  readable : h.IsReadable
  written : e.historyValues = h.encode

variable {e : Entry} {h : History} {t : Tracked}

theorem Entry.Carries.read (c : e.Carries h) :
    ∃ g, History.ofEntry e = .ok g ∧ g.Agrees h := by
  simpa only [History.ofEntry, c.written] using
    History.ofValues_of_mem_iff c.ordered c.readable fun _ => Iff.rfl

theorem Tracked.carries_store (ordered : t.history.IsOrdered) (readable : t.history.IsReadable)
    (now : UInt64) (retention : Option Nat) :
    (t.store now retention).Carries (t.history.expire now retention) where
  ordered := ordered.expire now retention
  readable := readable.expire now retention
  written := historyValues_store ordered readable now retention

namespace Replica

/-- The attributes that the requests of an operation change. -/
def Operation.modified : Operation → List Attribute
  | .modify _ mods _ => mods.map (·.attr)
  | .replay u =>
    match u.payload with
    | .modify mods => mods.map (·.attr)
    | _ => []
  | _ => []

/-- Every stored entry carries a history that can be read. -/
def IsReadable (r : Replica) : Prop :=
  ∀ id e, r.store.get? id = some e → ∃ h : History, e.Carries h

variable {r r' : Replica} {now : Readings} {op : Operation} {schema : Schema}

theorem find?_of_find {name : DistinguishedName} (h : r.find name = .ok e) :
    r.store.find? name = some e := by
  simp only [find] at h
  split at h
  · next found =>
    cases h
    exact found
  · cases h

theorem of_find_eq_ok {name : DistinguishedName} (h : r.find name = .ok e) :
    ∃ id, r.store.get? id = some e :=
  Store.get?_of_find? (find?_of_find h)

theorem of_findTracked_eq_ok {name : DistinguishedName} (h : r.findTracked name = .ok t) :
    ∃ e, r.find name = .ok e ∧ Tracked.ofEntry e = .ok t := by
  simp only [findTracked] at h
  split at h
  · cases h
  · next e found =>
    refine ⟨e, found, ?_⟩
    cases read : Tracked.ofEntry e <;> simp_all [Except.mapError]

theorem wellFormed_of_applyRequest {mods : List Modification} {stamp : Stamp}
    {abandon : Nat → Bool} {ending : Ending} {tally : Tally} {t' : Tracked}
    (c : e.Carries h) (read : Tracked.ofEntry e = .ok t)
    (taken : t.applyRequest schema mods stamp abandon = .ok (ending, tally, t'))
    (plain : ∀ m ∈ mods, m.attr.IsPlain) :
    t'.history.IsOrdered ∧ t'.history.IsReadable := by
  obtain ⟨g, read', agrees⟩ := c.read
  obtain rfl : ⟨e, g⟩ = t := by simpa [Tracked.ofEntry, read', Except.map] using read
  obtain ⟨valid, n, rfl⟩ := Tracked.exists_take_of_applyRequest taken
  have slots := Tracked.isSlot_of_validateAll valid plain
  exact ⟨Tracked.isOrdered_foldl_step (agrees.isOrdered c.ordered) schema stamp _,
    Tracked.isReadable_foldl_step (agrees.isReadable c.readable) schema stamp
      fun p hp => slots p (List.mem_of_mem_take hp)⟩

theorem wellFormed_of_rename (c : e.Carries h) {g : History} (read : History.ofEntry e = .ok g)
    (s : Stamp) : (g.rename s).IsOrdered ∧ (g.rename s).IsReadable := by
  obtain ⟨g', read', agrees⟩ := c.read
  obtain rfl : g' = g := by simpa [read'] using read
  constructor
  · intro a
    rw [History.timeline_rename]
    exact agrees.isOrdered c.ordered a
  · intro a
    rw [History.timeline_rename]
    exact agrees.isReadable c.readable a

theorem Writes.wellFormed (writes : Writes r now op t) (readable : r.IsReadable)
    (plain : ∀ a ∈ op.modified, a.IsPlain) : t.history.IsOrdered ∧ t.history.IsReadable := by
  cases writes with
  | add ticked => exact ⟨History.isOrdered_ofCreation _, History.isReadable_ofCreation _⟩
  | modify found taken =>
    obtain ⟨e, found, read⟩ := of_findTracked_eq_ok found
    obtain ⟨id, stored⟩ := of_find_eq_ok found
    obtain ⟨h, c⟩ := readable id e stored
    exact wellFormed_of_applyRequest c read taken fun m hm => plain m.attr (List.mem_map_of_mem hm)
  | rename found named read =>
    obtain ⟨id, stored⟩ := of_find_eq_ok found
    obtain ⟨h, c⟩ := readable id _ stored
    exact wellFormed_of_rename c read _
  | replayAdd payload named =>
    exact ⟨History.isOrdered_ofCreation _, History.isReadable_ofCreation _⟩
  | replayModify payload stored read taken =>
    obtain ⟨h, c⟩ := readable _ _ stored
    refine wellFormed_of_applyRequest c read taken fun m hm => plain m.attr ?_
    simp only [Operation.modified, payload]
    exact List.mem_map_of_mem hm
  | replayRename payload stored read named =>
    obtain ⟨h, c⟩ := readable _ _ stored
    exact wellFormed_of_rename c read _

/-- The replica after operations, each at its time. -/
def performAll (r : Replica) (run : List (Readings × Operation)) : Replica :=
  run.foldl (fun r p => r.perform p.1 p.2) r

/-- The last operation of the run that wrote the entry under `id` wrote `t`, with `now` on the wall
clock. -/
def LastWritten (r : Replica) (run : List (Readings × Operation)) (id : EntryId) (now : Readings)
    (t : Tracked) : Prop :=
  ∃ before op after, run = before ++ (now, op) :: after ∧ Writes (r.performAll before) now op t ∧
    t.entry.id = id ∧ ∀ later, later <+: after →
      (r.performAll (before ++ (now, op) :: later)).store.get? id = some (t.store now.storing r.retention)

variable {run : List (Readings × Operation)} {id : EntryId}

theorem performAll_snoc (r : Replica) (run : List (Readings × Operation)) (p : Readings × Operation) :
    r.performAll (run ++ [p]) = (r.performAll run).perform p.1 p.2 := by
  simp [performAll]

theorem retention_perform (r : Replica) (now : Readings) (op : Operation) :
    (r.perform now op).retention = r.retention := by
  cases effect_perform r now op with
  | kept only | removed id only | wrote t writes put only => rw [only]

@[simp] theorem retention_performAll (r : Replica) (run : List (Readings × Operation)) :
    (r.performAll run).retention = r.retention := by
  induction run using List.reverseRecOn with
  | nil => rfl
  | append_singleton run p ih => rw [performAll_snoc, retention_perform, ih]

theorem get?_perform (stored : (r.perform now op).store.get? id = some e) :
    r.store.get? id = some e ∨
      ∃ t, Writes r now op t ∧ t.entry.id = id ∧ e = t.store now.storing r.retention := by
  cases effect_perform r now op with
  | kept only =>
    rw [only] at stored
    exact .inl stored
  | removed id' only =>
    rw [only, Store.get?_remove] at stored
    split at stored
    · cases stored
    · exact .inl stored
  | wrote t writes put only =>
    rw [Store.get?_put put] at stored
    split at stored
    · next same => exact .inr ⟨t, writes, same.symm, (Option.some.inj stored).symm⟩
    · exact .inl stored

/-- A plain operation keeps the histories readable. -/
theorem IsReadable.perform (readable : r.IsReadable) (now : Readings)
    (plain : ∀ a ∈ op.modified, a.IsPlain) : (r.perform now op).IsReadable := by
  intro id e stored
  rcases get?_perform stored with before | ⟨t, writes, -, rfl⟩
  · exact readable id e before
  · obtain ⟨ordered, readable⟩ := writes.wellFormed readable plain
    exact ⟨_, Tracked.carries_store ordered readable now.storing r.retention⟩

theorem IsReadable.performAll (readable : r.IsReadable)
    (plain : ∀ p ∈ run, ∀ a ∈ p.2.modified, a.IsPlain) : (r.performAll run).IsReadable := by
  induction run generalizing r with
  | nil => exact readable
  | cons p rest ih =>
    exact ih (readable.perform p.1 (plain p (.head _))) fun q hq => plain q (.tail _ hq)

/-- What a run leaves in a store that was empty was written by it. -/
theorem exists_lastWritten (empty : r.store = .empty)
    (stored : (r.performAll run).store.get? id = some e) :
    ∃ now t, r.LastWritten run id now t ∧ e = t.store now.storing r.retention := by
  induction run using List.reverseRecOn generalizing e with
  | nil =>
    rw [performAll, List.foldl_nil, empty] at stored
    cases stored
  | append_singleton run p ih =>
    have last := stored
    rw [performAll_snoc] at stored
    rcases get?_perform stored with kept | ⟨t, writes, same, rfl⟩
    · obtain ⟨now, t, ⟨before, op, after, rfl, writes, same, since⟩, rfl⟩ := ih kept
      refine ⟨now, t, ⟨before, op, after ++ [p], by simp, writes, same, fun later hl => ?_⟩, rfl⟩
      rcases List.prefix_concat_iff.mp hl with rfl | hl
      · simpa using last
      · exact since later hl
    · refine ⟨p.1, t, ⟨run, p.2, [], rfl, writes, same, fun later hl => ?_⟩, by simp⟩
      obtain rfl := List.prefix_nil.mp hl
      simpa using last

theorem isReadable_of_empty (empty : r.store = .empty) : r.IsReadable := by
  intro id e stored
  rw [empty] at stored
  cases stored

/-- The history of a stored entry can be read, as long as requests name plain attributes. It has the
facts of the history that was last written, less what was past the retention then, and it is written
as the values that the entry holds. -/
theorem ofEntry_of_performAll (empty : r.store = .empty)
    (plain : ∀ p ∈ run, ∀ a ∈ p.2.modified, a.IsPlain)
    (stored : (r.performAll run).store.get? id = some e) :
    ∃ now t, r.LastWritten run id now t ∧ e = t.store now.storing r.retention ∧
      ∃ g, History.ofEntry e = .ok g ∧ g.facts = (t.history.expire now.storing r.retention).facts ∧
        g.encode = e.historyValues := by
  obtain ⟨now, t, last, rfl⟩ := exists_lastWritten empty stored
  refine ⟨now, t, last, rfl, ?_⟩
  obtain ⟨before, op, after, rfl, writes, -, -⟩ := last
  have readable : (r.performAll before).IsReadable :=
    (isReadable_of_empty empty).performAll fun p hp => plain p (List.mem_append_left _ hp)
  obtain ⟨ordered, readable⟩ := writes.wellFormed readable (plain (now, op) (by simp))
  have carries := Tracked.carries_store ordered readable now.storing r.retention
  obtain ⟨g, read, agrees⟩ := carries.read
  exact ⟨g, read, agrees.facts_eq, agrees.encode_eq.trans carries.written.symm⟩

/-- The attributes that an operation names, those of a new entry included. -/
def Operation.named : Operation → List Attribute
  | .add _ attributes => attributes.keys
  | .replay u =>
    match u.payload with
    | .add _ attributes => attributes.keys
    | .modify mods => mods.map (·.attr)
    | _ => []
  | op => op.modified

/-- An entry is replayed, changed under an option and renamed, and what is past the retention by then
is dropped. -/
theorem ofEntry_of_performAll_renamed :
    let run : List (Readings × Operation) :=
      [(10, .replay ⟨⟨1, 0, 2⟩, ⟨[⟨"o", "test"⟩]⟩, .uniform 0, .add none .empty⟩),
        (20, .modify ⟨[⟨"o", "test"⟩]⟩ [⟨⟨"mail", ["lang-de"]⟩, .add, [[1], [58]]⟩] fun _ => false),
        (30, .rename ⟨[⟨"o", "test"⟩]⟩ ⟨"o", "other"⟩ true none)]
    ∃ e, ((make 1 ⟨[⟨"o", "test"⟩]⟩ ⟨["uid"]⟩ (some 15) .empty).performAll run).store.get?
        (.uniform 0) = some e ∧
      ∃ g, History.ofEntry e = .ok g ∧ g.encode = e.historyValues := by
  intro run
  have held : (((make 1 ⟨[⟨"o", "test"⟩]⟩ ⟨["uid"]⟩ (some 15) .empty).performAll run).store.get?
      (.uniform 0)).isSome = true := by decide +kernel
  obtain ⟨e, stored⟩ := Option.isSome_iff_exists.mp held
  obtain ⟨-, -, -, -, g, read, -, same⟩ := ofEntry_of_performAll rfl (by decide) stored
  exact ⟨e, stored, g, read, same⟩

/-- An option may be read with a colon in it, and then the history is not read back. -/
theorem ofEntry_of_performAll_colon : ¬∀ (r : Replica) (run : List (Readings × Operation))
    (id : EntryId) (e : Entry), r.store = .empty →
    (∀ p ∈ run, ∀ a ∈ p.2.named, ∃ s, Attribute.parse s = .ok a) →
    (r.performAll run).store.get? id = some e → ∃ g, History.ofEntry e = .ok g := by
  intro reads
  let r := make 1 ⟨[⟨"o", "test"⟩]⟩ ⟨["uid"]⟩ none .empty
  let run : List (Readings × Operation) :=
    [(10, .replay ⟨⟨1, 0, 2⟩, ⟨[⟨"o", "test"⟩]⟩, .uniform 0, .add none .empty⟩),
      (20, .modify ⟨[⟨"o", "test"⟩]⟩ [⟨⟨"mail", ["a:b"]⟩, .add, [[1]]⟩] fun _ => false)]
  have parsed : ∀ p ∈ run, ∀ a ∈ p.2.named, ∃ s, Attribute.parse s = .ok a := by
    have texts : ∀ p ∈ run, ∀ a ∈ p.2.named, Attribute.parse a.text = .ok a := by decide
    exact fun p hp a ha => ⟨a.text, texts p hp a ha⟩
  have unread : ((r.performAll run).store.get? (.uniform 0)).map
      (fun e => (History.ofEntry e).isOk) = some false := by decide +kernel
  obtain ⟨e, stored, fails⟩ := Option.map_eq_some_iff.mp unread
  obtain ⟨g, read⟩ := reads r run (.uniform 0) e rfl parsed stored
  simp [read, Except.isOk, Except.toBool] at fails

end Replica

end DirectoryHistory
