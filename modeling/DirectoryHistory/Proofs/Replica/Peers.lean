import DirectoryHistory.Proofs.Replica.Freshness
import DirectoryHistory.Proofs.Replica.Moving
import DirectoryHistory.Proofs.Store.Matching

/-!
# Operations at a peer

An operation is done twice: by the replica whose client asks for it, which finds the entries by their
names, and by its peers, which take in the update and find them by their identifiers. A peer that
holds the same entries takes in the update and holds the same entries again, but for two cases. It
turns a creation away whose identifier is in use, which the first replica does not look at. And it
drops the values of an old name as it writes that name itself, so names that are the same though not
in the case of their ASCII letters alone may drop different values. Once the clock of the first
replica is exhausted, a peer may also find a rename no newer than the recorded one.
-/

namespace DirectoryHistory

/-- The second entry and its history match the first. What else stood where histories are kept does not
matter. -/
structure Tracked.Matches (t u : Tracked) : Prop where
  id : u.entry.id = t.entry.id
  name : u.entry.name.folded = t.entry.name.folded
  values : ∀ a, a ≠ .history → u.entry.values a = t.entry.values a
  history : u.history = t.history

theorem Entry.Matches.ofEntry_eq {e f : Entry} (h : e.Matches f) :
    History.ofEntry f = History.ofEntry e := by
  rw [History.ofEntry, History.ofEntry, Entry.historyValues, Entry.historyValues, h.values]

namespace Tracked

variable {t u : Tracked} {schema : Schema}

theorem matches_store_iff (history : u.history = t.history) (now now' : UInt64) :
    (t.store now none).Matches (u.store now' none) ↔ t.Matches u := by
  have kept : ∀ (t : Tracked) (now : UInt64) {a : Attribute}, a ≠ .history →
      (t.store now none).values a = t.entry.values a :=
    fun _ _ _ other => Entry.values_setValues_of_ne _ other _
  have written : ∀ (t : Tracked) (now : UInt64),
      (t.store now none).values .history = Entry.distinct t.history.encode :=
    fun _ _ => Entry.values_setValues_self _ _ _
  constructor
  · intro alike
    refine ⟨alike.id, alike.name, fun a other => ?_, history⟩
    rw [← kept u now' other, ← kept t now other, alike.values]
  · intro alike
    refine ⟨alike.id, alike.name, funext fun a => ?_⟩
    by_cases own : a = .history
    · rw [own, written, written, history]
    · rw [kept u now' own, kept t now own, alike.values a own]

theorem Matches.step (h : t.Matches u) {p : Attribute × Change} (user : p.1 ≠ .history)
    (schema : Schema) (stamp : Stamp) :
    (t.step schema stamp p).Matches (u.step schema stamp p) := by
  have slots : ∀ a, a ≠ .history → u.slot a = t.slot a := by
    intro a other
    rw [slot, slot, h.values a other, h.history]
  have after : ∀ a, a ≠ .history → (u.step schema stamp p).slot a = (t.step schema stamp p).slot a := by
    intro a other
    by_cases same : p.1 = a
    · obtain ⟨b, c⟩ := p
      obtain rfl : b = a := same
      rw [slot_step_self, slot_step_self, slots b other, h.history]
    · rw [slot_step_of_ne schema stamp u same, slot_step_of_ne schema stamp t same, slots a other]
  refine ⟨?_, ?_, fun a other => congrArg Slot.held (after a other), ?_⟩
  · rw [Tracked.step, Tracked.step, id_setSlot, id_setSlot, h.id]
  · rw [Tracked.step, Tracked.step, name_setSlot, name_setSlot, h.name]
  · simp only [Tracked.step, setSlot, slots p.1 user, h.history]

theorem Matches.afterRequest (h : t.Matches u) {q : Request}
    (valid : validateAll schema q.modifications = .ok ()) :
    (t.afterRequest schema q).Matches (u.afterRequest schema q) := by
  have fold : ∀ (steps : List (Attribute × Change)) (t u : Tracked), t.Matches u →
      (∀ p ∈ steps, p.1 ≠ .history) →
      (steps.foldl (Tracked.step schema q.stamp) t).Matches
        (steps.foldl (Tracked.step schema q.stamp) u) := by
    intro steps
    induction steps with
    | nil => exact fun _ _ h _ => h
    | cons p rest ih =>
      exact fun t u h users => ih _ _ (h.step (users p (.head _)) schema q.stamp)
        fun p hp => users p (.tail _ hp)
  exact fold _ t u h fun p hp =>
    Attribute.ne_history (user_of_checkTarget (accepts_of_validateAll valid p hp).1)

end Tracked

/-- Stores that match still match when one entry is written to both of them exactly if it is written
alike. -/
theorem Store.Matches.put_store_iff {s s' p p' : Store} {t u : Tracked} {now now' : UInt64}
    (h : s.Matches p) (put : s.put (t.store now none) = .ok s')
    (put' : p.put (u.store now' none) = .ok p') (own : u.entry.id = t.entry.id)
    (history : u.history = t.history) : s'.Matches p' ↔ t.Matches u := by
  rw [h.put_iff put put' own, Tracked.matches_store_iff history]

namespace Replica

/-- A rename to `leaf` drops the same values of the entries, as each of them writes its old name. -/
def DropsAlike (leaf : RelativeName) (deleteOld : Bool) (e f : Entry) : Prop :=
  ∀ a, a ≠ .history → ∀ v ∈ (takeLeaf e leaf).values a,
    ((∀ old ∈ dropped? f.name leaf deleteOld, ¬old.Gives a v) ↔
      ∀ old ∈ dropped? e.name leaf deleteOld, ¬old.Gives a v)

/-- The second replica keeps the subtree of the first one under the same schema, drops no facts, and
holds the same entries. -/
structure IsPeer (r p : Replica) : Prop where
  base : p.base.folded = r.base.folded
  schema : p.schema = r.schema
  unlimited : p.retention = none
  indexed : p.store.IsIndexed
  store : r.store.Matches p.store

/-- The peer applies the update, and holds the same entries as `r'` then. -/
def Reproduces (p : Replica) (now : UInt64) (u : Update) (r' : Replica) : Prop :=
  (∃ tally, (p.replay now u).1 = .ok (.applied tally)) ∧ r'.store.Matches (p.replay now u).2.store

/-- The update tells the peer `p` all that its operation does to `r`: a new entry has an identifier of
its own, and a renamed one was not renamed later and drops the same values in both places. -/
def Conveys (r p : Replica) (u : Update) : Prop :=
  match u.payload with
  | .add .. => r.store.get? u.id = none
  | .rename leaf deleteOld _ _ => ∀ e f h, r.store.get? u.id = some e → p.store.get? u.id = some f →
      History.ofEntry e = .ok h → h.admitsRename u.stamp = true ∧ DropsAlike leaf deleteOld e f
  | _ => True

variable {r r' p p' : Replica} {now : Readings} {t t' : Tracked} {e f : Entry} {u : Update}
variable {name target target' : DistinguishedName} {leaf : RelativeName} {deleteOld : Bool}
variable {superior : Option DistinguishedName} {superiorId parent : Option EntryId}

theorem matches_rename_iff (alike : e.Matches f) (same : target'.folded = target.folded)
    (h : History) (stamp : Stamp) :
    Tracked.Matches ⟨renameEntry e target leaf deleteOld, h.rename stamp⟩
      ⟨renameEntry f target' leaf deleteOld, h.rename stamp⟩ ↔ DropsAlike leaf deleteOld e f := by
  have left : ∀ a, (renameEntry f target' leaf deleteOld).values a =
      ((takeLeaf e leaf).values a).filter fun v =>
        decide (∀ old ∈ dropped? f.name leaf deleteOld, ¬old.Gives a v) := by
    intro a
    rw [values_renameEntry, values_takeLeaf_congr (congrFun alike.values a)]
  constructor
  · intro renamed a other v hv
    have stays : v ∈ (renameEntry f target' leaf deleteOld).values a ↔
        v ∈ (renameEntry e target leaf deleteOld).values a := by
      rw [renamed.values a other]
    rwa [left, values_renameEntry, List.mem_filter, List.mem_filter, and_iff_right hv,
      and_iff_right hv, decide_eq_true_iff, decide_eq_true_iff] at stays
  · intro drops
    refine ⟨?_, ?_, fun a other => ?_, rfl⟩
    · rw [id_renameEntry, id_renameEntry, alike.id]
    · rw [name_renameEntry, name_renameEntry, same]
    · rw [left, values_renameEntry]
      exact List.filter_congr fun v hv => decide_eq_decide.mpr (drops a other v hv)

theorem isFree_of_not_isTaken (indexed : r.store.IsIndexed) (stored : r.store.get? e.id = some e)
    (free : r.isTaken e target = false) : r.IsFree e.id target := by
  intro g found
  rw [isTaken, found, Option.isSome_some, Bool.and_true, Bool.not_eq_false',
    DistinguishedName.same_iff] at free
  obtain ⟨stored', named⟩ := indexed.find?_eq_some_iff.mp found
  rw [indexed.eq_of_folded_eq stored' stored (named.trans free)]

namespace IsPeer

/-- The peer puts a new entry below the entry where the first replica has put it. -/
theorem exists_addedName (peer : r.IsPeer p) (indexed : r.store.IsIndexed)
    (place : r.parentOf name = .ok parent) :
    ∃ name', p.addedName name parent = .ok name' ∧ name'.folded = name.folded := by
  simp only [parentOf] at place
  split at place
  · next top =>
    cases place
    have top : name.same p.base = true := by
      rw [DistinguishedName.same_iff] at top ⊢
      exact top.trans peer.base.symm
    exact ⟨name, by simp [addedName, parentOf, top, Except.map], rfl⟩
  split at place
  · next below =>
    split at place
    · next found =>
      cases place
      obtain ⟨_ | ⟨leaf, above⟩⟩ := name
      · simp [DistinguishedName.isBelow] at below
      obtain ⟨stored, named⟩ := indexed.find?_eq_some_iff.mp found
      obtain ⟨g, stored', alike⟩ := peer.store.exists_get? stored
      refine ⟨g.name.child leaf, ?_, ?_⟩
      · simp [addedName, stored', DistinguishedName.leaf?]
      · exact congrArg (leaf.folded ++ ·) (alike.name.trans named)
    · cases place
  · cases place

/-- The peer moves a renamed entry below the entry that the first replica has moved it below. -/
theorem exists_renameParent? (peer : r.IsPeer p) (indexed : r.store.IsIndexed)
    (above : r.findSuperior superior = .ok superiorId)
    (named : targetName name leaf superior = .ok target) (called : f.name.folded = name.folded) :
    ∃ parent, p.renameParent? f superior superiorId = some parent ∧
      (parent.child leaf).folded = target.folded := by
  obtain ⟨parent, goal, rfl, -⟩ := of_targetName_eq_ok named
  simp only [findSuperior] at above
  split at above
  · cases above
    have up := DistinguishedName.folded_parent?_congr called
    rw [Option.none_or] at goal
    rw [goal] at up
    obtain ⟨parent', goal', same⟩ := Option.map_eq_some_iff.mp up
    refine ⟨parent', ?_, congrArg (leaf.folded ++ ·) same⟩
    simp [renameParent?, goal']
  split at above
  · next found =>
    cases above
    rw [Option.some_or, Option.some_inj] at goal
    obtain ⟨stored, named⟩ := indexed.find?_eq_some_iff.mp found
    obtain ⟨g, stored', alike⟩ := peer.store.exists_get? stored
    refine ⟨g.name, ?_, ?_⟩
    · simp [renameParent?, stored']
    · exact congrArg (leaf.folded ++ ·) (alike.name.trans (goal ▸ named))
  · cases above

theorem isTaken_eq (peer : r.IsPeer p) (indexed : r.store.IsIndexed) (alike : e.Matches f)
    (same : target'.folded = target.folded) : p.isTaken f target' = r.isTaken e target := by
  have found : (p.store.find? target').isSome = (r.store.find? target).isSome := by
    cases found : r.store.find? target with
    | none => rw [peer.store.find?_eq_none indexed peer.indexed same found]
    | some g =>
      obtain ⟨g', found', -⟩ := peer.store.exists_find? indexed peer.indexed same found
      rw [found']
      rfl
  rw [isTaken, isTaken, found, DistinguishedName.same, DistinguishedName.same, same, alike.name]

theorem replay_add_iff (peer : r.IsPeer p) (indexed : r.store.IsIndexed)
    (unlimited : r.retention = none) {attributes : Table Attribute (List Octets)} {id : EntryId}
    {stamp : Stamp} (place : r.parentOf name = .ok parent) (free : r.store.find? name = none)
    (written : (r.tick now.issuing).create now.storing name id attributes stamp = .ok r')
    (now' : UInt64) :
    p.Reproduces now' ⟨stamp, name, id, .add parent attributes⟩ r' ↔ r.store.get? id = none := by
  rw [Reproduces]
  cases stored : r.store.get? id with
  | some e =>
    obtain ⟨f, stored', -⟩ := peer.store.exists_get? stored
    rw [replay_add_of_stored rfl stored']
    simp
  | none =>
    have absent := peer.store.get?_eq_none stored
    obtain ⟨name', named, same⟩ := peer.exists_addedName indexed place
    have free' := peer.store.find?_eq_none indexed peer.indexed same free
    obtain ⟨p', replayed, put⟩ := replay_add_of_free
      (u := ⟨stamp, name, id, .add parent attributes⟩) peer.indexed rfl absent named free' now'
    rw [replayed]
    have put₀ := (of_persist_eq_ok written).1
    rw [show (r.tick now.issuing).retention = none from unlimited] at put₀
    rw [peer.unlimited] at put
    have alike : (⟨newEntry name id attributes, .ofCreation stamp⟩ : Tracked).Matches
        ⟨newEntry name' id attributes, .ofCreation stamp⟩ := by
      have leaf := leaf?_of_addedName named
      refine ⟨?_, ?_, fun a _ => ?_, rfl⟩
      · rw [id_newEntry, id_newEntry]
      · rw [name_newEntry, name_newEntry, same]
      · rw [Entry.values_congr (attributes_newEntry_congr leaf id id attributes)]
    have own : (newEntry name' id attributes).id = (newEntry name id attributes).id := alike.id
    exact iff_of_true ⟨⟨_, rfl⟩, (peer.store.put_store_iff put₀ put own rfl).mpr alike⟩ rfl

theorem replay_request (peer : r.IsPeer p) (indexed : r.store.IsIndexed)
    (unlimited : r.retention = none) {q : Request} (found : r.findTracked name = .ok t)
    (valid : validateAll r.schema q.modifications = .ok ())
    (written : (r.tick now.issuing).persist now.storing (t.afterRequest r.schema q) = .ok r')
    (now' : UInt64) :
    p.Reproduces now' (q.update name t.entry.id) r' := by
  obtain ⟨e, found, read⟩ := of_findTracked_eq_ok found
  obtain rfl := Tracked.entry_of_ofEntry read
  obtain ⟨id, stored⟩ := of_find_eq_ok found
  obtain rfl := indexed.keyed id _ stored
  obtain ⟨f, stored', alike⟩ := peer.store.exists_get? stored
  have own : f.id = t.entry.id := peer.indexed.keyed _ f stored'
  have read' : Tracked.ofEntry f = .ok ⟨f, t.history⟩ := by
    rw [Tracked.ofEntry, alike.ofEntry_eq, Tracked.history_of_ofEntry read]
    rfl
  have held : p.Holds t.entry.id ⟨f, t.history⟩ :=
    ⟨own, stored', peer.indexed.listed _ f stored', read'⟩
  obtain ⟨tally, p', replayed, now₁, clock, f', t', stored₁, read₁, -, written'⟩ :=
    held.replay_update (peer.schema.symm ▸ valid) now' name
  obtain rfl : f = f' := Option.some.inj (stored'.symm.trans stored₁)
  obtain rfl : (⟨f, t.history⟩ : Tracked) = t' := Except.ok.inj (read'.symm.trans read₁)
  rw [Reproduces, replayed]
  refine ⟨⟨tally, rfl⟩, ?_⟩
  have put := (of_persist_eq_ok written).1
  have put' := (of_persist_eq_ok written').1
  rw [show (r.tick now.issuing).retention = none from unlimited] at put
  simp only [peer.unlimited, peer.schema] at put'
  have start : t.Matches ⟨f, t.history⟩ :=
    ⟨own, alike.name, fun a _ => congrFun alike.values a, rfl⟩
  have after := start.afterRequest valid
  exact (peer.store.put_store_iff put put' after.id after.history).mpr after

theorem conveys_rename_iff {id : EntryId} {h : History} {stamp : Stamp}
    (stored : r.store.get? id = some e) (stored' : p.store.get? id = some f)
    (read : History.ofEntry e = .ok h) :
    r.Conveys p ⟨stamp, name, id, .rename leaf deleteOld superior superiorId⟩ ↔
      h.admitsRename stamp = true ∧ DropsAlike leaf deleteOld e f := by
  constructor
  · exact fun conveys => conveys e f h stored stored' read
  · intro both e' f' h' he hf hh
    obtain rfl := Option.some.inj (stored.symm.trans he)
    obtain rfl := Option.some.inj (stored'.symm.trans hf)
    obtain rfl := Except.ok.inj (read.symm.trans hh)
    exact both

theorem replay_rename_iff (peer : r.IsPeer p) (indexed : r.store.IsIndexed)
    (unlimited : r.retention = none) {h : History} {stamp : Stamp}
    (above : r.findSuperior superior = .ok superiorId) (found : r.store.find? name = some e)
    (named : targetName name leaf superior = .ok target) (free : r.isTaken e target = false)
    (read : History.ofEntry e = .ok h)
    (written : (r.tick now.issuing).persist now.storing
      ⟨renameEntry e target leaf deleteOld, h.rename stamp⟩ = .ok r') (now' : UInt64) :
    p.Reproduces now' ⟨stamp, name, e.id, .rename leaf deleteOld superior superiorId⟩ r' ↔
      r.Conveys p ⟨stamp, name, e.id, .rename leaf deleteOld superior superiorId⟩ := by
  obtain ⟨stored, called⟩ := indexed.find?_eq_some_iff.mp found
  obtain ⟨f, stored', alike⟩ := peer.store.exists_get? stored
  have read' : History.ofEntry f = .ok h := alike.ofEntry_eq.trans read
  rw [conveys_rename_iff stored stored' read, Reproduces]
  by_cases admitted : h.admitsRename stamp = true
  swap
  · rw [replay_rename_of_stale rfl stored' read' (Bool.not_eq_true _ ▸ admitted) now']
    refine iff_of_false ?_ fun both => admitted both.1
    rintro ⟨⟨_, applied⟩, -⟩
    cases applied
  obtain ⟨parent, goal, same⟩ :=
    peer.exists_renameParent? indexed above named (alike.name.trans called)
  have untaken : (p.witness stamp).isTaken f (parent.child leaf) = false :=
    (peer.isTaken_eq indexed alike same).trans free
  have own : f.id = e.id := alike.id
  have room : (p.witness stamp).IsFree f.id (parent.child leaf) :=
    isFree_of_not_isTaken (r := p.witness stamp) peer.indexed (own.symm ▸ stored') untaken
  obtain ⟨p', written'⟩ := IsFree.persist_eq_ok (r := p.witness stamp)
    (t := ⟨renameEntry f (parent.child leaf) leaf deleteOld, h.rename stamp⟩)
    ((name_renameEntry ..).symm ▸ room) peer.indexed (id_renameEntry ..) now'
  have replayed : p.replay now' ⟨stamp, name, e.id, .rename leaf deleteOld superior superiorId⟩ =
      (.ok (.applied .zero), p') :=
    replay_rename_of_persist rfl stored' read' admitted goal untaken written'
  have put := (of_persist_eq_ok written).1
  have put' := (of_persist_eq_ok written').1
  rw [show (r.tick now.issuing).retention = none from unlimited] at put
  rw [show (p.witness stamp).retention = none from peer.unlimited] at put'
  have matched := peer.store.put_store_iff put put'
    ((id_renameEntry ..).trans (own.trans (id_renameEntry ..).symm)) rfl
  rw [replayed, matched, matches_rename_iff alike same, and_iff_right admitted]
  exact and_iff_right ⟨_, rfl⟩

theorem replay_delete (peer : r.IsPeer p) (stored : r.store.get? e.id = some e) (stamp : Stamp)
    (name : DistinguishedName) (now' : UInt64) (clock : Clock) :
    p.Reproduces now' ⟨stamp, name, e.id, .delete⟩
      { r with clock, store := r.store.remove e.id } := by
  obtain ⟨f, stored', -⟩ := peer.store.exists_get? stored
  have stored' : (p.witness stamp).store.get? e.id = some f := stored'
  simp only [Reproduces, replay, replayWitnessed, Replica.replayDelete, stored']
  exact ⟨⟨_, rfl⟩, peer.store.remove e.id⟩

end IsPeer

variable {op : Operation} {run : List (Readings × Operation)}

/-- The peer does what the replica has done exactly if the update conveys it. -/
theorem Sends.reproduces_iff (sends : Sends r now op u r') (peer : r.IsPeer p)
    (indexed : r.store.IsIndexed) (unlimited : r.retention = none) (now' : UInt64) :
    p.Reproduces now' u r' ↔ r.Conveys p u := by
  cases sends with
  | add stamped place free written =>
    exact peer.replay_add_iff indexed unlimited place free written now'
  | modify stamped found taken valid written =>
    exact iff_of_true (peer.replay_request indexed unlimited found valid written now') trivial
  | rename stamped above found named free read written =>
    exact peer.replay_rename_iff indexed unlimited above (find?_of_find found) named free read
      written now'
  | delete found =>
    have stored := (indexed.find?_eq_some_iff.mp (find?_of_find found)).1
    exact iff_of_true (peer.replay_delete stored _ _ now' _) trivial

/-- Whatever a replica has been through since its store was empty, a peer that takes in the update of
an operation of a client applies it and holds the same entries again exactly if the update conveys the
operation. -/
theorem reproduces_iff_conveys (empty : r.store = .empty) (unlimited : r.retention = none)
    (peer : (r.performAll run).IsPeer p)
    (sent : ((r.performAll run).answer now op).sent? = some u) (now' : UInt64) :
    p.Reproduces now' u ((r.performAll run).perform now op) ↔ (r.performAll run).Conveys p u := by
  have indexed : (r.performAll run).store.IsIndexed :=
    .performAll (by rw [empty]; exact Store.isIndexed_empty) run
  exact (sends_of_sent sent).reproduces_iff peer indexed
    ((retention_performAll r run).trans unlimited) now'

/-- The peer writes the name of the base in capitals, and the entry below it is new to both. -/
theorem reproduces_iff_conveys_capitals :
    let base : DistinguishedName := ⟨[⟨"o", "test"⟩]⟩
    let capitals : DistinguishedName := ⟨[⟨"o", "TEST"⟩]⟩
    let given : Table Attribute (List Octets) := .ofList [(⟨"o", []⟩, [.ofText "test", .ofText "TEST"])]
    let creation (name : DistinguishedName) : List (Readings × Operation) :=
      [(1, .replay ⟨⟨1, 0, 9⟩, name, .uniform 0, .add none given⟩)]
    let r := (make 1 base ⟨[]⟩ none .empty).performAll (creation base)
    let p := (make 2 base ⟨[]⟩ none .empty).performAll (creation capitals)
    let op : Operation := .add (base.child ⟨"cn", "y"⟩) .empty
    ∃ u, (r.answer 10 op).sent? = some u ∧ p.Reproduces 11 u (r.perform 10 op) := by
  intro base capitals given creation r p op
  let stored (name : DistinguishedName) : Entry :=
    Tracked.store ⟨newEntry name (.uniform 0) given, .ofCreation ⟨1, 0, 9⟩⟩ 1 none
  have put : Store.empty.put (stored base) = .ok r.store := by decide +kernel
  have put' : Store.empty.put (stored capitals) = .ok p.store := by decide +kernel
  have alike : (stored base).Matches (stored capitals) :=
    ⟨by decide +kernel, by decide +kernel, Entry.values_congr (by decide +kernel)⟩
  have peer : r.IsPeer p :=
    ⟨rfl, rfl, rfl, Store.isIndexed_empty.put put',
      ((Store.Matches.refl .empty).put_iff put put' alike.id).mpr alike⟩
  let name : DistinguishedName := base.child ⟨"cn", "y"⟩
  let u : Update :=
    ⟨⟨10, 0, 1⟩, name, .generate name ⟨10, 0, 1⟩, .add (some (.uniform 0)) .empty⟩
  obtain ⟨sent, fresh⟩ : (r.answer 10 op).sent? = some u ∧ r.store.get? u.id = none := by
    decide +kernel
  exact ⟨u, sent, (reproduces_iff_conveys rfl rfl peer sent 11).mpr fresh⟩

/-- A message has taken the identifier of the entry that is created next. -/
theorem reproduces_sent_taken : ¬∀ (r p : Replica) (run : List (Readings × Operation))
    (now : Readings) (now' : UInt64) (op : Operation) (u : Update), r.store = .empty →
    r.retention = none →
    (∀ p ∈ run, ∀ a ∈ p.2.modified, a.IsPlain) → (∀ a ∈ op.modified, a.IsPlain) →
    (∀ before, before <+: run → ¬(r.performAll before).clock.IsExhausted) →
    (r.performAll run).IsPeer p → ((r.performAll run).answer now op).sent? = some u →
    p.Reproduces now' u ((r.performAll run).perform now op) := by
  intro reproduces
  let base : DistinguishedName := ⟨[⟨"o", "test"⟩]⟩
  let name : DistinguishedName := base.child ⟨"cn", "y"⟩
  let id : EntryId := .generate name ⟨10, 0, 1⟩
  let run : List (Readings × Operation) :=
    [(1, .replay ⟨⟨1, 0, 9⟩, base, .uniform 0, .add none .empty⟩),
      (2, .replay ⟨⟨2, 0, 9⟩, base.child ⟨"cn", "x"⟩, id, .add (some (.uniform 0)) .empty⟩)]
  let fresh (id : UInt16) : Replica := make id base ⟨[]⟩ none .empty
  let u : Update := ⟨⟨10, 0, 1⟩, name, id, .add (some (.uniform 0)) .empty⟩
  obtain ⟨going, base', schema, unlimited, same, sent, ignored⟩ :
      (∀ before ∈ run.inits, ¬((fresh 1).performAll before).clock.IsExhausted) ∧
      ((fresh 2).performAll run).base = ((fresh 1).performAll run).base ∧
      ((fresh 2).performAll run).schema = ((fresh 1).performAll run).schema ∧
      ((fresh 2).performAll run).retention = none ∧
      ((fresh 1).performAll run).store = ((fresh 2).performAll run).store ∧
      (((fresh 1).performAll run).answer 10 (.add name .empty)).sent? = some u ∧
      (((fresh 2).performAll run).replay 11 u).1 = .ok (.ignored .duplicate) := by
    decide +kernel
  have peer : ((fresh 1).performAll run).IsPeer ((fresh 2).performAll run) :=
    ⟨congrArg _ base', schema, unlimited, .performAll Store.isIndexed_empty run, same ▸ .refl _⟩
  obtain ⟨⟨tally, applied⟩, -⟩ := reproduces (fresh 1) ((fresh 2).performAll run) run 10 11
    (.add name .empty) u rfl rfl (by decide) (by decide)
    (fun before prefixed => going before ((List.mem_inits _ _).mpr prefixed)) peer sent
  cases ignored.symm.trans applied

end Replica

end DirectoryHistory
