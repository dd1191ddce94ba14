import DirectoryHistory.Proofs.Replica.Freshness
import DirectoryHistory.Proofs.Replica.Runs
import DirectoryHistory.Proofs.Topology

/-!
# Entries that carry their names

A new entry gets the value of its name, and a renamed one that of its new name in place of the old one.
Requests may take it away: nothing keeps the naming attribute out of them. So a request of a client
leaves an entry without its name exactly if it leaves no spelling of the name among the values of that
attribute, and no other operation of a client does.
-/

namespace DirectoryHistory

/-- Among the values of its naming attribute the entry holds a spelling of the value in its name. -/
def Entry.CarriesName (e : Entry) : Prop :=
  ∀ leaf ∈ e.name.leaf?, ∃ v ∈ e.values (.make leaf.attr), leaf.Gives (.make leaf.attr) v

/-- What a request that is newer than all before leaves of an attribute. Of many values its
modifications leave what they make of them. A single value stays as it is if no change is about the
attribute. Otherwise it stays if it has no record even then and no change resets the attribute, and gives
way to the value that was added first if not. -/
def Request.Leaves (schema : Schema) (q : Request) (t : Tracked) (a : Attribute) (v : Octets) : Prop :=
  match schema.isSingle a, (q.edit a).changes with
  | false, _ => v ∈ q.execute a (t.entry.values a).toFinset
  | true, [] => v ∈ t.entry.values a
  | true, c :: _ => v ∈ Slot.heirs ((t.entry.values a).find? fun v =>
      (((t.history.timeline a).merge q.stamp c).mark? v).isNone) q.stamp
        ((t.history.timeline a).mergeEdit (q.edit a))

theorem Request.leaves_iff_of_multi {schema : Schema} {a : Attribute}
    (multi : schema.isSingle a = false) (q : Request) (t : Tracked) (v : Octets) :
    q.Leaves schema t a v ↔ v ∈ q.execute a (t.entry.values a).toFinset := by
  rw [Leaves, multi]

theorem Tracked.mem_values_afterRequest_iff {schema : Schema} {q : Request} {t : Tracked}
    {a : Attribute} {v : Octets} (ordered : t.history.IsOrdered)
    (older : t.history.Within (· < q.stamp)) :
    v ∈ (t.afterRequest schema q).entry.values a ↔ q.Leaves schema t a v := by
  have bounds := older.timelines a
  have older' : (t.slot a).timeline.IsOlder (q.edit a).stamp := ⟨bounds.marks, bounds.reset⟩
  have slot := congrArg Slot.held (slot_afterRequest schema q t a)
  have held : v ∈ (t.afterRequest schema q).entry.values a ↔
      v ∈ ((t.slot a).resolveEdit (schema.isSingle a) t.history.created (q.edit a)).held := by
    rw [← slot]
    rfl
  rw [held, Request.Leaves]
  split
  · next single =>
    rw [single, Slot.mem_held_resolveEdit (ordered a) older' older.created, ← Request.foldl_perform_edit,
      Edit.mem_foldl_perform, List.mem_toFinset]
    rfl
  · next single silent =>
    rw [Slot.resolveEdit, silent]
    rfl
  · next c cs single changes =>
    rw [single, Slot.held_resolveEdit_single changes (ordered a) older' older.created]
    rfl

namespace Replica

/-- Every stored entry carries its name. -/
def IsNamed (r : Replica) : Prop :=
  ∀ id e, r.store.get? id = some e → e.CarriesName

/-- The update tells of a request that leaves its entry without a spelling of its name. -/
def Unnames (r : Replica) (u : Update) : Prop :=
  ∃ q e t leaf, u.request? = some q ∧ r.store.get? u.id = some e ∧ Tracked.ofEntry e = .ok t ∧
    e.name.leaf? = some leaf ∧
    ∀ v, q.Leaves r.schema t (.make leaf.attr) v → ¬leaf.Gives (.make leaf.attr) v

/-- The component that an operation names an entry by. -/
def Operation.leaf? : Operation → Option RelativeName
  | .add name _ => name.leaf?
  | .rename _ leaf _ _ => some leaf
  | _ => none

/-- The component stands as it does in a name that is made from text, and does not speak of the
attribute that carries history. -/
def IsProper (leaf : RelativeName) : Prop :=
  leaf.IsTidy ∧ (Attribute.make leaf.attr).isHistory = false

instance : DecidablePred IsProper := fun _ =>
  inferInstanceAs (Decidable (_ ∧ _))

/-- Every stored entry is called by a proper component. -/
def IsProperlyNamed (r : Replica) : Prop :=
  ∀ id e, r.store.get? id = some e → ∀ leaf ∈ e.name.leaf?, IsProper leaf

variable {r r' : Replica} {now : Readings} {op : Operation} {u : Update} {t : Tracked} {e : Entry}
variable {run : List (Readings × Operation)} {leaf : RelativeName}

theorem IsProperlyNamed.perform (proper : r.IsProperlyNamed) (client : op.isOfClient = true)
    (named : ∀ leaf ∈ op.leaf?, IsProper leaf) (now : Readings) :
    (r.perform now op).IsProperlyNamed := by
  intro id e stored
  rcases get?_perform stored with before | ⟨t, writes, -, rfl⟩
  · exact proper id e before
  rw [Tracked.name_store]
  cases writes with
  | add ticked =>
    rw [name_newEntry]
    exact named
  | modify found taken =>
    obtain ⟨e, found, read⟩ := of_findTracked_eq_ok found
    obtain ⟨k, before⟩ := of_find_eq_ok found
    obtain ⟨-, n, rfl⟩ := Tracked.exists_take_of_applyRequest taken
    rw [Tracked.name_foldl_step, Tracked.entry_of_ofEntry read]
    exact proper k e before
  | rename found target read =>
    rw [name_renameEntry, leaf?_of_targetName target]
    exact named
  | replayAdd | replayModify | replayRename => cases client

theorem isProperlyNamed_performAll (empty : r.store = .empty)
    (clients : ∀ p ∈ run, p.2.isOfClient = true) (named : ∀ p ∈ run, ∀ leaf ∈ p.2.leaf?, IsProper leaf) :
    (r.performAll run).IsProperlyNamed := by
  induction run using List.reverseRecOn with
  | nil =>
    intro id e stored
    rw [performAll, List.foldl_nil, empty] at stored
    cases stored
  | append_singleton run p ih =>
    rw [performAll_snoc]
    have before := ih (fun q hq => clients q (List.mem_append_left _ hq))
      fun q hq => named q (List.mem_append_left _ hq)
    exact before.perform (clients p (by simp)) (named p (by simp)) p.1

theorem isNamed_of_empty (empty : r.store = .empty) : r.IsNamed := by
  intro id e stored
  rw [empty] at stored
  cases stored

theorem IsNamed.persist_iff {now : UInt64} (named : r.IsNamed) {clock : Clock}
    (written : ({ r with clock } : Replica).persist now t = .ok r')
    (user : ∀ leaf ∈ t.entry.name.leaf?, (Attribute.make leaf.attr).isHistory = false) :
    r'.IsNamed ↔ t.entry.CarriesName := by
  rw [IsNamed, forall_stored_iff_of_persist named written]
  refine forall₂_congr fun leaf called => ?_
  rw [Tracked.values_store (user leaf called)]

theorem carriesName_newEntry (name : DistinguishedName) (id : EntryId)
    (attributes : Table Attribute (List Octets))
    (user : ∀ leaf ∈ name.leaf?, (Attribute.make leaf.attr).isHistory = false) :
    (newEntry name id attributes).CarriesName := by
  intro leaf called
  rw [name_newEntry] at called
  have written : leaf.Writes (.make leaf.attr) (.ofText leaf.value) := ⟨rfl, rfl⟩
  exact ⟨_, (mem_values_newEntry (user leaf called)).mpr (.inr ⟨leaf, called, written⟩), written.gives⟩

/-- The value of the new leaf is there in some case, and it is not dropped. -/
theorem carriesName_renameEntry {target : DistinguishedName} (called : target.leaf? = some leaf)
    (tidy : leaf.IsTidy) (tidy' : ∀ old ∈ e.name.leaf?, old.IsTidy) (deleteOld : Bool) :
    (renameEntry e target leaf deleteOld).CarriesName := by
  intro leaf' called'
  rw [name_renameEntry, called] at called'
  obtain rfl := Option.some.inj called'
  by_cases held : ∃ w ∈ e.values (.make leaf.attr), leaf.Gives (.make leaf.attr) w
  · obtain ⟨w, hw, given⟩ := held
    have stays := not_gives_dropped tidy tidy' deleteOld given
    exact ⟨w, mem_values_renameEntry.mpr ⟨.inl hw, stays⟩, given⟩
  · have written : leaf.Writes (.make leaf.attr) (.ofText leaf.value) := ⟨rfl, rfl⟩
    have stays := not_gives_dropped tidy tidy' deleteOld written.gives
    refine ⟨_, mem_values_renameEntry.mpr ⟨.inr ⟨written, ?_⟩, stays⟩, written.gives⟩
    exact fun w hw given => held ⟨w, hw, given⟩

/-- A request keeps the name of its entry exactly if it leaves a spelling of it. -/
theorem Sends.isNamed_modify_iff {name : DistinguishedName} {mods : List Modification}
    {abandon : Nat → Bool} (sends : Sends r now (.modify name mods abandon) u r') (named : r.IsNamed)
    (proper : r.IsProperlyNamed) (indexed : r.store.IsIndexed) (covered : r.IsCovered)
    (going : ¬r.clock.IsExhausted) : r'.IsNamed ↔ ¬Unnames r u := by
  cases sends with
  | @modify _ _ _ q t ending tally _ stamped found taken valid written =>
  obtain ⟨e, found', read⟩ := of_findTracked_eq_ok found
  obtain ⟨id, stored⟩ := of_find_eq_ok found'
  have entry := Tracked.entry_of_ofEntry read
  have called : (t.afterRequest r.schema q).entry.name = e.name :=
    (Tracked.name_foldl_step _ t).trans (congrArg Entry.name entry)
  have own : r.store.get? t.entry.id = some e := by
    rw [entry, indexed.keyed id e stored]
    exact stored
  obtain ⟨ordered, -⟩ := covered.within stored (Tracked.history_of_ofEntry read)
  have older := covered.isOlder going now stored (Tracked.history_of_ofEntry read)
  have leaves : ∀ a v, v ∈ (t.afterRequest r.schema q).entry.values a ↔ q.Leaves r.schema t a v :=
    fun a v => Tracked.mem_values_afterRequest_iff ordered (stamped ▸ older)
  rw [named.persist_iff written (by
    rw [called]
    exact fun leaf hl => (proper id e stored leaf hl).2)]
  simp only [Entry.CarriesName, called, leaves]
  constructor
  · rintro carries ⟨q', e', t', leaf, request, stored', read', hl, unspelled⟩
    obtain rfl : q = q' := Option.some.inj request
    obtain rfl := Option.some.inj (own.symm.trans stored')
    obtain rfl := Except.ok.inj (read.symm.trans read')
    obtain ⟨v, left, given⟩ := carries leaf hl
    exact unspelled v left given
  · intro keeps leaf hl
    by_contra none
    exact keeps ⟨q, e, t, leaf, rfl, own, read, hl, fun v left given => none ⟨v, left, given⟩⟩

/-- An operation of a client keeps the names exactly if it is no request that takes one away. -/
theorem Sends.isNamed_iff (sends : Sends r now op u r') (named : r.IsNamed)
    (proper : r.IsProperlyNamed) (indexed : r.store.IsIndexed) (covered : r.IsCovered)
    (going : ¬r.clock.IsExhausted) (tidy : ∀ leaf ∈ op.leaf?, IsProper leaf) :
    r'.IsNamed ↔ ¬Unnames r u := by
  have silent : ∀ {u : Update}, u.request? = none → ¬Unnames r u := by
    rintro u none ⟨q, -, -, -, request, -⟩
    cases none.symm.trans request
  cases sends with
  | add stamped place free written =>
    refine iff_of_true ?_ (silent rfl)
    refine (named.persist_iff written ?_).mpr (carriesName_newEntry _ _ _ fun leaf hl => (tidy leaf hl).2)
    rw [name_newEntry]
    exact fun leaf hl => (tidy leaf hl).2
  | modify stamped found taken valid written =>
    exact (Sends.modify stamped found taken valid written).isNamed_modify_iff named proper indexed
      covered going
  | @rename name target leaf deleteOld superior superiorId e h stamp r' stamped above found target' free
      read written =>
    obtain ⟨id, stored⟩ := of_find_eq_ok found
    have called := leaf?_of_targetName target'
    refine iff_of_true ?_ (silent rfl)
    refine (named.persist_iff written ?_).mpr (carriesName_renameEntry called (tidy leaf rfl).1
      (fun old hold => (proper id e stored old hold).1) deleteOld)
    rw [name_renameEntry, called]
    exact fun leaf' hl => Option.some.inj hl ▸ (tidy leaf rfl).2
  | @delete name e found =>
    refine iff_of_true (fun id f hf => named id f ?_) (silent rfl)
    rw [Store.get?_remove] at hf
    split at hf
    · cases hf
    · exact hf

/-- Along a run of clients from an empty store, all entries carry their names if and only if every
request leaves a spelling of the name of its entry. -/
theorem isNamed_along_iff (empty : r.store = .empty) (clients : ∀ p ∈ run, p.2.isOfClient = true)
    (tidy : ∀ p ∈ run, ∀ leaf ∈ p.2.leaf?, IsProper leaf)
    (plain : ∀ p ∈ run, ∀ a ∈ p.2.modified, a.IsPlain)
    (going : ∀ before, before <+: run → ¬(r.performAll before).clock.IsExhausted) :
    (∀ before, before <+: run → (r.performAll before).IsNamed) ↔
      ∀ before now op u, before ++ [(now, op)] <+: run →
        ((r.performAll before).answer now op).sent? = some u →
        ¬Unnames (r.performAll before) u := by
  have indexed : r.store.IsIndexed := empty ▸ Store.isIndexed_empty
  refine forall_prefix_iff_of_client (fun r _ _ u => ¬Unnames r u) clients
    (isNamed_of_empty empty) (fun r r' store _ _ named id e stored => named id e (store ▸ stored)) ?_
  intro before now op u within named sends
  have first : before <+: run := (List.prefix_append _ _).trans within
  have covered : (r.performAll before).IsCovered :=
    (isCovered_of_empty empty).performAll (fun p hp => plain p (first.subset hp))
      fun l hl => going l (hl.trans first)
  have proper : (r.performAll before).IsProperlyNamed :=
    isProperlyNamed_performAll empty (fun p hp => clients p (first.subset hp))
      fun p hp => tidy p (first.subset hp)
  exact sends.isNamed_iff named proper (indexed.performAll before) covered (going before first)
    (tidy (now, op) (within.subset (by simp)))

/-- The value of the name is replaced by itself in capitals, which keeps the name, and then deleted. -/
theorem isNamed_along_iff_deleted :
    let base : DistinguishedName := ⟨[⟨"o", "test"⟩]⟩
    let o : Attribute := ⟨"o", []⟩
    let capitals := Octets.ofText "TEST"
    let run : List (Readings × Operation) :=
      [(10, .add base .empty), (20, .modify base [⟨o, .replace, [capitals]⟩] fun _ => false)]
    let op : Operation := .modify base [⟨o, .delete, [capitals]⟩] fun _ => false
    ¬∀ before, before <+: run ++ [(30, op)] →
      ((make 1 base ⟨["uid"]⟩ none .empty).performAll before).IsNamed := by
  intro base o capitals run op named
  let start := make 1 base ⟨["uid"]⟩ none .empty
  let r := start.performAll run
  let id : EntryId := .generate base ⟨10, 0, 1⟩
  let q : Request := ⟨⟨30, 0, 1⟩, [⟨o, .delete, [capitals]⟩]⟩
  obtain ⟨going, sent, held⟩ :
      (∀ before ∈ (run ++ [(30, op)]).inits, ¬(start.performAll before).clock.IsExhausted) ∧
      (r.answer 30 op).sent? = some (q.update base id) ∧
      (r.store.get? id).bind (fun e => (Tracked.ofEntry e).toOption.map fun t =>
        (e.name, t.entry.values o)) = some (base, [capitals]) := by decide +kernel
  obtain ⟨e, stored, looks⟩ := Option.bind_eq_some_iff.mp held
  cases read : Tracked.ofEntry e with
  | error cause => simp [read, Except.toOption] at looks
  | ok t =>
    simp only [read, Except.toOption, Option.map_some, Option.some.injEq, Prod.mk.injEq] at looks
    obtain ⟨called, values⟩ := looks
    refine (isNamed_along_iff rfl (by decide) (by decide) (by decide) fun before within =>
      going before ((List.mem_inits _ _).mpr within)).mp named run 30 op _ List.prefix_rfl sent
        ⟨q, e, t, ⟨"o", "test"⟩, rfl, stored, read, by rw [called]; rfl, fun v left => ?_⟩
    rw [schema_performAll] at left
    have spelled := (Request.leaves_iff_of_multi (a := o) (by decide) q t v).mp left
    rw [values] at spelled
    revert spelled
    have gone : ∀ v ∈ q.execute o [capitals].toFinset, ¬RelativeName.Gives ⟨"o", "test"⟩ o v := by
      decide
    exact gone v

/-- A request may delete the value of the name. -/
theorem carriesName_of_performAll_deleted : ¬∀ (r : Replica) (run : List (Readings × Operation))
    (id : EntryId) (e : Entry), r.store = .empty → (∀ p ∈ run, p.2.isOfClient = true) →
    (∀ before now op, before ++ [(now, op)] <+: run →
      ((r.performAll before).answer now op).sent?.isSome = true) →
    (r.performAll run).store.get? id = some e → e.CarriesName := by
  intro named
  let base : DistinguishedName := ⟨[⟨"o", "test"⟩]⟩
  let run : List (Readings × Operation) := [(10, .add base .empty),
    (20, .modify base [⟨⟨"o", []⟩, .delete, [Octets.ofText "test"]⟩] fun _ => false)]
  let r := make 1 base ⟨["uid"]⟩ none .empty
  obtain ⟨done, held⟩ : (∀ i : Fin run.length,
      ((r.performAll (run.take i)).answer run[i].1 run[i].2).sent?.isSome = true) ∧
      ((r.performAll run).store.find? base).map (fun e => (e.name, e.values ⟨"o", []⟩)) =
        some (base, []) := by decide +kernel
  obtain ⟨e, found, looks⟩ := Option.map_eq_some_iff.mp held
  obtain ⟨called, values⟩ := Prod.mk.inj looks
  obtain ⟨id, stored⟩ := Store.get?_of_find? found
  have sent := forall_prefix_snoc_iff
    (F := fun before now op => ((r.performAll before).answer now op).sent?.isSome = true) |>.mpr done
  obtain ⟨v, left, -⟩ := named r run id e rfl (by decide) sent stored ⟨"o", "test"⟩
    (by rw [called]; rfl)
  have left : v ∈ e.values ⟨"o", []⟩ := left
  rw [values] at left
  cases left

end Replica

end DirectoryHistory
