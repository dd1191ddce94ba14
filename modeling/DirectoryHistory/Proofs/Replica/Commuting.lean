import DirectoryHistory.Proofs.Replica.Moving
import DirectoryHistory.Proofs.Slot.Exchange

/-!
# A request and a rename in both orders

A replica that takes in a modify request and a rename of an entry, both newer than all that is told
of it, ends with the same name and the same history in both orders. The values are the same too,
except for attributes that the names are about: there the request has to let the rename be.
-/

namespace DirectoryHistory

def History.IsOlder (h : History) (s : Stamp) : Prop :=
  ∀ f ∈ h.facts, f.stamp < s

instance (h : History) (s : Stamp) : Decidable (h.IsOlder s) :=
  inferInstanceAs (Decidable (∀ _ ∈ _, _))

namespace History

variable {h : History} {s : Stamp}

theorem IsOlder.created (older : h.IsOlder s) : ∀ c ∈ h.created, c < s := fun c hc =>
  older (.created c) (mem_facts.mpr (.inl ⟨c, hc, rfl⟩))

theorem IsOlder.admitsRename (older : h.IsOlder s) : h.admitsRename s = true :=
  admitsRename_iff.mpr fun r hr =>
    older (.renamed r) (mem_facts.mpr (.inr (.inr ⟨r, hr, rfl⟩)))

theorem IsOlder.timeline (older : h.IsOlder s) (ordered : h.IsOrdered) (a : Attribute) :
    (h.timeline a).IsOlder s := by
  have told : ∀ f ∈ timelineFacts a (h.timeline a), f.stamp < s := fun f hf =>
    older f (mem_facts.mpr (.inr (.inl ⟨a, hf⟩)))
  have marks : ∀ v, ∀ m ∈ (h.timeline a).mark? v, m.stamp < s := fun v m hm =>
    told (.about a m.stamp (markKind (h.timeline a) m) (some v))
      ((mem_timelineFacts (ordered a)).mpr (.inr ⟨v, m, hm, rfl⟩))
  refine ⟨marks, fun r hr => ?_⟩
  cases bare : (h.timeline a).bareReset? with
  | some r' =>
    obtain rfl : r' = r := Option.some.inj ((Option.filter_eq_some_iff.mp bare).1.symm.trans hr)
    exact told (.about a r' .deleteAttribute none)
      ((mem_timelineFacts (ordered a)).mpr (.inl ⟨r', bare, rfl⟩))
  | none =>
    -- The reset is told of by a value that was added with it.
    have carried := Option.filter_eq_none_iff.mp bare r hr
    simp only [Bool.not_eq_true', Bool.not_eq_false, List.any_eq_true, Bool.and_eq_true,
      beq_iff_eq] at carried
    obtain ⟨m, hm, rfl, -⟩ := carried
    exact marks m.value m ((ordered a).mark?_eq_some_iff.mpr ⟨hm, rfl⟩)

end History

namespace Tracked

variable {goal : Move → Option DistinguishedName} {schema : Schema} {q : Request} {m : Move}
variable {t : Tracked} {a : Attribute} {parent : DistinguishedName}

/-- It makes no difference to the values of `a` if the request or the rename comes first. -/
def Commutes (goal : Move → Option DistinguishedName) (schema : Schema) (q : Request) (m : Move)
    (t : Tracked) (a : Attribute) : Prop :=
  let dropped := Replica.dropped? t.entry.name m.leaf m.deleteOld
  let edited := (t.afterRequest schema q).entry.values a
  let last := ((t.move goal m).afterRequest schema q).entry.values a
  if schema.isSingle a = true then (q.edit a).changes = [] ∨ SparesHolder m.leaf dropped a edited last
  else (q.edit a).Spares m.leaf dropped a (t.entry.values a) edited

theorem created_move (goal : Move → Option DistinguishedName) (m : Move) (t : Tracked) :
    (t.move goal m).history.created = t.history.created := by
  simp only [move]
  split
  · split
    · exact History.created_rename _ _
    · rfl
  · rfl

theorem isSound_move (sound : t.history.IsSound) (goal : Move → Option DistinguishedName)
    (m : Move) : (t.move goal m).history.IsSound where
  ordered a := by
    rw [timeline_move]
    exact sound.ordered a
  readable a := by
    rw [timeline_move]
    exact sound.readable a
  targeted a := by
    rw [timeline_move]
    exact sound.targeted a

theorem slot_move_of_untouched (goal : Move → Option DistinguishedName)
    (other : a ≠ .make m.leaf.attr)
    (others : ∀ old ∈ Replica.dropped? t.entry.name m.leaf m.deleteOld, a ≠ .make old.attr) :
    (t.move goal m).slot a = t.slot a := by
  simp only [move]
  split
  · split
    · exact (t.isRenamed_slot _ _ _ _ a).eq_of_untouched other others
    · rfl
  · rfl

theorem slot_afterRequest_move (goal : Move → Option DistinguishedName) (schema : Schema)
    (q : Request) (m : Move) (t : Tracked) (a : Attribute) :
    ((t.move goal m).afterRequest schema q).slot a =
      ((t.move goal m).slot a).resolveEdit (schema.isSingle a) t.history.created (q.edit a) := by
  rw [slot_afterRequest, created_move]

theorem move_eq_rename (admitted : t.history.admitsRename m.stamp = true)
    (leads : (goal m).or t.entry.name.parent? = some parent) :
    t.move goal m = t.rename (parent.child m.leaf) m.leaf m.deleteOld m.stamp := by
  simp only [move, if_pos admitted, leads]

/-- A request does not keep an entry from being renamed. -/
theorem move_afterRequest (schema : Schema) (q : Request)
    (admitted : t.history.admitsRename m.stamp = true)
    (leads : (goal m).or t.entry.name.parent? = some parent) :
    (t.afterRequest schema q).move goal m =
      (t.afterRequest schema q).rename (parent.child m.leaf) m.leaf m.deleteOld m.stamp := by
  refine move_eq_rename ?_ ?_
  · rwa [History.admitsRename, afterRequest, renamed_foldl_step]
  · rwa [afterRequest, name_foldl_step]

theorem name_move_afterRequest (schema : Schema) (q : Request)
    (admitted : t.history.admitsRename m.stamp = true)
    (leads : (goal m).or t.entry.name.parent? = some parent) :
    ((t.afterRequest schema q).move goal m).entry.name =
      ((t.move goal m).afterRequest schema q).entry.name := by
  rw [move_afterRequest schema q admitted leads, move_eq_rename admitted leads]
  simp only [afterRequest, name_foldl_step]
  exact (Replica.name_renameEntry ..).trans (Replica.name_renameEntry ..).symm

theorem agrees_move_afterRequest (schema : Schema)
    (newer : ∀ c ∈ t.history.created, c < q.stamp)
    (admitted : t.history.admitsRename m.stamp = true)
    (leads : (goal m).or t.entry.name.parent? = some parent) :
    ((t.afterRequest schema q).move goal m).history.Agrees
      ((t.move goal m).afterRequest schema q).history where
  timelines a := by
    have newer : ∀ c ∈ t.history.created, c < (q.edit a).stamp := newer
    have first := congrArg Slot.timeline (slot_afterRequest schema q t a)
    have last := congrArg Slot.timeline (slot_afterRequest_move goal schema q m t a)
    rw [Slot.timeline_resolveEdit newer, timeline_slot, timeline_slot] at first last
    rw [timeline_move, first, last, timeline_move]
  created := by
    rw [created_move, afterRequest, afterRequest, created_foldl_step, created_foldl_step,
      created_move]
  renamed := by
    rw [move_afterRequest schema q admitted leads, move_eq_rename admitted leads]
    simp only [afterRequest, rename, renamed_foldl_step, History.renamed_rename]

/-- An attribute that does not get the value of the leaf keeps the order of its other values. -/
theorem held_slot_rename (name : DistinguishedName) (leaf : RelativeName) (deleteOld : Bool)
    (s : Stamp) (other : a ≠ .make leaf.attr) :
    ((t.rename name leaf deleteOld s).slot a).held = (t.slot a).held.filter fun v =>
      decide (∀ old ∈ Replica.dropped? t.entry.name leaf deleteOld, ¬old.Gives a v) := by
  rw [slot, rename, Replica.values_renameEntry, Replica.values_takeLeaf_of_ne other]
  rfl

/-- The two orders leave the same values of `a` if and only if the request lets the rename be. -/
theorem mem_values_iff_commutes (schema : Schema) (older : t.history.IsOlder q.stamp)
    (older' : t.history.IsOlder m.stamp) (ordered : t.history.IsOrdered) (tidy : m.leaf.IsTidy)
    (tidy' : ∀ old ∈ t.entry.name.leaf?, old.IsTidy)
    (leads : (goal m).or t.entry.name.parent? = some parent) (a : Attribute) :
    (∀ v, v ∈ ((t.afterRequest schema q).move goal m).entry.values a ↔
      v ∈ ((t.move goal m).afterRequest schema q).entry.values a) ↔ t.Commutes goal schema q m a := by
  let target := parent.child m.leaf
  have before := t.isRenamed_slot target m.leaf m.deleteOld m.stamp a
  have after := (t.afterRequest schema q).isRenamed_slot target m.leaf m.deleteOld m.stamp a
  rw [slot_afterRequest, afterRequest, name_foldl_step, ← afterRequest] at after
  have edited : (t.afterRequest schema q).entry.values a = _ :=
    congrArg Slot.held (slot_afterRequest schema q t a)
  have last : ((t.move goal m).afterRequest schema q).entry.values a = _ :=
    congrArg Slot.held (slot_afterRequest_move goal schema q m t a)
  have apart := fun v => Replica.not_gives_dropped (a := a) (v := v) tidy tidy' m.deleteOld
  have admitted := older'.admitsRename
  rw [Commutes, edited, last, move_eq_rename admitted leads, move_afterRequest schema q admitted leads]
  cases single : schema.isSingle a with
  | false =>
    rw [single] at after
    rw [if_neg Bool.false_ne_true]
    exact before.mem_held_iff_of_multi after apart (ordered a) (older.timeline ordered a) older.created
  | true =>
    rw [single] at after
    rw [if_pos rfl]
    by_cases silent : (q.edit a).changes = []
    · have still : ∀ s : Slot, s.resolveEdit true t.history.created (q.edit a) = s := by
        intro s
        rw [Slot.resolveEdit, silent]
        rfl
      rw [still] at after
      rw [still]
      refine iff_of_true (fun v => ?_) (.inl silent)
      exact (after.mem_held_iff v).trans (before.mem_held_iff v).symm
    · rw [or_iff_right silent]
      exact before.mem_held_iff_of_single after (held_slot_rename target m.leaf m.deleteOld m.stamp)
        apart silent (ordered a) (older.timeline ordered a) older.created

theorem commutes_of_apart (goal : Move → Option DistinguishedName) (schema : Schema) (t : Tracked)
    (alone : (q.edit a).changes = [] ∨ a ≠ .make m.leaf.attr ∧
      ∀ old ∈ Replica.dropped? t.entry.name m.leaf m.deleteOld, a ≠ .make old.attr) :
    t.Commutes goal schema q m a := by
  have edited : (t.afterRequest schema q).entry.values a = _ :=
    congrArg Slot.held (slot_afterRequest schema q t a)
  have last : ((t.move goal m).afterRequest schema q).entry.values a = _ :=
    congrArg Slot.held (slot_afterRequest_move goal schema q m t a)
  rw [Commutes, edited, last]
  obtain silent | ⟨other, others⟩ := alone
  · have unspoken : ∀ v, (q.edit a).outcome v = none := fun v => by
      rw [Edit.outcome, silent, Edit.outcomeOf_nil]
    split
    · exact .inl silent
    · refine ⟨fun v added => ?_, fun v _ deleted => ?_, fun v _ _ => ?_⟩
      · cases (unspoken v).symm.trans added
      · cases (unspoken v).symm.trans deleted
      · rw [Slot.resolveEdit, silent]
        rfl
  · have spared : ∀ v, ∀ old ∈ Replica.dropped? t.entry.name m.leaf m.deleteOld, ¬old.Gives a v :=
      fun v old drops given => others old drops given.1
    rw [slot_move_of_untouched goal other others]
    split
    · exact .inr ⟨fun named => absurd named other, fun _ w hw => ⟨hw, spared w⟩⟩
    · exact ⟨fun v _ => spared v, fun v written => absurd written.1 other,
        fun v written => absurd written.1 other⟩

end Tracked

namespace Replica

variable {r r' : Replica} {id : EntryId} {t : Tracked} {q : Request} {m : Move}
variable {parent : DistinguishedName}

theorem Holds.performAll_request_move (held : r.Holds id t) (indexed : r.store.IsIndexed)
    (unlimited : r.retention = none) (sound : t.history.IsSound) (valid : q.IsSound r.schema)
    (outside : m.superiorId ≠ some id)
    (leads : (r.goal? m).or t.entry.name.parent? = some parent)
    (free : r.IsFree id (parent.child m.leaf)) (name : DistinguishedName) (n n' : Readings) :
    ∃ x, (r.performAll [(n, .replay (q.update name id)), (n', .replay (m.update id))]).Holds id x ∧
      x.Agrees ((t.afterRequest r.schema q).move r.goal? m) := by
  obtain ⟨tally, r₁, replayed, takes⟩ := held.replay_update valid.valid n.storing name
  obtain ⟨alters, t₁, held₁, agrees₁⟩ := held.of_takes unlimited sound valid takes
  have sound₁ := (Tracked.isSound_afterRequest sound valid).of_agrees agrees₁.history
  have goal₁ : r₁.goal? m = r.goal? m := alters.goal?_eq outside
  have called₁ : t₁.entry.name = t.entry.name :=
    agrees₁.name.trans (Tracked.name_foldl_step _ t)
  have free₁ : ∀ parent', (r₁.goal? m).or t₁.entry.name.parent? = some parent' →
      r₁.IsFree id (parent'.child m.leaf) := by
    intro parent' leads'
    rw [goal₁, called₁, leads, Option.some_inj] at leads'
    exact leads' ▸ alters.isFree indexed free
  obtain ⟨-, x, heldx, agreesx⟩ := held₁.replay_move (alters.indexed indexed)
    (alters.retention_eq.trans unlimited) sound₁.ordered sound₁.readable free₁ n'.storing
  have moved : t₁.move r₁.goal? m = t₁.move r.goal? m := by
    simp only [Tracked.move, goal₁]
  rw [moved] at agreesx
  refine ⟨x, ?_, agreesx.trans (agrees₁.move r.goal? m)⟩
  simp only [performAll, List.foldl_cons, List.foldl_nil, perform, replayed]
  exact heldx

theorem Holds.performAll_move_request (held : r.Holds id t) (indexed : r.store.IsIndexed)
    (unlimited : r.retention = none) (sound : t.history.IsSound) (valid : q.IsSound r.schema)
    (leads : (r.goal? m).or t.entry.name.parent? = some parent)
    (free : r.IsFree id (parent.child m.leaf)) (name : DistinguishedName) (n n' : Readings) :
    ∃ y, (r.performAll [(n, .replay (m.update id)), (n', .replay (q.update name id))]).Holds id y ∧
      y.Agrees ((t.move r.goal? m).afterRequest r.schema q) := by
  have free₀ : ∀ parent', (r.goal? m).or t.entry.name.parent? = some parent' →
      r.IsFree id (parent'.child m.leaf) := by
    intro parent' leads'
    rw [leads, Option.some_inj] at leads'
    exact leads' ▸ free
  obtain ⟨alters, t₁, held₁, agrees₁⟩ := held.replay_move indexed unlimited sound.ordered
    sound.readable free₀ n.storing
  have sound₁ := (Tracked.isSound_move sound r.goal? m).of_agrees agrees₁.history
  have valid₁ : q.IsSound (r.replay n.storing (m.update id)).2.schema := alters.schema_eq ▸ valid
  obtain ⟨tally, r₂, replayed, takes⟩ := held₁.replay_update valid₁.valid n'.storing name
  obtain ⟨-, y, heldy, agreesy⟩ :=
    held₁.of_takes (alters.retention_eq.trans unlimited) sound₁ valid₁ takes
  rw [alters.schema_eq] at agreesy
  refine ⟨y, ?_, agreesy.trans (agrees₁.afterRequest valid.valid)⟩
  simp only [performAll, List.foldl_cons, List.foldl_nil, perform]
  rw [replayed]
  exact heldy

/-- Two replicas that hold an entry alike take in a request and a rename of it, both newer than all
that is told of it, in either order. They end with the same name and the same history, and with the
same values of those attributes where the request lets the rename be. -/
theorem request_move_commute_iff (held : r.Holds id t) (held' : r'.Holds id t)
    (indexed : r.store.IsIndexed) (indexed' : r'.store.IsIndexed) (unlimited : r.retention = none)
    (unlimited' : r'.retention = none) (schema : r'.schema = r.schema) (sound : t.history.IsSound)
    (valid : q.IsSound r.schema) (older : t.history.IsOlder q.stamp)
    (older' : t.history.IsOlder m.stamp) (tidy : m.leaf.IsTidy)
    (tidy' : ∀ old ∈ t.entry.name.leaf?, old.IsTidy) (outside : m.superiorId ≠ some id)
    (goals : r'.goal? m = r.goal? m) (leads : (r.goal? m).or t.entry.name.parent? = some parent)
    (free : r.IsFree id (parent.child m.leaf)) (free' : r'.IsFree id (parent.child m.leaf))
    (name : DistinguishedName) (n₁ n₂ n₃ n₄ : Readings) :
    ∃ x y, (r.performAll [(n₁, .replay (q.update name id)), (n₂, .replay (m.update id))]).Holds id x ∧
      (r'.performAll [(n₃, .replay (m.update id)), (n₄, .replay (q.update name id))]).Holds id y ∧
      x.entry.name = y.entry.name ∧ x.history.Agrees y.history ∧
      ∀ a, a.isHistory = false → ((∀ v, v ∈ x.entry.values a ↔ v ∈ y.entry.values a) ↔
        t.Commutes r.goal? r.schema q m a) := by
  obtain ⟨x, heldx, left⟩ := held.performAll_request_move indexed unlimited sound valid outside leads
    free name n₁ n₂
  obtain ⟨y, heldy, right⟩ := held'.performAll_move_request indexed' unlimited' sound
    (schema ▸ valid) (goals ▸ leads) free' name n₃ n₄
  have moved : t.move r'.goal? m = t.move r.goal? m := by
    simp only [Tracked.move, goals]
  rw [moved, schema] at right
  refine ⟨x, y, heldx, heldy, ?_, ?_, fun a user => ?_⟩
  · rw [left.name, right.name]
    exact Tracked.name_move_afterRequest r.schema q older'.admitsRename leads
  · refine left.history.trans (.trans ?_ right.history.symm)
    exact Tracked.agrees_move_afterRequest r.schema older.created older'.admitsRename leads
  · rw [left.values a user, right.values a user]
    exact Tracked.mem_values_iff_commutes r.schema older older' sound.ordered tidy tidy' leads a

open Pair in
/-- A value is added and the entry gets another name. -/
theorem request_move_commute_iff_add :
    let q : Request := ⟨⟨5, 0, 1⟩, [⟨⟨"cn", []⟩, .add, [[120]]⟩]⟩
    let b := Pair.rename ⟨6, 0, 2⟩ "b" true
    ∃ x y, ((replica 3).performAll [(50, .replay (q.update member.entry.name (.uniform 1))),
        (51, .replay (b.update (.uniform 1)))]).Holds (.uniform 1) x ∧
      ((replica 4).performAll [(60, .replay (b.update (.uniform 1))),
        (61, .replay (q.update member.entry.name (.uniform 1)))]).Holds (.uniform 1) y ∧
      x.LooksLike y := by
  intro q b
  have free : ∀ id, (replica id).IsFree (.uniform 1) (suffix.child b.leaf) :=
    isFree_replica (by decide +kernel)
  obtain ⟨x, y, hx, hy, name, -, values⟩ := request_move_commute_iff (q := q) (m := b)
    (holds_replica 3) (holds_replica 4) (indexed_replica 3) (indexed_replica 4) rfl rfl rfl
    (History.isSound_ofCreation _) (Request.isSound_of_plain (by decide +kernel) (by decide +kernel))
    (by decide +kernel) (by decide +kernel) (by decide +kernel) (by decide +kernel) nofun rfl
    (by decide +kernel) (free 3) (free 4) member.entry.name 50 51 60 61
  refine ⟨x, y, hx, hy, name ▸ beq_self_eq_true _, fun a user => (values a user).mpr ?_⟩
  obtain ⟨multi, changes, kept, held, edited⟩ : (replica 3).schema.isSingle (.make "cn") = false ∧
      (q.edit (.make "cn")).changes = [.add [120]] ∧
      (∀ old ∈ dropped? member.entry.name b.leaf b.deleteOld, ¬old.Gives (.make "cn") [120]) ∧
      (¬∃ w ∈ member.entry.values (.make "cn"), b.leaf.Gives (.make "cn") w) ∧
      ¬∃ w ∈ (member.afterRequest (replica 3).schema q).entry.values (.make "cn"),
        b.leaf.Gives (.make "cn") w := by
    decide +kernel
  have outcome : ∀ v, (q.edit (.make "cn")).outcome v = if [120] = v then some .added else none := by
    intro v
    simp [Edit.outcome, changes, Edit.outcomeOf, Change.outcome]
  by_cases ha : a = .make "cn"
  · subst ha
    rw [Tracked.Commutes, multi, if_neg Bool.false_ne_true]
    refine ⟨fun v added => ?_, fun v _ deleted => ?_, fun v _ _ => iff_of_false edited held⟩
    · rw [outcome] at added
      obtain rfl : [120] = v := by simpa using added
      exact kept
    · rw [outcome] at deleted
      split at deleted <;> cases deleted
  · refine Tracked.commutes_of_apart _ _ _ (.inr ⟨ha, ?_⟩)
    rintro old drops rfl
    have named : member.entry.name.leaf? = some old := (Option.filter_eq_some_iff.mp drops).1
    obtain rfl : (⟨"cn", "a"⟩ : RelativeName) = old := Option.some.inj named
    exact ha rfl

open Pair in
/-- A replace of the values does not know of the rename: the value of the new name is left only if the
rename comes last. -/
theorem request_move_replace_ne : ¬∀ (r r' : Replica) (id : EntryId) (t : Tracked) (q : Request)
    (m : Move) (parent name : DistinguishedName) (n₁ n₂ n₃ n₄ : Readings), r.Holds id t →
    r'.Holds id t → r.store.IsIndexed → r'.store.IsIndexed → r.retention = none →
    r'.retention = none → r'.schema = r.schema → t.history.IsSound → q.IsSound r.schema → q.stamp ≠ m.stamp →
    t.history.IsOlder q.stamp → t.history.IsOlder m.stamp → m.leaf.IsTidy →
    (∀ old ∈ t.entry.name.leaf?, old.IsTidy) → m.superiorId ≠ some id → r'.goal? m = r.goal? m →
    (r.goal? m).or t.entry.name.parent? = some parent → r.IsFree id (parent.child m.leaf) →
    r'.IsFree id (parent.child m.leaf) →
    ∃ x y, (r.performAll [(n₁, .replay (q.update name id)), (n₂, .replay (m.update id))]).Holds id x ∧
      (r'.performAll [(n₃, .replay (m.update id)), (n₄, .replay (q.update name id))]).Holds id y ∧
      x.LooksLike y := by
  intro commute
  let q : Request := ⟨⟨5, 0, 1⟩, [⟨⟨"cn", []⟩, .replace, [[120]]⟩]⟩
  let b := Pair.rename ⟨6, 0, 2⟩ "b" true
  have free : ∀ id, (replica id).IsFree (.uniform 1) (suffix.child b.leaf) :=
    isFree_replica (by decide +kernel)
  obtain ⟨x, y, hx, hy, alike⟩ := commute (replica 3) (replica 4) (.uniform 1) member q b suffix
    member.entry.name 50 51 60 61 (holds_replica 3) (holds_replica 4) (indexed_replica 3)
    (indexed_replica 4) rfl rfl rfl (History.isSound_ofCreation _)
    (Request.isSound_of_plain (by decide +kernel) (by decide +kernel)) (by decide) (by decide +kernel)
    (by decide +kernel) (by decide +kernel) (by decide +kernel) nofun rfl (by decide +kernel) (free 3)
    (free 4)
  obtain ⟨left, gone⟩ :
      (((replica 3).performAll [(50, .replay (q.update member.entry.name (.uniform 1))),
        (51, .replay (b.update (.uniform 1)))]).store.get? (.uniform 1)).all
        (fun e => decide ([98] ∈ e.values (.make "cn"))) = true ∧
      (((replica 4).performAll [(60, .replay (b.update (.uniform 1))),
        (61, .replay (q.update member.entry.name (.uniform 1)))]).store.get? (.uniform 1)).all
        (fun e => decide ([98] ∉ e.values (.make "cn"))) = true := by
    decide +kernel
  rw [hx.stored, Option.all_some, decide_eq_true_iff] at left
  rw [hy.stored, Option.all_some, decide_eq_true_iff] at gone
  exact gone ((alike.values _ (by decide +kernel) _).mp left)

end Replica

end DirectoryHistory
