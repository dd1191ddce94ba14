import DirectoryHistory.Command
import DirectoryHistory.Proofs.Rebuild.Entry

/-!
# Rebuilding a whole tree

The entries of a replica are rebuilt in the order of their depth, so that every entry finds the copy
of its parent. That copy is called like the parent up to case, and so the copy of the entry below it
is called like the entry. Names that are the same up to case are one name, so there is room for every
copy.
-/

namespace DirectoryHistory

namespace Store

variable {s : Store} {e : Entry}

theorem IsIndexed.nodup_names (h : s.IsIndexed) : (s.toList.map Entry.name).Nodup := by
  refine List.Nodup.of_map DistinguishedName.folded ?_
  rw [List.map_map]
  exact h.nodup_folded

/-- The stores hold entries that mirror each other under the same identifiers. -/
def Mirrors (s' s : Store) : Prop :=
  ∀ id, Option.Rel Entry.Mirrors (s'.get? id) (s.get? id)

end Store

namespace Command

theorem perm_targets (s : Store) : (targets s none).Perm (s.toList.map Entry.name) :=
  sortBy_perm _ _

theorem pairwise_targets (s : Store) :
    (targets s none).Pairwise (·.parts.length ≤ ·.parts.length) := by
  have sorted : (targets s none).Pairwise fun d e => decide (d.parts.length ≤ e.parts.length) = true :=
    pairwise_sortBy (fun d e => by simpa using Nat.le_total _ _)
      (fun d e f => by simpa using Nat.le_trans) (s.toList.map Entry.name)
  exact sorted.imp fun before => by simpa using before

variable {m : Type → Type} [Monad m] {r r' : Replica} {us : List Update}

theorem rebuildAll_eq [LawfulMonad m] {names : List DistinguishedName} {bs : List Rebuilt}
    (each : List.Forall₂ (fun name b => r.rebuild name = .ok b) names bs) :
    rebuildAll r names = (pure (bs.flatMap (·.updates)) : Session m (List Update)) := by
  induction each with
  | nil => rfl
  | cons first _ ih => simp only [rebuildAll, first, checkFor, ih, pure_bind, List.flatMap_cons]

theorem replayAll_eq (h : Replica.AppliesAll 0 r us r') (applied : Nat) :
    replayAll r us applied = (pure (r', applied + us.length) : Session m (Replica × Nat)) := by
  induction h generalizing applied with
  | nil => rfl
  | cons first _ ih =>
    simp only [replayAll, first]
    rw [ih, List.length_cons, Nat.add_assoc, Nat.add_comm 1]

end Command

namespace Replica

variable {r₀ r r' : Replica} {us : List Update} {id : EntryId} {e : Entry}
variable {names : List DistinguishedName}

theorem IsRooted.place (rooted : r.IsRooted) (indexed : r.store.IsIndexed)
    (stored : r.store.get? id = some e) :
    (e.name.same r.base = true ∧ r.storedParent? e.name = none) ∨
      ∃ leaf above id' p, e.name = DistinguishedName.child above leaf ∧
        r.store.get? id' = some p ∧ p.name.folded = above.folded ∧
        r.storedParent? e.name = some id' := by
  by_cases same : e.name.same r.base = true
  · exact .inl ⟨same, by rw [storedParent?, if_pos same]⟩
  · obtain ⟨below, id', p, hp, named⟩ := (rooted id e stored).resolve_left same
    obtain ⟨leaf, above, parts⟩ : ∃ leaf above, e.name.parts = leaf :: above := by
      have deeper : r.base.parts.length < e.name.parts.length := by
        simp only [DistinguishedName.isBelow, Bool.and_eq_true, decide_eq_true_eq] at below
        exact below.1
      exact List.exists_cons_of_length_pos (Nat.zero_lt_of_lt deeper)
    have parent : e.name.parent? = some ⟨above⟩ := by
      rw [DistinguishedName.parent?, parts]
    rw [parent, Option.getD_some] at named
    have found : r.store.find? ⟨above⟩ = some p :=
      indexed.find?_eq_some_iff.mpr ⟨indexed.keyed id' p hp ▸ hp, named⟩
    refine .inr ⟨leaf, ⟨above⟩, id', p, congrArg DistinguishedName.mk parts, hp, named, ?_⟩
    rw [storedParent?, if_neg same, parent, Option.bind_some, found, Option.map_some,
      indexed.keyed id' p hp]

/-- Every entry of the replica can be rebuilt, and so can the tree that they form. -/
structure IsRebuildable (r : Replica) : Prop where
  unlimited : r.retention = none
  indexed : r.store.IsIndexed
  readable : r.IsReadable
  rooted : r.IsRooted
  entries : ∀ id e, r.store.get? id = some e →
    ∃ t c initial, r.Holds id t ∧ t.IsRebuildable r.schema c initial

/-- The second replica holds copies of those entries of the first one that have the given names. -/
structure IsCopy (r : Replica) (names : List DistinguishedName) (r' : Replica) : Prop where
  only : r' = { r with clock := r'.clock, store := r'.store }
  indexed : r'.store.IsIndexed
  readable : r'.IsReadable
  copied : ∀ id e, r.store.get? id = some e → e.name ∈ names →
    ∃ f, r'.store.get? id = some f ∧ f.Mirrors e
  stored : ∀ id f, r'.store.get? id = some f →
    ∃ e, r.store.get? id = some e ∧ e.name ∈ names ∧ f.Mirrors e

theorem isCopy_empty (r : Replica) (clock : Clock) :
    r.IsCopy [] { r with clock, store := .empty } where
  only := rfl
  indexed := Store.isIndexed_empty
  readable := isReadable_of_empty rfl
  copied := nofun
  stored := nofun

theorem IsCopy.addedName (copy : r.IsCopy names r') (rooted : r.IsRooted)
    (indexed : r.store.IsIndexed) (stored : r.store.get? id = some e)
    (ancestors : ∀ id' p, r.store.get? id' = some p →
      p.name.parts.length < e.name.parts.length → p.name ∈ names) :
    ∃ name, r'.addedName e.name (r.storedParent? e.name) = .ok name ∧
      name.folded = e.name.folded := by
  rcases rooted.place indexed stored with ⟨same, orphan⟩ | ⟨leaf, above, id', p, split, hp, named, parent⟩
  · have base : r'.base = r.base := by rw [copy.only]
    refine ⟨e.name, ?_, rfl⟩
    simp only [Replica.addedName, orphan, Option.bind_none, parentOf, base, same, if_true, Except.map]
  · have shallower : p.name.parts.length < e.name.parts.length := by
      rw [DistinguishedName.length_parts_eq named, split]
      exact Nat.lt_succ_self _
    obtain ⟨f, hf, mirrors⟩ := copy.copied id' p hp (ancestors id' p hp shallower)
    refine ⟨f.name.child leaf, ?_, ?_⟩
    · simp only [Replica.addedName, parent, Option.bind_some, hf]
      rw [split]
      rfl
    · have same : f.name.folded = above.folded :=
        (DistinguishedName.same_iff.mp mirrors.name).trans named
      simp only [split, DistinguishedName.folded, DistinguishedName.child,
        List.flatMap_cons] at same ⊢
      rw [same]

theorem IsCopy.extend {r'' : Replica} {t : Tracked} (copy : r.IsCopy names r')
    (indexed : r.store.IsIndexed) (stored : r.store.get? id = some e) (alters : Alters id r' r'')
    (held : r''.Holds id t) (mirrors : t.entry.Mirrors e) : r.IsCopy (e.name :: names) r'' := by
  constructor
  · rw [alters.only, copy.only]
  · exact alters.indexed copy.indexed
  · exact alters.readable copy.readable
  · intro id' f hf member
    by_cases own : id' = id
    · subst own
      obtain rfl := Option.some.inj (stored.symm.trans hf)
      exact ⟨t.entry, held.stored, mirrors⟩
    · have other : f.name ≠ e.name := by
        intro same
        obtain rfl := indexed.eq_of_folded_eq hf stored (congrArg _ same)
        exact own ((indexed.keyed id' _ hf).symm.trans (indexed.keyed id _ stored))
      rw [alters.others id' own]
      exact copy.copied id' f hf ((List.mem_cons.mp member).resolve_left other)
  · intro id' f hf
    by_cases own : id' = id
    · subst own
      obtain rfl : t.entry = f := Option.some.inj (held.stored.symm.trans hf)
      exact ⟨e, stored, List.mem_cons_self, mirrors⟩
    · rw [alters.others id' own] at hf
      obtain ⟨e, he, member, mirrors'⟩ := copy.stored id' f hf
      exact ⟨e, he, List.mem_cons_of_mem _ member, mirrors'⟩

/-- One more entry is copied, once those above it are. -/
theorem IsCopy.copy (copy : r.IsCopy names r') (source : r.IsRebuildable)
    (stored : r.store.get? id = some e) (new : e.name ∉ names)
    (ancestors : ∀ id' p, r.store.get? id' = some p →
      p.name.parts.length < e.name.parts.length → p.name ∈ names) :
    ∃ b r'', (r.rebuild e.name = .ok b ∧ b.anomalies = []) ∧ AppliesAll 0 r' b.updates r'' ∧
      r.IsCopy (e.name :: names) r'' := by
  obtain ⟨t, c, initial, held, rebuildable⟩ := source.entries id e stored
  obtain rfl : t.entry = e := Option.some.inj (held.stored.symm.trans stored)
  have fresh : r'.store.get? id = none := by
    rw [Option.eq_none_iff_forall_ne_some]
    intro f hf
    obtain ⟨e, he, member, -⟩ := copy.stored id f hf
    obtain rfl : t.entry = e := Option.some.inj (stored.symm.trans he)
    exact new member
  have witnessed : r.IsCopy names (r'.witness c) :=
    ⟨by rw [witness, copy.only], copy.indexed, copy.readable, copy.copied, copy.stored⟩
  obtain ⟨name, added, named⟩ := witnessed.addedName source.rooted source.indexed stored ancestors
  have free : r'.store.find? name = none := by
    refine copy.indexed.find?_eq_none_iff.mpr fun id' f hf same => ?_
    obtain ⟨e, he, member, mirrors⟩ := copy.stored id' f hf
    have called := (DistinguishedName.same_iff.mp mirrors.name).symm.trans (same.trans named)
    obtain rfl := source.indexed.eq_of_folded_eq he stored called
    exact new member
  obtain ⟨r'', t', applied, alters, held', mirrors⟩ := held.appliesAll_rebuild source.readable
    rebuildable (by rw [copy.only]) (by rw [copy.only, source.unlimited]) copy.indexed copy.readable
    fresh added (DistinguishedName.same_iff.mpr named) free 0
  exact ⟨_, r'', ⟨held.rebuild_eq, rebuildable.anomalies_eq_nil _⟩, applied,
    copy.extend source.indexed stored alters held' mirrors⟩

/-- The entries that are left are copied by ascending depth. -/
theorem IsCopy.copyAll {rest : List DistinguishedName} (copy : r.IsCopy names r')
    (source : r.IsRebuildable) (sorted : rest.Pairwise (·.parts.length ≤ ·.parts.length))
    (nodup : rest.Nodup) (apart : ∀ name ∈ rest, name ∉ names)
    (each : ∀ name ∈ rest, ∃ id e, r.store.get? id = some e ∧ e.name = name)
    (whole : ∀ id e, r.store.get? id = some e → e.name ∈ names ∨ e.name ∈ rest) :
    ∃ bs r'', List.Forall₂ (fun name b => r.rebuild name = .ok b ∧ b.anomalies = []) rest bs ∧
      AppliesAll 0 r' (bs.flatMap (·.updates)) r'' ∧ ∃ all, r.IsCopy all r'' ∧
        ∀ id e, r.store.get? id = some e → e.name ∈ all := by
  induction rest generalizing names r' with
  | nil =>
    refine ⟨[], r', .nil, .nil r', names, copy, fun id e stored => ?_⟩
    exact (whole id e stored).resolve_right List.not_mem_nil
  | cons name rest ih =>
    obtain ⟨id, e, stored, rfl⟩ := each name List.mem_cons_self
    obtain ⟨deeper, sorted⟩ := List.pairwise_cons.mp sorted
    obtain ⟨other, nodup⟩ := List.nodup_cons.mp nodup
    have ancestors : ∀ id' p, r.store.get? id' = some p →
        p.name.parts.length < e.name.parts.length → p.name ∈ names := by
      intro id' p hp shallower
      refine (whole id' p hp).resolve_right fun later => ?_
      rcases List.mem_cons.mp later with same | later
      · exact absurd shallower (same ▸ lt_irrefl _)
      · exact absurd (deeper p.name later) (not_le.mpr shallower)
    obtain ⟨b, r₁, rebuilt, applied, copy₁⟩ :=
      copy.copy source stored (apart e.name List.mem_cons_self) ancestors
    have apart₁ : ∀ name ∈ rest, name ∉ e.name :: names := by
      intro name later member
      rcases List.mem_cons.mp member with rfl | member
      · exact other later
      · exact apart name (.tail _ later) member
    have whole₁ : ∀ id e', r.store.get? id = some e' →
        e'.name ∈ e.name :: names ∨ e'.name ∈ rest := by
      intro id' p hp
      rcases whole id' p hp with member | member
      · exact .inl (.tail _ member)
      · rcases List.mem_cons.mp member with same | later
        · exact .inl (same ▸ List.mem_cons_self)
        · exact .inr later
    obtain ⟨bs, r₂, rebuilts, applied', complete⟩ :=
      ih copy₁ sorted nodup apart₁ (fun name later => each name (.tail _ later)) whole₁
    exact ⟨b :: bs, r₂, .cons rebuilt rebuilts, applied.append applied', complete⟩

theorem IsCopy.mirrors (copy : r.IsCopy names r')
    (whole : ∀ id e, r.store.get? id = some e → e.name ∈ names) : r'.store.Mirrors r.store := by
  intro id
  cases hf : r'.store.get? id with
  | some f =>
    obtain ⟨e, he, -, mirrors⟩ := copy.stored id f hf
    rw [he]
    exact .some mirrors
  | none =>
    cases he : r.store.get? id with
    | none => exact .none
    | some e =>
      obtain ⟨f, hf', -⟩ := copy.copied id e he (whole id e he)
      rw [hf] at hf'
      cases hf'

/-- What has grown from nothing can be rebuilt. -/
theorem Grows.isRebuildable (grows : Grows r₀ us r) (empty : r₀.store = .empty)
    (unlimited : r₀.retention = none) (plain : ArePlain us) (fair : AreFair us)
    (apart : CreateApart us) (once : AreOnce r.schema us) (modest : AreModest r.schema us) :
    r.IsRebuildable := by
  have grown := grows.isGrown empty unlimited plain
  refine ⟨?_, grown.indexed, grown.readable, grows.isRooted empty unlimited plain apart, ?_⟩
  · rw [grown.only]
    exact unlimited
  · intro id e stored
    obtain ⟨t, held, later, c, earlier, attributes, rfl, made⟩ := grown.made id e stored
    exact ⟨t, _, _, held, made.isRebuildable fair once modest⟩

open Command in
/-- What is rebuilt of a replica that has grown from nothing carries no anomalies, and replayed into
an empty replica every update is applied. The copy holds the same entries. -/
theorem replayAll_rebuildAll {m : Type → Type} [Monad m] [LawfulMonad m] (grows : Grows r₀ us r)
    (empty : r₀.store = .empty) (unlimited : r₀.retention = none) (plain : ArePlain us)
    (fair : AreFair us) (apart : CreateApart us) (once : AreOnce r.schema us)
    (modest : AreModest r.schema us) (clock : Clock) : ∃ (bs : List Rebuilt) (updates : List Update)
      (r' : Replica), List.Forall₂ (fun name b => r.rebuild name = .ok b ∧ b.anomalies = [])
        (targets r.store none) bs ∧ updates = bs.flatMap (·.updates) ∧
      rebuildAll r (targets r.store none) = (pure updates : Session m (List Update)) ∧
      replayAll { r with clock, store := .empty } updates 0 =
        (pure (r', updates.length) : Session m (Replica × Nat)) ∧
      r'.store.Mirrors r.store := by
  have source := grows.isRebuildable empty unlimited plain fair apart once modest
  have member : ∀ {name}, name ∈ targets r.store none ↔
      ∃ id e, r.store.get? id = some e ∧ e.name = name := by
    intro name
    rw [(perm_targets r.store).mem_iff, List.mem_map]
    simp only [Store.mem_toList]
    tauto
  obtain ⟨bs, r', each, applied, all, copy, whole⟩ :=
    (r.isCopy_empty clock).copyAll source (pairwise_targets r.store)
      ((perm_targets r.store).nodup_iff.mpr source.indexed.nodup_names)
      (fun _ _ => List.not_mem_nil) (fun name => member.mp)
      (fun id e stored => .inr (member.mpr ⟨id, e, stored, rfl⟩))
  refine ⟨bs, _, r', each, rfl, rebuildAll_eq (each.imp fun _ _ h => h.1), ?_, copy.mirrors whole⟩
  rw [replayAll_eq applied, Nat.zero_add]

namespace Staff

def member : DistinguishedName :=
  name.child ⟨"cn", "a"⟩

/-- The digest of the name and the stamp of the creation. -/
def memberId : EntryId :=
  ⟨[124, 195, 110, 206, 104, 222, 230, 85, 202, 38, 207, 4, 100, 20, 177, 216, 87, 207, 29, 141, 49,
    219, 177, 97, 87, 172, 209, 227, 39, 140, 141, 122], rfl⟩

def given : Table Attribute (List Octets) :=
  Table.empty.insert ⟨"uid", []⟩ [[1]]

def joining : Update :=
  ⟨⟨20, 0, 1⟩, member, memberId, .add (some rootId) given⟩

def joined : Replica :=
  ((created.tick 20).create 20 member memberId given joining.stamp).toOption.getD created

theorem join_eq : created.add 20 member given = (.ok joining, joined) := by
  decide +kernel

def correction : List Modification :=
  [⟨⟨"uid", []⟩, .replace, [[2]]⟩, ⟨⟨"mail", []⟩, .add, [[3]]⟩]

def corrected : Replica :=
  (joined.modify 30 member correction fun _ => false).2

def correcting : Update :=
  ⟨⟨30, 0, 1⟩, member, memberId, .modify correction⟩

/-- An older request of another replica. -/
def late : Update :=
  ⟨⟨25, 0, 2⟩, member, memberId,
    .modify [⟨⟨"mail", []⟩, .replace, [[4]]⟩, ⟨⟨"uid", []⟩, .delete, [[1]]⟩]⟩

def settled : Replica :=
  (corrected.replay 40 late).2

end Staff

open Command Staff in
/-- Two entries, one of them changed by requests that arrive out of order, are copied. -/
theorem replayAll_rebuildAll_settled : ∃ (updates : List Update) (r' : Replica),
    rebuildAll settled (targets settled.store none) = (pure updates : Session Id (List Update)) ∧
    replayAll empty updates 0 = (pure (r', updates.length) : Session Id (Replica × Nat)) ∧
    r'.store.Mirrors settled.store := by
  obtain ⟨done, replayed, fair, once, modest⟩ :
      (joined.modify 30 member correction fun _ => false).1 = .ok correcting ∧
      (corrected.replay 40 late).1 = .ok (.applied ⟨1, 1⟩) ∧
      AreFair [late, correcting, joining, creation] ∧
      AreOnce settled.schema [late, correcting, joining, creation] ∧
      AreModest settled.schema [late, correcting, joining, creation] := by
    decide +kernel
  have grows : Grows empty [late, correcting, joining, creation] settled :=
    (((Grows.start.add add_eq).add join_eq).modify (congrArg sent? done)).replay rfl
      (Prod.ext replayed rfl)
  obtain ⟨bs, updates, r', -, -, rebuilt, copied, mirrors⟩ :=
    replayAll_rebuildAll (m := Id) grows rfl rfl (by decide) fair (by decide) once modest (.start 1)
  exact ⟨updates, r', rebuilt, copied, mirrors⟩

end Replica

end DirectoryHistory
