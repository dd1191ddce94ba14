import DirectoryHistory.Proofs.Replica.Deletion
import DirectoryHistory.Proofs.Tracked.Moves

/-!
# Replicas that take in renames

A replica takes in every rename of an entry that it holds, as long as no other entry has the name that
the rename leads to. So what is said of renames in any order holds of replicas that hear of them in any
order.
-/

namespace DirectoryHistory

open Tracked (move AreCompatible)

variable {id : EntryId} {t u x y : Tracked} {m last : Move} {ms : List Move}
variable {goal : Move → Option DistinguishedName} {above parent : DistinguishedName}
variable {leaf : RelativeName}

theorem Tracked.Agrees.refl (t : Tracked) : t.Agrees t :=
  ⟨rfl, rfl, fun _ _ => rfl, ⟨fun _ => rfl, rfl, rfl⟩⟩

theorem Tracked.Agrees.symm (h : t.Agrees u) : u.Agrees t where
  id := h.id.symm
  name := h.name.symm
  values a user := (h.values a user).symm
  history := h.history.symm

theorem Tracked.Agrees.move (h : t.Agrees u) (goal : Move → Option DistinguishedName) (m : Move) :
    (t.move goal m).Agrees (u.move goal m) := by
  have admits : t.history.admitsRename m.stamp = u.history.admitsRename m.stamp := by
    rw [History.admitsRename, History.admitsRename, h.history.renamed]
  simp only [Tracked.move, admits, h.name]
  split
  · split
    · exact h.rename _ _ _ _
    · exact h
  · exact h

theorem Tracked.Agrees.foldl_move (h : t.Agrees u) (goal : Move → Option DistinguishedName) :
    (ms.foldl (Tracked.move goal) t).Agrees (ms.foldl (Tracked.move goal) u) := by
  induction ms generalizing t u with
  | nil => exact h
  | cons m rest ih => exact ih (h.move goal m)

theorem Tracked.LooksLike.of_agrees (h : t.LooksLike u) (ht : x.Agrees t) (hu : y.Agrees u) :
    x.LooksLike y where
  name := by
    rw [ht.name, hu.name]
    exact h.name
  values a user v := by
    rw [ht.values a user, hu.values a user]
    exact h.values a user v

/-- The rename may lead the entry below `parent`, if it is below `above` before the renames `ms`. -/
def Move.MayLead (goal : Move → Option DistinguishedName) (above : DistinguishedName)
    (ms : List Move) (m : Move) (parent : DistinguishedName) : Prop :=
  goal m = some parent ∨ goal m = none ∧ (parent = above ∨ ∃ m' ∈ ms, goal m' = some parent)

namespace Replica

variable {r r' : Replica} {now : UInt64}

theorem Holds.eq (h : r.Holds id t) (h' : r.Holds id u) : t = u :=
  (h.eq_of_read h'.stored h'.read).2

/-- The parent that a rename names, if it names one: the superior where it is now, or else under the
name that it had. -/
def goal? (r : Replica) (m : Move) : Option DistinguishedName :=
  ((m.superiorId.bind r.store.get?).map Entry.name).or m.superior

theorem renameParent?_eq (r : Replica) (e : Entry) (m : Move) :
    r.renameParent? e m.superior m.superiorId = (r.goal? m).or e.name.parent? := by
  rw [renameParent?, goal?]
  cases m.superiorId.bind r.store.get? with
  | some p => rfl
  | none => rfl

/-- No other entry than `id` has the name. -/
def IsFree (r : Replica) (id : EntryId) (name : DistinguishedName) : Prop :=
  ∀ e, r.store.find? name = some e → e.id = id

theorem Alters.goal?_eq (h : Alters id r r') (other : m.superiorId ≠ some id) :
    r'.goal? m = r.goal? m := by
  rw [goal?, goal?]
  cases sup : m.superiorId with
  | none => rfl
  | some id' =>
    have apart : id' ≠ id := fun same => other (same ▸ sup)
    rw [Option.bind_some, Option.bind_some, h.others id' apart]

theorem Alters.isFree (h : Alters id r r') (indexed : r.store.IsIndexed)
    {name : DistinguishedName} (free : r.IsFree id name) : r'.IsFree id name := by
  intro e found
  by_contra other
  obtain ⟨stored, named⟩ := (h.indexed indexed).find?_eq_some_iff.mp found
  rw [h.others e.id other] at stored
  exact other (free e (indexed.find?_eq_some_iff.mpr ⟨stored, named⟩))

theorem IsFree.persist_eq_ok (free : r.IsFree id t.entry.name) (indexed : r.store.IsIndexed)
    (own : t.entry.id = id) (now : UInt64) : ∃ r', r.persist now t = .ok r' := by
  have unlisted : ∀ id', r.store.names.get? (t.store now r.retention).name.folded = some id' →
      id' = (t.store now r.retention).id := by
    intro id' listed
    obtain ⟨e, stored, named⟩ := indexed.stored _ id' listed
    have key := indexed.keyed id' e stored
    have found := indexed.find?_eq_some_iff.mpr ⟨key.symm ▸ stored, named⟩
    exact key.symm.trans ((free e found).trans own.symm)
  obtain ⟨store, put⟩ := Store.put_eq_ok unlisted
  exact ⟨{ r with store }, by simp only [persist, put]⟩

theorem Holds.isTaken_eq_false (held : r.Holds id t) (indexed : r.store.IsIndexed)
    {name : DistinguishedName} (free : r.IsFree id name) : r.isTaken t.entry name = false := by
  rw [isTaken, Bool.and_eq_false_iff]
  cases found : r.store.find? name with
  | none => exact .inr rfl
  | some e =>
    obtain ⟨stored, named⟩ := indexed.find?_eq_some_iff.mp found
    rw [free e found, held.stored] at stored
    obtain rfl := Option.some.inj stored
    exact .inl (by rw [DistinguishedName.same_iff.mpr named.symm]; rfl)

theorem Holds.replay_move (held : r.Holds id t) (indexed : r.store.IsIndexed)
    (unlimited : r.retention = none) (ordered : t.history.IsOrdered)
    (readable : t.history.IsReadable)
    (free : ∀ parent, (r.goal? m).or t.entry.name.parent? = some parent →
      r.IsFree id (parent.child m.leaf)) (now : UInt64) :
    Alters id r (r.replay now (m.update id)).2 ∧
      ∃ x, (r.replay now (m.update id)).2.Holds id x ∧ x.Agrees (t.move r.goal? m) := by
  have witnessed : (r.witness m.stamp).Holds id t := held.of_store_eq rfl
  have ignored : Alters id r (r.witness m.stamp) ∧
      ∃ x, (r.witness m.stamp).Holds id x ∧ x.Agrees t :=
    ⟨⟨rfl, fun _ _ => rfl, fun h => h, fun h => h⟩, t, witnessed, .refl t⟩
  by_cases admitted : t.history.admitsRename m.stamp = true
  swap
  · have replayed : r.replay now (m.update id) = (.ok (.ignored .stale), r.witness m.stamp) :=
      replay_rename_of_stale rfl held.stored held.ofEntry_eq (Bool.not_eq_true _ ▸ admitted) now
    rwa [replayed, Tracked.move_of_stale admitted]
  have leads : (r.witness m.stamp).renameParent? t.entry m.superior m.superiorId =
    (r.goal? m).or t.entry.name.parent? := renameParent?_eq r t.entry m
  cases goes : (r.goal? m).or t.entry.name.parent? with
  | none =>
    have replayed : r.replay now (m.update id) =
        (.ok (.ignored .noSuchEntry), r.witness m.stamp) := by
      have stored : (r.witness m.stamp).store.get? id = some t.entry := held.stored
      simp [replay, replayWitnessed, Move.update, replayRename, stored, held.ofEntry_eq, admitted,
        leads, goes]
    rwa [replayed, Tracked.move, if_pos admitted, goes]
  | some parent =>
    let u := t.rename (parent.child m.leaf) m.leaf m.deleteOld m.stamp
    have moved : t.move r.goal? m = u := by
      simp only [Tracked.move, if_pos admitted, goes, u]
    have own : u.entry.id = id := (id_renameEntry ..).trans held.identified
    have called : u.entry.name = parent.child m.leaf := name_renameEntry ..
    have room : (r.witness m.stamp).IsFree id (parent.child m.leaf) := free parent goes
    obtain ⟨r', written⟩ := IsFree.persist_eq_ok (r := r.witness m.stamp) (t := u)
      (called.symm ▸ room) indexed own now
    have replayed : r.replay now (m.update id) = (.ok (.applied .zero), r') :=
      replay_rename_of_persist rfl held.stored held.ofEntry_eq admitted (leads.trans goes)
        (witnessed.isTaken_eq_false indexed room) written
    have after : u.history.IsOrdered ∧ u.history.IsReadable := by
      constructor <;> intro a <;> simp only [u, Tracked.rename, History.timeline_rename]
      · exact ordered a
      · exact readable a
    obtain ⟨-, x, held', agrees⟩ :=
      holds_of_persist (r := r.witness m.stamp) unlimited after.1 after.2 written
    rw [replayed, moved]
    exact ⟨alters_of_persist own after.1 after.2 written, x, own ▸ held', agrees⟩

/-- The renames of the entry `id`, each taken in at its time. -/
def moves (id : EntryId) (run : List (UInt64 × Move)) : List (Readings × Operation) :=
  run.map fun p => (.still p.1, .replay (p.2.update id))

/-- No rename leads to the name of another entry, and none below the entry itself. -/
structure Accommodates (r : Replica) (id : EntryId) (above : DistinguishedName) (ms : List Move) :
    Prop where
  free : ∀ m ∈ ms, ∀ parent, m.MayLead r.goal? above ms parent → r.IsFree id (parent.child m.leaf)
  outside : ∀ m ∈ ms, m.superiorId ≠ some id

theorem Accommodates.of_alters (h : r.Accommodates id above ms) (indexed : r.store.IsIndexed)
    (alters : Alters id r r') : r'.Accommodates id above ms := by
  have goals : ∀ m ∈ ms, r'.goal? m = r.goal? m := fun m hm => alters.goal?_eq (h.outside m hm)
  refine ⟨fun m hm parent leads => alters.isFree indexed (h.free m hm parent ?_), h.outside⟩
  rw [Move.MayLead, goals m hm] at leads
  refine leads.imp_right (And.imp_right (Or.imp_right ?_))
  rintro ⟨m', hm', goes⟩
  exact ⟨m', hm', goals m' hm' ▸ goes⟩

/-- The entry is below `above`, or below the parent that one of the renames names. -/
def IsWithin (r : Replica) (above : DistinguishedName) (ms : List Move) (t : Tracked) : Prop :=
  ∃ parent, t.entry.name.parent? = some parent ∧
    (parent = above ∨ ∃ m ∈ ms, r.goal? m = some parent)

theorem IsWithin.mayLead (h : r.IsWithin above ms t)
    (goes : (r.goal? m).or t.entry.name.parent? = some parent) :
    m.MayLead r.goal? above ms parent := by
  obtain ⟨present, below, known⟩ := h
  cases named : r.goal? m with
  | some goal =>
    rw [named, Option.some_or] at goes
    exact .inl (named.trans goes)
  | none =>
    rw [named, Option.none_or, below] at goes
    exact .inr ⟨named, Option.some.inj goes ▸ known⟩

theorem IsWithin.move (h : r.IsWithin above ms t) (hm : m ∈ ms) :
    r.IsWithin above ms (t.move r.goal? m) := by
  obtain ⟨present, below, known⟩ := h
  obtain stays | goes := Tracked.parent?_move r.goal? t m
  · exact ⟨present, stays.trans below, known⟩
  · cases named : r.goal? m with
    | some goal => exact ⟨goal, by rw [goes, named, Option.some_or], .inr ⟨m, hm, named⟩⟩
    | none => exact ⟨present, by rw [goes, named, Option.none_or, below], known⟩

/-- Replayed renames make of an entry what they make of it one after the other. -/
theorem Holds.performAll_moves (held : r.Holds id t) (indexed : r.store.IsIndexed)
    (unlimited : r.retention = none) (ordered : t.history.IsOrdered)
    (readable : t.history.IsReadable) (room : r.Accommodates id above ms)
    (within : r.IsWithin above ms t) {run : List (UInt64 × Move)} (among : ∀ p ∈ run, p.2 ∈ ms) :
    ∃ x, (r.performAll (moves id run)).Holds id x ∧
      x.Agrees ((run.map Prod.snd).foldl (Tracked.move r.goal?) t) := by
  induction run generalizing r t with
  | nil => exact ⟨t, held, .refl t⟩
  | cons p rest ih =>
    have hm : p.2 ∈ ms := among p (.head _)
    obtain ⟨alters, x, held', agrees⟩ := held.replay_move indexed unlimited ordered readable
      (fun parent goes => room.free p.2 hm parent (within.mayLead goes)) p.1
    have goals : ∀ m ∈ ms, (r.replay p.1 (p.2.update id)).2.goal? m = r.goal? m :=
      fun m hm => alters.goal?_eq (room.outside m hm)
    have after : x.history.IsOrdered ∧ x.history.IsReadable := by
      constructor <;> intro a <;> rw [agrees.history.timelines a, Tracked.timeline_move]
      · exact ordered a
      · exact readable a
    have within' : (r.replay p.1 (p.2.update id)).2.IsWithin above ms x := by
      obtain ⟨parent, below, known⟩ := within.move hm
      refine ⟨parent, agrees.name ▸ below, known.imp_right ?_⟩
      rintro ⟨m, hm, goes⟩
      exact ⟨m, hm, (goals m hm).trans goes⟩
    obtain ⟨y, held'', agrees'⟩ := ih held' (alters.indexed indexed)
      (alters.retention_eq.trans unlimited) after.1 after.2 (room.of_alters indexed alters) within'
      fun q hq => among q (.tail _ hq)
    refine ⟨y, held'', agrees'.trans ?_⟩
    have same : ∀ m ∈ rest.map Prod.snd, (r.replay p.1 (p.2.update id)).2.goal? m = r.goal? m := by
      intro m hm
      obtain ⟨q, hq, rfl⟩ := List.mem_map.mp hm
      exact goals q.2 (among q (.tail _ hq))
    rw [Tracked.foldl_move_congr same]
    exact agrees.foldl_move r.goal?

/-- Two replicas that hold an entry alike hear of its renames, each of them once and in any order.
They end with the same name and values in all orders if and only if the renames are compatible. -/
theorem moves_converge_iff (held : r.Holds id t) (held' : r'.Holds id t)
    (indexed : r.store.IsIndexed) (indexed' : r'.store.IsIndexed) (unlimited : r.retention = none)
    (unlimited' : r'.retention = none) (ordered : t.history.IsOrdered)
    (readable : t.history.IsReadable) (awaits : t.Awaits above leaf ms last)
    (room : r.Accommodates id above ms) (room' : r'.Accommodates id above ms)
    (goals : ∀ m ∈ ms, r'.goal? m = r.goal? m) :
    (∀ run run' : List (UInt64 × Move), (run.map Prod.snd).Perm ms → (run'.map Prod.snd).Perm ms →
      ∃ x y, (r.performAll (moves id run)).Holds id x ∧ (r'.performAll (moves id run')).Holds id y ∧
        x.LooksLike y) ↔ AreCompatible r.goal? t above leaf ms last := by
  have within : ∀ r : Replica, r.IsWithin above ms t := fun r =>
    ⟨above, by rw [awaits.named]; rfl, .inl rfl⟩
  have result : ∀ {run : List (UInt64 × Move)}, (run.map Prod.snd).Perm ms →
      ∃ x, (r.performAll (moves id run)).Holds id x ∧
        x.Agrees ((run.map Prod.snd).foldl (Tracked.move r.goal?) t) := fun perm =>
    held.performAll_moves indexed unlimited ordered readable room (within r)
      fun p hp => perm.mem_iff.mp (List.mem_map_of_mem hp)
  have result' : ∀ {run : List (UInt64 × Move)}, (run.map Prod.snd).Perm ms →
      ∃ y, (r'.performAll (moves id run)).Holds id y ∧
        y.Agrees ((run.map Prod.snd).foldl (Tracked.move r.goal?) t) := by
    intro run perm
    rw [← Tracked.foldl_move_congr fun m hm => goals m (perm.mem_iff.mp hm)]
    exact held'.performAll_moves indexed' unlimited' ordered readable room' (within r')
      fun p hp => perm.mem_iff.mp (List.mem_map_of_mem hp)
  rw [← awaits.converges_iff]
  constructor
  · intro converge ms₁ ms₂ perm₁ perm₂
    let timed : List Move → List (UInt64 × Move) := List.map fun m => (0, m)
    have untimed : ∀ ms, (timed ms).map Prod.snd = ms := fun ms => by simp [timed]
    obtain ⟨x, y, hx, hy, alike⟩ := converge (timed ms₁) (timed ms₂) ((untimed ms₁).symm ▸ perm₁)
      ((untimed ms₂).symm ▸ perm₂)
    obtain ⟨x', hx', agrees⟩ := result ((untimed ms₁).symm ▸ perm₁)
    obtain ⟨y', hy', agrees'⟩ := result' ((untimed ms₂).symm ▸ perm₂)
    rw [untimed] at agrees agrees'
    obtain rfl := hx.eq hx'
    obtain rfl := hy.eq hy'
    exact alike.of_agrees agrees.symm agrees'.symm
  · intro converges run run' perm perm'
    obtain ⟨x, hx, agrees⟩ := result perm
    obtain ⟨y, hy, agrees'⟩ := result' perm'
    exact ⟨x, y, hx, hy, (converges _ _ perm perm').of_agrees agrees agrees'⟩

namespace Pair

def suffix : DistinguishedName :=
  ⟨[⟨"o", "test"⟩]⟩

def member : Tracked :=
  let created : Tracked := ⟨newEntry (suffix.child ⟨"cn", "a"⟩) (.uniform 1) .empty, .ofCreation ⟨2, 0, 9⟩⟩
  { created with entry := created.store 0 none }

def content : Store :=
  ((make 9 suffix ⟨["uid"]⟩ none .empty).performAll
    [(10, .replay ⟨⟨1, 0, 9⟩, suffix, .uniform 0, .add none .empty⟩),
      (20, .replay ⟨⟨2, 0, 9⟩, member.entry.name, .uniform 1, .add (some (.uniform 0)) .empty⟩)]).store

def replica (id : UInt16) : Replica :=
  make id suffix ⟨["uid"]⟩ none content

theorem holds_replica (id : UInt16) : (replica id).Holds (.uniform 1) member where
  identified := by decide +kernel
  stored := show content.get? (.uniform 1) = some member.entry by decide +kernel
  named := show content.names.get? member.entry.name.folded = some (.uniform 1) by decide +kernel
  read := by decide +kernel

theorem indexed_replica (id : UInt16) : (replica id).store.IsIndexed :=
  Store.isIndexed_empty.performAll _

def rename (stamp : Stamp) (value : String) (deleteOld : Bool) : Move :=
  ⟨stamp, member.entry.name, ⟨"cn", value⟩, deleteOld, none, none⟩

theorem isFree_replica {name : DistinguishedName}
    (free : (content.find? name).all (·.id = .uniform 1) = true) (id : UInt16) :
    (replica id).IsFree (.uniform 1) name := by
  intro e found
  rw [show content.find? name = some e from found] at free
  simpa using free

theorem accommodates_replica {ms : List Move} (stay : ∀ m ∈ ms, m.superior = none ∧ m.superiorId = none)
    (free : ∀ m ∈ ms, (content.find? (suffix.child m.leaf)).all (·.id = .uniform 1) = true) (id : UInt16) :
    (replica id).Accommodates (.uniform 1) suffix ms := by
  have goals : ∀ m ∈ ms, (replica id).goal? m = none := by
    intro m hm
    rw [goal?, (stay m hm).1, (stay m hm).2]
    rfl
  refine ⟨fun m hm parent leads => ?_, fun m hm => by rw [(stay m hm).2]; nofun⟩
  have below : parent = suffix := by
    obtain goes | ⟨-, same | ⟨m', hm', goes⟩⟩ := leads
    · cases (goals m hm).symm.trans goes
    · exact same
    · cases (goals m' hm').symm.trans goes
  exact below ▸ isFree_replica (free m hm) id

end Pair

open Pair in
/-- Three renames that all drop the old name are delivered in different orders. -/
theorem moves_converge_iff_thrice :
    let b := Pair.rename ⟨5, 0, 1⟩ "b" true
    let c := Pair.rename ⟨6, 0, 2⟩ "c" true
    let d := Pair.rename ⟨7, 0, 3⟩ "d" true
    ∃ x y, ((replica 3).performAll (moves (.uniform 1) [(50, d), (51, b), (52, c)])).Holds
        (.uniform 1) x ∧
      ((replica 4).performAll (moves (.uniform 1) [(60, b), (61, c), (62, d)])).Holds
        (.uniform 1) y ∧ x.LooksLike y := by
  intro b c d
  have awaits : member.Awaits suffix ⟨"cn", "a"⟩ [b, c, d] d :=
    ⟨by decide +kernel, by decide +kernel,
      ⟨by decide +kernel, by decide +kernel, by decide +kernel, by decide +kernel⟩,
      by decide +kernel, by decide +kernel⟩
  have room : ∀ id, (replica id).Accommodates (.uniform 1) suffix [b, c, d] :=
    accommodates_replica (by decide +kernel) (by decide +kernel)
  obtain ⟨stay, drop, fresh⟩ : (∀ m ∈ [b, c, d], (replica 3).goal? m = none) ∧
      (∀ m ∈ [b, c, d], m.deleteOld = true) ∧ ∀ m ∈ [b, c, d], ¬member.Bears m.leaf := by
    decide +kernel
  have compatible : AreCompatible (replica 3).goal? member suffix ⟨"cn", "a"⟩ [b, c, d] d :=
    ⟨.inr (fun m hm p goes => by cases (stay m hm.mem).symm.trans goes),
      fun m hm _ _ _ _ => drop m hm.mem, fun m hm _ _ => iff_of_true rfl (fresh m hm.mem)⟩
  exact (moves_converge_iff (holds_replica 3) (holds_replica 4) (indexed_replica 3)
    (indexed_replica 4) rfl rfl (History.isOrdered_ofCreation _) (History.isReadable_ofCreation _)
    awaits (room 3) (room 4) fun _ _ => rfl).mpr compatible _ _ (by decide +kernel) (by decide +kernel)

open Pair in
/-- An older rename drops the old name and the newest one keeps it. Delivered in their order they leave
the name in between, and otherwise the one that the entry had at first. -/
theorem moves_converge_kept : ¬∀ (r r' : Replica) (id : EntryId) (t : Tracked)
    (above : DistinguishedName) (leaf : RelativeName) (ms : List Move)
    (run run' : List (UInt64 × Move)), r.Holds id t → r'.Holds id t → r.store.IsIndexed →
    r'.store.IsIndexed → r.retention = none → r'.retention = none → t.history.IsOrdered →
    t.history.IsReadable → t.entry.name = above.child leaf → (ms.map Move.stamp).Nodup →
    r.Accommodates id above ms → r'.Accommodates id above ms → (∀ m ∈ ms, r'.goal? m = r.goal? m) →
    (run.map Prod.snd).Perm ms → (run'.map Prod.snd).Perm ms →
    ∃ x y, (r.performAll (moves id run)).Holds id x ∧ (r'.performAll (moves id run')).Holds id y ∧
      x.LooksLike y := by
  intro converge
  let b := Pair.rename ⟨5, 0, 1⟩ "b" true
  let c := Pair.rename ⟨6, 0, 2⟩ "c" false
  have room : ∀ id, (replica id).Accommodates (.uniform 1) suffix [b, c] :=
    accommodates_replica (by decide +kernel) (by decide +kernel)
  obtain ⟨x, y, hx, hy, alike⟩ := converge (replica 3) (replica 4) (.uniform 1) member suffix
    ⟨"cn", "a"⟩ [b, c] [(50, b), (51, c)] [(50, c), (51, b)] (holds_replica 3) (holds_replica 4)
    (indexed_replica 3) (indexed_replica 4) rfl rfl (History.isOrdered_ofCreation _)
    (History.isReadable_ofCreation _) (by decide +kernel) (by decide) (room 3) (room 4)
    (fun _ _ => rfl) (by decide +kernel) (by decide +kernel)
  obtain ⟨gone, left⟩ : (((replica 3).performAll (moves (.uniform 1) [(50, b), (51, c)])).store.get?
        (.uniform 1)).all (fun e => decide ([97] ∉ e.values (.make "cn"))) = true ∧
      (((replica 4).performAll (moves (.uniform 1) [(50, c), (51, b)])).store.get?
        (.uniform 1)).all (fun e => decide ([97] ∈ e.values (.make "cn"))) = true := by
    decide +kernel
  rw [hx.stored, Option.all_some, decide_eq_true_iff] at gone
  rw [hy.stored, Option.all_some, decide_eq_true_iff] at left
  exact gone ((alike.values _ (by decide +kernel) _).mpr left)

end Replica

end DirectoryHistory
