import DirectoryHistory.Proofs.Replica.Growth
import DirectoryHistory.Proofs.Replica.Runs

/-!
# Entries without a parent

A new entry goes below one that is stored, but nothing keeps the entries below a name in step with what
becomes of that name. An entry may be deleted or renamed while others are stored below it, and so may
the base. Those operations, and no others of clients, leave entries that are not the base and have no
stored parent.
-/

namespace DirectoryHistory

/-- An entry is stored right below `name`. -/
def Store.HasChild (s : Store) (name : DistinguishedName) : Prop :=
  ∃ id e, s.get? id = some e ∧ e.name.IsChildOf name

theorem Store.hasChild_congr {s : Store} {name name' : DistinguishedName}
    (same : name.folded = name'.folded) : s.HasChild name ↔ s.HasChild name' := by
  simp only [HasChild, DistinguishedName.isChildOf_congr_right same]

instance (s : Store) (name : DistinguishedName) : Decidable (s.HasChild name) :=
  decidable_of_iff (∃ e ∈ s.toList, e.name.IsChildOf name) <| by
    simp only [Store.mem_toList, Store.HasChild, ← exists_and_right]
    exact exists_comm

namespace Replica

/-- The name is that of the base, or below it with an entry above. -/
def Seats (r : Replica) (name : DistinguishedName) : Prop :=
  name.same r.base = true ∨ name.isBelow r.base = true ∧
    ∃ id p, r.store.get? id = some p ∧ name.IsChildOf p.name

/-- An operation that changes what is stored under a name in spite of an entry that needs it: the one
that is renamed is the base or has entries below it, the one that is deleted has entries below it, or
the digest of a new entry is that of a stored one, which gives way and was the parent of the new entry
or of others. -/
inductive Unseats (r : Replica) (now : Readings) : Operation → Prop
  | displaced {name : DistinguishedName} {attributes : Table Attribute (List Octets)} {f : Entry}
    (stored : r.store.get? (.generate name (r.clock.tick now.issuing).stamp) = some f)
    (needed : name.IsChildOf f.name ∨ r.store.HasChild f.name) : Unseats r now (.add name attributes)
  | renamed {name target : DistinguishedName} {leaf : RelativeName} {deleteOld : Bool}
    {superior : Option DistinguishedName} (named : targetName name leaf superior = .ok target)
    (moved : target.folded ≠ name.folded) (needed : name.same r.base = true ∨ r.store.HasChild name) :
    Unseats r now (.rename name leaf deleteOld superior)
  | deleted {name : DistinguishedName} (needed : r.store.HasChild name) : Unseats r now (.delete name)

instance (r : Replica) (now : Readings) (op : Operation) : Decidable (Unseats r now op) :=
  match op with
  | .add name _ =>
    decidable_of_iff (∃ f ∈ r.store.get? (.generate name (r.clock.tick now.issuing).stamp),
        name.IsChildOf f.name ∨ r.store.HasChild f.name)
      ⟨fun ⟨_, stored, needed⟩ => .displaced stored needed,
        fun | .displaced stored needed => ⟨_, stored, needed⟩⟩
  | .rename name leaf _ superior =>
    match named : targetName name leaf superior with
    | .ok target =>
      decidable_of_iff (target.folded ≠ name.folded ∧
          (name.same r.base = true ∨ r.store.HasChild name))
        ⟨fun ⟨moved, needed⟩ => .renamed named moved needed,
          fun | .renamed named' moved needed => Except.ok.inj (named'.symm.trans named) ▸ ⟨moved, needed⟩⟩
    | .error _ => isFalse fun | .renamed named' _ _ => nomatch named.symm.trans named'
  | .delete name =>
    decidable_of_iff (r.store.HasChild name) ⟨.deleted, fun | .deleted needed => needed⟩
  | .modify .. | .replay _ => isFalse nofun

variable {r r' : Replica} {now : Readings} {op : Operation} {id k : EntryId} {e f : Entry} {u : Update}
variable {name target : DistinguishedName}

theorem isRooted_iff_seats :
    r.IsRooted ↔ ∀ id e, r.store.get? id = some e → r.Seats e.name := by
  refine forall₃_congr fun id e stored => or_congr_right (and_congr_right fun below => ?_)
  simp only [DistinguishedName.isChildOf_iff_of_isBelow below]

instance (r : Replica) : Decidable r.IsRooted :=
  decidable_of_iff (∀ e ∈ r.store.toList, e.name.same r.base = true ∨ e.name.isBelow r.base = true ∧
      ∃ p ∈ r.store.toList, e.name.IsChildOf p.name) <| by
    simp only [isRooted_iff_seats, Seats, Store.mem_toList, ← exists_and_right, forall_exists_index]
    rw [forall_comm]
    simp only [exists_comm (α := Entry)]

theorem isRooted_of_empty (empty : r.store = .empty) : r.IsRooted := by
  intro id e stored
  rw [empty] at stored
  cases stored

theorem IsRooted.of_store (rooted : r.IsRooted) (store : r'.store = r.store)
    (base : r'.base = r.base) : r'.IsRooted := by
  rwa [IsRooted, store, base]

theorem Seats.isBelow_child (seats : r.Seats name) (child : target.IsChildOf name) :
    target.isBelow r.base = true :=
  child.isBelow_iff.mpr (seats.imp DistinguishedName.same_iff.mp And.left)

theorem Seats.not_same_base (seats : r.Seats name) (child : target.IsChildOf name) :
    ¬target.same r.base = true := by
  intro same
  have below := (DistinguishedName.isBelow_iff.mp (seats.isBelow_child child)).1
  have length := DistinguishedName.length_parts_eq (DistinguishedName.same_iff.mp same)
  omega

/-- A place in the tree is lost exactly right below the entry that gives its name up. -/
theorem Seats.iff_of_given_up (seats : r.Seats name) (seats' : r.Seats f.name)
    (indexed : r.store.IsIndexed) (base : r'.base = r.base) (stored : r.store.get? k = some f)
    (others : ∀ id, id ≠ k → r'.store.get? id = r.store.get? id)
    (gone : ∀ e, r'.store.get? k = some e → e.name.folded ≠ f.name.folded) :
    r'.Seats name ↔ ¬name.IsChildOf f.name := by
  constructor
  · intro after child
    rcases after with same | ⟨-, id, p, hp, child'⟩
    · exact seats'.not_same_base child (base ▸ same)
    -- The parent is no entry but the one that is gone.
    have named : p.name.folded = f.name.folded := Option.some.inj (child'.symm.trans child)
    by_cases own : id = k
    · exact gone p (own ▸ hp) named
    · rw [others id own] at hp
      obtain rfl := indexed.eq_of_folded_eq hp stored named
      exact own ((indexed.keyed id p hp).symm.trans (indexed.keyed k p stored))
  · intro apart
    rw [Seats, base]
    refine seats.imp_right fun ⟨below, id, p, hp, child⟩ => ⟨below, id, p, ?_, child⟩
    rw [others id ?_, hp]
    rintro rfl
    obtain rfl : p = f := Option.some.inj (hp.symm.trans stored)
    exact apart child

/-- Below an entry that gives its name up nothing may be stored, and what comes in its place needs a
place in the tree of its own. -/
theorem IsRooted.iff_of_given_up (rooted : r.IsRooted) (indexed : r.store.IsIndexed)
    (base : r'.base = r.base) (stored : r.store.get? k = some f)
    (others : ∀ id, id ≠ k → r'.store.get? id = r.store.get? id)
    (gone : ∀ e, r'.store.get? k = some e → e.name.folded ≠ f.name.folded) :
    r'.IsRooted ↔ (∀ e, r'.store.get? k = some e → r'.Seats e.name) ∧ ¬r.store.HasChild f.name := by
  have seats := isRooted_iff_seats.mp rooted
  have kept : ∀ {id e}, r.store.get? id = some e → (r'.Seats e.name ↔ ¬e.name.IsChildOf f.name) :=
    fun he => (seats _ _ he).iff_of_given_up (seats k f stored) indexed base stored others gone
  rw [isRooted_iff_seats]
  constructor
  · refine fun seats' => ⟨fun e => seats' k e, ?_⟩
    rintro ⟨id, e, he, child⟩
    have other : id ≠ k := by
      rintro rfl
      obtain rfl : e = f := Option.some.inj (he.symm.trans stored)
      have length := child.length_eq
      omega
    exact (kept he).mp (seats' id e ((others id other).trans he)) child
  · rintro ⟨moved, childless⟩ id e he
    by_cases own : id = k
    · exact moved e (own ▸ he)
    · rw [others id own] at he
      exact (kept he).mpr fun child => childless ⟨id, e, he, child⟩

/-- An entry that keeps its name up to case keeps its place and those below it theirs. -/
theorem IsRooted.of_respelled (rooted : r.IsRooted) (base : r'.base = r.base)
    (stored : r.store.get? k = some f) (stored' : r'.store.get? k = some e)
    (others : ∀ id, id ≠ k → r'.store.get? id = r.store.get? id)
    (same : e.name.folded = f.name.folded) : r'.IsRooted := by
  have kept : ∀ {d}, r.Seats d → r'.Seats d := by
    intro d seats
    rw [Seats, base]
    refine seats.imp_right fun ⟨below, id, p, hp, child⟩ => ⟨below, ?_⟩
    by_cases own : id = k
    · subst own
      obtain rfl : p = f := Option.some.inj (hp.symm.trans stored)
      exact ⟨id, e, stored', (DistinguishedName.isChildOf_congr_right same).mpr child⟩
    · exact ⟨id, p, (others id own).trans hp, child⟩
  rw [isRooted_iff_seats] at rooted ⊢
  intro id g hg
  by_cases own : id = k
  · subst own
    obtain rfl : g = e := Option.some.inj (hg.symm.trans stored')
    have seats := kept (rooted id f stored)
    simp only [Seats, DistinguishedName.same_iff, same, DistinguishedName.isBelow_congr same rfl,
      DistinguishedName.isChildOf_congr_left same] at seats ⊢
    exact seats
  · exact kept (rooted id g ((others id own).symm.trans hg))

theorem IsRooted.of_new (rooted : r.IsRooted) (base : r'.base = r.base)
    (absent : r.store.get? k = none) (others : ∀ id, id ≠ k → r'.store.get? id = r.store.get? id)
    (seats : ∀ e, r'.store.get? k = some e → r.Seats e.name) : r'.IsRooted := by
  refine rooted.of_kept base (fun id e he => ⟨e, ?_, rfl⟩) fun id e he => ?_
  · rw [others id, he]
    rintro rfl
    cases absent.symm.trans he
  · by_cases own : id = k
    · refine .inr ((seats e (own ▸ he)).imp_right fun ⟨below, id, p, hp, child⟩ => ?_)
      exact ⟨below, id, p, hp, (DistinguishedName.isChildOf_iff_of_isBelow below).mp child⟩
    · exact .inl ⟨e, (others id own).symm.trans he, rfl⟩

theorem stored_of_find (indexed : r.store.IsIndexed) (found : r.find name = .ok e) :
    r.store.get? e.id = some e ∧ e.name.folded = name.folded :=
  indexed.find?_eq_some_iff.mp (find?_of_find found)

theorem seats_of_parentOf (indexed : r.store.IsIndexed) {parent : Option EntryId}
    (place : r.parentOf name = .ok parent) : r.Seats name := by
  refine (placed_of_parentOf_eq_ok place).imp_right fun ⟨below, p, found⟩ => ?_
  obtain ⟨stored, named⟩ := indexed.find?_eq_some_iff.mp found
  exact ⟨below, p.id, p, stored, (DistinguishedName.isChildOf_iff_of_isBelow below).mpr named⟩

/-- A new entry has a place in the tree, and those below the others keep theirs, unless its digest is
that of an entry which is a parent. -/
theorem IsRooted.add_iff (rooted : r.IsRooted) (indexed : r.store.IsIndexed)
    {attributes : Table Attribute (List Octets)} {parent : Option EntryId} {stamp : Stamp}
    (stamped : stamp = (r.clock.tick now.issuing).stamp) (place : r.parentOf name = .ok parent)
    (free : r.store.find? name = none)
    (written : (r.tick now.issuing).create now.storing name (.generate name stamp) attributes stamp =
      .ok r') :
    r'.IsRooted ↔ ¬Unseats r now (.add name attributes) := by
  obtain ⟨base, stored, others⟩ := get?_of_persist written
  rw [id_newEntry, stamped] at stored others
  have seats := seats_of_parentOf indexed place
  have called : ∀ e, r'.store.get? (.generate name (r.clock.tick now.issuing).stamp) = some e →
      e.name = name := by
    intro e he
    rw [← Option.some.inj (stored.symm.trans he)]
    exact name_newEntry ..
  cases before : r.store.get? (.generate name (r.clock.tick now.issuing).stamp) with
  | none =>
    refine iff_of_true (rooted.of_new base before others fun e he => (called e he).symm ▸ seats) ?_
    rintro ⟨held, -⟩
    cases before.symm.trans held
  | some f =>
    have gone : ∀ e, r'.store.get? (.generate name (r.clock.tick now.issuing).stamp) = some e →
        e.name.folded ≠ f.name.folded := by
      intro e he same
      exact indexed.find?_eq_none_iff.mp free _ f before (same.symm.trans (by rw [called e he]))
    have seats' := isRooted_iff_seats.mp rooted _ f before
    rw [rooted.iff_of_given_up indexed base before others gone]
    constructor
    · rintro ⟨moved, childless⟩ ⟨held, needed⟩
      obtain rfl := Option.some.inj (before.symm.trans held)
      have after := moved _ stored
      rw [called _ stored, seats.iff_of_given_up seats' indexed base before others gone] at after
      exact needed.elim after childless
    · intro spares
      refine ⟨fun e he => ?_, fun child => spares (.displaced before (.inr child))⟩
      rw [called e he, seats.iff_of_given_up seats' indexed base before others gone]
      exact fun child => spares (.displaced before (.inl child))

/-- The name that a rename leads to has a place in the tree, unless the base is renamed. -/
theorem seats_of_targetName (rooted : r.IsRooted) (indexed : r.store.IsIndexed)
    {leaf : RelativeName} {superior : Option DistinguishedName} {superiorId : Option EntryId}
    (above : r.findSuperior superior = .ok superiorId) (found : r.find name = .ok e)
    (named : targetName name leaf superior = .ok target) (inner : ¬name.same r.base = true) :
    r.Seats target := by
  have seats := isRooted_iff_seats.mp rooted
  obtain ⟨p, parent, rfl, -⟩ := of_targetName_eq_ok named
  obtain ⟨id, q, hq, called⟩ : ∃ id q, r.store.get? id = some q ∧ p.folded = q.name.folded := by
    cases superior with
    | some s =>
      obtain rfl : s = p := Option.some.inj parent
      simp only [findSuperior] at above
      split at above
      · next q found =>
        obtain ⟨hq, called⟩ := indexed.find?_eq_some_iff.mp found
        exact ⟨q.id, q, hq, called.symm⟩
      · cases above
    | none =>
      obtain ⟨stored, same⟩ := stored_of_find indexed found
      rcases seats e.id e stored with base | ⟨-, id, q, hq, child⟩
      · rw [DistinguishedName.same_iff, same, ← DistinguishedName.same_iff] at base
        exact absurd base inner
      · rw [DistinguishedName.isChildOf_congr_left same, DistinguishedName.IsChildOf,
          show name.parent? = some p from parent] at child
        exact ⟨id, q, hq, Option.some.inj child⟩
  have child : (p.child leaf).IsChildOf q.name :=
    (DistinguishedName.isChildOf_congr_right called).mp (DistinguishedName.isChildOf_child p leaf)
  exact .inr ⟨(seats id q hq).isBelow_child child, id, q, hq, child⟩

/-- A rename that changes more than the case of a name takes it from the entries below, and the base
out of its own tree. -/
theorem IsRooted.rename_iff (rooted : r.IsRooted) (indexed : r.store.IsIndexed) {leaf : RelativeName}
    {deleteOld : Bool} {superior : Option DistinguishedName} {superiorId : Option EntryId}
    {h : History} {clock : Clock} (above : r.findSuperior superior = .ok superiorId)
    (found : r.find name = .ok e) (named : targetName name leaf superior = .ok target)
    (written : ({ r with clock } : Replica).persist now.storing ⟨renameEntry e target leaf deleteOld, h⟩ =
      .ok r') : r'.IsRooted ↔ ¬Unseats r now (.rename name leaf deleteOld superior) := by
  obtain ⟨base, stored, others⟩ := get?_of_persist written
  rw [id_renameEntry] at stored others
  obtain ⟨before, same⟩ := stored_of_find indexed found
  have called : ∀ f, r'.store.get? e.id = some f → f.name = target := by
    intro f hf
    rw [← Option.some.inj (stored.symm.trans hf)]
    exact name_renameEntry ..
  have unseats : Unseats r now (.rename name leaf deleteOld superior) ↔
      target.folded ≠ name.folded ∧ (name.same r.base = true ∨ r.store.HasChild name) := by
    constructor
    · rintro (_ | ⟨named', moved, needed⟩ | _)
      obtain rfl := Except.ok.inj (named.symm.trans named')
      exact ⟨moved, needed⟩
    · exact fun ⟨moved, needed⟩ => .renamed named moved needed
  by_cases moved : target.folded = name.folded
  · refine iff_of_true (rooted.of_respelled base before stored others ?_) ?_
    · rw [called _ stored, moved, same]
    · exact fun bad => (unseats.mp bad).1 moved
  have gone : ∀ f, r'.store.get? e.id = some f → f.name.folded ≠ e.name.folded := by
    intro f hf
    rw [called f hf, same]
    exact moved
  rw [rooted.iff_of_given_up indexed base before others gone, unseats, Store.hasChild_congr same]
  obtain ⟨p, -, rfl, apart⟩ := of_targetName_eq_ok named
  have place : (∀ f, r'.store.get? e.id = some f → r'.Seats f.name) ↔ ¬name.same r.base = true := by
    constructor
    · intro seats own
      rw [DistinguishedName.same_iff] at own
      have after := seats _ stored
      rw [called _ stored, Seats, base, DistinguishedName.same_iff, ← own,
        ← DistinguishedName.isBelow_congr rfl own] at after
      exact after.elim moved fun below => apart below.1
    · intro inner f hf
      rw [called f hf, (seats_of_targetName rooted indexed above found named inner).iff_of_given_up
        (isRooted_iff_seats.mp rooted _ e before) indexed base before others gone]
      intro child
      exact apart (child.isBelow_iff.mpr (.inl same))
  rw [place]
  simp [moved]

theorem IsRooted.delete_iff (rooted : r.IsRooted) (indexed : r.store.IsIndexed)
    (found : r.find name = .ok e) :
    IsRooted { r with clock := r.clock.tick now.issuing, store := r.store.remove e.id } ↔
      ¬Unseats r now (.delete name) := by
  obtain ⟨stored, same⟩ := stored_of_find indexed found
  have gone : (r.store.remove e.id).get? e.id = none := by rw [Store.get?_remove, if_pos rfl]
  have childless : IsRooted { r with clock := r.clock.tick now.issuing, store := r.store.remove e.id } ↔
      _ ∧ ¬r.store.HasChild e.name :=
    rooted.iff_of_given_up indexed rfl stored
      (fun id other => by rw [Store.get?_remove, if_neg other]) (by simp [gone])
  rw [childless, Store.hasChild_congr same]
  constructor
  · rintro ⟨-, childless⟩ (_ | _ | needed)
    exact childless needed
  · exact fun spares => ⟨by simp [gone], fun needed => spares (.deleted needed)⟩

/-- An operation of a client keeps the tree exactly if it unseats no entry. -/
theorem Sends.isRooted_iff (sends : Sends r now op u r') (rooted : r.IsRooted)
    (indexed : r.store.IsIndexed) : r'.IsRooted ↔ ¬Unseats r now op := by
  cases sends with
  | add stamped place free written => exact rooted.add_iff indexed stamped place free written
  | @modify name mods abandon q t ending tally r' stamped found taken valid written =>
    refine iff_of_true ?_ nofun
    obtain ⟨e, found, read⟩ := of_findTracked_eq_ok found
    obtain ⟨before, -⟩ := stored_of_find indexed found
    obtain ⟨base, stored, others⟩ := get?_of_persist written
    have own : (t.afterRequest r.schema q).entry.id = e.id :=
      (Tracked.id_foldl_step _ t).trans (congrArg Entry.id (Tracked.entry_of_ofEntry read))
    rw [own] at stored others
    have named : (t.afterRequest r.schema q).entry.name = e.name :=
      (Tracked.name_foldl_step _ t).trans (congrArg Entry.name (Tracked.entry_of_ofEntry read))
    exact rooted.of_respelled base before stored others (congrArg DistinguishedName.folded named)
  | rename stamped above found named free read written =>
    exact rooted.rename_iff indexed above found named written
  | delete found => exact rooted.delete_iff indexed found

variable {run : List (Readings × Operation)}

/-- Along a run of clients from an empty store, every entry is the base or lies below a stored one if
and only if no operation takes away a name that is still needed. -/
theorem isRooted_along_iff (empty : r.store = .empty)
    (clients : ∀ p ∈ run, p.2.isOfClient = true) :
    (∀ before, before <+: run → (r.performAll before).IsRooted) ↔
      ∀ before now op u, before ++ [(now, op)] <+: run →
        ((r.performAll before).answer now op).sent? = some u →
        ¬Unseats (r.performAll before) now op := by
  have indexed : r.store.IsIndexed := empty ▸ Store.isIndexed_empty
  refine forall_prefix_iff_of_client (fun r now op _ => ¬Unseats r now op) clients
    (isRooted_of_empty empty) (fun r r' store base _ rooted => rooted.of_store store base) ?_
  exact fun before now op u within rooted sends =>
    sends.isRooted_iff rooted (indexed.performAll before)

/-- A unit may be renamed when nothing is left below it. -/
theorem isRooted_along_iff_emptied :
    let base : DistinguishedName := ⟨[⟨"o", "test"⟩]⟩
    let unit := base.child ⟨"ou", "p"⟩
    let run : List (Readings × Operation) := [(10, .add base .empty), (20, .add unit .empty),
      (30, .add (unit.child ⟨"cn", "a"⟩) .empty),
      (40, .rename (unit.child ⟨"cn", "A"⟩) ⟨"cn", "a"⟩ true (some base)),
      (50, .rename unit ⟨"ou", "q"⟩ true none)]
    ∀ before, before <+: run → ((make 1 base ⟨[]⟩ none .empty).performAll before).IsRooted := by
  intro base unit run
  let r := make 1 base ⟨[]⟩ none .empty
  have spares : ∀ i : Fin run.length, ¬Unseats (r.performAll (run.take i)) run[i].1 run[i].2 := by
    decide +kernel
  refine (isRooted_along_iff rfl (by decide)).mpr fun before now op u within _ => ?_
  exact forall_prefix_snoc_iff (F := fun before now op => ¬Unseats (r.performAll before) now op).mpr
    spares before now op within

/-- An entry stays where it was when the unit above it is renamed. -/
theorem isRooted_of_performAll_renamed : ¬∀ (r : Replica) (run : List (Readings × Operation)),
    r.store = .empty → (∀ p ∈ run, p.2.isOfClient = true) →
    (∀ before now op, before ++ [(now, op)] <+: run →
      ((r.performAll before).answer now op).sent?.isSome = true) →
    (r.performAll run).IsRooted := by
  intro rooted
  let base : DistinguishedName := ⟨[⟨"o", "test"⟩]⟩
  let unit := base.child ⟨"ou", "p"⟩
  let run : List (Readings × Operation) := [(10, .add base .empty), (20, .add unit .empty),
    (30, .add (unit.child ⟨"cn", "a"⟩) .empty), (40, .rename unit ⟨"ou", "q"⟩ true none)]
  let r := make 1 base ⟨[]⟩ none .empty
  obtain ⟨done, torn⟩ : (∀ i : Fin run.length,
      ((r.performAll (run.take i)).answer run[i].1 run[i].2).sent?.isSome = true) ∧
      ¬(r.performAll run).IsRooted := by decide +kernel
  refine torn (rooted r run rfl (by decide) ?_)
  exact forall_prefix_snoc_iff
    (F := fun before now op => ((r.performAll before).answer now op).sent?.isSome = true) |>.mpr done

end Replica

end DirectoryHistory
