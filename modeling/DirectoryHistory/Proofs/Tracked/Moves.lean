import DirectoryHistory.Proofs.Replica.Renaming
import DirectoryHistory.Proofs.Stamp.Order
import DirectoryHistory.Proofs.Text.Case

/-!
# Renames in any order

Only the stamp of the newest rename is remembered, so of the renames that reach an entry those take
effect that are newer than all that came before. The newest one always does, and the others may or may
not. All orders leave the entry alike if and only if an older rename that takes effect has nothing to
say that the newest one does not say again: where the entry goes, and what becomes of the values of
the leaves that it had in between.
-/

namespace DirectoryHistory

/-- What a message about a rename says, apart from the entry that it is about. -/
structure Move where
  stamp : Stamp
  name : DistinguishedName
  leaf : RelativeName
  deleteOld : Bool
  superior : Option DistinguishedName
  superiorId : Option EntryId
  deriving DecidableEq

def Move.update (id : EntryId) (m : Move) : Update :=
  ⟨m.stamp, m.name, id, .rename m.leaf m.deleteOld m.superior m.superiorId⟩

theorem RelativeName.same_refl (l : RelativeName) : l.same l = true :=
  beq_self_eq_true _

namespace Tracked

open History (admitsRename_iff)

variable {goal : Move → Option DistinguishedName} {t u x y : Tracked} {leaves : List RelativeName}
variable {c k l leaf : RelativeName} {a : Attribute} {v : Octets} {ms run : List Move} {m last : Move}
variable {above : DistinguishedName}

/-- The entry after a rename that leads below `goal m`, if that is given. -/
def move (goal : Move → Option DistinguishedName) (t : Tracked) (m : Move) : Tracked :=
  if t.history.admitsRename m.stamp then
    match (goal m).or t.entry.name.parent? with
    | some parent => t.rename (parent.child m.leaf) m.leaf m.deleteOld m.stamp
    | none => t
  else t

/-- The entry holds the value of the leaf as it is written. -/
def Bears (t : Tracked) (l : RelativeName) : Prop :=
  Octets.ofText l.value ∈ t.entry.values (.make l.attr)

instance (t : Tracked) : DecidablePred t.Bears := fun _ =>
  inferInstanceAs (Decidable (_ ∈ _))

/-- The leaves are different names, and the entry holds their values only as they are written. -/
structure IsSpelled (t : Tracked) (leaves : List RelativeName) : Prop where
  tidy : ∀ l ∈ leaves, l.IsTidy
  user : ∀ l ∈ leaves, (Attribute.make l.attr).isHistory = false
  apart : ∀ l ∈ leaves, ∀ k ∈ leaves, l.same k = true → l = k
  exact : ∀ l ∈ leaves, ∀ v ∈ t.entry.values (.make l.attr),
    Replica.sameIgnoringCase v (.ofText l.value) = true → v = .ofText l.value

/-- The entry is called by the leaf `c`, one of those that are spelled in one way. -/
structure IsCalled (t : Tracked) (leaves : List RelativeName) (c : RelativeName) : Prop where
  spelled : t.IsSpelled leaves
  leaf_eq : t.entry.name.leaf? = some c
  mem : c ∈ leaves

/-- An entry called by `c` before and after a rename that takes effect. -/
structure IsMoved (goal : Move → Option DistinguishedName) (leaves : List RelativeName)
    (c : RelativeName) (m : Move) (t u : Tracked) : Prop where
  called : u.IsCalled leaves m.leaf
  parent : u.entry.name.parent? = (goal m).or t.entry.name.parent?
  renamed : u.history.renamed = some m.stamp
  bears : ∀ k ∈ leaves, u.Bears k ↔
    k = m.leaf ∨ t.Bears k ∧ ¬(m.deleteOld = true ∧ c ≠ m.leaf ∧ k = c)
  others : ∀ a v, (∀ l ∈ leaves, ¬l.Writes a v) → (v ∈ u.entry.values a ↔ v ∈ t.entry.values a)

/-- Two entries have the same name, and the same values of user attributes. -/
structure LooksLike (t u : Tracked) : Prop where
  name : t.entry.name.same u.entry.name = true
  values : ∀ a, a.isHistory = false → ∀ v, v ∈ t.entry.values a ↔ v ∈ u.entry.values a

theorem IsSpelled.writes_of_gives (h : t.IsSpelled leaves) (hl : l ∈ leaves)
    (hv : v ∈ t.entry.values a) (given : l.Gives a v) : l.Writes a v := by
  obtain ⟨rfl, same⟩ := given
  exact ⟨rfl, h.exact l hl v hv same⟩

theorem IsSpelled.eq_of_gives (h : t.IsSpelled leaves) (hl : l ∈ leaves) (hk : k ∈ leaves)
    (given : l.Gives a v) (written : k.Writes a v) : l = k :=
  h.apart l hl k hk (RelativeName.same_of_gives (h.tidy l hl) (h.tidy k hk) given written.gives)

theorem IsSpelled.writes_iff (h : t.IsSpelled leaves) (hl : l ∈ leaves) (hk : k ∈ leaves) :
    l.Writes (.make k.attr) (.ofText k.value) ↔ k = l := by
  constructor
  · intro written
    exact (h.eq_of_gives hl hk written.gives ⟨rfl, rfl⟩).symm
  · rintro rfl
    exact ⟨rfl, rfl⟩

theorem IsCalled.mem_values_rename (h : t.IsCalled leaves c) (hl : leaf ∈ leaves)
    (name : DistinguishedName) (deleteOld : Bool) (s : Stamp) :
    v ∈ (t.rename name leaf deleteOld s).entry.values a ↔ leaf.Writes a v ∨
      v ∈ t.entry.values a ∧ ¬(deleteOld = true ∧ c ≠ leaf ∧ c.Writes a v) := by
  have differs : c.same leaf = true ↔ c = leaf :=
    ⟨h.spelled.apart c h.mem leaf hl, fun same => same ▸ c.same_refl⟩
  have drops : ∀ old, old ∈ Replica.dropped? t.entry.name leaf deleteOld ↔
      old = c ∧ deleteOld = true ∧ c ≠ leaf := by
    intro old
    rw [Replica.dropped?, h.leaf_eq, Option.mem_def, Option.filter_eq_some_iff, ne_eq, ← differs,
      Bool.and_eq_true, Bool.not_eq_true', Option.some.injEq, Bool.not_eq_true]
    constructor
    · rintro ⟨rfl, drop⟩
      exact ⟨rfl, drop⟩
    · rintro ⟨rfl, drop⟩
      exact ⟨rfl, drop⟩
  have result := (t.isRenamed_slot name leaf deleteOld s a).mem_held_iff_of_exact
    (fun w hw => h.spelled.writes_of_gives hl hw) v
  refine result.trans ⟨?_, ?_⟩
  · rintro ⟨held | written, spared⟩
    · refine .inr ⟨held, ?_⟩
      rintro ⟨drop, ne, written⟩
      exact spared c ((drops c).mpr ⟨rfl, drop, ne⟩) written.gives
    · exact .inl written
  · rintro (written | ⟨held, spared⟩)
    · refine ⟨.inr written, fun old hold given => ?_⟩
      obtain ⟨rfl, -, ne⟩ := (drops old).mp hold
      exact ne (h.spelled.eq_of_gives h.mem hl given written)
    · refine ⟨.inl held, fun old hold given => ?_⟩
      obtain ⟨rfl, drop, ne⟩ := (drops old).mp hold
      exact spared ⟨drop, ne, h.spelled.writes_of_gives h.mem held given⟩

theorem IsCalled.isMoved (h : t.IsCalled leaves c) (hm : m.leaf ∈ leaves)
    (admitted : t.history.admitsRename m.stamp = true) (goal : Move → Option DistinguishedName) :
    IsMoved goal leaves c m t (t.move goal m) := by
  obtain ⟨parent, hp⟩ : ∃ parent, (goal m).or t.entry.name.parent? = some parent := by
    have named := h.leaf_eq
    cases goal m with
    | some p => exact ⟨p, rfl⟩
    | none =>
      simp only [DistinguishedName.leaf?] at named
      cases parts : t.entry.name.parts with
      | nil => simp [parts] at named
      | cons n rest => exact ⟨⟨rest⟩, by simp [DistinguishedName.parent?, parts]⟩
  have moved : t.move goal m = t.rename (parent.child m.leaf) m.leaf m.deleteOld m.stamp := by
    simp only [move, if_pos admitted, hp]
  have values := fun a v => h.mem_values_rename (a := a) (v := v) hm (parent.child m.leaf)
    m.deleteOld m.stamp
  have called : (t.rename (parent.child m.leaf) m.leaf m.deleteOld m.stamp).entry.name =
    parent.child m.leaf := Replica.name_renameEntry ..
  rw [moved]
  refine ⟨⟨⟨h.spelled.tidy, h.spelled.user, h.spelled.apart, fun l hl v hv same => ?_⟩, ?_, hm⟩,
    ?_, ?_, fun k hk => ?_, fun a v others => ?_⟩
  · obtain written | ⟨held, -⟩ := (values _ v).mp hv
    · obtain rfl := h.spelled.eq_of_gives hl hm ⟨rfl, same⟩ written
      exact written.2
    · exact h.spelled.exact l hl v held same
  · rw [called]
    rfl
  · rw [called, hp]
    rfl
  · rw [rename, History.renamed_rename]
    exact if_pos admitted
  · rw [Bears, values, h.spelled.writes_iff hm hk, h.spelled.writes_iff h.mem hk]
    rfl
  · rw [values, or_iff_right (others m.leaf hm), and_iff_left]
    exact fun written => others c h.mem written.2.2

theorem move_of_stale (stale : ¬t.history.admitsRename m.stamp = true) : t.move goal m = t :=
  if_neg stale

theorem timeline_move (goal : Move → Option DistinguishedName) (t : Tracked) (m : Move)
    (a : Attribute) : (t.move goal m).history.timeline a = t.history.timeline a := by
  simp only [move]
  split
  · split
    · exact History.timeline_rename ..
    · rfl
  · rfl

theorem parent?_move (goal : Move → Option DistinguishedName) (t : Tracked) (m : Move) :
    (t.move goal m).entry.name.parent? = t.entry.name.parent? ∨
      (t.move goal m).entry.name.parent? = (goal m).or t.entry.name.parent? := by
  simp only [move]
  split
  · split
    · next parent goes =>
      have called : (t.rename (parent.child m.leaf) m.leaf m.deleteOld m.stamp).entry.name =
        parent.child m.leaf := Replica.name_renameEntry ..
      rw [called, goes]
      exact .inr rfl
    · exact .inl rfl
  · exact .inl rfl

theorem foldl_move_congr {goal' : Move → Option DistinguishedName}
    (same : ∀ m ∈ run, goal' m = goal m) (t : Tracked) :
    run.foldl (move goal') t = run.foldl (move goal) t := by
  induction run generalizing t with
  | nil => rfl
  | cons m rest ih =>
    have first : t.move goal' m = t.move goal m := by
      simp only [move, same m (.head _)]
    rw [List.foldl_cons, List.foldl_cons, first]
    exact ih (fun m hm => same m (.tail _ hm)) _

/-- An entry called `leaf` below `above` that holds the value of its leaf, and renames of it, of which
`last` is the newest. -/
structure Awaits (t : Tracked) (above : DistinguishedName) (leaf : RelativeName) (ms : List Move)
    (last : Move) : Prop where
  named : t.entry.name = above.child leaf
  bears : t.Bears leaf
  spelled : t.IsSpelled (leaf :: ms.map Move.leaf)
  mem : last ∈ ms
  newest : ∀ m ∈ ms, m ≠ last → m.stamp < last.stamp

/-- The rename takes effect unless a newer one comes first. -/
structure IsOvertaken (t : Tracked) (ms : List Move) (last m : Move) : Prop where
  mem : m ∈ ms
  ne : m ≠ last
  admitted : t.history.admitsRename m.stamp = true

/-- What the older renames say, as far as they may take effect, the newest one says as well. -/
structure AreCompatible (goal : Move → Option DistinguishedName) (t : Tracked)
    (above : DistinguishedName) (leaf : RelativeName) (ms : List Move) (last : Move) : Prop where
  /-- The newest rename tells where the entry goes, or the older ones leave it where it is. -/
  parents : (goal last).isSome = true ∨
    ∀ m, t.IsOvertaken ms last m → ∀ p ∈ goal m, p.folded = above.folded
  /-- A leaf that an older rename may find goes or stays as the newest one has it. -/
  drops : ∀ m, t.IsOvertaken ms last m →
    ∀ c, c = leaf ∨ (∃ m', t.IsOvertaken ms last m' ∧ m'.stamp < m.stamp ∧ c = m'.leaf) →
      c ≠ m.leaf → c ≠ last.leaf → m.deleteOld = last.deleteOld
  /-- The newest rename drops the leaf of an older one if it brought the value to the entry. -/
  values : ∀ m, t.IsOvertaken ms last m → m.leaf ≠ last.leaf → m.leaf ≠ leaf →
    (last.deleteOld = true ↔ ¬t.Bears m.leaf)

/-- The entry after renames among `ms`, but not the newest one. -/
structure IsMidway (goal : Move → Option DistinguishedName) (t : Tracked)
    (above : DistinguishedName) (leaf : RelativeName) (ms : List Move) (last : Move)
    (c : RelativeName) (x : Tracked) : Prop where
  called : x.IsCalled (leaf :: ms.map Move.leaf) c
  source : x.history.renamed = t.history.renamed ∧ c = leaf ∨
    ∃ m, t.IsOvertaken ms last m ∧ x.history.renamed = some m.stamp ∧ c = m.leaf
  parent : (goal last).isSome = true ∨
    ∃ p, x.entry.name.parent? = some p ∧ p.folded = above.folded
  bears : ∀ k ∈ leaf :: ms.map Move.leaf, k ≠ last.leaf →
    (x.Bears k ↔ k = c ∨ t.Bears k ∧ ¬(last.deleteOld = true ∧ k = leaf))
  others : ∀ a v, (∀ l ∈ leaf :: ms.map Move.leaf, ¬l.Writes a v) →
    (v ∈ x.entry.values a ↔ v ∈ t.entry.values a)

/-- The entry after renames among `ms`, the newest one included. -/
structure IsSettled (goal : Move → Option DistinguishedName) (t : Tracked)
    (above : DistinguishedName) (leaf : RelativeName) (ms : List Move) (last : Move)
    (x : Tracked) : Prop where
  name : x.entry.name.folded = (((goal last).getD above).child last.leaf).folded
  renamed : x.history.renamed = some last.stamp
  bears : ∀ k ∈ leaf :: ms.map Move.leaf,
    (x.Bears k ↔ k = last.leaf ∨ t.Bears k ∧ ¬(last.deleteOld = true ∧ k = leaf))
  others : ∀ a v, (∀ l ∈ leaf :: ms.map Move.leaf, ¬l.Writes a v) →
    (v ∈ x.entry.values a ↔ v ∈ t.entry.values a)

theorem Awaits.isCalled (h : t.Awaits above leaf ms last) :
    t.IsCalled (leaf :: ms.map Move.leaf) leaf where
  spelled := h.spelled
  leaf_eq := by
    rw [h.named]
    rfl
  mem := .head _

theorem Awaits.isMidway (h : t.Awaits above leaf ms last) (goal : Move → Option DistinguishedName) :
    IsMidway goal t above leaf ms last leaf t where
  called := h.isCalled
  source := .inl ⟨rfl, rfl⟩
  parent := .inr ⟨above, by rw [h.named]; rfl, rfl⟩
  bears k hk ne := by
    constructor
    · intro bears
      exact or_iff_not_imp_left.mpr fun other => ⟨bears, fun dropped => other dropped.2⟩
    · rintro (rfl | ⟨bears, -⟩)
      · exact h.bears
      · exact bears
  others a v _ := Iff.rfl

/-- The newest rename leaves the value of a leaf that it finds as it is without the older ones. -/
theorem AreCompatible.bears_iff (compatible : AreCompatible goal t above leaf ms last)
    (h : t.Awaits above leaf ms last) (source : c = leaf ∨ ∃ m, t.IsOvertaken ms last m ∧ c = m.leaf)
    (ne : c ≠ last.leaf) :
    t.Bears c ∧ ¬(last.deleteOld = true ∧ c = leaf) ↔ ¬last.deleteOld = true := by
  by_cases start : c = leaf
  · subst start
    simp [h.bears]
  · obtain ⟨m, overtaken, rfl⟩ := source.resolve_left start
    have values := compatible.values m overtaken ne start
    tauto

theorem IsMidway.move (h : IsMidway goal t above leaf ms last c x)
    (awaits : t.Awaits above leaf ms last) (compatible : AreCompatible goal t above leaf ms last)
    (hm : m ∈ ms) (other : m ≠ last) : ∃ c', IsMidway goal t above leaf ms last c' (x.move goal m) := by
  by_cases admitted : x.history.admitsRename m.stamp = true
  swap
  · exact ⟨c, (move_of_stale admitted).symm ▸ h⟩
  have hl : m.leaf ∈ leaf :: ms.map Move.leaf := .tail _ (List.mem_map_of_mem hm)
  have moved := h.called.isMoved hl admitted goal
  have overtaken : t.IsOvertaken ms last m := by
    refine ⟨hm, other, admitsRename_iff.mpr fun r hr => ?_⟩
    obtain ⟨same, -⟩ | ⟨m', overtaken, renamed, -⟩ := h.source
    · exact admitsRename_iff.mp admitted r (same ▸ hr)
    · exact (admitsRename_iff.mp overtaken.admitted r hr).trans
        (admitsRename_iff.mp admitted m'.stamp renamed)
  have earlier : c = leaf ∨ ∃ m', t.IsOvertaken ms last m' ∧ m'.stamp < m.stamp ∧ c = m'.leaf := by
    obtain ⟨-, start⟩ | ⟨m', overtaken', renamed, rfl⟩ := h.source
    · exact .inl start
    · exact .inr ⟨m', overtaken', admitsRename_iff.mp admitted m'.stamp renamed, rfl⟩
  refine ⟨m.leaf, moved.called, .inr ⟨m, overtaken, moved.renamed, rfl⟩, ?_, fun k hk ne => ?_,
    fun a v written => (moved.others a v written).trans (h.others a v written)⟩
  · obtain ⟨p, hp, same⟩ | given := h.parent.symm
    · refine compatible.parents.imp id fun stay => ?_
      rw [moved.parent]
      cases goes : goal m with
      | some q => exact ⟨q, rfl, stay m overtaken q goes⟩
      | none => exact ⟨p, hp, same⟩
    · exact .inl given
  · rw [moved.bears k hk]
    refine or_congr_right' fun fresh => ?_
    by_cases found : k = c
    · subst found
      have source : k = leaf ∨ ∃ m', t.IsOvertaken ms last m' ∧ k = m'.leaf :=
        earlier.imp id fun ⟨m', overtaken', _, same⟩ => ⟨m', overtaken', same⟩
      rw [compatible.bears_iff awaits source ne,
        and_iff_right ((h.bears k hk ne).mpr (.inl rfl)),
        compatible.drops m overtaken k earlier fresh ne]
      simp [fresh]
    · rw [h.bears k hk ne, or_iff_right found, and_iff_left]
      exact fun dropped => found dropped.2.2

theorem IsMidway.settle (h : IsMidway goal t above leaf ms last c x)
    (awaits : t.Awaits above leaf ms last) (compatible : AreCompatible goal t above leaf ms last)
    (admitted : t.history.admitsRename last.stamp = true) :
    IsSettled goal t above leaf ms last (x.move goal last) := by
  have hl : last.leaf ∈ leaf :: ms.map Move.leaf := .tail _ (List.mem_map_of_mem awaits.mem)
  have admitted : x.history.admitsRename last.stamp = true := by
    refine admitsRename_iff.mpr fun r hr => ?_
    obtain ⟨same, -⟩ | ⟨m, overtaken, renamed, -⟩ := h.source
    · exact admitsRename_iff.mp admitted r (same ▸ hr)
    · obtain rfl := Option.some.inj (renamed.symm.trans hr)
      exact awaits.newest m overtaken.mem overtaken.ne
  have moved := h.called.isMoved hl admitted goal
  refine ⟨?_, moved.renamed, fun k hk => ?_,
    fun a v written => (moved.others a v written).trans (h.others a v written)⟩
  · obtain ⟨p, hp⟩ : ∃ p, (goal last).or x.entry.name.parent? = some p ∧
        p.folded = ((goal last).getD above).folded := by
      cases goes : goal last with
      | some p => exact ⟨p, rfl, rfl⟩
      | none => exact (goes ▸ h.parent).resolve_left nofun
    rw [DistinguishedName.eq_child moved.called.leaf_eq (moved.parent.trans hp.1),
      DistinguishedName.folded_child, DistinguishedName.folded_child, hp.2]
  · rw [moved.bears k hk]
    refine or_congr_right' fun fresh => ?_
    by_cases found : k = c
    · subst found
      have source : k = leaf ∨ ∃ m, t.IsOvertaken ms last m ∧ k = m.leaf :=
        h.source.imp And.right fun ⟨m, overtaken, _, same⟩ => ⟨m, overtaken, same⟩
      rw [compatible.bears_iff awaits source fresh,
        and_iff_right ((h.bears k hk fresh).mpr (.inl rfl))]
      simp [fresh]
    · rw [h.bears k hk fresh, or_iff_right found, and_iff_left]
      exact fun dropped => found dropped.2.2

theorem IsSettled.move (h : IsSettled goal t above leaf ms last x)
    (awaits : t.Awaits above leaf ms last) (hm : m ∈ ms) :
    IsSettled goal t above leaf ms last (x.move goal m) := by
  have stale : ¬x.history.admitsRename m.stamp = true := by
    intro admitted
    have newer := admitsRename_iff.mp admitted last.stamp h.renamed
    by_cases same : m = last
    · exact lt_irrefl _ (same ▸ newer)
    · exact lt_asymm newer (awaits.newest m hm same)
  exact (move_of_stale stale).symm ▸ h

theorem IsSettled.looksLike (h : IsSettled goal t above leaf ms last x)
    (h' : IsSettled goal t above leaf ms last y) : x.LooksLike y where
  name := DistinguishedName.same_iff.mpr (h.name.trans h'.name.symm)
  values a _ v := by
    by_cases written : ∃ l ∈ leaf :: ms.map Move.leaf, l.Writes a v
    · obtain ⟨l, hl, rfl, rfl⟩ := written
      exact (h.bears l hl).trans (h'.bears l hl).symm
    · have others : ∀ l ∈ leaf :: ms.map Move.leaf, ¬l.Writes a v :=
        fun l hl written' => written ⟨l, hl, written'⟩
      exact (h.others a v others).trans (h'.others a v others).symm

theorem foldl_move_of_stale (stale : ∀ m ∈ run, ¬t.history.admitsRename m.stamp = true) :
    run.foldl (move goal) t = t := by
  induction run with
  | nil => rfl
  | cons m rest ih =>
    rw [List.foldl_cons, move_of_stale (stale m (.head _))]
    exact ih fun m hm => stale m (.tail _ hm)

theorem IsSettled.foldl_move (h : IsSettled goal t above leaf ms last x)
    (awaits : t.Awaits above leaf ms last) (among : ∀ m ∈ run, m ∈ ms) :
    IsSettled goal t above leaf ms last (run.foldl (Tracked.move goal) x) := by
  induction run generalizing x with
  | nil => exact h
  | cons m rest ih =>
    exact ih (h.move awaits (among m (.head _))) fun m hm => among m (.tail _ hm)

theorem IsMidway.foldl_move (h : IsMidway goal t above leaf ms last c x)
    (awaits : t.Awaits above leaf ms last) (compatible : AreCompatible goal t above leaf ms last)
    (among : ∀ m ∈ run, m ∈ ms) (without : last ∉ run) :
    ∃ c', IsMidway goal t above leaf ms last c' (run.foldl (Tracked.move goal) x) := by
  induction run generalizing c x with
  | nil => exact ⟨c, h⟩
  | cons m rest ih =>
    obtain ⟨other, without⟩ := not_or.mp fun first => without (List.mem_cons.mpr first)
    obtain ⟨c', h'⟩ := h.move awaits compatible (among m (.head _)) (Ne.symm other)
    exact ih h' (fun m hm => among m (.tail _ hm)) without

/-- However often compatible renames are delivered and in whatever order, they settle. -/
theorem Awaits.isSettled (awaits : t.Awaits above leaf ms last)
    (compatible : AreCompatible goal t above leaf ms last)
    (admitted : t.history.admitsRename last.stamp = true) (among : ∀ m ∈ run, m ∈ ms)
    (delivered : last ∈ run) : IsSettled goal t above leaf ms last (run.foldl (move goal) t) := by
  obtain ⟨before, after, rfl, first⟩ := List.eq_append_cons_of_mem delivered
  obtain ⟨among, others⟩ := List.forall_mem_append.mp among
  obtain ⟨c, midway⟩ := (awaits.isMidway goal).foldl_move awaits compatible among first
  rw [List.foldl_append, List.foldl_cons]
  exact (midway.settle awaits compatible admitted).foldl_move awaits fun m hm => others m (.tail _ hm)

theorem LooksLike.refl (t : Tracked) : t.LooksLike t :=
  ⟨beq_self_eq_true _, fun _ _ _ => Iff.rfl⟩

theorem LooksLike.bears_iff (h : x.LooksLike y) (user : (Attribute.make k.attr).isHistory = false) :
    x.Bears k ↔ y.Bears k :=
  h.values _ user _

/-- All orders in which the renames may be delivered, each once, leave the entry alike. -/
def Converges (goal : Move → Option DistinguishedName) (t : Tracked) (ms : List Move) : Prop :=
  ∀ run run' : List Move, run.Perm ms → run'.Perm ms →
    (run.foldl (move goal) t).LooksLike (run'.foldl (move goal) t)

/-- An entry called by `c` after the renames `run`, on which the newest one still takes effect. -/
structure Reaches (goal : Move → Option DistinguishedName) (t : Tracked) (leaf : RelativeName)
    (ms : List Move) (last : Move) (run : List Move) (c : RelativeName) (x : Tracked) : Prop where
  result : run.foldl (move goal) t = x
  called : x.IsCalled (leaf :: ms.map Move.leaf) c
  admitted : x.history.admitsRename last.stamp = true
  nodup : (run ++ [last]).Nodup
  among : ∀ m ∈ run, m ∈ ms

variable {run' : List Move} {c' : RelativeName}

theorem Awaits.reaches (awaits : t.Awaits above leaf ms last)
    (admitted : t.history.admitsRename last.stamp = true) (goal : Move → Option DistinguishedName) :
    Reaches goal t leaf ms last [] leaf t :=
  ⟨rfl, awaits.isCalled, admitted, List.nodup_singleton last, nofun⟩

theorem Reaches.isMoved (h : Reaches goal t leaf ms last run c x) (hm : m ∈ ms)
    (admitted : x.history.admitsRename m.stamp = true) :
    IsMoved goal (leaf :: ms.map Move.leaf) c m x (x.move goal m) :=
  h.called.isMoved (.tail _ (List.mem_map_of_mem hm)) admitted goal

theorem Reaches.move (h : Reaches goal t leaf ms last run c x)
    (awaits : t.Awaits above leaf ms last) (hm : m ∈ ms) (other : m ≠ last) (new : m ∉ run)
    (admitted : x.history.admitsRename m.stamp = true) :
    Reaches goal t leaf ms last (run ++ [m]) m.leaf (x.move goal m) := by
  have moved := h.isMoved hm admitted
  obtain ⟨nodup, -, apart⟩ := List.nodup_append.mp h.nodup
  refine ⟨by rw [List.foldl_append, h.result]; rfl, moved.called, admitsRename_iff.mpr fun r hr => ?_,
    ?_, List.forall_mem_append.mpr ⟨h.among, List.forall_mem_singleton.mpr hm⟩⟩
  · obtain rfl := Option.some.inj (moved.renamed.symm.trans hr)
    exact awaits.newest m hm other
  · rw [List.append_assoc, List.nodup_append]
    refine ⟨nodup, by simpa using other, fun m' hm' m'' hm'' same => ?_⟩
    obtain rfl | rfl : m'' = m ∨ m'' = last := by simpa using hm''
    · exact new (same ▸ hm')
    · exact apart m' hm' m'' (.head _) same

/-- What is delivered after the newest rename changes nothing, so renames that converge may be
compared as far as the newest one. -/
theorem Reaches.looksLike (h : Reaches goal t leaf ms last run c x)
    (h' : Reaches goal t leaf ms last run' c' y) (awaits : t.Awaits above leaf ms last)
    (converges : Converges goal t ms) :
    (x.move goal last).LooksLike (y.move goal last) := by
  have full : ∀ {run c x}, Reaches goal t leaf ms last run c x → ∃ all : List Move, all.Perm ms ∧
      all.foldl (Tracked.move goal) t = x.move goal last := by
    intro run c x h
    have among : ∀ m ∈ run ++ [last], m ∈ ms :=
      List.forall_mem_append.mpr ⟨h.among, List.forall_mem_singleton.mpr awaits.mem⟩
    obtain ⟨start, perm, sublist⟩ := List.subperm_of_subset h.nodup among
    obtain ⟨others, whole⟩ := sublist.exists_perm_append
    have all : ((run ++ [last]) ++ others).Perm ms :=
      (perm.symm.append_right others).trans whole.symm
    refine ⟨_, all, ?_⟩
    have end' : (run ++ [last]).foldl (Tracked.move goal) t = x.move goal last := by
      rw [List.foldl_append, h.result]
      rfl
    rw [List.foldl_append, end']
    refine foldl_move_of_stale fun m hm admitted => ?_
    have newer := admitsRename_iff.mp admitted last.stamp (h.isMoved awaits.mem h.admitted).renamed
    by_cases same : m = last
    · exact lt_irrefl _ (same ▸ newer)
    · exact lt_asymm newer (awaits.newest m (all.mem_iff.mp (List.mem_append_right _ hm)) same)
  obtain ⟨all, perm, same⟩ := full h
  obtain ⟨all', perm', same'⟩ := full h'
  exact same ▸ same' ▸ converges all all' perm perm'

theorem Reaches.bears_iff (h : Reaches goal t leaf ms last run c x)
    (h' : Reaches goal t leaf ms last run' c' y) (awaits : t.Awaits above leaf ms last)
    (converges : Converges goal t ms) (hk : k ∈ leaf :: ms.map Move.leaf) (fresh : k ≠ last.leaf) :
    (x.Bears k ∧ ¬(last.deleteOld = true ∧ c ≠ last.leaf ∧ k = c)) ↔
      (y.Bears k ∧ ¬(last.deleteOld = true ∧ c' ≠ last.leaf ∧ k = c')) := by
  have alike := (h.looksLike h' awaits converges).bears_iff (awaits.spelled.user k hk)
  rwa [(h.isMoved awaits.mem h.admitted).bears k hk, (h'.isMoved awaits.mem h'.admitted).bears k hk,
    or_iff_right fresh, or_iff_right fresh] at alike

/-- Renames that converge are compatible. -/
theorem Awaits.areCompatible (awaits : t.Awaits above leaf ms last)
    (admitted : t.history.admitsRename last.stamp = true) (converges : Converges goal t ms) :
    AreCompatible goal t above leaf ms last := by
  have start := awaits.reaches admitted goal
  have one : ∀ m, t.IsOvertaken ms last m →
      Reaches goal t leaf ms last [m] m.leaf (t.move goal m) :=
    fun m h => start.move awaits h.mem h.ne List.not_mem_nil h.admitted
  have moved : ∀ m, t.IsOvertaken ms last m →
      IsMoved goal (leaf :: ms.map Move.leaf) leaf m t (t.move goal m) :=
    fun m h => start.isMoved h.mem h.admitted
  have listed : ∀ m, t.IsOvertaken ms last m → m.leaf ∈ leaf :: ms.map Move.leaf :=
    fun m h => .tail _ (List.mem_map_of_mem h.mem)
  -- Each condition compares two orders that have to agree: the newest rename at once, or after one or
  -- two of the others.
  refine ⟨?_, fun m hm c source new fresh => ?_, fun m hm fresh new => ?_⟩
  · refine or_iff_not_imp_left.mpr fun untold m hm p hp => ?_
    rw [Option.not_isSome_iff_eq_none] at untold
    have alike := (start.looksLike (one m hm) awaits converges).name
    have direct := start.isMoved awaits.mem start.admitted
    have around := (one m hm).isMoved awaits.mem (one m hm).admitted
    have parent : t.entry.name.parent? = some above := by
      rw [awaits.named]
      rfl
    rw [DistinguishedName.same_iff,
      DistinguishedName.eq_child direct.called.leaf_eq (p := above)
        (by rw [direct.parent, untold, Option.none_or, parent]),
      DistinguishedName.eq_child around.called.leaf_eq (p := p)
        (by rw [around.parent, untold, Option.none_or, (moved m hm).parent, hp, Option.some_or]),
      DistinguishedName.folded_child, DistinguishedName.folded_child] at alike
    exact (List.append_cancel_left alike).symm
  · obtain rfl | ⟨m', hm', older, rfl⟩ := source
    · have alike := start.bears_iff (one m hm) awaits converges (.head _) fresh
      rw [(moved m hm).bears c (.head _)] at alike
      have keeps : ¬last.deleteOld = true ↔ ¬m.deleteOld = true := by
        simpa [awaits.bears, new, fresh] using alike
      exact Bool.eq_iff_iff.mpr (not_iff_not.mp keeps).symm
    · have admitted' : (t.move goal m').history.admitsRename m.stamp = true := by
        refine admitsRename_iff.mpr fun r hr => ?_
        obtain rfl := Option.some.inj ((moved m' hm').renamed.symm.trans hr)
        exact older
      have apart : m ∉ [m'] := fun same => older.ne' (congrArg Move.stamp (List.mem_singleton.mp same))
      have two := (one m' hm').move awaits hm.mem hm.ne apart admitted'
      have alike := (one m' hm').bears_iff two awaits converges (listed m' hm') fresh
      have again := (one m' hm').isMoved hm.mem admitted'
      rw [again.bears m'.leaf (listed m' hm'), (moved m' hm').bears m'.leaf (listed m' hm')] at alike
      have keeps : ¬last.deleteOld = true ↔ ¬m.deleteOld = true := by
        simpa [new, fresh] using alike
      exact Bool.eq_iff_iff.mpr (not_iff_not.mp keeps).symm
  · have alike := start.bears_iff (one m hm) awaits converges (listed m hm) fresh
    rw [(moved m hm).bears m.leaf (listed m hm)] at alike
    tauto

/-- Renames of one entry converge if and only if they are compatible. -/
theorem Awaits.converges_iff (awaits : t.Awaits above leaf ms last) :
    Converges goal t ms ↔ AreCompatible goal t above leaf ms last := by
  by_cases admitted : t.history.admitsRename last.stamp = true
  · refine ⟨awaits.areCompatible admitted, fun compatible run run' perm perm' => ?_⟩
    have settled : ∀ {run : List Move}, run.Perm ms →
        IsSettled goal t above leaf ms last (run.foldl (move goal) t) := fun perm =>
      awaits.isSettled compatible admitted (fun m hm => perm.mem_iff.mp hm)
        (perm.mem_iff.mpr awaits.mem)
    exact (settled perm).looksLike (settled perm')
  · -- The entry was renamed later than all of these.
    have stale : ∀ m ∈ ms, ¬t.history.admitsRename m.stamp = true := by
      intro m hm admits
      refine admitted (admitsRename_iff.mpr fun r hr => ?_)
      have newer := admitsRename_iff.mp admits r hr
      by_cases same : m = last
      · exact same ▸ newer
      · exact newer.trans (awaits.newest m hm same)
    refine iff_of_true (fun run run' perm perm' => ?_) ⟨.inr fun m hm => ?_, fun m hm => ?_, fun m hm => ?_⟩
    · rw [foldl_move_of_stale fun m hm => stale m (perm.mem_iff.mp hm),
        foldl_move_of_stale fun m hm => stale m (perm'.mem_iff.mp hm)]
      exact .refl t
    all_goals exact absurd hm.admitted (stale m hm.mem)

end Tracked

end DirectoryHistory
