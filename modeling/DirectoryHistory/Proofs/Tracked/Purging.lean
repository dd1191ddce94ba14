import DirectoryHistory.Proofs.History.Purging
import DirectoryHistory.Proofs.Slot.Purging
import DirectoryHistory.Proofs.Tracked.Actions

/-!
# Purges between actions

A purge between two runs of actions is not seen in the multi-valued attributes, as long as the
actions behind it are newer than its cutoff, and of the history it leaves what is no older than the
cutoff. In a single-valued attribute it may be seen, since an addition that waits behind the held
value is known from its fact alone.
-/

namespace DirectoryHistory

namespace Action

/-- Whether no entry rejects the action. -/
def IsValid (schema : Schema) : Action → Prop
  | change c => Tracked.Accepts schema (c.attr, c.change)
  | request r _ => validateAll schema r.modifications = .ok ()

instance (schema : Schema) : DecidablePred (IsValid schema)
  | change c => inferInstanceAs (Decidable (Tracked.Accepts schema (c.attr, c.change)))
  | request r _ => inferInstanceAs (Decidable (validateAll schema r.modifications = .ok ()))

def edit (schema : Schema) (a : Attribute) (x : Action) : Edit :=
  ⟨x.stamp, Tracked.changesTo a (x.steps schema)⟩

end Action

namespace Tracked

variable {schema : Schema} {t m u u' : Tracked} {cutoff : Stamp} {a : Attribute}
variable {earlier later : List Action}

/-- The entry with its history purged. -/
def purge (t : Tracked) (cutoff : Stamp) : Tracked :=
  { t with history := t.history.purge cutoff }

theorem slot_purge (t : Tracked) (cutoff : Stamp) (a : Attribute) :
    (t.purge cutoff).slot a = (t.slot a).purge cutoff := by
  simp only [slot, purge, Slot.purge, History.timeline_purge]

@[simp] theorem created_foldl_act (actions : List Action) (t : Tracked) :
    (actions.foldl (act schema) t).history.created = t.history.created := by
  induction actions generalizing t with
  | nil => rfl
  | cons x rest ih => rw [List.foldl_cons, ih, act_eq, created_foldl_step]

@[simp] theorem renamed_foldl_act (actions : List Action) (t : Tracked) :
    (actions.foldl (act schema) t).history.renamed = t.history.renamed := by
  induction actions generalizing t with
  | nil => rfl
  | cons x rest ih => rw [List.foldl_cons, ih, act_eq, renamed_foldl_step]

theorem slot_foldl_act (actions : List Action) (t : Tracked) (a : Attribute) :
    (actions.foldl (act schema) t).slot a = (actions.map (Action.edit schema a)).foldl
      (Slot.resolveEdit (schema.isSingle a) t.history.created) (t.slot a) := by
  induction actions generalizing t with
  | nil => rfl
  | cons x rest ih =>
    rw [List.foldl_cons, ih, act_eq, slot_foldl_step, created_foldl_step]
    rfl

/-- Takes actions one after the other until one of them is rejected. -/
def takeAll (schema : Schema) (t : Tracked) : List Action → Except Rejection Tracked
  | [] => .ok t
  | .change c :: rest =>
    match t.resolve schema c.attr c.change c.stamp with
    | .error e => .error e
    | .ok (_, t) => takeAll schema t rest
  | .request r abandon :: rest =>
    match t.applyRequest schema r.modifications r.stamp abandon with
    | .error e => .error e
    | .ok (_, _, t) => takeAll schema t rest

theorem takeAll_eq {actions : List Action} (valid : ∀ x ∈ actions, x.IsValid schema)
    (t : Tracked) : t.takeAll schema actions = .ok (actions.foldl (act schema) t) := by
  induction actions generalizing t with
  | nil => rfl
  | cons x rest ih =>
    have first := valid x (.head _)
    have later : ∀ y ∈ rest, y.IsValid schema := fun y hy => valid y (.tail _ hy)
    cases x with
    | change c =>
      obtain ⟨verdict, taken⟩ := resolve_of_accepts first c.stamp t
      simp only [takeAll, List.foldl_cons, act, taken]
      exact ih later _
    | request r abandon =>
      obtain ⟨ending, tally, n, -, taken, -⟩ := applyRequest_of_valid first abandon t
      simp only [takeAll, List.foldl_cons, act, taken]
      exact ih later _

theorem timeline_foldl_act {actions : List Action}
    (newer : ∀ x ∈ actions, ∀ c ∈ t.history.created, c < x.stamp) (a : Attribute) :
    (actions.foldl (act schema) t).history.timeline a =
      (actions.map (Action.edit schema a)).foldl Timeline.mergeEdit (t.history.timeline a) := by
  have newer' : ∀ e ∈ actions.map (Action.edit schema a), ∀ c ∈ t.history.created, c < e.stamp :=
    List.forall_mem_map.mpr newer
  rw [← timeline_slot, slot_foldl_act, Slot.timeline_foldl_resolveEdit newer', timeline_slot]

/-- What a purge leaves of the history is what is left of it by a purge in the end. -/
theorem agrees_foldl_act_purge (ordered : m.history.IsOrdered)
    (newer : ∀ x ∈ later, ∀ c ∈ m.history.created, c < x.stamp)
    (recent : ∀ x ∈ later, cutoff ≤ x.stamp) :
    (later.foldl (act schema) (m.purge cutoff)).history.Agrees
      ((later.foldl (act schema) m).history.purge cutoff) where
  created := by
    rw [created_foldl_act]
    simp only [History.purge, created_foldl_act, purge]
  renamed := by
    rw [renamed_foldl_act]
    simp only [History.purge, renamed_foldl_act, purge]
  timelines a := by
    have newer' : ∀ x ∈ later, ∀ c ∈ (m.purge cutoff).history.created, c < x.stamp :=
      fun x hx c hc => newer x hx c (Option.filter_eq_some_iff.mp hc).1
    have purged : (m.purge cutoff).history.timeline a = (m.history.timeline a).purge cutoff :=
      History.timeline_purge m.history cutoff a
    rw [timeline_foldl_act newer', purged, History.timeline_purge, timeline_foldl_act newer]
    exact (ordered a).purge_foldl_mergeEdit (List.forall_mem_map.mpr recent)

/-- The slots of an attribute after the later actions, without the purge and with it. -/
theorem diverged_foldl_act (schema : Schema) (a : Attribute)
    (untouched : ∀ a, t.history.timeline a = .empty) (earlier : List Action)
    (newer : ∀ x ∈ later, ∀ c ∈ t.history.created, c < x.stamp)
    (recent : ∀ x ∈ later, cutoff ≤ x.stamp)
    (few : schema.isSingle a = true → (t.entry.values a).length ≤ 1) :
    let m := earlier.foldl (act schema) t
    Slot.Diverged (schema.isSingle a) (t.entry.values a) cutoff
      (later.map (Action.edit schema a)) (m.slot a) ((later.foldl (act schema) m).slot a)
      ((later.foldl (act schema) (m.purge cutoff)).slot a) := by
  intro m
  have reached : m.InStep schema t.entry.values :=
    (inStep_of_untouched schema untouched).foldl_act earlier
  have created : m.history.created = t.history.created := created_foldl_act earlier t
  have purged : (m.purge cutoff).history.created = t.history.created.filter (cutoff ≤ ·) := by
    rw [← created]
    rfl
  rw [slot_foldl_act later m, slot_foldl_act later (m.purge cutoff), slot_purge, created, purged]
  exact Slot.diverged_foldl_resolveEdit (reached.readsBack a few) (reached.ordered a) few
    (List.forall_mem_map.mpr newer) (List.forall_mem_map.mpr recent)

/-- A purge between two runs of valid actions, abandoned requests among them, leaves no trace in the
multi-valued attributes if the actions behind it are no older than the cutoff, in whatever order
they come: the values are those that the runs leave without it, and the facts are those of them that
are no older than the cutoff. -/
theorem takeAll_purge (untouched : ∀ a, t.history.timeline a = .empty)
    (valid : ∀ x ∈ earlier ++ later, x.IsValid schema)
    (newer : ∀ x ∈ later, ∀ c ∈ t.history.created, c < x.stamp)
    (recent : ∀ x ∈ later, cutoff ≤ x.stamp) :
    ∃ m u u', t.takeAll schema earlier = .ok m ∧ m.takeAll schema later = .ok u ∧
      (m.purge cutoff).takeAll schema later = .ok u' ∧
      (∀ a, schema.isSingle a = false → ∀ v, v ∈ u'.entry.values a ↔ v ∈ u.entry.values a) ∧
      u'.history.facts = u.history.facts.filter (cutoff ≤ ·.stamp) := by
  obtain ⟨valid, valid'⟩ := List.forall_mem_append.mp valid
  refine ⟨_, _, _, takeAll_eq valid t, takeAll_eq valid' _, takeAll_eq valid' _, ?_, ?_⟩
  · intro a multi v
    have diverged := diverged_foldl_act schema a untouched earlier newer recent (by simp [multi])
    rw [multi] at diverged
    exact diverged.mem_held_iff v
  · have ordered := ((inStep_of_untouched schema untouched).foldl_act earlier).ordered
    have newer' : ∀ x ∈ later, ∀ c ∈ (earlier.foldl (act schema) t).history.created,
        c < x.stamp := by
      rw [created_foldl_act]
      exact newer
    rw [(agrees_foldl_act_purge ordered newer' recent).facts_eq, History.facts_purge]

/-- A replace, an add and the creation are purged. The value added last is deleted afterwards, and a
request that would clear the attribute is abandoned before that step. -/
theorem takeAll_purge_replaced :
    let mail : Attribute := ⟨"mail", []⟩
    let t := justCreated ⟨1, 0, 1⟩ mail [[1], [2]]
    let earlier : List Action :=
      [.request ⟨⟨2, 0, 1⟩, [⟨mail, .replace, [[3], [4]]⟩]⟩ fun _ => false,
        .change ⟨⟨3, 0, 2⟩, mail, .add [5]⟩]
    let later : List Action := [.change ⟨⟨6, 0, 2⟩, mail, .delete [5]⟩,
      .request ⟨⟨5, 0, 1⟩, [⟨mail, .add, [[1]]⟩, ⟨mail, .delete, []⟩]⟩ fun steps => steps == 1]
    ∃ m u u', t.takeAll ⟨["uid"]⟩ earlier = .ok m ∧ m.takeAll ⟨["uid"]⟩ later = .ok u ∧
      (m.purge ⟨4, 0, 0⟩).takeAll ⟨["uid"]⟩ later = .ok u' ∧
      u.entry.values mail = [[3], [4], [1]] ∧
      (∀ v, v ∈ u'.entry.values mail ↔ v ∈ u.entry.values mail) ∧
      u'.history.facts = [.about mail ⟨5, 0, 1⟩ .add (some [1]),
        .about mail ⟨6, 0, 2⟩ .delete (some [5])] := by
  intro mail t earlier later
  have untouched : ∀ a, t.history.timeline a = .empty := fun _ => rfl
  have valid : ∀ x ∈ earlier ++ later, x.IsValid ⟨["uid"]⟩ := by decide
  have newer : ∀ x ∈ later, ∀ c ∈ t.history.created, c < x.stamp := by decide
  have recent : ∀ x ∈ later, (⟨4, 0, 0⟩ : Stamp) ≤ x.stamp := by decide
  obtain ⟨m, u, u', before, whole, purged, values, facts⟩ :=
    takeAll_purge untouched valid newer recent
  have held : ((t.takeAll ⟨["uid"]⟩ earlier).bind (·.takeAll ⟨["uid"]⟩ later)).map
      (fun u => (u.entry.values mail, u.history.facts.filter (⟨4, 0, 0⟩ ≤ ·.stamp))) =
      .ok ([[3], [4], [1]], [.about mail ⟨5, 0, 1⟩ .add (some [1]),
        .about mail ⟨6, 0, 2⟩ .delete (some [5])]) := by decide
  rw [before, Except.bind, whole, Except.map, Except.ok.injEq, Prod.mk.injEq] at held
  exact ⟨m, u, u', before, whole, purged, held.1, values mail (by decide), facts.trans held.2⟩

/-- Of single-valued attributes this holds only in part. One that held a value at most ends with the
same value, purged or not, exactly if a later action resets it, or none of them names the value that
it held at the purge, or they name all values whose additions were in force and were purged. -/
theorem takeAll_purge_single_iff (untouched : ∀ a, t.history.timeline a = .empty)
    (valid : ∀ x ∈ earlier ++ later, x.IsValid schema)
    (newer : ∀ x ∈ later, ∀ c ∈ t.history.created, c < x.stamp)
    (recent : ∀ x ∈ later, cutoff ≤ x.stamp) :
    ∃ m u u', t.takeAll schema earlier = .ok m ∧ m.takeAll schema later = .ok u ∧
      (m.purge cutoff).takeAll schema later = .ok u' ∧
      ∀ a, schema.isSingle a = true → (t.entry.values a).length ≤ 1 →
        (u'.entry.values a = u.entry.values a ↔
          (∃ x ∈ later, (x.edit schema a).resets = true) ∨
          (∀ v ∈ m.entry.values a, ∀ x ∈ later, (x.edit schema a).names v = false) ∨
          ∀ n ∈ (m.history.timeline a).asserted, n.stamp < cutoff →
            ∃ x ∈ later, (x.edit schema a).names n.value = true) := by
  obtain ⟨valid, valid'⟩ := List.forall_mem_append.mp valid
  refine ⟨_, _, _, takeAll_eq valid t, takeAll_eq valid' _, takeAll_eq valid' _, ?_⟩
  intro a single few
  have diverged := diverged_foldl_act schema a untouched earlier newer recent fun _ => few
  rw [single] at diverged
  refine diverged.held_eq_iff.trans ?_
  simp only [List.mem_map, exists_exists_and_eq_and, forall_exists_index, and_imp,
    forall_apply_eq_imp_iff₂]
  rfl

/-- The value held and the one that waits behind it are purged; the first is deleted and the other
one added again. -/
theorem takeAll_purge_single_iff_named :
    let uid : Attribute := ⟨"uid", []⟩
    let t := justCreated ⟨1, 0, 1⟩ uid []
    let earlier : List Action :=
      [.change ⟨⟨2, 0, 1⟩, uid, .add [1]⟩, .change ⟨⟨3, 0, 2⟩, uid, .add [2]⟩]
    let later : List Action :=
      [.request ⟨⟨5, 0, 1⟩, [⟨uid, .delete, [[1]]⟩, ⟨uid, .add, [[2]]⟩]⟩ fun _ => false]
    ∃ m u u', t.takeAll ⟨["uid"]⟩ earlier = .ok m ∧ m.takeAll ⟨["uid"]⟩ later = .ok u ∧
      (m.purge ⟨4, 0, 0⟩).takeAll ⟨["uid"]⟩ later = .ok u' ∧
      m.entry.values uid = [[1]] ∧ u.entry.values uid = [[2]] ∧ u'.entry.values uid = [[2]] := by
  intro uid t earlier later
  have untouched : ∀ a, t.history.timeline a = .empty := fun _ => rfl
  have valid : ∀ x ∈ earlier ++ later, x.IsValid ⟨["uid"]⟩ := by decide
  have newer : ∀ x ∈ later, ∀ c ∈ t.history.created, c < x.stamp := by decide
  have recent : ∀ x ∈ later, (⟨4, 0, 0⟩ : Stamp) ≤ x.stamp := by decide
  obtain ⟨m, u, u', before, whole, purged, values⟩ :=
    takeAll_purge_single_iff untouched valid newer recent
  have held : (t.takeAll ⟨["uid"]⟩ earlier).map (fun m =>
      (m.entry.values uid, (m.history.timeline uid).asserted)) =
      .ok ([[1]], [⟨[1], .added, ⟨2, 0, 1⟩⟩, ⟨[2], .added, ⟨3, 0, 2⟩⟩]) := by decide
  have ended : ((t.takeAll ⟨["uid"]⟩ earlier).bind (·.takeAll ⟨["uid"]⟩ later)).map
      (·.entry.values uid) = .ok [[2]] := by decide
  rw [before, Except.map, Except.ok.injEq, Prod.mk.injEq] at held
  rw [before, Except.bind, whole, Except.map, Except.ok.injEq] at ended
  have same := (values uid (by decide) (by decide)).mpr (.inr (.inr (by rw [held.2]; decide)))
  exact ⟨m, u, u', before, whole, purged, held.1, ended, same.trans ended⟩

/-- A value that waits behind the held one takes over when that is deleted, unless its addition was
purged in between. -/
theorem takeAll_purge_single_ne : ¬∀ (schema : Schema) (t : Tracked) (created cutoff : Stamp)
    (earlier later : List Request) (m u u' : Tracked), t.history = .ofCreation created →
    (∀ a, schema.isSingle a = true → (t.entry.values a).length ≤ 1) →
    (∀ r ∈ earlier ++ later, validateAll schema r.modifications = .ok () ∧ created < r.stamp) →
    (∀ r ∈ later, cutoff ≤ r.stamp) →
    t.applyAll schema earlier = .ok m → m.applyAll schema later = .ok u →
    (m.purge cutoff).applyAll schema later = .ok u' →
    ∀ a, schema.isSingle a = true → u'.entry.values a = u.entry.values a := by
  intro transparent
  let uid : Attribute := ⟨"uid", []⟩
  let earlier : List Request :=
    [⟨⟨2, 0, 1⟩, [⟨uid, .add, [[1]]⟩]⟩, ⟨⟨3, 0, 2⟩, [⟨uid, .add, [[2]]⟩]⟩]
  let later : List Request := [⟨⟨5, 0, 1⟩, [⟨uid, .delete, [[1]]⟩]⟩]
  let t := justCreated ⟨1, 0, 1⟩ uid []
  let m := earlier.foldl (afterRequest ⟨["uid"]⟩) t
  let u := later.foldl (afterRequest ⟨["uid"]⟩) m
  let u' := later.foldl (afterRequest ⟨["uid"]⟩) (m.purge ⟨4, 0, 0⟩)
  have few : ∀ a, (⟨["uid"]⟩ : Schema).isSingle a = true → (t.entry.values a).length ≤ 1 := by
    intro a _
    by_cases other : a = uid
    · subst other
      decide
    · have nothing : t.entry.values a = [] := Entry.values_setValues_of_ne _ other _
      simp [nothing]
  have same := transparent ⟨["uid"]⟩ t ⟨1, 0, 1⟩ ⟨4, 0, 0⟩ earlier later m u u' rfl few
    (by decide) (by decide) (applyAll_eq (by decide) t) (applyAll_eq (by decide) m)
    (applyAll_eq (by decide) _) uid (by decide)
  exact absurd same (by decide)

end Tracked

end DirectoryHistory
