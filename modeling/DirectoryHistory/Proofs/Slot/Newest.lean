import DirectoryHistory.Proofs.Slot.Evolution
import DirectoryHistory.Proofs.Timeline.Late
import Mathlib.Data.Finset.Max

/-!
# Edits that are newer than all that is recorded

Nothing overrides such an edit. A multi-valued slot takes it with the plain meaning of its changes,
whatever it holds and whatever the timeline says of that. A single-valued slot that holds several
values keeps the first one that the first change leaves unrecorded, as long as the other changes leave
it so too. Otherwise it holds what the timeline says.
-/

namespace DirectoryHistory

namespace Timeline

/-- All that the timeline tells is older than `s`. -/
structure IsOlder (t : Timeline) (s : Stamp) : Prop where
  marks : ∀ v, ∀ m ∈ t.mark? v, m.stamp < s
  reset : ∀ r ∈ t.lastReset, r < s

variable {t : Timeline} {s b : Stamp} {e : Edit} {v : Octets}

theorem IsOlder.overrides_eq_false (h : t.IsOlder s) : t.overrides s = false := by
  rw [Bool.eq_false_iff, Ne, overrides_iff]
  rintro ⟨r, hr, newer⟩
  exact (h.reset r hr).not_gt newer

theorem lastReset_mergeEdit (h : t.IsOlder e.stamp) :
    (t.mergeEdit e).lastReset = if e.resets = true then some e.stamp else t.lastReset := by
  have fold : ∀ cs : List Change, (cs.foldl (merge e.stamp) t).lastReset =
      if cs.any Change.resets = true then some e.stamp else t.lastReset := by
    intro cs
    induction cs using List.reverseRecOn with
    | nil => simp
    | append_singleton cs c ih =>
      have before : t.lastReset = none ∨ ∃ r, t.lastReset = some r ∧ r < e.stamp := by
        cases hr : t.lastReset with
        | none => exact .inl rfl
        | some r => exact .inr ⟨r, rfl, h.reset r hr⟩
      rw [List.foldl_append, List.foldl_cons, List.foldl_nil, lastReset_merge, ih, List.any_append,
        List.any_cons, List.any_nil, Bool.or_false]
      cases cs.any Change.resets <;> cases c.resets <;>
        rcases before with none | ⟨r, some, older⟩ <;> simp_all [le_of_lt]
  exact fold e.changes

theorem mark?_mergeEdit (ht : t.Ordered) (h : t.IsOlder e.stamp) (v : Octets) :
    (t.mergeEdit e).mark? v =
      if e.names v = true then (e.outcome v).map fun x => ⟨v, x, e.stamp⟩ else t.mark? v := by
  have current : t.outdates v e.stamp = false :=
    outdates_eq_false_iff.mpr fun m hm => (h.marks v m hm).le
  rw [mergeEdit, mark?_foldl_merge ht fun m hm => (h.marks v m hm).ne, current, outcomeOn,
    h.overrides_eq_false]
  cases named : e.changes.any (·.names v) <;> simp [Edit.names, named, Edit.outcome]

theorem asserts_mergeEdit (ht : t.Ordered) (h : t.IsOlder e.stamp) (spoken : e.outcome v ≠ none) :
    (t.mergeEdit e).asserts v = true ↔ e.outcome v = some .added := by
  rw [asserts_iff, mark?_mergeEdit ht h]
  cases named : e.names v with
  | true =>
    have current : (t.mergeEdit e).overrides e.stamp = false := by
      rw [mergeEdit, overrides_foldl_merge, h.overrides_eq_false]
    obtain ⟨x, hx⟩ := Option.ne_none_iff_exists'.mp spoken
    simp [hx, upholds_iff, current]
  | false =>
    have resets : e.resets = true :=
      (Edit.outcomeOf_isSome_iff.mp (Option.isSome_iff_ne_none.mpr spoken)).resolve_left
        (by rw [← Edit.names, named]; exact Bool.noConfusion)
    have gone : e.outcome v = some .deleted := Edit.outcomeOf_of_not_names named resets
    simp only [gone, Bool.false_eq_true, if_false, Option.some_inj, reduceCtorEq, iff_false]
    rintro ⟨m, hm, upheld⟩
    have late : (t.mergeEdit e).overrides m.stamp = true :=
      overrides_iff.mpr ⟨e.stamp, by rw [lastReset_mergeEdit h, if_pos resets], h.marks v m hm⟩
    rw [(upholds_iff.mp upheld).2] at late
    cases late

theorem concerns_mergeEdit (ht : t.Ordered) (h : t.IsOlder e.stamp)
    (calm : ∀ v, t.concerns b v = false) (later : b < e.stamp) :
    (t.mergeEdit e).concerns b v = true ↔ e.outcome v ≠ none := by
  have unconcerned : ¬((∃ m, t.mark? v = some m ∧ b < m.stamp) ∨
      ∃ r, t.lastReset = some r ∧ b < r) := by
    rw [← concerns_iff, calm v]
    exact Bool.noConfusion
  rw [concerns_iff, mark?_mergeEdit ht h, lastReset_mergeEdit h, ← Option.isSome_iff_ne_none,
    Edit.outcome, Edit.outcomeOf_isSome_iff, ← Edit.names, ← Edit.resets, ← Edit.outcome]
  cases named : e.names v with
  | true =>
    obtain ⟨x, hx⟩ := Option.isSome_iff_exists.mp (Edit.outcomeOf_isSome_iff.mpr (.inl named))
    simp [Edit.outcome, hx, later]
  | false => cases resets : e.resets <;> simp_all

/-- Between what is recorded and `s` there is a stamp. -/
theorem IsOlder.exists_calm (h : t.IsOlder s) (touched : t ≠ .empty) (ht : t.Ordered) :
    ∃ b < s, ∀ v, t.concerns b v = false := by
  let stamps := t.lastReset.toList ++ t.marks.map (·.stamp)
  have marks : ∀ m ∈ t.marks, m.stamp < s := fun m hm =>
    h.marks m.value m (ht.mark?_eq_some_iff.mpr ⟨hm, rfl⟩)
  have older : ∀ r ∈ stamps, r < s := by
    intro r hr
    rcases List.mem_append.mp hr with hr | hr
    · exact h.reset r (Option.mem_toList.mp hr)
    · obtain ⟨m, hm, rfl⟩ := List.mem_map.mp hr
      exact marks m hm
  have some : stamps.toFinset.Nonempty := by
    rw [List.toFinset_nonempty_iff]
    intro none
    obtain ⟨reset, marks⟩ := List.append_eq_nil_iff.mp none
    refine touched ?_
    obtain ⟨r, ms⟩ := t
    simp_all [empty]
  obtain ⟨b, hb, greatest⟩ := stamps.toFinset.exists_max_image id some
  refine ⟨b, older b (List.mem_toFinset.mp hb), fun v => ?_⟩
  rw [Bool.eq_false_iff, Ne, concerns_iff]
  rintro (⟨m, hm, newer⟩ | ⟨r, hr, newer⟩)
  · have listed : m.stamp ∈ stamps :=
      List.mem_append_right _ (List.mem_map_of_mem (mem_of_mark? hm))
    exact (greatest m.stamp (List.mem_toFinset.mpr listed)).not_gt newer
  · have listed : r ∈ stamps := List.mem_append_left _ (Option.mem_toList.mpr hr)
    exact (greatest r (List.mem_toFinset.mpr listed)).not_gt newer

end Timeline

namespace Slot

open Timeline

variable {s s' : Slot} {created : Option Stamp} {stamp : Stamp} {e : Edit} {v : Octets}

/-- The edit takes effect on what is held, not only on what the timeline knows of. -/
theorem mem_held_resolveEdit (ht : s.timeline.Ordered) (older : s.timeline.IsOlder e.stamp)
    (newer : ∀ c ∈ created, c < e.stamp) (v : Octets) :
    v ∈ (s.resolveEdit false created e).held ↔
      e.outcome v = some .added ∨ e.outcome v = none ∧ v ∈ s.held := by
  by_cases untouched : s.timeline = .empty
  · have follows := (follows_start untouched nofun : s.Follows false s.held []).resolveEdit newer nofun
    rw [follows.mem_held_iff_perform (List.pairwise_singleton ..), List.flatMap_singleton,
      Edit.mem_foldl_perform, List.mem_toFinset]
    rfl
  obtain ⟨b, later, calm⟩ := older.exists_calm untouched ht
  have evolves := (evolves_self (b := b) calm).resolveEdit ht later newer older.overrides_eq_false
  have timeline : (s.resolveEdit false created e).timeline = s.timeline.mergeEdit e :=
    timeline_resolveEdit newer s
  have concerned := concerns_mergeEdit (v := v) ht older calm later
  by_cases spoken : e.outcome v = none
  · have kept := (evolves.kept v (by
      rw [timeline, Bool.eq_false_iff, Ne, concerned, not_not, spoken])).2.2
    simp [kept, spoken]
  · rw [evolves.settled v (by rw [timeline]; exact concerned.mpr spoken), timeline,
      asserts_mergeEdit ht older spoken]
    simp [spoken]

/-- What a single-valued slot holds after changes at `stamp` that found `first` before all that is
recorded. -/
def heirs (first : Option Octets) (stamp : Stamp) (t : Timeline) : List Octets :=
  ((first.filter fun v => (t.mark? v).isNone && t.lastReset != some stamp).or
    (t.asserted.head?.map (·.value))).toList

variable {first : Option Octets}

theorem length_heirs_le (first : Option Octets) (stamp : Stamp) (t : Timeline) :
    (heirs first stamp t).length ≤ 1 :=
  Option.length_toList_le

theorem lastReset_merge_of_current (current : s.timeline.overrides stamp = false) (c : Change) :
    (s.timeline.merge stamp c).lastReset =
      if c.resets = true then some stamp else s.timeline.lastReset := by
  have admitted := lastReset_reset_eq_some_iff.mpr current
  rw [lastReset_reset] at admitted
  rw [lastReset_merge, admitted]

theorem admitsReset_eq (current : s.timeline.overrides stamp = false) :
    s.timeline.admitsReset stamp = (s.timeline.lastReset != some stamp) := by
  cases hr : s.timeline.lastReset with
  | none => simp [admitsReset, Stamp.passes, hr]
  | some r =>
    have le : r ≤ stamp := by simpa [overrides, hr] using current
    rw [Bool.eq_iff_iff]
    simpa [admitsReset, Stamp.passes, hr] using le.lt_iff_ne

/-- A replace settles the slot, as the values without a mark are swept away by the reset itself. -/
theorem held_replace_single (ht : s.timeline.Ordered)
    (current : s.timeline.overrides stamp = false) (vs : List Octets) :
    (s.replace true stamp vs).slot.held =
      ((s.held.find? fun v => ((s.timeline.replaced stamp vs).mark? v).isNone &&
        !(s.timeline.lastReset != some stamp)).or
        ((s.timeline.replaced stamp vs).asserted.head?.map (·.value))).toList := by
  have reset := lastReset_reset_eq_some_iff.mpr current
  have timeline : (noteReplace (s.timeline.reset stamp) stamp vs).1 =
      s.timeline.replaced stamp vs := by
    rw [Timeline.replaced, if_pos reset]
  simp only [Slot.replace, reset, if_true, timeline, settle, settleSingle, unrecorded,
    ← List.head?_filter, admitsReset_eq current]
  congr 3
  cases raised : s.timeline.lastReset != some stamp with
  | false => simp
  | true =>
    simp only [if_true, Bool.not_true, Bool.and_false, List.filter_false]
    refine List.filter_eq_nil_iff.mpr fun v hv unmarked => ?_
    have marked : (s.timeline.mark? v).isSome = true := by
      simpa using (List.mem_filter.mp hv).2
    have after := isSome_mark?_replaced ht stamp vs marked
    rw [Option.isNone_iff_eq_none.mp unmarked] at after
    cases after

/-- A change that is news settles the slot, and sweeps away what is unrecorded if it is a new reset. -/
theorem held_resolve_single (ht : s.timeline.Ordered) (newer : ∀ c ∈ created, c < stamp)
    (current : s.timeline.overrides stamp = false) (c : Change) :
    (∃ m : Mark, m.stamp = stamp ∧ s.timeline.isNews m = false ∧
      (s.resolve true created stamp c).slot = s) ∨
    (s.resolve true created stamp c).slot.held =
      ((s.held.find? fun v => ((s.timeline.merge stamp c).mark? v).isNone &&
        !(c.resets && s.timeline.lastReset != some stamp)).or
        ((s.timeline.merge stamp c).asserted.head?.map (·.value))).toList := by
  cases c with
  | add v =>
    by_cases news : s.timeline.isNews ⟨v, .added, stamp⟩ = true
    · refine .inr ?_
      simp [resolve, addSingle, news, settleSingle, unrecorded, merge, Change.resets]
    · refine .inl ⟨⟨v, .added, stamp⟩, rfl, by simpa using news, ?_⟩
      simp [resolve, addSingle, news]
  | delete v =>
    have late : created.any (stamp ≤ ·) = false := by
      cases created with
      | none => rfl
      | some r => simpa using newer r rfl
    by_cases news : s.timeline.isNews ⟨v, .deleted, stamp⟩ = true
    · refine .inr ?_
      simp [resolve, Slot.delete, late, news, settleSingle, unrecorded, merge, Change.resets]
    · refine .inl ⟨⟨v, .deleted, stamp⟩, rfl, by simpa using news, ?_⟩
      simp [resolve, Slot.delete, late, news]
  | clear => exact .inr (held_replace_single ht current [])
  | replace vs => exact .inr (held_replace_single ht current vs)

theorem held_resolve_of_isOlder (ht : s.timeline.Ordered) (older : s.timeline.IsOlder stamp)
    (newer : ∀ c ∈ created, c < stamp) (c : Change) :
    (s.resolve true created stamp c).slot.held =
      heirs (s.held.find? fun v => ((s.timeline.merge stamp c).mark? v).isNone) stamp
        (s.timeline.merge stamp c) := by
  obtain ⟨m, rfl, stale, -⟩ | settled := held_resolve_single ht newer older.overrides_eq_false c
  · have news : s.timeline.isNews m = true := by
      rw [isNews, admits_iff.mpr fun n hn => older.marks m.value n hn, Bool.true_or]
    rw [stale] at news
    cases news
  have unreset : (s.timeline.lastReset != some stamp) = true :=
    bne_iff_ne.mpr fun same => (older.reset stamp same).ne rfl
  have reset := lastReset_merge_of_current older.overrides_eq_false c
  rw [settled, heirs]
  cases resets : c.resets with
  | true =>
    rw [resets, if_pos rfl] at reset
    rw [List.find?_eq_none.mpr fun v _ => by simp [unreset]]
    simp [reset]
  | false =>
    rw [resets, if_neg Bool.false_ne_true] at reset
    simp only [reset, Bool.false_and, Bool.not_false, Bool.and_true]
    cases found : s.held.find? fun v => ((s.timeline.merge stamp c).mark? v).isNone with
    | none => rfl
    | some v => simp [Option.filter_some, List.find?_some found, unreset]

theorem held_resolve_of_heirs (ht : s.timeline.Ordered) (newer : ∀ c ∈ created, c < stamp)
    (current : s.timeline.overrides stamp = false) (h : s.held = heirs first stamp s.timeline)
    (c : Change) : (s.resolve true created stamp c).slot.held =
      heirs first stamp (s.timeline.merge stamp c) := by
  obtain ⟨-, -, -, same⟩ | settled := held_resolve_single ht newer current c
  · have timeline := timeline_resolve true newer c s
    rw [same] at timeline ⊢
    rw [← timeline, h]
  have reset := lastReset_merge_of_current current c
  have marked : ∀ v, (s.timeline.merge stamp c).mark? v = none → s.timeline.mark? v = none :=
    fun v => mark?_eq_none_of_merge ht
  have found : (s.held.find? fun v => ((s.timeline.merge stamp c).mark? v).isNone &&
      !(c.resets && s.timeline.lastReset != some stamp)) =
      first.filter fun v => ((s.timeline.merge stamp c).mark? v).isNone &&
        (s.timeline.merge stamp c).lastReset != some stamp := by
    rw [h, heirs]
    cases kept : first.filter fun v =>
        (s.timeline.mark? v).isNone && s.timeline.lastReset != some stamp with
    | some v =>
      obtain ⟨rfl, unrecorded⟩ := Option.filter_eq_some_iff.mp kept
      have unreset : (s.timeline.lastReset != some stamp) = true :=
        (Bool.and_eq_true_iff.mp unrecorded).2
      cases resets : c.resets with
      | true => simp [reset, resets, unreset]
      | false => simp [reset, resets, unreset, Option.filter_some]
    | none =>
      have spoken : ∀ v ∈ s.timeline.asserted.head?.map (·.value), s.timeline.mark? v ≠ none := by
        intro v hv
        obtain ⟨m, hm, rfl⟩ := Option.map_eq_some_iff.mp hv
        rw [(ht.mem_asserted.mp (List.mem_of_mem_head? hm)).1]
        exact Option.some_ne_none m
      rw [Option.none_or, List.find?_eq_none.mpr fun v hv => ?_, eq_comm, Option.filter_eq_none_iff]
      · intro v hv survives
        obtain ⟨unmarked, unreset⟩ := Bool.and_eq_true_iff.mp survives
        refine Option.filter_eq_none_iff.mp kept v hv (Bool.and_eq_true_iff.mpr ⟨?_, ?_⟩)
        · rw [Option.isNone_iff_eq_none] at unmarked ⊢
          exact marked v unmarked
        · rw [reset] at unreset
          cases resets : c.resets <;> simp [resets] at unreset
          exact bne_iff_ne.mpr unreset
      · intro found
        have unmarked := Option.isNone_iff_eq_none.mp (Bool.and_eq_true_iff.mp found).1
        exact spoken v (Option.mem_toList.mp hv) (marked v unmarked)
  rw [settled, found, heirs]

/-- The value that the first change finds unrecorded keeps its place until a change of the edit
concerns it. -/
theorem held_resolveEdit_single {c : Change} {cs : List Change} (changes : e.changes = c :: cs)
    (ht : s.timeline.Ordered) (older : s.timeline.IsOlder e.stamp)
    (newer : ∀ c ∈ created, c < e.stamp) : (s.resolveEdit true created e).held =
      heirs (s.held.find? fun v => ((s.timeline.merge e.stamp c).mark? v).isNone) e.stamp
        (s.timeline.mergeEdit e) := by
  have fold : ∀ (first : Option Octets) (cs : List Change) (s : Slot), s.timeline.Ordered →
      s.timeline.overrides e.stamp = false → s.held = heirs first e.stamp s.timeline →
      (cs.foldl (fun s c => (s.resolve true created e.stamp c).slot) s).held =
        heirs first e.stamp (cs.foldl (merge e.stamp) s.timeline) := by
    intro first cs
    induction cs with
    | nil => exact fun _ _ _ h => h
    | cons c cs ih =>
      intro s ht current h
      have timeline := timeline_resolve true newer c s
      rw [List.foldl_cons, List.foldl_cons, ← timeline]
      refine ih _ (ordered_resolve ht true created e.stamp c) ?_ ?_
      · rw [timeline]
        exact overrides_merge current le_rfl c
      · rw [timeline]
        exact held_resolve_of_heirs ht newer current h c
  have timeline := timeline_resolve true newer c s
  have start := held_resolve_of_isOlder ht older newer c
  rw [resolveEdit, mergeEdit, changes, List.foldl_cons, List.foldl_cons]
  rw [← timeline] at start ⊢
  refine fold _ cs _ (ordered_resolve ht true created e.stamp c) ?_ start
  rw [timeline]
  exact overrides_merge older.overrides_eq_false le_rfl c

theorem length_held_resolveEdit_le (busy : e.changes ≠ []) (ht : s.timeline.Ordered)
    (older : s.timeline.IsOlder e.stamp) (newer : ∀ c ∈ created, c < e.stamp) :
    (s.resolveEdit true created e).held.length ≤ 1 := by
  obtain ⟨c, cs, changes⟩ := List.exists_cons_of_ne_nil busy
  rw [held_resolveEdit_single changes ht older newer]
  exact length_heirs_le _ _ _

/-- Without some of the other values a value that the edit leaves keeps its place, or another one takes
it. -/
theorem exists_mem_held_resolveEdit {p : Octets → Bool} (busy : e.changes ≠ [])
    (ht : s.timeline.Ordered) (older : s.timeline.IsOlder e.stamp)
    (newer : ∀ c ∈ created, c < e.stamp) (same : s'.timeline = s.timeline)
    (part : s'.held = s.held.filter p) (hv : v ∈ (s.resolveEdit true created e).held)
    (hp : p v = true) : ∃ w, w ∈ (s'.resolveEdit true created e).held := by
  obtain ⟨c, cs, changes⟩ := List.exists_cons_of_ne_nil busy
  rw [held_resolveEdit_single changes ht older newer, heirs, Option.mem_toList,
    Option.or_eq_some_iff] at hv
  rw [held_resolveEdit_single changes (same ▸ ht) (same ▸ older) newer, same, part]
  simp only [heirs, Option.mem_toList]
  rw [← Option.isSome_iff_exists, Option.isSome_or, Bool.or_eq_true]
  refine hv.imp (fun first => ?_) fun asserted => by rw [asserted.2]; rfl
  obtain ⟨found, survives⟩ := Option.filter_eq_some_iff.mp first
  obtain ⟨unmarked, before, behind, split, marked⟩ := List.find?_eq_some_iff_append.mp found
  have again : ((s.held.filter p).find? fun v => ((s.timeline.merge e.stamp c).mark? v).isNone) =
      some v := by
    have none : (before.filter p).find? (fun v => ((s.timeline.merge e.stamp c).mark? v).isNone) =
        none := by
      refine List.find?_eq_none.mpr fun w hw => ?_
      rw [Bool.not_eq_true, ← Bool.not_eq_true']
      exact marked w (List.mem_filter.mp hw).1
    rw [split, List.filter_append, List.filter_cons_of_pos hp, List.find?_append, none, Option.none_or]
    exact List.find?_cons_of_pos unmarked
  rw [again, Option.filter_some, if_pos survives]
  rfl

end Slot

end DirectoryHistory
