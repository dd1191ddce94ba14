import DirectoryHistory.Proofs.Slot.ReadBack

/-!
# What a verdict says

A slot whose values can be read back holds an added value when it says that the addition was applied,
and holds nothing else when it says that the addition displaced another value. When it says that a
change was ignored, it holds what it held before, but for one case: the value that holds a
single-valued slot is added again, and comes behind an older addition that was waiting.
-/

namespace DirectoryHistory

namespace Timeline

variable {t : Timeline} {m n : Mark}

theorem Ordered.asserted_note_of_overrides (ht : t.Ordered) (late : t.overrides m.stamp = true) :
    (t.note m).asserted = t.asserted := by
  refine (ht.note m).asserted_eq ht fun v n => ?_
  rw [upholds_congr (lastReset_note t m), mark?_note]
  split
  · next noted =>
    obtain ⟨rfl, current⟩ := noted
    obtain ⟨r, reset, newer⟩ := overrides_iff.mp late
    constructor
    · rintro ⟨same, upheld⟩
      cases same
      rw [(upholds_iff.mp upheld).2] at late
      cases late
    · rintro ⟨before, upheld⟩
      have older := outdates_eq_false_iff.mp current n before
      have overridden := overrides_iff.mpr ⟨r, reset, older.trans_lt newer⟩
      rw [(upholds_iff.mp upheld).2] at overridden
      cases overridden
  · rfl

/-- An addition that is news and not overridden is asserted, and the others stay. -/
theorem Ordered.mem_asserted_note_iff (ht : t.Ordered) (news : t.isNews m = true)
    (added : m.sense = .added) (current : t.overrides m.stamp = false) :
    n ∈ (t.note m).asserted ↔ n = m ∨ n ∈ t.asserted ∧ n.value ≠ m.value := by
  have upholds := upholds_congr (lastReset_note t m)
  have recent := outdates_eq_false_of_isNews news
  rw [(ht.note m).mem_asserted, ht.mem_asserted, mark?_note, upholds]
  by_cases own : n.value = m.value
  · rw [if_pos ⟨own, own ▸ recent⟩]
    constructor
    · rintro ⟨same, -⟩
      exact .inl (Option.some.inj same).symm
    · rintro (rfl | ⟨-, other⟩)
      · exact ⟨rfl, upholds_iff.mpr ⟨added, current⟩⟩
      · exact absurd own other
  · rw [if_neg fun noted => own noted.1]
    constructor
    · exact fun asserted => .inr ⟨asserted, own⟩
    · rintro (rfl | ⟨asserted, -⟩)
      · exact absurd rfl own
      · exact asserted

end Timeline

namespace Slot

open Timeline

variable {single : Bool} {initial : List Octets} {s s' : Slot} {created : Option Stamp}
variable {stamp : Stamp} {c : Change} {v w : Octets}

theorem ReadsBack.mem_held_iff_of_asserted_eq (h : s.ReadsBack single initial)
    (h' : s'.ReadsBack single initial) (ht : s.timeline.Ordered) (ht' : s'.timeline.Ordered)
    (same : kept initial s'.timeline = kept initial s.timeline)
    (asserted : s'.timeline.asserted = s.timeline.asserted) (v : Octets) :
    v ∈ s'.held ↔ v ∈ s.held := by
  cases single with
  | true =>
    simp only [ReadsBack, if_true] at h h'
    rw [h, h', same, asserted]
  | false =>
    have before : v ∈ s.held ↔ v ∈ kept initial s.timeline ∨ s.timeline.asserts v = true := h v
    have after : v ∈ s'.held ↔ v ∈ kept initial s'.timeline ∨ s'.timeline.asserts v = true := h' v
    rw [before, after, same, ← ht.mem_map_asserted, ← ht'.mem_map_asserted, asserted]

theorem ReadsBack.mem_held_iff_of_overrides {m : Mark} (h : s.ReadsBack single initial)
    (h' : s'.ReadsBack single initial) (ht : s.timeline.Ordered)
    (noted : s'.timeline = s.timeline.note m) (late : s.timeline.overrides m.stamp = true)
    (v : Octets) : v ∈ s'.held ↔ v ∈ s.held := by
  obtain ⟨r, reset, -⟩ := overrides_iff.mp late
  have before : s.timeline.lastReset.isSome = true := by simp [reset]
  have after : s'.timeline.lastReset.isSome = true := by rw [noted, lastReset_note, before]
  refine h.mem_held_iff_of_asserted_eq h' ht (noted ▸ ht.note m) ?_ ?_ v
  · rw [kept_eq_nil before, kept_eq_nil after]
  · rw [noted, ht.asserted_note_of_overrides late]

/-- A single-valued slot holds the untouched first value, or else the first asserted one. -/
theorem ReadsBack.mem_held_single_iff (h : s.ReadsBack true initial) (few : initial.length ≤ 1) :
    w ∈ s.held ↔ w ∈ kept initial s.timeline ∨ kept initial s.timeline = [] ∧
      ∃ m, s.timeline.asserted.head? = some m ∧ m.value = w := by
  have held : s.held = ((kept initial s.timeline).head?.or
    (s.timeline.asserted.head?.map (·.value))).toList := h
  have untouched : (kept initial s.timeline).head? = some w ↔ w ∈ kept initial s.timeline := by
    conv_rhs => rw [← toList_head? (length_kept_le.trans few), Option.mem_toList]
  rw [held, Option.mem_toList, Option.or_eq_some_iff, untouched, List.head?_eq_none_iff,
    Option.map_eq_some_iff]

/-- Added again at `stamp`, the held value `v` comes behind another addition, which was waiting. -/
def GivesWay (s : Slot) (stamp : Stamp) (v : Octets) : Prop :=
  v ∈ s.held ∧ ∃ m ∈ s.timeline.asserted, m.value ≠ v ∧ m.precedes ⟨v, .added, stamp⟩ = true

instance (s : Slot) (stamp : Stamp) (v : Octets) : Decidable (s.GivesWay stamp v) :=
  inferInstanceAs (Decidable (_ ∧ _))

/-- A value for which others wait gives way only to what its own mark precedes. -/
theorem GivesWay.exists_mark (gives : s.GivesWay stamp v) (h : s.ReadsBack true initial)
    (ht : s.timeline.Ordered) (few : initial.length ≤ 1) (marked : s.timeline.mark? v ≠ none) :
    ∃ n, s.timeline.mark? v = some n ∧ s.timeline.overrides n.stamp = false ∧
      n.precedes ⟨v, .added, stamp⟩ = true := by
  obtain ⟨held, m, waits, other, before⟩ := gives
  rcases (h.mem_held_single_iff few).mp held with untouched | ⟨-, n, head, rfl⟩
  · exact absurd (mem_kept.mp untouched).2.1 marked
  · obtain ⟨member, first⟩ := ht.head?_asserted head
    obtain ⟨mark, upheld⟩ := ht.mem_asserted.mp member
    refine ⟨n, mark, (upholds_iff.mp upheld).2, ?_⟩
    rcases first m waits with rfl | earlier
    · exact absurd rfl other
    · exact Mark.precedes_trans earlier before

theorem GivesWay.isNews (gives : s.GivesWay stamp v) (h : s.ReadsBack true initial)
    (ht : s.timeline.Ordered) (few : initial.length ≤ 1) :
    s.timeline.isNews ⟨v, .added, stamp⟩ = true := by
  by_contra known
  rcases isNews_eq_false (Bool.not_eq_true _ ▸ known) with newer | mark
  · obtain ⟨m, mark, newer⟩ := outdates_iff.mp newer
    obtain ⟨n, mark', -, before⟩ := gives.exists_mark h ht few (by simp [mark])
    obtain rfl : m = n := Option.some.inj (mark.symm.trans mark')
    rcases Mark.precedes_iff.mp before with older | ⟨same, -⟩
    · exact lt_asymm newer older
    · exact newer.ne' same
  · obtain ⟨n, mark', -, before⟩ := gives.exists_mark h ht few (by simp [mark])
    obtain rfl := Option.some.inj (mark.symm.trans mark')
    rw [Mark.not_precedes_self] at before
    cases before

theorem GivesWay.overrides_eq_false (gives : s.GivesWay stamp v) (h : s.ReadsBack true initial)
    (ht : s.timeline.Ordered) (few : initial.length ≤ 1) : s.timeline.overrides stamp = false := by
  rw [Bool.eq_false_iff]
  intro late
  obtain ⟨r, reset, newer⟩ := overrides_iff.mp late
  have marked := Option.isSome_iff_ne_none.mp
    (h.isSome_mark? ht (fun _ => few) (by simp [reset]) gives.1)
  obtain ⟨n, -, current, before⟩ := gives.exists_mark h ht few marked
  have older : n.stamp ≤ stamp := by
    rcases Mark.precedes_iff.mp before with older | ⟨same, -⟩
    · exact older.le
    · exact same.le
  rw [overrides_iff.mpr ⟨r, reset, older.trans_lt newer⟩] at current
  cases current

/-- The second slot is the first one with an addition of `v` noted that is news and not overridden. -/
structure Notes (initial : List Octets) (stamp : Stamp) (v : Octets) (s s' : Slot) : Prop where
  before : s.ReadsBack true initial
  after : s'.ReadsBack true initial
  ordered : s.timeline.Ordered
  few : initial.length ≤ 1
  noted : s'.timeline = s.timeline.note ⟨v, .added, stamp⟩
  news : s.timeline.isNews ⟨v, .added, stamp⟩ = true
  current : s.timeline.overrides stamp = false

namespace Notes

variable {m : Mark}

theorem mem_kept_iff (h : Notes initial stamp v s s') (other : w ≠ v) :
    w ∈ kept initial s'.timeline ↔ w ∈ kept initial s.timeline := by
  rw [mem_kept, mem_kept, h.noted, lastReset_note, mark?_note, if_neg fun own => other own.1]

theorem not_mem_kept (h : Notes initial stamp v s s') : v ∉ kept initial s'.timeline := by
  intro untouched
  have mark := (mem_kept.mp untouched).2.1
  rw [h.noted, mark?_note_of_isNews h.news] at mark
  cases mark

theorem mem_asserted_iff (h : Notes initial stamp v s s') : m ∈ s'.timeline.asserted ↔
    m = ⟨v, .added, stamp⟩ ∨ m ∈ s.timeline.asserted ∧ m.value ≠ v := by
  rw [h.noted, h.ordered.mem_asserted_note_iff h.news rfl h.current]

theorem head?_asserted_iff (h : Notes initial stamp v s s') : s'.timeline.asserted.head? = some m ↔
    m ∈ s'.timeline.asserted ∧ ∀ n ∈ s'.timeline.asserted, n = m ∨ m.precedes n = true := by
  rw [(h.noted ▸ h.ordered.note _ : s'.timeline.Ordered).head?_asserted_iff]

/-- Another value takes the slot when it was untouched, or when its addition was the first of those
that waited. -/
theorem exists_holder (h : Notes initial stamp v s s') (lost : v ∉ s'.held) :
    ∃ w ≠ v, w ∈ s'.held ∧ (w ∈ kept initial s.timeline ∨ kept initial s'.timeline = [] ∧
      ∃ m ∈ s.timeline.asserted, m.value = w ∧ s'.timeline.asserted.head? = some m) := by
  cases untouched : kept initial s'.timeline with
  | cons w rest =>
    have member : w ∈ kept initial s'.timeline := by simp [untouched]
    have other : w ≠ v := by
      rintro rfl
      exact h.not_mem_kept member
    exact ⟨w, other, (h.after.mem_held_single_iff h.few).mpr (.inl member),
      .inl ((h.mem_kept_iff other).mp member)⟩
  | nil =>
    cases head : s'.timeline.asserted.head? with
    | none =>
      have noted : ⟨v, .added, stamp⟩ ∈ s'.timeline.asserted := h.mem_asserted_iff.mpr (.inl rfl)
      rw [List.head?_eq_none_iff.mp head] at noted
      cases noted
    | some m =>
      have held : m.value ∈ s'.held :=
        (h.after.mem_held_single_iff h.few).mpr (.inr ⟨untouched, m, head, rfl⟩)
      have other : m.value ≠ v := by
        intro own
        exact lost (own ▸ held)
      rcases h.mem_asserted_iff.mp (h.head?_asserted_iff.mp head).1 with rfl | ⟨member, -⟩
      · exact absurd rfl other
      · exact ⟨m.value, other, held, .inr ⟨rfl, m, member, rfl, rfl⟩⟩

/-- A held value that is added again stays held unless it gives way. -/
theorem mem_held_iff (h : Notes initial stamp v s s') (held : v ∈ s.held) :
    v ∈ s'.held ↔ ¬s.GivesWay stamp v := by
  constructor
  · rintro stays ⟨-, m, waits, other, before⟩
    rcases (h.after.mem_held_single_iff h.few).mp stays with untouched | ⟨-, n, head, own⟩
    · exact h.not_mem_kept untouched
    · obtain ⟨member, first⟩ := h.head?_asserted_iff.mp head
      obtain rfl : n = ⟨v, .added, stamp⟩ :=
        (h.mem_asserted_iff.mp member).resolve_right fun old => old.2 own
      have after := first m (h.mem_asserted_iff.mpr (.inr ⟨waits, other⟩))
      exact other (congrArg Mark.value (Mark.eq_of_precedes after (.inr before))).symm
  · intro keeps
    by_contra lost
    obtain ⟨w, other, -, untouched | ⟨-, m, waits, rfl, head⟩⟩ := h.exists_holder lost
    · have held' := (h.before.mem_held_single_iff h.few).mpr (.inl untouched)
      exact other (eq_of_mem_of_length_le_one h.before.length_held_le held' held)
    · obtain ⟨-, first⟩ := h.head?_asserted_iff.mp head
      rcases first _ (h.mem_asserted_iff.mpr (.inl rfl)) with rfl | before
      · exact other rfl
      · exact keeps ⟨held, m, waits, other, before⟩

theorem held_eq_of_not_mem (h : Notes initial stamp v s s') (unheld : v ∉ s.held)
    (lost : v ∉ s'.held) : s'.held = s.held := by
  obtain ⟨w, other, taken, was⟩ := h.exists_holder lost
  have held : w ∈ s.held := by
    rcases was with untouched | ⟨gone, m, waits, rfl, head⟩
    · exact (h.before.mem_held_single_iff h.few).mpr (.inl untouched)
    · have gone' : kept initial s.timeline = [] := by
        refine List.eq_nil_iff_forall_not_mem.mpr fun x untouched => ?_
        have held := (h.before.mem_held_single_iff h.few).mpr (.inl untouched)
        have kept := (h.mem_kept_iff fun own => unheld (own ▸ held)).mpr untouched
        rw [gone] at kept
        cases kept
      -- The first mark from before is not about `v` either, so that it still is the first one.
      obtain ⟨n, first⟩ : ∃ n, s.timeline.asserted.head? = some n := by
        cases first : s.timeline.asserted.head? with
        | none =>
          rw [List.head?_eq_none_iff.mp first] at waits
          cases waits
        | some n => exact ⟨n, rfl⟩
      have held := (h.before.mem_held_single_iff h.few).mpr (.inr ⟨gone', n, first, rfl⟩)
      obtain ⟨member, least⟩ := h.ordered.head?_asserted first
      obtain ⟨-, least'⟩ := h.head?_asserted_iff.mp head
      have still := h.mem_asserted_iff.mpr (.inr ⟨member, fun own => unheld (own ▸ held)⟩)
      exact Mark.eq_of_precedes (least' n still) (least m waits) ▸ held
  refine eq_of_length_le_one h.after.length_held_le h.before.length_held_le fun x => ?_
  constructor
  · exact fun hx => eq_of_mem_of_length_le_one h.after.length_held_le hx taken ▸ held
  · exact fun hx => eq_of_mem_of_length_le_one h.before.length_held_le hx held ▸ taken

end Notes

theorem addSingle_of_known (known : ¬s.timeline.isNews ⟨v, .added, stamp⟩ = true) :
    s.addSingle stamp v = ⟨.ignored, s, false⟩ := by
  simp only [Slot.addSingle, if_neg known]

/-- An addition to a single-valued slot is noted, or it changes nothing that is held. -/
theorem ReadsBack.addSingle_cases (h : s.ReadsBack true initial) (ht : s.timeline.Ordered)
    (few : initial.length ≤ 1) (stamp : Stamp) (v : Octets) :
    Notes initial stamp v s (s.addSingle stamp v).slot ∨
      (∀ w, w ∈ (s.addSingle stamp v).slot.held ↔ w ∈ s.held) ∧ ¬s.GivesWay stamp v := by
  by_cases news : s.timeline.isNews ⟨v, .added, stamp⟩ = true
  · have after := h.addSingle ht few stamp v
    have noted : (s.addSingle stamp v).slot.timeline = s.timeline.note ⟨v, .added, stamp⟩ := by
      simp only [Slot.addSingle, if_pos news]
      rfl
    cases late : s.timeline.overrides stamp with
    | false => exact .inl ⟨h, after, ht, few, noted, news, late⟩
    | true =>
      refine .inr ⟨h.mem_held_iff_of_overrides after ht noted late, fun gives => ?_⟩
      rw [gives.overrides_eq_false h ht few] at late
      cases late
  · rw [addSingle_of_known news]
    exact .inr ⟨fun w => .rfl, fun gives => news (gives.isNews h ht few)⟩

/-- The value that holds a single-valued slot still does when it is added again, unless it gives
way. -/
theorem ReadsBack.mem_held_again_iff (h : s.ReadsBack true initial) (ht : s.timeline.Ordered)
    (few : initial.length ≤ 1) (stamp : Stamp) (held : v ∈ s.held) :
    v ∈ (s.addSingle stamp v).slot.held ↔ ¬s.GivesWay stamp v := by
  rcases h.addSingle_cases ht few stamp v with notes | ⟨same, stays⟩
  · exact notes.mem_held_iff held
  · exact iff_of_true ((same v).mpr held) stays

theorem verdictOfHolder_eq_ignored_iff {before now : Option Octets} :
    verdictOfHolder v before now = .ignored ↔ now ≠ some v := by
  cases now with
  | none => simp [verdictOfHolder]
  | some w =>
    simp only [verdictOfHolder]
    split
    · next other => simpa using other
    · next own =>
      obtain rfl := not_not.mp own
      split <;> simp

theorem mem_iff_head?_eq_some {l : List Octets} (few : l.length ≤ 1) :
    v ∈ l ↔ l.head? = some v := by
  rw [← Option.mem_toList, toList_head? few]

theorem verdict_addSingle (news : s.timeline.isNews ⟨v, .added, stamp⟩ = true) :
    (s.addSingle stamp v).verdict =
      verdictOfHolder v s.held.head? (s.addSingle stamp v).slot.held.head? := by
  simp only [Slot.addSingle, if_pos news]

theorem not_mem_of_addSingle_ignored (h : s.ReadsBack true initial) (ht : s.timeline.Ordered)
    (few : initial.length ≤ 1) (news : s.timeline.isNews ⟨v, .added, stamp⟩ = true)
    (ignored : (s.addSingle stamp v).verdict = .ignored) :
    v ∉ (s.addSingle stamp v).slot.held := by
  rw [verdict_addSingle news, verdictOfHolder_eq_ignored_iff] at ignored
  rwa [mem_iff_head?_eq_some (h.addSingle ht few stamp v).length_held_le]

theorem noteReplace_of_known {t : Timeline} {vs : List Octets}
    (known : (noteReplace t stamp vs).2 = false) : (noteReplace t stamp vs).1 = t := by
  have unchanged : ∀ (ws : List Octets) (p : Timeline × Bool),
      (ws.foldl (fun p v => (p.1.note ⟨v, .added, stamp⟩,
        p.2 || p.1.isNews ⟨v, .added, stamp⟩)) p).2 = false →
      (ws.foldl (fun p v => (p.1.note ⟨v, .added, stamp⟩,
        p.2 || p.1.isNews ⟨v, .added, stamp⟩)) p).1 = p.1 ∧ p.2 = false := by
    intro ws
    induction ws with
    | nil => exact fun p known => ⟨rfl, known⟩
    | cons w ws ih =>
      intro p known
      obtain ⟨rest, first⟩ := ih _ known
      obtain ⟨before, own⟩ := Bool.or_eq_false_iff.mp first
      exact ⟨rest.trans (note_eq_self (Bool.not_eq_true _ ▸ own)), before⟩
  obtain ⟨same, none⟩ := unchanged vs _ known
  have gone : superseded t stamp vs = [] := by simpa using none
  exact same.trans (by simp [gone])

theorem ReadsBack.held_replace_of_ignored (h : s.ReadsBack single initial)
    (ht : s.timeline.Ordered) (few : single = true → initial.length ≤ 1) {vs : List Octets}
    (ignored : (s.replace single stamp vs).verdict = .ignored) (w : Octets) :
    w ∈ (s.replace single stamp vs).slot.held ↔ w ∈ s.held := by
  have after := h.replace ht few stamp vs
  by_cases current : (s.timeline.reset stamp).lastReset = some stamp
  · have timeline : (s.replace single stamp vs).slot.timeline = s.timeline := by
      simp only [Slot.replace, if_pos current] at ignored ⊢
      have quiet : s.timeline.admitsReset stamp = false ∧
          (noteReplace (s.timeline.reset stamp) stamp vs).2 = false := by
        rw [← Bool.or_eq_false_iff]
        by_contra news
        rw [if_pos (Bool.not_eq_false _ ▸ news)] at ignored
        cases ignored
      have same := noteReplace_of_known quiet.2
      rw [reset_eq_self (by simp [quiet.1])] at same ⊢
      cases single <;> exact same
    exact h.mem_held_iff_of_asserted_eq after ht (timeline ▸ ht) (by rw [timeline])
      (by rw [timeline]) w
  · simp only [Slot.replace, if_neg current]

theorem ReadsBack.held_delete_of_ignored {created : Option Stamp} (h : s.ReadsBack single initial)
    (ht : s.timeline.Ordered) (few : single = true → initial.length ≤ 1)
    (ignored : (s.delete single created stamp v).verdict = .ignored) (w : Octets) :
    w ∈ (s.delete single created stamp v).slot.held ↔ w ∈ s.held := by
  have after := h.delete ht few created stamp v
  by_cases early : (created.any (stamp ≤ ·) && (s.timeline.mark? v).isNone) = true
  · simp only [Slot.delete, if_pos early]
  by_cases news : s.timeline.isNews ⟨v, .deleted, stamp⟩ = true
  · have late : s.timeline.overrides stamp = true := by
      simp only [Slot.delete, if_neg early, if_pos news, lastReset_note] at ignored
      by_contra current
      rw [overrides] at current
      simp [current] at ignored
    have noted : (s.delete single created stamp v).slot.timeline =
        s.timeline.note ⟨v, .deleted, stamp⟩ := by
      simp only [Slot.delete, if_neg early, if_pos news]
      cases single <;> rfl
    exact h.mem_held_iff_of_overrides after ht noted late w
  · simp only [Slot.delete, if_neg early, if_neg news]

theorem ReadsBack.held_addMulti_of_ignored (h : s.ReadsBack false initial)
    (ht : s.timeline.Ordered) (ignored : (s.addMulti stamp v).verdict = .ignored) (w : Octets) :
    w ∈ (s.addMulti stamp v).slot.held ↔ w ∈ s.held := by
  have after := h.addMulti stamp v
  by_cases news : s.timeline.isNews ⟨v, .added, stamp⟩ = true
  · have late : s.timeline.overrides stamp = true := by
      by_contra current
      have asserts : (s.timeline.note ⟨v, .added, stamp⟩).asserts v = true :=
        asserts_iff.mpr ⟨_, mark?_note_of_isNews news, upholds_iff.mpr ⟨rfl, by
          simpa [overrides] using current⟩⟩
      simp only [Slot.addMulti, if_pos news, if_pos asserts] at ignored
      cases ignored
    have noted : (s.addMulti stamp v).slot.timeline = s.timeline.note ⟨v, .added, stamp⟩ := by
      simp only [Slot.addMulti, if_pos news]
      split <;> rfl
    exact h.mem_held_iff_of_overrides after ht noted late w
  · simp only [Slot.addMulti, if_neg news]

/-- An ignored addition leaves a single-valued slot alone unless the held value gives way. -/
theorem ReadsBack.held_addSingle_of_ignored (h : s.ReadsBack true initial)
    (ht : s.timeline.Ordered) (few : initial.length ≤ 1)
    (ignored : (s.addSingle stamp v).verdict = .ignored) :
    (∀ w, w ∈ (s.addSingle stamp v).slot.held ↔ w ∈ s.held) ↔ ¬s.GivesWay stamp v := by
  rcases h.addSingle_cases ht few stamp v with notes | ⟨same, stays⟩
  · have lost := not_mem_of_addSingle_ignored h ht few notes.news ignored
    by_cases held : v ∈ s.held
    · have gives := not_not.mp fun stays => lost ((notes.mem_held_iff held).mpr stays)
      exact iff_of_false (fun same => lost ((same v).mpr held)) (not_not.mpr gives)
    · have same := notes.held_eq_of_not_mem held lost
      exact iff_of_true (fun w => by rw [same]) fun gives => held gives.1
  · exact iff_of_true same stays

/-- An ignored change leaves the held values alone, unless it adds the value that holds a
single-valued slot and that value gives way. -/
theorem ReadsBack.held_of_ignored (h : s.ReadsBack single initial) (ht : s.timeline.Ordered)
    (few : single = true → initial.length ≤ 1)
    (ignored : (s.resolve single created stamp c).verdict = .ignored) :
    (∀ w, w ∈ (s.resolve single created stamp c).slot.held ↔ w ∈ s.held) ↔
      ¬(single = true ∧ ∃ v, c = .add v ∧ s.GivesWay stamp v) := by
  cases c with
  | add v =>
    cases single with
    | true => simpa [Slot.resolve] using h.held_addSingle_of_ignored ht (few rfl) ignored
    | false => exact iff_of_true (h.held_addMulti_of_ignored ht ignored) (by simp)
  | delete v => exact iff_of_true (h.held_delete_of_ignored ht few ignored) (by simp)
  | clear => exact iff_of_true (h.held_replace_of_ignored ht few ignored) (by simp)
  | replace vs => exact iff_of_true (h.held_replace_of_ignored ht few ignored) (by simp)

theorem mem_held_of_addSingle (counted : (s.addSingle stamp v).verdict ≠ .ignored) :
    v ∈ (s.addSingle stamp v).slot.held := by
  have news : s.timeline.isNews ⟨v, .added, stamp⟩ = true := by
    by_contra known
    exact counted (by rw [addSingle_of_known known])
  rw [verdict_addSingle news, Ne, verdictOfHolder_eq_ignored_iff, not_not] at counted
  exact List.mem_of_mem_head? counted

theorem mem_held_of_addMulti (counted : (s.addMulti stamp v).verdict ≠ .ignored) :
    v ∈ (s.addMulti stamp v).slot.held := by
  simp only [Slot.addMulti] at counted ⊢
  split at counted
  · next news =>
    rw [if_pos news]
    split at counted
    · next asserts =>
      rw [if_pos asserts]
      dsimp only
      split
      · next held => exact List.contains_iff_mem.mp held
      · exact List.mem_append_right _ (.head _)
    · exact absurd rfl counted
  · exact absurd rfl counted

theorem mem_held_of_counted
    (counted : (s.resolve single created stamp (.add v)).verdict ≠ .ignored) :
    v ∈ (s.resolve single created stamp (.add v)).slot.held := by
  cases single with
  | true => exact mem_held_of_addSingle counted
  | false => exact mem_held_of_addMulti counted

theorem eq_of_verdictOfHolder_appliedAs {before now : Option Octets}
    (displaces : verdictOfHolder v before now = .appliedAs w) : w = v ∧ ∃ x ∈ before, x ≠ v := by
  cases now with
  | none => cases displaces
  | some y =>
    simp only [verdictOfHolder] at displaces
    split at displaces
    · cases displaces
    · split at displaces
      · next other =>
        cases displaces
        cases before with
        | none => cases other
        | some x => exact ⟨rfl, x, rfl, by simpa using other⟩
      · cases displaces

theorem addMulti_ne_appliedAs : (s.addMulti stamp w).verdict ≠ .appliedAs v := by
  simp only [Slot.addMulti]
  split
  · split <;> simp
  · simp

theorem delete_ne_appliedAs {created : Option Stamp} :
    (s.delete single created stamp w).verdict ≠ .appliedAs v := by
  simp only [Slot.delete]
  split
  · simp
  · split
    · dsimp only
      split <;> simp
    · simp

theorem replace_ne_appliedAs {vs : List Octets} :
    (s.replace single stamp vs).verdict ≠ .appliedAs v := by
  simp only [Slot.replace]
  split
  · dsimp only
    split <;> simp
  · simp

/-- A change that displaces a value adds one to a single-valued slot, and leaves it there alone. -/
theorem ReadsBack.held_of_appliedAs (h : s.ReadsBack single initial) (ht : s.timeline.Ordered)
    (few : single = true → initial.length ≤ 1)
    (displaces : (s.resolve single created stamp c).verdict = .appliedAs v) :
    (s.resolve single created stamp c).slot.held = [v] ∧ ∃ w ∈ s.held, w ≠ v := by
  cases c with
  | add w =>
    cases single with
    | true =>
      have displaces : (s.addSingle stamp w).verdict = .appliedAs v := displaces
      have news : s.timeline.isNews ⟨w, .added, stamp⟩ = true := by
        by_contra known
        rw [addSingle_of_known known] at displaces
        cases displaces
      have held : w ∈ (s.addSingle stamp w).slot.held := mem_held_of_addSingle (by simp [displaces])
      rw [verdict_addSingle news] at displaces
      obtain ⟨rfl, x, before, other⟩ := eq_of_verdictOfHolder_appliedAs displaces
      have alone := (h.addSingle ht (few rfl) stamp v).length_held_le
      refine ⟨?_, x, List.mem_of_mem_head? before, other⟩
      have first := (mem_iff_head?_eq_some alone).mp held
      exact (toList_head? alone).symm.trans (by rw [first]; rfl)
    | false => exact absurd displaces addMulti_ne_appliedAs
  | delete w => exact absurd displaces delete_ne_appliedAs
  | clear => exact absurd displaces replace_ne_appliedAs
  | replace vs => exact absurd displaces replace_ne_appliedAs

end Slot

end DirectoryHistory
