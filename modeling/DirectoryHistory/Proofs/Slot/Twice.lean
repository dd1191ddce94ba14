import DirectoryHistory.Proofs.Slot.Repeated

/-!
# Edits that a slot takes twice

An edit that comes again at once finds what it has left, and leaves it as it is unless a newer reset
overrides the edit. A replace does not turn marks around then. So changes that contradict a mark of the
edit may turn it for good, and even if they turn it back again, they have looked the slot up, which the
edit need not have done the first time.
-/

namespace DirectoryHistory.Slot

open Timeline

variable {s : Slot} {created : Option Stamp} {stamp : Stamp} {e : Edit} {v : Octets} {c : Change}
variable {cs : List Change} {x : Sense}

/-- The second slot holds the same values and has the same timeline. -/
structure SameAs (s s' : Slot) : Prop where
  timeline : s'.timeline = s.timeline
  held : ∀ v, v ∈ s'.held ↔ v ∈ s.held

/-- What an edit has left does not change when the edit comes again: if a newer reset overrides it, the
last word about a value that it contradicts itself about says what the mark says, and the slot holds
what it would if it were looked up. -/
def AtRest (single : Bool) (e : Edit) (s : Slot) : Prop :=
  s.timeline.overrides e.stamp = true → ∀ v x, s.timeline.mark? v = some ⟨v, x, e.stamp⟩ →
    e.Contradicts v x → e.lastWord v = some x ∧
      if single = true then ∀ w, w ∈ s.settleSingle.held ↔ w ∈ s.held else v ∉ s.held

theorem resolveEdit_cons (s : Slot) (single : Bool) (created : Option Stamp) (stamp : Stamp)
    (c : Change) (cs : List Change) : s.resolveEdit single created ⟨stamp, c :: cs⟩ =
      (s.resolve single created stamp c).slot.resolveEdit single created ⟨stamp, cs⟩ := rfl

theorem resolveEdit_snoc (s : Slot) (single : Bool) (created : Option Stamp) (stamp : Stamp)
    (cs : List Change) (c : Change) : s.resolveEdit single created ⟨stamp, cs ++ [c]⟩ =
      ((s.resolveEdit single created ⟨stamp, cs⟩).resolve single created stamp c).slot := by
  simp [resolveEdit]

theorem ordered_resolveEdit (ht : s.timeline.Ordered) (single : Bool) (created : Option Stamp)
    (e : Edit) : (s.resolveEdit single created e).timeline.Ordered := by
  rw [timeline_resolveEdit_since]
  exact ht.foldl_mergeSince created e.stamp e.changes

theorem knows_resolve (ht : s.timeline.Ordered) (known : ∀ d ∈ cs, s.timeline.Knows created stamp d)
    (single : Bool) (c : Change) :
    ∀ d ∈ cs, (s.resolve single created stamp c).slot.timeline.Knows created stamp d := by
  rw [timeline_resolve_since]
  exact fun d hd => (known d hd).mergeSince ht c

theorem overrides_resolve (single : Bool) (created : Option Stamp) (stamp : Stamp) (c : Change)
    (s : Slot) : (s.resolve single created stamp c).slot.timeline.overrides stamp =
      s.timeline.overrides stamp := by
  rw [timeline_resolve_since, overrides_mergeSince]

/-- A mark that a late edit has left outlasts changes that do not contradict it. -/
theorem mark?_resolve_of_late (ht : s.timeline.Ordered)
    (late : s.timeline.overrides stamp = true) (mark : s.timeline.mark? v = some ⟨v, x, stamp⟩)
    (agrees : ∀ y ∈ c.word v, y = x) (single : Bool) (created : Option Stamp) :
    (s.resolve single created stamp c).slot.timeline.mark? v = some ⟨v, x, stamp⟩ := by
  rw [timeline_resolve_since, mark?_mergeSince_of_mark ht mark, hears, if_pos late]
  cases word : c.word v with
  | none => rfl
  | some y => rw [agrees y word, Option.getD_some]

theorem isNews_of_contradiction {y : Sense} (mark : s.timeline.mark? v = some ⟨v, x, stamp⟩)
    (word : c.word v = some y) (other : y ≠ x) (created : Option Stamp) :
    s.timeline.isNews ⟨v, y, stamp⟩ = true ∧ s.timeline.drops created stamp c = false := by
  constructor
  · have amends : s.timeline.amends ⟨v, y, stamp⟩ = true :=
      amends_iff.mpr ⟨_, mark, rfl, fun same => other same.symm⟩
    rw [isNews, amends, Bool.or_true]
  · rw [Bool.eq_false_iff]
    intro dropped
    rw [mark?_eq_none_of_drops dropped (Change.names_of_word word)] at mark
    cases mark

theorem Heeds.resolveEdit (h : s.Heeds v) (ht : s.timeline.Ordered) (created : Option Stamp)
    (e : Edit) : (s.resolveEdit false created e).Heeds v := by
  obtain ⟨stamp, cs⟩ := e
  induction cs generalizing s with
  | nil => exact h
  | cons c cs ih =>
    exact ih (h.resolve ht created stamp c) (ordered_resolve ht false created stamp c)

theorem mem_held_resolveEdit_of_isQuiet (ht : s.timeline.Ordered)
    (known : ∀ c ∈ cs, s.timeline.Knows created stamp c)
    (quiet : ∀ c ∈ cs, s.timeline.IsQuiet stamp v c) :
    v ∈ (s.resolveEdit false created ⟨stamp, cs⟩).held ↔ v ∈ s.held := by
  induction cs generalizing s with
  | nil => rfl
  | cons c cs ih =>
    have first := known c (.head _)
    have same : (s.resolve false created stamp c).slot.timeline.mark? v = s.timeline.mark? v := by
      rw [timeline_resolve_since, first.mark?_of_isQuiet ht (quiet c (.head _))]
    rw [← mem_held_resolve_of_isQuiet ht first (quiet c (.head _))]
    refine ih (ordered_resolve ht false created stamp c)
      (knows_resolve ht (fun d hd => known d (.tail _ hd)) false c) fun d hd => ?_
    exact (quiet d (.tail _ hd)).congr same (overrides_resolve ..)

theorem heeds_of_contradicts (ht : s.timeline.Ordered)
    (late : s.timeline.overrides stamp = true) (mark : s.timeline.mark? v = some ⟨v, x, stamp⟩)
    (contradicts : Edit.Contradicts v x ⟨stamp, cs⟩) (created : Option Stamp) :
    (s.resolveEdit false created ⟨stamp, cs⟩).Heeds v := by
  induction cs generalizing s with
  | nil =>
    obtain ⟨c, hc, -⟩ := contradicts
    cases hc
  | cons c cs ih =>
    have ordered := ordered_resolve ht false created stamp c
    by_cases agrees : ∀ y ∈ c.word v, y = x
    · refine ih ordered (by rwa [overrides_resolve])
        (mark?_resolve_of_late ht late mark agrees false created) ?_
      obtain ⟨d, hd, y, word, other⟩ := contradicts
      rcases List.mem_cons.mp hd with rfl | hd
      · exact absurd (agrees y word) other
      · exact ⟨d, hd, y, word, other⟩
    · push Not at agrees
      obtain ⟨y, word, other⟩ := agrees
      obtain ⟨news, taken⟩ := isNews_of_contradiction mark word other created
      exact (heeds_of_news word news taken).resolveEdit ordered created ⟨stamp, cs⟩

/-- After an edit that takes all its changes a value has been looked up, or the edit has nothing more to
say about it. -/
theorem heeds_or_isQuiet_resolveEdit (ht : s.timeline.Ordered)
    (takes : s.timeline.TakesAll stamp cs) (created : Option Stamp) (v : Octets) :
    (s.resolveEdit false created ⟨stamp, cs⟩).Heeds v ∨
      ∀ c ∈ cs, (s.resolveEdit false created ⟨stamp, cs⟩).timeline.IsQuiet stamp v c := by
  induction cs using List.reverseRecOn with
  | nil => exact .inr fun _ h => nomatch h
  | append_singleton cs c ih =>
    rw [resolveEdit_snoc]
    have ordered := ordered_resolveEdit ht false created ⟨stamp, cs⟩
    have overrides : (s.resolveEdit false created ⟨stamp, cs⟩).timeline.overrides stamp =
        s.timeline.overrides stamp := by
      rw [timeline_resolveEdit_since, overrides_foldl_mergeSince]
    have before := ih fun late d hd => takes late d (List.mem_append_left _ hd)
    generalize s.resolveEdit false created ⟨stamp, cs⟩ = s₁ at before ordered overrides ⊢
    rcases before with heeds | quiet
    · exact .inl (heeds.resolve ordered created stamp c)
    have taken : s₁.timeline.overrides stamp = true → c.resets = false := by
      rw [overrides]
      exact fun late => takes late c (by simp)
    rcases heeds_or_isQuiet_resolve ordered taken created v with heeds | ⟨last, same⟩
    · exact .inl heeds
    right
    intro d hd
    rcases List.mem_append.mp hd with hd | hd
    · exact (quiet d hd).congr same (overrides_resolve ..)
    · exact List.mem_singleton.mp hd ▸ last

/-- An edit that takes all its changes settles the slot or leaves it as it is. -/
theorem resolveEdit_single_eq_or (ht : s.timeline.Ordered) (takes : s.timeline.TakesAll stamp cs)
    (created : Option Stamp) : let s' := s.resolveEdit true created ⟨stamp, cs⟩
    s' = s ∨ s'.settleSingle = s' := by
  induction cs using List.reverseRecOn with
  | nil => exact .inl rfl
  | append_singleton cs c ih =>
    rw [resolveEdit_snoc]
    have ordered := ordered_resolveEdit ht true created ⟨stamp, cs⟩
    have taken : (s.resolveEdit true created ⟨stamp, cs⟩).timeline.overrides stamp = true →
        c.resets = false := by
      rw [timeline_resolveEdit_since, overrides_foldl_mergeSince]
      exact fun late => takes late c (by simp)
    have before := ih fun late d hd => takes late d (List.mem_append_left _ hd)
    rcases resolve_single_eq_or ordered created taken with same | settled
    · rw [same]
      exact before
    · exact .inr settled

/-- An edit that comes again leaves the slot as it is or settles it, and leaves the unrecorded value. -/
theorem resolveEdit_single_of_knows (ht : s.timeline.Ordered)
    (known : ∀ c ∈ cs, s.timeline.Knows created stamp c) :
    let s' := s.resolveEdit true created ⟨stamp, cs⟩
    (s' = s ∨ s'.settleSingle = s') ∧ s'.unrecorded.head? = s.unrecorded.head? := by
  induction cs generalizing s with
  | nil => exact ⟨.inl rfl, rfl⟩
  | cons c cs ih =>
    have ordered := ordered_resolve ht true created stamp c
    obtain ⟨rest, unrecorded⟩ :=
      ih ordered (knows_resolve ht (fun d hd => known d (.tail _ hd)) true c)
    rw [resolveEdit_cons]
    rcases resolve_single_of_knows ht (known c (.head _)) with same | ⟨settled, head⟩
    · rw [same] at rest unrecorded ⊢
      exact ⟨rest, unrecorded⟩
    · refine ⟨.inr ?_, unrecorded.trans head⟩
      rcases rest with same | settled
      · rw [same, settled]
      · exact settled

theorem settleSingle_of_contradicts (ht : s.timeline.Ordered)
    (known : ∀ c ∈ cs, s.timeline.Knows created stamp c)
    (late : s.timeline.overrides stamp = true) (mark : s.timeline.mark? v = some ⟨v, x, stamp⟩)
    (contradicts : Edit.Contradicts v x ⟨stamp, cs⟩) :
    let s' := s.resolveEdit true created ⟨stamp, cs⟩
    s'.settleSingle = s' := by
  induction cs generalizing s with
  | nil =>
    obtain ⟨c, hc, -⟩ := contradicts
    cases hc
  | cons c cs ih =>
    have ordered := ordered_resolve ht true created stamp c
    have rest := knows_resolve ht (fun d hd => known d (.tail _ hd)) true c
    rw [resolveEdit_cons]
    by_cases agrees : ∀ y ∈ c.word v, y = x
    · refine ih ordered rest (by rwa [overrides_resolve])
        (mark?_resolve_of_late ht late mark agrees true created) ?_
      obtain ⟨d, hd, y, word, other⟩ := contradicts
      rcases List.mem_cons.mp hd with rfl | hd
      · exact absurd (agrees y word) other
      · exact ⟨d, hd, y, word, other⟩
    · push Not at agrees
      obtain ⟨y, word, other⟩ := agrees
      obtain ⟨news, taken⟩ := isNews_of_contradiction mark word other created
      have settled := settleSingle_settleSingle
        (s := ⟨s.held, s.timeline.mergeSince created stamp c⟩) (ht.mergeSince created stamp c)
      rw [← resolve_single_of_news word news taken] at settled
      rcases (resolveEdit_single_of_knows ordered rest).1 with same | again
      · rw [same]
        exact settled
      · exact again

theorem held_eq_of_settled {s' : Slot} (settled : s'.settleSingle = s')
    (timeline : s'.timeline = s.timeline)
    (unrecorded : s'.unrecorded.head? = s.unrecorded.head?) : s'.held = s.settleSingle.held := by
  rw [← settled, settleSingle, settleSingle, unrecorded, timeline]

/-- An edit that takes all its changes leaves the slot as it is when it comes again. -/
theorem sameAs_of_takesAll (ht : s.timeline.Ordered)
    (takes : s.timeline.TakesAll e.stamp e.changes) (single : Bool) (created : Option Stamp) :
    let s' := s.resolveEdit single created e
    s'.SameAs (s'.resolveEdit single created e) := by
  intro s'
  have once : s'.timeline = e.changes.foldl (mergeSince created e.stamp) s.timeline :=
    timeline_resolveEdit_since single created e s
  have ordered : s'.timeline.Ordered := ordered_resolveEdit ht single created e
  have known : ∀ c ∈ e.changes, s'.timeline.Knows created e.stamp c :=
    once ▸ knows_foldl_mergeSince ht created e.stamp e.changes
  have timeline : (s'.resolveEdit single created e).timeline = s'.timeline := by
    rw [timeline_resolveEdit_since, once, takes.foldl_mergeSince_eq ht created]
  refine ⟨timeline, fun v => ?_⟩
  cases single with
  | false =>
    rcases heeds_or_isQuiet_resolveEdit ht takes created v with heeds | quiet
    · have again : (s'.resolveEdit false created e).Heeds v :=
        Heeds.resolveEdit heeds ordered created e
      rw [Heeds, timeline] at again
      exact again.trans (show v ∈ s'.held ↔ _ from heeds).symm
    · exact mem_held_resolveEdit_of_isQuiet ordered known quiet
  | true =>
    obtain ⟨again, unrecorded⟩ := resolveEdit_single_of_knows ordered known
    have held : (s'.resolveEdit true created e).held = s'.held := by
      rcases resolveEdit_single_eq_or ht takes created with same | settled
      · exact congrArg held (congrArg (Slot.resolveEdit true created · e) same)
      rcases again with same | settled'
      · exact congrArg Slot.held same
      · rw [held_eq_of_settled settled' timeline unrecorded]
        exact congrArg Slot.held settled
    rw [held]

/-- A late edit leaves the timeline when it comes again exactly if no last word turns a mark around. -/
theorem timeline_resolveEdit_eq_iff (ht : s.timeline.Ordered)
    (known : ∀ c ∈ e.changes, s.timeline.Knows created e.stamp c)
    (late : s.timeline.overrides e.stamp = true) (single : Bool) :
    (s.resolveEdit single created e).timeline = s.timeline ↔
      ∀ v x, s.timeline.mark? v = some ⟨v, x, e.stamp⟩ → ∀ y ∈ e.lastWord v, y = x := by
  have hears : ∀ v, s.timeline.hears e.stamp v = (·.word v) := by
    intro v
    funext c
    rw [Timeline.hears, if_pos late]
  rw [timeline_resolveEdit_since, foldl_mergeSince_eq_iff ht known]
  simp only [hears]
  rfl

theorem resolveEdit_eq_self (ht : s.timeline.Ordered)
    (known : ∀ c ∈ cs, s.timeline.Knows created stamp c)
    (late : s.timeline.overrides stamp = true)
    (consistent : ∀ v x, s.timeline.mark? v = some ⟨v, x, stamp⟩ →
      ¬Edit.Contradicts v x ⟨stamp, cs⟩) (single : Bool) :
    s.resolveEdit single created ⟨stamp, cs⟩ = s := by
  induction cs with
  | nil => rfl
  | cons c cs ih =>
    have first : (s.resolve single created stamp c).slot = s := by
      cases resets : c.resets with
      | true => exact resolve_of_late ht (known c (.head _)) resets late single
      | false =>
        obtain ⟨v, y, word, -, -⟩ := Change.exists_word resets
        refine resolve_of_stale word ?_
        rw [← Bool.not_eq_false, or_iff_not_imp_right, not_not]
        intro taken
        refine (known c (.head _)).isNews_eq_false word taken fun x mark => ?_
        by_contra other
        exact consistent v x mark ⟨c, .head _, y, word, other⟩
    rw [resolveEdit_cons, first]
    refine ih (fun d hd => known d (.tail _ hd)) fun v x mark contradicts => ?_
    obtain ⟨d, hd, contradicts⟩ := contradicts
    exact consistent v x mark ⟨d, .tail _ hd, contradicts⟩

theorem not_asserts_of_late (late : s.timeline.overrides stamp = true)
    (mark : s.timeline.mark? v = some ⟨v, x, stamp⟩) : s.timeline.asserts v ≠ true := by
  intro asserted
  obtain ⟨m, hm, upheld⟩ := asserts_iff.mp asserted
  obtain rfl := Option.some.inj (mark.symm.trans hm)
  rw [(upholds_iff.mp upheld).2] at late
  cases late

theorem SameAs.atRest (ht : s.timeline.Ordered)
    (known : ∀ c ∈ e.changes, s.timeline.Knows created e.stamp c) {single : Bool}
    (same : s.SameAs (s.resolveEdit single created e)) : s.AtRest single e := by
  intro late v x mark contradicts
  obtain ⟨y, said⟩ := contradicts.exists_lastWord
  have last := (timeline_resolveEdit_eq_iff ht known late single).mp same.timeline v x mark y said
  refine ⟨last ▸ said, ?_⟩
  cases single with
  | false =>
    have heeds := heeds_of_contradicts ht late mark contradicts created
    rw [Heeds, same.timeline, same.held] at heeds
    exact fun held => not_asserts_of_late late mark (heeds.mp held)
  | true =>
    have settled := settleSingle_of_contradicts ht known late mark contradicts
    have unrecorded := (resolveEdit_single_of_knows ht known).2
    intro w
    rw [← held_eq_of_settled settled same.timeline unrecorded]
    exact same.held w

theorem AtRest.sameAs {single : Bool} (rest : s.AtRest single e) (ht : s.timeline.Ordered)
    (known : ∀ c ∈ e.changes, s.timeline.Knows created e.stamp c)
    (late : s.timeline.overrides e.stamp = true) : s.SameAs (s.resolveEdit single created e) := by
  have timeline : (s.resolveEdit single created e).timeline = s.timeline := by
    refine (timeline_resolveEdit_eq_iff ht known late single).mpr fun v x mark y said => ?_
    by_cases contradicts : e.Contradicts v x
    · exact Option.some.inj (said.symm.trans (rest late v x mark contradicts).1)
    · exact Edit.eq_of_lastWord contradicts said
  refine ⟨timeline, ?_⟩
  cases single with
  | false =>
    intro v
    by_cases turned : ∃ x, s.timeline.mark? v = some ⟨v, x, e.stamp⟩ ∧ e.Contradicts v x
    · obtain ⟨x, mark, contradicts⟩ := turned
      have heeds := heeds_of_contradicts ht late mark contradicts created
      rw [Heeds, timeline] at heeds
      exact iff_of_false (fun held => not_asserts_of_late late mark (heeds.mp held))
        (rest late v x mark contradicts).2
    · refine mem_held_resolveEdit_of_isQuiet ht known fun c hc =>
        ⟨fun x mark y said => ?_, fun _ => .inl late⟩
      by_contra other
      exact turned ⟨x, mark, c, hc, y, said, other⟩
  | true =>
    by_cases turned : ∃ v x, s.timeline.mark? v = some ⟨v, x, e.stamp⟩ ∧ e.Contradicts v x
    · obtain ⟨v, x, mark, contradicts⟩ := turned
      obtain ⟨same | settled, unrecorded⟩ := resolveEdit_single_of_knows ht known
      · exact fun w => by rw [show s.resolveEdit true created e = s from same]
      · intro w
        rw [show (s.resolveEdit true created e).held = s.settleSingle.held from
          held_eq_of_settled settled timeline unrecorded]
        exact (rest late v x mark contradicts).2 w
    · have all := resolveEdit_eq_self ht known late
        (fun v x mark contradicts => turned ⟨v, x, mark, contradicts⟩) true
      exact fun w => by rw [show s.resolveEdit true created e = s from all]

/-- An edit leaves what it has left exactly if that is at rest. -/
theorem sameAs_resolveEdit_iff (ht : s.timeline.Ordered) (single : Bool)
    (created : Option Stamp) (e : Edit) : let s' := s.resolveEdit single created e
    s'.SameAs (s'.resolveEdit single created e) ↔ s'.AtRest single e := by
  intro s'
  have once : s'.timeline = e.changes.foldl (mergeSince created e.stamp) s.timeline :=
    timeline_resolveEdit_since single created e s
  have ordered : s'.timeline.Ordered := ordered_resolveEdit ht single created e
  have known : ∀ c ∈ e.changes, s'.timeline.Knows created e.stamp c :=
    once ▸ knows_foldl_mergeSince ht created e.stamp e.changes
  refine ⟨fun same => same.atRest ordered known, fun rest => ?_⟩
  cases late : s'.timeline.overrides e.stamp with
  | true => exact rest.sameAs ordered known late
  | false =>
    refine sameAs_of_takesAll ht (fun late' => ?_) single created
    rw [once, overrides_foldl_mergeSince, late'] at late
    cases late

end DirectoryHistory.Slot
