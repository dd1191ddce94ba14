import DirectoryHistory.Proofs.Slot.Early
import DirectoryHistory.Proofs.Timeline.Late

/-!
# Edits that come again

After an edit the timeline has all that its changes say, up to deletes from before the creation that it
dropped. When the same changes come once more they give no value a new mark. All they can do is to turn
the marks around that they have left themselves, one after the other, and the last one that speaks of
a value decides. It decides as it did the first time, unless a newer reset overrides the edit: a replace
does not turn a mark around then, though it may have left the mark in the first place.
-/

namespace DirectoryHistory

namespace Change

/-- What the change says of `v` alone. -/
def word (v : Octets) : Change → Option Sense
  | .add w => if w = v then some .added else none
  | .delete w => if w = v then some .deleted else none
  | .clear | .replace _ => none

variable {v : Octets} {c : Change} {x : Sense}

theorem word_of_not_resets (h : c.resets = false) : c.word v = c.outcome v := by
  cases c <;> simp_all [word, outcome, resets]

theorem word_of_resets (h : c.resets = true) : c.word v = none := by
  cases c <;> simp_all [word, resets]

theorem word_of_not_names (h : c.names v = false) : c.word v = none := by
  cases c <;> simp_all [word, names]

theorem names_of_word (h : c.word v = some x) : c.names v = true := by
  by_contra unnamed
  rw [word_of_not_names (Bool.not_eq_true _ ▸ unnamed)] at h
  cases h

/-- A late change leaves a mark of its edit alone unless it speaks of the value alone. -/
theorem lateOutcome_some (v : Octets) (x : Sense) (c : Change) :
    c.lateOutcome v (some x) = (c.word v).or (some x) := by
  cases c with
  | add w | delete w => by_cases h : w = v <;> simp [lateOutcome, word, h]
  | clear => rfl
  | replace ws => simp [lateOutcome, word]

end Change

namespace Edit

/-- What the last of the changes says that says anything, where `f` is what a change says. -/
def lastOf (f : Change → Option Sense) (cs : List Change) : Option Sense :=
  cs.foldl (fun o c => (f c).or o) none

/-- What the last change that speaks of `v` alone says of it. -/
def lastWord (v : Octets) (e : Edit) : Option Sense :=
  lastOf (·.word v) e.changes

/-- Whether a change of the edit says of `v` alone something else than `x`. -/
def Contradicts (v : Octets) (x : Sense) (e : Edit) : Prop :=
  ∃ c ∈ e.changes, ∃ y ∈ c.word v, y ≠ x

instance (v : Octets) (x : Sense) : DecidablePred (Contradicts v x) := fun e =>
  inferInstanceAs (Decidable (∃ c ∈ e.changes, ∃ y ∈ c.word v, y ≠ x))

variable {f : Change → Option Sense} {c : Change} {cs : List Change} {x : Sense}

theorem lastOf_cons (f : Change → Option Sense) (c : Change) (cs : List Change) :
    lastOf f (c :: cs) = (lastOf f cs).or (f c) := by
  have fold : ∀ o, cs.foldl (fun o c => (f c).or o) o = (lastOf f cs).or o := by
    induction cs using List.reverseRecOn with
    | nil => exact fun _ => rfl
    | append_singleton cs d ih =>
      intro o
      rw [lastOf, List.foldl_append, List.foldl_append, ih, ← lastOf]
      simp [Option.or_assoc]
  rw [lastOf, List.foldl_cons, fold, Option.or_none]

theorem mem_lastOf (h : x ∈ lastOf f cs) : ∃ c ∈ cs, x ∈ f c := by
  induction cs with
  | nil => cases h
  | cons c cs ih =>
    rw [lastOf_cons, Option.mem_def, Option.or_eq_some_iff] at h
    rcases h with h | ⟨-, h⟩
    · obtain ⟨d, hd, hx⟩ := ih h
      exact ⟨d, .tail _ hd, hx⟩
    · exact ⟨c, .head _, h⟩

theorem lastOf_isSome (hc : c ∈ cs) (said : (f c).isSome = true) : (lastOf f cs).isSome = true := by
  induction cs with
  | nil => cases hc
  | cons d cs ih =>
    rw [lastOf_cons, Option.isSome_or, Bool.or_eq_true]
    rcases List.mem_cons.mp hc with rfl | hc
    · exact .inr said
    · exact .inl (ih hc)

theorem Contradicts.exists_lastWord {v : Octets} {e : Edit} (h : e.Contradicts v x) :
    ∃ y, y ∈ e.lastWord v := by
  obtain ⟨c, hc, y, word, -⟩ := h
  have said : (c.word v).isSome = true := Option.isSome_iff_exists.mpr ⟨y, word⟩
  exact Option.isSome_iff_exists.mp (lastOf_isSome (f := (·.word v)) hc said)

theorem eq_of_lastWord {v : Octets} {e : Edit} (h : ¬e.Contradicts v x) {y : Sense}
    (said : y ∈ e.lastWord v) : y = x := by
  obtain ⟨c, hc, word⟩ := mem_lastOf said
  by_contra other
  exact h ⟨c, hc, y, word, other⟩

end Edit

namespace Timeline

variable {t : Timeline} {created : Option Stamp} {s : Stamp} {v : Octets} {c d : Change}
variable {cs : List Change} {x : Sense}

/-- What a change at `s` says of `v` to a timeline that has a mark of `s` about it. -/
def hears (t : Timeline) (s : Stamp) (v : Octets) (c : Change) : Option Sense :=
  if t.overrides s = true then c.word v else c.outcome v

/-- The timeline has all that the change at `s` says. -/
structure Knows (created : Option Stamp) (s : Stamp) (t : Timeline) (c : Change) : Prop where
  marks : ∀ v, c.names v = true → t.drops created s c = true ∨ ∃ m, t.mark? v = some m ∧ s ≤ m.stamp
  reset : c.resets = true → ∃ r, t.lastReset = some r ∧ s ≤ r

theorem lastReset_mergeSince (created : Option Stamp) (s : Stamp) (t : Timeline) (c : Change) :
    (t.mergeSince created s c).lastReset =
      if c.resets = true then Stamp.newest t.lastReset (some s) else t.lastReset := by
  rw [mergeSince]
  split
  · cases c <;> simp_all [drops, Change.resets]
  · exact lastReset_merge s t c

theorem overrides_mergeSince (created : Option Stamp) (s : Stamp) (t : Timeline) (c : Change) :
    (t.mergeSince created s c).overrides s = t.overrides s := by
  rw [mergeSince]
  split
  · rfl
  · exact overrides_foldl_merge s [c] t

theorem mark?_mergeSince_eq_or (ht : t.Ordered) (created : Option Stamp) (s : Stamp) (c : Change)
    (v : Octets) : (t.mergeSince created s c).mark? v = t.mark? v ∨
      ∃ x, (t.mergeSince created s c).mark? v = some ⟨v, x, s⟩ := by
  rw [mergeSince]
  split
  · exact .inl rfl
  · exact mark?_merge_eq_or ht s c v

theorem mark?_eq_none_of_drops (dropped : t.drops created s c = true) (named : c.names v = true) :
    t.mark? v = none := by
  cases c <;> simp_all [drops, Change.names]

theorem mark?_mergeSince_of_mark (ht : t.Ordered) (mark : t.mark? v = some ⟨v, x, s⟩)
    (created : Option Stamp) (c : Change) :
    (t.mergeSince created s c).mark? v = some ⟨v, (t.hears s v c).getD x, s⟩ := by
  have merged : (t.merge s c).mark? v = some ⟨v, (t.hears s v c).getD x, s⟩ := by
    rw [mark?_merge_of_mark ht mark, Change.lateOutcome_some, hears]
    cases t.overrides s <;> simp [Option.or_some]
  rw [mergeSince]
  split
  · next dropped =>
    -- A dropped change is about another value.
    have unnamed : c.names v = false := by
      rw [Bool.eq_false_iff]
      intro named
      rw [mark?_eq_none_of_drops dropped named] at mark
      cases mark
    have single : c.resets = false := by
      cases c <;> simp_all [drops, Change.resets]
    have silent : t.hears s v c = none := by
      rw [hears, Change.word_of_not_resets single, ite_self, Change.outcome_eq_none unnamed single]
    rw [silent, mark, Option.getD_none]
  · exact merged

theorem knows_mergeSince (ht : t.Ordered) (created : Option Stamp) (s : Stamp) (c : Change) :
    (t.mergeSince created s c).Knows created s c where
  marks v named := by
    by_cases dropped : t.drops created s c = true
    · rw [mergeSince, if_pos dropped]
      exact .inl dropped
    · have stamp := stamp_mark?_merge ht s c v
      obtain ⟨n, hn, le, -⟩ := Stamp.newest_some_spec ((t.mark? v).map (·.stamp)) s
      rw [if_pos named, hn, Option.map_eq_some_iff] at stamp
      obtain ⟨m, hm, rfl⟩ := stamp
      rw [mergeSince, if_neg dropped]
      exact .inr ⟨m, hm, le⟩
  reset resets := by
    obtain ⟨n, hn, le, -⟩ := Stamp.newest_some_spec t.lastReset s
    exact ⟨n, by rw [lastReset_mergeSince, if_pos resets, hn], le⟩

theorem Knows.mergeSince (h : t.Knows created s c) (ht : t.Ordered) (d : Change) :
    (t.mergeSince created s d).Knows created s c where
  marks v named := by
    rcases mark?_mergeSince_eq_or ht created s d v with same | ⟨x, new⟩
    · rcases h.marks v named with dropped | ⟨m, hm, le⟩
      · cases c with
        | delete w =>
          obtain rfl : w = v := by simpa [Change.names] using named
          exact .inl (by simpa [drops, same] using dropped)
        | add w | clear | replace ws => simp [drops] at dropped
      · exact .inr ⟨m, same.trans hm, le⟩
    · exact .inr ⟨_, new, le_rfl⟩
  reset resets := by
    obtain ⟨r, hr, le⟩ := h.reset resets
    rw [lastReset_mergeSince]
    split
    · obtain ⟨n, hn, le', -⟩ := Stamp.newest_some_spec t.lastReset s
      exact ⟨n, hn, le'⟩
    · exact ⟨r, hr, le⟩

theorem Knows.lastReset_mergeSince_eq (h : t.Knows created s c) :
    (t.mergeSince created s c).lastReset = t.lastReset := by
  rw [lastReset_mergeSince]
  split
  · next resets =>
    obtain ⟨r, hr, le⟩ := h.reset resets
    rw [hr, Stamp.newest_some, max_eq_left le]
  · rfl

/-- A change that comes again leaves all other marks than its own. -/
theorem Knows.mark?_mergeSince_eq (h : t.Knows created s c) (ht : t.Ordered)
    (other : ∀ x, t.mark? v ≠ some ⟨v, x, s⟩) :
    (t.mergeSince created s c).mark? v = t.mark? v := by
  rw [Timeline.mergeSince]
  split
  · rfl
  next taken =>
  cases named : c.names v with
  | false => rw [mark?_merge_of_not_names ht named, if_neg fun turned => other _ turned.2.2]
  | true =>
    obtain ⟨m, hm, le⟩ := (h.marks v named).resolve_left taken
    have newer : s < m.stamp := by
      refine lt_of_le_of_ne le fun same => other m.sense ?_
      obtain ⟨w, x, s'⟩ := m
      obtain rfl : w = v := mark?_value hm
      obtain rfl : s = s' := same
      exact hm
    exact mark?_merge_of_outdates ht (outdates_iff.mpr ⟨m, hm, newer⟩) c

theorem overrides_foldl_mergeSince (created : Option Stamp) (s : Stamp) (cs : List Change)
    (t : Timeline) : (cs.foldl (mergeSince created s) t).overrides s = t.overrides s := by
  induction cs generalizing t with
  | nil => rfl
  | cons c cs ih => rw [List.foldl_cons, ih, overrides_mergeSince]

theorem hears_foldl_mergeSince (created : Option Stamp) (s : Stamp) (cs : List Change)
    (t : Timeline) : (cs.foldl (mergeSince created s) t).hears s = t.hears s := by
  funext v c
  rw [hears, hears, overrides_foldl_mergeSince]

theorem mark?_foldl_mergeSince_of_mark (ht : t.Ordered) (mark : t.mark? v = some ⟨v, x, s⟩)
    (created : Option Stamp) (cs : List Change) : (cs.foldl (mergeSince created s) t).mark? v =
      some ⟨v, (Edit.lastOf (t.hears s v) cs).getD x, s⟩ := by
  induction cs generalizing t x with
  | nil => exact mark
  | cons c cs ih =>
    have same : (t.mergeSince created s c).hears s = t.hears s :=
      hears_foldl_mergeSince created s [c] t
    rw [List.foldl_cons, ih (ht.mergeSince created s c) (mark?_mergeSince_of_mark ht mark created c),
      same, Edit.lastOf_cons]
    cases Edit.lastOf (t.hears s v) cs <;> rfl

theorem knows_foldl_mergeSince (ht : t.Ordered) (created : Option Stamp) (s : Stamp)
    (cs : List Change) : ∀ c ∈ cs, (cs.foldl (mergeSince created s) t).Knows created s c := by
  induction cs using List.reverseRecOn with
  | nil => exact fun _ h => nomatch h
  | append_singleton cs d ih =>
    have ordered := ht.foldl_mergeSince created s cs
    intro c hc
    rw [List.foldl_append, List.foldl_cons, List.foldl_nil]
    rcases List.mem_append.mp hc with hc | hc
    · exact (ih c hc).mergeSince ordered d
    · rw [List.mem_singleton.mp hc]
      exact knows_mergeSince ordered created s d

theorem lastReset_foldl_of_knows (ht : t.Ordered) (known : ∀ c ∈ cs, t.Knows created s c) :
    (cs.foldl (mergeSince created s) t).lastReset = t.lastReset := by
  induction cs generalizing t with
  | nil => rfl
  | cons c cs ih =>
    rw [List.foldl_cons, ih (ht.mergeSince created s c) fun d hd =>
      (known d (.tail _ hd)).mergeSince ht c, (known c (.head _)).lastReset_mergeSince_eq]

theorem mark?_foldl_of_knows (ht : t.Ordered) (known : ∀ c ∈ cs, t.Knows created s c)
    (other : ∀ x, t.mark? v ≠ some ⟨v, x, s⟩) :
    (cs.foldl (mergeSince created s) t).mark? v = t.mark? v := by
  induction cs generalizing t with
  | nil => rfl
  | cons c cs ih =>
    have same := (known c (.head _)).mark?_mergeSince_eq ht other
    rw [List.foldl_cons, ih (ht.mergeSince created s c)
      (fun d hd => (known d (.tail _ hd)).mergeSince ht c) (same ▸ other), same]

/-- Changes that come again leave the timeline exactly if the last of them that speaks of a value says
what the mark says that they left about it. -/
theorem foldl_mergeSince_eq_iff (ht : t.Ordered) (known : ∀ c ∈ cs, t.Knows created s c) :
    cs.foldl (mergeSince created s) t = t ↔ ∀ v x, t.mark? v = some ⟨v, x, s⟩ →
      ∀ y ∈ Edit.lastOf (t.hears s v) cs, y = x := by
  constructor
  · intro same v x mark y last
    have after := mark?_foldl_mergeSince_of_mark ht mark created cs
    rw [same, mark, last, Option.getD_some, Option.some_inj, Mark.mk.injEq] at after
    exact after.2.1.symm
  · intro settled
    refine (ht.foldl_mergeSince created s cs).ext ht (lastReset_foldl_of_knows ht known) fun v => ?_
    by_cases own : ∃ x, t.mark? v = some ⟨v, x, s⟩
    · obtain ⟨x, mark⟩ := own
      rw [mark?_foldl_mergeSince_of_mark ht mark, mark]
      cases last : Edit.lastOf (t.hears s v) cs with
      | none => rfl
      | some y => rw [settled v x mark y last, Option.getD_some]
    · exact mark?_foldl_of_knows ht known fun x mark => own ⟨x, mark⟩

/-- No replace among the changes at `s` finds a newer reset. -/
def TakesAll (t : Timeline) (s : Stamp) (cs : List Change) : Prop :=
  t.overrides s = true → ∀ c ∈ cs, c.resets = false

theorem TakesAll.hears_eq (h : t.TakesAll s cs) (hc : c ∈ cs) (v : Octets) :
    t.hears s v c = c.outcome v := by
  rw [hears]
  split
  · next late => exact Change.word_of_not_resets (h late c hc)
  · rfl

theorem TakesAll.lastOf_hears_eq (h : t.TakesAll s cs) (v : Octets) :
    Edit.lastOf (t.hears s v) cs = Edit.outcomeOf v cs :=
  List.foldl_ext _ _ _ fun _ _ hc => by rw [h.hears_eq hc v]

/-- A mark that the changes have left has their outcome. -/
theorem TakesAll.eq_of_mark?_foldl (h : t.TakesAll s cs) (ht : t.Ordered)
    (mark : (cs.foldl (mergeSince created s) t).mark? v = some ⟨v, x, s⟩) :
    ∀ y ∈ Edit.outcomeOf v cs, y = x := by
  induction cs using List.reverseRecOn generalizing x with
  | nil => exact fun _ h => nomatch h
  | append_singleton cs c ih =>
    have ordered := ht.foldl_mergeSince created s cs
    have hears : (cs.foldl (mergeSince created s) t).hears s v c = c.outcome v := by
      rw [hears_foldl_mergeSince, h.hears_eq (by simp) v]
    rw [List.foldl_append, List.foldl_cons, List.foldl_nil] at mark
    rw [Edit.outcomeOf_snoc]
    by_cases own : ∃ x', (cs.foldl (mergeSince created s) t).mark? v = some ⟨v, x', s⟩
    · obtain ⟨x', before⟩ := own
      rw [mark?_mergeSince_of_mark ordered before, hears, Option.some_inj, Mark.mk.injEq] at mark
      obtain ⟨-, rfl, -⟩ := mark
      cases c.outcome v with
      | some y => simp
      | none => exact ih (fun late d hd => h late d (List.mem_append_left _ hd)) before
    · -- The last change has left the mark.
      rw [mergeSince] at mark
      split at mark
      · exact absurd ⟨x, mark⟩ own
      cases named : c.names v with
      | false =>
        rw [mark?_merge_of_not_names ordered named] at mark
        split at mark
        · next turned => exact absurd ⟨_, turned.2.2⟩ own
        · exact absurd ⟨x, mark⟩ own
      | true =>
        obtain ⟨x', outcome, after⟩ := mark?_merge_of_names (s := s) ordered named
        rw [after] at mark
        split at mark
        · exact absurd ⟨x, mark⟩ own
        · cases mark
          simp [outcome]

/-- Changes that are all taken leave the timeline when they come again. -/
theorem TakesAll.foldl_mergeSince_eq (h : t.TakesAll s cs) (ht : t.Ordered)
    (created : Option Stamp) : cs.foldl (mergeSince created s) (cs.foldl (mergeSince created s) t) =
      cs.foldl (mergeSince created s) t := by
  refine (foldl_mergeSince_eq_iff (ht.foldl_mergeSince created s cs)
    (knows_foldl_mergeSince ht created s cs)).mpr fun v x mark => ?_
  rw [hears_foldl_mergeSince, h.lastOf_hears_eq]
  exact h.eq_of_mark?_foldl ht mark

end Timeline

end DirectoryHistory
