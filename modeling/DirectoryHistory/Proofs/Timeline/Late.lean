import DirectoryHistory.Proofs.Timeline.Asserted

/-!
# Edits that come late

An edit is late when a newer reset has arrived before it. Its replaces then leave marks about their
own values at most: they delete nothing that the same edit added before, and do not add again what
it deleted. So the mark that an edit leaves about a value depends on whether it came late, unless
its changes come to the same either way.
-/

namespace DirectoryHistory

namespace Change

/-- What the change of a late edit does to `v`, after the changes before it left `before`. -/
def lateOutcome (v : Octets) (before : Option Sense) : Change → Option Sense
  | .add w => if w = v then some .added else before
  | .delete w => if w = v then some .deleted else before
  | .clear => before
  | .replace ws => if ws.contains v then before.or (some .added) else before

theorem lateOutcome_of_not_names {v : Octets} {c : Change} (h : c.names v = false)
    (before : Option Sense) : c.lateOutcome v before = before := by
  cases c <;> simp_all [lateOutcome, names]

/-- A change that names the value has the same outcome as ever, unless it is a replace and the edit
has named the value before. -/
theorem lateOutcome_of_names {v : Octets} {c : Change} (h : c.names v = true)
    (before : Option Sense) : c.lateOutcome v before =
      if c.resets = true then before.or (c.outcome v) else c.outcome v := by
  cases c <;> simp_all [lateOutcome, names, outcome, resets]

end Change

namespace Edit

def lateOutcomeOf (v : Octets) (cs : List Change) : Option Sense :=
  cs.foldl (fun before c => c.lateOutcome v before) none

/-- The outcome for `v` when a newer reset came first. -/
def lateOutcome (v : Octets) (e : Edit) : Option Sense :=
  lateOutcomeOf v e.changes

@[simp] theorem lateOutcomeOf_nil (v : Octets) : lateOutcomeOf v [] = none := rfl

theorem lateOutcomeOf_snoc (v : Octets) (cs : List Change) (c : Change) :
    lateOutcomeOf v (cs ++ [c]) = c.lateOutcome v (lateOutcomeOf v cs) := by
  simp [lateOutcomeOf]

theorem lateOutcomeOf_eq_none_iff {v : Octets} {cs : List Change} :
    lateOutcomeOf v cs = none ↔ cs.any (·.names v) = false := by
  induction cs using List.reverseRecOn with
  | nil => simp
  | append_singleton cs c ih =>
    rw [lateOutcomeOf_snoc, List.any_append, Bool.or_eq_false_iff, ← ih]
    cases hc : c.names v with
    | false => simp [Change.lateOutcome_of_not_names hc, hc]
    | true =>
      have named : (c.outcome v).isSome = true := Change.outcome_isSome_iff.mpr (.inl hc)
      rw [Change.lateOutcome_of_names hc]
      split <;> simp_all [Option.isSome_iff_ne_none]

/-- Without a reset of its own an edit does not mind coming late. -/
theorem lateOutcomeOf_eq_of_not_resets {v : Octets} {cs : List Change}
    (h : cs.any Change.resets = false) : lateOutcomeOf v cs = outcomeOf v cs := by
  induction cs using List.reverseRecOn with
  | nil => rfl
  | append_singleton cs c ih =>
    rw [List.any_append, Bool.or_eq_false_iff] at h
    have single : c.resets = false := by simpa using h.2
    rw [lateOutcomeOf_snoc, outcomeOf_snoc, ih h.1]
    cases hc : c.names v with
    | false => simp [Change.lateOutcome_of_not_names hc, Change.outcome_eq_none hc single]
    | true =>
      obtain ⟨x, hx⟩ := Option.isSome_iff_exists.mp (Change.outcome_isSome_iff.mpr (.inl hc))
      simp [Change.lateOutcome_of_names hc, single, hx]

end Edit

namespace Timeline

/-- The outcome of changes at `s` for `v`, given what the timeline was reset at before. -/
def outcomeOn (t : Timeline) (s : Stamp) (v : Octets) (cs : List Change) : Option Sense :=
  if t.overrides s = true then Edit.lateOutcomeOf v cs else Edit.outcomeOf v cs

theorem overrides_foldl_merge (s : Stamp) (cs : List Change) (t : Timeline) :
    (cs.foldl (merge s) t).overrides s = t.overrides s := by
  induction cs generalizing t with
  | nil => rfl
  | cons c cs ih =>
    rw [List.foldl_cons, ih, overrides, overrides, lastReset_merge]
    split
    · cases t.lastReset <;> simp
    · rfl

theorem Ordered.foldl_merge {t : Timeline} (ht : t.Ordered) (s : Stamp) (cs : List Change) :
    (cs.foldl (Timeline.merge s) t).Ordered :=
  ht.mergeEdit ⟨s, cs⟩

theorem mark?_merge_of_outdates {t : Timeline} (ht : t.Ordered) {s : Stamp} {v : Octets}
    (newer : t.outdates v s = true) (c : Change) : (t.merge s c).mark? v = t.mark? v := by
  cases hc : c.names v with
  | false =>
    obtain ⟨m, hm, hlt⟩ := outdates_iff.mp newer
    have other : t.mark? v ≠ some ⟨v, .added, s⟩ := fun h => by
      rw [hm, Option.some_inj] at h
      exact hlt.ne' (congrArg Mark.stamp h)
    simp [mark?_merge_of_not_names ht hc, other]
  | true =>
    obtain ⟨x, -, hm⟩ := mark?_merge_of_names (s := s) ht hc
    simp [hm, newer]

theorem mark?_merge_of_fresh {t : Timeline} (ht : t.Ordered) {s : Stamp} {v : Octets}
    (older : ∀ m ∈ t.mark? v, m.stamp < s) (c : Change) : (t.merge s c).mark? v =
      if c.names v = true then (c.outcome v).map fun x => ⟨v, x, s⟩ else t.mark? v := by
  cases hc : c.names v with
  | false =>
    have unmarked : t.mark? v ≠ some ⟨v, .added, s⟩ := fun h => (older _ h).ne rfl
    simp [mark?_merge_of_not_names ht hc, unmarked]
  | true =>
    obtain ⟨x, hx, hm⟩ := mark?_merge_of_names (s := s) ht hc
    have current : t.outdates v s = false :=
      outdates_eq_false_iff.mpr fun m hm => (older m hm).le
    have admitted : t.admits ⟨v, .added, s⟩ = true := admits_iff.mpr older
    simp [hm, hx, current, admitted]

theorem mark?_merge_of_mark {t : Timeline} (ht : t.Ordered) {s : Stamp} {v : Octets} {x : Sense}
    (mark : t.mark? v = some ⟨v, x, s⟩) (c : Change) : (t.merge s c).mark? v =
      (if t.overrides s = true then c.lateOutcome v (some x)
        else (c.outcome v).or (some x)).map fun y => ⟨v, y, s⟩ := by
  cases hc : c.names v with
  | false =>
    rw [mark?_merge_of_not_names ht hc, mark, Change.lateOutcome_of_not_names hc]
    cases hr : c.resets with
    | false => simp [Change.outcome_eq_none hc hr]
    | true => cases ho : t.overrides s <;> cases x <;> simp [Change.outcome_of_not_names hc hr]
  | true =>
    obtain ⟨y, hy, hm⟩ := mark?_merge_of_names (s := s) ht hc
    have current : t.outdates v s = false := by simp [outdates, mark]
    have refused : t.admits ⟨v, .added, s⟩ = false := by simp [admits, Stamp.passes, mark]
    rw [hm, Change.lateOutcome_of_names hc, hy]
    cases ho : t.overrides s <;> cases hr : c.resets <;> simp [current, refused, mark]

theorem outcomeOn_snoc (t : Timeline) (s : Stamp) (v : Octets) (cs : List Change) (c : Change) :
    t.outcomeOn s v (cs ++ [c]) = if t.overrides s = true then c.lateOutcome v (t.outcomeOn s v cs)
      else (c.outcome v).or (t.outcomeOn s v cs) := by
  simp only [outcomeOn, Edit.lateOutcomeOf_snoc, Edit.outcomeOf_snoc]
  split <;> rfl

theorem isSome_outcomeOn (t : Timeline) (s : Stamp) {v : Octets} {cs : List Change}
    (h : cs.any (·.names v) = true) : ∃ x, t.outcomeOn s v cs = some x := by
  rw [← Option.isSome_iff_exists, outcomeOn]
  split
  · rw [Option.isSome_iff_ne_none, Ne, Edit.lateOutcomeOf_eq_none_iff, h]
    exact Bool.noConfusion
  · exact Edit.outcomeOf_isSome_iff.mpr (.inl h)

theorem outcomeOn_snoc_of_first (t : Timeline) (s : Stamp) {v : Octets} {cs : List Change}
    {c : Change} (h : cs.any (·.names v) = false) (hc : c.names v = true) :
    t.outcomeOn s v (cs ++ [c]) = c.outcome v := by
  obtain ⟨x, hx⟩ := Option.isSome_iff_exists.mp (Change.outcome_isSome_iff.mpr (.inl hc))
  rw [outcomeOn, Edit.lateOutcomeOf_snoc, Edit.outcomeOf_snoc, Edit.lateOutcomeOf_eq_none_iff.mpr h,
    Change.lateOutcome_of_names hc, hx]
  simp

/-- Changes at a new stamp leave a mark about each value that they name, if there is no newer one. -/
theorem mark?_foldl_merge {t : Timeline} (ht : t.Ordered) {s : Stamp} {v : Octets}
    (fresh : ∀ m ∈ t.mark? v, m.stamp ≠ s) (cs : List Change) :
    (cs.foldl (merge s) t).mark? v =
      if t.outdates v s = true ∨ cs.any (·.names v) = false then t.mark? v
      else (t.outcomeOn s v cs).map fun x => ⟨v, x, s⟩ := by
  -- The last change finds a newer mark, no mark of this stamp yet, or one that the others left.
  induction cs using List.reverseRecOn with
  | nil => simp
  | append_singleton cs c ih =>
    have ordered := ht.foldl_merge s cs
    rw [List.foldl_append, List.foldl_cons, List.foldl_nil]
    cases hd : t.outdates v s with
    | true =>
      have kept : (cs.foldl (merge s) t).mark? v = t.mark? v := by simp [ih, hd]
      have newer : (cs.foldl (merge s) t).outdates v s = true := by rwa [outdates, kept]
      simp [mark?_merge_of_outdates ordered newer, kept]
    | false =>
      have older : ∀ m ∈ t.mark? v, m.stamp < s := fun m hm =>
        lt_of_le_of_ne (outdates_eq_false_iff.mp hd m hm) (fresh m hm)
      cases hv : cs.any (·.names v) with
      | false =>
        have kept : (cs.foldl (merge s) t).mark? v = t.mark? v := by simp [ih, hv]
        rw [mark?_merge_of_fresh ordered (kept ▸ older), kept]
        cases hc : c.names v with
        | false => simp [hv, hc]
        | true => simp [hc, outcomeOn_snoc_of_first t s hv hc]
      | true =>
        obtain ⟨x, hx⟩ := isSome_outcomeOn t s hv
        have mark : (cs.foldl (merge s) t).mark? v = some ⟨v, x, s⟩ := by simp [ih, hd, hv, hx]
        rw [mark?_merge_of_mark ordered mark, overrides_foldl_merge, outcomeOn_snoc, hx]
        simp [hv]

end Timeline

namespace Edit

/-- Whether one of `edits` resets the attribute at a newer stamp than `s`. -/
def override (edits : List Edit) (s : Stamp) : Bool :=
  edits.any fun r => r.resets && decide (s < r.stamp)

/-- Whether `e` is the newest of the edits that name `v`. -/
def IsLastNaming (v : Octets) (edits : List Edit) (e : Edit) : Prop :=
  e ∈ edits ∧ e.names v = true ∧ ∀ e' ∈ edits, e'.names v = true → e'.stamp ≤ e.stamp

instance (v : Octets) (edits : List Edit) : DecidablePred (IsLastNaming v edits) := fun _ =>
  inferInstanceAs (Decidable (_ ∧ _ ∧ _))

/-- Whether it does not matter for what an edit leaves if it comes late. That counts for the last
edit that names a value, when some other edit has a newer reset. -/
def IsSteady (edits : List Edit) : Prop :=
  ∀ v e, IsLastNaming v edits e → override edits e.stamp = true → e.lateOutcome v = e.outcome v

theorem IsLastNaming.of_perm {v : Octets} {es fs : List Edit} {e : Edit}
    (last : e.IsLastNaming v es) (perm : fs.Perm es) : e.IsLastNaming v fs :=
  ⟨perm.mem_iff.mpr last.1, last.2.1, fun e' he' => last.2.2 e' (perm.mem_iff.mp he')⟩

theorem override_iff {edits : List Edit} {s : Stamp} :
    override edits s = true ↔ ∃ r ∈ edits, r.resets = true ∧ s < r.stamp := by
  simp [override]

end Edit

namespace Timeline

open Edit

variable {t : Timeline} {es fs : List Edit} {v : Octets} {m : Mark}

theorem reflects_foldl_mergeEdit (distinct : (es.map (·.stamp)).Nodup) :
    (es.foldl mergeEdit .empty).Reflects es :=
  reflects_nil.foldl_mergeEdit es fun _ hf _ hg hs =>
    List.inj_on_of_nodup_map distinct hg hf hs

theorem Reflects.overrides_eq_override (h : t.Reflects es) (s : Stamp) :
    t.overrides s = override es s := by
  rw [Bool.eq_iff_iff, overrides_iff, override_iff]
  constructor
  · rintro ⟨r, hr, hlt⟩
    obtain ⟨e, he, resets, rfl⟩ := h.resets.1 r hr
    exact ⟨e, he, resets, hlt⟩
  · rintro ⟨e, he, resets, hlt⟩
    obtain ⟨r, hr, hle⟩ := h.resets.2 e he resets
    exact ⟨r, hr, hlt.trans_le hle⟩

theorem Reflects.exists_isLastNaming (h : t.Reflects es) (hm : t.mark? v = some m) :
    ∃ e : Edit, e.IsLastNaming v es := by
  obtain ⟨e, he, named, stamp⟩ := h.exists_edit hm
  refine ⟨e, he, named, fun e' he' named' => ?_⟩
  obtain ⟨n, hn, hle⟩ := h.exists_mark he' named'
  obtain rfl : m = n := Option.some_inj.mp (hm.symm.trans hn)
  exact stamp ▸ hle

theorem mark?_foldl_mergeEdit_of_older (ht : t.Ordered) (hm : t.mark? v = some m)
    (other : ∀ e ∈ es, m.stamp ≠ e.stamp)
    (older : ∀ e ∈ es, e.names v = true → e.stamp ≤ m.stamp) :
    (es.foldl mergeEdit t).mark? v = some m := by
  induction es generalizing t with
  | nil => exact hm
  | cons e es ih =>
    have first : (t.mergeEdit e).mark? v = some m := by
      have fresh : ∀ n ∈ t.mark? v, n.stamp ≠ e.stamp := by simpa [hm] using other e (.head _)
      rw [mergeEdit, mark?_foldl_merge ht fresh, hm, if_pos]
      by_cases named : e.names v = true
      · have hlt := lt_of_le_of_ne (older e (.head _) named) (other e (.head _)).symm
        exact .inl (outdates_iff.mpr ⟨m, hm, hlt⟩)
      · exact .inr (by simpa [names] using named)
    exact ih (ht.mergeEdit e) first (fun e he => other e (.tail _ he))
      fun e he => older e (.tail _ he)

/-- The mark about a value is left by the last edit that names it, and what it says depends on the
resets before. -/
theorem mark?_foldl_mergeEdit (before : List Edit) {after : List Edit} {e : Edit}
    (distinct : ((before ++ e :: after).map (·.stamp)).Nodup)
    (last : e.IsLastNaming v (before ++ e :: after)) :
    ((before ++ e :: after).foldl mergeEdit .empty).mark? v =
      (if override before e.stamp = true then e.lateOutcome v else e.outcome v).map
        fun x => ⟨v, x, e.stamp⟩ := by
  obtain ⟨-, named, newest⟩ := last
  rw [List.map_append, List.map_cons, List.nodup_append, List.nodup_cons] at distinct
  obtain ⟨distinct, ⟨behind, -⟩, apart⟩ := distinct
  have reflects := reflects_foldl_mergeEdit distinct
  have fresh : ∀ n ∈ (before.foldl mergeEdit .empty).mark? v, n.stamp ≠ e.stamp := by
    intro n hn hs
    obtain ⟨f, hf, -, stamp⟩ := reflects.exists_edit hn
    exact apart f.stamp (List.mem_map_of_mem hf) e.stamp (.head _) (stamp.trans hs)
  have current : (before.foldl mergeEdit .empty).outdates v e.stamp = false := by
    refine outdates_eq_false_iff.mpr fun n hn => ?_
    obtain ⟨f, hf, named', stamp⟩ := reflects.exists_edit hn
    exact stamp ▸ newest f (by simp [hf]) named'
  obtain ⟨x, hx⟩ := isSome_outcomeOn (before.foldl mergeEdit .empty) e.stamp named
  have mark : ((before.foldl mergeEdit .empty).mergeEdit e).mark? v = some ⟨v, x, e.stamp⟩ := by
    rw [mergeEdit, mark?_foldl_merge reflects.ordered fresh, if_neg, hx, Option.map_some]
    rw [current, show e.changes.any (·.names v) = true from named]
    simp
  rw [outcomeOn, reflects.overrides_eq_override] at hx
  rw [lateOutcome, outcome, hx, Option.map_some, List.foldl_append, List.foldl_cons]
  refine mark?_foldl_mergeEdit_of_older (reflects.ordered.mergeEdit e) mark (fun f hf hs => ?_)
    fun f hf => newest f (by simp [hf])
  exact behind (List.mem_map.mpr ⟨f, hf, hs.symm⟩)

/-- In every order the last edit that names a value leaves its outcome, if the edits are steady. -/
theorem mark?_foldl_mergeEdit_of_steady (distinct : (es.map (·.stamp)).Nodup)
    (steady : IsSteady es) (perm : fs.Perm es) {e : Edit} (last : e.IsLastNaming v es) :
    (fs.foldl mergeEdit .empty).mark? v = (e.outcome v).map fun x => ⟨v, x, e.stamp⟩ := by
  obtain ⟨before, after, rfl⟩ := List.append_of_mem (perm.mem_iff.mpr last.1)
  rw [mark?_foldl_mergeEdit before ((perm.map _).nodup_iff.mpr distinct) (last.of_perm perm)]
  split
  · next late =>
    obtain ⟨r, hr, resets, hlt⟩ := override_iff.mp late
    rw [steady v e last (override_iff.mpr ⟨r, perm.mem_iff.mp (by simp [hr]), resets, hlt⟩)]
  · rfl

/-- Steady edits leave the same timeline in every order. -/
theorem foldl_mergeEdit_eq_of_steady (distinct : (es.map (·.stamp)).Nodup) (steady : IsSteady es)
    (perm : fs.Perm es) : fs.foldl mergeEdit .empty = es.foldl mergeEdit .empty := by
  have left : (fs.foldl mergeEdit .empty).Reflects es :=
    (reflects_foldl_mergeEdit ((perm.map _).nodup_iff.mpr distinct)).congr fun _ => perm.mem_iff
  have right := reflects_foldl_mergeEdit distinct
  refine left.ordered.ext right.ordered (left.lastReset_eq right) fun v => ?_
  cases hm : (es.foldl mergeEdit .empty).mark? v with
  | none => exact left.mark?_eq_none_iff.mpr (right.mark?_eq_none_iff.mp hm)
  | some m =>
    obtain ⟨e, last⟩ := right.exists_isLastNaming hm
    rw [← hm, mark?_foldl_mergeEdit_of_steady distinct steady perm last,
      mark?_foldl_mergeEdit_of_steady distinct steady (.refl es) last]

/-- An edit that leaves the same whether it comes before a newer reset or after it. -/
theorem lateOutcome_eq_of_swap {e r : Edit} (distinct : ((e :: r :: es).map (·.stamp)).Nodup)
    (last : e.IsLastNaming v (e :: r :: es)) (resets : r.resets = true) (newer : e.stamp < r.stamp)
    (same : (e :: r :: es).foldl mergeEdit .empty = (r :: e :: es).foldl mergeEdit .empty) :
    e.lateOutcome v = e.outcome v := by
  have swap : (r :: e :: es).Perm (e :: r :: es) := .swap e r es
  have early := mark?_foldl_mergeEdit [] distinct last
  have late := mark?_foldl_mergeEdit [r] ((swap.map _).nodup_iff.mpr distinct) (last.of_perm swap)
  rw [if_neg (by simp [override])] at early
  rw [if_pos (by simp [override, resets, newer])] at late
  have marks := congrArg (Timeline.mark? · v) same
  simp only [List.nil_append, List.singleton_append] at early late
  rw [early, late] at marks
  cases ho : e.outcome v <;> cases hl : e.lateOutcome v <;> simp_all

end Timeline

end DirectoryHistory
