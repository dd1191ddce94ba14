import DirectoryHistory.Proofs.Tracked.Changes
import Mathlib.Data.Finset.Max

/-!
# Additions to a single-valued attribute

Values are added to a single-valued attribute that was empty, each at a stamp of its own and several
of them perhaps more than once. Of every value the newest addition is recorded, and the oldest of
these holds the attribute. So the value that was added first holds it unless it is added again after
some other value was added for the last time.
-/

namespace DirectoryHistory

/-- One value added at one stamp. -/
structure Addition where
  stamp : Stamp
  value : Octets
  deriving DecidableEq, Repr

namespace Addition

def edit (p : Addition) : Edit :=
  ⟨p.stamp, [.add p.value]⟩

def mark (p : Addition) : Mark :=
  ⟨p.value, .added, p.stamp⟩

def change (a : Attribute) (p : Addition) : StampedChange :=
  ⟨p.stamp, a, .add p.value⟩

/-- Whether `p` is the newest of the additions of its value. -/
def IsLast (adds : List Addition) (p : Addition) : Prop :=
  p ∈ adds ∧ ∀ q ∈ adds, q.value = p.value → q.stamp ≤ p.stamp

/-- Whether `p` is the oldest of the additions that are the last ones of their values. -/
def IsHolder (adds : List Addition) (p : Addition) : Prop :=
  p.IsLast adds ∧ ∀ q : Addition, q.IsLast adds → p.stamp ≤ q.stamp

variable {adds : List Addition} {p : Addition} {v : Octets}

theorem edit_change (a : Attribute) (p : Addition) : (p.change a).edit a = p.edit := by
  simp [StampedChange.edit, change, edit]

@[simp] theorem names_edit : Edit.names v p.edit = true ↔ p.value = v := by
  simp [Edit.names, edit, Change.names]

theorem outcome_edit (p : Addition) : Edit.outcome p.value p.edit = some .added := by
  simp [Edit.outcome, Edit.outcomeOf, edit, Change.outcome]

theorem isUniform_edit (p : Addition) : p.edit.IsUniform := by
  simp [Edit.IsUniform, edit]

theorem exists_isLast (hp : p ∈ adds) :
    ∃ q : Addition, q.IsLast adds ∧ q.value = p.value := by
  let ofValue := adds.toFinset.filter (·.value = p.value)
  have nonempty : ofValue.Nonempty := ⟨p, by simp [ofValue, hp]⟩
  obtain ⟨q, hq, newest⟩ := ofValue.exists_max_image (·.stamp) nonempty
  simp only [ofValue, Finset.mem_filter, List.mem_toFinset, and_imp] at hq newest
  exact ⟨q, ⟨hq.1, fun r hr same => newest r hr (same.trans hq.2)⟩, hq.2⟩

/-- A value holds the attribute if and only if every other value is added after that one was added
for the last time. -/
theorem IsHolder.value_eq_iff (h : p.IsHolder adds) (distinct : (adds.map (·.stamp)).Nodup)
    (hv : ∃ r ∈ adds, r.value = v) : p.value = v ↔ ∀ q ∈ adds, q.value ≠ v →
      ∃ later ∈ adds, later.value = q.value ∧
        ∀ again ∈ adds, again.value = v → again.stamp < later.stamp := by
  obtain ⟨⟨hp, newest⟩, oldest⟩ := h
  constructor
  · intro value q hq other
    obtain ⟨later, hlater, same⟩ := exists_isLast hq
    refine ⟨later, hlater.1, same, fun again hagain he => ?_⟩
    have apart : p.stamp ≠ later.stamp := by
      intro hs
      obtain rfl := List.inj_on_of_nodup_map distinct hp hlater.1 hs
      exact other (same.symm.trans value)
    calc again.stamp ≤ p.stamp := newest again hagain (he.trans value.symm)
      _ < later.stamp := lt_of_le_of_ne (oldest later hlater) apart
  · intro outlived
    by_contra other
    obtain ⟨later, hlater, same, above⟩ := outlived p hp other
    obtain ⟨r, hr, rfl⟩ := hv
    obtain ⟨last, hlast, value⟩ := exists_isLast hr
    have below : p.stamp < p.stamp := calc
      p.stamp ≤ last.stamp := oldest last hlast
      _ < later.stamp := above last hlast.1 value
      _ ≤ p.stamp := newest later hlater same
    exact lt_irrefl _ below

end Addition

namespace Timeline

variable {t : Timeline} {adds : List Addition}

theorem Reflects.lastReset_of_additions (h : t.Reflects (adds.map Addition.edit)) :
    t.lastReset = none := by
  by_contra hr
  obtain ⟨r, hr⟩ := Option.ne_none_iff_exists'.mp hr
  obtain ⟨e, he, resets, -⟩ := h.resets.1 r hr
  obtain ⟨p, -, rfl⟩ := List.mem_map.mp he
  simp [Edit.resets, Addition.edit, Change.resets] at resets

theorem Reflects.exists_isLast (h : t.Reflects (adds.map Addition.edit)) {v : Octets} {m : Mark}
    (hm : t.mark? v = some m) : ∃ p : Addition, p.IsLast adds ∧ p.mark = m := by
  obtain ⟨e, he, named, stamp⟩ := h.exists_edit hm
  obtain ⟨p, hp, rfl⟩ := List.mem_map.mp he
  obtain rfl : p.value = v := Addition.names_edit.mp named
  have stamp : p.stamp = m.stamp := stamp
  refine ⟨p, ⟨hp, fun q hq same => ?_⟩, ?_⟩
  · obtain ⟨n, hn, le⟩ := h.exists_mark (List.mem_map_of_mem hq) (Addition.names_edit.mpr same)
    obtain rfl : m = n := Option.some_inj.mp (hm.symm.trans hn)
    exact stamp ▸ le
  · have outcome := h.outcomes _ m hm _ he stamp named (.inr p.isUniform_edit)
    rw [p.outcome_edit, Option.some_inj] at outcome
    have value := mark?_value hm
    cases m
    simp_all [Addition.mark]

theorem Reflects.mark?_of_isLast (h : t.Reflects (adds.map Addition.edit)) {p : Addition}
    (hp : p.IsLast adds) : t.mark? p.value = some p.mark := by
  obtain ⟨m, hm, -⟩ := h.exists_mark (List.mem_map_of_mem hp.1) (Addition.names_edit.mpr rfl)
  obtain ⟨q, hq, rfl⟩ := h.exists_isLast hm
  have value : q.value = p.value := mark?_value hm
  have stamp : q.stamp = p.stamp := le_antisymm (hp.2 q hq.1 value) (hq.2 p hp.1 value.symm)
  simp only [hm, Addition.mark, value, stamp]

theorem Reflects.mem_asserted_of_additions (h : t.Reflects (adds.map Addition.edit)) {m : Mark} :
    m ∈ t.asserted ↔ ∃ p : Addition, p.IsLast adds ∧ p.mark = m := by
  rw [h.ordered.mem_asserted]
  constructor
  · rintro ⟨hm, -⟩
    exact h.exists_isLast hm
  · rintro ⟨p, hp, rfl⟩
    refine ⟨h.mark?_of_isLast hp, upholds_iff.mpr ⟨rfl, ?_⟩⟩
    simp [overrides, h.lastReset_of_additions]

end Timeline

namespace Slot

variable {s : Slot} {adds : List Addition}

/-- The creation of the entry plays no part when values are added. -/
theorem foldl_resolveEdit_additions (single : Bool) (created : Option Stamp) (s : Slot) :
    (adds.map Addition.edit).foldl (resolveEdit single created) s =
      (adds.map Addition.edit).foldl (resolveEdit single none) s := by
  induction adds generalizing s with
  | nil => rfl
  | cons p rest ih => exact ih _

/-- The oldest of the last additions holds the slot. -/
theorem Follows.held_of_additions (h : s.Follows true [] (adds.map Addition.edit))
    (nonempty : adds ≠ []) : ∃ p : Addition, p.IsHolder adds ∧ s.held = [p.value] := by
  have held : s.held = (s.timeline.asserted.head?.map (·.value)).toList := by
    simpa [ReadsBack, kept] using h.readsBack
  obtain ⟨last, hlast⟩ : ∃ p : Addition, p.IsLast adds := by
    obtain ⟨q, hq⟩ := List.exists_mem_of_ne_nil adds nonempty
    obtain ⟨p, hp, -⟩ := Addition.exists_isLast hq
    exact ⟨p, hp⟩
  have asserted : last.mark ∈ s.timeline.asserted :=
    h.reflects.mem_asserted_of_additions.mpr ⟨last, hlast, rfl⟩
  obtain ⟨m, hm⟩ := Option.ne_none_iff_exists'.mp
    (mt List.head?_eq_none_iff.mp (List.ne_nil_of_mem asserted))
  obtain ⟨member, least⟩ := h.reflects.ordered.head?_asserted hm
  obtain ⟨p, hp, rfl⟩ := h.reflects.mem_asserted_of_additions.mp member
  refine ⟨p, ⟨hp, fun q hq => ?_⟩, by simp [held, hm, Addition.mark]⟩
  rcases least q.mark (h.reflects.mem_asserted_of_additions.mpr ⟨q, hq, rfl⟩) with same | before
  · exact (congrArg Mark.stamp same).ge
  · rcases Mark.precedes_iff.mp before with lt | ⟨eq, -⟩
    · exact lt.le
    · exact eq.le

end Slot

namespace Tracked

variable {schema : Schema} {t : Tracked} {a : Attribute} {adds run : List Addition}

theorem slot_resolveEach_additions (target : checkTarget a = .ok ()) :
    (t.resolveEach schema (run.map (Addition.change a))).slot a =
      (run.map Addition.edit).foldl (Slot.resolveEdit (schema.isSingle a) none) (t.slot a) := by
  have accepted : ∀ c ∈ run.map (Addition.change a), Accepts schema (c.attr, c.change) :=
    List.forall_mem_map.mpr fun _ _ => ⟨target, rfl⟩
  rw [resolveEach_eq, List.filter_eq_self.mpr (by simpa using accepted), slot_foldl_afterChange,
    List.map_map, ← Slot.foldl_resolveEdit_additions _ t.history.created]
  simp only [Function.comp_def, Addition.edit_change]

/-- A single-valued attribute without values and marks ends up with one of the added values: of the
last additions of all values, the oldest holds it. So a value holds it if and only if every other
one is added after that value was added for the last time. -/
theorem values_of_additions (single : schema.isSingle a = true)
    (target : checkTarget a = .ok ()) (empty : t.entry.values a = [])
    (untouched : t.history.timeline a = .empty) (distinct : (adds.map (·.stamp)).Nodup)
    (nonempty : adds ≠ []) (same : ∀ p, p ∈ run ↔ p ∈ adds) :
    ∃ holder : Addition, holder.IsHolder adds ∧
      (t.resolveEach schema (run.map (Addition.change a))).entry.values a = [holder.value] ∧
      ∀ v, (∃ p ∈ adds, p.value = v) → (holder.value = v ↔ ∀ q ∈ adds, q.value ≠ v →
        ∃ later ∈ adds, later.value = q.value ∧
          ∀ again ∈ adds, again.value = v → again.stamp < later.stamp) := by
  have start : (t.slot a).Follows true [] [] := by
    have held : (t.slot a).held = [] := empty
    have started : (t.slot a).Follows true (t.slot a).held [] :=
      Slot.follows_start untouched (by simp [held])
    rwa [held] at started
  have compatible : ∀ e ∈ [] ++ run.map Addition.edit, ∀ e' ∈ [] ++ run.map Addition.edit,
      e'.stamp = e.stamp → e' = e := by
    simp only [List.nil_append, List.forall_mem_map]
    intro p hp q hq stamps
    rw [List.inj_on_of_nodup_map distinct ((same q).mp hq) ((same p).mp hp) stamps]
  have follows : ((run.map Addition.edit).foldl (Slot.resolveEdit true none) (t.slot a)).Follows
      true [] ([] ++ run.map Addition.edit) :=
    start.foldl_resolveEdit _ (by simp) compatible
  have mem : ∀ e, e ∈ [] ++ run.map Addition.edit ↔ e ∈ adds.map Addition.edit := by
    intro e
    simp only [List.nil_append, List.mem_map, same]
  obtain ⟨p, hp, held⟩ := (follows.congr mem).held_of_additions nonempty
  refine ⟨p, hp, ?_, fun v hv => hp.value_eq_iff distinct hv⟩
  have slot : (t.resolveEach schema (run.map (Addition.change a))).slot a =
      (run.map Addition.edit).foldl (Slot.resolveEdit true none) (t.slot a) := by
    rw [slot_resolveEach_additions target, single]
  exact (congrArg Slot.held slot).trans held

/-- The first value is added again, but before the other one comes, and stays. -/
theorem values_of_additions_kept :
    ((justCreated ⟨1, 0, 1⟩ ⟨"uid", []⟩ []).resolveEach ⟨["uid"]⟩
      ([⟨⟨4, 0, 2⟩, [2]⟩, ⟨⟨3, 0, 1⟩, [1]⟩, ⟨⟨2, 0, 1⟩, [1]⟩].map
        (Addition.change ⟨"uid", []⟩))).entry.values ⟨"uid", []⟩ = [[1]] := by
  let adds : List Addition := [⟨⟨2, 0, 1⟩, [1]⟩, ⟨⟨3, 0, 1⟩, [1]⟩, ⟨⟨4, 0, 2⟩, [2]⟩]
  have same : ∀ p, p ∈ adds.reverse ↔ p ∈ adds := fun _ => List.mem_reverse
  have single : Schema.isSingle ⟨["uid"]⟩ ⟨"uid", []⟩ = true := by decide
  obtain ⟨holder, -, values, holds⟩ := values_of_additions
    (t := justCreated ⟨1, 0, 1⟩ ⟨"uid", []⟩ []) single (by decide) (by decide) rfl (by decide)
    (by decide) same
  rw [(holds [1] (by decide)).mpr (by decide)] at values
  exact values

/-- The value of the oldest addition does not always hold the attribute: added again after another
one, it gives way. -/
theorem values_of_additions_lost : ¬∀ (t : Tracked) (adds : List Addition) (first : Addition),
    t.entry.values ⟨"uid", []⟩ = [] → t.history.timeline ⟨"uid", []⟩ = .empty →
    (adds.map (·.stamp)).Nodup → first ∈ adds → (∀ q ∈ adds, first.stamp ≤ q.stamp) →
    (t.resolveEach ⟨["uid"]⟩ (adds.map (Addition.change ⟨"uid", []⟩))).entry.values ⟨"uid", []⟩ =
      [first.value] := by
  intro holds
  let adds : List Addition := [⟨⟨2, 0, 1⟩, [1]⟩, ⟨⟨3, 0, 1⟩, [2]⟩, ⟨⟨4, 0, 1⟩, [1]⟩]
  have first := holds (justCreated ⟨1, 0, 1⟩ ⟨"uid", []⟩ []) adds ⟨⟨2, 0, 1⟩, [1]⟩ (by decide) rfl
    (by decide) (by decide) (by decide)
  revert first
  decide

end Tracked

end DirectoryHistory
