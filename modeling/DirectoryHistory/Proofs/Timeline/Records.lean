import DirectoryHistory.Proofs.Timeline.Marks

/-!
# Records in a timeline

What every way of recording does to the last reset and to the mark about one value, for a single
mark and for marks of one stamp about several values.
-/

namespace DirectoryHistory.Timeline

/-- Whether the mark about `v` is newer than `s`. -/
def outdates (t : Timeline) (v : Octets) (s : Stamp) : Bool :=
  (t.mark? v).any (s < ·.stamp)

/-- Whether the last reset is newer than `s`. -/
def overrides (t : Timeline) (s : Stamp) : Bool :=
  t.lastReset.any (s < ·)

theorem outdates_iff {t : Timeline} {v : Octets} {s : Stamp} :
    t.outdates v s = true ↔ ∃ m, t.mark? v = some m ∧ s < m.stamp := by
  cases h : t.mark? v <;> simp [outdates, h]

theorem outdates_eq_false_iff {t : Timeline} {v : Octets} {s : Stamp} :
    t.outdates v s = false ↔ ∀ m ∈ t.mark? v, m.stamp ≤ s := by
  cases h : t.mark? v <;> simp [outdates, h]

theorem overrides_iff {t : Timeline} {s : Stamp} :
    t.overrides s = true ↔ ∃ r, t.lastReset = some r ∧ s < r := by
  cases h : t.lastReset <;> simp [overrides, h]

theorem admits_iff {t : Timeline} {m : Mark} :
    t.admits m = true ↔ ∀ n, t.mark? m.value = some n → n.stamp < m.stamp := by
  cases h : t.mark? m.value <;> simp [admits, Stamp.passes, h]

theorem amends_iff {t : Timeline} {m : Mark} : t.amends m = true ↔
    ∃ n, t.mark? m.value = some n ∧ n.stamp = m.stamp ∧ n.sense ≠ m.sense := by
  cases h : t.mark? m.value <;> simp [amends, h]

theorem note_eq_self {t : Timeline} {m : Mark} (h : ¬t.isNews m = true) : t.note m = t := by
  simp [note, h]

theorem reset_eq_self {t : Timeline} {s : Stamp} (h : ¬t.admitsReset s = true) :
    t.reset s = t := by
  simp [reset, h]

theorem isNews_eq_false {t : Timeline} {m : Mark} (h : t.isNews m = false) :
    t.outdates m.value m.stamp = true ∨ t.mark? m.value = some m := by
  simp only [isNews, Bool.or_eq_false_iff] at h
  cases hn : t.mark? m.value with
  | none => simp [admits, Stamp.passes, hn] at h
  | some n =>
    rcases lt_trichotomy n.stamp m.stamp with hlt | heq | hgt
    · have : t.admits m = true := admits_iff.mpr (by simp [hn, hlt])
      simp [this] at h
    · right
      have sense : n.sense = m.sense := by simpa [amends, hn, heq] using h.2
      have value : n.value = m.value := mark?_value hn
      cases n
      cases m
      simp_all
    · exact .inl (outdates_iff.mpr ⟨n, hn, hgt⟩)

theorem outdates_eq_false_of_isNews {t : Timeline} {m : Mark} (h : t.isNews m = true) :
    t.outdates m.value m.stamp = false := by
  rw [Bool.eq_false_iff, Ne, outdates_iff]
  rintro ⟨n, hn, hlt⟩
  simp only [isNews, Bool.or_eq_true, admits_iff, amends_iff] at h
  rcases h with h | ⟨n', hn', heq, -⟩
  · exact lt_asymm hlt (h n hn)
  · rw [hn] at hn'
    cases hn'
    exact absurd heq hlt.ne'

theorem mark?_note (t : Timeline) (m : Mark) (v : Octets) : (t.note m).mark? v =
    if v = m.value ∧ t.outdates v m.stamp = false then some m else t.mark? v := by
  simp only [note]
  split
  · next h =>
    rw [mark?_put]
    by_cases hv : v = m.value
    · subst hv
      simp [outdates_eq_false_of_isNews h]
    · simp [hv]
  · next h =>
    rw [Bool.not_eq_true] at h
    split
    · next hv =>
      obtain ⟨rfl, hv⟩ := hv
      simpa [hv] using isNews_eq_false h
    · rfl

theorem mark?_record (t : Timeline) (m : Mark) (v : Octets) : (t.record m).mark? v =
    if v = m.value ∧ t.admits m = true then some m else t.mark? v := by
  simp only [record]
  split
  · next h => simp [mark?_put, h]
  · next h => simp [h]

theorem mark?_amend (t : Timeline) (m : Mark) (v : Octets) : (t.amend m).mark? v =
    if v = m.value ∧ t.amends m = true then some m else t.mark? v := by
  simp only [amend]
  split
  · next h => simp [mark?_put, h]
  · next h => simp [h]

@[simp] theorem mark?_reset (t : Timeline) (s : Stamp) (v : Octets) :
    (t.reset s).mark? v = t.mark? v := by
  simp only [reset]
  split <;> rfl

@[simp] theorem lastReset_note (t : Timeline) (m : Mark) : (t.note m).lastReset = t.lastReset := by
  simp only [note]
  split <;> rfl

@[simp] theorem lastReset_record (t : Timeline) (m : Mark) :
    (t.record m).lastReset = t.lastReset := by
  simp only [record]
  split <;> rfl

@[simp] theorem lastReset_amend (t : Timeline) (m : Mark) :
    (t.amend m).lastReset = t.lastReset := by
  simp only [amend]
  split <;> rfl

theorem lastReset_reset (t : Timeline) (s : Stamp) :
    (t.reset s).lastReset = Stamp.newest t.lastReset (some s) := by
  cases h : t.lastReset with
  | none => simp [reset, admitsReset, Stamp.passes, h]
  | some r =>
    rcases lt_or_ge r s with hrs | hrs
    · simp [reset, admitsReset, Stamp.passes, h, hrs, max_eq_right hrs.le]
    · simp [reset, admitsReset, Stamp.passes, h, hrs.not_gt, max_eq_left hrs]

theorem Ordered.note {t : Timeline} (ht : t.Ordered) (m : Mark) : (t.note m).Ordered := by
  simp only [Timeline.note]
  split
  · exact ht.put m
  · exact ht

theorem Ordered.record {t : Timeline} (ht : t.Ordered) (m : Mark) : (t.record m).Ordered := by
  simp only [Timeline.record]
  split
  · exact ht.put m
  · exact ht

theorem Ordered.amend {t : Timeline} (ht : t.Ordered) (m : Mark) : (t.amend m).Ordered := by
  simp only [Timeline.amend]
  split
  · exact ht.put m
  · exact ht

theorem Ordered.reset {t : Timeline} (ht : t.Ordered) (s : Stamp) : (t.reset s).Ordered := by
  simp only [Timeline.reset]
  split
  · exact ⟨ht.ascending, ht.distinct⟩
  · exact ht

theorem Ordered.purge {t : Timeline} (ht : t.Ordered) (cutoff : Stamp) :
    (t.purge cutoff).Ordered where
  ascending := ht.ascending.filter _
  distinct m hm n hn := ht.distinct m (List.mem_filter.mp hm).1 n (List.mem_filter.mp hn).1

theorem outdates_note (t : Timeline) (m : Mark) (v : Octets) :
    (t.note m).outdates v m.stamp = t.outdates v m.stamp := by
  have hm := mark?_note t m v
  by_cases h : v = m.value ∧ t.outdates v m.stamp = false
  · rw [if_pos h] at hm
    rw [h.2]
    simp [outdates, hm]
  · rw [if_neg h] at hm
    simp only [outdates, hm]

theorem mark?_foldl_note (x : Sense) (s : Stamp) (vs : List Octets) (t : Timeline) (v : Octets) :
    (vs.foldl (fun t v => t.note ⟨v, x, s⟩) t).mark? v =
      if v ∈ vs ∧ t.outdates v s = false then some ⟨v, x, s⟩ else t.mark? v := by
  induction vs generalizing t with
  | nil => simp
  | cons w ws ih =>
    have hw : (t.note ⟨w, x, s⟩).outdates v s = t.outdates v s := outdates_note t ⟨w, x, s⟩ v
    rw [List.foldl_cons, ih, hw, mark?_note]
    by_cases h : v = w
    · subst h
      by_cases hd : t.outdates v s = false <;> simp [hd]
    · simp [h]

theorem admits_record (t : Timeline) (x : Sense) (s : Stamp) {v w : Octets} (h : v ≠ w) :
    (t.record ⟨w, x, s⟩).admits ⟨v, x, s⟩ = t.admits ⟨v, x, s⟩ := by
  simp [admits, mark?_record, h]

theorem admits_record_self (t : Timeline) (m : Mark) : (t.record m).admits m = false := by
  by_cases h : t.admits m = true
  · have hm := mark?_record t m m.value
    rw [if_pos ⟨rfl, h⟩] at hm
    simp [admits, Stamp.passes, hm]
  · simp [record, h]

theorem mark?_foldl_record (x : Sense) (s : Stamp) (vs : List Octets) (t : Timeline) (v : Octets) :
    (vs.foldl (fun t v => t.record ⟨v, x, s⟩) t).mark? v =
      if v ∈ vs ∧ t.admits ⟨v, x, s⟩ = true then some ⟨v, x, s⟩ else t.mark? v := by
  induction vs generalizing t with
  | nil => simp
  | cons w ws ih =>
    rw [List.foldl_cons, ih, mark?_record]
    by_cases h : v = w
    · subst h
      by_cases ha : t.admits ⟨v, x, s⟩ = true <;> simp [ha, admits_record_self]
    · simp [h, admits_record]

theorem amends_deleted_iff {t : Timeline} {v : Octets} {s : Stamp} :
    t.amends ⟨v, .deleted, s⟩ = true ↔ t.mark? v = some ⟨v, .added, s⟩ := by
  rw [amends_iff]
  constructor
  · rintro ⟨⟨w, x, s'⟩, hn, rfl, hx⟩
    obtain rfl : w = v := mark?_value hn
    cases x
    · exact hn
    · exact absurd rfl hx
  · intro h
    exact ⟨_, h, rfl, by simp⟩

theorem mark?_foldl_amend (s : Stamp) (vs : List Octets) (t : Timeline) (v : Octets) :
    (vs.foldl (fun t v => t.amend ⟨v, .deleted, s⟩) t).mark? v =
      if v ∈ vs ∧ t.mark? v = some ⟨v, .added, s⟩ then some ⟨v, .deleted, s⟩
      else t.mark? v := by
  induction vs generalizing t with
  | nil => simp
  | cons w ws ih =>
    simp only [List.foldl_cons, ih, mark?_amend, amends_deleted_iff]
    by_cases h : v = w
    · subst h
      by_cases ha : t.mark? v = some ⟨v, .added, s⟩ <;> simp [ha]
    · simp [h]

theorem lastReset_foldl {f : Timeline → Octets → Timeline}
    (hf : ∀ t v, (f t v).lastReset = t.lastReset) (vs : List Octets) (t : Timeline) :
    (vs.foldl f t).lastReset = t.lastReset := by
  induction vs generalizing t with
  | nil => rfl
  | cons v vs ih => rw [List.foldl_cons, ih, hf]

theorem Ordered.foldl {f : Timeline → Octets → Timeline} (hf : ∀ t v, t.Ordered → (f t v).Ordered)
    (vs : List Octets) {t : Timeline} (ht : t.Ordered) : (vs.foldl f t).Ordered := by
  induction vs generalizing t with
  | nil => exact ht
  | cons v vs ih => exact ih (hf t v ht)

end DirectoryHistory.Timeline
