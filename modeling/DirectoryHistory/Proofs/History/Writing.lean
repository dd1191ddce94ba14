import DirectoryHistory.Proofs.History.Reading

/-!
# Writing histories

Histories that say the same are written alike, and those that are written alike say the same. No
fact is written twice. Creations, renames and purges leave histories that can be read back.
-/

namespace DirectoryHistory.History

variable {g h : History}

theorem flatMap_timelineFacts (h : History) :
    h.timelines.toList.flatMap (fun (a, t) => timelineFacts a t) =
      (h.timelines.filter fun _ t => t ≠ .empty).toList.flatMap fun (a, t) => timelineFacts a t := by
  have fold : ∀ l : List (Attribute × Timeline),
      l.flatMap (fun (a, t) => timelineFacts a t) =
        (l.filter fun p => p.2 ≠ .empty).flatMap fun (a, t) => timelineFacts a t := by
    intro l
    induction l with
    | nil => rfl
    | cons p rest ih =>
      obtain ⟨a, t⟩ := p
      by_cases h : t = .empty <;> simp [h, ih, timelineFacts_empty]
  exact fold h.timelines.toList

theorem Agrees.facts_eq (agrees : g.Agrees h) : g.facts = h.facts := by
  have contents : (g.timelines.filter fun _ t => t ≠ .empty) =
      h.timelines.filter fun _ t => t ≠ .empty := by
    refine Table.ext_get? fun a => ?_
    have same := agrees.timelines a
    simp only [timeline] at same
    rw [Table.get?_filter, Table.get?_filter]
    cases hg : g.timelines.get? a <;> cases hh : h.timelines.get? a <;>
      simp_all [Option.filter]
  rw [facts, facts, unsortedFacts, unsortedFacts, flatMap_timelineFacts, contents,
    ← flatMap_timelineFacts, agrees.created, agrees.renamed]

theorem Agrees.encode_eq (agrees : g.Agrees h) : g.encode = h.encode := by
  rw [encode, encode, agrees.facts_eq]

theorem agrees_of_encode_eq (ordered : g.IsOrdered) (readable : g.IsReadable)
    (ordered' : h.IsOrdered) (readable' : h.IsReadable) (same : g.encode = h.encode) :
    g.Agrees h := by
  obtain ⟨k, read, agrees⟩ := ofValues_of_mem_iff ordered readable fun _ => Iff.rfl
  obtain ⟨k', read', agrees'⟩ := ofValues_of_mem_iff ordered' readable' fun _ => Iff.rfl
  obtain rfl : k = k' := by simpa [same, read'] using read.symm
  exact ⟨fun a => (agrees.timelines a).symm.trans (agrees'.timelines a),
    agrees.created.symm.trans agrees'.created, agrees.renamed.symm.trans agrees'.renamed⟩

theorem nodup_timelineFacts (a : Attribute) {t : Timeline} (ht : t.Ordered) :
    (timelineFacts a t).Nodup := by
  have marks : (t.marks.map fun m => Fact.about a m.stamp (markKind t m) (some m.value)).Nodup := by
    refine List.Nodup.map_on (fun m hm n hn he => ?_) ht.ascending.nodup
    simp only [Fact.about.injEq, Option.some.injEq] at he
    exact ht.distinct m hm n hn he.2.2.2
  rw [timelineFacts, List.nodup_append]
  refine ⟨Option.toList_nodup _, marks, ?_⟩
  rintro f hf g hg rfl
  obtain ⟨s, -, rfl⟩ := Option.map_eq_some_iff.mp (Option.mem_toList.mp hf)
  obtain ⟨m, -, he⟩ := List.mem_map.mp hg
  simp at he

theorem about_of_mem_timelineFacts {a : Attribute} {t : Timeline} {f : Fact}
    (hf : f ∈ timelineFacts a t) : ∃ s kind value, f = .about a s kind value := by
  rcases List.mem_append.mp hf with hf | hf
  · obtain ⟨s, -, rfl⟩ := Option.map_eq_some_iff.mp (Option.mem_toList.mp hf)
    exact ⟨s, _, _, rfl⟩
  · obtain ⟨m, -, rfl⟩ := List.mem_map.mp hf
    exact ⟨m.stamp, _, _, rfl⟩

theorem nodup_flatMap_timelineFacts (ordered : h.IsOrdered) :
    (h.timelines.toList.flatMap fun (a, t) => timelineFacts a t).Nodup := by
  refine List.nodup_flatMap.mpr ⟨fun (a, t) member => ?_, h.timelines.ascending.imp ?_⟩
  · have same : h.timeline a = t := by simp [timeline, Table.mem_toList_iff.mp member]
    exact nodup_timelineFacts a (same ▸ ordered a)
  · rintro ⟨a, t⟩ ⟨b, u⟩ before f hf hg
    obtain ⟨s, kind, value, rfl⟩ := about_of_mem_timelineFacts hf
    obtain ⟨s', kind', value', he⟩ := about_of_mem_timelineFacts hg
    obtain rfl : a = b := (Fact.about.inj he).1
    simp at before

theorem nodup_facts (ordered : h.IsOrdered) : h.facts.Nodup := by
  rw [facts, (sortBy_perm _ _).nodup_iff, unsortedFacts]
  refine List.nodup_append.mpr ⟨List.nodup_append.mpr ⟨Option.toList_nodup _,
    nodup_flatMap_timelineFacts ordered, ?_⟩, Option.toList_nodup _, ?_⟩
  · rintro f hf g hg rfl
    obtain ⟨s, -, rfl⟩ := Option.map_eq_some_iff.mp (Option.mem_toList.mp hf)
    obtain ⟨p, -, hg⟩ := List.mem_flatMap.mp hg
    obtain ⟨s', kind, value, he⟩ := about_of_mem_timelineFacts hg
    cases he
  · rintro f hf g hg rfl
    obtain ⟨s, -, rfl⟩ := Option.map_eq_some_iff.mp (Option.mem_toList.mp hg)
    rcases List.mem_append.mp hf with hf | hf
    · obtain ⟨s', -, he⟩ := Option.map_eq_some_iff.mp (Option.mem_toList.mp hf)
      cases he
    · obtain ⟨p, -, hf⟩ := List.mem_flatMap.mp hf
      obtain ⟨s', kind, value, he⟩ := about_of_mem_timelineFacts hf
      cases he

/-- The facts of a readable history have different texts. -/
theorem nodup_encode (ordered : h.IsOrdered) (readable : h.IsReadable) : h.encode.Nodup := by
  refine List.Nodup.map_on (fun f hf g hg he => ?_) (nodup_facts ordered)
  have left := Fact.decode_encode_of_isReadable (isReadable_of_mem_facts ordered readable hf)
  have right := Fact.decode_encode_of_isReadable (isReadable_of_mem_facts ordered readable hg)
  rw [he, right] at left
  exact (Except.ok.inj left).symm

theorem Agrees.isOrdered (agrees : g.Agrees h) (ordered : h.IsOrdered) : g.IsOrdered := fun a => by
  rw [agrees.timelines a]
  exact ordered a

theorem Agrees.isReadable (agrees : g.Agrees h) (readable : h.IsReadable) : g.IsReadable :=
  fun a => by
    rw [agrees.timelines a]
    exact readable a

@[simp] theorem created_rename (h : History) (s : Stamp) : (h.rename s).created = h.created := by
  rw [rename]
  split <;> rfl

theorem admitsRename_iff {s : Stamp} : h.admitsRename s = true ↔ ∀ r ∈ h.renamed, r < s := by
  simp [admitsRename, Stamp.passes, Option.all_eq_true]

theorem renamed_rename (h : History) (s : Stamp) :
    (h.rename s).renamed = if s.passes h.renamed then some s else h.renamed := by
  rw [rename, admitsRename]
  split <;> rfl

@[simp] theorem timeline_rename (h : History) (s : Stamp) (a : Attribute) :
    (h.rename s).timeline a = h.timeline a := by
  simp only [rename]
  split <;> rfl

theorem isOrdered_of_untouched (untouched : ∀ a, h.timeline a = .empty) : h.IsOrdered :=
  fun a => untouched a ▸ Timeline.ordered_empty

theorem isReadable_of_untouched (untouched : ∀ a, h.timeline a = .empty) : h.IsReadable :=
  fun a nonempty => absurd (untouched a) nonempty

theorem isOrdered_ofCreation (s : Stamp) : (ofCreation s).IsOrdered :=
  isOrdered_of_untouched fun _ => rfl

theorem isReadable_ofCreation (s : Stamp) : (ofCreation s).IsReadable :=
  isReadable_of_untouched fun _ => rfl

theorem timeline_purge (h : History) (cutoff : Stamp) (a : Attribute) :
    (h.purge cutoff).timeline a = (h.timeline a).purge cutoff := by
  simp only [timeline, purge, Table.get?_filterMap]
  cases ht : h.timelines.get? a with
  | none => rfl
  | some t =>
    simp only [Option.bind_some, Option.getD_some]
    split
    · next nothing => simp [Timeline.eq_empty_of_isEmpty nothing]
    · rfl

theorem IsOrdered.purge (ordered : h.IsOrdered) (cutoff : Stamp) : (h.purge cutoff).IsOrdered := by
  intro a
  rw [timeline_purge]
  exact (ordered a).purge cutoff

theorem IsReadable.purge (readable : h.IsReadable) (cutoff : Stamp) :
    (h.purge cutoff).IsReadable := by
  intro a nonempty
  refine readable a fun he => nonempty ?_
  rw [timeline_purge, he]
  rfl

theorem horizon_le_iff {now : UInt64} {delay : Nat} {s : Stamp} :
    horizon now delay ≤ s ↔ now.toNat - delay ≤ s.time.toNat := by
  have hnow := now.toNat_lt
  rw [horizon, Stamp.floorAt_le_iff, UInt64.le_iff_toNat_le, UInt64.toNat_ofNat',
    Nat.mod_eq_of_lt (by omega)]

theorem IsOrdered.expire (ordered : h.IsOrdered) (now : UInt64) (retention : Option Nat) :
    (h.expire now retention).IsOrdered := by
  cases retention with
  | none => exact ordered
  | some delay => exact ordered.purge _

theorem IsReadable.expire (readable : h.IsReadable) (now : UInt64) (retention : Option Nat) :
    (h.expire now retention).IsReadable := by
  cases retention with
  | none => exact readable
  | some delay => exact readable.purge _

end DirectoryHistory.History
