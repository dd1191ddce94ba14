import DirectoryHistory.Proofs.DistinguishedName
import DirectoryHistory.Proofs.Replica.Operations
import DirectoryHistory.Proofs.Table

/-!
# The index of names

Every stored entry is listed under its name, and nothing else is listed. So an entry is found by its
name exactly when it is stored, and two stored entries never share a name. Storing and removing
entries keep it so, and with them all operations of a replica.
-/

namespace DirectoryHistory

namespace Store

theorem mem_toList {s : Store} {e : Entry} : e ∈ s.toList ↔ ∃ id, s.get? id = some e := by
  simp only [toList, Table.values, List.mem_map, Prod.exists, exists_eq_right, get?,
    Table.mem_toList_iff]

/-- The index lists the stored entries by their names, and those alone. -/
structure IsIndexed (s : Store) : Prop where
  keyed : ∀ id e, s.get? id = some e → e.id = id
  listed : ∀ id e, s.get? id = some e → s.names.get? e.name.folded = some id
  stored : ∀ k id, s.names.get? k = some id → ∃ e, s.get? id = some e ∧ e.name.folded = k

variable {s s' : Store} {e f : Entry} {id : EntryId} {name : DistinguishedName}

theorem isIndexed_empty : empty.IsIndexed where
  keyed := nofun
  listed := nofun
  stored := nofun

theorem IsIndexed.find?_eq_some_iff (h : s.IsIndexed) :
    s.find? name = some e ↔ s.get? e.id = some e ∧ e.name.folded = name.folded := by
  constructor
  · intro found
    obtain ⟨id, listed, stored⟩ := Option.bind_eq_some_iff.mp found
    obtain ⟨f, stored', named⟩ := h.stored _ id listed
    obtain rfl : e = f := Option.some.inj (stored.symm.trans stored')
    exact ⟨h.keyed id e stored ▸ stored, named⟩
  · rintro ⟨stored, named⟩
    exact Option.bind_eq_some_iff.mpr ⟨e.id, named ▸ h.listed e.id e stored, stored⟩

theorem IsIndexed.find?_eq_none_iff (h : s.IsIndexed) :
    s.find? name = none ↔ ∀ id e, s.get? id = some e → e.name.folded ≠ name.folded := by
  rw [Option.eq_none_iff_forall_ne_some]
  constructor
  · intro none id e stored named
    have key := h.keyed id e stored
    exact none e (h.find?_eq_some_iff.mpr ⟨key ▸ stored, named⟩)
  · intro other e found
    obtain ⟨stored, named⟩ := h.find?_eq_some_iff.mp found
    exact other e.id e stored named

theorem IsIndexed.find?_of_get? (h : s.IsIndexed) (stored : s.get? id = some e) :
    s.find? e.name = some e :=
  h.find?_eq_some_iff.mpr ⟨h.keyed id e stored ▸ stored, rfl⟩

theorem IsIndexed.eq_of_folded_eq (h : s.IsIndexed) {id' : EntryId} (he : s.get? id = some e)
    (hf : s.get? id' = some f) (named : e.name.folded = f.name.folded) : e = f := by
  have first := h.find?_of_get? he
  have second := h.find?_eq_some_iff.mpr ⟨h.keyed id' f hf ▸ hf, named.symm⟩
  exact Option.some.inj (first.symm.trans second)

theorem IsIndexed.mem_toList_iff (h : s.IsIndexed) : e ∈ s.toList ↔ s.get? e.id = some e := by
  rw [mem_toList]
  constructor
  · rintro ⟨id, stored⟩
    rwa [h.keyed id e stored]
  · exact fun stored => ⟨e.id, stored⟩

theorem IsIndexed.map_id_toList (h : s.IsIndexed) : s.toList.map (·.id) = s.ids := by
  rw [toList, Table.values, List.map_map, ids, Table.keys]
  exact List.map_congr_left fun p hp => h.keyed p.1 p.2 (Table.mem_toList_iff.mp hp)

theorem IsIndexed.nodup_folded (h : s.IsIndexed) : (s.toList.map (·.name.folded)).Nodup := by
  have distinct : (s.toList.map (·.id)).Nodup := h.map_id_toList ▸ s.entries.nodup_keys
  refine (List.Nodup.of_map _ distinct).map_on fun e he f hf same => ?_
  exact h.eq_of_folded_eq (h.mem_toList_iff.mp he) (h.mem_toList_iff.mp hf) same

/-- The name under which the entry was stored before is given up, unless it is still its name. -/
theorem IsIndexed.get?_releaseName (h : s.IsIndexed) {k : List String} (other : k ≠ e.name.folded) :
    (s.releaseName e).get? k = some id ↔ s.names.get? k = some id ∧ id ≠ e.id := by
  simp only [releaseName]
  split
  · next old stored =>
    have listed : s.names.get? old.name.folded = some e.id := h.listed _ _ stored
    have unique : ∀ {k}, s.names.get? k = some e.id → k = old.name.folded := by
      intro k hk
      obtain ⟨f, stored', named⟩ := h.stored k e.id hk
      obtain rfl : old = f := Option.some.inj (stored.symm.trans stored')
      exact named.symm
    split
    · next same =>
      rw [DistinguishedName.same_iff] at same
      refine ⟨fun hk => ⟨hk, ?_⟩, And.left⟩
      rintro rfl
      exact other ((unique hk).trans same)
    · by_cases hk : k = old.name.folded
      · subst hk
        rw [Table.get?_erase_self, listed]
        simp only [reduceCtorEq, Option.some.injEq, false_iff, not_and, not_not]
        exact Eq.symm
      · rw [Table.get?_erase_of_ne _ hk]
        refine ⟨fun listed' => ⟨listed', ?_⟩, And.left⟩
        rintro rfl
        exact hk (unique listed')
  · next absent =>
    refine ⟨fun listed => ⟨listed, ?_⟩, And.left⟩
    rintro rfl
    obtain ⟨f, stored, -⟩ := h.stored k e.id listed
    rw [get?, absent] at stored
    cases stored

theorem IsIndexed.put (h : s.IsIndexed) (put : s.put e = .ok s') : s'.IsIndexed := by
  have named := names_get?_put put
  have stored := get?_put put
  have free : ∀ id, s.names.get? e.name.folded = some id → id = e.id := by
    intro id listed
    by_contra other
    simp [Store.put, listed, other] at put
  have listed : ∀ k id, k ≠ e.name.folded →
      (s'.names.get? k = some id ↔ s.names.get? k = some id ∧ id ≠ e.id) := by
    intro k id other
    rw [← h.get?_releaseName other]
    simp only [Store.put] at put
    split at put
    · cases put
    · cases put
      rw [Table.get?_insert_of_ne _ other]
  constructor
  · intro id f hf
    rw [stored] at hf
    split at hf
    · next same => rw [← Option.some.inj hf, same]
    · exact h.keyed id f hf
  · intro id f hf
    rw [stored] at hf
    split at hf
    · next same => rw [← Option.some.inj hf, named, same]
    · next other =>
      have before := h.listed id f hf
      refine (listed _ id fun same => ?_).mpr ⟨before, other⟩
      exact other (free id (same ▸ before))
  · intro k id hk
    by_cases same : k = e.name.folded
    · subst same
      obtain rfl : e.id = id := Option.some.inj (named.symm.trans hk)
      exact ⟨e, by rw [stored, if_pos rfl], rfl⟩
    · obtain ⟨before, other⟩ := (listed k id same).mp hk
      obtain ⟨f, hf, name⟩ := h.stored k id before
      exact ⟨f, by rw [stored, if_neg other, hf], name⟩

theorem isIndexed_ofEntries {es : List Entry} (built : ofEntries es = .ok s) : s.IsIndexed := by
  have fold : ∀ (es : List Entry) (t : Store), t.IsIndexed → es.foldlM Store.put t = .ok s →
      s.IsIndexed := by
    intro es
    induction es with
    | nil =>
      intro t h built
      cases built
      exact h
    | cons e rest ih =>
      intro t h built
      rw [List.foldlM_cons] at built
      cases first : t.put e with
      | error cause => simp [first, bind, Except.bind] at built
      | ok t' =>
        rw [first] at built
        exact ih t' (h.put first) built
  exact fold es empty isIndexed_empty built

theorem IsIndexed.remove (h : s.IsIndexed) (id : EntryId) : (s.remove id).IsIndexed := by
  cases stored : s.get? id with
  | none =>
    have same : s.remove id = s := by
      rw [get?] at stored
      simp [Store.remove, stored]
    exact same.symm ▸ h
  | some e =>
    have names : (s.remove id).names = s.names.erase e.name.folded := by
      rw [get?] at stored
      simp [Store.remove, stored]
    have left : ∀ id' f, (s.remove id).get? id' = some f → id' ≠ id ∧ s.get? id' = some f := by
      intro id' f hf
      rw [get?_remove] at hf
      split at hf
      · cases hf
      · next other => exact ⟨other, hf⟩
    constructor
    · exact fun id' f hf => h.keyed id' f (left id' f hf).2
    · intro id' f hf
      obtain ⟨other, hf⟩ := left id' f hf
      rw [names, Table.get?_erase_of_ne _ fun same => ?_]
      · exact h.listed id' f hf
      · have listed := h.listed id' f hf
        rw [same, h.listed id e stored] at listed
        exact other (Option.some.inj listed).symm
    · intro k id' hk
      have apart : k ≠ e.name.folded := by
        rintro rfl
        simp [names] at hk
      rw [names, Table.get?_erase_of_ne _ apart] at hk
      obtain ⟨f, hf, name⟩ := h.stored k id' hk
      refine ⟨f, ?_, name⟩
      rw [get?_remove, if_neg ?_, hf]
      rintro rfl
      obtain rfl : e = f := Option.some.inj (stored.symm.trans hf)
      exact apart name.symm

end Store

/-- Every operation of a replica keeps the index of its store. -/
theorem Store.IsIndexed.perform {r : Replica} (h : r.store.IsIndexed) (now : Readings)
    (op : Replica.Operation) : (r.perform now op).store.IsIndexed := by
  cases Replica.effect_perform r now op with
  | kept only =>
    rw [only]
    exact h
  | removed id only =>
    rw [only]
    exact h.remove id
  | wrote t writes put only => exact h.put put

end DirectoryHistory
