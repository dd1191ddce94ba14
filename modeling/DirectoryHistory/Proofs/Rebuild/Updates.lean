import DirectoryHistory.Proofs.Rebuild.Requests
import DirectoryHistory.Proofs.Replica.Taking
import DirectoryHistory.Proofs.Sort

/-!
# The updates that a history stands for

The creation comes first, as all else is newer. The requests follow in the order of their stamps, and
the rename stands among them where its stamp puts it.
-/

namespace DirectoryHistory.Rebuilt

variable {schema : Schema} {e : Entry} {parent : Option EntryId} {h : History} {u : Update}
variable {c s : Stamp} {leaf : RelativeName}

def creationUpdate (e : Entry) (parent : Option EntryId) (c : Stamp) : Update :=
  ⟨c, e.name, e.id, .add parent e.userAttributes⟩

def renameUpdate (e : Entry) (parent : Option EntryId) (s : Stamp) (leaf : RelativeName) : Update :=
  ⟨s, e.name, e.id, .rename leaf true e.name.parent? parent⟩

theorem modifies_eq (e : Entry) (h : History) :
    modifies e h = (requests h).map (Request.update e.name e.id) := by
  rw [requests, List.map_map]
  rfl

theorem mem_updates : u ∈ (ofHistory schema e parent h).updates ↔
    (∃ c, h.created = some c ∧ u = creationUpdate e parent c) ∨
      (∃ q ∈ requests h, u = q.update e.name e.id) ∨
        ∃ s leaf, h.renamed = some s ∧ e.name.leaf? = some leaf ∧ u = renameUpdate e parent s leaf := by
  simp only [ofHistory, (sortBy_perm _ _).mem_iff, List.mem_append, or_assoc, modifies_eq,
    List.mem_map, creation?, Option.mem_toList, Option.map_eq_some_iff, rename?]
  refine or_congr ?_ (or_congr ?_ ?_)
  · simp only [creationUpdate, eq_comm]
  · simp only [Request.update, eq_comm]
  · simp only [Option.bind_eq_bind, Option.bind_eq_some_iff, renameUpdate]
    constructor
    · rintro ⟨s, hs, leaf, hl, hu⟩
      exact ⟨s, leaf, hs, hl, (Option.some.inj hu).symm⟩
    · rintro ⟨s, leaf, hs, hl, rfl⟩
      exact ⟨s, hs, leaf, hl, rfl⟩

theorem pairwise_updates (schema : Schema) (e : Entry) (parent : Option EntryId) (h : History) :
    (ofHistory schema e parent h).updates.Pairwise (·.stamp ≤ ·.stamp) := by
  let le : Update → Update → Bool := fun u v => u.stamp ≤ v.stamp
  have total : ∀ u v, le u v = true ∨ le v u = true := fun u v => by
    simpa [le] using le_total u.stamp v.stamp
  have trans : ∀ u v w, le u v = true → le v w = true → le u w = true := fun u v w => by
    simpa [le] using le_trans
  exact (pairwise_sortBy total trans _).imp fun before => by simpa [le] using before

theorem eq_cons_of_oldest {us vs : List Update} (sorted : us.Pairwise (·.stamp ≤ ·.stamp))
    (perm : us.Perm (u :: vs)) (oldest : ∀ v ∈ vs, u.stamp < v.stamp) :
    ∃ vs', us = u :: vs' ∧ vs'.Perm vs := by
  cases us with
  | nil => exact absurd perm.nil_eq nofun
  | cons w rest =>
    rcases List.mem_cons.mp (perm.mem_iff.mp (.head rest)) with rfl | later
    · exact ⟨rest, rfl, perm.cons_inv⟩
    · rcases List.mem_cons.mp (perm.mem_iff.mpr (.head vs)) with rfl | behind
      · exact absurd (oldest _ later) (lt_irrefl _)
      · have le := (List.pairwise_cons.mp sorted).1 u behind
        exact absurd (oldest w later) (not_lt.mpr le)

theorem exists_updates_eq (created : h.created = some c) (renamed : h.renamed = none)
    (newer : ∀ q ∈ requests h, c < q.stamp) : ∃ run : List Request, run.Perm (requests h) ∧
      (ofHistory schema e parent h).updates =
        creationUpdate e parent c :: run.map (Request.update e.name e.id) := by
  have perm : (ofHistory schema e parent h).updates.Perm
      (creationUpdate e parent c :: (requests h).map (Request.update e.name e.id)) := by
    refine (sortBy_perm _ _).trans (.of_eq ?_)
    simp only [creation?, created, Option.map_some, Option.toList_some, modifies_eq, rename?,
      renamed, Option.bind_eq_bind, Option.bind_none, Option.toList_none, List.append_nil]
    rfl
  obtain ⟨us, split, rest⟩ := eq_cons_of_oldest (pairwise_updates schema e parent h) perm
    (List.forall_mem_map.mpr newer)
  obtain ⟨run, rfl, same⟩ := (congrFun₂ (List.eq_map_comp_perm _) us (requests h)).mpr rest
  exact ⟨run, same, split⟩

/-- The updates of an entry that was renamed, each at its place. -/
theorem exists_updates_eq_of_renamed (created : h.created = some c) (renamed : h.renamed = some s)
    (named : e.name.leaf? = some leaf) (newer : ∀ q ∈ requests h, c < q.stamp) (later : c < s)
    (apart : ∀ q ∈ requests h, q.stamp ≠ s) : ∃ before after : List Request,
      (before ++ after).Perm (requests h) ∧ (before ++ after).Pairwise (·.stamp < ·.stamp) ∧
      (∀ q ∈ before, q.stamp < s) ∧ (∀ q ∈ after, s < q.stamp) ∧
      (ofHistory schema e parent h).updates = creationUpdate e parent c ::
        (before.map (Request.update e.name e.id) ++ renameUpdate e parent s leaf ::
          after.map (Request.update e.name e.id)) := by
  have perm : (ofHistory schema e parent h).updates.Perm (creationUpdate e parent c ::
      ((requests h).map (Request.update e.name e.id) ++ [renameUpdate e parent s leaf])) := by
    refine (sortBy_perm _ _).trans (.of_eq ?_)
    simp only [creation?, created, Option.map_some, Option.toList_some, modifies_eq, rename?,
      renamed, named, Option.bind_eq_bind, Option.bind_some]
    rfl
  have sorted := pairwise_updates schema e parent h
  have oldest : ∀ u ∈ (requests h).map (Request.update e.name e.id) ++
      [renameUpdate e parent s leaf], c < u.stamp := by
    rw [List.forall_mem_append, List.forall_mem_singleton]
    exact ⟨List.forall_mem_map.mpr newer, later⟩
  obtain ⟨us, split, rest⟩ := eq_cons_of_oldest sorted perm oldest
  rw [split, List.pairwise_cons] at sorted
  have member : renameUpdate e parent s leaf ∈ us := rest.mem_iff.mpr (by simp)
  obtain ⟨first, last, rfl⟩ := List.append_of_mem member
  have others : (first ++ last).Perm ((requests h).map (Request.update e.name e.id)) :=
    (List.perm_middle.symm.trans (rest.trans (List.perm_append_singleton _ _))).cons_inv
  obtain ⟨run, whole, same⟩ :=
    (congrFun₂ (List.eq_map_comp_perm _) (first ++ last) (requests h)).mpr others
  obtain ⟨before, after, rfl, rfl, rfl⟩ := List.map_eq_append_iff.mp whole.symm
  have stamps : ∀ q ∈ before ++ after, q.stamp ≠ s := fun q hq => apart q (same.mem_iff.mp hq)
  have ascending := sorted.2
  rw [List.pairwise_append, List.pairwise_cons, List.pairwise_map, List.pairwise_map,
    List.forall_mem_map] at ascending
  obtain ⟨beforeSorted, ⟨above, afterSorted⟩, across⟩ := ascending
  have above : ∀ q ∈ after, s ≤ q.stamp := above
  have below : ∀ q ∈ before, q.stamp ≤ s := by
    intro q hq
    exact across (q.update e.name e.id) (List.mem_map_of_mem hq)
      (renameUpdate e parent s leaf) List.mem_cons_self
  refine ⟨before, after, same, ?_, fun q hq => ?_, fun q hq => ?_, split⟩
  · have distinct := (same.map (·.stamp)).nodup_iff.mpr (nodup_stamps_requests h)
    have sorted : (before ++ after).Pairwise fun p q : Request => p.stamp ≤ q.stamp := by
      refine List.pairwise_append.mpr ⟨beforeSorted, afterSorted, fun p hp q hq => ?_⟩
      exact (below p hp).trans (above q hq)
    exact (sorted.and (List.pairwise_map.mp distinct)).imp fun both => lt_of_le_of_ne both.1 both.2
  · exact lt_of_le_of_ne (below q hq) (stamps q (List.mem_append_left _ hq))
  · exact lt_of_le_of_ne (above q hq) (stamps q (List.mem_append_right _ hq)).symm

end DirectoryHistory.Rebuilt

namespace DirectoryHistory.Replica

variable {r : Replica} {id : EntryId} {t : Tracked}

theorem Holds.ofEntry_eq (h : r.Holds id t) : History.ofEntry t.entry = .ok t.history :=
  Tracked.history_of_ofEntry h.read

theorem Holds.rebuild_eq (h : r.Holds id t) : r.rebuild t.entry.name =
    .ok (.ofHistory r.schema t.entry (r.storedParent? t.entry.name) t.history) := by
  have found : r.find t.entry.name = .ok t.entry := by
    have same : t.entry.name.same t.entry.name = true := DistinguishedName.same_iff.mpr rfl
    simp only [find, h.find? same]
  simp only [rebuild, found, Rebuilt.ofEntry, h.ofEntry_eq, Except.map, Except.mapError]

end DirectoryHistory.Replica
