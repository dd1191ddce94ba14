import DirectoryHistory.Proofs.Rebuild.Timeline
import DirectoryHistory.Proofs.Tracked.Storing

/-!
# The requests that a history stands for

The modifications of all attributes are gathered into one request for every stamp. What the requests
do to one attribute are the edits of its timeline. All of them are valid, unless a single-valued
attribute was last reset to several values at once.
-/

namespace DirectoryHistory

namespace Rebuilt

variable {h : History} {a : Attribute} {q : Request} {s : Stamp}

def allModifications (h : History) : List (Stamp × Modification) :=
  h.timelines.toList.flatMap fun (a, t) => modifications a t

/-- What the history stands for, as one request for every stamp. -/
def requests (h : History) : List Request :=
  (byStamp (allModifications h)).toList.map fun (s, ms) => ⟨s, ms⟩

theorem byStamp_snoc (ms : List (Stamp × Modification)) (s : Stamp) (m : Modification) :
    byStamp (ms ++ [(s, m)]) = (byStamp ms).insert s (((byStamp ms).get? s).getD [] ++ [m]) := by
  simp [byStamp]

theorem get?_byStamp (ms : List (Stamp × Modification)) (s : Stamp) :
    (byStamp ms).get? s = if ms.filter (·.1 = s) = [] then none
      else some ((ms.filter (·.1 = s)).map (·.2)) := by
  induction ms using List.reverseRecOn with
  | nil => rfl
  | append_singleton ms p ih =>
    obtain ⟨r, m⟩ := p
    rw [byStamp_snoc]
    by_cases hr : s = r
    · subst hr
      rw [Table.get?_insert_self, ih]
      split
      · next none => simp [List.filter_append, none]
      · simp [List.filter_append]
    · have same : (ms ++ [(r, m)]).filter (·.1 = s) = ms.filter (·.1 = s) := by
        simp [List.filter_append, Ne.symm hr]
      rw [Table.get?_insert_of_ne _ hr, ih, same]

theorem mem_requests : q ∈ requests h ↔ (∃ m, (q.stamp, m) ∈ allModifications h) ∧
    q.modifications = ((allModifications h).filter (·.1 = q.stamp)).map (·.2) := by
  have pair : q ∈ requests h ↔ (q.stamp, q.modifications) ∈ (byStamp (allModifications h)).toList := by
    rw [requests, List.mem_map]
    constructor
    · rintro ⟨p, hp, rfl⟩
      exact hp
    · intro hq
      exact ⟨_, hq, rfl⟩
  rw [pair, Table.mem_toList_iff, get?_byStamp]
  have some : (allModifications h).filter (·.1 = q.stamp) = [] ↔
      ¬∃ m, (q.stamp, m) ∈ allModifications h := by
    simp only [List.filter_eq_nil_iff, decide_eq_true_eq, Prod.forall, not_exists]
    constructor
    · intro none m hm
      exact none _ m hm rfl
    · rintro none s m hm rfl
      exact none m hm
  by_cases found : ∃ m, (q.stamp, m) ∈ allModifications h
  · rw [if_neg (some.not.mpr (not_not.mpr found)), Option.some_inj, eq_comm]
    simp [found]
  · simp [some.mpr found, found]

theorem nodup_stamps_requests (h : History) : ((requests h).map (·.stamp)).Nodup := by
  rw [requests, List.map_map, List.nodup_iff_pairwise_ne, List.pairwise_map]
  refine (byStamp (allModifications h)).ascending.imp fun {p r} before same => ?_
  have same : p.1 = r.1 := same
  simp [same] at before

theorem filter_allModifications (h : History) (a : Attribute) :
    (allModifications h).filter (fun p => p.2.attr = a) = modifications a (h.timeline a) := by
  have own : ∀ q : Attribute × Timeline, ∀ p ∈ modifications q.1 q.2, p.2.attr = q.1 :=
    fun _ _ => attr_of_mem_modifications
  rw [allModifications, Table.filter_flatMap_toList own, History.timeline]
  cases h.timelines.get? a with
  | none => rfl
  | some t => exact List.flatMap_singleton ..

theorem mem_allModifications_of_mem {p : Stamp × Modification}
    (hp : p ∈ modifications a (h.timeline a)) : p ∈ allModifications h := by
  rw [← filter_allModifications] at hp
  exact (List.mem_filter.mp hp).1

theorem mem_modifications_of_mem {p : Stamp × Modification} (hp : p ∈ allModifications h) :
    p ∈ modifications p.2.attr (h.timeline p.2.attr) := by
  rw [← filter_allModifications]
  exact List.mem_filter.mpr ⟨hp, by simp⟩

theorem edit_eq_editAt (hq : q ∈ requests h) (a : Attribute) :
    q.edit a = editAt a (h.timeline a) q.stamp := by
  have own : q.modifications.filter (·.attr = a) =
      ((modifications a (h.timeline a)).filter (·.1 = q.stamp)).map (·.2) := by
    rw [(mem_requests.mp hq).2, ← filter_allModifications, List.filter_map, List.filter_filter,
      List.filter_filter]
    congr 2
    funext p
    exact Bool.and_comm _ _
  have changes := Request.changes_edit a q
  rw [own, List.flatMap_map] at changes
  rw [editAt, ← changes]
  rfl

theorem exists_request {p : Stamp × Modification} (hp : p ∈ allModifications h) :
    ∃ q ∈ requests h, q.stamp = p.1 :=
  ⟨⟨p.1, ((allModifications h).filter (·.1 = p.1)).map (·.2)⟩,
    mem_requests.mpr ⟨⟨p.2, hp⟩, rfl⟩, rfl⟩

/-- The requests, in any order, do to an attribute what its timeline stands for. -/
theorem covers_of_perm {run : List Request} (perm : run.Perm (requests h))
    (a : Attribute) : Covers a (h.timeline a) (run.map (Request.edit a)) where
  distinct := by
    rw [List.map_map]
    exact (perm.map _).nodup_iff.mpr (nodup_stamps_requests h)
  form e he := by
    obtain ⟨q, hq, rfl⟩ := List.mem_map.mp he
    exact edit_eq_editAt (perm.mem_iff.mp hq) a
  reset s hs := by
    have part : (s, resetModification a (h.timeline a) s) ∈ modifications a (h.timeline a) :=
      mem_modifications.mpr (.inl ⟨s, hs, rfl⟩)
    obtain ⟨q, hq, stamp⟩ := exists_request (mem_allModifications_of_mem part)
    exact ⟨_, List.mem_map_of_mem (perm.mem_iff.mpr hq), stamp⟩
  marks m hm := by
    have named := names_editAt (a := a).mpr ⟨m, hm, rfl, rfl⟩
    rw [Edit.names, List.any_eq_true] at named
    obtain ⟨c, hc, -⟩ := named
    obtain ⟨p, hp, -⟩ := List.mem_flatMap.mp hc
    obtain ⟨hp, stamp⟩ := List.mem_filter.mp hp
    obtain ⟨q, hq, same⟩ := exists_request (mem_allModifications_of_mem hp)
    exact ⟨_, List.mem_map_of_mem (perm.mem_iff.mpr hq), same.trans (by simpa using stamp)⟩

/-- A request was made when an attribute was last reset or one of its values was last named. -/
theorem stamp_of_mem_requests (hq : q ∈ requests h) : ∃ a,
    (h.timeline a).lastReset = some q.stamp ∨ ∃ m ∈ (h.timeline a).marks, m.stamp = q.stamp := by
  obtain ⟨⟨m, hm⟩, -⟩ := mem_requests.mp hq
  refine ⟨m.attr, ?_⟩
  rcases mem_modifications.mp (mem_modifications_of_mem hm) with ⟨r, hr, he⟩ | ⟨n, hn, -, he⟩
  · obtain rfl : q.stamp = r := congrArg Prod.fst he
    exact .inl hr
  · exact .inr ⟨n, hn, (congrArg Prod.fst he).symm⟩

variable {schema : Schema} {t : Timeline}

theorem validate_resetModification (target : checkTarget a = .ok ()) :
    (resetModification a t s).validate schema = .ok () ↔
      (schema.isSingle a = true → (resetValues t s).length ≤ 1) := by
  obtain ⟨named, user, unreserved⟩ := checkTarget_eq_ok_iff.mp target
  rw [Modification.validate_eq_ok_iff, Modification.isValid_iff]
  by_cases nothing : resetValues t s = [] <;>
    simp [resetModification, named, user, unreserved, nothing]

theorem validate_markModification (target : checkTarget a = .ok ()) (m : Mark) :
    (markModification a m).validate schema = .ok () := by
  obtain ⟨named, user, unreserved⟩ := checkTarget_eq_ok_iff.mp target
  rw [Modification.validate_eq_ok_iff, Modification.isValid_iff]
  obtain ⟨v, x, s⟩ := m
  cases x <;> simp [markModification, named, user, unreserved]

/-- No single-valued attribute was last reset to several values at once. -/
def IsUncrowded (schema : Schema) (h : History) : Prop :=
  ∀ a s, schema.isSingle a = true → (h.timeline a).lastReset = some s →
    (resetValues (h.timeline a) s).length ≤ 1

/-- The requests of a history about attributes that may be changed are valid as long as no
single-valued attribute was last reset to several values. -/
theorem validateAll_requests_iff
    (targets : ∀ a, h.timeline a ≠ .empty → checkTarget a = .ok ()) :
    (∀ q ∈ requests h, validateAll schema q.modifications = .ok ()) ↔ IsUncrowded schema h := by
  have touched : ∀ {a s}, (h.timeline a).lastReset = some s → checkTarget a = .ok () := by
    intro a s hs
    refine targets a fun nothing => ?_
    rw [nothing] at hs
    cases hs
  constructor
  · intro valid a s single hs
    have part : (s, resetModification a (h.timeline a) s) ∈ modifications a (h.timeline a) :=
      mem_modifications.mpr (.inl ⟨s, hs, rfl⟩)
    have member := mem_allModifications_of_mem part
    obtain ⟨q, hq, stamp⟩ := exists_request member
    have inside : resetModification a (h.timeline a) s ∈ q.modifications := by
      rw [(mem_requests.mp hq).2, List.mem_map]
      exact ⟨_, List.mem_filter.mpr ⟨member, by simp [stamp]⟩, rfl⟩
    exact (validate_resetModification (touched hs)).mp
      (validateAll_eq_ok_iff.mp (valid q hq) _ inside) single
  · intro uncrowded q hq
    refine validateAll_eq_ok_iff.mpr fun m hm => ?_
    rw [(mem_requests.mp hq).2, List.mem_map] at hm
    obtain ⟨p, hp, rfl⟩ := hm
    have member := mem_modifications_of_mem (List.mem_filter.mp hp).1
    generalize p.2.attr = b at member
    rcases mem_modifications.mp member with ⟨r, hr, rfl⟩ | ⟨n, hn, -, rfl⟩
    · exact (validate_resetModification (touched hr)).mpr fun single => uncrowded b r single hr
    · refine validate_markModification (targets b fun nothing => ?_) n
      rw [nothing] at hn
      cases hn

end Rebuilt

end DirectoryHistory
