import DirectoryHistory.Proofs.History.Rewriting
import DirectoryHistory.Proofs.Rebuild.Updates
import DirectoryHistory.Proofs.Replica.Growth

/-!
# The facts in rebuilt updates

A modification with its stamp says what some facts say. What the rebuilt updates say of attributes is
what the history says of them, fact by fact: none is lost, none is said twice and none is made up,
although the facts are gathered by stamp across the attributes and the values added by a reset are
told with the reset and not with the marks.
-/

namespace DirectoryHistory

/-- The facts that the modification says at the stamp. -/
def Modification.facts (s : Stamp) (m : Modification) : List Fact :=
  match m.kind, m.values with
  | .delete, [] => [.about m.attr s .deleteAttribute none]
  | .delete, vs => vs.map fun v => .about m.attr s .delete (some v)
  | .add, vs => vs.map fun v => .about m.attr s .add (some v)
  | .replace, vs => vs.map fun v => .about m.attr s .replace (some v)

/-- Whether the modification is about the attribute as a whole. -/
def Modification.isWhole (m : Modification) : Bool :=
  match m.kind with
  | .add => false
  | .delete => m.values.isEmpty
  | .replace => true

/-- The modification adds one value, deletes one or all, or replaces all by some. -/
def Modification.IsElementary (m : Modification) : Prop :=
  match m.kind with
  | .add => m.values.length = 1
  | .delete => m.values.length ≤ 1
  | .replace => m.values ≠ []

def Update.isRename (u : Update) : Bool :=
  match u.payload with
  | .rename .. => true
  | _ => false

theorem Modification.stamp_of_mem_facts {m : Modification} {s : Stamp} {f : Fact}
    (hf : f ∈ m.facts s) : f.stamp = s := by
  simp only [facts] at hf
  split at hf
  · rw [List.mem_singleton.mp hf]
    rfl
  all_goals
    obtain ⟨v, -, rfl⟩ := List.mem_map.mp hf
    rfl

theorem Modification.IsElementary.facts_ne_nil {m : Modification} (h : m.IsElementary) (s : Stamp) :
    m.facts s ≠ [] := by
  obtain ⟨a, kind, vs⟩ := m
  cases kind <;> cases vs <;> simp [IsElementary, facts] at h ⊢

namespace Rebuilt

variable {a : Attribute} {t : Timeline} {s : Stamp} {m : Mark} {p : Stamp × Modification}

/-- The modifications of all requests, each with its stamp. -/
def parts (us : List Update) : List (Stamp × Modification) :=
  (us.filterMap Update.request?).flatMap fun q => q.modifications.map (q.stamp, ·)

/-- The updates say of the entry what its history says. -/
structure Tells (e : Entry) (parent : Option EntryId) (h : History) (us : List Update) : Prop where
  /-- The requests say every fact about an attribute at its stamp, and nothing else. -/
  facts : ((parts us).flatMap fun p => p.2.facts p.1).Perm (h.facts.filter (·.attr?.isSome))
  once : ((parts us).flatMap fun p => p.2.facts p.1).Nodup
  elementary : ∀ p ∈ parts us, p.2.IsElementary
  unreset : ∀ a, (h.timeline a).lastReset = none →
    (parts us).filter (fun p => p.2.attr = a ∧ p.2.isWhole) = []
  /-- The last reset is told once, by a replace with the values that were added at its stamp, or by
  a delete if there are none. -/
  reset : ∀ a s, (h.timeline a).lastReset = some s → ∃ vs : List Octets,
    (∀ v, v ∈ vs ↔ ⟨v, .added, s⟩ ∈ (h.timeline a).marks) ∧
    (parts us).filter (fun p => p.2.attr = a ∧ p.2.isWhole) =
      [(s, ⟨a, if vs = [] then .delete else .replace, vs⟩)]
  /-- There is one request for every stamp of a fact about an attribute. -/
  distinct : ((us.filterMap Update.request?).map (·.stamp)).Nodup
  stamps : ∀ s, s ∈ (us.filterMap Update.request?).map (·.stamp) ↔
    ∃ f ∈ h.facts, f.attr?.isSome ∧ f.stamp = s
  created : us.filter Update.isCreation = (h.created.map (creationUpdate e parent)).toList
  /-- The root has no leaf and is not renamed. -/
  renamed : us.filter Update.isRename =
    (h.renamed.bind fun s => e.name.leaf?.map (renameUpdate e parent s)).toList
  about : ∀ u ∈ us, u.name = e.name ∧ u.id = e.id ∧ u.payload ≠ .delete
  ascending : us.Pairwise (·.stamp ≤ ·.stamp)
  first : ∀ c ∈ us, c.isCreation = true → ∃ rest, us.filter (·.stamp = c.stamp) = c :: rest

/-- The fact that a mark of a timeline is written as. -/
def markFact (a : Attribute) (t : Timeline) (m : Mark) : Fact :=
  .about a m.stamp (History.markKind t m) (some m.value)

/-- Whether the mark is told together with the last reset. -/
def isPart (t : Timeline) (m : Mark) : Bool :=
  m.sense == .added && t.lastReset == some m.stamp

theorem filter_isPart (reset : t.lastReset = some s) :
    t.marks.filter (isPart t) = t.marks.filter fun m => m.stamp == s && m.sense == .added := by
  refine List.filter_congr fun m _ => ?_
  rw [isPart, reset, Bool.and_comm, BEq.comm (a := some s)]
  rfl

theorem bareReset?_eq (reset : t.lastReset = some s) :
    t.bareReset? = if resetValues t s = [] then some s else none := by
  have bare : resetValues t s = [] ↔
      (t.marks.any fun m => m.stamp == s && m.sense == .added) = false := by
    rw [resetValues, List.map_eq_nil_iff, List.filter_eq_nil_iff, List.any_eq_false]
  rw [Timeline.bareReset?, reset, Option.filter_some]
  simp [bare]

theorem facts_resetModification (reset : t.lastReset = some s) :
    (resetModification a t s).facts s =
      (t.bareReset?.map fun s => Fact.about a s .deleteAttribute none).toList ++
        (t.marks.filter (isPart t)).map (markFact a t) := by
  have told : (t.marks.filter (isPart t)).map (markFact a t) =
      (resetValues t s).map fun v => .about a s .replace (some v) := by
    rw [resetValues, List.map_map, ← filter_isPart reset]
    refine List.map_congr_left fun m hm => ?_
    have part : m.sense = .added ∧ s = m.stamp := by
      simpa [isPart, reset] using (List.mem_filter.mp hm).2
    simp [markFact, History.markKind, part.1, reset, part.2]
  rw [bareReset?_eq reset, told]
  by_cases nothing : resetValues t s = [] <;>
    simp [resetModification, Modification.facts, nothing]

theorem facts_markModification (apart : isPart t m = false) :
    (markModification a m).facts m.stamp = [markFact a t m] := by
  obtain ⟨v, x, s⟩ := m
  cases x with
  | added =>
    have other : t.lastReset ≠ some s := by simpa [isPart] using apart
    simp [markModification, Modification.facts, markFact, History.markKind, other]
  | deleted => rfl

/-- What a timeline is rebuilt as says what it is written as. -/
theorem perm_facts_modifications (a : Attribute) (t : Timeline) :
    ((modifications a t).flatMap fun p => p.2.facts p.1).Perm (History.timelineFacts a t) := by
  have reset : ((t.lastReset.map fun s => (s, resetModification a t s)).toList.flatMap
      fun p => p.2.facts p.1) =
        (t.bareReset?.map fun s => Fact.about a s .deleteAttribute none).toList ++
          (t.marks.filter (isPart t)).map (markFact a t) := by
    cases reset : t.lastReset with
    | none => simp [Timeline.bareReset?, isPart, reset]
    | some s => simpa using facts_resetModification reset
  have marks : ((t.marks.filter fun m => !isPart t m).map fun m =>
      (m.stamp, markModification a m)).flatMap (fun p => p.2.facts p.1) =
        (t.marks.filter fun m => !isPart t m).map (markFact a t) := by
    rw [List.map_eq_flatMap (f := markFact a t), List.flatMap_map]
    exact List.flatMap_congr fun m hm =>
      facts_markModification (by simpa using (List.mem_filter.mp hm).2)
  have split : (modifications a t).flatMap (fun p => p.2.facts p.1) =
      (t.bareReset?.map fun s => Fact.about a s .deleteAttribute none).toList ++
        ((t.marks.filter (isPart t)).map (markFact a t) ++
          (t.marks.filter fun m => !isPart t m).map (markFact a t)) := by
    rw [modifications, List.flatMap_append, reset, List.append_assoc]
    exact congrArg _ (congrArg _ marks)
  rw [split, ← List.map_append]
  exact ((List.filter_append_perm (isPart t) t.marks).map (markFact a t)).append_left _

theorem isElementary_of_mem_modifications (hp : p ∈ modifications a t) : p.2.IsElementary := by
  rcases mem_modifications.mp hp with ⟨s, -, rfl⟩ | ⟨⟨v, x, s⟩, -, -, rfl⟩
  · by_cases nothing : resetValues t s = [] <;>
      simp [Modification.IsElementary, resetModification, nothing]
  · cases x <;> simp [Modification.IsElementary, markModification]

theorem filter_isWhole_modifications (a : Attribute) (t : Timeline) :
    (modifications a t).filter (·.2.isWhole) =
      (t.lastReset.map fun s => (s, resetModification a t s)).toList := by
  have reset : ∀ s, (resetModification a t s).isWhole = true := fun s => by
    by_cases nothing : resetValues t s = [] <;>
      simp [Modification.isWhole, resetModification, nothing]
  have mark : ∀ m, (markModification a m).isWhole = false := by
    rintro ⟨v, x, s⟩
    cases x <;> rfl
  rw [modifications, List.filter_append, List.filter_eq_self.mpr (by simp [reset]),
    List.filter_eq_nil_iff.mpr (List.forall_mem_map.mpr fun m _ => by simp [mark]), List.append_nil]

theorem perm_of_filter_eq {α κ : Type} [DecidableEq κ] {l l' : List α} (key : α → κ)
    (same : ∀ k, l.filter (fun x => key x = k) = l'.filter (fun x => key x = k)) : l.Perm l' := by
  classical
  refine List.perm_iff_count.mpr fun x => ?_
  have counts := congrArg (List.count x) (same (key x))
  rwa [List.count_filter (by simp), List.count_filter (by simp)] at counts

theorem eq_toList_of_perm {α : Type} {l : List α} {o : Option α} (perm : l.Perm o.toList) :
    l = o.toList := by
  cases o with
  | none => exact perm.eq_nil
  | some x => exact List.perm_singleton.mp perm

theorem perm_byStamp (ms : List (Stamp × Modification)) :
    ((byStamp ms).toList.flatMap fun p => p.2.map (p.1, ·)).Perm ms := by
  refine perm_of_filter_eq (·.1) fun s => ?_
  have own : ∀ p : Stamp × List Modification, ∀ q ∈ p.2.map (p.1, ·), q.1 = p.1 := by
    simp
  rw [Table.filter_flatMap_toList own, get?_byStamp]
  split
  · next none => rw [none]; rfl
  · rw [Option.toList_some, List.flatMap_singleton, List.map_map]
    refine (List.map_congr_left fun p hp => ?_).trans (List.map_id _)
    have stamp : p.1 = s := by simpa using (List.mem_filter.mp hp).2
    exact Prod.ext stamp.symm rfl

variable (schema : Schema) (e : Entry) (parent : Option EntryId) (h : History)

theorem perm_requests :
    ((ofHistory schema e parent h).updates.filterMap Update.request?).Perm (requests h) := by
  refine ((sortBy_perm _ _).filterMap _).trans (.of_eq ?_)
  have creation : (creation? e parent h).toList.filterMap Update.request? = [] := by
    cases created : h.created <;> simp [creation?, created, Update.request?]
  have rename : (rename? e parent h).toList.filterMap Update.request? = [] := by
    cases renamed : h.renamed <;> cases named : e.name.leaf? <;>
      simp [rename?, renamed, named, Update.request?]
  have modify : Update.request? ∘ Request.update e.name e.id = some := rfl
  rw [List.filterMap_append, List.filterMap_append, creation, rename, modifies_eq,
    List.filterMap_map, modify, List.filterMap_some, List.nil_append, List.append_nil]

theorem perm_parts :
    (parts (ofHistory schema e parent h).updates).Perm (allModifications h) := by
  refine ((perm_requests schema e parent h).flatMap_right _).trans ?_
  rw [requests, List.flatMap_map]
  exact perm_byStamp (allModifications h)

theorem perm_filter_facts (h : History) : (h.facts.filter (·.attr?.isSome)).Perm
    (h.timelines.toList.flatMap fun (a, t) => History.timelineFacts a t) := by
  refine ((sortBy_perm _ _).filter _).trans (.of_eq ?_)
  have created : (h.created.map Fact.created).toList.filter (·.attr?.isSome) = [] := by
    cases h.created <;> simp [Fact.attr?]
  have renamed : (h.renamed.map Fact.renamed).toList.filter (·.attr?.isSome) = [] := by
    cases h.renamed <;> simp [Fact.attr?]
  rw [History.unsortedFacts, List.filter_append, List.filter_append, created, renamed,
    List.nil_append, List.append_nil, List.filter_eq_self]
  intro f hf
  obtain ⟨p, -, hf⟩ := List.mem_flatMap.mp hf
  obtain ⟨s, kind, value, rfl⟩ := History.about_of_mem_timelineFacts hf
  rfl

theorem perm_facts_allModifications : ((allModifications h).flatMap fun p => p.2.facts p.1).Perm
    (h.facts.filter (·.attr?.isSome)) := by
  rw [allModifications, List.flatMap_assoc]
  refine .trans ?_ (perm_filter_facts h).symm
  exact .flatMap_left _ fun p _ => perm_facts_modifications p.1 p.2

theorem perm_facts_parts : ((parts (ofHistory schema e parent h).updates).flatMap
    fun p => p.2.facts p.1).Perm (h.facts.filter (·.attr?.isSome)) :=
  ((perm_parts schema e parent h).flatMap_right _).trans (perm_facts_allModifications h)

theorem filter_isWhole_parts (a : Attribute) :
    (parts (ofHistory schema e parent h).updates).filter (fun p => p.2.attr = a ∧ p.2.isWhole) =
      ((h.timeline a).lastReset.map fun s =>
        (s, resetModification a (h.timeline a) s)).toList := by
  have perm := (perm_parts schema e parent h).filter fun p => p.2.attr = a ∧ p.2.isWhole
  have own : (allModifications h).filter (fun p => p.2.attr = a ∧ p.2.isWhole) =
      (modifications a (h.timeline a)).filter (·.2.isWhole) := by
    rw [← filter_allModifications, List.filter_filter]
    exact List.filter_congr fun p _ => by simp [Bool.and_comm]
  rw [own, filter_isWhole_modifications] at perm
  exact eq_toList_of_perm perm

theorem mem_stamps_iff (s : Stamp) :
    s ∈ ((ofHistory schema e parent h).updates.filterMap Update.request?).map (·.stamp) ↔
      ∃ f ∈ h.facts, f.attr?.isSome ∧ f.stamp = s := by
  have said : ∀ f, (f ∈ h.facts ∧ f.attr?.isSome) ↔
      ∃ p ∈ allModifications h, f ∈ p.2.facts p.1 := by
    intro f
    rw [← List.mem_flatMap, (perm_facts_allModifications h).mem_iff, List.mem_filter]
  rw [((perm_requests schema e parent h).map _).mem_iff, List.mem_map]
  constructor
  · rintro ⟨q, hq, rfl⟩
    obtain ⟨⟨m, hm⟩, -⟩ := mem_requests.mp hq
    have elementary := isElementary_of_mem_modifications (mem_modifications_of_mem hm)
    obtain ⟨f, hf⟩ := List.exists_mem_of_ne_nil _ (elementary.facts_ne_nil q.stamp)
    obtain ⟨member, about⟩ := (said f).mpr ⟨_, hm, hf⟩
    exact ⟨f, member, about, Modification.stamp_of_mem_facts hf⟩
  · rintro ⟨f, member, about, rfl⟩
    obtain ⟨p, hp, hf⟩ := (said f).mp ⟨member, about⟩
    rw [Modification.stamp_of_mem_facts hf]
    exact exists_request hp

/-- What no request satisfies is to be found among the creation and the rename. -/
theorem perm_filter_updates {p : Update → Bool}
    (modify : ∀ q : Request, p (q.update e.name e.id) = false) :
    ((ofHistory schema e parent h).updates.filter p).Perm
      (((creation? e parent h).toList ++ (rename? e parent h).toList).filter p) := by
  refine ((sortBy_perm _ _).filter _).trans (.of_eq ?_)
  have requests : (modifies e h).filter p = [] := by
    rw [modifies_eq, List.filter_eq_nil_iff, List.forall_mem_map]
    exact fun q _ => by simp [modify]
  rw [List.filter_append, List.filter_append, requests, List.append_nil, List.filter_append]

theorem filter_isCreation : (ofHistory schema e parent h).updates.filter Update.isCreation =
    (h.created.map (creationUpdate e parent)).toList := by
  have perm := perm_filter_updates schema e parent h (p := Update.isCreation) fun _ => rfl
  refine eq_toList_of_perm (perm.trans (.of_eq ?_))
  cases created : h.created <;> cases renamed : h.renamed <;> cases named : e.name.leaf? <;>
    simp [creation?, rename?, created, renamed, named, Update.isCreation, creationUpdate,
      List.filter_cons]

theorem filter_isRename : (ofHistory schema e parent h).updates.filter Update.isRename =
    (h.renamed.bind fun s => e.name.leaf?.map (renameUpdate e parent s)).toList := by
  have perm := perm_filter_updates schema e parent h (p := Update.isRename) fun _ => rfl
  refine eq_toList_of_perm (perm.trans (.of_eq ?_))
  cases created : h.created <;> cases renamed : h.renamed <;> cases named : e.name.leaf? <;>
    simp [creation?, rename?, created, renamed, named, Update.isRename, renameUpdate]

/-- Sorting keeps the creation in front of what shares its stamp. -/
theorem exists_filter_stamp_eq_cons {c : Update}
    (hc : c ∈ (ofHistory schema e parent h).updates) (creation : c.isCreation = true) :
    ∃ rest, (ofHistory schema e parent h).updates.filter (·.stamp = c.stamp) = c :: rest := by
  have member : c ∈ (h.created.map (creationUpdate e parent)).toList := by
    rw [← filter_isCreation schema e parent h]
    exact List.mem_filter.mpr ⟨hc, creation⟩
  have front : creation? e parent h = some c := Option.mem_toList.mp member
  rw [ofHistory, front, filter_sortBy]
  · rw [Option.toList_some, List.append_assoc, List.singleton_append,
      List.filter_cons_of_pos (by simp)]
    refine ⟨_, insertBy_eq_cons fun u hu => ?_⟩
    have same := (List.mem_filter.mp ((sortBy_perm _ _).mem_iff.mp hu)).2
    simp at same
    simp [same]
  · intro u v
    simpa using le_total u.stamp v.stamp
  · intro u v w
    simpa using le_trans

theorem about_of_mem_updates {u : Update} (hu : u ∈ (ofHistory schema e parent h).updates) :
    u.name = e.name ∧ u.id = e.id ∧ u.payload ≠ .delete := by
  rcases mem_updates.mp hu with ⟨s, -, rfl⟩ | ⟨q, -, rfl⟩ | ⟨s, leaf, -, -, rfl⟩
  · exact ⟨rfl, rfl, nofun⟩
  · exact ⟨rfl, rfl, nofun⟩
  · exact ⟨rfl, rfl, nofun⟩

/-- An entry whose history can be read is rebuilt by updates that say what its history says, whatever
its values are and which attributes are single-valued. -/
theorem tells_of_ofEntry {e : Entry} {h : History} (read : History.ofEntry e = .ok h)
    (schema : Schema) (parent : Option EntryId) :
    ∃ r, ofEntry schema e parent = .ok r ∧ Tells e parent h r.updates := by
  have facts := perm_facts_parts schema e parent h
  have ordered := (History.isPlain_of_ofEntry read).1
  refine ⟨ofHistory schema e parent h, by rw [ofEntry, read]; rfl, ?_⟩
  exact
    { facts
      once := facts.nodup_iff.mpr ((History.nodup_facts ordered).filter _)
      elementary := fun p hp => isElementary_of_mem_modifications
        (mem_modifications_of_mem ((perm_parts schema e parent h).mem_iff.mp hp))
      unreset := fun a unset => by
        rw [filter_isWhole_parts, unset]
        rfl
      reset := fun a s set => by
        refine ⟨resetValues (h.timeline a) s, fun v => mem_resetValues, ?_⟩
        rw [filter_isWhole_parts, set]
        rfl
      distinct := ((perm_requests schema e parent h).map _).nodup_iff.mpr (nodup_stamps_requests h)
      stamps := mem_stamps_iff schema e parent h
      created := filter_isCreation schema e parent h
      renamed := filter_isRename schema e parent h
      about := fun u => about_of_mem_updates schema e parent h
      ascending := pairwise_updates schema e parent h
      first := fun c => exists_filter_stamp_eq_cons schema e parent h }

/-- Two attributes were last reset at one stamp. One of them was given two values then and lost a
third, and a fourth was added when the entry was created. -/
theorem tells_of_ofEntry_reset :
    let mail : Attribute := ⟨"mail", []⟩
    let facts : List Fact := [.created ⟨1, 0, 1⟩, .about mail ⟨1, 0, 1⟩ .add (some [4]),
      .about mail ⟨2, 0, 1⟩ .replace (some [1]), .about mail ⟨2, 0, 1⟩ .replace (some [2]),
      .about mail ⟨2, 0, 1⟩ .delete (some [3]),
      .about ⟨"title", []⟩ ⟨2, 0, 1⟩ .deleteAttribute none, .renamed ⟨2, 0, 1⟩]
    let e := (Entry.make ⟨[⟨"cn", "x"⟩]⟩ (.uniform 7)).setHistory (facts.map Fact.encode)
    History.ofEntry e = .ok (.ofFacts facts) ∧
      ∃ r, ofEntry .standard e none = .ok r ∧ Tells e none (.ofFacts facts) r.updates ∧
        r.updates.map Update.word = ["add", "modify", "modify", "moddn"] := by
  intro mail facts e
  have read : History.ofEntry e = .ok (.ofFacts facts) := by decide +kernel
  obtain ⟨r, rebuilt, tells⟩ := tells_of_ofEntry read .standard none
  refine ⟨read, r, rebuilt, tells, ?_⟩
  rw [ofEntry, read] at rebuilt
  obtain rfl := Except.ok.inj rebuilt
  decide +kernel

end Rebuilt

end DirectoryHistory
