import DirectoryHistory.Proofs.History.Purging
import DirectoryHistory.Proofs.Store.Index
import DirectoryHistory.Sweep

/-!
# Visits of a sweep

A visit purges the entry it comes to, counts what it did and leaves the rest of the store alone. A
pass visits entries one after the other, each of them once, so that what it leaves and reports is
told entry by entry.
-/

namespace DirectoryHistory

namespace Entry

variable {cutoff : Stamp} {e : Entry}

def facts (e : Entry) : List Fact :=
  match History.ofEntry e with
  | .ok h => h.facts
  | .error _ => []

def expired (cutoff : Stamp) (e : Entry) : List Fact :=
  e.facts.filter (·.stamp < cutoff)

/-- The entry with the facts of its history that are no older than `cutoff`, if it has others. -/
def purged (cutoff : Stamp) (e : Entry) : Entry :=
  if e.expired cutoff = [] then e
  else e.setHistory ((e.facts.filter (cutoff ≤ ·.stamp)).map Fact.encode)

def unreadable? (e : Entry) : Option Sweep.Cause :=
  match History.ofEntry e with
  | .ok _ => none
  | .error cause => some (.history cause)

@[simp] theorem id_purged (cutoff : Stamp) (e : Entry) : (e.purged cutoff).id = e.id := by
  simp only [purged]
  split <;> rfl

@[simp] theorem name_purged (cutoff : Stamp) (e : Entry) : (e.purged cutoff).name = e.name := by
  simp only [purged]
  split <;> rfl

theorem get?_attributes_setValues_of_ne (e : Entry) {a b : Attribute} (h : b ≠ a)
    (vs : List Octets) : (e.setValues a vs).attributes.get? b = e.attributes.get? b := by
  simp only [setValues]
  split
  · exact Table.get?_erase_of_ne _ h
  · exact Table.get?_insert_of_ne _ h _

theorem get?_attributes_purged (cutoff : Stamp) (e : Entry) {a : Attribute} (h : a ≠ .history) :
    (e.purged cutoff).attributes.get? a = e.attributes.get? a := by
  simp only [purged]
  split
  · rfl
  · exact e.get?_attributes_setValues_of_ne h _

theorem purged_of_expired_eq_nil (h : e.expired cutoff = []) : e.purged cutoff = e :=
  if_pos h

end Entry

namespace Store

variable {s s' : Store} {cutoff : Stamp} {e f : Entry} {id : EntryId} {ids : List EntryId}

theorem ext_get? (names : s.names = s'.names) (stored : ∀ id, s.get? id = s'.get? id) : s = s' := by
  obtain ⟨entries, names⟩ := s
  obtain ⟨entries', names'⟩ := s'
  obtain rfl : entries = entries' := Table.ext_get? stored
  obtain rfl := names
  rfl

/-- The store with the entries `ids` purged. -/
def purged (s : Store) (cutoff : Stamp) (ids : List EntryId) : Store where
  entries := s.entries.filterMap fun id e => some (if id ∈ ids then e.purged cutoff else e)
  names := s.names

@[simp] theorem names_purged (s : Store) (cutoff : Stamp) (ids : List EntryId) :
    (s.purged cutoff ids).names = s.names := rfl

theorem get?_purged (s : Store) (cutoff : Stamp) (ids : List EntryId) (id : EntryId) :
    (s.purged cutoff ids).get? id =
      (s.get? id).map fun e => if id ∈ ids then e.purged cutoff else e := by
  simp only [get?, purged, Table.get?_filterMap]
  cases s.entries.get? id <;> rfl

theorem IsIndexed.purged (h : s.IsIndexed) (cutoff : Stamp) (ids : List EntryId) :
    (s.purged cutoff ids).IsIndexed := by
  have found : ∀ id f, (s.purged cutoff ids).get? id = some f →
      ∃ e, s.get? id = some e ∧ f.id = e.id ∧ f.name = e.name := by
    intro id f hf
    rw [get?_purged] at hf
    obtain ⟨e, he, rfl⟩ := Option.map_eq_some_iff.mp hf
    refine ⟨e, he, ?_⟩
    split <;> simp
  constructor
  · intro id f hf
    obtain ⟨e, he, same, -⟩ := found id f hf
    rw [same, h.keyed id e he]
  · intro id f hf
    obtain ⟨e, he, -, same⟩ := found id f hf
    rw [same]
    exact h.listed id e he
  · intro k id hk
    obtain ⟨e, he, named⟩ := h.stored k id hk
    refine ⟨if id ∈ ids then e.purged cutoff else e, by rw [get?_purged, he]; rfl, ?_⟩
    split <;> simpa using named

theorem purged_purged (s : Store) (cutoff : Stamp) (h : id ∉ ids) :
    (s.purged cutoff [id]).purged cutoff ids = s.purged cutoff (id :: ids) := by
  refine ext_get? rfl fun id' => ?_
  rw [get?_purged, get?_purged, get?_purged, Option.map_map]
  congr 1
  funext e
  by_cases same : id' = id
  · subst same
    simp [h]
  · simp [same]

/-- An entry that keeps its name is written back without touching the index. -/
theorem IsIndexed.put_of_name_eq (h : s.IsIndexed) (stored : s.get? id = some e)
    (key : f.id = id) (name : f.name = e.name) :
    s.put f = .ok { s with entries := s.entries.insert id f } := by
  have listed : s.names.get? f.name.folded = some f.id := by
    rw [name, key]
    exact h.listed id e stored
  have released : s.releaseName f = s.names := by
    have found : s.entries.get? f.id = some e := by
      rw [key]
      exact stored
    simp [releaseName, found, DistinguishedName.same_iff, name]
  have index : s.names.insert f.name.folded f.id = s.names := by
    refine Table.ext_get? fun k => ?_
    by_cases hk : k = f.name.folded
    · subst hk
      rw [Table.get?_insert_self, listed]
    · rw [Table.get?_insert_of_ne _ hk]
  rw [Store.put, if_neg (by simp [listed]), released, index, key]

end Store

namespace Sweep

variable {store : Store} {cutoff : Stamp} {e : Entry} {id : EntryId} {ids : List EntryId}
variable {r : Report}

theorem get?_purged_singleton (stored : store.get? id = some e) (cutoff : Stamp) (id' : EntryId) :
    (store.purged cutoff [id]).get? id' =
      if id' = id then some (e.purged cutoff) else store.get? id' := by
  rw [Store.get?_purged]
  by_cases same : id' = id
  · simp [same, stored]
  · simp [same]

theorem purged_singleton_eq_self (stored : store.get? id = some e) (calm : e.expired cutoff = []) :
    store.purged cutoff [id] = store := by
  refine Store.ext_get? rfl fun id' => ?_
  rw [get?_purged_singleton stored, Entry.purged_of_expired_eq_nil calm]
  split
  · next at_id => rw [at_id, stored]
  · rfl

theorem purged_singleton_eq_insert (stored : store.get? id = some e) (cutoff : Stamp) :
    store.purged cutoff [id] =
      { store with entries := store.entries.insert id (e.purged cutoff) } := by
  refine Store.ext_get? rfl fun id' => ?_
  rw [get?_purged_singleton stored]
  split
  · next at_id => exact at_id ▸ (Table.get?_insert_self _ _ _).symm
  · next other => exact (Table.get?_insert_of_ne _ other _).symm

/-- What is done about a stored entry: nothing if its history cannot be read, and otherwise it is
purged. -/
theorem purgeEntry_eq (indexed : store.IsIndexed) (stored : store.get? id = some e) :
    purgeEntry store cutoff id =
      match History.ofEntry e with
      | .error cause => .error (.history cause)
      | .ok _ => .ok (store.purged cutoff [id], (e.expired cutoff).length) := by
  simp only [purgeEntry, stored]
  cases read : History.ofEntry e with
  | error cause => rfl
  | ok h =>
    have facts : e.facts = h.facts := by simp only [Entry.facts, read]
    have count : h.purgeCount cutoff = (e.expired cutoff).length := by
      rw [History.purgeCount_eq, Entry.expired, facts, List.countP_eq_length_filter]
    simp only [count, List.length_eq_zero_iff]
    split
    · next calm =>
      rw [purged_singleton_eq_self stored calm, calm]
      rfl
    · next lost =>
      have written : e.setHistory (h.purge cutoff).encode = e.purged cutoff := by
        rw [Entry.purged, if_neg lost, facts, History.encode, History.facts_purge]
      have put := indexed.put_of_name_eq stored (f := e.purged cutoff)
        (by rw [Entry.id_purged, indexed.keyed id e stored]) (Entry.name_purged cutoff e)
      rw [written, put, purged_singleton_eq_insert stored]

/-- The report after one more entry. -/
def Report.counting (cutoff : Stamp) (r : Report) (e : Entry) : Report where
  scanned := r.scanned + 1
  purgedEntries := r.purgedEntries + if e.expired cutoff = [] then 0 else 1
  purgedFacts := r.purgedFacts + (e.expired cutoff).length
  skipped := r.skipped ++ (e.unreadable?.map (e.id, ·)).toList
  resumeAfter := r.resumeAfter

theorem visit_eq (indexed : store.IsIndexed) (stored : store.get? id = some e) (r : Report) :
    visit cutoff id r store = (r.counting cutoff e, store.purged cutoff [id]) := by
  have key := indexed.keyed id e stored
  simp only [visit, purgeEntry_eq indexed stored]
  cases read : History.ofEntry e with
  | error cause =>
    have calm : e.expired cutoff = [] := by simp [Entry.expired, Entry.facts, read]
    have same := purged_singleton_eq_self stored calm
    simp [Report.counting, Entry.unreadable?, read, calm, same, key]
  | ok h =>
    cases lost : e.expired cutoff with
    | nil => simp [Report.counting, Entry.unreadable?, read, lost]
    | cons f rest => simp [Report.counting, Entry.unreadable?, read, lost]

/-- Visits of several entries, none of them left out. -/
def visitEach (cutoff : Stamp) (ids : List EntryId) (r : Report) (store : Store) :
    Report × Store :=
  ids.foldl (fun p id => visit cutoff id p.1 p.2) (r, store)

theorem visitEach_eq (indexed : store.IsIndexed) (stored : ∀ id ∈ ids, (store.get? id).isSome)
    (distinct : ids.Nodup) (r : Report) : visitEach cutoff ids r store =
      ((ids.filterMap store.get?).foldl (Report.counting cutoff) r, store.purged cutoff ids) := by
  induction ids generalizing r store with
  | nil =>
    have same : store.purged cutoff [] = store := by
      refine Store.ext_get? rfl fun id => ?_
      simp [Store.get?_purged]
    rw [same]
    rfl
  | cons id rest ih =>
    obtain ⟨absent, distinct⟩ := List.nodup_cons.mp distinct
    obtain ⟨e, he⟩ := Option.isSome_iff_exists.mp (stored id (.head _))
    have others : ∀ id' ∈ rest, (store.purged cutoff [id]).get? id' = store.get? id' := by
      intro id' hid
      rw [get?_purged_singleton he, if_neg]
      rintro rfl
      exact absent hid
    have kept : ∀ id' ∈ rest, ((store.purged cutoff [id]).get? id').isSome := fun id' hid => by
      rw [others id' hid]
      exact stored id' (.tail _ hid)
    have first : visitEach cutoff (id :: rest) r store =
        visitEach cutoff rest (r.counting cutoff e) (store.purged cutoff [id]) := by
      rw [visitEach, List.foldl_cons, visit_eq indexed he]
      rfl
    rw [first, ih (indexed.purged cutoff [id]) kept distinct, Store.purged_purged _ _ absent,
      List.filterMap_congr others, List.filterMap_cons_some he, List.foldl_cons]

/-- The identifiers that a pass comes to when it visited `scanned` entries before. -/
def visited (outOfTime : Nat → Bool) : Nat → List EntryId → List EntryId
  | _, [] => []
  | _, [id] => [id]
  | scanned, id :: next :: rest =>
    id :: if outOfTime (scanned + 1) then [] else visited outOfTime (scanned + 1) (next :: rest)

variable {outOfTime : Nat → Bool} {scanned : Nat}

theorem visited_ne_nil (due : ids ≠ []) : visited outOfTime scanned ids ≠ [] := by
  match ids with
  | [] => exact absurd rfl due
  | [id] => simp [visited]
  | id :: next :: rest => simp [visited]

theorem isPrefix_visited (outOfTime : Nat → Bool) (scanned : Nat) (ids : List EntryId) :
    visited outOfTime scanned ids <+: ids := by
  induction ids generalizing scanned with
  | nil => exact List.prefix_rfl
  | cons id rest ih =>
    cases rest with
    | nil => exact List.prefix_rfl
    | cons next rest =>
      rw [visited]
      split
      · exact (List.prefix_cons_inj id).mpr List.nil_prefix
      · exact (List.prefix_cons_inj id).mpr (ih (scanned + 1))

theorem visited_of_unbounded (unbounded : ∀ n, outOfTime n = false) (scanned : Nat)
    (ids : List EntryId) : visited outOfTime scanned ids = ids := by
  induction ids generalizing scanned with
  | nil => rfl
  | cons id rest ih =>
    cases rest with
    | nil => rfl
    | cons next rest => rw [visited, unbounded, if_neg Bool.false_ne_true, ih]

theorem scanned_visit (cutoff : Stamp) (id : EntryId) (r : Report) (store : Store) :
    (visit cutoff id r store).1.scanned = r.scanned + 1 := by
  simp only [visit]
  split <;> rfl

theorem resumeAfter_visit (cutoff : Stamp) (id : EntryId) (r : Report) (store : Store) :
    (visit cutoff id r store).1.resumeAfter = r.resumeAfter := by
  simp only [visit]
  split <;> rfl

/-- Where a pass over `ids` stops that comes to `seen`. -/
def stop (seen ids : List EntryId) : Option EntryId :=
  if seen = ids then none else seen.getLast?

theorem visitAll_eq (cutoff : Stamp) (outOfTime : Nat → Bool) (ids : List EntryId) (store : Store)
    (fresh : r.resumeAfter = none) : visitAll cutoff outOfTime ids r store =
      let seen := visited outOfTime r.scanned ids
      let p := visitEach cutoff seen r store
      ({ p.1 with resumeAfter := stop seen ids }, p.2) := by
  induction ids generalizing r store with
  | nil => simp [visitAll, visited, visitEach, stop, ← fresh]
  | cons id rest ih =>
    have fresh' := (resumeAfter_visit cutoff id r store).trans fresh
    cases rest with
    | nil => simp [visitAll, visited, visitEach, stop, ← fresh']
    | cons next rest =>
      have further := ih (visit cutoff id r store).2 fresh'
      rw [scanned_visit] at further
      simp only [visitAll, scanned_visit, visited]
      cases stopped : outOfTime (r.scanned + 1) with
      | true => simp [visitEach, stop, scanned_visit]
      | false =>
        have more : visited outOfTime (r.scanned + 1) (next :: rest) ≠ [] :=
          visited_ne_nil (List.cons_ne_nil _ _)
        have last := List.getLast?_cons_of_ne_nil (x := id) more
        simpa [visitEach, stop, last] using further

/-- A pass visits what is behind the cursor, one entry after the other, until it is out of time. -/
theorem pass_eq (now : UInt64) (outOfTime : Nat → Bool) (s : Sweep) (store : Store) :
    pass now outOfTime s store =
      let due := store.ids.filter (isBehind s.cursor)
      let seen := visited outOfTime 0 due
      let latest := max s.latest now
      let p := visitEach (History.horizon latest s.delay) seen .empty store
      ({ p.1 with resumeAfter := stop seen due },
        ⟨s.delay, latest, stop seen due, s.purged + p.1.purgedFacts, s.passes + 1⟩, p.2) := by
  rw [pass, visitAll_eq _ _ _ _ rfl]
  rfl

end Sweep

end DirectoryHistory
