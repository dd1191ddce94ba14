import DirectoryHistory.Proofs.History.Decoding
import DirectoryHistory.Proofs.Sweep.Visits
import DirectoryHistory.Proofs.Tracked.Storing
import Mathlib.Algebra.GroupWithZero.Nat

/-!
# Whole passes

A pass that has all the time it takes goes through the whole store. It writes the facts of every
entry that are no older than the retention allows at the highest reading of the wall clock so far,
and leaves alone the entries that have no other facts or cannot be read.
-/

namespace DirectoryHistory

namespace Entry

variable {cutoff : Stamp} {e e' : Entry}

/-- What a purge makes of an entry. -/
structure IsPurge (cutoff : Stamp) (e e' : Entry) : Prop where
  id : e'.id = e.id
  name : e'.name = e.name
  others : ∀ a, a ≠ .history → e'.attributes.get? a = e.attributes.get? a
  untouched : e.expired cutoff = [] → e' = e
  rewritten : e.expired cutoff ≠ [] →
    e'.historyValues = (e.facts.filter (cutoff ≤ ·.stamp)).map Fact.encode

theorem nodup_map_encode_facts (e : Entry) : (e.facts.map Fact.encode).Nodup := by
  simp only [facts]
  cases read : History.ofEntry e with
  | error cause => exact .nil
  | ok h => exact History.nodup_map_encode_of_ofEntry read

theorem isPurge_purged (cutoff : Stamp) (e : Entry) : e.IsPurge cutoff (e.purged cutoff) where
  id := e.id_purged cutoff
  name := e.name_purged cutoff
  others a other := e.get?_attributes_purged cutoff other
  untouched := purged_of_expired_eq_nil
  rewritten lost := by
    have once : ((e.facts.filter (cutoff ≤ ·.stamp)).map Fact.encode).Nodup :=
      e.nodup_map_encode_facts.sublist (List.filter_sublist.map _)
    rw [purged, if_neg lost, historyValues, setHistory, replaceValues, distinct_eq_self once,
      values_setValues_self]

end Entry

namespace Store

variable {s : Store}

theorem filterMap_get?_ids (s : Store) : s.ids.filterMap s.get? = s.toList :=
  s.entries.filterMap_get?_keys

theorem get?_isSome_of_mem_ids {id : EntryId} (h : id ∈ s.ids) : (s.get? id).isSome :=
  Option.isSome_iff_exists.mpr (Table.mem_keys_iff.mp h)

theorem ids_purged (s : Store) (cutoff : Stamp) (ids : List EntryId) :
    (s.purged cutoff ids).ids = s.ids := by
  simp only [Store.ids, purged, Table.keys, Table.filterMap, Option.map_some]
  rw [List.map_filterMap]
  simp

end Store

namespace Sweep

variable {cutoff : Stamp} {store : Store}

theorem foldl_counting (cutoff : Stamp) (es : List Entry) (r : Report) :
    es.foldl (Report.counting cutoff) r =
      ⟨r.scanned + es.length, r.purgedEntries + es.countP (·.expired cutoff ≠ []),
        r.purgedFacts + (es.map fun e => (e.expired cutoff).length).sum,
        r.skipped ++ es.filterMap fun e => e.unreadable?.map (e.id, ·), r.resumeAfter⟩ := by
  induction es generalizing r with
  | nil => simp
  | cons e rest ih =>
    rw [List.foldl_cons, ih]
    cases lost : e.expired cutoff <;> cases unread : e.unreadable? <;>
      simp [Report.counting, lost, unread, Nat.add_assoc, Nat.add_comm 1]

def unreadable (store : Store) : List (EntryId × Cause) :=
  store.toList.filterMap fun e => e.unreadable?.map (e.id, ·)

theorem mem_unreadable_iff (indexed : store.IsIndexed) {id : EntryId} {cause : Cause} :
    (id, cause) ∈ unreadable store ↔ ∃ e flaw, store.get? id = some e ∧
      History.ofEntry e = .error flaw ∧ cause = .history flaw := by
  have reason : ∀ e : Entry, e.unreadable? = some cause ↔
      ∃ flaw, History.ofEntry e = .error flaw ∧ cause = .history flaw := by
    intro e
    simp only [Entry.unreadable?]
    cases History.ofEntry e <;> simp [eq_comm]
  simp only [unreadable, List.mem_filterMap, Option.map_eq_some_iff, Prod.mk.injEq,
    exists_and_left]
  constructor
  · rintro ⟨e, he, _, hc, rfl, rfl⟩
    exact ⟨e, indexed.mem_toList_iff.mp he, (reason e).mp hc⟩
  · rintro ⟨e, he, hc⟩
    obtain rfl := indexed.keyed id e he
    exact ⟨e, indexed.mem_toList_iff.mpr he, cause, (reason e).mpr hc, rfl, rfl⟩

theorem nodup_unreadable (indexed : store.IsIndexed) : ((unreadable store).map (·.1)).Nodup := by
  have apart : store.toList.Pairwise fun e f => e.id ≠ f.id := by
    rw [← List.pairwise_map (f := Entry.id), indexed.map_id_toList]
    exact store.entries.nodup_keys
  refine List.pairwise_map.mpr (List.pairwise_filterMap.mpr (apart.imp fun {e f} other => ?_))
  intro p hp q hq same
  obtain ⟨_, _, rfl⟩ := Option.map_eq_some_iff.mp hp
  obtain ⟨_, _, rfl⟩ := Option.map_eq_some_iff.mp hq
  exact other same

/-- What a pass through the whole store makes of it and reports. -/
structure PurgesAll (cutoff : Stamp) (store store' : Store) (r : Report) : Prop where
  ids : store'.ids = store.ids
  names : store'.names = store.names
  entries : ∀ id e, store.get? id = some e → ∃ e', store'.get? id = some e' ∧ e.IsPurge cutoff e'
  skipped : ∀ id cause, (id, cause) ∈ r.skipped ↔ ∃ e flaw, store.get? id = some e ∧
    History.ofEntry e = .error flaw ∧ cause = .history flaw
  once : (r.skipped.map (·.1)).Nodup
  scanned : r.scanned = store.size
  purgedEntries : r.purgedEntries = store.toList.countP (·.expired cutoff ≠ [])
  purgedFacts : r.purgedFacts = (store.toList.map fun e => (e.expired cutoff).length).sum
  complete : r.isComplete = true

theorem filter_isBehind_none (ids : List EntryId) : ids.filter (isBehind none) = ids :=
  List.filter_eq_self.mpr fun _ _ => rfl

theorem stop_self (ids : List EntryId) : stop ids ids = none :=
  if_pos rfl

/-- A pass from the start that has all the time it takes. -/
theorem pass_eq_of_unbounded (now : UInt64) {outOfTime : Nat → Bool}
    (unbounded : ∀ n, outOfTime n = false) {s : Sweep} (fresh : s.cursor = none)
    (indexed : store.IsIndexed) : pass now outOfTime s store =
      let latest := max s.latest now
      let cutoff := History.horizon latest s.delay
      let r := store.toList.foldl (Report.counting cutoff) .empty
      (r, ⟨s.delay, latest, none, s.purged + r.purgedFacts, s.passes + 1⟩,
        store.purged cutoff store.ids) := by
  have visits : ∀ cutoff, visitEach cutoff store.ids .empty store =
      ((store.ids.filterMap store.get?).foldl (Report.counting cutoff) .empty,
        store.purged cutoff store.ids) := fun cutoff =>
    visitEach_eq indexed (fun id => Store.get?_isSome_of_mem_ids) store.entries.nodup_keys .empty
  simp only [pass_eq, fresh, filter_isBehind_none, visited_of_unbounded unbounded, stop_self,
    visits, Store.filterMap_get?_ids, foldl_counting]
  rfl

theorem purgesAll_purged (cutoff : Stamp) (indexed : store.IsIndexed) :
    PurgesAll cutoff store (store.purged cutoff store.ids)
      (store.toList.foldl (Report.counting cutoff) .empty) := by
  have skipped : (store.toList.foldl (Report.counting cutoff) .empty).skipped =
      unreadable store := by
    rw [foldl_counting]
    rfl
  constructor
  case ids => exact store.ids_purged cutoff store.ids
  case names => exact store.names_purged cutoff store.ids
  case entries =>
    intro id e he
    have listed : id ∈ store.ids := Table.mem_keys_iff.mpr ⟨e, he⟩
    exact ⟨e.purged cutoff, by rw [Store.get?_purged, he]; simp [listed], e.isPurge_purged cutoff⟩
  case skipped =>
    intro id cause
    rw [skipped, mem_unreadable_iff indexed]
  case once =>
    rw [skipped]
    exact nodup_unreadable indexed
  case scanned => simp [foldl_counting, Report.empty, Store.size, Store.toList, Table.size,
    Table.values]
  case purgedEntries => simp [foldl_counting, Report.empty]
  case purgedFacts => simp [foldl_counting, Report.empty]
  case complete => simp [foldl_counting, Report.empty, Report.isComplete]

/-- When a pass is made, when it is out of time and over which store it goes. -/
structure Occasion where
  now : UInt64
  outOfTime : Nat → Bool
  store : Store

/-- The report, the sweep and the store after the pass. -/
def passOn (s : Sweep) (o : Occasion) : Report × Sweep × Store :=
  pass o.now o.outOfTime s o.store

/-- The reports of passes one after the other and the sweep after them. The store may have changed
in any way from one pass to the next. -/
def passAll (s : Sweep) : List Occasion → List Report × Sweep
  | [] => ([], s)
  | o :: rest =>
    let (r, s, _) := s.passOn o
    let (rs, s) := passAll s rest
    (r :: rs, s)

variable {os : List Occasion}

theorem delay_passAll (s : Sweep) (os : List Occasion) : (passAll s os).2.delay = s.delay := by
  induction os generalizing s with
  | nil => rfl
  | cons o rest ih => exact ih _

theorem latest_passAll (s : Sweep) (os : List Occasion) :
    (passAll s os).2.latest = (os.map (·.now)).foldl max s.latest := by
  induction os generalizing s with
  | nil => rfl
  | cons o rest ih => exact ih _

theorem purged_passAll (s : Sweep) (os : List Occasion) :
    (passAll s os).2.purged = s.purged + ((passAll s os).1.map (·.purgedFacts)).sum := by
  induction os generalizing s with
  | nil => rfl
  | cons o rest ih =>
    simp only [passAll, List.map_cons, List.sum_cons]
    rw [ih, ← Nat.add_assoc]
    rfl

theorem cursor_passAll {s : Sweep} (fresh : s.cursor = none)
    (unbounded : ∀ o ∈ os, ∀ n, o.outOfTime n = false) : (passAll s os).2.cursor = none := by
  induction os generalizing s with
  | nil => exact fresh
  | cons o rest ih =>
    have fresh' : (s.passOn o).2.1.cursor = none := by
      simp only [passOn, pass_eq, visited_of_unbounded (unbounded o (.head _)), stop_self]
    exact ih fresh' fun o' ho => unbounded o' (.tail _ ho)

/-- A pass that has all the time it takes purges the whole store at the highest reading so far, and
the sweep counts the facts that all its passes purged. -/
theorem purgesAll_pass (delay : Nat) {earlier : List Occasion} (now : UInt64) {store : Store}
    (unbounded : ∀ o ∈ earlier, ∀ n, o.outOfTime n = false) (indexed : store.IsIndexed) :
    let (reports, s) := passAll (start delay) earlier
    let (r, s', store') := pass now (fun _ => false) s store
    let highest := (earlier.map (·.now) ++ [now]).foldl max 0
    PurgesAll (.floorAt (UInt64.ofNat (highest.toNat - delay))) store store' r ∧
      s'.purged = ((reports ++ [r]).map (·.purgedFacts)).sum ∧ s'.cursor = none := by
  have fresh : (passAll (start delay) earlier).2.cursor = none := cursor_passAll rfl unbounded
  have highest : max (passAll (start delay) earlier).2.latest now =
      (earlier.map (·.now) ++ [now]).foldl max 0 := by
    rw [latest_passAll, List.foldl_append]
    rfl
  have total := purged_passAll (start delay) earlier
  have result := pass_eq_of_unbounded now (fun _ => rfl) fresh indexed
  rw [highest, delay_passAll] at result
  simp only [result]
  refine ⟨purgesAll_purged _ indexed, ?_, trivial⟩
  rw [total, List.map_append, List.sum_append]
  simp [start]

/-- The clock goes back from 10000 to 7000, and what is older than 9000 is purged all the same. -/
theorem purgesAll_pass_behind :
    let entry (name : String) (b : UInt8) (history : List Octets) : Entry :=
      (Entry.make ⟨[⟨"cn", name⟩]⟩ (.uniform b)).setHistory history
    let created := Fact.encode (.created ⟨100, 0, 1⟩)
    let entries : List Entry := [entry "old" 1 [created, Fact.encode (.renamed ⟨200, 0, 1⟩)],
      entry "mixed" 2 [created, Fact.encode (.renamed ⟨9500, 0, 1⟩)],
      entry "corrupt" 3 [created, Octets.ofText "junk"], entry "plain" 4 []]
    let s := (passAll (start 1000) [⟨10000, fun _ => false, .empty⟩]).2
    ∃ store, Store.ofEntries entries = .ok store ∧
      let (r, s', store') := pass 7000 (fun _ => false) s store
      PurgesAll (.floorAt 9000) store store' r ∧ s'.purged = 3 ∧
        r = ⟨4, 2, 3, [(.uniform 3, .history ⟨Octets.ofText "junk", .noStamp⟩)], none⟩ := by
  intro entry created entries s
  have report : (Store.ofEntries entries).map (fun store =>
      let (r, s', _) := pass 7000 (fun _ => false) s store
      (s'.purged, r)) =
      .ok (3, ⟨4, 2, 3, [(.uniform 3, .history ⟨Octets.ofText "junk", .noStamp⟩)], none⟩) := by
    decide +kernel
  cases built : Store.ofEntries entries with
  | error cause => simp [built, Except.map] at report
  | ok store =>
    rw [built, Except.map, Except.ok.injEq, Prod.mk.injEq] at report
    have unbounded : ∀ o ∈ [(⟨10000, fun _ => false, .empty⟩ : Occasion)], ∀ n,
        o.outOfTime n = false := by simp
    have purges := purgesAll_pass 1000 7000 unbounded (Store.isIndexed_ofEntries built)
    exact ⟨store, rfl, purges.1, report.1, report.2⟩

end Sweep

end DirectoryHistory
