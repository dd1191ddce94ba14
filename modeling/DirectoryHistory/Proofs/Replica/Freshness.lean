import DirectoryHistory.Proofs.History.Bounds
import DirectoryHistory.Proofs.Replica.Course
import DirectoryHistory.Proofs.Replica.Deletion
import DirectoryHistory.Proofs.Replica.Sending
import DirectoryHistory.Proofs.Slot.Newest

/-!
# Stamps of clients are fresh

A replica writes no stamp into a history that its clock has not issued or witnessed. So the stamp of
an operation of a client is newer than all that is stored, whatever the replica has been through: its
resets become the last ones, and its renames are recorded.
-/

namespace DirectoryHistory

namespace History

variable {h : History} {now : UInt64} {retention : Option Nat} {s : Stamp}

theorem renamed_expire_iff (renamed : h.renamed = some s) :
    (h.expire now retention).renamed = some s ↔ ∀ delay ∈ retention, horizon now delay ≤ s := by
  cases retention <;> simp [expire, purge, renamed]

theorem created_expire_iff (created : h.created = some s) :
    (h.expire now retention).created = some s ↔ ∀ delay ∈ retention, horizon now delay ≤ s := by
  cases retention <;> simp [expire, purge, created]

theorem lastReset_expire_iff {a : Attribute} (reset : (h.timeline a).lastReset = some s) :
    ((h.expire now retention).timeline a).lastReset = some s ↔
      ∀ delay ∈ retention, horizon now delay ≤ s := by
  cases retention <;> simp [expire, timeline_purge, Timeline.purge, reset]

end History

/-- Whether the modification replaces or deletes the attribute as a whole. -/
def Modification.isReset (m : Modification) : Bool :=
  m.changes.any Change.resets

/-- What the history of an entry says when the change has just been made to it. -/
def Update.IsLatestIn (u : Update) (h : History) : Prop :=
  match u.payload with
  | .add .. => h.created = some u.stamp
  | .modify mods => ∀ m ∈ mods, m.isReset = true → (h.timeline m.attr).lastReset = some u.stamp
  | .rename .. => h.renamed = some u.stamp
  | .delete => False

/-- Whether the update leaves its stamp in the history of the entry: as that of the creation, of the
last reset of an attribute or of the rename. -/
def Update.isRecorded (u : Update) : Bool :=
  match u.payload with
  | .add .. | .rename .. => true
  | .modify mods => mods.any Modification.isReset
  | .delete => false

namespace Update

variable {u : Update} {g h : History}

theorem IsLatestIn.of_agrees (latest : u.IsLatestIn h) (agrees : g.Agrees h) : u.IsLatestIn g := by
  simp only [IsLatestIn] at latest ⊢
  simpa only [agrees.created, agrees.renamed, agrees.timelines] using latest

/-- What has just been written is dropped again only if it is past the retention by now. -/
theorem IsLatestIn.expire_iff {now : UInt64} {retention : Option Nat} (latest : u.IsLatestIn h) :
    u.IsLatestIn (h.expire now retention) ↔
      (u.isRecorded = true → ∀ delay ∈ retention, History.horizon now delay ≤ u.stamp) := by
  cases payload : u.payload with
  | add parent attributes =>
    simp only [IsLatestIn, isRecorded, payload, forall_const] at latest ⊢
    exact History.created_expire_iff latest
  | modify mods =>
    simp only [IsLatestIn, isRecorded, payload, List.any_eq_true] at latest ⊢
    constructor
    · rintro kept ⟨m, hm, resets⟩
      exact (History.lastReset_expire_iff (latest m hm resets)).mp (kept m hm resets)
    · intro recent m hm resets
      exact (History.lastReset_expire_iff (latest m hm resets)).mpr (recent ⟨m, hm, resets⟩)
  | rename leaf deleteOld superior superiorId =>
    simp only [IsLatestIn, isRecorded, payload, forall_const] at latest ⊢
    exact History.renamed_expire_iff latest
  | delete =>
    simp only [IsLatestIn, payload] at latest

end Update

namespace Replica

/-- The clock has issued or witnessed all stamps in the stored histories. -/
def IsCovered (r : Replica) : Prop :=
  ∀ id e, r.store.get? id = some e → ∃ h : History, e.Carries h ∧ h.Within r.clock.Covers

variable {r r' : Replica} {now : Readings} {op : Operation} {t : Tracked} {e : Entry} {h : History}
variable {id : EntryId} {u : Update}

theorem IsCovered.isReadable (covered : r.IsCovered) : r.IsReadable := fun id e stored => by
  obtain ⟨h, carries, -⟩ := covered id e stored
  exact ⟨h, carries⟩

theorem IsCovered.within (covered : r.IsCovered) (stored : r.store.get? id = some e)
    (read : History.ofEntry e = .ok h) : h.IsOrdered ∧ h.Within r.clock.Covers := by
  obtain ⟨g, carries, within⟩ := covered id e stored
  obtain ⟨g', read', agrees⟩ := carries.read
  obtain rfl : g' = h := Except.ok.inj (read'.symm.trans read)
  exact ⟨agrees.isOrdered carries.ordered, within.of_agrees agrees⟩

/-- An operation writes stamps that were stored, and its own. -/
theorem Writes.within (writes : Writes r now op t) (covered : r.IsCovered)
    (going : ¬r.clock.IsExhausted) : t.history.Within (r.clockAt now op).Covers := by
  have kept := (advances_clockAt going now op).covers
  have taken : ∀ {e : Entry} {t t' : Tracked} {mods : List Modification} {stamp : Stamp}
      {abandon : Nat → Bool} {ending : Ending} {tally : Tally} {id : EntryId},
      r.store.get? id = some e → Tracked.ofEntry e = .ok t →
      t.applyRequest r.schema mods stamp abandon = .ok (ending, tally, t') →
      (r.clockAt now op).Covers stamp → t'.history.Within (r.clockAt now op).Covers := by
    intro e t t' mods stamp abandon ending tally id stored read applied own
    obtain ⟨-, n, rfl⟩ := Tracked.exists_take_of_applyRequest applied
    obtain ⟨g, read', rfl⟩ : ∃ g, History.ofEntry e = .ok g ∧ t = ⟨e, g⟩ := by
      cases read' : History.ofEntry e <;> simp [Tracked.ofEntry, read', Except.map] at read
      exact ⟨_, rfl, read.symm⟩
    obtain ⟨ordered, within⟩ := covered.within stored read'
    exact Tracked.within_foldl_step (within.mono kept) ordered own r.schema _
  cases writes with
  | add ticked => exact History.within_ofCreation (ticked ▸ Clock.covers_stamp _)
  | modify found applied =>
    obtain ⟨e, found, read⟩ := of_findTracked_eq_ok found
    obtain ⟨id, stored⟩ := of_find_eq_ok found
    exact taken stored read applied (Clock.covers_stamp _)
  | rename found named read =>
    obtain ⟨id, stored⟩ := of_find_eq_ok found
    exact ((covered.within stored read).2.mono kept).rename (Clock.covers_stamp _)
  | replayAdd payload named => exact History.within_ofCreation (Clock.covers_witness _ _)
  | replayModify payload stored read applied =>
    exact taken stored read applied (Clock.covers_witness _ _)
  | replayRename payload stored read named =>
    exact ((covered.within stored read).2.mono kept).rename (Clock.covers_witness _ _)

theorem isCovered_of_empty (empty : r.store = .empty) : r.IsCovered := fun id e stored => by
  rw [empty] at stored
  cases stored

/-- Every operation leaves the stored stamps covered, as the clock does not move back. -/
theorem IsCovered.perform (covered : r.IsCovered) (going : ¬r.clock.IsExhausted) (now : Readings)
    (plain : ∀ a ∈ op.modified, a.IsPlain) : (r.perform now op).IsCovered := by
  have advances := advances_perform going now op
  have keep : ∀ {id e}, r.store.get? id = some e →
      ∃ h : History, e.Carries h ∧ h.Within (r.perform now op).clock.Covers := by
    intro id e stored
    obtain ⟨h, carries, within⟩ := covered id e stored
    exact ⟨h, carries, within.mono advances.covers⟩
  intro id e stored
  cases r.answered_perform now op with
  | declined declines only moved =>
    rw [only] at stored
    exact keep stored
  | removed done id' only =>
    rw [only, Store.get?_remove] at stored
    split at stored
    · cases stored
    · exact keep stored
  | wrote done t writes put only =>
    rw [Store.get?_put put] at stored
    split at stored
    · obtain rfl := Option.some.inj stored
      obtain ⟨ordered, readable⟩ := writes.wellFormed covered.isReadable plain
      refine ⟨_, Tracked.carries_store ordered readable now.storing r.retention, ?_⟩
      rw [only]
      exact (writes.within covered going).expire ordered now.storing r.retention
    · exact keep stored

theorem IsCovered.performAll {run : List (Readings × Operation)} (covered : r.IsCovered)
    (plain : ∀ p ∈ run, ∀ a ∈ p.2.modified, a.IsPlain)
    (going : ∀ before, before <+: run → ¬(r.performAll before).clock.IsExhausted) :
    (r.performAll run).IsCovered := by
  induction run using List.reverseRecOn with
  | nil => exact covered
  | append_singleton run p ih =>
    rw [performAll_snoc]
    have before := ih (fun q hq => plain q (List.mem_append_left _ hq))
      fun l hl => going l (hl.trans (List.prefix_append _ _))
    exact before.perform (going run (List.prefix_append _ _)) p.1 (plain p (by simp))

theorem IsCovered.isOlder (covered : r.IsCovered) (going : ¬r.clock.IsExhausted) (now : Readings)
    (stored : r.store.get? id = some e) (read : History.ofEntry e = .ok h) :
    h.Within (· < (r.clock.tick now.issuing).stamp) :=
  (covered.within stored read).2.mono fun _ hs => hs.lt_stamp_tick going now.issuing

/-- A request of a client that resets an attribute leaves its stamp as that of the last reset. -/
theorem isLatestIn_afterRequest {schema : Schema} {name : DistinguishedName} {q : Request}
    (older : t.history.Within (· < q.stamp)) :
    (q.update name id).IsLatestIn (t.afterRequest schema q).history := by
  intro m hm resets
  have timeline : (t.afterRequest schema q).history.timeline m.attr =
      (t.history.timeline m.attr).mergeEdit (q.edit m.attr) :=
    Tracked.timeline_foldl_afterRequest (by simpa using older.created : ∀ r ∈ [q], _) m.attr
  have among : (q.edit m.attr).resets = true := by
    have mine : m ∈ q.modifications.filter (·.attr = m.attr) := by simpa using hm
    rw [Edit.resets, Request.changes_edit, List.any_flatMap]
    exact List.any_eq_true.mpr ⟨m, mine, resets⟩
  have bounds := older.timelines m.attr
  have older' : (t.history.timeline m.attr).IsOlder (q.edit m.attr).stamp :=
    ⟨bounds.marks, bounds.reset⟩
  exact (congrArg Timeline.lastReset timeline).trans
    ((Timeline.lastReset_mergeEdit older').trans (if_pos among))

/-- The operation hands on `t` to be stored. In its history the operation is the latest, and so it is in
what is read back of the stored entry, unless its stamp is past the retention by then. -/
structure HandsOn (r : Replica) (now : Readings) (op : Operation) (u : Update) (r' : Replica)
    (t : Tracked) : Prop where
  writes : Writes r now op t
  latest : u.IsLatestIn t.history
  stored : r'.store.get? u.id = some (t.store now.storing r.retention)
  read : ∃ g, History.ofEntry (t.store now.storing r.retention) = .ok g ∧
    g.Agrees (t.history.expire now.storing r.retention) ∧ (u.IsLatestIn g ↔
      (u.isRecorded = true → ∀ delay ∈ r.retention, History.horizon now.storing delay ≤ u.stamp))

theorem handsOn_of_persist {clock : Clock}
    (written : ({ r with clock } : Replica).persist now.storing t = .ok r')
    (writes : Writes r now op t) (own : t.entry.id = u.id) (ordered : t.history.IsOrdered)
    (readable : t.history.IsReadable) (latest : u.IsLatestIn t.history) :
    HandsOn r now op u r' t := by
  obtain ⟨g, read, agrees⟩ :=
    (Tracked.carries_store ordered readable now.storing r.retention).read
  obtain ⟨-, stored, -⟩ := get?_of_persist written
  refine ⟨writes, latest, own ▸ stored, g, read, agrees, ?_⟩
  rw [← latest.expire_iff]
  exact ⟨fun kept => kept.of_agrees agrees.symm, fun kept => kept.of_agrees agrees⟩

/-- An update that a client sends is the latest in the history that is handed on to be stored, unless
it deletes the entry. -/
theorem Sends.handsOn (sends : Sends r now op u r') (covered : r.IsCovered)
    (going : ¬r.clock.IsExhausted) (plain : ∀ a ∈ op.modified, a.IsPlain) :
    u.stamp = (r.clock.tick now.issuing).stamp ∧
      (u.payload = .delete ∨ ∃ t, HandsOn r now op u r' t) := by
  cases sends with
  | add stamped place free written =>
    exact ⟨stamped, .inr ⟨_, handsOn_of_persist written (stamped ▸ .add rfl) (id_newEntry ..)
      (History.isOrdered_ofCreation _) (History.isReadable_ofCreation _) rfl⟩⟩
  | @modify name mods abandon q t ending tally r' stamped found taken valid written =>
    obtain ⟨e, found', read⟩ := of_findTracked_eq_ok found
    obtain ⟨id, stored⟩ := of_find_eq_ok found'
    obtain ⟨h, carries, -⟩ := covered id e stored
    obtain ⟨ordered, readable⟩ := wellFormed_of_applyRequest carries read taken
      fun m hm => plain m.attr (List.mem_map_of_mem hm)
    have older := covered.isOlder going now stored (Tracked.history_of_ofEntry read)
    exact ⟨stamped, .inr ⟨_, handsOn_of_persist written (.modify found (stamped ▸ taken))
      (Tracked.id_foldl_step _ t) ordered readable (isLatestIn_afterRequest (stamped ▸ older))⟩⟩
  | @rename name target leaf deleteOld superior superiorId e h stamp r' stamped above found named free
      read written =>
    obtain ⟨id, stored⟩ := of_find_eq_ok found
    obtain ⟨g, carries, -⟩ := covered id e stored
    obtain ⟨ordered, readable⟩ := wellFormed_of_rename carries read stamp
    have older := covered.isOlder going now stored read
    have renamed : (h.rename stamp).renamed = some stamp := by
      have newer : h.admitsRename stamp = true :=
        History.admitsRename_iff.mpr (stamped ▸ older.renamed)
      rw [History.rename, if_pos newer]
    exact ⟨stamped, .inr ⟨_, handsOn_of_persist written (stamped ▸ .rename found named read)
      (id_renameEntry ..) ordered readable renamed⟩⟩
  | delete found => exact ⟨rfl, .inl rfl⟩

variable {run : List (Readings × Operation)}

/-- Whatever a replica has been through since its store was empty, the next stamp that it gives to an
operation of a client is newer than all that its histories record. So what the operation does to an
entry is the latest in the history that is handed on to be stored: a reset the last one of its
attribute, and a rename recorded. It is so in the stored history too, unless the wall clock has moved
past the retention since the stamp was issued. -/
theorem stamp_newer_of_performAll (empty : r.store = .empty)
    (plain : ∀ p ∈ run, ∀ a ∈ p.2.modified, a.IsPlain)
    (going : ∀ before, before <+: run → ¬(r.performAll before).clock.IsExhausted) (now : Readings) :
    (∀ id e, (r.performAll run).store.get? id = some e → ∃ g, History.ofEntry e = .ok g ∧
      g.encode = e.historyValues ∧
        ∀ f ∈ g.facts, f.stamp < ((r.performAll run).clock.tick now.issuing).stamp) ∧
    ∀ op, (∀ a ∈ op.modified, a.IsPlain) → ∀ u, ((r.performAll run).answer now op).sent? = some u →
      u.stamp = ((r.performAll run).clock.tick now.issuing).stamp ∧ (u.payload = .delete ∨
        ∃ t, HandsOn (r.performAll run) now op u ((r.performAll run).perform now op) t) := by
  have covered := (isCovered_of_empty empty).performAll plain going
  have going' := going run (List.prefix_refl run)
  refine ⟨fun id e stored => ?_, fun op plain' u sent => ?_⟩
  · obtain ⟨h, carries, -⟩ := covered id e stored
    obtain ⟨g, read, agrees⟩ := carries.read
    refine ⟨g, read, agrees.encode_eq.trans carries.written.symm, fun f hf => ?_⟩
    have older := covered.isOlder going' now stored read
    exact older.of_mem_facts (covered.within stored read).1 hf
  · exact (sends_of_sent sent).handsOn covered going' plain'

/-- The wall clock is far behind the stamp that the replica has witnessed, and goes back. A request
fails before the last one, which clears an attribute and adds a value again; meanwhile the wall clock
moves on, but not past the retention. Had it moved further, no history would be left. -/
theorem stamp_newer_of_performAll_behind :
    let base : DistinguishedName := ⟨[⟨"o", "test"⟩]⟩
    let mail : Attribute := ⟨"mail", []⟩
    let run : List (Readings × Operation) :=
      [(10, .replay ⟨⟨1000, 7, 2⟩, base, .uniform 0, .add none .empty⟩),
        (20, .modify base [⟨mail, .add, [[1]]⟩] fun _ => false),
        (9, .modify base [⟨mail, .add, []⟩] fun _ => false)]
    let r := (make 1 base ⟨[]⟩ (some 5) .empty).performAll run
    let op : Operation := .modify base [⟨mail, .delete, []⟩, ⟨mail, .add, [[2]]⟩] fun _ => false
    (∃ u, (r.answer ⟨3, 1004⟩ op).sent? = some u ∧ u.stamp = ⟨1000, 10, 1⟩ ∧
      ∃ e g, (r.perform ⟨3, 1004⟩ op).store.get? u.id = some e ∧ History.ofEntry e = .ok g ∧
        (g.timeline mail).lastReset = some ⟨1000, 10, 1⟩) ∧
      ((r.perform ⟨3, 1006⟩ op).store.get? (.uniform 0)).map History.ofEntry = some (.ok .empty) := by
  intro base mail run r op
  have going : ∀ before ∈ run.inits,
      ¬((make 1 base ⟨[]⟩ (some 5) .empty).performAll before).clock.IsExhausted := by
    decide +kernel
  have going' : ∀ before, before <+: run →
      ¬((make 1 base ⟨[]⟩ (some 5) .empty).performAll before).clock.IsExhausted :=
    fun before prefixed => going before ((List.mem_inits _ _).mpr prefixed)
  have sent : (r.answer ⟨3, 1004⟩ op).sent? = some ⟨⟨1000, 10, 1⟩, base, .uniform 0,
      .modify [⟨mail, .delete, []⟩, ⟨mail, .add, [[2]]⟩]⟩ := by decide +kernel
  have recent : ∀ delay ∈ r.retention, History.horizon 1004 delay ≤ ⟨1000, 10, 1⟩ := by
    decide +kernel
  refine ⟨?_, by decide +kernel⟩
  obtain ⟨-, always⟩ := stamp_newer_of_performAll rfl (by decide) going' ⟨3, 1004⟩
  obtain ⟨-, deleted | ⟨t, handed⟩⟩ := always op (by decide) _ sent
  · cases deleted
  · obtain ⟨g, read, -, latest⟩ := handed.read
    exact ⟨_, sent, rfl, _, g, handed.stored, read,
      latest.mpr (fun _ => recent) ⟨mail, .delete, []⟩ (.head _) (by decide)⟩

end Replica

end DirectoryHistory
