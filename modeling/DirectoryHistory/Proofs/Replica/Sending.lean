import DirectoryHistory.Proofs.Replica.Taking

/-!
# Operations that send an update

An operation of a client that succeeds has found what it asks for, has written or removed one entry
at the next stamp of the clock, and sends the update that tells of that. So does a request that was
abandoned after some of its steps.
-/

namespace DirectoryHistory.Replica

/-- The update that a client is told of. -/
def Answer.sent? : Answer → Option Update
  | .told result => Replica.sent? result
  | .replayed _ => none

/-- What an operation of a client has done when it sends an update. -/
inductive Sends (r : Replica) (now : Readings) : Operation → Update → Replica → Prop
  | add {name : DistinguishedName} {attributes : Table Attribute (List Octets)}
    {parent : Option EntryId} {stamp : Stamp} {r' : Replica}
    (stamped : stamp = (r.clock.tick now.issuing).stamp) (place : r.parentOf name = .ok parent)
    (free : r.store.find? name = none)
    (written : (r.tick now.issuing).create now.storing name (.generate name stamp) attributes stamp =
      .ok r') :
    Sends r now (.add name attributes)
      ⟨stamp, name, .generate name stamp, .add parent attributes⟩ r'
  | modify {name : DistinguishedName} {mods : List Modification} {abandon : Nat → Bool}
    {q : Request} {t : Tracked} {ending : Ending} {tally : Tally} {r' : Replica}
    (stamped : q.stamp = (r.clock.tick now.issuing).stamp) (found : r.findTracked name = .ok t)
    (taken : t.applyRequest r.schema mods q.stamp abandon =
      .ok (ending, tally, t.afterRequest r.schema q))
    (valid : validateAll r.schema q.modifications = .ok ())
    (written : (r.tick now.issuing).persist now.storing (t.afterRequest r.schema q) = .ok r') :
    Sends r now (.modify name mods abandon) (q.update name t.entry.id) r'
  | rename {name target : DistinguishedName} {leaf : RelativeName} {deleteOld : Bool}
    {superior : Option DistinguishedName} {superiorId : Option EntryId} {e : Entry} {h : History}
    {stamp : Stamp} {r' : Replica} (stamped : stamp = (r.clock.tick now.issuing).stamp)
    (above : r.findSuperior superior = .ok superiorId) (found : r.find name = .ok e)
    (named : targetName name leaf superior = .ok target) (free : r.isTaken e target = false)
    (read : History.ofEntry e = .ok h)
    (written : (r.tick now.issuing).persist now.storing
      ⟨renameEntry e target leaf deleteOld, h.rename stamp⟩ = .ok r') :
    Sends r now (.rename name leaf deleteOld superior)
      ⟨stamp, name, e.id, .rename leaf deleteOld superior superiorId⟩ r'
  | delete {name : DistinguishedName} {e : Entry} (found : r.find name = .ok e) :
    Sends r now (.delete name) ⟨(r.clock.tick now.issuing).stamp, name, e.id, .delete⟩
      { r with clock := r.clock.tick now.issuing, store := r.store.remove e.id }

variable {r r' : Replica} {now : Readings} {op : Operation} {u : Update}

theorem sends_add {name : DistinguishedName} {attributes : Table Attribute (List Octets)}
    (h : sent? (r.add now name attributes).1 = some u) :
    Sends r now (.add name attributes) u (r.add now name attributes).2 := by
  simp only [add] at h ⊢
  split at h
  · next forbidden =>
    simp [sent?_of_not_isAbandoned (isAbandoned_of_checkNewAttributes forbidden)] at h
  split at h
  · next unplaced => simp [sent?_of_not_isAbandoned (isAbandoned_of_parentOf unplaced)] at h
  next parent place =>
  split at h
  · cases h
  next unnamed =>
  split at h
  · next refused => simp [sent?_of_not_isAbandoned (isAbandoned_of_persist refused)] at h
  next r' written =>
  obtain rfl := Option.some.inj h
  have free : r.store.find? name = none := Option.not_isSome_iff_eq_none.mp unnamed
  simp only [unnamed]
  exact .add rfl place free written

theorem sends_modify {name : DistinguishedName} {mods : List Modification} {abandon : Nat → Bool}
    (h : sent? (r.modify now name mods abandon).1 = some u) :
    Sends r now (.modify name mods abandon) u (r.modify now name mods abandon).2 := by
  obtain ⟨q, t, ending, tally, found, rfl, stamped, taken, valid, written⟩ := persist_of_sent h
  exact .modify stamped found taken valid written

theorem sends_rename {name : DistinguishedName} {leaf : RelativeName} {deleteOld : Bool}
    {superior : Option DistinguishedName}
    (h : sent? (r.rename now name leaf deleteOld superior).1 = some u) :
    Sends r now (.rename name leaf deleteOld superior) u
      (r.rename now name leaf deleteOld superior).2 := by
  simp only [rename] at h ⊢
  split at h
  · next missing => simp [sent?_of_not_isAbandoned (isAbandoned_of_findSuperior missing)] at h
  next superiorId above =>
  split at h
  · next missing => simp [sent?_of_not_isAbandoned (isAbandoned_of_find missing)] at h
  next e found =>
  split at h
  · next nameless => simp [sent?_of_not_isAbandoned (isAbandoned_of_targetName nameless)] at h
  next target named =>
  split at h
  · cases h
  next untaken =>
  split at h
  · cases h
  next history read =>
  split at h
  · next refused => simp [sent?_of_not_isAbandoned (isAbandoned_of_persist refused)] at h
  next r' written =>
  obtain rfl := Option.some.inj h
  simp only [untaken]
  exact .rename rfl above found named (Bool.not_eq_true _ ▸ untaken) read written

theorem sends_delete {name : DistinguishedName} (h : sent? (r.delete now.issuing name).1 = some u) :
    Sends r now (.delete name) u (r.delete now.issuing name).2 := by
  simp only [delete] at h ⊢
  split at h
  · next missing => simp [sent?_of_not_isAbandoned (isAbandoned_of_find missing)] at h
  next e found =>
  obtain rfl := Option.some.inj h
  exact .delete found

/-- What an operation of a client has done can be told from the update that it sends. -/
theorem sends_of_sent (h : (r.answer now op).sent? = some u) :
    Sends r now op u (r.perform now op) := by
  cases op with
  | add name attributes => exact sends_add h
  | modify name mods abandon => exact sends_modify h
  | rename name leaf deleteOld superior => exact sends_rename h
  | delete name => exact sends_delete h
  | replay u' => cases h

end DirectoryHistory.Replica
