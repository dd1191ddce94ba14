import DirectoryHistory.Proofs.Replica.Arrival
import DirectoryHistory.Proofs.Replica.Readable

/-!
# Creations of one name

Two replicas may create entries of one name before they hear of each other. Whoever takes in such
creations keeps the first one that creates an entry there and turns the others away, so the order of
delivery decides which entry has the name.
-/

namespace DirectoryHistory

variable {id : EntryId} {e f : Entry}

namespace Store

variable {s s' : Store} {name : DistinguishedName}

end Store

namespace Tracked

variable {t : Tracked}

theorem name_store (t : Tracked) (now : UInt64) (retention : Option Nat) :
    (t.store now retention).name = t.entry.name := rfl

theorem values_store {a : Attribute} (user : a.isHistory = false) (t : Tracked) (now : UInt64)
    (retention : Option Nat) : (t.store now retention).values a = t.entry.values a :=
  Entry.values_setValues_of_ne _ (Attribute.ne_history user) _

end Tracked

namespace Replica

/-- The update creates an entry whose name here is the same as `target`, and its parent, if it tells
of one, is stored. -/
def Names (r : Replica) (target : DistinguishedName) (u : Update) : Prop :=
  ∃ parent attributes name, u.payload = .add parent attributes ∧
    (∀ id ∈ parent, ∃ p, r.store.get? id = some p) ∧ r.addedName u.name parent = .ok name ∧
    name.folded = target.folded

variable {r r' : Replica} {now : UInt64} {u : Update} {target name : DistinguishedName}
variable {run run' : List (UInt64 × Update)}

theorem base_perform (r : Replica) (now : Readings) (op : Operation) :
    (r.perform now op).base = r.base := by
  cases effect_perform r now op with
  | kept only | removed id only | wrote t writes put only => rw [only]

/-- What a replica gives a name to depends on its store and its base alone. -/
theorem Names.of_store (h : r.Names target u) (store : r'.store = r.store) (base : r'.base = r.base) :
    r'.Names target u := by
  obtain ⟨parent, attributes, name, payload, known, named, called⟩ := h
  refine ⟨parent, attributes, name, payload, store ▸ known, ?_, called⟩
  simpa only [addedName, parentOf, store, base] using named

def bare (replica : UInt16) : Replica :=
  make replica ⟨[⟨"o", "test"⟩]⟩ ⟨["uid"]⟩ none
    ((make 9 ⟨[⟨"o", "test"⟩]⟩ ⟨["uid"]⟩ none .empty).perform 10
      (.replay ⟨⟨1, 0, 9⟩, ⟨[⟨"o", "test"⟩]⟩, .uniform 0, .add none .empty⟩)).store

end Replica

end DirectoryHistory
