import DirectoryHistory.Proofs.Fact
import DirectoryHistory.Proofs.Stamp.Clock
import DirectoryHistory.Proofs.Tracked.Requests
import DirectoryHistory.Replica.Replay
import Mathlib.Logic.Function.Basic

/-!
# Topologies

Replicas share one entry, which one of them created. Each of them takes requests of clients and the
updates of all replicas, the creation first and the others in any order and as often as they come.
-/

namespace DirectoryHistory

/-- The request that an update tells of. -/
def Update.request? (u : Update) : Option Request :=
  match u.payload with
  | .modify mods => some ⟨u.stamp, mods⟩
  | _ => none

theorem Update.stamp_of_request? {u : Update} {q : Request} (h : u.request? = some q) :
    q.stamp = u.stamp := by
  simp only [request?] at h
  split at h
  · cases h
    rfl
  · cases h

/-- Replicas with the updates that were sent so far and those that each replica has taken. -/
structure Topology (ι : Type) where
  replicas : ι → Replica
  sent : List Update
  taken : ι → List Update

namespace Topology

/-- A request of a client to a replica, or an update that reaches it, each with what its wall clock
reads. -/
inductive Event (ι : Type) where
  | request (i : ι) (now : Readings) (name : DistinguishedName) (mods : List Modification)
  | deliver (i : ι) (now : UInt64) (update : Update)

variable {ι : Type}

def Event.modifications? : Event ι → Option (List Modification)
  | .request _ _ _ mods => some mods
  | .deliver .. => none

def requests (T : Topology ι) : List Request :=
  T.sent.filterMap Update.request?

variable [DecidableEq ι]

/-- A replica that applies a request sends its update and counts as having taken it. -/
def perform (T : Topology ι) : Event ι → Topology ι
  | .request i now name mods =>
    match (T.replicas i).modify now name mods fun _ => false with
    | (.ok u, r) => ⟨Function.update T.replicas i r, T.sent ++ [u],
        Function.update T.taken i (T.taken i ++ [u])⟩
    | (.error _, r) => { T with replicas := Function.update T.replicas i r }
  | .deliver i now u => ⟨Function.update T.replicas i ((T.replicas i).replay now u).2, T.sent,
      Function.update T.taken i (T.taken i ++ [u])⟩

/-- Which events may come next. Requests are valid ones for the entry, under the name that it has at
the replica. Updates are delivered that were sent, and `creation` comes first and is applied. -/
def Admits (creation : Update) (T : Topology ι) : Event ι → Prop
  | .request i _ name mods => creation ∈ T.taken i ∧
      (∃ e, (T.replicas i).store.get? creation.id = some e ∧ name.same e.name = true) ∧
      validateAll (T.replicas i).schema mods = .ok () ∧ (∀ m ∈ mods, m.attr.IsPlain) ∧
      ¬(T.replicas i).clock.IsExhausted
  | .deliver i now u => u ∈ T.sent ∧ (creation ∈ T.taken i ∨
      u = creation ∧ ∃ tally, ((T.replicas i).replay now u).1 = .ok (.applied tally))

/-- Whether every event of a run may come when its turn is. -/
def AdmitsAll (creation : Update) (T : Topology ι) : List (Event ι) → Prop
  | [] => True
  | e :: rest => T.Admits creation e ∧ (T.perform e).AdmitsAll creation rest

instance (o : Except Replica.Failure Replica.Outcome) :
    Decidable (∃ tally, o = .ok (.applied tally)) :=
  match o with
  | .ok (.applied tally) => .isTrue ⟨tally, rfl⟩
  | .ok (.ignored _) => .isFalse (by simp)
  | .error _ => .isFalse (by simp)

instance (e? : Option Entry) (name : DistinguishedName) :
    Decidable (∃ e, e? = some e ∧ name.same e.name = true) :=
  decidable_of_iff _ (Option.any_eq_true (fun e => name.same e.name) e?)

instance (creation : Update) (T : Topology ι) : DecidablePred (T.Admits creation)
  | .request .. => inferInstanceAs (Decidable (_ ∧ _))
  | .deliver .. => inferInstanceAs (Decidable (_ ∧ _))

instance decidableAdmitsAll (creation : Update) :
    (T : Topology ι) → (events : List (Event ι)) → Decidable (T.AdmitsAll creation events)
  | _, [] => .isTrue trivial
  | T, e :: rest =>
    have := decidableAdmitsAll creation (T.perform e) rest
    inferInstanceAs (Decidable (_ ∧ _))

def run (T : Topology ι) (events : List (Event ι)) : Topology ι :=
  events.foldl perform T

/-- A topology right after `creation` at `origin`, which leaves that replica as `r`. -/
def start (replicas : ι → Replica) (origin : ι) (creation : Update) (r : Replica) : Topology ι where
  replicas := Function.update replicas origin r
  sent := [creation]
  taken := Function.update (fun _ => []) origin [creation]

end Topology

end DirectoryHistory
