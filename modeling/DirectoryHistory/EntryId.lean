import DirectoryHistory.Digest
import DirectoryHistory.DistinguishedName
import DirectoryHistory.Stamp

/-!
# Entry identifiers

An entry keeps its identifier through renames. It is the digest of the name and the stamp of the
creation, so that two replicas that create one name at a time make different entries.
-/

namespace DirectoryHistory

structure EntryId where
  octets : Octets
  length_octets : octets.length = 32
  deriving DecidableEq

namespace EntryId

instance : Ord EntryId :=
  ⟨compareOn octets⟩

instance : Std.TransOrd EntryId :=
  inferInstanceAs (Std.TransCmp (compareOn octets))

instance : Std.LawfulEqOrd EntryId where
  eq_of_compare {a b} h := by
    have h : compare a.octets b.octets = .eq := h
    cases a
    cases b
    simp_all

def ofOctets? (o : Octets) : Option EntryId :=
  if h : o.length = 32 then some ⟨o, h⟩ else none

def uniform (b : UInt8) : EntryId :=
  ⟨List.replicate 32 b, List.length_replicate⟩

def ofData (data : Octets) : EntryId :=
  ⟨Digest.digest data, Digest.length_digest data⟩

def generate (name : DistinguishedName) (stamp : Stamp) : EntryId :=
  ofData (Octets.ofText (name.text ++ "\n" ++ stamp.text))

def text (id : EntryId) : String :=
  id.octets.hexText

def ofText? (s : String) : Option EntryId :=
  (Octets.ofHex? s).bind ofOctets?

end EntryId

end DirectoryHistory
