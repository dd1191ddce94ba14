import DirectoryHistory.Octets
import DirectoryHistory.Text.Ascii

/-!
# ASCII texts

A text of ASCII characters takes one octet for each of them.
-/

namespace DirectoryHistory

theorem Octets.ofText_ofList (cs : List Char) :
    Octets.ofText (String.ofList cs) = cs.flatMap String.utf8EncodeChar := by
  simp [ofText, List.utf8Encode]

namespace Text

theorem utf8EncodeChar_of_lt {c : Char} (h : c.toNat < 128) :
    String.utf8EncodeChar c = [UInt8.ofNat c.toNat] := by
  have h : c.val.toNat ≤ 0x7f := Nat.le_of_lt_succ h
  rw [String.utf8EncodeChar]
  simp only [h, if_true]
  rfl

theorem flatMap_utf8EncodeChar {cs : List Char} (h : ∀ c ∈ cs, c.toNat < 128) :
    cs.flatMap String.utf8EncodeChar = cs.map fun c => UInt8.ofNat c.toNat := by
  induction cs with
  | nil => rfl
  | cons c cs ih =>
    rw [List.flatMap_cons, utf8EncodeChar_of_lt (h c (.head _)),
      ih fun d hd => h d (.tail _ hd)]
    rfl

theorem utf8ByteSize_ofList {cs : List Char} (h : ∀ c ∈ cs, c.toNat < 128) :
    (String.ofList cs).utf8ByteSize = cs.length := by
  have size : (String.ofList cs).utf8ByteSize = (Octets.ofText (String.ofList cs)).length := rfl
  rw [size, Octets.ofText_ofList, flatMap_utf8EncodeChar h, List.length_map]

theorem toNat_ofNat {n : Nat} (h : n < 128) : (Char.ofNat n).toNat = n := by
  have valid : n.isValidChar := .inl (by omega)
  rw [Char.ofNat, dif_pos valid]
  rfl

theorem ofText_of_lt {o : Octets} (h : ∀ b ∈ o, b.toNat < 128) :
    Octets.ofText (String.ofList (o.map fun b => Char.ofNat b.toNat)) = o := by
  rw [Octets.ofText_ofList, flatMap_utf8EncodeChar, List.map_map]
  · refine (List.map_congr_left fun b hb => ?_).trans (List.map_id o)
    simp [toNat_ofNat (h b hb)]
  · rw [List.forall_mem_map]
    intro b hb
    rw [toNat_ofNat (h b hb)]
    exact h b hb

end Text

end DirectoryHistory
