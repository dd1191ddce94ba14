import DirectoryHistory.History
import DirectoryHistory.Proofs.Table
import DirectoryHistory.Proofs.Timeline.Records

/-!
# Parts of a history

A history that says nothing but what another one says is a part of it. Absorbing facts of a history
makes larger and larger parts of it, whatever the order of the facts, and when all its facts are
absorbed the part says all that the history says.
-/

namespace DirectoryHistory

namespace Timeline

/-- The marks and the reset of `u` are those of `t`, as far as there are any. -/
structure IsPart (u t : Timeline) : Prop where
  marks : ∀ v m, u.mark? v = some m → t.mark? v = some m
  reset : ∀ r, u.lastReset = some r → t.lastReset = some r

variable {t u w : Timeline}

theorem isPart_empty (t : Timeline) : IsPart .empty t where
  marks := by simp
  reset := nofun

theorem IsPart.refl (t : Timeline) : t.IsPart t where
  marks _ _ := id
  reset _ := id

theorem IsPart.trans (h : w.IsPart u) (h' : u.IsPart t) : w.IsPart t where
  marks v m hm := h'.marks v m (h.marks v m hm)
  reset r hr := h'.reset r (h.reset r hr)

theorem IsPart.record (h : u.IsPart t) {m : Mark} (hm : t.mark? m.value = some m) :
    u.IsPart (u.record m) ∧ (u.record m).IsPart t ∧ (u.record m).mark? m.value = some m := by
  have known : ∀ n, u.mark? m.value = some n → n = m := fun n hn => by
    have := h.marks _ n hn
    rw [hm] at this
    exact (Option.some.inj this).symm
  have recorded : (u.record m).mark? m.value = some m := by
    rw [mark?_record]
    split
    · rfl
    · next refused =>
      cases hn : u.mark? m.value with
      | none => exact absurd ⟨rfl, admits_iff.mpr (by simp [hn])⟩ refused
      | some n => rw [known n hn]
  have others : ∀ v, v ≠ m.value → (u.record m).mark? v = u.mark? v := fun v hv => by
    simp [mark?_record, hv]
  refine ⟨⟨fun v n hn => ?_, by simp⟩, ⟨fun v n hn => ?_, ?_⟩, recorded⟩
  · by_cases hv : v = m.value
    · subst hv
      rw [recorded, known n hn]
    · rwa [others v hv]
  · by_cases hv : v = m.value
    · subst hv
      rw [hm, ← recorded, hn]
    · exact h.marks v n (others v hv ▸ hn)
  · simpa using h.reset

theorem IsPart.raise (h : u.IsPart t) {s : Stamp} (hs : t.lastReset = some s) :
    u.IsPart (u.reset s) ∧ (u.reset s).IsPart t ∧ (u.reset s).lastReset = some s := by
  have raised : (u.reset s).lastReset = some s := by
    rw [lastReset_reset]
    cases hr : u.lastReset with
    | none => simp
    | some r =>
      have := h.reset r hr
      rw [hs] at this
      obtain rfl := Option.some.inj this
      simp
  refine ⟨⟨by simp, fun r hr => ?_⟩, ⟨fun v m => ?_, fun r hr => ?_⟩, raised⟩
  · rw [raised, ← hs, h.reset r hr]
  · simpa using h.marks v m
  · rw [hs, ← raised, hr]

/-- What a fact says about an attribute is what its timeline says. -/
def Records (t : Timeline) (s : Stamp) : Fact.Kind → Option Octets → Prop
  | .deleteAttribute, none => t.lastReset = some s
  | .replace, some v => t.lastReset = some s ∧ t.mark? v = some ⟨v, .added, s⟩
  | .add, some v => t.mark? v = some ⟨v, .added, s⟩
  | .delete, some v => t.mark? v = some ⟨v, .deleted, s⟩
  | _, _ => False

theorem Records.mono {s : Stamp} {kind : Fact.Kind} {value : Option Octets} (h : u.IsPart t)
    (hu : u.Records s kind value) : t.Records s kind value := by
  cases kind <;> cases value <;> simp only [Records] at hu ⊢
  case add.some v => exact h.marks v _ hu
  case delete.some v => exact h.marks v _ hu
  case replace.some v => exact ⟨h.reset s hu.1, h.marks v _ hu.2⟩
  case deleteAttribute.none => exact h.reset s hu

theorem IsPart.absorbAttribute (h : u.IsPart t) {s : Stamp} {kind : Fact.Kind}
    {value : Option Octets} (ht : t.Records s kind value) :
    u.IsPart (History.absorbAttribute u s kind value) ∧
      (History.absorbAttribute u s kind value).IsPart t ∧
      (History.absorbAttribute u s kind value).Records s kind value := by
  cases kind <;> cases value <;> simp only [Records] at ht
  case add.some v => exact h.record (m := ⟨v, .added, s⟩) ht
  case delete.some v => exact h.record (m := ⟨v, .deleted, s⟩) ht
  case replace.some v =>
    obtain ⟨grown, part, raised⟩ := h.raise ht.1
    obtain ⟨grown', part', recorded⟩ := part.record (m := ⟨v, .added, s⟩) ht.2
    exact ⟨grown.trans grown', part', grown'.reset s raised, recorded⟩
  case deleteAttribute.none => exact h.raise ht

/-- Ordered timelines that are parts of each other are the same. -/
theorem Ordered.eq_of_isPart (ht : t.Ordered) (hu : u.Ordered) (h : u.IsPart t)
    (h' : t.IsPart u) : u = t := by
  refine hu.ext ht (Option.ext fun r => ⟨h.reset r, h'.reset r⟩) fun v => ?_
  exact Option.ext fun m => ⟨h.marks v m, h'.marks v m⟩

end Timeline

end DirectoryHistory
