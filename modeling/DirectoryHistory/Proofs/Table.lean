import DirectoryHistory.Table
import Mathlib.Data.List.Sort

/-!
# Tables by their look-ups

A table is given by what is found under each key.
-/

namespace DirectoryHistory.Table

theorem lookup_eq_none {κ ν : Type} [Ord κ] {k : κ} {l : List (κ × ν)}
    (h : ∀ p ∈ l, compare k p.1 = .lt) : lookup k l = none := by
  induction l with
  | nil => rfl
  | cons p rest ih =>
    have first : compare k p.1 ≠ .eq := by simp [h p (.head _)]
    rw [lookup, if_neg first]
    exact ih fun q hq => h q (.tail _ hq)

theorem ascending_keys {κ ν : Type} [Ord κ] (t : Table κ ν) :
    t.keys.Pairwise fun k k' => compare k k' = .lt :=
  List.pairwise_map.mpr t.ascending

variable {κ ν : Type} [Ord κ] [Std.LawfulEqOrd κ] {t u : Table κ ν}

theorem mem_toList_iff {k : κ} {v : ν} : (k, v) ∈ t.toList ↔ t.get? k = some v := by
  have find : ∀ l : List (κ × ν), l.Pairwise (fun p q => compare p.1 q.1 = .lt) →
      ((k, v) ∈ l ↔ lookup k l = some v) := by
    intro l hl
    induction l with
    | nil => simp [lookup]
    | cons p rest ih =>
      obtain ⟨k', v'⟩ := p
      obtain ⟨first, tail⟩ := List.pairwise_cons.mp hl
      simp only [lookup, List.mem_cons, ih tail]
      by_cases hk : k = k'
      · subst hk
        -- The key stands in front, so it is not found behind.
        have absent : lookup k rest ≠ some v := fun h => by
          simpa using first _ ((ih tail).mpr h)
        simp [absent, eq_comm]
      · have hc : compare k k' ≠ .eq := fun h => hk (Std.LawfulEqOrd.eq_of_compare h)
        simp [hk, hc]
  exact find t.toList t.ascending

theorem ext_get? [Std.TransOrd κ] (h : ∀ k, t.get? k = u.get? k) : t = u := by
  let before : κ × ν → κ × ν → Prop := fun p q => compare p.1 q.1 = .lt
  have irrefl : Std.Irrefl before := ⟨fun p => by simp [before]⟩
  have antisymm : Std.Antisymm before := ⟨fun p q hpq hqp => by
    simpa [before] using Std.TransCmp.lt_trans hpq hqp⟩
  have pairs : t.toList = u.toList :=
    List.Pairwise.eq_of_mem_iff (r := before) t.ascending u.ascending fun p => by
      rw [mem_toList_iff, mem_toList_iff, h]
  exact Table.ext pairs

theorem get?_filter (t : Table κ ν) (p : κ → ν → Bool) (k : κ) :
    (t.filter p).get? k = (t.get? k).filter (p k) := by
  ext v
  rw [← mem_toList_iff, Option.filter_eq_some_iff, ← mem_toList_iff]
  simp [filter]

theorem get?_filterMap {μ : Type} (t : Table κ ν) (f : κ → ν → Option μ) (k : κ) :
    (t.filterMap f).get? k = (t.get? k).bind (f k) := by
  ext w
  simp only [← mem_toList_iff, filterMap, List.mem_filterMap, Option.bind_eq_some_iff, Prod.exists,
    Option.map_eq_some_iff, Prod.mk.injEq]
  constructor
  · rintro ⟨_, v, hv, _, hw, rfl, rfl⟩
    exact ⟨v, hv, hw⟩
  · rintro ⟨v, hv, hw⟩
    exact ⟨k, v, hv, w, hw, rfl, rfl⟩

/-- Of all that the pairs of a table are unfolded to, what has one key is what stands under it. -/
theorem filter_flatMap_toList {γ : Type} [DecidableEq κ] {f : κ × ν → List γ} {key : γ → κ}
    (own : ∀ p, ∀ x ∈ f p, key x = p.1) (t : Table κ ν) (k : κ) :
    (t.toList.flatMap f).filter (fun x => key x = k) =
      (t.get? k).toList.flatMap fun v => f (k, v) := by
  have fold : ∀ l : List (κ × ν), l.Pairwise (fun p q => compare p.1 q.1 = .lt) →
      (l.flatMap f).filter (fun x => key x = k) =
        (lookup k l).toList.flatMap fun v => f (k, v) := by
    intro l ascending
    induction l with
    | nil => rfl
    | cons p rest ih =>
      obtain ⟨k', v⟩ := p
      obtain ⟨first, ascending⟩ := List.pairwise_cons.mp ascending
      rw [List.flatMap_cons, List.filter_append, ih ascending, lookup]
      by_cases hk : k' = k
      · subst hk
        have all : (f (k', v)).filter (fun x => key x = k') = f (k', v) :=
          List.filter_eq_self.mpr fun x hx => by simpa using own _ x hx
        simp [lookup_eq_none first, all]
      · have other : (f (k', v)).filter (fun x => key x = k) = [] :=
          List.filter_eq_nil_iff.mpr fun x hx => by simpa [own _ x hx] using hk
        have hc : compare k k' ≠ .eq := fun hc => hk (Std.LawfulEqOrd.eq_of_compare hc).symm
        rw [other, List.nil_append, if_neg hc]
  exact fold t.toList t.ascending

theorem nodup_of_ascending {l : List κ} (h : l.Pairwise fun k k' => compare k k' = .lt) :
    l.Nodup := by
  refine h.imp fun {k k'} before => ?_
  rintro rfl
  simp at before

theorem nodup_keys (t : Table κ ν) : t.keys.Nodup :=
  nodup_of_ascending t.ascending_keys

theorem mem_keys_iff {k : κ} : k ∈ t.keys ↔ ∃ v, t.get? k = some v := by
  simp only [keys, List.mem_map, Prod.exists, exists_and_right, exists_eq_right, mem_toList_iff]

theorem filterMap_get?_keys (t : Table κ ν) : t.keys.filterMap t.get? = t.values := by
  have found : ∀ p ∈ t.toList, (t.get? ∘ (·.1)) p = (some ∘ (·.2)) p := fun p hp =>
    mem_toList_iff.mp hp
  rw [keys, List.filterMap_map, List.filterMap_congr found, List.filterMap_eq_map, values]

theorem insertPair_of_forall_gt {κ ν : Type} [Ord κ] {k : κ} (v : ν) {l : List (κ × ν)}
    (h : ∀ p ∈ l, compare k p.1 = .gt) : insertPair k v l = l ++ [(k, v)] := by
  induction l with
  | nil => rfl
  | cons p rest ih =>
    rw [insertPair, h p (.head _), ih fun q hq => h q (.tail _ hq)]
    rfl

theorem toList_foldl_insert [Std.TransOrd κ] {pairs : List (κ × ν)}
    (ascending : (t.toList ++ pairs).Pairwise fun p q => compare p.1 q.1 = .lt) :
    (pairs.foldl (fun t p => t.insert p.1 p.2) t).toList = t.toList ++ pairs := by
  induction pairs generalizing t with
  | nil => exact (List.append_nil _).symm
  | cons p pairs ih =>
    have last : ∀ q ∈ t.toList, compare p.1 q.1 = .gt := fun q hq =>
      Std.OrientedCmp.gt_iff_lt.mpr ((List.pairwise_append.mp ascending).2.2 q hq p (.head _))
    have inserted : (t.insert p.1 p.2).toList = t.toList ++ [p] :=
      insertPair_of_forall_gt p.2 last
    rw [List.foldl_cons, ih, inserted, List.append_assoc, List.singleton_append]
    rwa [inserted, List.append_assoc, List.singleton_append]

@[simp] theorem ofList_toList [Std.TransOrd κ] (t : Table κ ν) : ofList t.toList = t :=
  Table.ext (toList_foldl_insert (t := empty) t.ascending)

end DirectoryHistory.Table
