/-!
# Ordered tables

Finite maps whose pairs are listed in ascending order of their keys. Two tables are equal when they
hold the same pairs, and a look-up after a change follows from the change alone.
-/

namespace DirectoryHistory

variable {κ : Type} {ν : Type} {μ : Type} [Ord κ]

/-- A finite map; `toList` lists its pairs by ascending key. -/
structure Table (κ : Type) (ν : Type) [Ord κ] where
  toList : List (κ × ν)
  ascending : toList.Pairwise fun a b => compare a.1 b.1 = .lt

namespace Table

@[ext] theorem ext {t u : Table κ ν} (h : t.toList = u.toList) : t = u := by
  cases t
  cases u
  simp_all

instance [DecidableEq κ] [DecidableEq ν] : DecidableEq (Table κ ν) := fun t u =>
  decidable_of_iff (t.toList = u.toList) ⟨ext, fun h => h ▸ rfl⟩

def empty : Table κ ν :=
  ⟨[], .nil⟩

instance : Inhabited (Table κ ν) := ⟨empty⟩

def size (t : Table κ ν) : Nat :=
  t.toList.length

def isEmpty (t : Table κ ν) : Bool :=
  t.toList.isEmpty

def keys (t : Table κ ν) : List κ :=
  t.toList.map (·.1)

def values (t : Table κ ν) : List ν :=
  t.toList.map (·.2)

def lookup (k : κ) : List (κ × ν) → Option ν
  | [] => none
  | (k', v) :: rest => if compare k k' = .eq then some v else lookup k rest

def get? (t : Table κ ν) (k : κ) : Option ν :=
  lookup k t.toList

def contains (t : Table κ ν) (k : κ) : Bool :=
  (t.get? k).isSome

/-- Puts the pair at its place, instead of a pair with the same key. -/
def insertPair (k : κ) (v : ν) : List (κ × ν) → List (κ × ν)
  | [] => [(k, v)]
  | (k', v') :: rest =>
    match compare k k' with
    | .lt => (k, v) :: (k', v') :: rest
    | .eq => (k, v) :: rest
    | .gt => (k', v') :: insertPair k v rest

theorem mem_insertPair {k : κ} {v : ν} {l : List (κ × ν)} {p : κ × ν}
    (h : p ∈ insertPair k v l) : p = (k, v) ∨ p ∈ l := by
  induction l with
  | nil => simpa [insertPair] using h
  | cons q rest ih =>
    obtain ⟨k', v'⟩ := q
    simp only [insertPair] at h
    split at h
    · simpa using h
    · rcases List.mem_cons.mp h with rfl | h
      · exact .inl rfl
      · exact .inr (List.mem_cons_of_mem _ h)
    · rcases List.mem_cons.mp h with rfl | h
      · exact .inr (List.mem_cons_self ..)
      · exact (ih h).imp_right (List.mem_cons_of_mem _)

theorem ascending_insertPair [Std.TransOrd κ] [Std.LawfulEqOrd κ] (k : κ) (v : ν)
    {l : List (κ × ν)} (h : l.Pairwise fun a b => compare a.1 b.1 = .lt) :
    (insertPair k v l).Pairwise fun a b => compare a.1 b.1 = .lt := by
  induction l with
  | nil => simp [insertPair]
  | cons q rest ih =>
    obtain ⟨first, tail⟩ := List.pairwise_cons.mp h
    simp only [insertPair]
    split
    · next hk =>
      refine List.pairwise_cons.mpr ⟨fun p hp => ?_, h⟩
      rcases List.mem_cons.mp hp with rfl | hp
      · exact hk
      · exact Std.TransCmp.lt_trans hk (first p hp)
    · next hk =>
      have : k = q.1 := Std.LawfulEqOrd.eq_of_compare hk
      subst this
      exact List.pairwise_cons.mpr ⟨first, tail⟩
    · next hk =>
      refine List.pairwise_cons.mpr ⟨fun p hp => ?_, ih tail⟩
      rcases mem_insertPair hp with rfl | hp
      · exact Std.OrientedCmp.gt_iff_lt.mp hk
      · exact first p hp

def insert [Std.TransOrd κ] [Std.LawfulEqOrd κ] (t : Table κ ν) (k : κ) (v : ν) : Table κ ν :=
  ⟨insertPair k v t.toList, ascending_insertPair k v t.ascending⟩

/-- Enters the pairs one after the other; of two with one key the later one stays. -/
def ofList [Std.TransOrd κ] [Std.LawfulEqOrd κ] (pairs : List (κ × ν)) : Table κ ν :=
  pairs.foldl (fun t p => t.insert p.1 p.2) empty

def filterMap (t : Table κ ν) (f : κ → ν → Option μ) : Table κ μ where
  toList := t.toList.filterMap fun p => (f p.1 p.2).map (p.1, ·)
  ascending := by
    rw [List.pairwise_filterMap]
    refine t.ascending.imp fun {a b} hab c hc d hd => ?_
    obtain ⟨_, _, rfl⟩ := Option.map_eq_some_iff.mp hc
    obtain ⟨_, _, rfl⟩ := Option.map_eq_some_iff.mp hd
    exact hab

def filter (t : Table κ ν) (p : κ → ν → Bool) : Table κ ν :=
  ⟨t.toList.filter fun q => p q.1 q.2, t.ascending.filter _⟩

def erase (t : Table κ ν) (k : κ) : Table κ ν :=
  t.filter fun k' _ => compare k k' != .eq

theorem lookup_insertPair_self [Std.ReflOrd κ] (k : κ) (v : ν) (l : List (κ × ν)) :
    lookup k (insertPair k v l) = some v := by
  induction l with
  | nil => simp [insertPair, lookup]
  | cons q rest ih =>
    simp only [insertPair]
    split
    · simp [lookup]
    · simp [lookup]
    · next hk => simp [lookup, hk, ih]

theorem lookup_insertPair_of_ne [Std.LawfulEqOrd κ] {k k' : κ} (h : k' ≠ k) (v : ν)
    (l : List (κ × ν)) : lookup k' (insertPair k v l) = lookup k' l := by
  have hc : compare k' k ≠ .eq := fun hc => h (Std.LawfulEqOrd.eq_of_compare hc)
  induction l with
  | nil => simp [insertPair, lookup, hc]
  | cons q rest ih =>
    simp only [insertPair]
    split
    · simp [lookup, hc]
    · next hk =>
      have : k = q.1 := Std.LawfulEqOrd.eq_of_compare hk
      subst this
      simp [lookup, hc]
    · simp [lookup, ih]

@[simp] theorem get?_insert_self [Std.TransOrd κ] [Std.LawfulEqOrd κ] (t : Table κ ν) (k : κ)
    (v : ν) : (t.insert k v).get? k = some v :=
  lookup_insertPair_self k v t.toList

theorem get?_insert_of_ne [Std.TransOrd κ] [Std.LawfulEqOrd κ] (t : Table κ ν) {k k' : κ}
    (h : k' ≠ k) (v : ν) : (t.insert k v).get? k' = t.get? k' :=
  lookup_insertPair_of_ne h v t.toList

theorem lookup_filter_self (k : κ) (l : List (κ × ν)) :
    lookup k (l.filter fun q => compare k q.1 != .eq) = none := by
  induction l with
  | nil => rfl
  | cons q rest ih => by_cases h : compare k q.1 = .eq <;> simp [lookup, h, ih]

theorem lookup_filter_of_ne [Std.LawfulEqOrd κ] {k k' : κ} (h : k' ≠ k) (l : List (κ × ν)) :
    lookup k' (l.filter fun q => compare k q.1 != .eq) = lookup k' l := by
  induction l with
  | nil => rfl
  | cons q rest ih =>
    by_cases hq : compare k q.1 = .eq
    · have hk : k = q.1 := Std.LawfulEqOrd.eq_of_compare hq
      have hc : compare k' q.1 ≠ .eq :=
        fun hc => h ((Std.LawfulEqOrd.eq_of_compare hc).trans hk.symm)
      rw [List.filter_cons_of_neg (by simp [hq]), ih]
      simp only [lookup, hc, if_false]
    · rw [List.filter_cons_of_pos (by simp [hq])]
      simp only [lookup, ih]

@[simp] theorem get?_erase_self (t : Table κ ν) (k : κ) : (t.erase k).get? k = none :=
  lookup_filter_self k t.toList

theorem get?_erase_of_ne [Std.LawfulEqOrd κ] (t : Table κ ν) {k k' : κ} (h : k' ≠ k) :
    (t.erase k).get? k' = t.get? k' :=
  lookup_filter_of_ne h t.toList

end Table

end DirectoryHistory
