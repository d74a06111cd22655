import Mathlib.Algebra.BigOperators.Group.Finset.Basic
import Mathlib.Algebra.Order.BigOperators.Group.Finset

/-!
# Sums over a finite map

`weigh f m` is the sum of `f k v` over the entries of a map: with a weight of 0 or 1 it counts the
entries that have a property.  Maps are compared by the weight they have at each key (`weightAt`), so
an update at one key changes a sum by what it changes there (`weigh_change`), and what takes weight
nowhere makes no sum larger (`weigh_mono`).
-/

namespace Std.ExtTreeMap

variable {κ β β' : Type} [Ord κ] [TransOrd κ]

/-- What a map weighs at one key. -/
def weightAt (f : κ → β → Nat) (m : ExtTreeMap κ β) (k : κ) : Nat := (m[k]?).elim 0 (f k)

variable {f : κ → β → Nat} {f' : κ → β' → Nat} {m : ExtTreeMap κ β} {m' : ExtTreeMap κ β'} {k : κ}
  {v : β}

theorem weightAt_some (there : m[k]? = some v) : m.weightAt f k = f k v := by
  rw [weightAt, there]
  rfl

theorem weightAt_none (absent : m[k]? = none) : m.weightAt f k = 0 := by
  rw [weightAt, absent]
  rfl

variable [LawfulEqOrd κ] [DecidableEq κ]

variable (f m) in
/-- What a map weighs. -/
def weigh : Nat := ∑ k ∈ m.keys.toFinset, m.weightAt f k

/-- The keys without an entry may be summed over too. -/
theorem weigh_eq_sum (S : Finset κ) (cover : ∀ k v, m[k]? = some v → k ∈ S) :
    m.weigh f = ∑ k ∈ S, m.weightAt f k := by
  refine Finset.sum_subset (fun k mem => ?_) fun k _ absent => ?_
  · have listed : k ∈ m := by simpa using mem
    exact cover k _ (getElem?_eq_some_getElem listed)
  · have unlisted : k ∉ m := by simpa using absent
    exact weightAt_none (getElem?_eq_none unlisted)

theorem mem_keys_toFinset (there : m[k]? = some v) : k ∈ m.keys.toFinset := by
  have listed : k ∈ m := mem_iff_isSome_getElem?.mpr (there ▸ rfl)
  simpa using listed

theorem weigh_mono (le : ∀ k, m.weightAt f k ≤ m'.weightAt f' k) : m.weigh f ≤ m'.weigh f' := by
  rw [weigh_eq_sum (m.keys.toFinset ∪ m'.keys.toFinset) fun k v there =>
      Finset.mem_union_left _ (mem_keys_toFinset there),
    weigh_eq_sum (m := m') (m.keys.toFinset ∪ m'.keys.toFinset) fun k v there =>
      Finset.mem_union_right _ (mem_keys_toFinset there)]
  exact Finset.sum_le_sum fun k _ => le k

theorem weigh_congr (same : ∀ k, m.weightAt f k = m'.weightAt f' k) : m.weigh f = m'.weigh f' :=
  le_antisymm (weigh_mono fun k => (same k).le) (weigh_mono fun k => (same k).ge)

/-- Maps that differ at one key differ in weight by what they differ there. -/
theorem weigh_change (k : κ) (others : ∀ j, j ≠ k → m'.weightAt f' j = m.weightAt f j) :
    m'.weigh f' + m.weightAt f k = m.weigh f + m'.weightAt f' k := by
  have split : ∀ {γ : Type} {g : κ → γ → Nat} {n : ExtTreeMap κ γ} (S : Finset κ), k ∈ S →
      (∀ j v, n[j]? = some v → j ∈ S) → n.weigh g = n.weightAt g k + ∑ j ∈ S.erase k, n.weightAt g j :=
    fun S mem cover => by rw [weigh_eq_sum S cover, Finset.add_sum_erase S _ mem]
  let S : Finset κ := {k} ∪ (m.keys.toFinset ∪ m'.keys.toFinset)
  have here : k ∈ S := Finset.mem_union_left _ (Finset.mem_singleton_self k)
  have all := split (g := f) (n := m) S here fun j v there =>
    Finset.mem_union_right _ (Finset.mem_union_left _ (mem_keys_toFinset there))
  have all' := split (g := f') (n := m') S here fun j v there =>
    Finset.mem_union_right _ (Finset.mem_union_right _ (mem_keys_toFinset there))
  have rest : ∑ j ∈ S.erase k, m'.weightAt f' j = ∑ j ∈ S.erase k, m.weightAt f j :=
    Finset.sum_congr rfl fun j mem => others j (Finset.ne_of_mem_erase mem)
  omega

theorem le_weigh (there : m[k]? = some v) : f k v ≤ m.weigh f := by
  rw [← weightAt_some (f := f) there]
  exact Finset.single_le_sum (f := m.weightAt f) (fun _ _ => Nat.zero_le _)
    (mem_keys_toFinset there)

theorem weigh_eq_zero (none : ∀ k v, m[k]? = some v → f k v = 0) : m.weigh f = 0 := by
  refine Finset.sum_eq_zero fun k mem => ?_
  have listed : k ∈ m := by simpa using mem
  rw [weightAt_some (getElem?_eq_some_getElem listed)]
  exact none k _ (getElem?_eq_some_getElem listed)

/-! ## Updates -/

theorem weightAt_insert {j : κ} :
    (m.insert k v).weightAt f j = if k = j then f k v else m.weightAt f j := by
  unfold weightAt
  rw [getElem?_insert]
  by_cases same : k = j
  · subst same
    simp
  · simp [same]

theorem weightAt_erase {j : κ} :
    (m.erase k).weightAt f j = if k = j then 0 else m.weightAt f j := by
  unfold weightAt
  rw [getElem?_erase]
  by_cases same : k = j
  · subst same
    simp
  · simp [same]

theorem weigh_insert : (m.insert k v).weigh f + m.weightAt f k = m.weigh f + f k v := by
  have change : (m.insert k v).weigh f + m.weightAt f k =
      m.weigh f + (m.insert k v).weightAt f k :=
    weigh_change k fun j other => by rw [weightAt_insert, if_neg (Ne.symm other)]
  rwa [weightAt_insert, if_pos rfl] at change

theorem weigh_erase : (m.erase k).weigh f + m.weightAt f k = m.weigh f := by
  have change : (m.erase k).weigh f + m.weightAt f k = m.weigh f + (m.erase k).weightAt f k :=
    weigh_change k fun j other => by rw [weightAt_erase, if_neg (Ne.symm other)]
  rwa [weightAt_erase, if_pos rfl] at change

end Std.ExtTreeMap
