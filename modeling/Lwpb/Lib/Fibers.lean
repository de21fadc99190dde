/-
Lists of values with keys, taken apart by key.

`fiber k xs` are the values of a key, in order; `keys xs` are the keys, each
once, in the order in which they come first. Put together, the fibers are
all the values (`flatMap_fiber`). Both are said of a list that grows at its
end, one pair at a time.

A reader that groups a stream as it comes adds each pair to the fiber of
its key; the lemmas for a pair at the end are what an invariant of such a
reader needs, and the last theorem says that nothing was lost or doubled
by the grouping.
-/
import Mathlib.Data.List.Induction
import Mathlib.Data.List.Nodup

namespace Fibers

variable {κ α : Type} [DecidableEq κ]

/-- The values of a key. -/
def fiber (k : κ) (xs : List (κ × α)) : List α :=
  (xs.filter fun x => x.1 = k).map Prod.snd

/-- The keys, without another, behind those that are known. -/
def addKey (ks : List κ) (k : κ) : List κ :=
  if k ∈ ks then ks else ks ++ [k]

/-- The keys of a list. -/
def keys (xs : List (κ × α)) : List κ := (xs.map Prod.fst).foldl addKey []

variable {k : κ} {x : κ × α} {xs : List (κ × α)} {ks : List κ}

-- =================================================================== fibers

theorem fiber_append_self (a : α) :
    fiber k (xs ++ [(k, a)]) = fiber k xs ++ [a] := by
  unfold fiber
  rw [List.filter_append, List.map_append]
  simp

theorem fiber_append_ne (h : x.1 ≠ k) : fiber k (xs ++ [x]) = fiber k xs := by
  unfold fiber
  rw [List.filter_append, List.map_append]
  simp [h]

-- ===================================================================== keys

@[simp] theorem keys_nil : keys ([] : List (κ × α)) = [] := rfl

theorem keys_append : keys (xs ++ [x]) = addKey (keys xs) x.1 := by
  unfold keys
  rw [List.map_append, List.foldl_append]
  rfl

theorem mem_addKey {k' : κ} : k' ∈ addKey ks k ↔ k' ∈ ks ∨ k' = k := by
  unfold addKey
  split
  · next hk =>
      refine ⟨Or.inl, fun h => h.elim id ?_⟩
      rintro rfl
      exact hk
  · rw [List.mem_append, List.mem_singleton]

theorem nodup_addKey (h : ks.Nodup) : (addKey ks k).Nodup := by
  unfold addKey
  split
  · exact h
  · next hk =>
      refine List.nodup_append.mpr ⟨h, List.nodup_singleton k, ?_⟩
      rintro k' hk' _ hmem rfl
      exact hk (List.mem_singleton.mp hmem ▸ hk')

theorem mem_keys : k ∈ keys xs ↔ k ∈ xs.map Prod.fst := by
  induction xs using List.reverseRecOn with
  | nil => rfl
  | append_singleton xs x ih =>
      rw [keys_append, mem_addKey, ih, List.map_append, List.mem_append,
        List.map_singleton, List.mem_singleton]

theorem nodup_keys : (keys xs).Nodup := by
  induction xs using List.reverseRecOn with
  | nil => exact List.nodup_nil
  | append_singleton xs x ih =>
      rw [keys_append]
      exact nodup_addKey ih

/-- A key that does not occur has no values. -/
theorem fiber_of_not_mem (h : k ∉ keys xs) : fiber k xs = [] := by
  unfold fiber
  rw [List.map_eq_nil_iff, List.filter_eq_nil_iff]
  intro x hx heq
  exact h (mem_keys.mpr (List.mem_map.mpr ⟨x, hx, of_decide_eq_true heq⟩))

/-- A value more in the fiber of one of some keys. -/
theorem flatMap_fiber_append (hk : x.1 ∈ ks) (hnodup : ks.Nodup) :
    (ks.flatMap fun k => fiber k (xs ++ [x])).Perm
      ((ks.flatMap fun k => fiber k xs) ++ [x.2]) := by
  induction ks with
  | nil => cases hk
  | cons k ks ih =>
      obtain ⟨hnot, hnodup⟩ := List.nodup_cons.mp hnodup
      rw [List.flatMap_cons, List.flatMap_cons]
      rcases List.mem_cons.mp hk with heq | hmem
      · have hothers : (ks.flatMap fun k => fiber k (xs ++ [x]))
            = ks.flatMap fun k => fiber k xs := by
          refine List.flatMap_congr fun k' hk' => fiber_append_ne ?_
          rintro heq'
          exact hnot (heq ▸ heq' ▸ hk')
        obtain ⟨_, a⟩ := x
        obtain rfl : _ = k := heq
        rw [hothers, fiber_append_self, List.append_assoc, List.append_assoc]
        exact List.Perm.append_left _ List.perm_append_comm
      · have hne : x.1 ≠ k := fun heq => hnot (heq ▸ hmem)
        rw [fiber_append_ne hne, List.append_assoc]
        exact List.Perm.append_left _ (ih hmem hnodup)

/-- The fibers have every value once. -/
theorem flatMap_fiber :
    ((keys xs).flatMap fun k => fiber k xs).Perm (xs.map Prod.snd) := by
  induction xs using List.reverseRecOn with
  | nil => exact List.Perm.nil
  | append_singleton xs x ih =>
      have hmem : x.1 ∈ keys (xs ++ [x]) := by
        rw [keys_append, mem_addKey]
        exact .inr rfl
      have hsame : ((keys (xs ++ [x])).flatMap fun k => fiber k xs)
          = (keys xs).flatMap fun k => fiber k xs := by
        rw [keys_append, addKey]
        split
        · rfl
        · next hk =>
            rw [List.flatMap_append, List.flatMap_singleton,
              fiber_of_not_mem hk, List.append_nil]
      refine (flatMap_fiber_append hmem nodup_keys).trans ?_
      rw [hsame, List.map_append]
      exact ih.append_right _

end Fibers
