/-
Association lists that are updated in place.

A key stands where it was set first. `merge` sets the entries of one list
over another, each combined with what it is set over. A merge and a set
come to the same in either order (`merge_set`), so that a merge can be
followed through a list that grows. Behind them is the search by position,
in a list of distinct keys.
-/
import Mathlib.Data.List.Basic
import Mathlib.Data.List.Nodup

namespace Assoc

variable {α β : Type} [DecidableEq α]

/-- The value of a key, in place of the one it had. -/
def set (k : α) (v : β) : List (α × β) → List (α × β)
  | [] => [(k, v)]
  | (k', w) :: xs => if k' = k then (k, v) :: xs else (k', w) :: set k v xs

/-- The entries of the second list over those of the first. -/
def merge (combine : Option β → β → β) (xs : List (α × β)) :
    List (α × β) → List (α × β)
  | [] => xs
  | (k, v) :: ys => merge combine (set k (combine (xs.lookup k) v) xs) ys

/-- Entries, set one after the other. -/
def ofList (xs : List (α × β)) : List (α × β) := merge (fun _ v => v) [] xs

variable {k k' : α} {v w : β} {xs ys : List (α × β)}
  {combine : Option β → β → β}

-- ================================================================= lookups

/-- The first entry of a key is replaced where it stands. -/
theorem set_cons_self : set k v ((k, w) :: xs) = (k, v) :: xs := if_pos rfl

/-- Entries of other keys are passed by. -/
theorem set_cons_ne (h : k' ≠ k) :
    set k v ((k', w) :: xs) = (k', w) :: set k v xs :=
  if_neg h

/-- So they are when a key is looked up. -/
theorem lookup_cons_ne (h : k' ≠ k) :
    ((k', v) :: xs).lookup k = xs.lookup k := by
  rw [List.lookup_cons, beq_false_of_ne h.symm]

/-- What was set is found. -/
@[simp] theorem lookup_set_self : (set k v xs).lookup k = some v := by
  induction xs with
  | nil => exact List.lookup_cons_self
  | cons x xs ih =>
      obtain ⟨k', w⟩ := x
      by_cases hk : k' = k
      · rw [hk, set_cons_self, List.lookup_cons_self]
      · rw [set_cons_ne hk, lookup_cons_ne hk, ih]

/-- Under another key everything is as it was. -/
theorem lookup_set_ne (h : k ≠ k') :
    (set k v xs).lookup k' = xs.lookup k' := by
  induction xs with
  | nil => exact lookup_cons_ne h
  | cons x xs ih =>
      obtain ⟨k₁, w⟩ := x
      by_cases hk : k₁ = k
      · rw [hk, set_cons_self, lookup_cons_ne h, lookup_cons_ne h]
      · rw [set_cons_ne hk]
        by_cases hk' : k₁ = k'
        · rw [hk', List.lookup_cons_self, List.lookup_cons_self]
        · rw [lookup_cons_ne hk', lookup_cons_ne hk', ih]

/-- Values under the same keys. -/
theorem lookup_map {γ : Type} {f : β → γ} :
    (xs.map fun (k, v) => (k, f v)).lookup k = (xs.lookup k).map f := by
  induction xs with
  | nil => rfl
  | cons x xs ih =>
      obtain ⟨k', v⟩ := x
      rw [List.map_cons]
      by_cases hk : k' = k
      · rw [hk, List.lookup_cons_self, List.lookup_cons_self]
        rfl
      · rw [lookup_cons_ne hk, lookup_cons_ne hk, ih]

/-- Under no key there is nothing. -/
theorem lookup_eq_none_of_not_mem (h : k ∉ xs.map Prod.fst) :
    xs.lookup k = none := by
  induction xs with
  | nil => rfl
  | cons x xs ih =>
      obtain ⟨k', w⟩ := x
      rw [List.map_cons, List.mem_cons, not_or] at h
      rw [lookup_cons_ne (Ne.symm h.1), ih h.2]

/-- An entry is found under its key, if the keys are different. -/
theorem lookup_of_mem (hkeys : (xs.map Prod.fst).Nodup) (h : (k, v) ∈ xs) :
    xs.lookup k = some v := by
  induction xs with
  | nil => cases h
  | cons x xs ih =>
      obtain ⟨hx, hkeys⟩ := List.nodup_cons.mp hkeys
      rcases List.mem_cons.mp h with rfl | h
      · exact List.lookup_cons_self
      · have hne : x.1 ≠ k := by
          intro heq
          subst heq
          exact hx (List.mem_map.mpr ⟨_, h, rfl⟩)
        exact (lookup_cons_ne hne).trans (ih hkeys h)

/-- One entry has the key. -/
theorem filter_key (hkeys : (xs.map Prod.fst).Nodup) (h : (k, v) ∈ xs) :
    xs.filter (fun x => x.1 = k) = [(k, v)] := by
  induction xs with
  | nil => cases h
  | cons x xs ih =>
      obtain ⟨hx, hkeys⟩ := List.nodup_cons.mp hkeys
      rcases List.mem_cons.mp h with rfl | h
      · have hnone : xs.filter (fun x => x.1 = k) = [] := by
          rw [List.filter_eq_nil_iff]
          intro y hy heq
          exact hx (List.mem_map.mpr ⟨y, hy, of_decide_eq_true heq⟩)
        rw [List.filter_cons_of_pos (by simp), hnone]
      · have hne : x.1 ≠ k := by
          intro heq
          subst heq
          exact hx (List.mem_map.mpr ⟨_, h, rfl⟩)
        rw [List.filter_cons_of_neg (by simpa using hne)]
        exact ih hkeys h

/-- The order of the entries does not matter then. -/
theorem lookup_perm (h : xs.Perm ys) (hkeys : (ys.map Prod.fst).Nodup) :
    xs.lookup k = ys.lookup k := by
  induction h with
  | nil => rfl
  | cons x _ ih =>
      obtain ⟨k', w⟩ := x
      have htail := (List.nodup_cons.mp hkeys).2
      rw [List.lookup_cons, List.lookup_cons, ih htail]
  | swap x y xs =>
      obtain ⟨k₁, w₁⟩ := x
      obtain ⟨k₂, w₂⟩ := y
      have hne : k₁ ≠ k₂ := fun heq =>
        (List.nodup_cons.mp hkeys).1 (heq ▸ List.mem_cons_self)
      by_cases h₁ : k₁ = k
      · subst h₁
        rw [lookup_cons_ne (Ne.symm hne), List.lookup_cons_self,
          List.lookup_cons_self]
      · have hskip : ∀ zs : List (α × β),
            ((k₁, w₁) :: zs).lookup k = zs.lookup k :=
          fun zs => lookup_cons_ne h₁
        rw [hskip]
        by_cases h₂ : k₂ = k
        · rw [h₂, List.lookup_cons_self, List.lookup_cons_self]
        · rw [lookup_cons_ne h₂, lookup_cons_ne h₂, hskip]
  | trans h₁ h₂ ih₁ ih₂ =>
      rw [ih₁ ((h₂.map Prod.fst).nodup_iff.mpr hkeys), ih₂ hkeys]

-- ==================================================================== sets

/-- Of two values set under one key the second stays. -/
theorem set_set : set k w (set k v xs) = set k w xs := by
  induction xs with
  | nil => exact set_cons_self
  | cons x xs ih =>
      obtain ⟨k', u⟩ := x
      by_cases hk : k' = k
      · rw [hk, set_cons_self, set_cons_self, set_cons_self]
      · rw [set_cons_ne hk, set_cons_ne hk, set_cons_ne hk, ih]

/-- Setting what is there changes nothing. -/
theorem set_of_lookup (h : xs.lookup k = some v) : set k v xs = xs := by
  induction xs with
  | nil => exact absurd h.symm (Option.some_ne_none v)
  | cons x xs ih =>
      obtain ⟨k', u⟩ := x
      by_cases hk : k' = k
      · rw [hk, List.lookup_cons_self] at h
        rw [hk, set_cons_self, Option.some.inj h]
      · rw [lookup_cons_ne hk] at h
        rw [set_cons_ne hk, ih h]

/-- A new key comes last. -/
theorem set_of_not_mem (h : k ∉ xs.map Prod.fst) :
    set k v xs = xs ++ [(k, v)] := by
  induction xs with
  | nil => rfl
  | cons x xs ih =>
      obtain ⟨k', w⟩ := x
      rw [List.map_cons, List.mem_cons, not_or] at h
      rw [set_cons_ne (Ne.symm h.1), ih h.2, List.cons_append]

/-- A key that is there already stays where it is. -/
theorem set_comm (h : k ≠ k') (hk : xs.lookup k ≠ none) :
    set k v (set k' w xs) = set k' w (set k v xs) := by
  induction xs with
  | nil => exact absurd rfl hk
  | cons x xs ih =>
      obtain ⟨k₁, u⟩ := x
      by_cases h₁ : k₁ = k
      · subst h₁
        rw [set_cons_ne h, set_cons_self, set_cons_self, set_cons_ne h]
      · rw [lookup_cons_ne h₁] at hk
        by_cases h₂ : k₁ = k'
        · subst h₂
          rw [set_cons_self, set_cons_ne h₁, set_cons_ne h₁, set_cons_self]
        · rw [set_cons_ne h₂, set_cons_ne h₁, set_cons_ne h₁, set_cons_ne h₂,
            ih hk]

/-- Setting adds no other key. -/
theorem mem_set {x : α} :
    x ∈ (set k v xs).map Prod.fst ↔ x = k ∨ x ∈ xs.map Prod.fst := by
  induction xs with
  | nil => simp [set]
  | cons y xs ih =>
      obtain ⟨k', w⟩ := y
      by_cases hk : k' = k
      · subst hk
        simp [set_cons_self]
      · rw [set_cons_ne hk, List.map_cons, List.mem_cons, ih, List.map_cons,
          List.mem_cons, or_left_comm]

/-- It keeps the keys different. -/
theorem nodup_set (h : (xs.map Prod.fst).Nodup) :
    ((set k v xs).map Prod.fst).Nodup := by
  induction xs with
  | nil => exact List.nodup_singleton k
  | cons x xs ih =>
      obtain ⟨k', w⟩ := x
      rw [List.map_cons, List.nodup_cons] at h
      by_cases hk : k' = k
      · subst hk
        rw [set_cons_self, List.map_cons, List.nodup_cons]
        exact h
      · rw [set_cons_ne hk, List.map_cons, List.nodup_cons, mem_set]
        exact ⟨fun hmem => hmem.elim hk h.1, ih h.2⟩

-- ================================================================== merges

/-- An entry that the other list does not touch can be set before merging or
behind it. -/
theorem merge_set_left (h : k ∉ ys.map Prod.fst) (hk : xs.lookup k ≠ none) :
    merge combine (set k v xs) ys = set k v (merge combine xs ys) := by
  induction ys generalizing xs with
  | nil => rfl
  | cons y ys ih =>
      obtain ⟨k', w⟩ := y
      rw [List.map_cons, List.mem_cons, not_or] at h
      have hset : set k' (combine (xs.lookup k') w) (set k v xs)
          = set k v (set k' (combine (xs.lookup k') w) xs) :=
        (set_comm h.1 hk).symm
      rw [merge, lookup_set_ne h.1, hset, ih h.2, merge]
      rw [lookup_set_ne (Ne.symm h.1)]
      exact hk

/-- A set, before the merge and after it. -/
theorem merge_set (h : (ys.map Prod.fst).Nodup) :
    merge combine xs (set k v ys)
      = set k (combine (xs.lookup k) v) (merge combine xs ys) := by
  induction ys generalizing xs with
  | nil => rfl
  | cons y ys ih =>
      obtain ⟨k', w⟩ := y
      rw [List.map_cons, List.nodup_cons] at h
      by_cases hk : k' = k
      · subst hk
        rw [set_cons_self, merge, merge, ← merge_set_left h.1, set_set]
        rw [lookup_set_self]
        exact Option.some_ne_none _
      · rw [set_cons_ne hk, merge, merge, ih h.2, lookup_set_ne hk]

/-- Over a list without its keys, a list stays as it is. -/
theorem merge_disjoint (hcombine : ∀ v, combine none v = v)
    (hdisjoint : ∀ k ∈ ys.map Prod.fst, k ∉ xs.map Prod.fst)
    (h : (ys.map Prod.fst).Nodup) : merge combine xs ys = xs ++ ys := by
  induction ys generalizing xs with
  | nil => exact (List.append_nil xs).symm
  | cons y ys ih =>
      obtain ⟨k, v⟩ := y
      rw [List.map_cons, List.nodup_cons] at h
      have hk := hdisjoint k List.mem_cons_self
      rw [merge, lookup_eq_none_of_not_mem hk, hcombine, ih ?_ h.2,
        set_of_not_mem hk, List.append_assoc, List.singleton_append]
      intro k' hk' hmem
      rcases mem_set.mp hmem with rfl | hmem
      · exact h.1 hk'
      · exact hdisjoint k' (List.mem_cons_of_mem k hk') hmem

/-- A list of different keys is kept as it is. -/
theorem ofList_of_nodup (h : (xs.map Prod.fst).Nodup) : ofList xs = xs :=
  merge_disjoint (fun _ => rfl) (fun _ _ => List.not_mem_nil) h

/-- Merging keeps the keys different. -/
theorem nodup_merge (h : (xs.map Prod.fst).Nodup) :
    ((merge combine xs ys).map Prod.fst).Nodup := by
  induction ys generalizing xs with
  | nil => exact h
  | cons y ys ih => exact ih (nodup_set h)

/-- Under a key of both lists the entries are combined, and under a key of one
its entry stands. -/
theorem lookup_merge (h : (ys.map Prod.fst).Nodup) :
    (merge combine xs ys).lookup k
      = ((ys.lookup k).map (combine (xs.lookup k))).or (xs.lookup k) := by
  induction ys generalizing xs with
  | nil => rfl
  | cons y ys ih =>
      obtain ⟨k', w⟩ := y
      rw [List.map_cons, List.nodup_cons] at h
      rw [merge, ih h.2]
      by_cases hk : k' = k
      · subst hk
        rw [lookup_eq_none_of_not_mem h.1, lookup_set_self,
          List.lookup_cons_self]
        rfl
      · rw [lookup_set_ne hk, lookup_cons_ne hk]

-- =================================================================== search

/-- The first element that meets a condition, where no two have the same
key and the condition says which key. -/
theorem findIdx?_of_nodup {ι κ : Type} {es : List ι} {key : ι → κ}
    {p : ι → Bool} {i : Nat} {x : ι} (h : (es.map key).Nodup)
    (hx : es[i]? = some x) (hp : p x = true)
    (hkey : ∀ y ∈ es, p y = true → key y = key x) :
    es.findIdx? p = some i := by
  obtain ⟨hi, rfl⟩ := List.getElem?_eq_some_iff.mp hx
  refine List.findIdx?_eq_some_iff_getElem.mpr ⟨hi, hp, ?_⟩
  intro j hj hpj
  have hi' : i < (es.map key).length := by simpa using hi
  have hj' : j < (es.map key).length := Nat.lt_trans hj hi'
  have hkeys : (es.map key)[j] = (es.map key)[i] := by
    simpa using hkey _ (List.getElem_mem _) hpj
  have hsame := (List.Nodup.getElem_inj_iff h).mp hkeys
  omega

end Assoc
