/-
Steps that may raise, one after the other.

A sequence that raises nothing is taken apart by `ok_of_bind`, a step at a
time. The steps may also be the same for every element of a list: what was
computed of all elements was computed of each, in their order.

The lemmas are for `Except`. They are used forwards, to find out what was
computed when a whole sequence is known to have raised nothing, so that a
proof about it need not unfold the sequence at each of its steps.
-/
import Mathlib.Data.List.Basic
import Mathlib.Data.List.Forall2

namespace Sequence

variable {α β ε : Type}

/-- A sequence that raises nothing: neither step did. -/
theorem ok_of_bind {x : Except ε α} {k : α → Except ε β} {b : β}
    (h : (x >>= k) = .ok b) : ∃ a, x = .ok a ∧ k a = .ok b := by
  cases x with
  | error e => cases h
  | ok a => exact ⟨a, rfl, h⟩

-- ============================================================== all or none

variable {f : α → Except ε β} {es : List α} {rs : List β}

/-- What was computed of the elements, in their order. -/
theorem forall₂_of_mapM (h : es.mapM f = .ok rs) :
    List.Forall₂ (fun x r => f x = .ok r) es rs := by
  induction es generalizing rs with
  | nil =>
      obtain rfl := Except.ok.inj h
      exact .nil
  | cons e es ih =>
      rw [List.mapM_cons] at h
      obtain ⟨r, he, h⟩ := ok_of_bind h
      obtain ⟨rs', hes, h⟩ := ok_of_bind h
      obtain rfl : r :: rs' = rs := Except.ok.inj h
      exact .cons he (ih hes)

/-- What was computed of an element, where something was of all. -/
theorem getElem?_of_mapM {i : Nat} {x : α} (h : es.mapM f = .ok rs)
    (hx : es[i]? = some x) : ∃ r, rs[i]? = some r ∧ f x = .ok r := by
  have hall := forall₂_of_mapM h
  obtain ⟨hi, rfl⟩ := List.getElem?_eq_some_iff.mp hx
  have hi' : i < rs.length := hall.length_eq ▸ hi
  exact ⟨rs[i], List.getElem?_eq_getElem hi', hall.get hi hi'⟩

/-- If something is computed of each element, something is of all. -/
theorem exists_mapM {P : β → Prop} (h : ∀ x ∈ es, ∃ r, f x = .ok r ∧ P r) :
    ∃ rs, es.mapM f = .ok rs ∧ ∀ r ∈ rs, P r := by
  induction es with
  | nil => exact ⟨[], rfl, fun r hr => absurd hr List.not_mem_nil⟩
  | cons e es ih =>
      obtain ⟨he, hes⟩ := List.forall_mem_cons.mp h
      obtain ⟨r, hr, hP⟩ := he
      obtain ⟨rs, hrs, hPs⟩ := ih hes
      refine ⟨r :: rs, ?_, List.forall_mem_cons.mpr ⟨hP, hPs⟩⟩
      rw [List.mapM_cons, hr, hrs]
      rfl

/-- What is computed of all, if anything is, is computed of each. -/
theorem forall₂_of_mapM_some {f : α → Option β} {xs : List α} {ys : List β}
    (h : xs.mapM f = some ys) :
    List.Forall₂ (fun x y => f x = some y) xs ys := by
  induction xs generalizing ys with
  | nil =>
      obtain rfl := Option.some.inj h
      exact .nil
  | cons x xs ih =>
      rw [List.mapM_cons] at h
      obtain ⟨y, hy, h⟩ := Option.bind_eq_some_iff.mp h
      obtain ⟨ys', hys, h⟩ := Option.bind_eq_some_iff.mp h
      obtain rfl : y :: ys' = ys := Option.some.inj h
      exact .cons hy (ih hys)

/-- Values that are computed of the elements, one by one, are computed of
all. -/
theorem mapM_of_forall₂ {f : α → Option β} {xs : List α} {ys : List β}
    (h : List.Forall₂ (fun x y => f x = some y) xs ys) :
    xs.mapM f = some ys := by
  induction h with
  | nil => rfl
  | cons hxy _ ih =>
      rw [List.mapM_cons, hxy, ih]
      rfl

/-- These values are computed of all exactly if each of them is. -/
theorem mapM_eq_map {f : α → Option β} {g : α → β} (xs : List α) :
    xs.mapM f = some (xs.map g) ↔ ∀ x ∈ xs, f x = some (g x) := by
  induction xs with
  | nil => exact iff_of_true rfl fun _ hx => absurd hx List.not_mem_nil
  | cons x xs ih =>
      rw [List.forall_mem_cons, ← ih, List.mapM_cons]
      cases f x with
      | none => exact iff_of_false (fun h => by cases h) fun h => by cases h.1
      | some y =>
          cases xs.mapM f with
          | none =>
              exact iff_of_false (fun h => by cases h) fun h => by cases h.2
          | some ys =>
              show some (y :: ys) = some (g x :: xs.map g) ↔ _
              simp

-- =================================================================== pairs

section

variable {γ : Type} {R : α → β → Prop} {S : α → γ → Prop} {T : γ → β → Prop}
  {xs : List α} {ys : List β} {zs : List γ}

/-- An element of the one list has its element of the other. -/
theorem mem_of_forall₂ (h : List.Forall₂ R xs ys) {x : α} (hx : x ∈ xs) :
    ∃ y ∈ ys, R x y := by
  induction h with
  | nil => cases hx
  | cons hxy _ ih =>
      rcases List.mem_cons.mp hx with rfl | hx
      · exact ⟨_, List.mem_cons_self, hxy⟩
      · obtain ⟨y, hy, hxy⟩ := ih hx
        exact ⟨y, List.mem_cons_of_mem _ hy, hxy⟩

theorem getElem?_of_forall₂ (h : List.Forall₂ R xs ys) {i : Nat} {x : α}
    (hx : xs[i]? = some x) : ∃ y, ys[i]? = some y ∧ R x y := by
  obtain ⟨hi, rfl⟩ := List.getElem?_eq_some_iff.mp hx
  have hi' : i < ys.length := h.length_eq ▸ hi
  exact ⟨ys[i], List.getElem?_eq_getElem hi', h.get hi hi'⟩

/-- What belongs to the same elements belongs together. -/
theorem forall₂_through (h : List.Forall₂ R xs ys) (h' : List.Forall₂ S xs zs)
    (hT : ∀ x y z, y ∈ ys → R x y → S x z → T z y) :
    List.Forall₂ T zs ys := by
  induction h generalizing zs with
  | nil =>
      cases h'
      exact .nil
  | cons hxy _ ih =>
      cases h' with
      | cons hxz h' =>
          exact .cons (hT _ _ _ List.mem_cons_self hxy hxz)
            (ih h' fun x y z hy => hT x y z (List.mem_cons_of_mem _ hy))

end

end Sequence
