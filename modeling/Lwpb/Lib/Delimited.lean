/-
Lists between delimiters.

A list is cut where the delimiter stands in it first. Lists that have no
element of the delimiter are what the cuts give back of what was joined of
them (`split_intercalate`); an element is of a joined list if it is of one
of the lists or of the delimiter (`mem_intercalate`).

The delimiter is a list too, of any length. Where the cut falls is decided
by its first occurrence, so the condition on the pieces is that no
occurrence begins in them: that they have no element of the delimiter is
enough, and is what escaping gives.
-/
import Mathlib.Data.List.Basic

namespace Delimited

variable {α : Type} [DecidableEq α]

/-- What is in front of the first delimiter, and what is behind it. -/
def cut (delim : List α) : List α → Option (List α × List α)
  | [] => if delim = [] then some ([], []) else none
  | c :: cs =>
      if delim.isPrefixOf (c :: cs) then
        some ([], (c :: cs).drop delim.length)
      else (cut delim cs).map fun (front, back) => (c :: front, back)

/-- The parts between the first delimiters, as many as are given, and what
is behind them. -/
def split (delim : List α) : Nat → List α → List (List α)
  | 0, cs => [cs]
  | n + 1, cs =>
      match cut delim cs with
      | none => [cs]
      | some (front, back) => front :: split delim n back

variable {delim front back : List α} {parts : List (List α)}

-- ==================================================================== cuts

/-- The delimiter does not stand where one of its elements is missing. -/
theorem not_isPrefixOf {c : α} {cs : List α} (hne : delim ≠ [])
    (h : c ∉ delim) : delim.isPrefixOf (c :: cs) = false := by
  cases delim with
  | nil => exact absurd rfl hne
  | cons d delim =>
      have hdc : (d == c) = false :=
        beq_false_of_ne fun heq => h (heq ▸ List.mem_cons_self)
      rw [List.isPrefixOf_cons_cons, hdc, Bool.false_and]

theorem cut_delim (hne : delim ≠ []) :
    cut delim (delim ++ back) = some ([], back) := by
  have hstands : delim.isPrefixOf (delim ++ back) = true :=
    List.isPrefixOf_iff_prefix.mpr (List.prefix_append delim back)
  cases hcs : delim ++ back with
  | nil => exact absurd (List.append_eq_nil_iff.mp hcs).1 hne
  | cons c cs =>
      rw [hcs] at hstands
      rw [cut, if_pos hstands, ← hcs, List.drop_left]

/-- A cut is where the delimiter is put. -/
theorem cut_append (hne : delim ≠ []) (h : ∀ c ∈ front, c ∉ delim) :
    cut delim (front ++ delim ++ back) = some (front, back) := by
  rw [List.append_assoc]
  induction front with
  | nil => exact cut_delim hne
  | cons c cs ih =>
      obtain ⟨hc, hcs⟩ := List.forall_mem_cons.mp h
      rw [List.cons_append, cut, not_isPrefixOf hne hc,
        if_neg Bool.false_ne_true, ih hcs]
      rfl

-- =================================================================== joins

omit [DecidableEq α] in
theorem mem_intercalate {c : α} (h : c ∈ delim.intercalate parts) :
    (∃ part ∈ parts, c ∈ part) ∨ c ∈ delim := by
  induction parts with
  | nil => cases h
  | cons part parts ih =>
      cases parts with
      | nil =>
          rw [List.intercalate_singleton] at h
          exact .inl ⟨part, List.mem_cons_self, h⟩
      | cons part' parts =>
          rw [List.intercalate_cons_cons, List.mem_append, List.mem_append] at h
          rcases h with (h | h) | h
          · exact .inl ⟨part, List.mem_cons_self, h⟩
          · exact .inr h
          · exact (ih h).imp_left fun ⟨p, hp, hc⟩ =>
              ⟨p, List.mem_cons_of_mem part hp, hc⟩

/-- Splits give back what was joined, also if no more of them are made than
there are delimiters. -/
theorem split_intercalate (hne : delim ≠ []) (hparts : parts ≠ [])
    (h : ∀ part ∈ parts, ∀ c ∈ part, c ∉ delim) :
    split delim (parts.length - 1) (delim.intercalate parts) = parts := by
  induction parts with
  | nil => exact absurd rfl hparts
  | cons part parts ih =>
      obtain ⟨hpart, hrest⟩ := List.forall_mem_cons.mp h
      cases parts with
      | nil => rw [List.intercalate_singleton]; rfl
      | cons part' parts =>
          have hsplit := ih (List.cons_ne_nil _ _) hrest
          rw [List.intercalate_cons_cons]
          show split delim (parts.length + 1) _ = _
          rw [split, cut_append hne hpart]
          exact congrArg (part :: ·) hsplit

end Delimited
