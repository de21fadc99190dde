/-
Records, flattened and rebuilt.

`unflatten` goes down a path again for every leaf. A dict that is there is
gone into, but an element of a list is set to the default of the path, and
what was in it is lost. So a record is rebuilt, in whatever order its leaves
are visited, exactly if no element of a list has more than one leaf
(`flatten_round_trips_iff`).

# The proof

`Built t paths` says of a value that it is what `t` looks like when these
of its paths have been gone down. A path that is gone down is added to it
(`putPath_built`): behind a name the value that is there is built on, and
behind an index it is made anew, which is right if no other path leads
through that element. All paths together build the record
(`equals_of_built`), in any order, since `Built` does not say in which
order they came. Conversely a shared element loses what was built by any
path but the last, and the last one alone is not all of it
(`putPath_shares`).
-/
import Lwpb.Proofs.Python.Paths

namespace Lwpb.Python

-- =============================================================== equality

mutual

/-- `==`. -/
def equals (a : PyValue) : PyValue → Bool
  | .leaf v =>
      match a with
      | .leaf u => u == v
      | _ => false
  | .list elems =>
      match a with
      | .list xs => equalElems xs elems
      | _ => false
  | .dict items =>
      match a with
      | .dict xs => xs.length == items.length && equalItems xs items
      | _ => false

def equalElems (xs : List PyValue) : List PyValue → Bool
  | [] => xs.isEmpty
  | elem :: elems =>
      match xs with
      | [] => false
      | x :: xs => equals x elem && equalElems xs elems

def equalItems (xs : List (Key × PyValue)) : List (Key × PyValue) → Bool
  | [] => true
  | (k, v) :: items =>
      (match xs.lookup k with
        | none => false
        | some x => equals x v) && equalItems xs items

end

/-- A list in the value has an element with more than one leaf. -/
inductive SharesElement : PyValue → Prop where
  | here {elems : List PyValue} {elem : PyValue} : elem ∈ elems →
      1 < (leafPaths elem).length → SharesElement (.list elems)
  | elem {elems : List PyValue} {elem : PyValue} : elem ∈ elems →
      SharesElement elem → SharesElement (.list elems)
  | item {items : List (Key × PyValue)} {p : Key × PyValue} : p ∈ items →
      SharesElement p.2 → SharesElement (.dict items)

variable {a : PyValue} {xs elems : List PyValue}
  {ys items : List (Key × PyValue)}

/-- Lists are compared element by element. -/
theorem equalElems_iff : equalElems xs elems = true ↔
    List.Forall₂ (fun x elem => equals x elem = true) xs elems := by
  induction elems generalizing xs with
  | nil =>
      rw [equalElems, List.isEmpty_iff, List.forall₂_nil_right_iff]
  | cons elem elems ih =>
      cases xs with
      | nil => exact iff_of_false (by simp [equalElems]) nofun
      | cons x xs =>
          rw [equalElems, Bool.and_eq_true, ih, List.forall₂_cons]

/-- Items are compared by looking each one up. -/
theorem equalItems_iff : equalItems ys items = true ↔
    ∀ p ∈ items, ∃ x, ys.lookup p.1 = some x ∧ equals x p.2 = true := by
  induction items with
  | nil => exact iff_of_true rfl nofun
  | cons p items ih =>
      obtain ⟨k, v⟩ := p
      rw [equalItems, Bool.and_eq_true, ih, List.forall_mem_cons]
      refine and_congr_left fun _ => ?_
      cases ys.lookup k with
      | none => simp
      | some x => simp

/-- Only a list is equal to a list. -/
theorem equals_list : equals a (.list elems) = true ↔ ∃ xs, a = .list xs ∧
    List.Forall₂ (fun x elem => equals x elem = true) xs elems := by
  cases a with
  | list xs =>
      rw [equals, equalElems_iff]
      exact ⟨fun h => ⟨xs, rfl, h⟩, fun ⟨_, heq, h⟩ =>
        PyValue.list.inj heq ▸ h⟩
  | leaf v => exact iff_of_false Bool.false_ne_true fun ⟨_, h, _⟩ => by cases h
  | dict ys => exact iff_of_false Bool.false_ne_true fun ⟨_, h, _⟩ => by cases h

/-- Only a dict is equal to a dict: as long, and with an equal value under
each key. -/
theorem equals_dict : equals a (.dict items) = true ↔ ∃ ys, a = .dict ys ∧
    ys.length = items.length ∧
    ∀ p ∈ items, ∃ x, ys.lookup p.1 = some x ∧ equals x p.2 = true := by
  cases a with
  | dict ys =>
      rw [equals, Bool.and_eq_true, equalItems_iff, beq_iff_eq]
      exact ⟨fun h => ⟨ys, rfl, h⟩, fun ⟨_, heq, h⟩ =>
        PyValue.dict.inj heq ▸ h⟩
  | leaf v => exact iff_of_false Bool.false_ne_true fun ⟨_, h, _⟩ => by cases h
  | list xs => exact iff_of_false Bool.false_ne_true fun ⟨_, h, _⟩ => by cases h

/-- A record is equal to itself, as its keys are different. -/
theorem equals_refl {w : PyValue} (h : Record w) : equals w w = true := by
  induction h with
  | leaf v => exact beq_self_eq_true v
  | list hne hrec ih =>
      exact equals_list.mpr ⟨_, rfl, List.forall₂_same.mpr ih⟩
  | @dict items hne hkeys hnames hrec ih =>
      refine equals_dict.mpr ⟨items, rfl, rfl, fun p hp =>
        ⟨p.2, Assoc.lookup_of_mem hkeys hp, ih p hp⟩⟩

-- =================================================================== paths

variable {v : Leaf} {rest : List Bytes} {k : Bytes}

/-- A path that begins with an index leads into a list, which is extended as
far as it must be. -/
theorem putPath_index (i : Nat) : putPath v (digits i :: rest) (.list xs)
    = (putPath v rest (pathDefault v rest)).map
        fun p => .list ((extend i xs).set i p) := by
  rw [putPath, if_pos (isdigit_digits i), int_digits]
  cases putPath v rest (pathDefault v rest) <;> rfl

/-- A path that begins with a name leads into a dict, which gets the name if
it is new. -/
theorem putPath_name (hk : IsName k) : putPath v (k :: rest) (.dict ys)
    = (putPath v rest ((ys.lookup (.str k)).getD (pathDefault v rest))).map
        fun p => .dict (Assoc.set (.str k) p ys) := by
  rw [putPath, hk.notDigits, if_neg Bool.false_ne_true]
  cases putPath v rest ((ys.lookup (.str k)).getD (pathDefault v rest)) <;> rfl

/-- The list is long enough then. -/
theorem lt_length_extend (i : Nat) (xs : List PyValue) :
    i < (extend i xs).length := by
  rw [extend, List.length_append, List.length_replicate]
  omega

/-- What was put at an index is there. -/
theorem getElem?_extend_set {i : Nat} {p : PyValue} :
    ((extend i xs).set i p)[i]? = some p :=
  List.getElem?_set_self (lt_length_extend i xs)

/-- The other elements stay. -/
theorem getElem?_extend_set_ne {i j : Nat} {p x : PyValue} (hne : j ≠ i)
    (hj : xs[j]? = some x) : ((extend i xs).set i p)[j]? = some x := by
  obtain ⟨hlt, -⟩ := List.getElem?_eq_some_iff.mp hj
  rw [List.getElem?_set_ne (Ne.symm hne), extend, List.getElem?_append_left hlt,
    hj]

/-- What a path leaves behind an index is made of the rest of it alone. -/
theorem putPath_index_inv {i : Nat} {p : PyValue}
    (h : putPath v (digits i :: rest) p = some (.list xs)) :
    ∃ x, putPath v rest (pathDefault v rest) = some x ∧ xs[i]? = some x := by
  cases p with
  | list elems =>
      rw [putPath_index] at h
      obtain ⟨x, hx, heq⟩ := Option.map_eq_some_iff.mp h
      obtain rfl := PyValue.list.inj heq
      exact ⟨x, hx, getElem?_extend_set⟩
  | leaf u =>
      rw [putPath, if_pos (isdigit_digits i)] at h
      cases h
  | dict items =>
      rw [putPath, if_pos (isdigit_digits i)] at h
      by_cases hlen : items.length ≤ int (digits i)
      · rw [if_pos hlen] at h
        cases h
      · rw [if_neg hlen] at h
        obtain ⟨x, -, heq⟩ := Option.bind_eq_some_iff.mp h
        cases heq

/-- What it leaves behind a name is made by the rest of it. -/
theorem putPath_name_inv (hk : IsName k) {p : PyValue}
    (h : putPath v (k :: rest) p = some (.dict ys)) :
    ∃ q x, putPath v rest q = some x ∧ ys.lookup (.str k) = some x := by
  cases p with
  | dict items =>
      rw [putPath_name hk] at h
      obtain ⟨x, hx, heq⟩ := Option.map_eq_some_iff.mp h
      obtain rfl := PyValue.dict.inj heq
      exact ⟨_, x, hx, Assoc.lookup_set_self⟩
  | leaf u =>
      rw [putPath, hk.notDigits] at h
      cases h
  | list elems =>
      rw [putPath, hk.notDigits] at h
      cases h

/-- Where a path goes on with an index, a list is begun. -/
theorem pathDefault_index (i : Nat) :
    pathDefault v (digits i :: rest) = .list [] :=
  if_pos (isdigit_digits i)

/-- Where it goes on with a name, a dict is. -/
theorem pathDefault_name (hk : IsName k) :
    pathDefault v (k :: rest) = .dict [] := by
  rw [pathDefault, hk.notDigits, if_neg Bool.false_ne_true]

-- ============================================================ single leaves

/-- A list with one leaf has one element. -/
theorem list_single {path : List Bytes} (hrec : ∀ e ∈ elems, Record e)
    (h : leafPaths (.list elems) = [(path, v)]) :
    ∃ elem rest, elems = [elem] ∧ path = digits 0 :: rest ∧
      leafPaths elem = [(rest, v)] := by
  cases elems with
  | nil => cases h
  | cons elem elems =>
      rw [leafPaths, elemPaths] at h
      obtain ⟨p, ps, hps⟩ := List.exists_cons_of_ne_nil
        (leafPaths_ne_nil (hrec elem List.mem_cons_self))
      rw [hps, List.map_cons, List.cons_append] at h
      obtain ⟨hp, hnil⟩ := List.cons.inj h
      obtain ⟨rfl, rfl⟩ := Prod.mk.inj hp
      obtain ⟨hmap, hrest⟩ := List.append_eq_nil_iff.mp hnil
      rw [List.map_eq_nil_iff.mp hmap] at hps
      cases elems with
      | nil => exact ⟨elem, p.1, rfl, rfl, hps⟩
      | cons elem' elems =>
          rw [elemPaths] at hrest
          exact absurd (List.map_eq_nil_iff.mp (List.append_eq_nil_iff.mp
            hrest).1) (leafPaths_ne_nil (hrec elem'
              (List.mem_cons_of_mem _ List.mem_cons_self)))

/-- A dict with one leaf has one item. -/
theorem dict_single {path : List Bytes} (hrec : ∀ p ∈ items, Record p.2)
    (h : leafPaths (.dict items) = [(path, v)]) :
    ∃ k w rest, items = [(k, w)] ∧ path = k.text :: rest ∧
      leafPaths w = [(rest, v)] := by
  cases items with
  | nil => cases h
  | cons item items =>
      obtain ⟨k, w⟩ := item
      rw [leafPaths, itemPaths] at h
      obtain ⟨p, ps, hps⟩ := List.exists_cons_of_ne_nil
        (leafPaths_ne_nil (hrec (k, w) List.mem_cons_self))
      simp only at hps
      rw [hps, List.map_cons, List.cons_append] at h
      obtain ⟨hp, hnil⟩ := List.cons.inj h
      obtain ⟨rfl, rfl⟩ := Prod.mk.inj hp
      obtain ⟨hmap, hrest⟩ := List.append_eq_nil_iff.mp hnil
      rw [List.map_eq_nil_iff.mp hmap] at hps
      cases items with
      | nil => exact ⟨k, w, p.1, rfl, rfl, hps⟩
      | cons item' items =>
          rw [itemPaths] at hrest
          exact absurd (List.map_eq_nil_iff.mp (List.append_eq_nil_iff.mp
            hrest).1) (leafPaths_ne_nil (hrec item'
              (List.mem_cons_of_mem _ List.mem_cons_self)))

/-- A value with one leaf is what its path makes. -/
theorem putPath_single {w : PyValue} (h : Record w) {path : List Bytes}
    (hpath : leafPaths w = [(path, v)]) :
    putPath v path (pathDefault v path) = some w := by
  induction h generalizing path with
  | leaf u =>
      obtain ⟨rfl, rfl⟩ := Prod.mk.inj (List.cons.inj hpath).1
      rfl
  | list hne hrec ih =>
      obtain ⟨elem, rest, rfl, rfl, hrest⟩ := list_single hrec hpath
      rw [pathDefault_index, putPath_index, ih elem List.mem_cons_self hrest]
      rfl
  | dict hne hkeys hnames hrec ih =>
      obtain ⟨k, w, rest, rfl, rfl, hrest⟩ := dict_single hrec hpath
      obtain ⟨name, rfl, hname⟩ := hnames _ List.mem_cons_self
      have hput := ih _ List.mem_cons_self hrest
      show putPath v (name :: rest) (pathDefault v (name :: rest)) = _
      rw [pathDefault_name hname, putPath_name hname, List.lookup_nil,
        Option.getD_none, hput]
      rfl

-- ==================================================================== lost

/-- An element that is not made is missing. -/
theorem putPath_index_lost {i : Nat} {elem : PyValue}
    (hi : elems[i]? = some elem)
    (hlost : ∀ x, putPath v rest (pathDefault v rest) = some x →
      equals x elem = false) {dst r : PyValue}
    (h : putPath v (digits i :: rest) dst = some r) :
    equals r (.list elems) = false := by
  by_contra heq
  obtain ⟨xs, rfl, hall⟩ := equals_list.mp (Bool.eq_true_of_not_eq_false heq)
  obtain ⟨x, hx, hxi⟩ := putPath_index_inv h
  obtain ⟨hlt, rfl⟩ := List.getElem?_eq_some_iff.mp hxi
  obtain ⟨hlt', rfl⟩ := List.getElem?_eq_some_iff.mp hi
  exact absurd (hall.get hlt hlt') (by
    rw [List.get_eq_getElem, List.get_eq_getElem, hlost _ hx]
    exact Bool.false_ne_true)

/-- By itself a path with an index makes a list of one element, -/
theorem putPath_zero_default {x : PyValue}
    (h : putPath v (digits 0 :: rest) (pathDefault v (digits 0 :: rest))
      = some x) : ∃ p, x = .list [p] := by
  rw [pathDefault_index, putPath_index] at h
  obtain ⟨p, -, rfl⟩ := Option.map_eq_some_iff.mp h
  exact ⟨p, rfl⟩

/-- and one with a name a dict of one item. -/
theorem putPath_name_default (hk : IsName k) {x : PyValue}
    (h : putPath v (k :: rest) (pathDefault v (k :: rest)) = some x) :
    ∃ p, putPath v rest (pathDefault v rest) = some p ∧
      x = .dict [(.str k, p)] := by
  rw [pathDefault_name hk, putPath_name hk] at h
  obtain ⟨p, hp, rfl⟩ := Option.map_eq_some_iff.mp h
  exact ⟨p, hp, rfl⟩

/-- Dicts of one key are compared by their values. -/
theorem equals_one_item (k : Key) (p w : PyValue) :
    equals (.dict [(k, p)]) (.dict [(k, w)]) = equals p w := by
  simp [equals, equalItems]

/-- Of a value with more than one leaf, some path makes something else. -/
theorem putPath_lost {w : PyValue} (h : Record w)
    (hmany : 1 < (leafPaths w).length) :
    ∃ p ∈ leafPaths w, ∀ x,
      putPath p.2 p.1 (pathDefault p.2 p.1) = some x → equals x w = false := by
  induction h with
  | leaf u => exact absurd hmany (Nat.lt_irrefl 1)
  | @list elems hne hrec ih =>
      obtain ⟨elem, elems, rfl⟩ := List.exists_cons_of_ne_nil hne
      cases elems with
      | nil =>
          have hmany' : 1 < (leafPaths elem).length := by
            simpa [leafPaths, elemPaths] using hmany
          obtain ⟨⟨rest, v⟩, hrest, hlost⟩ := ih elem List.mem_cons_self hmany'
          refine ⟨(digits 0 :: rest, v), mem_leafPaths_list.mpr
            ⟨0, elem, rest, rfl, rfl, hrest⟩, ?_⟩
          intro x hput
          exact putPath_index_lost rfl hlost hput
      | cons elem' elems =>
          -- a path makes one element, and there are two
          have hsub := leafPaths_ne_nil (hrec elem List.mem_cons_self)
          obtain ⟨⟨rest, v⟩, hrest⟩ := List.exists_mem_of_ne_nil _ hsub
          refine ⟨(digits 0 :: rest, v), mem_leafPaths_list.mpr
            ⟨0, elem, rest, rfl, rfl, hrest⟩, ?_⟩
          intro x hput
          obtain ⟨p, rfl⟩ := putPath_zero_default hput
          simp [equals, equalElems]
  | @dict items hne hkeys hnames hrec ih =>
      obtain ⟨⟨k, w⟩, items, rfl⟩ := List.exists_cons_of_ne_nil hne
      obtain ⟨name, rfl, hname⟩ := hnames _ List.mem_cons_self
      cases items with
      | nil =>
          have hmany' : 1 < (leafPaths w).length := by
            simpa [leafPaths, itemPaths] using hmany
          obtain ⟨⟨rest, v⟩, hrest, hlost⟩ := ih _ List.mem_cons_self hmany'
          refine ⟨(name :: rest, v), mem_leafPaths_dict.mpr
            ⟨.str name, w, rest, List.mem_cons_self, rfl, hrest⟩, ?_⟩
          intro x hput
          obtain ⟨p, hp, rfl⟩ := putPath_name_default hname hput
          rw [equals_one_item]
          exact hlost p hp
      | cons item items =>
          -- a path makes one item, and there are two
          have hsub := leafPaths_ne_nil (hrec _ List.mem_cons_self)
          obtain ⟨⟨rest, v⟩, hrest⟩ := List.exists_mem_of_ne_nil _ hsub
          refine ⟨(name :: rest, v), mem_leafPaths_dict.mpr
            ⟨.str name, w, rest, List.mem_cons_self, rfl, hrest⟩, ?_⟩
          intro x hput
          obtain ⟨p, -, rfl⟩ := putPath_name_default hname hput
          simp [equals]

/-- Where an element of a list has more than one leaf, some path is not to
be the last. -/
theorem putPath_shares {w : PyValue} (h : Record w)
    (hshares : SharesElement w) :
    ∃ p ∈ leafPaths w, ∀ dst r,
      putPath p.2 p.1 dst = some r → equals r w = false := by
  induction hshares with
  | @here elems elem hmem hmany =>
      cases h with
      | list hne hrec =>
          obtain ⟨i, hi⟩ := List.mem_iff_getElem?.mp hmem
          obtain ⟨⟨rest, v⟩, hrest, hlost⟩ :=
            putPath_lost (hrec elem hmem) hmany
          exact ⟨(digits i :: rest, v), mem_leafPaths_list.mpr
            ⟨i, elem, rest, hi, rfl, hrest⟩, fun dst r hput =>
              putPath_index_lost hi hlost hput⟩
  | @elem elems elem hmem hshares ih =>
      cases h with
      | list hne hrec =>
          obtain ⟨i, hi⟩ := List.mem_iff_getElem?.mp hmem
          obtain ⟨⟨rest, v⟩, hrest, hlost⟩ := ih (hrec elem hmem)
          exact ⟨(digits i :: rest, v), mem_leafPaths_list.mpr
            ⟨i, elem, rest, hi, rfl, hrest⟩, fun dst r hput =>
              putPath_index_lost hi (hlost _) hput⟩
  | @item items p hmem hshares ih =>
      cases h with
      | dict hne hkeys hnames hrec =>
          obtain ⟨k, w⟩ := p
          obtain ⟨name, rfl, hname⟩ := hnames _ hmem
          obtain ⟨⟨rest, v⟩, hrest, hlost⟩ := ih (hrec _ hmem)
          refine ⟨(name :: rest, v), mem_leafPaths_dict.mpr
            ⟨.str name, w, rest, hmem, rfl, hrest⟩, fun dst r hput => ?_⟩
          by_contra heq
          obtain ⟨ys, rfl, -, hall⟩ :=
            equals_dict.mp (Bool.eq_true_of_not_eq_false heq)
          obtain ⟨q, x, hx, hlookup⟩ := putPath_name_inv hname hput
          obtain ⟨x', hx', hsame⟩ := hall _ hmem
          obtain rfl := Option.some.inj (hlookup.symm.trans hx')
          rw [hlost q x hx] at hsame
          cases hsame

-- =================================================================== built

/-- The rests of the paths that begin with a part. -/
def tails (part : Bytes) (paths : List (List Bytes)) : List (List Bytes) :=
  paths.filterMap fun
    | [] => none
    | part' :: rest => if part' = part then some rest else none

/-- A value that is built as far as these paths were visited. -/
inductive Built : (record : PyValue) → List (List Bytes) → PyValue → Prop where
  | leaf (v : Leaf) (paths : List (List Bytes)) :
      Built (.leaf v) paths (.leaf v)
  | list {elems xs : List PyValue} {paths : List (List Bytes)} :
      xs.length ≤ elems.length →
      (∀ i elem, elems[i]? = some elem → tails (digits i) paths ≠ [] →
        xs[i]? = some elem) →
      Built (.list elems) paths (.list xs)
  | dict {items ys : List (Key × PyValue)} {paths : List (List Bytes)} :
      (ys.map Prod.fst).Nodup →
      (∀ k ∈ ys.map Prod.fst, k ∈ items.map Prod.fst) →
      (∀ k w x, (.str k, w) ∈ items → ys.lookup (.str k) = some x →
        Built w (tails k paths) x) →
      (∀ k w, (.str k, w) ∈ items → ys.lookup (.str k) = none →
        tails k paths = []) →
      Built (.dict items) paths (.dict ys)

/-- A tail is what follows a first component. -/
theorem mem_tails {part : Bytes} {paths : List (List Bytes)} :
    rest ∈ tails part paths ↔ part :: rest ∈ paths := by
  unfold tails
  rw [List.mem_filterMap]
  constructor
  · intro h
    obtain ⟨path, hmem, hrest⟩ := h
    cases path with
    | nil => cases hrest
    | cons part' rest' =>
        simp only at hrest
        by_cases hpart : part' = part
        · rw [if_pos hpart] at hrest
          rwa [← hpart, ← Option.some.inj hrest]
        · rw [if_neg hpart] at hrest
          cases hrest
  · intro h
    exact ⟨part :: rest, h, if_pos rfl⟩

/-- The tails of a path that begins with the component are its tail and those
of the others. -/
theorem tails_cons_self (part : Bytes) (rest : List Bytes)
    (paths : List (List Bytes)) :
    tails part ((part :: rest) :: paths) = rest :: tails part paths :=
  List.filterMap_cons_some (if_pos rfl)

/-- A path that begins otherwise has none. -/
theorem tails_cons_ne {part part' : Bytes} (h : part' ≠ part)
    (rest : List Bytes) (paths : List (List Bytes)) :
    tails part ((part' :: rest) :: paths) = tails part paths :=
  List.filterMap_cons_none (if_neg h)

/-- What a path goes into is built as far as no path. -/
theorem built_default {w : PyValue} (h : Record w) {path : List Bytes}
    (hpath : (path, v) ∈ leafPaths w) : Built w [] (pathDefault v path) := by
  cases h with
  | leaf u =>
      obtain ⟨rfl, rfl⟩ := Prod.mk.inj (List.mem_singleton.mp hpath)
      exact .leaf v []
  | list hne hrec =>
      obtain ⟨i, elem, rest, -, rfl, -⟩ := mem_leafPaths_list.mp hpath
      rw [pathDefault_index]
      exact .list (Nat.zero_le _) fun _ _ _ h => absurd rfl h
  | dict hne hkeys hnames hrec =>
      obtain ⟨k, w, rest, hmem, rfl, -⟩ := mem_leafPaths_dict.mp hpath
      obtain ⟨name, rfl, hname⟩ := hnames _ hmem
      show Built _ [] (pathDefault v (name :: rest))
      rw [pathDefault_name hname]
      exact .dict List.nodup_nil (fun _ h => by cases h)
        (fun _ _ _ _ h => by cases h) fun _ _ _ _ => rfl

/-- An element that is not shared is made by one path, so a path to it
builds it. -/
theorem putPath_built_index (hrec : ∀ elem ∈ elems, Record elem)
    (hshares : ¬ SharesElement (.list elems)) {i : Nat} {elem : PyValue}
    (hi : elems[i]? = some elem) (hrest : (rest, v) ∈ leafPaths elem)
    {paths : List (List Bytes)}
    (hbuilt : Built (.list elems) paths (.list xs)) :
    ∃ p', putPath v (digits i :: rest) (.list xs) = some p' ∧
      Built (.list elems) ((digits i :: rest) :: paths) p' := by
  have hmem := List.mem_of_getElem? hi
  have hsingle : leafPaths elem = [(rest, v)] := by
    have hle : (leafPaths elem).length ≤ 1 := by
      by_contra hlt
      exact hshares (.here hmem (Nat.not_le.mp hlt))
    obtain ⟨q, hq⟩ := List.length_eq_one_iff.mp
      (Nat.le_antisymm hle (List.length_pos_of_mem hrest))
    rw [hq] at hrest ⊢
    rw [List.mem_singleton.mp hrest]
  cases hbuilt with
  | list hlen hvisited =>
      obtain ⟨hlt, -⟩ := List.getElem?_eq_some_iff.mp hi
      rw [putPath_index, putPath_single (hrec elem hmem) hsingle]
      refine ⟨_, rfl, .list ?_ ?_⟩
      · rw [List.length_set, extend, List.length_append,
          List.length_replicate]
        omega
      · intro j elem' hj htails
        by_cases hji : j = i
        · subst hji
          rw [getElem?_extend_set, ← hi, hj]
        · rw [tails_cons_ne fun heq => hji (digits_inj heq).symm] at htails
          exact getElem?_extend_set_ne hji (hvisited j elem' hj htails)

/-- An item is built on with every path to it. -/
theorem putPath_built_name {name : Bytes} (hname : IsName name) {w : PyValue}
    (hkeys : (items.map Prod.fst).Nodup) (hmem : (.str name, w) ∈ items)
    {paths : List (List Bytes)}
    (hbuilt : Built (.dict items) paths (.dict ys)) {x : PyValue}
    (hx : putPath v rest
      ((ys.lookup (.str name)).getD (pathDefault v rest)) = some x)
    (hbuiltx : Built w (rest :: tails name paths) x) :
    ∃ p', putPath v (name :: rest) (.dict ys) = some p' ∧
      Built (.dict items) ((name :: rest) :: paths) p' := by
  cases hbuilt with
  | dict hnodup hsub hthere hmissing =>
      have hput : putPath v (name :: rest) (.dict ys)
          = some (.dict (Assoc.set (.str name) x ys)) := by
        rw [putPath_name hname, hx]
        rfl
      refine ⟨_, hput, .dict (Assoc.nodup_set hnodup) ?_ ?_ ?_⟩
      · intro k hk
        rcases Assoc.mem_set.mp hk with rfl | hk
        · exact List.mem_map_of_mem hmem
        · exact hsub k hk
      · intro k w' x' hmem' hlookup
        by_cases hk : name = k
        · subst hk
          rw [Assoc.lookup_set_self] at hlookup
          obtain rfl := Option.some.inj hlookup
          obtain rfl := Option.some.inj
            ((Assoc.lookup_of_mem hkeys hmem).symm.trans
              (Assoc.lookup_of_mem hkeys hmem'))
          rw [tails_cons_self]
          exact hbuiltx
        · rw [Assoc.lookup_set_ne fun heq => hk (Key.str.inj heq)] at hlookup
          rw [tails_cons_ne hk]
          exact hthere k w' x' hmem' hlookup
      · intro k w' hmem' hlookup
        by_cases hk : name = k
        · subst hk
          rw [Assoc.lookup_set_self] at hlookup
          cases hlookup
        · rw [Assoc.lookup_set_ne fun heq => hk (Key.str.inj heq)] at hlookup
          rw [tails_cons_ne hk]
          exact hmissing k w' hmem' hlookup

/-- Another path is built into it. -/
theorem putPath_built {w : PyValue} (h : Record w)
    (hshares : ¬ SharesElement w) {path : List Bytes}
    (hpath : (path, v) ∈ leafPaths w) {paths : List (List Bytes)}
    {p : PyValue} (hbuilt : Built w paths p) :
    ∃ p', putPath v path p = some p' ∧ Built w (path :: paths) p' := by
  induction h generalizing path paths p with
  | leaf u =>
      obtain ⟨rfl, rfl⟩ := Prod.mk.inj (List.mem_singleton.mp hpath)
      cases hbuilt
      exact ⟨_, rfl, .leaf v _⟩
  | list hne hrec ih =>
      obtain ⟨i, elem, rest, hi, rfl, hrest⟩ := mem_leafPaths_list.mp hpath
      have hlist := hbuilt
      cases hlist with
      | list _ _ => exact putPath_built_index hrec hshares hi hrest hbuilt
  | @dict items hne hkeys hnames hrec ih =>
      obtain ⟨k, w, rest, hmem, rfl, hrest⟩ := mem_leafPaths_dict.mp hpath
      obtain ⟨name, rfl, hname⟩ := hnames _ hmem
      have hdict := hbuilt
      cases hdict with
      | @dict _ ys _ _ _ hthere hmissing =>
          have hinto : Built w (tails name paths)
              ((ys.lookup (.str name)).getD (pathDefault v rest)) := by
            cases hlookup : ys.lookup (.str name) with
            | none =>
                rw [hmissing name w hmem hlookup]
                exact built_default (hrec _ hmem) hrest
            | some x => exact hthere name w x hmem hlookup
          obtain ⟨x, hx, hbuiltx⟩ := ih _ hmem
            (fun hw => hshares (.item hmem hw)) hrest hinto
          exact putPath_built_name hname hkeys hmem hbuilt hx hbuiltx

/-- What is built as far as all paths is the record. -/
theorem equals_of_built {w : PyValue} (h : Record w)
    {paths : List (List Bytes)} (hall : ∀ p ∈ leafPaths w, p.1 ∈ paths)
    {p : PyValue} (hbuilt : Built w paths p) : equals p w = true := by
  induction h generalizing paths p with
  | leaf u =>
      cases hbuilt
      exact equals_refl (.leaf u)
  | @list elems hne hrec ih =>
      cases hbuilt with
      | @list _ xs _ hlen hvisited =>
          have hsame : xs = elems := by
            refine List.ext_getElem? fun i => ?_
            cases hi : elems[i]? with
            | none =>
                rw [List.getElem?_eq_none_iff] at hi ⊢
                omega
            | some elem =>
                have hmem := List.mem_of_getElem? hi
                obtain ⟨⟨rest, v⟩, hrest⟩ := List.exists_mem_of_ne_nil _
                  (leafPaths_ne_nil (hrec elem hmem))
                have hpath := hall _ (mem_leafPaths_list.mpr
                  ⟨i, elem, rest, hi, rfl, hrest⟩)
                exact hvisited i elem hi
                  (List.ne_nil_of_mem (mem_tails.mpr hpath))
          rw [hsame]
          exact equals_refl (.list hne hrec)
  | @dict items hne hkeys hnames hrec ih =>
      cases hbuilt with
      | @dict _ ys _ hnodup hsub hthere hmissing =>
          have hfound : ∀ p ∈ items, ∃ x, ys.lookup p.1 = some x ∧
              equals x p.2 = true := by
            intro p hp
            obtain ⟨k, w⟩ := p
            obtain ⟨name, rfl, hname⟩ := hnames _ hp
            have hpaths : ∀ q ∈ leafPaths w, q.1 ∈ tails name paths :=
              fun q hq => mem_tails.mpr (hall (name :: q.1, q.2)
                (mem_leafPaths_dict.mpr ⟨.str name, w, q.1, hp, rfl, hq⟩))
            obtain ⟨q, hq⟩ := List.exists_mem_of_ne_nil _
              (leafPaths_ne_nil (hrec _ hp))
            cases hlookup : ys.lookup (.str name) with
            | none =>
                exact absurd (hmissing name w hp hlookup)
                  (List.ne_nil_of_mem (hpaths q hq))
            | some x =>
                exact ⟨x, rfl, ih _ hp hpaths (hthere name w x hp hlookup)⟩
          have hback : ∀ k ∈ items.map Prod.fst, k ∈ ys.map Prod.fst := by
            intro k hk
            obtain ⟨p, hp, rfl⟩ := List.mem_map.mp hk
            obtain ⟨x, hx, -⟩ := hfound p hp
            by_contra hnot
            rw [Assoc.lookup_eq_none_of_not_mem hnot] at hx
            cases hx
          have hle := (List.subperm_of_subset hnodup hsub).length_le
          have hge := (List.subperm_of_subset hkeys hback).length_le
          rw [List.length_map, List.length_map] at hle hge
          exact equals_dict.mpr ⟨ys, rfl, Nat.le_antisymm hle hge, hfound⟩

-- ============================================================= round trips

/-- The items of what is flattened. -/
def Flat.entries : Flat → List (Key × Leaf)
  | .leaf _ => []
  | .dict items => items

/-- The path in a key. -/
def itemPath : Key × Leaf → List Bytes
  | (.str k, _) => k.splitOn 46
  | (.int _, _) => []

/-- Items of a record are built into it, one after the other. -/
theorem foldlM_built {w : PyValue} (h : Record w) (hshares : ¬ SharesElement w)
    {src : List (Key × Leaf)}
    (hsrc : ∀ p ∈ src, ∃ k, p.1 = .str k ∧ (itemPath p, p.2) ∈ leafPaths w)
    {paths : List (List Bytes)} {dst : PyValue} (hdst : Built w paths dst) :
    ∃ r paths', src.foldlM putItem dst = some r ∧ Built w paths' r ∧
      (∀ path ∈ paths, path ∈ paths') ∧ ∀ p ∈ src, itemPath p ∈ paths' := by
  induction src generalizing paths dst with
  | nil => exact ⟨dst, paths, rfl, hdst, fun _ h => h, fun _ h => by cases h⟩
  | cons p src ih =>
      obtain ⟨⟨k, hk, hpath⟩, hsrc⟩ := List.forall_mem_cons.mp hsrc
      obtain ⟨next, hnext, hbuilt⟩ := putPath_built h hshares hpath hdst
      obtain ⟨r, paths', hr, hbuilt', hkept, hall⟩ := ih hsrc hbuilt
      have hitem : putItem dst p = some next := by
        obtain ⟨key, v⟩ := p
        obtain rfl : key = .str k := hk
        exact hnext
      refine ⟨r, paths', ?_, hbuilt', fun path hmem =>
        hkept path (List.mem_cons_of_mem _ hmem),
        List.forall_mem_cons.mpr ⟨hkept _ List.mem_cons_self, hall⟩⟩
      rw [List.foldlM_cons, hitem]
      exact hr

/-- The items with a key come last. -/
def DictOrder.last (k : Key) : DictOrder where
  items d := d.filter (fun p => !decide (p.1 = k)) ++ d.filter fun p => p.1 = k
  perm d := (List.perm_append_comm).trans (List.filter_append_perm _ d)

/-- The key of a leaf is taken apart into the path to it. -/
theorem itemPath_pathKey {w : PyValue} (h : Record w)
    {p : List Bytes × Leaf} (hp : p ∈ leafPaths w) (hne : p.1 ≠ []) :
    itemPath (pathKey p) = p.1 :=
  splitOn_pathKey h hp hne

/-- The entries of a flattened dict. -/
theorem entries_flatten (order : DictOrder) {record : List (Key × PyValue)}
    (h : Record (.dict record)) :
    (∀ p ∈ leafPaths (.dict record), p.1 ≠ []) ∧
      (flatten order (.dict record)).entries.Perm
        ((leafPaths (.dict record)).map pathKey) := by
  cases flatten_paths order h with
  | dict hne hperm => exact ⟨hne, hperm⟩

/-- A record is flattened and rebuilt, whatever the order, if and only if
no element of a list in it has more than one leaf. -/
theorem flatten_round_trips_iff (order : DictOrder)
    {record : List (Key × PyValue)} (h : Record (.dict record)) :
    (∀ order' : DictOrder, ∃ r,
        unflatten order' (flatten order (.dict record)).entries = some r ∧
          equals r (.dict record) = true) ↔
      ¬ SharesElement (.dict record) := by
  obtain ⟨hne, hflat⟩ := entries_flatten order h
  generalize (flatten order (.dict record)).entries = flat at hflat ⊢
  have hmem : ∀ p ∈ leafPaths (.dict record), pathKey p ∈ flat := fun p hp =>
    hflat.mem_iff.mpr (List.mem_map_of_mem hp)
  constructor
  · intro hround hshares
    obtain ⟨p, hp, hlost⟩ := putPath_shares h hshares
    obtain ⟨r, hr, hsame⟩ := hround (DictOrder.last (pathKey p).1)
    have hkeys : (flat.map Prod.fst).Nodup :=
      (hflat.map Prod.fst).nodup_iff.mpr (pathKeys_nodup h hne)
    -- the path is visited last
    have hlast : flat.filter (fun x => x.1 = (pathKey p).1) = [pathKey p] :=
      Assoc.filter_key hkeys (hmem p hp)
    have hitems : (DictOrder.last (pathKey p).1).items flat
        = flat.filter (fun x => !decide (x.1 = (pathKey p).1)) ++ [pathKey p] :=
      congrArg (_ ++ ·) hlast
    rw [unflatten, hitems, List.foldlM_append] at hr
    obtain ⟨dst, -, hput⟩ := Option.bind_eq_some_iff.mp hr
    have hput' : putItem dst (pathKey p) = some r := by
      simpa using hput
    have hpath : putPath p.2 (itemPath (pathKey p)) dst = some r := hput'
    rw [itemPath_pathKey h hp (hne p hp)] at hpath
    rw [hlost dst r hpath] at hsame
    cases hsame
  · intro hshares order'
    have hitems := (order'.perm flat).trans hflat
    have hstart : Built (.dict record) [] (.dict []) :=
      .dict List.nodup_nil (fun _ h => by cases h)
        (fun _ _ _ _ h => by cases h) fun _ _ _ _ => rfl
    obtain ⟨r, paths, hr, hbuilt, -, hvisited⟩ := @foldlM_built _ h hshares
      (order'.items flat) (fun x hx => by
        obtain ⟨p, hp, rfl⟩ := List.mem_map.mp (hitems.mem_iff.mp hx)
        refine ⟨_, rfl, ?_⟩
        rw [itemPath_pathKey h hp (hne p hp)]
        exact hp) [] _ hstart
    refine ⟨r, hr, equals_of_built h (fun p hp => ?_) hbuilt⟩
    have hpath := hvisited (pathKey p)
      ((order'.perm flat).mem_iff.mpr (hmem p hp))
    rwa [itemPath_pathKey h hp (hne p hp)] at hpath

/-- A dict with a list of these elements under `a`. -/
def underA (elems : List PyValue) : List (Key × PyValue) :=
  [(.str [97], .list elems)]

/-- A list of records under one key is a record. -/
theorem record_underA {elems : List PyValue} (hne : elems ≠ [])
    (hrec : ∀ elem ∈ elems, Record elem) : Record (.dict (underA elems)) := by
  refine .dict (List.cons_ne_nil _ _) (List.nodup_singleton _)
    (fun p hp => ?_) fun p hp => ?_
  · rw [List.mem_singleton.mp hp]
    exact ⟨[97], rfl, by decide, by decide⟩
  · rw [List.mem_singleton.mp hp]
    exact .list hne hrec

/-- `{"a": [1, 2]}`. -/
theorem flatten_round_trips_iff_leaves :
    (∀ order' : DictOrder, ∃ r, unflatten order'
        (flatten listedOrder (.dict (underA
          [.leaf (.int 1), .leaf (.int 2)]))).entries = some r ∧
        equals r (.dict (underA [.leaf (.int 1), .leaf (.int 2)])) = true) ↔
      ¬ SharesElement (.dict (underA [.leaf (.int 1), .leaf (.int 2)])) := by
  refine flatten_round_trips_iff listedOrder (record_underA
    (List.cons_ne_nil _ _) fun elem helem => ?_)
  simp only [List.mem_cons, List.not_mem_nil, or_false] at helem
  rcases helem with rfl | rfl <;> exact .leaf _

/-- `{"b": 1, "c": 2}`. -/
def twoNames : PyValue :=
  .dict [(.str [98], .leaf (.int 1)), (.str [99], .leaf (.int 2))]

/-- `{"a": [{"b": 1, "c": 2}]}` comes back as `{"a": [{"c": 2}]}`. -/
theorem second_name_replaces_first :
    Record (.dict (underA [twoNames])) ∧
      unflatten listedOrder
          (flatten listedOrder (.dict (underA [twoNames]))).entries
        = some (.dict (underA [.dict [(.str [99], .leaf (.int 2))]])) ∧
      equals (.dict (underA [.dict [(.str [99], .leaf (.int 2))]]))
        (.dict (underA [twoNames])) = false := by
  refine ⟨record_underA (List.cons_ne_nil _ _) fun elem helem => ?_, by rfl,
    by rfl⟩
  rw [List.mem_singleton.mp helem]
  refine .dict (List.cons_ne_nil _ _) (by decide) (fun p hp => ?_)
    fun p hp => ?_
  · simp only [List.mem_cons, List.not_mem_nil, or_false] at hp
    rcases hp with rfl | rfl
    · exact ⟨[98], rfl, by decide, by decide⟩
    · exact ⟨[99], rfl, by decide, by decide⟩
  · simp only [List.mem_cons, List.not_mem_nil, or_false] at hp
    rcases hp with rfl | rfl <;> exact .leaf _

end Lwpb.Python
