/-
Flattened records, path by path.

A record is a dict with names for its keys; what is in it is nested to any
depth, and nowhere empty. Each of its leaves has a path: the keys and
indices on the way. `flatten` gives the leaves with their paths, joined with
dots, and from such a key the path is split off again (`flatten_paths`).

`branches` is what a list and a dict have in common: what is directly in a
value, each with the part of the path that leads to it. With it the mutual
recursion of `flatten` over lists and dicts becomes one
(`flattenElems_branches`, `flattenItems_branches`), and the facts about
keys are proved once for both: the branches of a value have different
names, no name has a dot in it, and so no two leaves have the same key
(`pathKeys_nodup`), which is what keeps one from overwriting another.
-/
import Lwpb.Proofs.Python.Flat

namespace Lwpb.Python

-- ================================================================= records

/-- Non-empty dicts with names for keys, non-empty lists, and leaves. -/
inductive Record : PyValue → Prop where
  | leaf (v : Leaf) : Record (.leaf v)
  | list {elems : List PyValue} : elems ≠ [] →
      (∀ elem ∈ elems, Record elem) → Record (.list elems)
  | dict {items : List (Key × PyValue)} : items ≠ [] →
      (items.map Prod.fst).Nodup →
      (∀ p ∈ items, ∃ k, p.1 = .str k ∧ IsName k) →
      (∀ p ∈ items, Record p.2) → Record (.dict items)

mutual

/-- The leaves of a value, with their paths. -/
def leafPaths : PyValue → List (List Bytes × Leaf)
  | .leaf v => [([], v)]
  | .list elems => elemPaths 0 elems
  | .dict items => itemPaths items

def elemPaths : Nat → List PyValue → List (List Bytes × Leaf)
  | _, [] => []
  | i, elem :: elems =>
      (leafPaths elem).map (fun p => (digits i :: p.1, p.2))
        ++ elemPaths (i + 1) elems

def itemPaths : List (Key × PyValue) → List (List Bytes × Leaf)
  | [] => []
  | (k, v) :: items =>
      (leafPaths v).map (fun p => (k.text :: p.1, p.2)) ++ itemPaths items

end

/-- A path, as it is written into a key. -/
def pathKey (p : List Bytes × Leaf) : Key × Leaf :=
  (.str ([46].intercalate p.1), p.2)

-- ================================================================== digits

/-- A digit is one of ten characters. -/
theorem toNat_of_isDigit {c : Char} (h : c.isDigit = true) :
    48 ≤ c.toNat ∧ c.toNat ≤ 57 := by
  simp only [Char.isDigit, Bool.and_eq_true, decide_eq_true_eq] at h
  exact ⟨h.1, h.2⟩

/-- Decimal notation has digits only. -/
theorem isDigit_of_mem {n : Nat} {c : Char} (h : c ∈ Nat.toDigits 10 n) :
    48 ≤ c.toNat ∧ c.toNat ≤ 57 :=
  toNat_of_isDigit (Nat.isDigit_of_mem_toDigits (by decide) (by decide) h)

/-- So has an index as it is written into a path. -/
theorem digit_of_mem {n : Nat} {b : UInt8} (h : b ∈ digits n) :
    48 ≤ b.toNat ∧ b.toNat ≤ 57 := by
  obtain ⟨c, hc, rfl⟩ := List.mem_map.mp h
  obtain ⟨hlo, hhi⟩ := isDigit_of_mem hc
  rw [UInt8.toNat_ofNat_of_lt' (Nat.lt_of_le_of_lt hhi (by decide))]
  exact ⟨hlo, hhi⟩

/-- An index is taken for one. -/
theorem isdigit_digits (n : Nat) : isdigit (digits n) = true := by
  have hne : digits n ≠ [] := fun h =>
    Nat.toDigits_ne_nil (List.map_eq_nil_iff.mp h)
  unfold isdigit
  rw [List.isEmpty_eq_false_iff.mpr hne, Bool.not_false, Bool.true_and,
    List.all_eq_true]
  intro b hb
  obtain ⟨hlo, hhi⟩ := digit_of_mem hb
  rw [Bool.and_eq_true, decide_eq_true_eq, decide_eq_true_eq]
  exact ⟨UInt8.le_iff_toNat_le.mpr hlo, UInt8.le_iff_toNat_le.mpr hhi⟩

/-- It is read back as the number it is. -/
theorem int_digits (n : Nat) : int (digits n) = n := by
  unfold int digits
  rw [List.foldl_map]
  refine Eq.trans ?_ Nat.ofDigitChars_ten_toDigits
  rw [Nat.ofDigitChars_eq_foldl]
  refine List.foldl_ext _ _ _ fun m c hc => ?_
  obtain ⟨hlo, hhi⟩ := isDigit_of_mem hc
  rw [UInt8.toNat_ofNat_of_lt' (Nat.lt_of_le_of_lt hhi (by decide))]
  rfl

/-- Different numbers are written differently. -/
theorem digits_inj {m n : Nat} (h : digits m = digits n) : m = n := by
  rw [← int_digits m, h, int_digits]

/-- An index has no dot in it. -/
theorem not_mem_digits (n : Nat) : 46 ∉ digits n := by
  intro h
  exact absurd (digit_of_mem h).1 (by decide)

-- ================================================================ branches

/-- What is directly in a value, with the part of a path that leads to it. -/
def branches : PyValue → List (Bytes × PyValue)
  | .leaf _ => []
  | .list elems => elems.mapIdx fun i elem => (digits i, elem)
  | .dict items => items.map fun p => (p.1.text, p.2)

/-- The leaves behind a branch. -/
def branchPaths (b : Bytes × PyValue) : List (List Bytes × Leaf) :=
  (leafPaths b.2).map fun p => (b.1 :: p.1, p.2)

/-- The paths into the elements of a list from an index on begin with their
indices. -/
theorem elemPaths_eq (i : Nat) (elems : List PyValue) :
    elemPaths i elems
      = (elems.mapIdx fun j elem => (digits (i + j), elem)).flatMap
          branchPaths := by
  induction elems generalizing i with
  | nil => rfl
  | cons elem elems ih =>
      rw [elemPaths, ih, List.mapIdx_cons, List.flatMap_cons]
      simp only [Nat.add_zero, Nat.add_right_comm, Nat.add_assoc]
      rfl

/-- The paths into the items of a dict begin with their keys. -/
theorem itemPaths_eq (items : List (Key × PyValue)) :
    itemPaths items = items.flatMap fun p =>
      (leafPaths p.2).map fun q => (p.1.text :: q.1, q.2) := by
  induction items with
  | nil => rfl
  | cons p items ih => rw [itemPaths, ih, List.flatMap_cons]

/-- The paths into a list are those into its branches. -/
theorem leafPaths_list (elems : List PyValue) :
    leafPaths (.list elems) = (branches (.list elems)).flatMap branchPaths := by
  rw [leafPaths, elemPaths_eq]
  simp only [Nat.zero_add]
  rfl

/-- So are the paths into a dict. -/
theorem leafPaths_dict (items : List (Key × PyValue)) :
    leafPaths (.dict items) = (branches (.dict items)).flatMap branchPaths := by
  rw [leafPaths, itemPaths_eq, branches, List.flatMap_map]
  rfl

variable {elems : List PyValue} {items : List (Key × PyValue)}
  {path : List Bytes} {v : Leaf}

/-- A path into a branch begins with its name. -/
theorem mem_branchPaths {b : Bytes × PyValue} :
    (path, v) ∈ branchPaths b ↔
      ∃ rest, path = b.1 :: rest ∧ (rest, v) ∈ leafPaths b.2 := by
  unfold branchPaths
  rw [List.mem_map]
  constructor
  · intro h
    obtain ⟨p, hp, heq⟩ := h
    obtain ⟨rfl, rfl⟩ := Prod.mk.inj heq
    exact ⟨p.1, rfl, hp⟩
  · intro h
    obtain ⟨rest, rfl, hrest⟩ := h
    exact ⟨(rest, v), hrest, rfl⟩

/-- A path into a list begins with an index. -/
theorem mem_leafPaths_list : (path, v) ∈ leafPaths (.list elems) ↔
    ∃ i elem rest, elems[i]? = some elem ∧ path = digits i :: rest ∧
      (rest, v) ∈ leafPaths elem := by
  rw [leafPaths_list, List.mem_flatMap]
  constructor
  · intro h
    obtain ⟨b, hb, hpath⟩ := h
    obtain ⟨i, hi, rfl⟩ := List.mem_mapIdx.mp hb
    obtain ⟨rest, rfl, hrest⟩ := mem_branchPaths.mp hpath
    exact ⟨i, _, rest, List.getElem?_eq_getElem hi, rfl, hrest⟩
  · intro h
    obtain ⟨i, elem, rest, hi, rfl, hrest⟩ := h
    obtain ⟨hlt, rfl⟩ := List.getElem?_eq_some_iff.mp hi
    exact ⟨_, List.mem_mapIdx.mpr ⟨i, hlt, rfl⟩,
      mem_branchPaths.mpr ⟨rest, rfl, hrest⟩⟩

/-- A path into a dict begins with a key. -/
theorem mem_leafPaths_dict : (path, v) ∈ leafPaths (.dict items) ↔
    ∃ k w rest, (k, w) ∈ items ∧ path = k.text :: rest ∧
      (rest, v) ∈ leafPaths w := by
  rw [leafPaths_dict, List.mem_flatMap]
  constructor
  · intro h
    obtain ⟨b, hb, hpath⟩ := h
    obtain ⟨p, hp, rfl⟩ := List.mem_map.mp hb
    obtain ⟨rest, rfl, hrest⟩ := mem_branchPaths.mp hpath
    exact ⟨p.1, p.2, rest, hp, rfl, hrest⟩
  · intro h
    obtain ⟨k, w, rest, hmem, rfl, hrest⟩ := h
    exact ⟨_, List.mem_map.mpr ⟨(k, w), hmem, rfl⟩,
      mem_branchPaths.mpr ⟨rest, rfl, hrest⟩⟩

/-- Every value has a leaf. -/
theorem leafPaths_ne_nil {w : PyValue} (h : Record w) : leafPaths w ≠ [] := by
  induction h with
  | leaf v => exact List.cons_ne_nil _ _
  | list hne hrec ih =>
      obtain ⟨elem, elems, rfl⟩ := List.exists_cons_of_ne_nil hne
      intro hnil
      have hnil' : (leafPaths elem).map _ ++ elemPaths 1 elems = [] := hnil
      exact ih elem List.mem_cons_self
        (List.map_eq_nil_iff.mp (List.append_eq_nil_iff.mp hnil').1)
  | dict hne hkeys hnames hrec ih =>
      obtain ⟨p, items, rfl⟩ := List.exists_cons_of_ne_nil hne
      intro hnil
      have hnil' : (leafPaths p.2).map _ ++ itemPaths items = [] := hnil
      exact ih p List.mem_cons_self
        (List.map_eq_nil_iff.mp (List.append_eq_nil_iff.mp hnil').1)

/-- The parts of a path have no dots. -/
theorem noDot_of_mem {w : PyValue} (h : Record w) {path : List Bytes}
    (hpath : (path, v) ∈ leafPaths w) : ∀ part ∈ path, 46 ∉ part := by
  induction h generalizing path with
  | leaf v' =>
      obtain ⟨rfl, -⟩ := Prod.mk.inj (List.mem_singleton.mp hpath)
      exact fun part hpart => by cases hpart
  | list hne hrec ih =>
      obtain ⟨i, elem, rest, hi, rfl, hrest⟩ := mem_leafPaths_list.mp hpath
      exact List.forall_mem_cons.mpr ⟨not_mem_digits i,
        ih elem (List.mem_of_getElem? hi) hrest⟩
  | dict hne hkeys hnames hrec ih =>
      obtain ⟨k, w, rest, hmem, rfl, hrest⟩ := mem_leafPaths_dict.mp hpath
      obtain ⟨name, rfl, hname⟩ := hnames _ hmem
      exact List.forall_mem_cons.mpr ⟨hname.noDot, ih _ hmem hrest⟩

/-- The branches of a list have different names: its indices. -/
theorem branches_list_nodup (elems : List PyValue) :
    ((branches (.list elems)).map Prod.fst).Nodup := by
  have hnames : (branches (.list elems)).map Prod.fst
      = (List.range elems.length).map digits := by
    refine List.ext_getElem (by simp [branches]) fun i h h' => ?_
    simp [branches]
  rw [hnames]
  exact List.nodup_range.map fun _ _ => digits_inj

/-- The branches of a dict have different names if its keys are names. -/
theorem branches_dict_nodup {items : List (Key × PyValue)}
    (hkeys : (items.map Prod.fst).Nodup)
    (hnames : ∀ p ∈ items, ∃ k, p.1 = .str k ∧ IsName k) :
    ((branches (.dict items)).map Prod.fst).Nodup := by
  have htexts : (branches (.dict items)).map Prod.fst
      = (items.map Prod.fst).map Key.text := by
    rw [branches, List.map_map, List.map_map]
    rfl
  rw [htexts]
  refine hkeys.map_on fun k hk k' hk' heq => ?_
  obtain ⟨p, hp, rfl⟩ := List.mem_map.mp hk
  obtain ⟨p', hp', rfl⟩ := List.mem_map.mp hk'
  obtain ⟨name, hname, -⟩ := hnames p hp
  obtain ⟨name', hname', -⟩ := hnames p' hp'
  rw [hname, hname'] at heq ⊢
  exact congrArg Key.str heq

/-- No path leads to two leaves, if none does behind a branch. -/
theorem branchPaths_nodup {bs : List (Bytes × PyValue)}
    (hnames : (bs.map Prod.fst).Nodup)
    (hsub : ∀ b ∈ bs, ((leafPaths b.2).map Prod.fst).Nodup) :
    ((bs.flatMap branchPaths).map Prod.fst).Nodup := by
  rw [List.map_flatMap, List.nodup_flatMap]
  refine ⟨fun b hb => ?_, ?_⟩
  · unfold branchPaths
    rw [List.map_map]
    have hmap : (leafPaths b.2).map (Prod.fst ∘ fun p => (b.1 :: p.1, p.2))
        = ((leafPaths b.2).map Prod.fst).map (b.1 :: ·) := by
      rw [List.map_map]
      rfl
    rw [hmap]
    exact (hsub b hb).map fun _ _ h => (List.cons.inj h).2
  · refine (List.pairwise_map.mp hnames).imp fun {b b'} hne path h h' => ?_
    obtain ⟨p, hp, rfl⟩ := List.mem_map.mp h
    obtain ⟨q, hq, heq⟩ := List.mem_map.mp h'
    obtain ⟨p', -, rfl⟩ := List.mem_map.mp hp
    obtain ⟨q', -, rfl⟩ := List.mem_map.mp hq
    exact hne (List.cons.inj heq).1.symm

/-- No path leads to two leaves. -/
theorem leafPaths_nodup {w : PyValue} (h : Record w) :
    ((leafPaths w).map Prod.fst).Nodup := by
  induction h with
  | leaf v => exact List.nodup_singleton _
  | @list elems hne hrec ih =>
      rw [leafPaths_list]
      refine branchPaths_nodup (branches_list_nodup elems) fun b hb => ?_
      obtain ⟨i, hi, rfl⟩ := List.mem_mapIdx.mp hb
      exact ih _ (List.getElem_mem hi)
  | dict hne hkeys hnames hrec ih =>
      rw [leafPaths_dict]
      refine branchPaths_nodup (branches_dict_nodup hkeys hnames) fun b hb => ?_
      obtain ⟨p, hp, rfl⟩ := List.mem_map.mp hb
      exact ih p hp

/-- A path joined with dots is taken apart into its components, none of which
has a dot in it. -/
theorem splitOn_pathKey {w : PyValue} (h : Record w) {p : List Bytes × Leaf}
    (hp : p ∈ leafPaths w) (hne : p.1 ≠ []) :
    ([46].intercalate p.1).splitOn 46 = p.1 :=
  List.splitOn_intercalate 46 (noDot_of_mem h hp) hne

/-- The keys of a flattened record are all different. -/
theorem pathKeys_nodup {w : PyValue} (h : Record w)
    (hne : ∀ p ∈ leafPaths w, p.1 ≠ []) :
    (((leafPaths w).map pathKey).map Prod.fst).Nodup := by
  rw [List.map_map]
  have hpaths := leafPaths_nodup h
  rw [List.nodup_map_iff_inj_on (List.Nodup.of_map _ hpaths)]
  intro p hp q hq heq
  have hkeys := Key.str.inj heq
  have hsplit := congrArg (List.splitOn 46) hkeys
  rw [splitOn_pathKey h hp (hne p hp), splitOn_pathKey h hq (hne q hq)]
    at hsplit
  exact List.inj_on_of_nodup_map hpaths hp hq hsplit

-- ================================================================= flatten

variable (order : DictOrder)

/-- What a value is flattened to: a leaf to itself, and anything else to its
leaves with their paths. -/
inductive FlattensTo (w : PyValue) : Flat → Prop where
  | leaf (v : Leaf) : w = .leaf v → FlattensTo w (.leaf v)
  | dict {d : List (Key × Leaf)} : (∀ p ∈ leafPaths w, p.1 ≠ []) →
      d.Perm ((leafPaths w).map pathKey) → FlattensTo w (.dict d)

/-- What is spliced in for a branch. -/
theorem spliceItem_branch {b : Bytes × PyValue} {flat : Flat}
    (h : FlattensTo b.2 flat) :
    (spliceItem order (.str b.1, flat)).Perm ((branchPaths b).map pathKey) := by
  cases h with
  | leaf v hv =>
      unfold branchPaths
      rw [hv]
      simp [spliceItem, leafPaths, pathKey]
  | @dict d hne hperm =>
      refine (((order.perm d).trans hperm).map _).trans (List.Perm.of_eq ?_)
      unfold branchPaths
      rw [List.map_map, List.map_map]
      refine List.map_congr_left fun p hp => ?_
      obtain ⟨part, rest, hpath⟩ := List.exists_cons_of_ne_nil (hne p hp)
      simp [pathKey, hpath, Key.text]

/-- What is spliced together of the branches of a value. -/
theorem splice_branches {w : PyValue} (h : Record w)
    (hpaths : leafPaths w = (branches w).flatMap branchPaths)
    (hnames : ((branches w).map Prod.fst).Nodup)
    (hsub : ∀ b ∈ branches w, FlattensTo b.2 (flatten order b.2))
    {flat : List (Key × Flat)} (hflat : flat.Perm
      ((branches w).map fun b => (.str b.1, flatten order b.2))) :
    FlattensTo w (.dict (splice order (Assoc.ofList flat))) := by
  have hne : ∀ p ∈ leafPaths w, p.1 ≠ [] := by
    intro p hp
    rw [hpaths, List.mem_flatMap] at hp
    obtain ⟨b, -, hp⟩ := hp
    obtain ⟨rest, heq, -⟩ := mem_branchPaths.mp hp
    rw [heq]
    exact List.cons_ne_nil _ _
  have hkeys : (flat.map Prod.fst).Nodup := by
    rw [(hflat.map Prod.fst).nodup_iff, List.map_map]
    have hstr : (branches w).map (Prod.fst ∘ fun b =>
        (Key.str b.1, flatten order b.2))
          = ((branches w).map Prod.fst).map Key.str := by
      rw [List.map_map]
      rfl
    rw [hstr]
    exact hnames.map fun _ _ => Key.str.inj
  have hperm : ((order.items flat).flatMap (spliceItem order)).Perm
      ((leafPaths w).map pathKey) := by
    rw [hpaths, List.map_flatMap]
    refine (((order.perm flat).trans hflat).flatMap_right _).trans ?_
    rw [List.flatMap_map]
    exact List.Perm.flatMap_left _ fun b hb =>
      spliceItem_branch order (hsub b hb)
  refine .dict hne ?_
  rw [Assoc.ofList_of_nodup hkeys, splice, Assoc.ofList_of_nodup
    ((hperm.map Prod.fst).nodup_iff.mpr (pathKeys_nodup h hne))]
  exact hperm

/-- The elements of a list are flattened under their indices. -/
theorem flattenElems_eq (i : Nat) (elems : List PyValue) :
    flattenElems order i elems
      = elems.mapIdx fun j elem =>
          (.str (digits (i + j)), flatten order elem) := by
  induction elems generalizing i with
  | nil => rfl
  | cons elem elems ih =>
      rw [flattenElems, ih, List.mapIdx_cons]
      simp only [Nat.add_zero, Nat.add_right_comm, Nat.add_assoc]

/-- So a list is flattened branch by branch. -/
theorem flattenElems_branches (elems : List PyValue) :
    flattenElems order 0 elems = (branches (.list elems)).map
      fun b => (.str b.1, flatten order b.2) := by
  rw [flattenElems_eq, branches]
  refine List.ext_getElem (by simp) fun i h h' => ?_
  simp

/-- So is a dict. -/
theorem flattenItems_branches {items : List (Key × PyValue)}
    (hnames : ∀ p ∈ items, ∃ k, p.1 = .str k ∧ IsName k) :
    flattenItems order items = (branches (.dict items)).map
      fun b => (.str b.1, flatten order b.2) := by
  rw [flattenItems_eq, branches, List.map_map]
  refine List.map_congr_left fun p hp => ?_
  obtain ⟨k, hk, -⟩ := hnames p hp
  show (p.1, _) = (Key.str p.1.text, _)
  rw [hk]
  rfl

/-- A record is flattened to its leaves with their paths. -/
theorem flatten_paths {w : PyValue} (h : Record w) :
    FlattensTo w (flatten order w) := by
  induction h with
  | leaf v => exact .leaf v rfl
  | @list elems hne hrec ih =>
      refine splice_branches order (.list hne hrec) (leafPaths_list elems)
        (branches_list_nodup elems) (fun b hb => ?_) ?_
      · obtain ⟨i, hi, rfl⟩ := List.mem_mapIdx.mp hb
        exact ih _ (List.getElem_mem hi)
      · exact List.Perm.of_eq (flattenElems_branches order elems)
  | @dict items hne hkeys hnames hrec ih =>
      refine splice_branches order (.dict hne hkeys hnames hrec)
        (leafPaths_dict items) (branches_dict_nodup hkeys hnames)
        (fun b hb => ?_) ?_
      · obtain ⟨p, hp, rfl⟩ := List.mem_map.mp hb
        exact ih p hp
      · exact (order.perm _).trans
          (List.Perm.of_eq (flattenItems_branches order hnames))

end Lwpb.Python
