/-
Records that are flat already.

A dict of leaves is flattened to itself, and a flat dict whose keys have
neither dots in them nor are made of digits is unflattened to itself, in
whatever order its items are visited.

The records of delimited text are of this kind, so that the tools can
flatten and unflatten whatever they read. Both facts are inductions on the
items: in flattening, every leaf is passed on under its own key; in
unflattening, a key without dots is a path of one step, which is put
behind what is there already (`putItem_name`), as no other item has the
same key.
-/
import Lwpb.Python.Flat
import Mathlib.Data.List.Perm.Basic

namespace Lwpb.Python

variable (order : DictOrder)

/-- A key that `unflatten` leaves as it is. -/
structure IsName (k : Bytes) : Prop where
  noDot : 46 ∉ k
  notDigits : isdigit k = false

/-- Items visited as they are listed. -/
def listedOrder : DictOrder := ⟨fun d => d, List.Perm.refl⟩

/-- A leaf, as a value. -/
def asValue (p : Key × Leaf) : Key × PyValue := (p.1, .leaf p.2)

-- ================================================================= flatten

theorem flattenItems_eq (items : List (Key × PyValue)) :
    flattenItems order items
      = items.map fun p => (p.1, flatten order p.2) := by
  induction items with
  | nil => rfl
  | cons p items ih => rw [flattenItems, ih, List.map_cons]

theorem keys_nodup {α β : Type} {xs : List (Key × α)} {ys : List (Key × β)}
    {g : Key × β → Key × α} (hg : ∀ p, (g p).1 = p.1)
    (hperm : xs.Perm (ys.map g)) (h : (ys.map Prod.fst).Nodup) :
    (xs.map Prod.fst).Nodup := by
  refine (hperm.map Prod.fst).nodup_iff.mpr ?_
  rw [List.map_map]
  have hkeys : Prod.fst ∘ g = Prod.fst := funext hg
  rwa [hkeys]

/-- A dict of leaves stays as it is. -/
theorem flatten_leaves {record : List (Key × PyValue)}
    {leaves : List (Key × Leaf)} (hkeys : (leaves.map Prod.fst).Nodup)
    (h : record.Perm (leaves.map asValue)) :
    ∃ flat, flatten order (.dict record) = .dict flat ∧ flat.Perm leaves := by
  -- the leaves, as they are flattened
  let g : Key × Leaf → Key × Flat := fun p => (p.1, .leaf p.2)
  have hitems : (flattenItems order record).Perm (leaves.map g) := by
    rw [flattenItems_eq]
    refine (h.map _).trans (List.Perm.of_eq ?_)
    rw [List.map_map]
    rfl
  have hfirst := (order.perm (flattenItems order record)).trans hitems
  have hflat := Assoc.ofList_of_nodup
    (keys_nodup (g := g) (fun _ => rfl) hfirst hkeys)
  have hsecond := (order.perm (order.items (flattenItems order record))).trans
    hfirst
  have hsplice : ((order.items (order.items
      (flattenItems order record))).flatMap (spliceItem order)).Perm
        leaves := by
    refine (hsecond.flatMap_right _).trans (List.Perm.of_eq ?_)
    rw [List.flatMap_map]
    exact List.flatMap_singleton' leaves
  refine ⟨_, rfl, ?_⟩
  rw [hflat, splice, Assoc.ofList_of_nodup
    ((hsplice.map Prod.fst).nodup_iff.mpr hkeys)]
  exact hsplice

-- =============================================================== unflatten

theorem putItem_name {k : Bytes} {v : Leaf} {items : List (Key × PyValue)}
    (hname : IsName k) (hnew : Key.str k ∉ items.map Prod.fst) :
    putItem (.dict items) (.str k, v)
      = some (.dict (items ++ [(.str k, .leaf v)])) := by
  have hpath : k.splitOn 46 = [k] := List.splitOn_eq_singleton hname.noDot
  have hput : putPath v [k] (.dict items)
      = some (.dict (Assoc.set (.str k)
        ((items.lookup (.str k)).getD (.leaf v)) items)) := by
    unfold putPath
    rw [hname.notDigits]
    rfl
  show putPath v (k.splitOn 46) (.dict items) = _
  rw [hpath, hput, Assoc.lookup_eq_none_of_not_mem hnew,
    Assoc.set_of_not_mem hnew]
  rfl

/-- Items with such keys are put behind what is there. -/
theorem foldlM_putItem {src : List (Key × Leaf)}
    {items : List (Key × PyValue)} (hkeys : (src.map Prod.fst).Nodup)
    (hnames : ∀ p ∈ src, ∃ k, p.1 = .str k ∧ IsName k)
    (hnew : ∀ p ∈ src, p.1 ∉ items.map Prod.fst) :
    src.foldlM putItem (.dict items)
      = some (.dict (items ++ src.map asValue)) := by
  induction src generalizing items with
  | nil => rw [List.map_nil, List.append_nil]; rfl
  | cons p src ih =>
      obtain ⟨k, v⟩ := p
      obtain ⟨⟨_, rfl, hname⟩, hrest⟩ := List.forall_mem_cons.mp hnames
      obtain ⟨hnewp, hnew⟩ := List.forall_mem_cons.mp hnew
      obtain ⟨hp, hkeys⟩ := List.nodup_cons.mp hkeys
      rw [List.foldlM_cons, putItem_name hname hnewp]
      refine (ih hkeys hrest fun p hmem hin => ?_).trans ?_
      · rw [List.map_append, List.mem_append, List.map_cons, List.map_nil,
          List.mem_singleton] at hin
        rcases hin with hin | heq
        · exact hnew p hmem hin
        · exact hp (heq ▸ List.mem_map_of_mem hmem)
      · rw [List.append_assoc]
        rfl

/-- A flat dict stays as it is. -/
theorem unflatten_names {src : List (Key × Leaf)}
    (hkeys : (src.map Prod.fst).Nodup)
    (hnames : ∀ p ∈ src, ∃ k, p.1 = .str k ∧ IsName k) :
    ∃ items, unflatten order src = some (.dict items) ∧
      items.Perm (src.map asValue) := by
  have hperm := order.perm src
  refine ⟨_, foldlM_putItem ((hperm.map Prod.fst).nodup_iff.mpr hkeys)
    (fun p hp => hnames p (hperm.mem_iff.mp hp))
    fun p _ => List.not_mem_nil, ?_⟩
  exact hperm.map asValue

end Lwpb.Python
