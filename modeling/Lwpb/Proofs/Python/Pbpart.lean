/-
A stream that is partitioned.

The loop of `pbpart` opens a file for every partition when it comes first.
`Parted` says what the disk and the open files are once the records `done`
have been written, each with its partition: a file has the frames of its
fiber. One round opens and writes (`partBody_writes`) and keeps `Parted` for
one record more; the whole run is `run_parted`, by induction on what the
reader delivers. That the fibers are all the records is `Lib/Fibers.lean`.

Two partitions with files of one name would overwrite each other, so that
the names are assumed to differ (`NamesApart`); the names that the tool
makes by itself do (`defaultPartition_apart`). All other files of the disk
are said to be as they were, which is what makes the invariant go through:
a round touches one file.
-/
import Lwpb.Lib.Fibers
import Lwpb.Lib.Sequence
import Lwpb.Python.Pbpart
import Lwpb.Proofs.Python.Pbsplit

namespace Lwpb.Python

open Machine Fibers

variable {W : Type} {p : Pbpart W} {disk : Disk}

-- ================================================================== invariant

/-- Different partitions have files of different names. -/
def NamesApart (template : Text → Text) (parts : List Text) : Prop :=
  ∀ s ∈ parts, ∀ t ∈ parts, template s = template t → s = t

/-- The default names differ behind the point. -/
theorem defaultPartition_apart (infile : Text) (parts : List Text) :
    NamesApart (defaultPartition infile) parts :=
  fun _ _ _ _ h => (List.cons.inj (List.append_cancel_left h)).2

/-- The disk holds the records of every partition under its name, and is
otherwise as it was. -/
structure HoldsParts (template : Text → Text) (disk : Disk)
    (done : List (Text × Bytes)) (disk' : Disk) : Prop where
  file : ∀ t ∈ keys done, disk' (template t) = some (frames (fiber t done))
  other : ∀ name, (∀ t ∈ keys done, name ≠ template t) →
    disk' name = disk name

/-- The records `done` have been written. -/
structure Parted (p : Pbpart W) (disk : Disk) (done : List (Text × Bytes))
    (v : PartVars W) : Prop where
  holds : HoldsParts p.template disk done v.disk
  fouts : v.fouts = (keys done).map fun t => (t, p.template t)

theorem parted_start (disk : Disk) (world : W) :
    Parted p disk [] ⟨world, disk, []⟩ :=
  ⟨⟨nofun, fun _ _ => rfl⟩, rfl⟩

-- ================================================================== one round

/-- The file of a partition is among the open ones from its first record
on. -/
theorem find_fout (template : Text → Text) (ks : List Text) (t : Text) :
    ((ks.map fun t => (t, template t)).find? fun fout => fout.1 = t)
      = if t ∈ ks then some (t, template t) else none := by
  induction ks with
  | nil => rfl
  | cons k ks ih =>
      rw [List.map_cons, List.find?_cons]
      by_cases hk : k = t
      · subst hk
        rw [if_pos List.mem_cons_self]
        simp
      · have hmem : t ∈ k :: ks ↔ t ∈ ks := by
          rw [List.mem_cons]
          exact ⟨fun h => h.resolve_left (Ne.symm hk), .inr⟩
        simp only [hk, decide_false, hmem, ih]

/-- The file is open behind the opening, with the records that it had. -/
theorem opened_parted {done : List (Text × Bytes)} {v : PartVars W}
    {t : Text} (h : Parted p disk done v) :
    ∃ v' out, v.opened p t = (v', p.template t, out) ∧
      v'.world = v.world ∧
      v'.fouts = (addKey (keys done) t).map (fun t => (t, p.template t)) ∧
      v'.disk (p.template t) = some (frames (fiber t done)) ∧
      (∀ name, name ≠ p.template t → v'.disk name = v.disk name) ∧
      (keys done).map p.template ++ out
        = (addKey (keys done) t).map p.template := by
  have hfind := find_fout p.template (keys done) t
  rw [← h.fouts] at hfind
  unfold addKey
  by_cases hmem : t ∈ keys done
  · rw [if_pos hmem] at hfind ⊢
    refine ⟨v, [], ?_, rfl, h.fouts, h.holds.file t hmem, fun _ _ => rfl,
      List.append_nil _⟩
    unfold PartVars.opened
    simp only [hfind]
  · rw [if_neg hmem] at hfind ⊢
    refine ⟨{ v with
        disk := v.disk.put (p.template t) []
        fouts := v.fouts ++ [(t, p.template t)] }, [p.template t], ?_, rfl, ?_,
      ?_, fun name hname => put_other _ hname, ?_⟩
    · unfold PartVars.opened
      simp only [hfind]
    · rw [h.fouts, List.map_append, List.map_singleton]
    · rw [fiber_of_not_mem hmem]
      exact put_same _ _ _
    · rw [List.map_append, List.map_singleton]

/-- A record more in its file. -/
theorem HoldsParts.put {done : List (Text × Bytes)} {disk₁ disk₂ : Disk}
    {t : Text} {raw : Bytes} {parts : List Text} {template : Text → Text}
    (hnames : NamesApart template parts) (hdone : ∀ k ∈ keys done, k ∈ parts)
    (ht : t ∈ parts) (h : HoldsParts template disk done disk₁)
    (hothers : ∀ name, name ≠ template t → disk₂ name = disk₁ name) :
    HoldsParts template disk (done ++ [(t, raw)])
      (disk₂.put (template t) (frames (fiber t done) ++ frame raw)) where
  file := fun k hk => by
    rw [keys_append, mem_addKey] at hk
    by_cases heq : k = t
    · subst heq
      rw [put_same, fiber_append_self, frames, frames, List.flatMap_append,
        List.flatMap_singleton]
    · have hkey : k ∈ keys done := hk.resolve_right heq
      have hname : template k ≠ template t := fun hsame =>
        heq (hnames k (hdone k hkey) t ht hsame)
      rw [put_other _ hname, hothers _ hname, h.file k hkey,
        fiber_append_ne (Ne.symm heq)]
  other := fun name hname => by
    rw [keys_append] at hname
    have hself : name ≠ template t := hname t (mem_addKey.mpr (.inr rfl))
    rw [put_other _ hself, hothers _ hself]
    exact h.other name fun k hk => hname k (mem_addKey.mpr (.inl hk))

/-- A round of the loop. -/
theorem partBody_writes {done : List (Text × Bytes)} {v : PartVars W}
    {t : Text} {raw : Bytes} {parts : List Text} {rd : StreamReader}
    {record : Items} {world : W} (hnames : NamesApart p.template parts)
    (hdone : ∀ k ∈ keys done, k ∈ parts) (ht : t ∈ parts)
    (hraw : raw.length < 2 ^ 32) (h : Parted p disk done v)
    (hpart : p.partition v.world record = .ok (world, t))
    (hcurrent : rd.currentRaw = some raw) :
    ∃ v' out, partBody p rd record v = (.next v', out) ∧
      v'.world = world ∧ Parted p disk (done ++ [(t, raw)]) v' ∧
      (keys done).map p.template ++ out
        = (keys (done ++ [(t, raw)])).map p.template := by
  have h₁ : Parted p disk done { v with world := world } :=
    ⟨h.holds, h.fouts⟩
  obtain ⟨v', out, hopened, hworld, hfouts, hcontent, hothers, hout⟩ :=
    opened_parted h₁
  refine ⟨{ v' with
      disk := v'.disk.put (p.template t) (frames (fiber t done) ++ frame raw) },
    out, ?_, hworld, ⟨.put hnames hdone ht h.holds hothers, ?_⟩, ?_⟩
  · unfold partBody
    simp only [hpart, hopened, hcurrent, hcontent, Option.getD_some,
      writeRaw_eq hraw]
  · rw [keys_append]
    exact hfouts
  · rw [keys_append]
    exact hout

-- ================================================================= whole runs

/-- The partitions of records, in order, and what the code leaves. -/
def Pbpart.partitions (p : Pbpart W) (world : W) :
    List Items → Except PyErr (List Text × W)
  | [] => .ok ([], world)
  | record :: records => do
      let (world, t) ← p.partition world record
      let (ts, world) ← partitions p world records
      .ok (t :: ts, world)

variable {new : PythonNew} {sch : Schema} {msgnum : UInt32}
  {uninit : Nat → UInt64} {tells : Bool}

/-- The loop over what the reader delivers, from the middle of a run. -/
theorem run_parted {raws : List Bytes} {number offset : Nat}
    {items : List (StreamReader × Items)} {done : List (Text × Bytes)}
    {v : PartVars W} {parts ts : List Text} {world : W}
    (hnames : NamesApart p.template parts)
    (hdone : ∀ k ∈ keys done, k ∈ parts) (hts : ∀ t ∈ ts, t ∈ parts)
    (hshort : ∀ raw ∈ raws, raw.length < 2 ^ 32)
    (hitems : List.Forall₂ (HandsOver new sch msgnum uninit tells)
      (placed raws number offset) items)
    (hparts : p.partitions v.world (items.map Prod.snd) = .ok (ts, world))
    (h : Parted p disk done v) :
    ∃ v' out, Loop.run (partBody p) items v = (out, .done v') ∧
      v'.world = world ∧ Parted p disk (done ++ ts.zip raws) v' ∧
      (keys done).map p.template ++ out
        = (keys (done ++ ts.zip raws)).map p.template := by
  induction raws generalizing number offset items done v ts with
  | nil =>
      cases hitems
      obtain ⟨rfl, rfl⟩ := Prod.mk.inj (Except.ok.inj hparts)
      rw [List.zip_nil_right, List.append_nil]
      exact ⟨v, [], rfl, rfl, h, List.append_nil _⟩
  | cons raw raws ih =>
      obtain ⟨hraw, hraws⟩ := List.forall_mem_cons.mp hshort
      obtain _ | ⟨hover, hrest⟩ := hitems
      next item items =>
      obtain ⟨rd, record⟩ := item
      obtain ⟨⟨world₁, t⟩, hpart, hparts⟩ := Sequence.ok_of_bind hparts
      obtain ⟨⟨ts', world₂⟩, hparts', heq⟩ := Sequence.ok_of_bind hparts
      obtain ⟨rfl, rfl⟩ := Prod.mk.inj (Except.ok.inj heq)
      obtain ⟨ht, hts'⟩ := List.forall_mem_cons.mp hts
      obtain ⟨v₁, out₁, hbody, hworld, h₁, hout₁⟩ := partBody_writes hnames
        hdone ht hraw h hpart hover.raw
      have hdone₁ : ∀ k ∈ keys (done ++ [(t, raw)]), k ∈ parts := by
        intro k hk
        rw [keys_append, mem_addKey] at hk
        rcases hk with hk | rfl
        · exact hdone k hk
        · exact ht
      obtain ⟨v', out, hrun, hworld', h', hout⟩ := ih hdone₁ hts' hraws hrest
        (hworld ▸ hparts') h₁
      rw [List.append_assoc] at h' hout
      refine ⟨v', out₁ ++ out, ?_, hworld', h', ?_⟩
      · rw [Loop.run_next hbody, hrun]
      · rw [← List.append_assoc, hout₁]
        exact hout

/-- What the reader hands over are the records, decoded. -/
theorem handsOver_records {raws : List Bytes} {number offset : Nat}
    {items : List (StreamReader × Items)} {record : Bytes → Items}
    (hdec : ∀ raw ∈ raws, ∀ u,
      decoderDecode new sch u raw msgnum = .dict (record raw) none)
    (hitems : List.Forall₂ (HandsOver new sch msgnum uninit tells)
      (placed raws number offset) items) :
    items.map Prod.snd = raws.map record := by
  induction raws generalizing number offset items with
  | nil =>
      cases hitems
      rfl
  | cons raw raws ih =>
      obtain ⟨hraw, hraws⟩ := List.forall_mem_cons.mp hdec
      obtain _ | ⟨hover, hrest⟩ := hitems
      have hdecoded := decoding_eq_some.mp hover.record
      rw [hraw] at hdecoded
      obtain ⟨heq, -⟩ := Decoded.dict.inj hdecoded
      rw [List.map_cons, List.map_cons, ih hraws hrest, heq]

-- =============================================================== the property

/-- Every partition has a file with its records, in their order; nothing
else on the disk has changed. -/
structure PartitionsInto (template : Text → Text) (parts : List Text)
    (records : List Bytes) (disk disk' : Disk) (opened : List Text) :
    Prop where
  /-- In the order in which they come first. -/
  names : opened = (keys (parts.zip records)).map template
  contents : ∀ t ∈ parts,
    disk' (template t) = some (frames (fiber t (parts.zip records)))
  /-- No record is lost, and none is there twice. -/
  whole : ((keys (parts.zip records)).flatMap fun t =>
    fiber t (parts.zip records)).Perm records
  others : ∀ name, name ∉ opened → disk' name = disk name

theorem partitions_length {world world' : W} {records : List Items}
    {ts : List Text} (h : p.partitions world records = .ok (ts, world')) :
    ts.length = records.length := by
  induction records generalizing world ts with
  | nil =>
      obtain ⟨rfl, -⟩ := Prod.mk.inj (Except.ok.inj h)
      rfl
  | cons record records ih =>
      obtain ⟨⟨world₁, t⟩, -, h⟩ := Sequence.ok_of_bind h
      obtain ⟨⟨ts', world₂⟩, hrest, heq⟩ := Sequence.ok_of_bind h
      obtain ⟨rfl, rfl⟩ := Prod.mk.inj (Except.ok.inj heq)
      rw [List.length_cons, List.length_cons, ih hrest]

theorem parted_partitions {parts : List Text} {records : List Bytes}
    {v : PartVars W} (hlen : parts.length = records.length)
    (h : Parted p disk (parts.zip records) v) :
    PartitionsInto p.template parts records disk v.disk
      ((keys (parts.zip records)).map p.template) where
  names := rfl
  contents := fun t ht => h.holds.file t (mem_keys.mpr (by
    rwa [List.map_fst_zip (Nat.le_of_eq hlen)]))
  whole := by
    have hall := @flatMap_fiber _ _ _ (parts.zip records)
    rwa [List.map_snd_zip (Nat.le_of_eq hlen.symm)] at hall
  others := fun name hname => h.holds.other name fun t ht heq =>
    hname (heq ▸ List.mem_map_of_mem ht)

/-- `pbpart` puts every record into the file of its partition. -/
theorem pbpart_partitions (p : Pbpart W) (new : PythonNew) (sch : Schema)
    (msgnum : UInt32) (uninit : Nat → UInt64) (tells : Bool) (disk : Disk)
    {raws : List Bytes} {stream : Bytes} {record : Bytes → Items}
    {world world' : W} {parts : List Text}
    (hshort : ∀ raw ∈ raws, raw.length < 2 ^ 32)
    (hstream : raws.foldlM writeRaw [] = some stream)
    (hdec : ∀ raw ∈ raws, ∀ u,
      decoderDecode new sch u raw msgnum = .dict (record raw) none)
    (hparts : p.partitions world (raws.map record) = .ok (parts, world'))
    (hnames : NamesApart p.template parts) :
    ∃ opened v, Halts (partStep p new sch msgnum uninit)
        (.init ⟨stream, 0, tells⟩, ⟨world, disk, []⟩) opened (.done v) ∧
      v.world = world' ∧
      PartitionsInto p.template parts raws disk v.disk opened := by
  obtain rfl := written_frames hshort hstream
  have hdecoded : ∀ raw ∈ raws, ∀ u,
      (decoding new sch msgnum u raw).isSome := fun raw hraw u =>
    decoding_isSome (hdec raw hraw u)
  obtain ⟨items, hdelivers, hover⟩ := @stream_delivers new sch msgnum uninit
    raws 0 0 (.init ⟨frames raws, 0, tells⟩) hshort hdecoded rfl rfl rfl rfl
  have hitems := handsOver_records hdec hover
  have hlen := partitions_length hparts
  rw [List.length_map] at hlen
  obtain ⟨v, out, hrun, hworld, hparted, hout⟩ := @run_parted W p disk new sch
    msgnum uninit tells raws 0 0 items [] ⟨world, disk, []⟩ parts parts world'
    hnames nofun (fun t ht => ht) hshort hover (hitems ▸ hparts)
    (parted_start disk world)
  have hhalts := hdelivers.halts (partBody p) ⟨world, disk, []⟩
  rw [hrun] at hhalts
  rw [List.nil_append] at hparted hout
  rw [keys_nil, List.map_nil, List.nil_append] at hout
  subst hout
  exact ⟨_, v, hhalts, hworld, parted_partitions hlen hparted⟩

/-- Records by whether their number is 5. -/
def byFive : Pbpart Unit where
  key := "a"
  template := defaultPartition ['a']
  mapcode := none
  str := fun
    | .other id => if plainValue id = .int 5 then ['5'] else ['x']
    | _ => []

/-- Three records, two of them of one partition. -/
theorem pbpart_partitions_three : ∃ opened v,
    Halts (partStep byFive plainNew numberSchema 0 fun _ => 0)
      (.init ⟨[2, 0, 0, 0, 8, 5, 2, 0, 0, 0, 8, 6, 2, 0, 0, 0, 8, 5], 0,
        false⟩, ⟨(), fun _ => none, []⟩) opened (.done v) ∧
    v.world = () ∧
    PartitionsInto byFive.template [['5'], ['x'], ['5']]
      [[8, 5], [8, 6], [8, 5]] (fun _ => none) v.disk opened :=
  @pbpart_partitions Unit byFive plainNew numberSchema 0 (fun _ => 0) false
    (fun _ => none) _ _
    (fun raw => [("a", .other (plainId (.int (raw.getD 1 0).toNat)))]) () ()
    _ (by decide)
    (show _ = some [2, 0, 0, 0, 8, 5, 2, 0, 0, 0, 8, 6, 2, 0, 0, 0, 8, 5] by
      decide +kernel)
    (fun raw hraw u => by
      rcases List.mem_cons.mp hraw with rfl | hraw
      · rfl
      · rcases List.mem_cons.mp hraw with rfl | hraw
        · rfl
        · obtain rfl := List.mem_singleton.mp hraw
          rfl)
    rfl (defaultPartition_apart _ _)

end Lwpb.Python
