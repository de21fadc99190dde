/-
A stream that is split, and put together again.

The loop of `pbsplit` has four counters and a file that is opened late and
closed early. `Filled` says what they come to once the records `done` have
been written: the disk holds the pieces of `done`, and a file is open
exactly if the last piece is not full. One round of the loop is opening
(`opened_filled`) and writing (`written_filled`), and keeps `Filled` for
one record more; the whole run is `run_filled`, by induction on what the
reader delivers. What the pieces of a list are, and that they put together
are the list, is `Lib/Chunks.lean`.
-/
import Lwpb.Lib.Chunks
import Lwpb.Python.Pbsplit
import Lwpb.Proofs.Python.Index

namespace Lwpb.Python

open Machine Chunks

variable {template : Nat → Text} {disk : Disk} {z K : Nat}

-- ====================================================================== disks

theorem put_same (disk : Disk) (name : Text) (content : Bytes) :
    disk.put name content name = some content :=
  if_pos rfl

theorem put_other {name other : Text} (content : Bytes)
    (h : other ≠ name) : disk.put name content other = disk other :=
  if_neg h

-- ================================================================== invariant

/-- The first `K` names are distinct. -/
def Distinct (template : Nat → Text) (K : Nat) : Prop :=
  ∀ i j, i < K → j < K → template i = template j → i = j

/-- The default names are distinct: padding does not change the number. -/
theorem defaultTemplate_distinct (infile : Text) (K : Nat) :
    Distinct (defaultTemplate infile) K := by
  intro i j _ _ h
  unfold defaultTemplate at h
  have hpad := (List.cons.inj (List.append_cancel_left h)).2
  have hnumber : ∀ n, Nat.ofDigitChars 10
      (List.leftpad 5 '0' (Nat.toDigits 10 n)) 0 = n := by
    intro n
    unfold List.leftpad
    rw [Nat.ofDigitChars_append, Nat.ofDigitChars_replicate_zero,
      Nat.mul_zero, Nat.ofDigitChars_ten_toDigits]
  rw [← hnumber i, hpad, hnumber j]

/-- The disk holds the first `n` pieces of the records, under the first `n`
names, and is otherwise as it was. -/
structure HoldsPieces (template : Nat → Text) (disk : Disk) (z n : Nat)
    (done : List Bytes) (disk' : Disk) : Prop where
  file : ∀ i, i < n → disk' (template i) = some (frames (chunk z done i))
  other : ∀ name, (∀ i, i < n → name ≠ template i) →
    disk' name = disk name

/-- The last piece is put under its name, over what was there. -/
theorem HoldsPieces.put {n : Nat} {done : List Bytes} {disk' : Disk}
    (hnames : Distinct template K) (hn : n < K)
    (hfile : ∀ i, i < n →
      disk' (template i) = some (frames (chunk z done i)))
    (hother : ∀ name, (∀ i, i < n + 1 → name ≠ template i) →
      disk' name = disk name) :
    HoldsPieces template disk z (n + 1) done
      (disk'.put (template n) (frames (chunk z done n))) where
  file := fun i hi => by
    by_cases hlast : i = n
    · subst hlast
      exact put_same _ _ _
    · have hne : template i ≠ template n :=
        fun heq => hlast (hnames i _ (by omega) hn heq)
      rw [put_other _ hne]
      exact hfile i (by omega)
  other := fun name hname => by
    rw [put_other _ (hname n (Nat.lt_succ_self n))]
    exact hother name hname

/-- The records `done` have been written. -/
structure Filled (template : Nat → Text) (disk : Disk) (z : Nat)
    (done : List Bytes) (v : SplitVars) : Prop where
  written : v.written = done.length
  holds : HoldsPieces template disk z (chunkCount z done) done v.disk
  /-- Between two files, or in the middle of one. -/
  place : (v.fout = none ∧ done.length = v.splitnum * z) ∨
    (v.fout = some (template v.splitnum) ∧ 0 < v.splitwritten ∧
      v.splitwritten < z ∧ done.length = v.splitnum * z + v.splitwritten)

/-- The file is open, and has room for another record. -/
structure Ready (template : Nat → Text) (disk : Disk) (z : Nat)
    (done : List Bytes) (v : SplitVars) : Prop where
  written : v.written = done.length
  holds : HoldsPieces template disk z (v.splitnum + 1) done v.disk
  fout : v.fout = some (template v.splitnum)
  room : v.splitwritten < z
  place : done.length = v.splitnum * z + v.splitwritten

theorem filled_start (disk : Disk) (hz : 0 < z) :
    Filled template disk z [] (.start disk) where
  written := rfl
  holds := {
    file := fun i hi => by
      rw [chunkCount_nil hz] at hi
      exact absurd hi (Nat.not_lt_zero i)
    other := fun _ _ => rfl }
  place := .inl ⟨rfl, (Nat.zero_mul z).symm⟩

/-- Between two files the pieces are counted by `splitnum`, in the middle
of one it is the number of the last. -/
theorem Filled.pieces_eq {done : List Bytes} {v : SplitVars} (hz : 0 < z)
    (h : Filled template disk z done v) :
    chunkCount z done
      = if v.fout = none then v.splitnum else v.splitnum + 1 := by
  rcases h.place with ⟨hfout, hlen⟩ | ⟨hfout, hpos, hlt, hlen⟩
  · rw [if_pos hfout]
    exact chunkCount_full hz hlen
  · rw [hfout, if_neg (fun h => by cases h)]
    exact chunkCount_last hz (by omega) (by
      rw [Nat.add_mul, Nat.one_mul]
      omega)

-- ================================================================== one round

/-- A file is open behind the opening, and its name is the output if it was
opened now. -/
theorem opened_filled {done : List Bytes} {v : SplitVars} (hz : 0 < z)
    (hnames : Distinct template K) (h : Filled template disk z done v)
    (hK : v.splitnum < K) :
    ∃ v' out, v.opened template = (v', template v.splitnum, out) ∧
      Ready template disk z done v' ∧ v'.splitnum = v.splitnum ∧
      (List.range (chunkCount z done)).map template ++ out
        = (List.range (v.splitnum + 1)).map template := by
  have hpieces := h.pieces_eq hz
  rcases h.place with ⟨hfout, hlen⟩ | ⟨hfout, hpos, hlt, hlen⟩
  · rw [if_pos hfout] at hpieces
    have hnil : frames (chunk z done v.splitnum) = [] := by
      rw [chunk_eq_nil (Nat.le_of_eq hlen)]
      rfl
    have hheld := h.holds
    rw [hpieces] at hheld
    have hholds := HoldsPieces.put hnames hK hheld.file fun name hname =>
      hheld.other name fun i hi => hname i (Nat.lt_succ_of_lt hi)
    rw [hnil] at hholds
    refine ⟨{ v with
        disk := v.disk.put (template v.splitnum) []
        fout := some (template v.splitnum)
        splitwritten := 0 }, [template v.splitnum], ?_, ?_, rfl, ?_⟩
    · unfold SplitVars.opened
      rw [hfout]
    · exact ⟨h.written, hholds, rfl, hz, hlen⟩
    · rw [hpieces, List.range_succ, List.map_append, List.map_singleton]
  · rw [hfout, if_neg (fun h => by cases h)] at hpieces
    refine ⟨v, [], ?_, ?_, rfl, ?_⟩
    · unfold SplitVars.opened
      rw [hfout]
    · exact ⟨h.written, hpieces ▸ h.holds, hfout, hlt, hlen⟩
    · rw [List.append_nil, hpieces]

/-- A record is written to the open file and counted. -/
theorem written_filled {done : List Bytes} {v : SplitVars} (raw : Bytes)
    (hz : 0 < z) (hnames : Distinct template K)
    (h : Ready template disk z done v) (hK : v.splitnum < K) :
    Filled template disk z (done ++ [raw])
        (SplitVars.counted z { v with
          disk := v.disk.put (template v.splitnum)
            (frames (chunk z done v.splitnum) ++ frame raw) }) ∧
      chunkCount z (done ++ [raw]) = v.splitnum + 1 := by
  have hplace := h.place
  have hroom := h.room
  have hhigh : done.length < (v.splitnum + 1) * z := by
    rw [Nat.add_mul, Nat.one_mul]
    omega
  have hlen : (done ++ [raw]).length
      = v.splitnum * z + (v.splitwritten + 1) := by
    rw [List.length_append, List.length_singleton]
    omega
  have hpieces : chunkCount z (done ++ [raw]) = v.splitnum + 1 :=
    chunkCount_last hz (by omega) (by
      rw [Nat.add_mul, Nat.one_mul]
      omega)
  have hlast : frames (chunk z (done ++ [raw]) v.splitnum)
      = frames (chunk z done v.splitnum) ++ frame raw := by
    rw [chunk_append_last (by omega) hhigh, frames, List.flatMap_append,
      List.flatMap_singleton]
    rfl
  have hfile : ∀ i, i < v.splitnum → v.disk (template i)
      = some (frames (chunk z (done ++ [raw]) i)) := by
    intro i hi
    have hmul : (i + 1) * z ≤ v.splitnum * z :=
      Nat.mul_le_mul_right z (Nat.succ_le_of_lt hi)
    rw [h.holds.file i (Nat.lt_succ_of_lt hi),
      chunk_append_of_lt (by omega)]
  have hholds := HoldsPieces.put hnames hK hfile h.holds.other
  rw [hlast] at hholds
  refine ⟨?_, hpieces⟩
  unfold SplitVars.counted
  dsimp only
  by_cases hfull : (z : Int) ≤ (v.splitwritten + 1 : Nat)
  · rw [if_pos hfull]
    exact {
      written := by
        rw [List.length_append, ← h.written]
        rfl
      holds := hpieces ▸ hholds
      place := .inl ⟨rfl, by
        show (done ++ [raw]).length = (v.splitnum + 1) * z
        rw [hlen, Nat.add_mul, Nat.one_mul]
        omega⟩ }
  · rw [if_neg hfull]
    exact {
      written := by
        rw [List.length_append, ← h.written]
        rfl
      holds := hpieces ▸ hholds
      place := .inr ⟨h.fout, Nat.succ_pos _, by
        show v.splitwritten + 1 < z
        omega, hlen⟩ }

/-- A round in front of the first record. -/
theorem splitBody_drops {v : SplitVars} {rd : StreamReader} {record : Items}
    {skip count splitsize : Int} (hskip : rd.currentNumber < skip) :
    splitBody template skip count splitsize rd record v = (.next v, []) := by
  unfold splitBody
  rw [if_pos hskip]

/-- A round behind the last. -/
theorem splitBody_stops {v : SplitVars} {rd : StreamReader} {record : Items}
    {skip count splitsize : Int} (hskip : ¬ rd.currentNumber < skip)
    (hcount : 0 ≤ count ∧ count ≤ v.written) :
    splitBody template skip count splitsize rd record v = (.leave v, []) := by
  unfold splitBody
  rw [if_neg hskip, if_pos hcount]

/-- A round that writes. -/
theorem splitBody_writes {done : List Bytes} {v : SplitVars} {raw : Bytes}
    {rd : StreamReader} {record : Items} {skip count : Int} (hz : 0 < z)
    (hnames : Distinct template K) (hraw : raw.length < 2 ^ 32)
    (h : Filled template disk z done v)
    (hK : chunkCount z (done ++ [raw]) ≤ K)
    (hcurrent : rd.currentRaw = some raw)
    (hskip : ¬ rd.currentNumber < skip)
    (hcount : ¬ (0 ≤ count ∧ count ≤ v.written)) :
    ∃ v' out, splitBody template skip count z rd record v = (.next v', out) ∧
      Filled template disk z (done ++ [raw]) v' ∧
      (List.range (chunkCount z done)).map template ++ out
        = (List.range (chunkCount z (done ++ [raw]))).map template := by
  have hsplitnum : v.splitnum < K := by
    have hlt : v.splitnum < chunkCount z (done ++ [raw]) := by
      rw [lt_chunkCount_iff hz, List.length_append, List.length_singleton]
      rcases h.place with ⟨-, hlen⟩ | ⟨-, -, -, hlen⟩
      · omega
      · omega
    omega
  obtain ⟨v₁, out, hopened, hready, hnum, hout⟩ :=
    opened_filled hz hnames h hsplitnum
  obtain ⟨hfilled, hpieces⟩ := written_filled raw hz hnames hready
    (hnum ▸ hsplitnum)
  have hcontent := hready.holds.file v₁.splitnum (Nat.lt_succ_self _)
  rw [hnum] at hcontent hpieces
  refine ⟨_, out, ?_, hfilled, ?_⟩
  · unfold splitBody
    rw [if_neg hskip, if_neg hcount, hopened]
    dsimp only
    rw [hcurrent]
    dsimp only
    rw [hcontent, Option.getD_some, writeRaw_eq hraw, hnum]
  · rw [hout, hpieces]

-- ================================================================= whole runs

/-- What is left of a list, of which `n` more than none are taken: all of
it if `count` is negative. -/
def limited {α : Type} (count : Int) (n : Nat) (l : List α) : List α :=
  if count < 0 then l else l.take (count.toNat - n)

theorem limited_nil {α : Type} (count : Int) (n : Nat) :
    limited count n ([] : List α) = [] := by
  unfold limited
  rw [List.take_nil, ite_self]

theorem limited_done {α : Type} {count : Int} {n : Nat} (l : List α)
    (h : 0 ≤ count ∧ count ≤ n) : limited count n l = [] := by
  unfold limited
  have hzero : count.toNat - n = 0 := by omega
  rw [if_neg (by omega), hzero, List.take_zero]

theorem limited_cons {α : Type} {count : Int} {n : Nat} (x : α) (l : List α)
    (h : ¬ (0 ≤ count ∧ count ≤ n)) :
    limited count n (x :: l) = x :: limited count (n + 1) l := by
  unfold limited
  by_cases hneg : count < 0
  · rw [if_pos hneg, if_pos hneg]
  · have hone : count.toNat - n = count.toNat - (n + 1) + 1 := by omega
    rw [if_neg hneg, if_neg hneg, hone, List.take_succ_cons]

/-- One more is done. -/
theorem append_limited_cons {α : Type} {count : Int} (done : List α) (x : α)
    (l : List α) (h : ¬ (0 ≤ count ∧ count ≤ done.length)) :
    done ++ limited count done.length (x :: l)
      = (done ++ [x]) ++ limited count (done ++ [x]).length l := by
  rw [limited_cons x l h, List.append_assoc, List.length_append]
  rfl

/-- The input records that a run is about. -/
def selected (raws : List Bytes) (skip : Nat) (count : Int) : List Bytes :=
  limited count 0 (raws.drop skip)

variable {new : PythonNew} {sch : Schema} {msgnum : UInt32}
  {uninit : Nat → UInt64} {tells : Bool}

/-- The loop over what the reader delivers, from the middle of a run. -/
theorem run_filled {raws : List Bytes} {number offset skip : Nat}
    {count : Int} {items : List (StreamReader × Items)} {done : List Bytes}
    {v : SplitVars} (hz : 0 < z) (hnames : Distinct template K)
    (hshort : ∀ raw ∈ raws, raw.length < 2 ^ 32)
    (hitems : List.Forall₂ (HandsOver new sch msgnum uninit tells)
      (placed raws number offset) items)
    (h : Filled template disk z done v)
    (hK : chunkCount z (done
      ++ limited count done.length (raws.drop (skip - number))) ≤ K) :
    ∃ v' out,
      Loop.run (splitBody template skip count z) items v
        = (out, .done v') ∧
      Filled template disk z (done
        ++ limited count done.length (raws.drop (skip - number))) v' ∧
      (List.range (chunkCount z done)).map template ++ out
        = (List.range (chunkCount z (done
            ++ limited count done.length
              (raws.drop (skip - number))))).map template := by
  induction raws generalizing number offset items done v with
  | nil =>
      cases hitems
      rw [List.drop_nil, limited_nil, List.append_nil]
      exact ⟨v, [], rfl, h, List.append_nil _⟩
  | cons raw raws ih =>
      obtain ⟨hraw, hraws⟩ := List.forall_mem_cons.mp hshort
      obtain _ | ⟨hover, hrest⟩ := hitems
      next item items =>
      obtain ⟨rd, record⟩ := item
      have hnumber : rd.currentNumber = number := hover.number
      by_cases hskip : number < skip
      · -- the record lies in front of the first
        have hdrop : (raw :: raws).drop (skip - number)
            = raws.drop (skip - (number + 1)) := by
          have hsub : skip - number = skip - (number + 1) + 1 := by omega
          rw [hsub, List.drop_succ_cons]
        have hbody : splitBody template skip count z rd record v
            = (.next v, []) := by
          apply splitBody_drops
          rw [hnumber]
          omega
        rw [hdrop] at hK ⊢
        obtain ⟨v', out, hrun, hfilled, hout⟩ := ih hraws hrest h hK
        refine ⟨v', out, ?_, hfilled, hout⟩
        rw [Loop.run_next hbody, hrun]
        rfl
      · have hzero : skip - number = 0 := by omega
        have hzero' : skip - (number + 1) = 0 := by omega
        have hbehind : ¬ rd.currentNumber < skip := by
          rw [hnumber]
          omega
        rw [hzero, List.drop_zero] at hK ⊢
        by_cases hcount : 0 ≤ count ∧ count ≤ v.written
        · -- enough records have been written
          have hbody : splitBody template skip count z rd record v
              = (.leave v, []) := splitBody_stops hbehind hcount
          rw [h.written] at hcount
          rw [limited_done _ hcount, List.append_nil]
          exact ⟨v, [], Loop.run_leave hbody, h, List.append_nil _⟩
        · have hmore : done ++ limited count done.length (raw :: raws)
              = (done ++ [raw]) ++ limited count (done ++ [raw]).length
                (raws.drop (skip - (number + 1))) := by
            rw [hzero', List.drop_zero]
            exact append_limited_cons done raw raws (h.written ▸ hcount)
          rw [hmore] at hK ⊢
          obtain ⟨v₁, out₁, hbody, hfilled₁, hout₁⟩ := splitBody_writes hz
            hnames hraw h (Nat.le_trans (chunkCount_mono _ _) hK) hover.raw
            hbehind hcount
          obtain ⟨v', out, hrun, hfilled, hout⟩ := ih hraws hrest hfilled₁ hK
          refine ⟨v', out₁ ++ out, ?_, hfilled, ?_⟩
          · rw [Loop.run_next hbody, hrun]
          · rw [← List.append_assoc, hout₁, hout]

-- =============================================================== the property

/-- The files that were opened, in the order of their numbers, are the
records, cut into pieces of `splitsize`; nothing else on the disk has
changed. -/
structure SplitsInto (template : Nat → Text) (splitsize : Nat)
    (records : List Bytes) (disk disk' : Disk) (opened : List Text)
    (files : List (List Bytes)) : Prop where
  names : opened = (List.range files.length).map template
  /-- A file is the frames of its records. -/
  contents : ∀ i file, files[i]? = some file →
    disk' (template i) = some (frames file)
  full : ∀ i file, files[i]? = some file → i + 1 < files.length →
    file.length = splitsize
  last : ∀ file ∈ files, 0 < file.length ∧ file.length ≤ splitsize
  /-- No record is lost, and none is there twice. -/
  whole : files.flatten = records
  /-- The files put together are the frames of the records. -/
  bytes : (opened.flatMap fun name => (disk' name).getD [])
    = frames records
  others : ∀ name, name ∉ opened → disk' name = disk name

theorem filled_splits {records : List Bytes} {v : SplitVars} (hz : 0 < z)
    (h : Filled template disk z records v) :
    SplitsInto template z records disk v.disk
      ((List.range (chunkCount z records)).map template)
      ((List.range (chunkCount z records)).map (chunk z records)) := by
  have hget : ∀ i file,
      ((List.range (chunkCount z records)).map (chunk z records))[i]?
        = some file → i < chunkCount z records ∧ file = chunk z records i := by
    intro i file hfile
    rw [List.getElem?_map, Option.map_eq_some_iff] at hfile
    obtain ⟨j, hj, rfl⟩ := hfile
    obtain ⟨hlt, hj⟩ := List.getElem?_eq_some_iff.mp hj
    rw [List.getElem_range] at hj
    rw [List.length_range] at hlt
    subst hj
    exact ⟨hlt, rfl⟩
  have hlen : ((List.range (chunkCount z records)).map
      (chunk z records)).length = chunkCount z records := by
    rw [List.length_map, List.length_range]
  exact {
    names := by rw [hlen]
    contents := fun i file hfile => by
      obtain ⟨hlt, rfl⟩ := hget i file hfile
      exact h.holds.file i hlt
    full := fun i file hfile hnext => by
      obtain ⟨-, rfl⟩ := hget i file hfile
      rw [hlen] at hnext
      exact chunk_full hz hnext
    last := fun file hfile => by
      obtain ⟨i, hi, rfl⟩ := List.mem_map.mp hfile
      exact chunk_length hz (List.mem_range.mp hi)
    whole := by
      rw [← List.flatMap_def]
      exact flatMap_pieces hz
    bytes := by
      have hfiles : ((List.range (chunkCount z records)).map template).flatMap
          (fun name => (v.disk name).getD [])
          = (List.range (chunkCount z records)).flatMap
              fun i => frames (chunk z records i) := by
        rw [List.flatMap_map]
        refine List.flatMap_congr fun i hi => ?_
        rw [h.holds.file i (List.mem_range.mp hi)]
        rfl
      rw [hfiles]
      unfold frames
      rw [← List.flatMap_assoc, flatMap_pieces hz]
    others := fun name hname => h.holds.other name fun i hi heq =>
      hname (heq ▸ List.mem_map_of_mem (List.mem_range.mpr hi)) }

/-- `pbsplit` loses no record and writes none twice. -/
theorem pbsplit_splits (new : PythonNew) (sch : Schema) (msgnum : UInt32)
    (uninit : Nat → UInt64) (tells : Bool) (template : Nat → Text)
    (disk : Disk) {raws : List Bytes} {stream : Bytes}
    (skip splitsize : Nat) (count : Int)
    (hshort : ∀ raw ∈ raws, raw.length < 2 ^ 32)
    (hstream : raws.foldlM writeRaw [] = some stream)
    (hdec : ∀ raw ∈ raws, ∀ u, ∃ items,
      decoderDecode new sch u raw msgnum = .dict items none)
    (hsize : 1 ≤ splitsize)
    (hnames : Distinct template
      (chunkCount splitsize (selected raws skip count))) :
    ∃ opened v files,
      Halts (splitStep template skip count splitsize new sch msgnum uninit)
        (.init ⟨stream, 0, tells⟩, .start disk) opened (.done v) ∧
      SplitsInto template splitsize (selected raws skip count) disk v.disk
        opened files := by
  obtain rfl := written_frames hshort hstream
  have hdecoded : ∀ raw ∈ raws, ∀ u,
      (decoding new sch msgnum u raw).isSome := by
    intro raw hraw u
    obtain ⟨items, hitems⟩ := hdec raw hraw u
    exact decoding_isSome hitems
  obtain ⟨items, hdelivers, hover⟩ := @stream_delivers new sch msgnum uninit
    raws 0 0 (.init ⟨frames raws, 0, tells⟩) hshort hdecoded rfl rfl rfl rfl
  obtain ⟨v, out, hrun, hfilled, hout⟩ := @run_filled template disk splitsize
    _ new sch msgnum uninit tells raws 0 0 skip count items [] _ hsize hnames
    hshort hover (filled_start disk hsize) (Nat.le_refl _)
  have hhalts := hdelivers.halts (splitBody template skip count splitsize)
    (SplitVars.start disk)
  rw [hrun] at hhalts
  rw [chunkCount_nil hsize, List.range_zero, List.map_nil, List.nil_append]
    at hout
  subst hout
  exact ⟨_, v, _, hhalts, filled_splits hsize hfilled⟩

/-- Three records of one field, the first of them skipped: a file of two. -/
theorem pbsplit_splits_three : ∃ opened v files,
    Halts (splitStep (defaultTemplate ['a']) (1 : Nat) (-1) (2 : Nat) plainNew
        numberSchema 0 fun _ => 0)
      (.init ⟨[2, 0, 0, 0, 8, 5, 2, 0, 0, 0, 8, 5, 2, 0, 0, 0, 8, 5], 0,
        false⟩, .start fun _ => none) opened (.done v) ∧
    SplitsInto (defaultTemplate ['a']) 2
      (selected [[8, 5], [8, 5], [8, 5]] 1 (-1)) (fun _ => none) v.disk opened
      files :=
  pbsplit_splits plainNew numberSchema 0 (fun _ => 0) false
    (defaultTemplate ['a']) (fun _ => none) 1 2 (-1) (by decide)
    (show _ = some [2, 0, 0, 0, 8, 5, 2, 0, 0, 0, 8, 5, 2, 0, 0, 0, 8, 5] by
      decide +kernel)
    (fun raw hraw u => by
      obtain rfl : raw = [8, 5] := by simpa using hraw
      exact ⟨[("a", .other (plainId (.int 5)))], rfl⟩)
    (by decide) (defaultTemplate_distinct _ _)

end Lwpb.Python
