/-
An index and the stream it is for.

What `pbindex` stores for a record is the offset that the reader noted in
front of its length word. A reader that is put there reads the record,
whatever it did before: a read forgets what the last one left, and needs
nothing but the position (`read_place`). So lookups give back the records
of a key, in the order in which they are in the file
(`index_lookup_agree`).

A stream is taken apart at any of its records (`frames_split`), and
`Place` names a record by its number and the offset of its length word. A
pass over the stream hands the body of the loop these places in order
(`stream_delivers`), so the index that `pbindex` builds is a function of
the stream, with the places under the keys of their records. A lookup
seeks to each place of a key, in the order of the index, and reads there
what the pass read (`lookupValues_places`).
-/
import Lwpb.Python.Index
import Lwpb.Proofs.Python.Stream

namespace Lwpb.Python

open Machine Memory Slice

variable {new : PythonNew} {sch : Schema} {msgnum : UInt32}

-- =================================================================== places

/-- A record of a stream: which one it is, and where its length word is. -/
structure Place where
  raw : Bytes
  number : Nat
  offset : Nat
  deriving Repr, DecidableEq

/-- The records of a stream. -/
def places (raws : List Bytes) : List Place :=
  raws.mapIdx fun i raw => ⟨raw, i, (frames (raws.take i)).length⟩

/-- The records of a part of a stream. -/
def placed : List Bytes → (number offset : Nat) → List Place
  | [], _, _ => []
  | raw :: raws, number, offset =>
      ⟨raw, number, offset⟩ ::
        placed raws (number + 1) (offset + (frame raw).length)

theorem placed_eq_mapIdx (raws : List Bytes) (number offset : Nat) :
    placed raws number offset = raws.mapIdx fun i raw =>
      ⟨raw, number + i, offset + (frames (raws.take i)).length⟩ := by
  induction raws generalizing number offset with
  | nil => rfl
  | cons raw raws ih =>
      have hlen : ∀ i, (frames ((raw :: raws).take (i + 1))).length
          = (frame raw).length + (frames (raws.take i)).length := by
        intro i
        rw [List.take_succ_cons, frames, List.flatMap_cons,
          List.length_append]
        rfl
      rw [placed, ih, List.mapIdx_cons]
      refine congrArg (List.cons _) ?_
      refine congrArg (fun f => raws.mapIdx f) (funext fun i => ?_)
      funext raw'
      rw [hlen, ← Nat.add_assoc offset, Nat.add_right_comm number]
      rfl

@[simp] theorem placed_length (raws : List Bytes) (number offset : Nat) :
    (placed raws number offset).length = raws.length := by
  rw [placed_eq_mapIdx, List.length_mapIdx]

theorem places_eq_placed (raws : List Bytes) :
    places raws = placed raws 0 0 := by
  rw [placed_eq_mapIdx]
  simp only [Nat.zero_add]
  rfl

theorem map_places {α : Type} (raws : List Bytes) (g : Place → α) :
    (places raws).map g = raws.mapIdx fun i raw =>
      g ⟨raw, i, (frames (raws.take i)).length⟩ := by
  refine (List.mapIdx_eq_iff.mpr fun i => ?_).symm
  rw [List.getElem?_map, places, List.getElem?_mapIdx, Option.map_map]
  rfl

/-- A record is where its place says. -/
theorem frames_split {raws : List Bytes} {number offset : Nat} {p : Place}
    (hp : p ∈ placed raws number offset) : p.raw ∈ raws ∧
      ∃ before after, frames raws = before ++ (frame p.raw ++ after) ∧
        p.offset = offset + before.length := by
  induction raws generalizing number offset with
  | nil => cases hp
  | cons raw raws ih =>
      rcases List.mem_cons.mp hp with rfl | hp
      · exact ⟨List.mem_cons_self, [], frames raws, rfl, rfl⟩
      · obtain ⟨hmem, before, after, hsplit, hoffset⟩ := ih hp
        refine ⟨List.mem_cons_of_mem _ hmem, frame raw ++ before, after, ?_,
          ?_⟩
        · rw [List.append_assoc, ← hsplit]
          rfl
        · rw [hoffset, List.length_append, Nat.add_assoc]

-- ================================================================== reading

/-- What the decoder makes of a raw record. -/
def decoding (new : PythonNew) (sch : Schema) (msgnum : UInt32)
    (uninit : UInt64) (raw : Bytes) : Option Items :=
  match decoderDecode new sch uninit raw msgnum with
  | .dict items none => some items
  | _ => none

theorem decoding_eq_some {u : UInt64} {raw : Bytes} {items : Items} :
    decoding new sch msgnum u raw = some items ↔
      decoderDecode new sch u raw msgnum = .dict items none := by
  unfold decoding
  constructor
  · intro h
    split at h
    · next items' hdec =>
        cases h
        exact hdec
    · cases h
  · intro h
    rw [h]

theorem decoding_isSome {u : UInt64} {raw : Bytes} {items : Items}
    (h : decoderDecode new sch u raw msgnum = .dict items none) :
    (decoding new sch msgnum u raw).isSome := by
  rw [decoding_eq_some.mpr h]
  rfl

/-- At the start of a record the reader reads it. -/
theorem read_frame {rd : StreamReader} {raw more : Bytes} {items : Items}
    {u : UInt64} (hraw : raw.length < 2 ^ 32)
    (h : rd.rest = frame raw ++ more)
    (hdec : decoding new sch msgnum u raw = some items) :
    rd.read new sch msgnum u
      = .ok (rd.holds raw.length (raw ++ more) (some items)) := by
  have hword : rd.rest = leBytes 4 raw.length ++ (raw ++ more) := by
    rw [h, frame, List.append_assoc]
  have htake : (raw ++ more).take raw.length = raw := List.take_left
  rw [read_word u hraw hword, htake, decoding_eq_some.mp hdec]
  show ReadRet.ok _ = ReadRet.ok (StreamReader.holds rd _ _ _)
  unfold StreamReader.holds
  rw [htake]

/-- What a reader hands to the body of a loop for the record at a place. -/
structure HandsOver (new : PythonNew) (sch : Schema) (msgnum : UInt32)
    (uninit : Nat → UInt64) (tells : Bool) (p : Place)
    (item : StreamReader × Items) : Prop where
  raw : item.1.currentRaw = some p.raw
  number : item.1.currentNumber = (p.number : Int)
  offset : tells = true → item.1.currentOffset = some p.offset
  record : decoding new sch msgnum (uninit p.number) p.raw = some item.2

section Delivering

variable {uninit : Nat → UInt64}

/-- A turn at the start of a record. -/
theorem streamTurn_frame {rd : StreamReader} {raw more : Bytes}
    {items : Items} {number : Nat} (hraw : raw.length < 2 ^ 32)
    (heof : rd.eof = false) (hrest : rd.rest = frame raw ++ more)
    (hnumber : rd.currentNumber + 1 = (number : Int))
    (hdec : decoding new sch msgnum (uninit number) raw = some items) :
    streamTurn new sch msgnum uninit rd
      = .item (rd.holds raw.length (raw ++ more) (some items)) items := by
  have hindex : (rd.currentNumber + 1).toNat = number := by
    rw [hnumber]
    rfl
  unfold streamTurn
  rw [heof, hindex, read_frame hraw hrest hdec]
  rfl

/-- With less than a length word left, a turn notes the end. -/
theorem stream_delivers_short {rd : StreamReader} (heof : rd.eof = false)
    (h : rd.rest.length < 4) :
    Loop.Delivers (streamTurn new sch msgnum uninit) rd [] := by
  obtain ⟨rd', hread, heof', hrecord, -⟩ := @read_short new sch msgnum rd
    (uninit (rd.currentNumber + 1).toNat) h
  have hagain : streamTurn new sch msgnum uninit rd = .again rd' := by
    unfold streamTurn
    rw [heof, hread]
    simp only [hrecord]
    rfl
  have hstop : streamTurn new sch msgnum uninit rd' = .stop := by
    unfold streamTurn
    rw [heof']
    rfl
  exact .again hagain (.stop hstop)

/-- A reader delivers the records of a stream, if they are decoded. -/
theorem stream_delivers {raws : List Bytes} {number offset : Nat}
    {rd : StreamReader} (hshort : ∀ raw ∈ raws, raw.length < 2 ^ 32)
    (hdec : ∀ raw ∈ raws, ∀ u, (decoding new sch msgnum u raw).isSome)
    (heof : rd.eof = false) (hrest : rd.rest = frames raws)
    (hpos : rd.stream.pos = offset)
    (hnumber : rd.currentNumber + 1 = (number : Int)) :
    ∃ items, Loop.Delivers (streamTurn new sch msgnum uninit) rd items ∧
      List.Forall₂ (HandsOver new sch msgnum uninit
        (rd.seekable && rd.stream.tells)) (placed raws number offset)
        items := by
  induction raws generalizing rd number offset with
  | nil =>
      refine ⟨[], stream_delivers_short heof ?_, .nil⟩
      rw [hrest]
      decide
  | cons raw raws ih =>
      obtain ⟨hraw, hraws⟩ := List.forall_mem_cons.mp hshort
      obtain ⟨hhead, htail⟩ := List.forall_mem_cons.mp hdec
      obtain ⟨record, hrecord⟩ := Option.isSome_iff_exists.mp
        (hhead (uninit number))
      have htake : (raw ++ frames raws).take raw.length = raw :=
        List.take_left
      -- the reader behind the first record
      let rd₁ := rd.holds raw.length (raw ++ frames raws) (some record)
      have hturn : streamTurn new sch msgnum uninit rd = .item rd₁ record :=
        streamTurn_frame hraw heof hrest hnumber hrecord
      have hpos₁ : rd₁.stream.pos = offset + (frame raw).length := by
        show rd.stream.pos + 4 + ((raw ++ frames raws).take raw.length).length
          = _
        rw [htake, hpos, frame_length, Nat.add_assoc]
      have htells₁ : (rd₁.seekable && rd₁.stream.tells)
          = (rd.seekable && rd.stream.tells) := by
        show ((rd.seekable && rd.stream.tells) && rd.stream.tells) = _
        rw [Bool.and_assoc, Bool.and_self]
      have hnumber₁ : rd₁.currentNumber + 1 = ((number + 1 : Nat) : Int) := by
        show rd.currentNumber + 1 + 1 = _
        rw [hnumber]
        rfl
      obtain ⟨items, hitems, hover⟩ := @ih _ _ rd₁ hraws htail heof
        (holds_rest hrest) hpos₁ hnumber₁
      rw [htells₁] at hover
      refine ⟨(rd₁, record) :: items, .item hturn hitems, .cons ?_ hover⟩
      exact {
        raw := congrArg some htake
        number := hnumber
        offset := fun htells => by
          show (if rd.seekable && rd.stream.tells then some rd.stream.pos
            else rd.currentOffset) = _
          rw [if_pos htells, hpos]
        record := hrecord }

/-- A turn of a loop without variables is a turn of the iteration, with the
body behind it. -/
theorem forStep_eq {ε : Type}
    {body : StreamReader → Items → Except PyErr (List ε)}
    (rd : StreamReader) :
    forStep new sch msgnum body uninit rd =
      match streamTurn new sch msgnum uninit rd with
      | .item rd record =>
          match body rd record with
          | .ok out => .next rd out
          | .error error => .halt (.raised error) []
      | .again rd => .next rd []
      | .stop => .halt (.stop rd) []
      | .exit (.raised error) => .halt (.raised error) []
      | .exit .abort => .halt .abort []
      | .exit .fault => .halt .fault [] := by
  unfold forStep streamTurn
  cases rd.eof with
  | true => rfl
  | false =>
      cases rd.read new sch msgnum (uninit (rd.currentNumber + 1).toNat) with
      | ok rd =>
          cases hrecord : rd.currentRecord with
          | none =>
              simp only [hrecord]
              rfl
          | some record =>
              simp only [hrecord]
              rfl
      | raised error => rfl
      | abort => rfl
      | fault => rfl

/-- A loop without variables over what a reader delivers for these
places. -/
theorem forStep_delivers {ε : Type}
    {body : StreamReader → Items → Except PyErr (List ε)}
    {out : Place → List ε} {rd : StreamReader}
    {items : List (StreamReader × Items)} {ps : List Place}
    (h : Loop.Delivers (streamTurn new sch msgnum uninit) rd items)
    (hbody : List.Forall₂ (fun p item => body item.1 item.2 = .ok (out p))
      ps items) :
    ∃ rd', Halts (forStep new sch msgnum body uninit) rd
      (ps.flatMap out) (.stop rd') := by
  induction h generalizing ps with
  | @stop rd hturn =>
      cases hbody
      refine ⟨rd, .stop ?_⟩
      rw [forStep_eq, hturn]
      rfl
  | @again rd rd₁ items hturn _ ih =>
      obtain ⟨rd', hhalts⟩ := ih hbody
      have hmove : forStep new sch msgnum body uninit rd = .next rd₁ [] := by
        rw [forStep_eq, hturn]
      exact ⟨rd', .step hmove hhalts⟩
  | @item rd rd₁ record items hturn _ ih =>
      obtain _ | ⟨hhead, htail⟩ := hbody
      next p ps =>
      obtain ⟨rd', hhalts⟩ := ih htail
      have hmove : forStep new sch msgnum body uninit rd
          = .next rd₁ (out p) := by
        rw [forStep_eq, hturn]
        dsimp only
        rw [hhead]
      exact ⟨rd', .step hmove hhalts⟩

end Delivering

/-- What a loop over a stream of records that are decoded comes to, if its
body comes to `out` of the place of each. -/
theorem forStep_frames {ε : Type}
    {body : StreamReader → Items → Except PyErr (List ε)}
    {uninit : Nat → UInt64} {out : Place → List ε} {raws : List Bytes}
    {number offset : Nat} {rd : StreamReader}
    (hshort : ∀ raw ∈ raws, raw.length < 2 ^ 32)
    (hdec : ∀ raw ∈ raws, ∀ u, (decoding new sch msgnum u raw).isSome)
    (hbody : ∀ p ∈ placed raws number offset, ∀ rd items,
      rd.currentRaw = some p.raw → rd.currentNumber = (p.number : Int) →
      rd.currentOffset = some p.offset →
      decoding new sch msgnum (uninit p.number) p.raw = some items →
      body rd items = .ok (out p))
    (heof : rd.eof = false) (hrest : rd.rest = frames raws)
    (hpos : rd.stream.pos = offset) (hseekable : rd.seekable = true)
    (htells : rd.stream.tells = true)
    (hnumber : rd.currentNumber + 1 = (number : Int)) :
    ∃ rd', Halts (forStep new sch msgnum body uninit) rd
      ((placed raws number offset).flatMap out) (.stop rd') := by
  obtain ⟨items, hitems, hover⟩ := @stream_delivers new sch msgnum uninit
    raws number offset rd hshort hdec heof hrest hpos hnumber
  rw [hseekable, htells] at hover
  exact forStep_delivers hitems
    (((List.forall₂_and_left _ _).mpr ⟨hbody, hover⟩).imp fun p item h =>
      h.1 item.1 item.2 h.2.raw h.2.number (h.2.offset rfl) h.2.record)

-- ================================================================= lookups

theorem long_offsetText (n : Nat) : long (offsetText (some n)) = some n := by
  have hdigits : (Nat.toDigits 10 n).all Char.isDigit = true :=
    List.all_eq_true.mpr fun c hc =>
      Nat.isDigit_of_mem_toDigits (by decide) (by decide) hc
  have hne : (Nat.toDigits 10 n).isEmpty = false := by
    rw [List.isEmpty_eq_false_iff]
    exact Nat.toDigits_ne_nil
  unfold long offsetText
  simp only [hdigits, hne, Nat.ofDigitChars_ten_toDigits]
  rfl

/-- A reader that is put to a record reads it, and is left with the same
file. -/
theorem read_place {raws : List Bytes} {p : Place} {rd : StreamReader}
    {u : UInt64} {items : Items}
    (hshort : ∀ raw ∈ raws, raw.length < 2 ^ 32) (hp : p ∈ places raws)
    (hdata : rd.stream.data = frames raws)
    (hdec : decoding new sch msgnum u p.raw = some items) :
    ∃ rd', (rd.seek p.offset).read new sch msgnum u = .ok rd' ∧
      rd'.currentRecord = some items ∧ rd'.stream.data = frames raws := by
  rw [places_eq_placed] at hp
  obtain ⟨hmem, before, after, hsplit, hoffset⟩ := frames_split hp
  have hrest : (rd.seek p.offset).rest = frame p.raw ++ after := by
    show rd.stream.data.drop p.offset = _
    rw [hdata, hsplit, hoffset, Nat.zero_add, List.drop_left]
  exact ⟨_, read_frame (hshort _ hmem) hrest hdec, rfl, hdata⟩

/-- The loop over the offsets of some records reads these records. -/
theorem lookupValues_places {raws : List Bytes} {uninit : Nat → UInt64}
    {ps : List Place} {rd : StreamReader}
    (hshort : ∀ raw ∈ raws, raw.length < 2 ^ 32)
    (hdec : ∀ raw ∈ raws, ∀ u, (decoding new sch msgnum u raw).isSome)
    (hps : ∀ p ∈ ps, p ∈ places raws)
    (hdata : rd.stream.data = frames raws) :
    ∃ rd', lookupValues new sch msgnum uninit rd
        (ps.map fun p => offsetText (some p.offset))
      = .ok rd' (ps.map fun p =>
          decoding new sch msgnum (uninit p.offset) p.raw) ∧
      rd'.stream.data = frames raws := by
  induction ps generalizing rd with
  | nil => exact ⟨rd, rfl, hdata⟩
  | cons p ps ih =>
      obtain ⟨hp, hps⟩ := List.forall_mem_cons.mp hps
      have hmem : p.raw ∈ raws := by
        rw [places_eq_placed] at hp
        exact (frames_split hp).1
      obtain ⟨items, hitems⟩ := Option.isSome_iff_exists.mp
        (hdec p.raw hmem (uninit p.offset))
      obtain ⟨rd₁, hread, hrecord, hdata₁⟩ := @read_place new sch msgnum raws
        p rd _ items hshort hp hdata hitems
      obtain ⟨rd', hlookup, hdata'⟩ := ih hps hdata₁
      refine ⟨rd', ?_, hdata'⟩
      rw [List.map_cons, List.map_cons, lookupValues, long_offsetText]
      simp only [hread, hlookup, hrecord, hitems]
      rfl

/-- What the loop of `pblookup` hands on, line by line. -/
theorem lookupLines_places {raws : List Bytes} {found : Bytes → List Place}
    {getall : Bytes → List Text}
    (hshort : ∀ raw ∈ raws, raw.length < 2 ^ 32)
    (hdec : ∀ raw ∈ raws, ∀ u, (decoding new sch msgnum u raw).isSome)
    (hfound : ∀ key, ∀ p ∈ found key, p ∈ places raws)
    (hgetall : ∀ key, getall key
      = (found key).map fun p => offsetText (some p.offset))
    (lines : List (Bytes × (Nat → UInt64))) {rd : StreamReader}
    (hdata : rd.stream.data = frames raws) :
    ∃ rd', lookupLines new sch msgnum getall rd lines
      = .ok rd' (lines.flatMap fun line => (found (stripLine line.1)).map
          fun p => decoding new sch msgnum (line.2 p.offset) p.raw) := by
  induction lines generalizing rd with
  | nil => exact ⟨rd, rfl⟩
  | cons line lines ih =>
      obtain ⟨key, uninit⟩ := line
      obtain ⟨rd₁, hvalues, hdata₁⟩ := @lookupValues_places new sch msgnum
        raws uninit (found (stripLine key)) rd hshort hdec (hfound _) hdata
      obtain ⟨rd', hlines⟩ := ih hdata₁
      refine ⟨rd', ?_⟩
      rw [lookupLines, hgetall, hvalues]
      simp only [hlines]
      rfl

-- =================================================================== results

/-- The key of a raw record, as a text. -/
def recordKey (new : PythonNew) (sch : Schema) (msgnum : UInt32)
    (str : PyObject → Bytes) (key : String) (uninit : UInt64) (raw : Bytes) :
    Option Bytes :=
  (decoding new sch msgnum uninit raw).bind fun items =>
    (items.lookup key).map str

/-- The records with this key. The decoder's local is given by number. -/
def keyed (new : PythonNew) (sch : Schema) (msgnum : UInt32)
    (str : PyObject → Bytes) (key : String) (uninit : Nat → UInt64)
    (raws : List Bytes) (k : Bytes) : List Place :=
  (places raws).filter fun p =>
    recordKey new sch msgnum str key (uninit p.number) p.raw = some k

section Indexed

variable {new : PythonNew} {sch : Schema} {msgnum : UInt32}
  {str : PyObject → Bytes} {key : String} {uninit : Nat → UInt64}
  {raws : List Bytes}

/-- The key of the record at a place, if it has one. -/
def keyAt (new : PythonNew) (sch : Schema) (msgnum : UInt32)
    (str : PyObject → Bytes) (key : String) (uninit : Nat → UInt64)
    (p : Place) : Bytes :=
  (recordKey new sch msgnum str key (uninit p.number) p.raw).getD []

theorem recordKey_at {p : Place}
    (hdec : ∀ raw ∈ raws, ∀ u, ∃ items,
      decoderDecode new sch u raw msgnum = .dict items none ∧
        (items.lookup key).isSome)
    (hp : p ∈ places raws) :
    recordKey new sch msgnum str key (uninit p.number) p.raw
      = some (keyAt new sch msgnum str key uninit p) := by
  rw [places_eq_placed] at hp
  obtain ⟨items, hitems, hkey⟩ := hdec p.raw (frames_split hp).1
    (uninit p.number)
  obtain ⟨v, hv⟩ := Option.isSome_iff_exists.mp hkey
  have hrecord : recordKey new sch msgnum str key (uninit p.number) p.raw
      = some (str v) := by
    unfold recordKey
    rw [decoding_eq_some.mpr hitems, Option.bind_some, hv]
    rfl
  unfold keyAt
  rw [hrecord]
  rfl

/-- The loop of a reader that hands on what it finds. -/
theorem viewStep_places (hshort : ∀ raw ∈ raws, raw.length < 2 ^ 32)
    (hdec : ∀ raw ∈ raws, ∀ u, (decoding new sch msgnum u raw).isSome) :
    ∃ rd, Halts (viewStep new sch msgnum uninit)
      (.init ⟨frames raws, 0, true⟩)
      (raws.mapIdx fun i raw =>
        (some raw, (i : Int), some (frames (raws.take i)).length))
      (.stop rd) := by
  obtain ⟨rd, hhalts⟩ := @forStep_frames new sch msgnum _
    (fun rd _ => .ok [(rd.currentRaw, rd.currentNumber, rd.currentOffset)])
    uninit (fun p => [(some p.raw, (p.number : Int), some p.offset)]) raws
    0 0 (.init ⟨frames raws, 0, true⟩) hshort hdec
    (fun p _ rd items hraw hnumber hoffset _ => by
      rw [hraw, hnumber, hoffset])
    rfl rfl rfl rfl rfl rfl
  rw [← places_eq_placed, ← List.map_eq_flatMap, map_places] at hhalts
  exact ⟨rd, hhalts⟩

/-- The loop of `pbindex` adds the offset of each record under its key. -/
theorem indexStep_places (hshort : ∀ raw ∈ raws, raw.length < 2 ^ 32)
    (hdec : ∀ raw ∈ raws, ∀ u, (decoding new sch msgnum u raw).isSome)
    (hkeyed : ∀ p ∈ places raws,
      recordKey new sch msgnum str key (uninit p.number) p.raw
        = some (keyAt new sch msgnum str key uninit p)) :
    ∃ rd, Halts (indexStep new sch msgnum str key uninit)
      (.init ⟨frames raws, 0, true⟩)
      ((places raws).map fun p => (keyAt new sch msgnum str key uninit p,
        offsetText (some p.offset)))
      (.stop rd) := by
  obtain ⟨rd, hhalts⟩ := @forStep_frames new sch msgnum _
    (indexBody str key) uninit
    (fun p => [(keyAt new sch msgnum str key uninit p,
      offsetText (some p.offset))]) raws 0 0
    (.init ⟨frames raws, 0, true⟩) hshort hdec
    (fun p hp rd items hraw hnumber hoffset hitems => by
      have hkey := hkeyed p (by rw [places_eq_placed]; exact hp)
      unfold recordKey at hkey
      rw [hitems, Option.bind_some] at hkey
      obtain ⟨v, hv, hstr⟩ := Option.map_eq_some_iff.mp hkey
      unfold indexBody
      rw [hv, hoffset, ← hstr])
    rfl rfl rfl rfl rfl rfl
  rw [← places_eq_placed, ← List.map_eq_flatMap] at hhalts
  exact ⟨rd, hhalts⟩

/-- What the index holds for a key is the offsets of its records. -/
theorem filter_keyAt (hkeyed : ∀ p ∈ places raws,
      recordKey new sch msgnum str key (uninit p.number) p.raw
        = some (keyAt new sch msgnum str key uninit p)) (k : Bytes) :
    (((places raws).map fun p => (keyAt new sch msgnum str key uninit p,
        offsetText (some p.offset))).filter (·.1 = k)).map Prod.snd
      = (keyed new sch msgnum str key uninit raws k).map
        fun p => offsetText (some p.offset) := by
  have hfilter : (places raws).filter
      (keyAt new sch msgnum str key uninit · = k)
        = keyed new sch msgnum str key uninit raws k := by
    refine List.filter_congr fun p hp => ?_
    rw [hkeyed p hp]
    simp only [Option.some.injEq]
  rw [List.filter_map, List.map_map, ← hfilter]
  rfl

end Indexed

/-- A stream is read back record by record, at the offsets of the records;
and the index on it and lookups agree: for every key, and for every line,
the records with that key are read, in the order of the file, whatever the
reader did before. -/
theorem index_lookup_agree (new : PythonNew) (sch : Schema) (msgnum : UInt32)
    (str : PyObject → Bytes) (key : String)
    (getall : List (Bytes × Text) → Bytes → List Text)
    (hgetall : ∀ adds k,
      getall adds k = (adds.filter (·.1 = k)).map Prod.snd)
    {raws : List Bytes} {stream : Bytes}
    (hshort : ∀ raw ∈ raws, raw.length < 2 ^ 32)
    (hstream : raws.foldlM writeRaw [] = some stream)
    (hdec : ∀ raw ∈ raws, ∀ u, ∃ items,
      decoderDecode new sch u raw msgnum = .dict items none ∧
        (items.lookup key).isSome)
    (uninit : Nat → UInt64) :
    (∃ rd, Halts (viewStep new sch msgnum uninit) (.init ⟨stream, 0, true⟩)
        (raws.mapIdx fun i raw =>
          (some raw, (i : Int), some (frames (raws.take i)).length))
        (.stop rd)) ∧
    ∃ adds rd, Halts (indexStep new sch msgnum str key uninit)
        (.init ⟨stream, 0, true⟩) adds (.stop rd) ∧
      (∀ (rd : StreamReader) (k : Bytes) (u : Nat → UInt64),
        rd.stream.data = stream → ∃ rd',
          lookupValues new sch msgnum u rd (getall adds k)
            = .ok rd' ((keyed new sch msgnum str key uninit raws k).map
                fun p => decoding new sch msgnum (u p.offset) p.raw) ∧
          rd'.stream.data = stream) ∧
      ∀ (rd : StreamReader) (lines : List (Bytes × (Nat → UInt64))),
        rd.stream.data = stream → ∃ rd',
          lookupLines new sch msgnum (getall adds) rd lines
            = .ok rd' (lines.flatMap fun line =>
                (keyed new sch msgnum str key uninit raws
                  (stripLine line.1)).map fun p =>
                  decoding new sch msgnum (line.2 p.offset) p.raw) := by
  obtain rfl := written_frames hshort hstream
  have hdecoded : ∀ raw ∈ raws, ∀ u,
      (decoding new sch msgnum u raw).isSome := by
    intro raw hraw u
    obtain ⟨items, hitems, -⟩ := hdec raw hraw u
    exact decoding_isSome hitems
  have hkeyed : ∀ p ∈ places raws,
      recordKey new sch msgnum str key (uninit p.number) p.raw
        = some (keyAt new sch msgnum str key uninit p) :=
    fun p hp => recordKey_at hdec hp
  constructor
  · exact viewStep_places hshort hdecoded
  · obtain ⟨rd, hhalts⟩ := indexStep_places hshort hdecoded hkeyed
    have hindex : ∀ k, getall ((places raws).map fun p =>
        (keyAt new sch msgnum str key uninit p, offsetText (some p.offset))) k
        = (keyed new sch msgnum str key uninit raws k).map
          fun p => offsetText (some p.offset) := by
      intro k
      rw [hgetall]
      exact filter_keyAt hkeyed k
    have hplaces : ∀ k, ∀ p ∈ keyed new sch msgnum str key uninit raws k,
        p ∈ places raws := fun _ p hp => (List.mem_filter.mp hp).1
    refine ⟨_, rd, hhalts, ?_, ?_⟩
    · intro rd k u hdata
      rw [hindex]
      exact lookupValues_places hshort hdecoded (hplaces k) hdata
    · intro rd lines hdata
      exact lookupLines_places hshort hdecoded hplaces hindex lines hdata

/-- One record, twice in a stream: both are found under its key. -/
theorem index_lookup_agree_twice :
    (∃ rd, Halts (viewStep plainNew numberSchema 0 fun _ => 0)
        (.init ⟨[2, 0, 0, 0, 8, 5, 2, 0, 0, 0, 8, 5], 0, true⟩)
        ([[8, 5], [8, 5]].mapIdx fun i raw =>
          (some raw, (i : Int),
            some (frames (([[8, 5], [8, 5]] : List Bytes).take i)).length))
        (.stop rd)) ∧
    ∃ adds rd, Halts (indexStep plainNew numberSchema 0 (fun _ => [53]) "a"
          fun _ => 0)
        (.init ⟨[2, 0, 0, 0, 8, 5, 2, 0, 0, 0, 8, 5], 0, true⟩) adds
        (.stop rd) ∧
      (∀ (rd : StreamReader) (k : Bytes) (u : Nat → UInt64),
        rd.stream.data = [2, 0, 0, 0, 8, 5, 2, 0, 0, 0, 8, 5] → ∃ rd',
          lookupValues plainNew numberSchema 0 u rd
              ((adds.filter (·.1 = k)).map Prod.snd)
            = .ok rd' ((keyed plainNew numberSchema 0 (fun _ => [53]) "a"
                (fun _ => 0) [[8, 5], [8, 5]] k).map fun p =>
                  decoding plainNew numberSchema 0 (u p.offset) p.raw) ∧
          rd'.stream.data = [2, 0, 0, 0, 8, 5, 2, 0, 0, 0, 8, 5]) ∧
      ∀ (rd : StreamReader) (lines : List (Bytes × (Nat → UInt64))),
        rd.stream.data = [2, 0, 0, 0, 8, 5, 2, 0, 0, 0, 8, 5] → ∃ rd',
          lookupLines plainNew numberSchema 0
              (fun k => (adds.filter (·.1 = k)).map Prod.snd) rd lines
            = .ok rd' (lines.flatMap fun line =>
                (keyed plainNew numberSchema 0 (fun _ => [53]) "a"
                  (fun _ => 0) [[8, 5], [8, 5]] (stripLine line.1)).map
                  fun p => decoding plainNew numberSchema 0
                    (line.2 p.offset) p.raw) :=
  index_lookup_agree plainNew numberSchema 0 (fun _ => [53]) "a"
    (fun adds k => (adds.filter (·.1 = k)).map Prod.snd) (fun _ _ => rfl)
    (by decide)
    (show _ = some [2, 0, 0, 0, 8, 5, 2, 0, 0, 0, 8, 5] by decide +kernel)
    (fun raw hraw u => by
      obtain rfl : raw = [8, 5] := by
        rcases List.mem_cons.mp hraw with h | h
        · exact h
        · exact List.mem_singleton.mp h
      exact ⟨[("a", .other (plainId (.int 5)))], rfl, rfl⟩)
    fun _ => 0

end Lwpb.Python
