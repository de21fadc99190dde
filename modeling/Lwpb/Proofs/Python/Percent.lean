/-
Records in delimited text, there and back.

What is escaped is made of percent signs, lower case hex digits and safe
characters outside the delimiter (`mem_escape`), and unescapes to what it was
(`unescape_escape`). A line of escaped values therefore splits where the
delimiters were put, and has no line end in it.

The order of the proof is the order of the layers: a byte and its escape
(`chrtohex_cases`, `unescape_chrtohex`), a value, a line of values
(`split_line`), a record (`decode_line`), and a file of records, which the
reader takes line by line (`read_lines`). What each layer needs of the one
below is an alphabet: an escaped value has no byte of the delimiter and no
line end, and the delimiter has nothing that an escape is made of
(`IsDelimiter`).
-/
import Lwpb.Proofs.Python.Flat
import Lwpb.Python.Percent

namespace Lwpb.Python

open Machine

-- ============================================================== hex digits

/-- A hex digit as `'%x'` writes it. -/
def IsLowerHex (c : UInt8) : Prop := (48 ≤ c ∧ c ≤ 57) ∨ (97 ≤ c ∧ c ≤ 102)

instance (c : UInt8) : Decidable (IsLowerHex c) := by
  unfold IsLowerHex
  infer_instance

/-- A hex digit stands for one number, in either case. -/
theorem hexDigit_inj : ∀ u u' : Bool, ∀ a < 16, ∀ b < 16,
    hexDigit u a = hexDigit u' b → a = b := by decide

/-- The digits that are written are lower case. -/
theorem isLowerHex_hexDigit : ∀ n < 16, IsLowerHex (hexDigit false n) := by
  decide

/-- They are read as hex digits. -/
theorem isHexDigit_of_isLowerHex {c : UInt8} (h : IsLowerHex c) :
    isHexDigit c = true := by
  unfold isHexDigit
  rcases h with ⟨hlo, hhi⟩ | ⟨hlo, hhi⟩
  · simp [hlo, hhi]
  · simp [hlo, hhi]

/-- Two hex digits stand for one byte, in either case. -/
theorem hex2_inj {u u' : Bool} {c c' : UInt8} (h : hex2 u c = hex2 u' c') :
    c = c' := by
  have hc := c.toNat_lt
  have hc' := c'.toNat_lt
  obtain ⟨hhi, hlo⟩ := List.cons.inj h
  have hhi := hexDigit_inj u u' _ (by omega) _ (by omega) hhi
  have hlo := hexDigit_inj u u' _ (by omega) _ (by omega)
    (List.cons.inj hlo).1
  exact UInt8.toNat_inj.mp (by omega)

/-- The digits of an escape are lower case. -/
theorem mem_hex2 {b c : UInt8} (h : b ∈ hex2 false c) : IsLowerHex b := by
  have hc := c.toNat_lt
  rcases List.mem_cons.mp h with rfl | h
  · exact isLowerHex_hexDigit _ (by omega)
  · rw [List.mem_singleton.mp h]
    exact isLowerHex_hexDigit _ (by omega)

/-- The table has every byte under its two digits. -/
theorem hexChar_of_hex2 {u : Bool} {key : Bytes} {c : UInt8}
    (h : hex2 u c = key) : hexChar u key = some c := by
  unfold hexChar
  cases hfind : ((List.range 256).map UInt8.ofNat).find?
      fun c => hex2 u c = key with
  | none =>
      have hmem : c ∈ (List.range 256).map UInt8.ofNat :=
        List.mem_map.mpr ⟨c.toNat, List.mem_range.mpr c.toNat_lt,
          UInt8.ofNat_toNat⟩
      exact absurd (decide_eq_true h) (List.find?_eq_none.mp hfind c hmem)
  | some c' =>
      have hc' : hex2 u c' = key := by simpa using List.find?_some hfind
      rw [hex2_inj (hc'.trans h.symm)]

/-- What `'%02x'` writes is looked up to what it was. -/
theorem hextochr_hex2 (c : UInt8) : hextochr (hex2 false c) = some c := by
  have hlength : hex2 false c ≠ [37] := fun heq => by
    have hlen := congrArg List.length heq
    simp [hex2] at hlen
  unfold hextochr
  have hlower : hexChar false (hex2 false c) = some c := hexChar_of_hex2 rfl
  rw [if_neg hlength, hlower]
  cases hupper : hexChar true (hex2 false c) with
  | none => rfl
  | some c' =>
      unfold hexChar at hupper
      have hc' : hex2 true c' = hex2 false c := by
        simpa using List.find?_some hupper
      rw [hex2_inj hc']
      rfl

-- ================================================================ escaping

variable {fields : List Bytes} {delim safe unsafeChars : Bytes}

/-- What is written for a byte: a percent sign is doubled, a safe byte is
itself, and any other one is escaped. -/
theorem chrtohex_cases (c : UInt8) :
    ((PercentCodec.init fields delim safe unsafeChars).chrtohex c
        = [37, 37] ∧ c = 37) ∨
      ((PercentCodec.init fields delim safe unsafeChars).chrtohex c = [c] ∧
        c ≠ 37 ∧ c ∉ unsafeChars ∧ c ∉ delim) ∨
      (PercentCodec.init fields delim safe unsafeChars).chrtohex c
        = 37 :: hex2 false c := by
  by_cases hpercent : c = 37
  · exact .inl ⟨if_pos hpercent, hpercent⟩
  · by_cases hsafe : c ∈ safe ∧ c ∉ unsafeChars ++ delim
    · have hnot := hsafe.2
      rw [List.mem_append, not_or] at hnot
      exact .inr (.inl ⟨(if_neg hpercent).trans (if_pos hsafe), hpercent,
        hnot.1, hnot.2⟩)
    · exact .inr (.inr ((if_neg hpercent).trans (if_neg hsafe)))

/-- Any byte but the percent sign stands for itself. -/
theorem unescape_cons {c : UInt8} {cs : Bytes} (h : c ≠ 37) :
    unescape (c :: cs) = (unescape cs).map (c :: ·) := by
  conv_lhs => unfold unescape
  rw [if_pos h]

/-- Two percent signs stand for one. -/
theorem unescape_percent {cs : Bytes} :
    unescape (37 :: 37 :: cs) = (unescape cs).map (37 :: ·) := by
  conv_lhs => unfold unescape
  rw [if_neg (not_not_intro rfl)]
  rfl

/-- Two hex digits behind a percent sign are looked up. -/
theorem unescape_pair {a b c : UInt8} {cs : Bytes}
    (ha : isHexDigit a = true) (hb : isHexDigit b = true)
    (h : hextochr [a, b] = some c) :
    unescape (37 :: a :: b :: cs) = (unescape cs).map (c :: ·) := by
  have hne : a ≠ 37 := by
    intro h
    subst h
    cases ha
  conv_lhs => unfold unescape
  rw [if_neg (not_not_intro rfl)]
  split
  · next heq => exact absurd (List.cons.inj heq).1 hne
  · next heq =>
      injection heq with h₁ heq
      injection heq with h₂ h₃
      subst h₁ h₂ h₃
      rw [ha, hb, h]
      rfl
  · next hno => exact absurd rfl (hno a b cs)

/-- What a character is escaped to is unescaped to it. -/
theorem unescape_chrtohex (c : UInt8) (cs : Bytes) :
    unescape ((PercentCodec.init fields delim safe unsafeChars).chrtohex c
        ++ cs) = (unescape cs).map (c :: ·) := by
  rcases chrtohex_cases c with ⟨hc, rfl⟩ | ⟨hc, hne, -, -⟩ | hc
  · rw [hc]
    exact unescape_percent
  · rw [hc]
    exact unescape_cons hne
  · have hhi := mem_hex2 (c := c) List.mem_cons_self
    have hlo := mem_hex2 (c := c) (List.mem_cons_of_mem _ List.mem_cons_self)
    rw [hc]
    exact unescape_pair (isHexDigit_of_isLowerHex hhi)
      (isHexDigit_of_isLowerHex hlo) (hextochr_hex2 c)

/-- Unescaping takes escaping back, for every byte string. -/
theorem unescape_escape (s : Bytes) :
    unescape ((PercentCodec.init fields delim safe unsafeChars).escape s)
      = some s := by
  unfold PercentCodec.escape
  induction s with
  | nil => rfl
  | cons c cs ih =>
      rw [List.flatMap_cons, unescape_chrtohex, ih]
      rfl

/-- The alphabet of what is escaped. -/
theorem mem_escape {s : Bytes} {b : UInt8}
    (h : b ∈ (PercentCodec.init fields delim safe unsafeChars).escape s) :
    b = 37 ∨ IsLowerHex b ∨ (b ∉ unsafeChars ∧ b ∉ delim) := by
  obtain ⟨c, -, hb⟩ := List.mem_flatMap.mp h
  rcases chrtohex_cases c with ⟨hc, -⟩ | ⟨hc, -, hchar, hdelim⟩ | hc
  · rw [hc] at hb
    simp only [List.mem_cons, List.not_mem_nil, or_false, or_self] at hb
    exact .inl hb
  · rw [hc] at hb
    rw [List.mem_singleton.mp hb]
    exact .inr (.inr ⟨hchar, hdelim⟩)
  · rw [hc] at hb
    rcases List.mem_cons.mp hb with hb | hb
    · exact .inl hb
    · exact .inr (.inl (mem_hex2 hb))

-- =================================================================== lines

/-- A delimiter that is not mistaken for an escape or a line end. -/
structure IsDelimiter (delim : Bytes) : Prop where
  ne : delim ≠ []
  noPercent : 37 ∉ delim
  noHex : ∀ c ∈ delim, ¬ IsLowerHex c
  noCr : 13 ∉ delim
  noLf : 10 ∉ delim

/-- `PercentCodec(fields, delim)`. -/
def PercentCodec.plain (fields : List Bytes) (delim : Bytes) : PercentCodec :=
  .init fields delim printable whitespace

section Lines

variable (hdelim : IsDelimiter delim)
include hdelim

/-- An escaped value has no delimiter in it. -/
theorem not_mem_delim_of_escape {s : Bytes} {b : UInt8}
    (h : b ∈ (PercentCodec.plain fields delim).escape s) : b ∉ delim := by
  rcases mem_escape h with rfl | hhex | ⟨-, hb⟩
  · exact hdelim.noPercent
  · exact fun hb => hdelim.noHex b hb hhex
  · exact hb

omit hdelim in
/-- Nor has it a line end in it. -/
theorem not_line_end_of_escape {s : Bytes} {b : UInt8}
    (h : b ∈ (PercentCodec.plain fields delim).escape s) :
    b ≠ 13 ∧ b ≠ 10 := by
  rcases mem_escape h with rfl | hhex | ⟨hb, -⟩
  · decide
  · constructor
    · intro h
      subst h
      exact absurd hhex (by decide)
    · intro h
      subst h
      exact absurd hhex (by decide)
  · constructor
    · intro h
      subst h
      exact hb (by decide)
    · intro h
      subst h
      exact hb (by decide)

/-- Escaped values with delimiters between them. -/
def lineOf (fields : List Bytes) (delim : Bytes) (values : List Bytes) :
    Bytes :=
  delim.intercalate (values.map (PercentCodec.plain fields delim).escape)

/-- So a record is one line. -/
theorem not_line_end_of_line {values : List Bytes} {b : UInt8}
    (h : b ∈ lineOf fields delim values) : b ≠ 13 ∧ b ≠ 10 := by
  rcases Delimited.mem_intercalate h with ⟨value, hvalue, hb⟩ | hb
  · obtain ⟨s, -, rfl⟩ := List.mem_map.mp hvalue
    exact not_line_end_of_escape hb
  · exact ⟨fun heq => hdelim.noCr (heq ▸ hb),
      fun heq => hdelim.noLf (heq ▸ hb)⟩

/-- The values of a line stand between its delimiters. -/
theorem split_line {values : List Bytes} (hne : values ≠ []) :
    Delimited.split delim (values.length - 1) (lineOf fields delim values)
      = values.map (PercentCodec.plain fields delim).escape := by
  have hparts : values.map (PercentCodec.plain fields delim).escape ≠ [] :=
    fun heq => hne (List.map_eq_nil_iff.mp heq)
  have hsplit := Delimited.split_intercalate hdelim.ne hparts
    fun part hpart c hc => by
      obtain ⟨s, -, rfl⟩ := List.mem_map.mp hpart
      exact not_mem_delim_of_escape hdelim hc
  rwa [List.length_map] at hsplit

end Lines

/-- What is stripped is the line end. -/
theorem rstripLine_append {line lineEnd : Bytes}
    (hline : ∀ c ∈ line, c ≠ 13 ∧ c ≠ 10)
    (hend : ∀ c ∈ lineEnd, c = 13 ∨ c = 10) :
    rstripLine (line ++ lineEnd) = line := by
  unfold rstripLine
  induction lineEnd using List.reverseRecOn with
  | nil =>
      rw [List.append_nil, List.rdropWhile_eq_self_iff]
      intro hne
      obtain ⟨hcr, hlf⟩ := hline _ (List.getLast_mem hne)
      simp [hcr, hlf]
  | append_singleton cs c ih =>
      have hc := hend c (List.mem_append_right cs List.mem_cons_self)
      rw [← List.append_assoc, List.rdropWhile_concat_pos]
      · exact ih fun c' hc' => hend c' (List.mem_append_left [c] hc')
      · simpa using hc

-- ================================================================= records

/-- The items of a record: a string for every field. -/
def leavesOf (fields : List Bytes) (value : Bytes → Bytes) :
    List (Key × Leaf) :=
  fields.map fun k => (.str k, .str (value k))

/-- The dict has a string for every field, and nothing else. -/
def IsRecord (fields : List Bytes) (value : Bytes → Bytes)
    (record : List (Key × PyValue)) : Prop :=
  record.Perm ((leavesOf fields value).map asValue)

variable (order : DictOrder) (floatText : UInt64 → Bytes)
  {value : Bytes → Bytes} {record : List (Key × PyValue)}

/-- Different fields are different keys. -/
theorem leavesOf_nodup (hfields : fields.Nodup) :
    ((leavesOf fields value).map Prod.fst).Nodup := by
  unfold leavesOf
  rw [List.map_map]
  exact hfields.map fun a b h => Key.str.inj h

/-- Under the key of a field stands its value. -/
theorem lookup_leavesOf {k : Bytes} (hk : k ∈ fields) :
    (leavesOf fields value).lookup (.str k) = some (.str (value k)) := by
  induction fields with
  | nil => cases hk
  | cons k' fields ih =>
      unfold leavesOf
      rw [List.map_cons]
      by_cases heq : k' = k
      · rw [heq, List.lookup_cons_self]
      · rw [Assoc.lookup_cons_ne fun h => heq (Key.str.inj h)]
        exact ih ((List.mem_cons.mp hk).resolve_left (Ne.symm heq))

/-- A record is encoded to the line of its values. -/
theorem encode_record (hfields : fields.Nodup)
    (h : IsRecord fields value record) :
    (PercentCodec.plain fields delim).encode order floatText record
      = lineOf fields delim (fields.map value) := by
  obtain ⟨flat, hflat, hperm⟩ :=
    flatten_leaves order (leavesOf_nodup hfields) h
  have hvalues : ∀ k ∈ fields, ((flat.lookup (.str k)).map
      (Leaf.text floatText)).getD [] = value k := by
    intro k hk
    rw [Assoc.lookup_perm hperm (leavesOf_nodup hfields), lookup_leavesOf hk]
    rfl
  have hmap : (fields.map fun k =>
        (PercentCodec.plain fields delim).escape (((flat.lookup (.str k)).map
          (Leaf.text floatText)).getD []))
      = (fields.map value).map (PercentCodec.plain fields delim).escape := by
    rw [List.map_map]
    refine List.map_congr_left fun k hk => ?_
    rw [hvalues k hk]
    rfl
  unfold PercentCodec.encode
  rw [hflat]
  exact congrArg delim.intercalate hmap

/-- Values are assigned to the fields. -/
theorem assign_fields {flat : List (Key × Leaf)} (hfields : fields.Nodup)
    (hnew : ∀ k ∈ fields, Key.str k ∉ flat.map Prod.fst)
    {names : List Bytes} :
    assign fields ((fields.map value).map
        (PercentCodec.plain names delim).escape) flat
      = some (flat ++ leavesOf fields value) := by
  induction fields generalizing flat with
  | nil => exact congrArg some (List.append_nil flat).symm
  | cons k fields ih =>
      obtain ⟨hk, hfields⟩ := List.nodup_cons.mp hfields
      obtain ⟨hnewk, hnew⟩ := List.forall_mem_cons.mp hnew
      rw [List.map_cons, List.map_cons, assign, PercentCodec.plain,
        unescape_escape]
      refine (ih hfields fun k' hk' hin => ?_).trans ?_
      · rw [Assoc.set_of_not_mem hnewk, List.map_append, List.mem_append,
          List.map_cons, List.map_nil, List.mem_singleton] at hin
        rcases hin with hin | heq
        · exact hnew k' hk' hin
        · exact hk (Key.str.inj heq ▸ hk')
      · rw [Assoc.set_of_not_mem hnewk, List.append_assoc]
        rfl

/-- The line of a record is decoded to it. -/
theorem decode_line (hdelim : IsDelimiter delim) (hne : fields ≠ [])
    (hfields : fields.Nodup) (hnames : ∀ k ∈ fields, IsName k)
    (value : Bytes → Bytes) {lineEnd : Bytes}
    (hend : ∀ c ∈ lineEnd, c = 13 ∨ c = 10) :
    ∃ items, (PercentCodec.plain fields delim).decode order
        (lineOf fields delim (fields.map value) ++ lineEnd)
          = some (.dict items) ∧ IsRecord fields value items := by
  have hstrip : rstripLine (lineOf fields delim (fields.map value) ++ lineEnd)
      = lineOf fields delim (fields.map value) :=
    rstripLine_append (fun c => not_line_end_of_line hdelim) hend
  have hvalues : fields.map value ≠ [] := fun heq =>
    hne (List.map_eq_nil_iff.mp heq)
  have hsplit : Delimited.split delim (fields.length - 1)
      (lineOf fields delim (fields.map value))
        = (fields.map value).map (PercentCodec.plain fields delim).escape := by
    rw [← split_line hdelim hvalues, List.length_map]
  have hassign : assign fields
      ((fields.map value).map (PercentCodec.plain fields delim).escape) []
        = some (leavesOf fields value) :=
    assign_fields hfields fun k _ => List.not_mem_nil
  obtain ⟨items, hitems, hperm⟩ := unflatten_names order
    (leavesOf_nodup hfields) fun p hp => by
      obtain ⟨k, hk, rfl⟩ := List.mem_map.mp hp
      exact ⟨k, rfl, hnames k hk⟩
  refine ⟨items, ?_, hperm⟩
  unfold PercentCodec.decode
  rw [if_neg (show (PercentCodec.plain fields delim).delim ≠ [] from
    hdelim.ne), hstrip]
  show (assign fields (Delimited.split delim (fields.length - 1) _) []).bind _
    = _
  rw [hsplit, hassign]
  exact hitems

-- =================================================================== files

/-- What is left of the file of a reader. -/
def PercentCodecReader.rest (rd : PercentCodecReader) : Bytes :=
  rd.f.data.drop rd.f.pos

/-- The file that records are written to. -/
def fileOf (codec : PercentCodec) (records : List (List (Key × PyValue))) :
    Bytes :=
  records.foldl (fun f record => (writeLine order floatText codec f record).1)
    []

/-- A file is its records, one line each. -/
theorem fileOf_eq (codec : PercentCodec)
    (records : List (List (Key × PyValue))) :
    fileOf order floatText codec records
      = records.flatMap fun record =>
          codec.encode order floatText record ++ [10] := by
  have hfrom : ∀ f : Bytes, records.foldl (fun f record =>
      (writeLine order floatText codec f record).1) f
        = f ++ records.flatMap fun record =>
            codec.encode order floatText record ++ [10] := by
    induction records with
    | nil => exact fun f => (List.append_nil f).symm
    | cons record records ih =>
        intro f
        rw [List.foldl_cons, ih, List.flatMap_cons, ← List.append_assoc,
          ← List.append_assoc]
        rfl
  exact hfrom []

/-- A line is read up to its end, and no further. -/
theorem firstLine_append {line more : Bytes} (h : ∀ c ∈ line, c ≠ 10) :
    firstLine (line ++ 10 :: more) = line ++ [10] := by
  induction line with
  | nil => rfl
  | cons c cs ih =>
      obtain ⟨hc, hcs⟩ := List.forall_mem_cons.mp h
      rw [List.cons_append, firstLine, if_neg hc, ih hcs, List.cons_append]

/-- A read at the start of a line. -/
theorem read_line {codec : PercentCodec} {rd : PercentCodecReader}
    {line more : Bytes} {record : PyValue} (hline : ∀ c ∈ line, c ≠ 10)
    (hrest : rd.rest = line ++ 10 :: more)
    (hdecode : codec.decode order (line ++ [10]) = some record) :
    ∃ rd', rd.read order codec = some (some record, rd') ∧
      rd'.rest = more ∧ rd'.currentNumber = rd.currentNumber + 1 ∧
      rd'.currentRaw = some (line ++ [10]) := by
  have hread : rd.f.readline = line ++ [10] :=
    (congrArg firstLine hrest).trans (firstLine_append hline)
  have hne : line ++ [10] ≠ [] := List.append_ne_nil_of_right_ne_nil _
    (List.cons_ne_nil _ _)
  unfold PercentCodecReader.read
  simp only [hread, if_neg hne, hdecode]
  refine ⟨_, rfl, ?_, rfl, rfl⟩
  show rd.f.data.drop (rd.f.pos + rd.f.readline.length) = more
  rw [← List.drop_drop, show rd.f.data.drop rd.f.pos = _ from hrest, hread,
    List.append_cons line 10 more, List.drop_left]

/-- A turn that reads a line. -/
theorem lineStep_line {codec : PercentCodec} {rd : PercentCodecReader}
    {line more : Bytes} {record : PyValue} (hline : ∀ c ∈ line, c ≠ 10)
    (hrest : rd.rest = line ++ 10 :: more)
    (hdecode : codec.decode order (line ++ [10]) = some record) :
    ∃ rd', lineStep order codec rd = .next rd' [record] ∧ rd'.rest = more ∧
      rd'.currentNumber = rd.currentNumber + 1 := by
  obtain ⟨rd', hread, hmore, hnumber, -⟩ :=
    read_line order hline hrest hdecode
  unfold lineStep
  rw [hread]
  exact ⟨rd', rfl, hmore, hnumber⟩

/-- At the end of the file the reader stops. -/
theorem lineStep_end {codec : PercentCodec} {rd : PercentCodecReader}
    (hrest : rd.rest = []) :
    ∃ rd', lineStep order codec rd = .halt (.stop rd') [] := by
  have hread : rd.f.readline = [] := congrArg firstLine hrest
  unfold lineStep PercentCodecReader.read
  simp only [hread, if_pos]
  exact ⟨_, rfl⟩

/-- Lines are read one after the other. -/
theorem read_lines (hdelim : IsDelimiter delim) (hne : fields ≠ [])
    (hfields : fields.Nodup) (hnames : ∀ k ∈ fields, IsName k)
    {records : List (List (Key × PyValue))}
    (hrecords : ∀ record ∈ records, ∃ value, IsRecord fields value record)
    {rd : PercentCodecReader}
    (hrest : rd.rest = records.flatMap fun record =>
      (PercentCodec.plain fields delim).encode order floatText record
        ++ [10]) :
    ∃ values rd', Halts (lineStep order (.plain fields delim)) rd values
        (.stop rd') ∧
      List.Forall₂ (fun v record => ∃ items, v = .dict items ∧
        items.Perm record) values records := by
  induction records generalizing rd with
  | nil =>
      obtain ⟨rd', hstop⟩ := lineStep_end order hrest
      exact ⟨[], rd', .stop hstop, .nil⟩
  | cons record records ih =>
      obtain ⟨⟨value, hrecord⟩, hrecords⟩ := List.forall_mem_cons.mp hrecords
      rw [List.flatMap_cons, encode_record order floatText hfields hrecord,
        List.append_assoc] at hrest
      have hend : ∀ c ∈ ([10] : Bytes), c = 13 ∨ c = 10 := fun c hc =>
        .inr (List.mem_singleton.mp hc)
      obtain ⟨items, hdecode, hitems⟩ := decode_line order hdelim hne hfields
        hnames value hend
      obtain ⟨rd₁, hstep, hrest₁, -⟩ := lineStep_line order
        (fun c hc => (not_line_end_of_line hdelim hc).2) hrest hdecode
      obtain ⟨values, rd', hhalts, hvalues⟩ := ih hrecords hrest₁
      exact ⟨_, rd', .step hstep hhalts,
        .cons ⟨items, rfl, hitems.trans hrecord.symm⟩ hvalues⟩

/-- Records that are written are read. -/
theorem record_round_trip (hdelim : IsDelimiter delim) (hne : fields ≠ [])
    (hfields : fields.Nodup) (hnames : ∀ k ∈ fields, IsName k) :
    (∀ value record, IsRecord fields value record →
      (∀ c ∈ (PercentCodec.plain fields delim).encode order floatText record,
        c ≠ 13 ∧ c ≠ 10) ∧
      ∀ lineEnd : Bytes, (∀ c ∈ lineEnd, c = 13 ∨ c = 10) →
        ∃ items, (PercentCodec.plain fields delim).decode order
            ((PercentCodec.plain fields delim).encode order floatText record
              ++ lineEnd) = some (.dict items) ∧ items.Perm record) ∧
    ∀ records : List (List (Key × PyValue)),
      (∀ record ∈ records, ∃ value, IsRecord fields value record) →
      ∀ tells, ∃ values rd,
        Halts (lineStep order (.plain fields delim))
          (.init ⟨fileOf order floatText (.plain fields delim) records, 0,
            tells⟩) values (.stop rd) ∧
        List.Forall₂ (fun v record => ∃ items, v = .dict items ∧
          items.Perm record) values records := by
  refine ⟨fun value record hrecord => ⟨?_, fun lineEnd hend => ?_⟩,
    fun records hrecords tells => ?_⟩
  · rw [encode_record order floatText hfields hrecord]
    exact fun c => not_line_end_of_line hdelim
  · obtain ⟨items, hdecode, hitems⟩ := decode_line order hdelim hne hfields
      hnames value hend
    rw [encode_record order floatText hfields hrecord]
    exact ⟨items, hdecode, hitems.trans hrecord.symm⟩
  · exact read_lines order floatText hdelim hne hfields hnames hrecords
      (fileOf_eq order floatText _ records)

/-- `{'a': '1%\n', 'b': ''}`. -/
def sampleRecord : List (Key × PyValue) :=
  [(.str [97], .leaf (.str [49, 37, 10])), (.str [98], .leaf (.str []))]

/-- Two fields between tabs, and a file of two records. -/
theorem record_round_trip_tab :
    (∀ c ∈ (PercentCodec.plain [[97], [98]] [9]).encode listedOrder
        (fun _ => []) sampleRecord, c ≠ 13 ∧ c ≠ 10) ∧
    (∃ items, (PercentCodec.plain [[97], [98]] [9]).decode listedOrder
        ((PercentCodec.plain [[97], [98]] [9]).encode listedOrder
          (fun _ => []) sampleRecord ++ [10]) = some (.dict items) ∧
      items.Perm sampleRecord) ∧
    ∃ values rd, Halts (lineStep listedOrder (.plain [[97], [98]] [9]))
        (.init ⟨fileOf listedOrder (fun _ => []) (.plain [[97], [98]] [9])
          [sampleRecord, sampleRecord], 0, false⟩) values (.stop rd) ∧
      List.Forall₂ (fun v record => ∃ items, v = .dict items ∧
        items.Perm record) values [sampleRecord, sampleRecord] := by
  have hdelim : IsDelimiter [9] := by
    refine ⟨by decide, by decide, fun c hc => ?_, by decide, by decide⟩
    rw [List.mem_singleton.mp hc]
    decide
  have hnames : ∀ k ∈ [[97], [98]], IsName k := by
    intro k hk
    rcases List.mem_cons.mp hk with rfl | hk
    · exact ⟨by decide, by decide⟩
    · obtain rfl := List.mem_singleton.mp hk
      exact ⟨by decide, by decide⟩
  -- the values of the sample
  let value : Bytes → Bytes := fun k => if k = [97] then [49, 37, 10] else []
  have hrecord : IsRecord [[97], [98]] value sampleRecord := List.Perm.refl _
  obtain ⟨hone, hfile⟩ := record_round_trip listedOrder (fun _ => []) hdelim
    (List.cons_ne_nil _ _) (by decide) hnames
  obtain ⟨hline, hdecode⟩ := hone value sampleRecord hrecord
  have hend : ∀ c ∈ ([10] : Bytes), c = 13 ∨ c = 10 := fun c hc =>
    .inr (List.mem_singleton.mp hc)
  refine ⟨hline, hdecode [10] hend, hfile _ ?_ false⟩
  intro record hmem
  have heq : record = sampleRecord := by simpa using hmem
  exact ⟨value, heq ▸ hrecord⟩

end Lwpb.Python
