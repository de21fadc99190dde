/-
Unknown fields.

A field is skipped if `field_desc` is NULL after its number was looked
up. The lookup never sets it to NULL, so that is the case only until the
first known field of the whole input has been read, and from then on an
unknown field is taken for another occurrence of the last known one.

Skipping them correctly is invisible: `Inserts b w` relates a message to
one with unknown fields added anywhere in it, and a reader should be told
the same about both. `decode_wire` gives this for the messages whose
unknown fields lead. The other direction is a count. A run that returns
`LWPB_ERR_OK` comes back from every frame it opens (`ok_returns`), so
a misread field never derails it: it adds notifications of its own, at
least one, and the rest of the message is walked as before
(`Wire.walk_counts`).
-/
import Lwpb.Proofs.Decoder.Trees

namespace Lwpb

open Machine Base128 Slice

variable {sch : Schema} {root : MsgRef} {data : Bytes}
  {uninit uninit' : UInt64}

-- ============================================================== insertion

namespace Wire

/-- `b` with unknown fields inserted is `w`; lengths are adjusted, and
all else is kept. -/
inductive Inserts : Wire → Wire → Prop where
  | nil : Inserts .nil .nil
  | new {b w : Wire} (key : Bytes) (p : Payload) :
      Inserts b w → Inserts b (.unknown key p w)
  | unknown {b w : Wire} (key : Bytes) (p : Payload) :
      Inserts b w → Inserts (.unknown key p b) (.unknown key p w)
  | scalar {b w : Wire} (f : FieldRef) (key : Bytes) (p : Payload) :
      Inserts b w → Inserts (.scalar f key p b) (.scalar f key p w)
  | sub {b w c d : Wire} (f : FieldRef) (key len len' : Bytes) :
      Inserts b w → Inserts c d →
      Inserts (.sub f key len b c) (.sub f key len' w d)
  | run {b w : Wire} (f : FieldRef) (key len : Bytes)
      (elems : List Payload) : Inserts b w →
      Inserts (.run f key len elems b) (.run f key len elems w)

/-- An unknown field gives no notice. -/
theorem Inserts.notifs {b w : Wire} (h : Inserts b w) :
    ∀ m, b.notifs sch root m = w.notifs sch root m := by
  induction h with
  | nil => intro m; rfl
  | new key p _ ih => intro m; exact ih m
  | unknown key p _ ih => intro m; exact ih m
  | scalar f key p _ ih => intro m; rw [Wire.notifs, Wire.notifs, ih]
  | sub f key len len' _ _ ihb ihr =>
      intro m
      rw [Wire.notifs, Wire.notifs, ihb, ihr]
  | run f key len elems _ ih => intro m; rw [Wire.notifs, Wire.notifs, ih]

/-- It nests no deeper. -/
theorem Inserts.nesting {b w : Wire} (h : Inserts b w) :
    b.nesting = w.nesting := by
  induction h with
  | nil => rfl
  | new key p _ ih => exact ih
  | unknown key p _ ih => exact ih
  | scalar f key p _ ih => exact ih
  | sub f key len len' _ _ ihb ihr =>
      rw [Wire.nesting, Wire.nesting, ihb, ihr]
  | run f key len elems _ ih => rw [Wire.nesting, Wire.nesting, ih]

/-- If the unknown fields lead, they do after one is taken away. -/
theorem Inserts.leading {b w : Wire} (h : Inserts b w) :
    ∀ {seen : Bool} {m : MsgRef}, w.Leading sch seen m →
      b.Leading sch seen m := by
  induction h with
  | nil => intro seen m _; trivial
  | new key p _ ih =>
      intro seen m h
      obtain ⟨rfl, -, hlead⟩ := h
      exact ih hlead
  | unknown key p _ ih =>
      intro seen m h
      obtain ⟨hseen, hfind, hlead⟩ := h
      exact ⟨hseen, hfind, ih hlead⟩
  | scalar f key p _ ih => intro seen m hlead; exact ih hlead
  | sub f key len len' _ _ ihb ihr =>
      intro seen m h
      obtain ⟨hbody, hrest⟩ := h
      exact ⟨ihb hbody, ihr hrest⟩
  | run f key len elems _ ih => intro seen m hlead; exact ih hlead

/-- The message without any unknown field. -/
def strip : Wire → Wire
  | .nil => .nil
  | .unknown _ _ rest => strip rest
  | .scalar f key p rest => .scalar f key p (strip rest)
  | .sub f key _ body rest =>
      .sub f key (encode (strip body).bytes.length) (strip body) (strip rest)
  | .run f key len elems rest => .run f key len elems (strip rest)

/-- A message is the stripped one with its unknown fields inserted. -/
theorem strip_inserts (w : Wire) : Inserts w.strip w := by
  induction w with
  | nil => exact .nil
  | unknown key p rest ih => exact .new key p ih
  | scalar f key p rest ih => exact .scalar f key p ih
  | sub f key len body rest ihb ihr => exact .sub f key _ len ihb ihr
  | run f key len elems rest ih => exact .run f key len elems ih

/-- Where there is no unknown field, they lead. -/
theorem strip_leading (w : Wire) :
    ∀ (seen : Bool) (m : MsgRef), w.strip.Leading sch seen m := by
  induction w with
  | nil => intro seen m; trivial
  | unknown key p rest ih => exact ih
  | scalar f key p rest ih => intro seen m; exact ih true m
  | sub f key len body rest ihb ihr =>
      intro seen m
      exact ⟨ihb true _, ihr true m⟩
  | run f key len elems rest ih => intro seen m; exact ih true m

/-- Stripping does not make a message longer. -/
theorem strip_length (w : Wire)
    {rule : FieldDesc → WireType → Prop} :
    ∀ {m : MsgRef}, w.WellFormed sch rule m →
      w.strip.bytes.length ≤ w.bytes.length := by
  induction w with
  | nil => intro m _; exact Nat.le_refl _
  | unknown key p rest ih =>
      intro m h
      obtain ⟨-, -, -, hrest⟩ := h
      have := ih hrest
      simp only [strip, Wire.bytes, List.length_append]
      omega
  | scalar f key p rest ih =>
      intro m h
      obtain ⟨-, -, -, -, -, hrest⟩ := h
      have := ih hrest
      simp only [strip, Wire.bytes, List.length_append]
      omega
  | sub f key len body rest ihb ihr =>
      intro m h
      obtain ⟨-, hlen, -, -, -, -, -, hbody, hrest⟩ := h
      have hb := ihb hbody
      have hr := ihr hrest
      -- no varint of a smaller number need be longer
      have hle : (encode body.strip.bytes.length).length ≤ len.length := by
        have hval : body.bytes.length ≤ value len := by
          rw [← hlen.2]
          show (UInt64.ofNat (value len)).toNat ≤ value len
          rw [UInt64.toNat_ofNat']
          exact Nat.mod_le ..
        exact encode_length_le_of_le hlen.1.1 (Nat.le_trans hb hval)
      simp only [strip, Wire.bytes, List.length_append]
      omega
  | run f key len elems rest ih =>
      intro m h
      obtain ⟨-, -, -, -, -, hrest⟩ := h
      have := ih hrest
      simp only [strip, Wire.bytes, List.length_append]
      omega

/-- A stripped message is well formed again: its length words are written
anew. -/
theorem strip_wellFormed {w : Wire}
    {rule : FieldDesc → WireType → Prop} :
    ∀ {m : MsgRef}, w.WellFormed sch rule m →
      w.strip.WellFormed sch rule m := by
  induction w with
  | nil => intro m _; trivial
  | unknown key p rest ih =>
      intro m h
      obtain ⟨-, -, -, hrest⟩ := h
      exact ih hrest
  | scalar f key p rest ih =>
      intro m h
      obtain ⟨hkey, hp, hknown, hnot, hrule, hrest⟩ := h
      exact ⟨hkey, hp, hknown, hnot, hrule, ih hrest⟩
  | sub f key len body rest ihb ihr =>
      intro m h
      obtain ⟨hkey, hlen, hknown, hrun, hmsg, hrule, hdesc, hbody, hrest⟩ := h
      refine ⟨hkey, ⟨⟨encode_terminated _, ?_⟩, ?_⟩, hknown, hrun, hmsg,
        hrule, hdesc, ihb hbody, ihr hrest⟩
      · have hval : body.bytes.length ≤ value len := by
          rw [← hlen.2]
          show (UInt64.ofNat (value len)).toNat ≤ value len
          rw [UInt64.toNat_ofNat']
          exact Nat.mod_le ..
        have hle := encode_length_le_of_le hlen.1.1
          (Nat.le_trans (strip_length body hbody) hval)
        exact Nat.le_trans hle hlen.1.2
      · show (UInt64.ofNat (value (encode body.strip.bytes.length))).toNat
          = body.strip.bytes.length
        have hlt := (varintWord len).toNat_lt
        have hle := strip_length body hbody
        have hbytes : (varintWord len).toNat = body.bytes.length := hlen.2
        rw [value_encode, UInt64.toNat_ofNat']
        exact Nat.mod_eq_of_lt (by omega)
  | run f key len elems rest ih =>
      intro m h
      obtain ⟨hkey, hlen, hknown, hrun, hall, hrest⟩ := h
      exact ⟨hkey, hlen, hknown, hrun, hall, ih hrest⟩

end Wire

-- ====================================================== the stack discipline

/-- The decoder never forgets the last known field of its frame. -/
theorem Reads.fieldDesc_some {s t : Dec} {wt : WireType}
    (h : Reads sch data s wt t) (hf : s.fieldDesc ≠ none) :
    t.fieldDesc ≠ none := by
  cases h with
  | @mk fd wv buf buf' hkey hval =>
      show fd ≠ none
      cases hpk : s.packed with
      | true =>
          obtain ⟨-, rfl, -, -⟩ := readKey_packed hpk hkey
          exact hf
      | false =>
          obtain ⟨key, m, -, -, -, rfl⟩ := readKey_plain hpk hkey
          intro hnone
          rw [Option.or_eq_none_iff] at hnone
          exact hf hnone.2

/-- `field_desc` is never set back to NULL. -/
theorem Moves.fieldDesc_some {s s' : Dec} {out : List (Event Span)}
    (h : Moves sch root data s s' out) (hf : s.fieldDesc ≠ none) :
    s'.fieldDesc ≠ none := by
  cases h with
  | enter => exact hf
  | pop => exact hf
  | skip hpt hleft hreads => exact hreads.fieldDesc_some hf
  | run hpt hleft hreads hg hrun hopen =>
      rw [hopen.fieldDesc]
      exact hreads.fieldDesc_some hf
  | sub hpt hleft hreads hg hrun hmsg hopen =>
      rw [hopen.fieldDesc]
      exact hreads.fieldDesc_some hf
  | value hpt hleft hreads => exact hreads.fieldDesc_some hf

/-- A run that ends with `LWPB_ERR_OK` comes back to every frame on the
stack, and finds it as it was. -/
theorem ok_returns {s : Dec} {out : List (Event Span)} {used : Nat}
    (h : Halts (decodeMove sch root data) s out (.ok used)) :
    ∀ (above : List Frame) {fr : Frame} {below : List Frame},
      s.below = above ++ fr :: below →
      ∃ t o, Exec (decodeMove sch root data) s o t ∧ t.frame = fr ∧
        t.below = below ∧ t.packed = false ∧ t.point = .nested ∧
        (s.fieldDesc ≠ none → t.fieldDesc ≠ none) := by
  generalize hr : Result.ok used = r at h
  induction h with
  | stop hmove =>
      intro above fr below hbelow
      subst hr
      cases decodeMove_halt hmove with
      | done hpt hleft hnil =>
          rw [hnil] at hbelow
          exact absurd hbelow.symm (by simp)
  | @step s s₁ o₁ o₂ r hmove hhalt ih =>
      intro above fr below hbelow
      have hmoves := decodeMove_next hmove
      have hfd : s.fieldDesc ≠ none → s₁.fieldDesc ≠ none :=
        hmoves.fieldDesc_some
      -- the frames above `fr` after the move, unless it popped down to `fr`
      have hcase : (∃ above', s₁.below = above' ++ fr :: below) ∨
          (s₁.frame = fr ∧ s₁.below = below ∧ s₁.packed = false ∧
            s₁.point = .nested) := by
        cases hmoves with
        | enter => exact .inl ⟨above, hbelow⟩
        | @pop frame below' hpt hleft hpop =>
            rw [hpop] at hbelow
            cases above with
            | nil =>
                rw [List.nil_append] at hbelow
                injection hbelow with h₁ h₂
                exact .inr ⟨h₁, h₂, rfl, rfl⟩
            | cons g above =>
                rw [List.cons_append] at hbelow
                injection hbelow with h₁ h₂
                exact .inl ⟨above, h₂⟩
        | skip hpt hleft hreads =>
            exact .inl ⟨above, by rw [hreads.frame.2.1, hbelow]⟩
        | @run t s' f hpt hleft hreads hf hrun hopen =>
            refine .inl ⟨t.frame :: above, ?_⟩
            rw [hopen.below, hreads.frame.2.1, hbelow]
            rfl
        | @sub wt t s' f hpt hleft hreads hf hrun hmsg hopen =>
            refine .inl ⟨t.frame :: above, ?_⟩
            rw [hopen.below, hreads.frame.2.1, hbelow]
            rfl
        | value hpt hleft hreads =>
            exact .inl ⟨above, by rw [hreads.frame.2.1, hbelow]⟩
      rcases hcase with ⟨above', hbelow'⟩ | ⟨hframe, hbelow', hpk, hpt⟩
      · obtain ⟨t, o, hexec, hframe, hbelow'', hpk, hpt, hft⟩ :=
          ih hr above' hbelow'
        exact ⟨t, _, .step hmove hexec, hframe, hbelow'', hpk, hpt,
          fun hf => hft (hfd hf)⟩
      · exact ⟨s₁, _, .single hmove, hframe, hbelow', hpk, hpt, hfd⟩

/-- The run from a pushed frame, if the call returns `LWPB_ERR_OK`: it
comes back, with a start notification at least if there is a descriptor
to notify of. -/
theorem Opens.returns {t u : Dec} {lv : Level} {p : Nat}
    {desc : Option MsgRef} {packed : Bool} {out : List (Event Span)}
    {used : Nat} (h : Opens data t desc packed u) (ht : t.Stands lv p)
    (hpk : lv.packed = false) (hused : lv.base < p)
    (hf : t.fieldDesc ≠ none)
    (hhalt : Halts (decodeMove sch root data) u out (.ok used)) :
    ∃ v o, Exec (decodeMove sch root data) u o v ∧ v.Stands lv p ∧
      v.fieldDesc ≠ none ∧ (desc ≠ none → 1 ≤ o.length) := by
  have hfu : u.fieldDesc ≠ none := by
    rw [h.fieldDesc]
    exact hf
  have hbelow := h.below
  have henter : decodeMove sch root data u
        = .next { u with point := .loop } (notifyStart u) ∧
      (desc ≠ none → 1 ≤ (notifyStart u).length) := by
    obtain ⟨-, q, -, -, rfl⟩ := h
    refine ⟨rfl, fun hdesc => ?_⟩
    obtain ⟨d, rfl⟩ := Option.ne_none_iff_exists'.mp hdesc
    unfold notifyStart bufUsed bufInit
    simp
  obtain ⟨henter, hstart⟩ := henter
  obtain ⟨o', -, hhalt'⟩ := (Exec.single henter).halts_iff.mp hhalt
  obtain ⟨v, o, hexec, hframe, hbelow', hpkv, hptv, hfv⟩ :=
    ok_returns hhalt' [] hbelow
  rw [ht.frame] at hframe
  rw [ht.below] at hbelow'
  obtain ⟨hresume, hv⟩ := resumes sch root data hptv hframe hbelow'
    (by rw [hpkv, hpk]) hused
  refine ⟨_, _, (Exec.single henter).trans (hexec.trans hresume), hv,
    hfv hfu, fun hdesc => ?_⟩
  have := hstart hdesc
  rw [List.length_append]
  omega

/-- A push in a run that returns `LWPB_ERR_OK` has succeeded. -/
theorem opens_of_ok {s t : Dec} {desc : Option MsgRef} {packed : Bool}
    {pre out : List (Event Span)} {used : Nat}
    (hmove : decodeMove sch root data s
      = pushStackFrame data t desc packed pre)
    (hhalt : Halts (decodeMove sch root data) s out (.ok used)) :
    ∃ u, Opens data t desc packed u ∧
      Exec (decodeMove sch root data) s pre u := by
  cases hpush : pushStackFrame data t desc packed pre with
  | next u pre' =>
      obtain ⟨hopen, rfl⟩ := pushStackFrame_next hpush
      exact ⟨u, hopen, .single (hmove.trans hpush)⟩
  | halt r pre' =>
      obtain ⟨-, hr⟩ := hhalt.unique (.stop (hmove.trans hpush))
      subst hr
      unfold pushStackFrame at hpush
      split at hpush
      · split at hpush
        · cases hpush
        · split at hpush <;> cases hpush
      · cases hpush

/-- An occurrence that is taken for a field, in a run that returns
`LWPB_ERR_OK`: it is passed, with a notification at least. -/
theorem Occurs.taken {s t : Dec} {lv : Level} {p n : Nat} {pl : Payload}
    {g : FieldRef} {out : List (Event Span)} {used : Nat}
    (h : Occurs sch data s lv p pl n (some g) t) (hpk : lv.packed = false)
    (hused : lv.base < p + n)
    (hhalt : Halts (decodeMove sch root data) s out (.ok used)) :
    ∃ v o, Exec (decodeMove sch root data) s o v ∧ v.Stands lv (p + n) ∧
      v.fieldDesc ≠ none ∧ 1 ≤ o.length := by
  have hmove : decodeMove sch root data s
      = dispatch sch root data pl.wireType t :=
    h.reads.decodeMove h.point h.left
  have hf : t.fieldDesc ≠ none := by
    rw [h.desc]
    exact nofun
  by_cases hrun : pl.wireType = .string ∧
      (sch.field g).isPackedRepeated = true
  · have hdesc : t.frame.msgDesc = some lv.desc := by
      rw [h.stands.frame]
      rfl
    rw [hrun.1, dispatch_run h.desc hrun.2, hdesc] at hmove
    obtain ⟨u, hopen, hpush⟩ := opens_of_ok hmove hhalt
    obtain ⟨o', -, hhalt'⟩ := hpush.halts_iff.mp hhalt
    obtain ⟨v, o, hexec, hv, hfv, hone⟩ :=
      hopen.returns h.stands hpk hused hf hhalt'
    exact ⟨v, _, hpush.trans hexec, hv, hfv, hone nofun⟩
  · cases hmsg : (sch.field g).opts.typ.isMessage with
    | true =>
        rw [dispatch_sub h.desc hrun hmsg] at hmove
        obtain ⟨u, hopen, hpush⟩ := opens_of_ok hmove hhalt
        obtain ⟨o', -, hhalt'⟩ := hpush.halts_iff.mp hhalt
        obtain ⟨v, o, hexec, hv, hfv, -⟩ :=
          hopen.returns h.stands hpk hused hf hhalt'
        refine ⟨v, _, hpush.trans hexec, hv, hfv, ?_⟩
        rw [List.length_append, List.length_singleton]
        omega
    | false =>
        exact ⟨t, _, h.reports root hrun hmsg, h.stands, hf,
          Nat.le_refl 1⟩

-- ================================================================ the count

namespace Wire

/-- The message is passed from here: it fits the stack, and it is passed
with as many notifications as it has, and with no more only if its unknown
fields lead. -/
def Passes (sch : Schema) (root : MsgRef) (data : Bytes) (w : Wire) (s : Dec)
    (lv : Level) (p : Nat) : Prop :=
  lv.below.length + w.nesting ≤ maxDepth ∧
    ∃ s' o, Exec (decodeMove sch root data) s o s' ∧
      s'.Stands lv (p + w.bytes.length) ∧
      (s.fieldDesc ≠ none → s'.fieldDesc ≠ none) ∧
      (w.notifs sch root lv.desc).length ≤ o.length ∧
      (o.length = (w.notifs sch root lv.desc).length →
        w.Leading sch s.fieldDesc.isSome lv.desc)

/-- A run that returns `LWPB_ERR_OK` passes the message, wherever in the
input it is. -/
def IsPassed (sch : Schema) (root : MsgRef) (data : Bytes) (w : Wire) : Prop :=
  ∀ {s : Dec} {lv : Level} {p used : Nat} {out : List (Event Span)},
    s.Stands lv p → lv.packed = false →
    w.WellFormed sch typed lv.desc → lv.below.length + 1 ≤ maxDepth →
    lv.Holds data p w.bytes →
    Halts (decodeMove sch root data) s out (.ok used) →
    w.Passes sch root data s lv p

section Passing

variable {f : FieldRef} {key len : Bytes} {body rest : Wire}

/-- `field_desc` is set behind a field that was taken for one. -/
theorem isSome_of_ne {fd : Option FieldRef} (h : fd ≠ none) :
    fd.isSome = true :=
  Option.isSome_iff_ne_none.mpr h

/-- Nothing is passed with nothing. -/
theorem nil_isPassed : IsPassed sch root data .nil := by
  intro s lv p used out hs _ _ hfits _ _
  exact ⟨hfits, s, [], .refl s, hs, id, Nat.le_refl _, fun _ => trivial⟩

/-- An unknown field is passed, and where no field was known before it in its
frame there is no notice of it. -/
theorem unknown_isPassed {pl : Payload} (ih : IsPassed sch root data rest) :
    IsPassed sch root data (.unknown key pl rest) := by
  intro s lv p used out hs hpk hwf hfits hin hhalt
  obtain ⟨hkey, hpl, -, hrest⟩ := hwf
  obtain ⟨t, hocc⟩ := hs.occurs sch hpk hkey hpl hin.left
  unfold Passes
  rw [notifs, bytes, List.length_append, ← Nat.add_assoc]
  generalize hfd : (sch.find lv.desc
    (UInt32.ofNat (keyNumber key))).or s.fieldDesc = fd at hocc
  cases fd with
  | none =>
      obtain ⟨hfind, hnone⟩ := Option.or_eq_none_iff.mp hfd
      have hskip := hocc.skips root
      obtain ⟨o', -, hhalt'⟩ := hskip.halts_iff.mp hhalt
      obtain ⟨hnest, s', o, hexec, hs', hset', hle, hlead⟩ :=
        ih hocc.stands hpk hrest hfits hin.right hhalt'
      refine ⟨hnest, s', o, hskip.trans hexec, hs', ?_, hle, ?_⟩
      · intro hne
        exact absurd hnone hne
      · intro heq
        have hlead' := hlead heq
        rw [hocc.desc] at hlead'
        rw [hnone]
        exact ⟨rfl, hfind, hlead'⟩
  | some g =>
      obtain ⟨v, o₁, htaken, hv, hfv, hone⟩ := hocc.taken hpk
        (hin.left.used hkey) hhalt
      obtain ⟨o', -, hhalt'⟩ := htaken.halts_iff.mp hhalt
      obtain ⟨hnest, s', o, hexec, hs', hset', hle, -⟩ :=
        ih hv hpk hrest hfits hin.right hhalt'
      refine ⟨hnest, s', _, htaken.trans hexec, hs',
        fun _ => hset' hfv, ?_, ?_⟩
      · rw [List.length_append]
        omega
      · intro heq
        rw [List.length_append] at heq
        omega

/-- A scalar is passed with its own notice. -/
theorem scalar_isPassed {pl : Payload} (ih : IsPassed sch root data rest) :
    IsPassed sch root data (.scalar f key pl rest) := by
  intro s lv p used out hs hpk hwf hfits hin hhalt
  obtain ⟨hkey, hpl, hknown, hnot, htyped, hrest⟩ := hwf
  obtain ⟨t, hocc⟩ := hs.occurs sch hpk hkey hpl hin.left
  rw [find_of_item hknown] at hocc
  have hreport := hocc.reports root
    (fun hboth => hnot ⟨hboth.1, .inl hboth.2⟩)
    (htyped.not_message hnot)
  obtain ⟨o', -, hhalt'⟩ := hreport.halts_iff.mp hhalt
  obtain ⟨hnest, s', o, hexec, hs', hset', hle, hlead⟩ :=
    ih hocc.stands hpk hrest hfits hin.right hhalt'
  have hft : t.fieldDesc ≠ none := by
    rw [hocc.desc]
    exact Option.some_ne_none _
  unfold Passes
  rw [notifs, bytes, List.length_append, ← Nat.add_assoc]
  refine ⟨hnest, s', _, hreport.trans hexec, hs', fun _ => hset' hft,
    ?_, ?_⟩
  · simp only [List.length_append, List.length_cons, List.length_nil]
    omega
  · intro heq
    simp only [List.length_append, List.length_cons, List.length_nil]
      at heq
    have hlead' := hlead (by omega)
    rw [isSome_of_ne hft] at hlead'
    exact hlead'

/-- A frame that is opened in such a run found room on the stack. -/
theorem sub_isPassed (ihb : IsPassed sch root data body)
    (ihr : IsPassed sch root data rest) :
    IsPassed sch root data (.sub f key len body rest) := by
  intro s lv p used out hs hpk hwf hfits hin hhalt
  obtain ⟨hkey, hpl, hknown, hnorun, hmsg, -, ⟨d, hd⟩, hbody, hrest⟩ :=
    hwf
  have hsub := Schema.subDesc_eq hd
  rw [hsub] at hbody
  obtain ⟨t, hocc⟩ := hs.occurs sch hpk hkey hpl hin.left
  rw [find_of_item hknown] at hocc
  have hroom : lv.below.length + 2 ≤ maxDepth := by
    by_contra hfull
    obtain ⟨out', habort⟩ := hocc.aborts root (.inr hmsg)
      (Nat.not_le.mp hfull)
    cases (hhalt.unique habort).2
  obtain ⟨v, q, hopen, hv, hcontent, hfv⟩ := hocc.enters_sub root hpl
    hnorun hmsg hd hpk hroom
  obtain ⟨o₁, -, hhalt₁⟩ := hopen.halts_iff.mp hhalt
  obtain ⟨hnestb, v', ob, hwalk, hv', hsetb, hleb, hleadb⟩ :=
    ihb hv rfl hbody hroom hcontent hhalt₁
  obtain ⟨u, hclose, hu, hfu⟩ := hv'.close sch root hpk
    (hin.left.used hkey)
  have hpass := (hopen.trans hwalk).trans hclose
  obtain ⟨o₂, -, hhalt₂⟩ := hpass.halts_iff.mp hhalt
  obtain ⟨hnestr, s', or, hexec, hs', hsetr, hler, hleadr⟩ :=
    ihr hu hpk hrest hfits hin.right hhalt₂
  have hfv' : v.fieldDesc ≠ none := by
    rw [hfv]
    exact Option.some_ne_none _
  have hfu' : u.fieldDesc ≠ none := by
    rw [hfu]
    exact hsetb hfv'
  have hleb' : (body.notifs sch root d).length ≤ ob.length := hleb
  unfold Passes
  rw [notifs, bytes, List.length_append, ← Nat.add_assoc, hsub, nesting]
  refine ⟨?_, s', _, hpass.trans hexec, hs', fun _ => hsetr hfu', ?_, ?_⟩
  · have hnestb' : lv.below.length + 1 + body.nesting ≤ maxDepth :=
      hnestb
    omega
  · simp only [List.length_append, List.length_cons, List.length_nil]
    omega
  · intro heq
    simp only [List.length_append, List.length_cons, List.length_nil]
      at heq
    have hb : body.Leading sch v.fieldDesc.isSome d :=
      hleadb (show ob.length = (body.notifs sch root d).length by omega)
    have hr := hleadr (by omega)
    rw [isSome_of_ne hfv'] at hb
    rw [isSome_of_ne hfu'] at hr
    refine ⟨?_, hr⟩
    rw [hsub]
    exact hb

/-- A run is passed with the notices of its frame and elements. -/
theorem run_isPassed {elems : List Payload}
    (ih : IsPassed sch root data rest) :
    IsPassed sch root data (.run f key len elems rest) := by
  intro s lv p used out hs hpk hwf hfits hin hhalt
  obtain ⟨hkey, hpl, hknown, hrun, hall, hrest⟩ := hwf
  obtain ⟨t, hocc⟩ := hs.occurs sch hpk hkey hpl hin.left
  rw [find_of_item hknown] at hocc
  have hroom : lv.below.length + 2 ≤ maxDepth := by
    by_contra hfull
    obtain ⟨out', habort⟩ := hocc.aborts root (.inl hrun)
      (Nat.not_le.mp hfull)
    cases (hhalt.unique habort).2
  obtain ⟨v, q, hopen, hv, hcontent, hfv⟩ := hocc.enters_run root hpl
    hrun hroom
  obtain ⟨v', oe, hwalk, hv', hfv', hoe⟩ := walk_elems root rfl hrun hv
    hfv hall hcontent
  obtain ⟨u, hclose, hu, hfu⟩ := hv'.close sch root hpk
    (hin.left.used hkey)
  have hpass := (hopen.trans hwalk).trans hclose
  obtain ⟨o₂, -, hhalt₂⟩ := hpass.halts_iff.mp hhalt
  obtain ⟨hnestr, s', or, hexec, hs', hsetr, hler, hleadr⟩ :=
    ih hu hpk hrest hfits hin.right hhalt₂
  have hfu' : u.fieldDesc ≠ none := by
    rw [hfu, hfv']
    exact Option.some_ne_none _
  have hlen : oe.length = elems.length := by
    have heq := congrArg List.length hoe.resolves
    unfold resolve elemNotifs at heq
    rw [List.length_map, List.length_map] at heq
    exact heq
  unfold Passes
  rw [notifs, bytes, List.length_append, ← Nat.add_assoc, nesting]
  refine ⟨by omega, s', _, hpass.trans hexec, hs',
    fun _ => hsetr hfu', ?_, ?_⟩
  · simp only [List.length_append, List.length_cons, List.length_nil,
      List.length_map]
    omega
  · intro heq
    simp only [List.length_append, List.length_cons, List.length_nil,
      List.length_map] at heq
    have hr := hleadr (by omega)
    rw [isSome_of_ne hfu'] at hr
    exact hr

end Passing

/-- A well-formed message in a run that returns `LWPB_ERR_OK` is passed. -/
theorem walk_counts {w : Wire} : IsPassed sch root data w := by
  induction w with
  | nil => exact nil_isPassed
  | unknown key pl rest ih => exact unknown_isPassed ih
  | scalar f key pl rest ih => exact scalar_isPassed ih
  | sub f key len body rest ihb ihr => exact sub_isPassed ihb ihr
  | run f key len elems rest ih => exact run_isPassed ih

end Wire

-- ================================================================ whole runs

/-- Unknown fields in `w` are skipped, whichever of them are taken to be
inserted: the call returns `LWPB_ERR_OK` and its notifications are those
of the message without them. -/
def SkipsUnknown (sch : Schema) (root : MsgRef) (uninit uninit' : UInt64)
    (w : Wire) : Prop :=
  ∀ b : Wire, b.WellFormed sch typed root → b.Inserts w →
    ∃ out used out' r, Decodes sch root w.bytes uninit out (.ok used) ∧
      Decodes sch root b.bytes uninit' out' r ∧
      resolve w.bytes out = resolve b.bytes out'

/-- Unknown fields in front of the known ones are skipped, in every frame. -/
theorem skipsUnknown_of_leading {w : Wire}
    (hw : w.WellFormed sch typed root) (hlead : w.Leading sch false root)
    (hdepth : w.nesting ≤ maxDepth) :
    SkipsUnknown sch root uninit uninit' w := by
  intro b hb hins
  obtain ⟨out, hdec, hout⟩ := decode_wire uninit hw hlead hdepth
  obtain ⟨out', hdec', hout'⟩ := decode_wire uninit' hb (hins.leading hlead)
    (by rw [hins.nesting]; exact hdepth)
  refine ⟨out, _, out', _, hdec, hdec', ?_⟩
  rw [hout.resolves, hout'.resolves, Wire.report, Wire.report, hins.notifs]

/-- A well-formed message that is accepted fits the stack, and is
reported with at least as many calls as it has fields for; with no more
only if its unknown fields lead. -/
theorem leading_of_ok {w : Wire} {out : List (Event Span)} {used : Nat}
    (hw : w.WellFormed sch typed root)
    (hdec : Decodes sch root w.bytes uninit out (.ok used)) :
    w.nesting ≤ maxDepth ∧ (w.report sch root).length ≤ out.length ∧
      (out.length = (w.report sch root).length →
        w.Leading sch false root) := by
  obtain ⟨s, henter, hs, hf⟩ := decodeInit_enter sch root w.bytes uninit
  obtain ⟨o₁, rfl, hhalt⟩ := henter.halts_iff.mp hdec
  obtain ⟨hnest, s', o, hwalk, hs', -, hle, hlead⟩ := Wire.walk_counts hs rfl
    hw (by show 0 + 1 ≤ 32; omega) (rootLevel_holds root w.bytes) hhalt
  obtain ⟨o₂, rfl, hhalt'⟩ := hwalk.halts_iff.mp hhalt
  rw [Nat.zero_add] at hs'
  obtain ⟨rfl, -⟩ := hhalt'.unique hs'.done
  have hnest' : 0 + w.nesting ≤ maxDepth := hnest
  have hle' : (w.notifs sch root root).length ≤ o.length := hle
  refine ⟨by omega, ?_, fun heq => ?_⟩
  · simp only [Wire.report, List.length_append, List.length_cons,
      List.length_nil]
    omega
  rw [hf] at hlead
  refine hlead ?_
  unfold Wire.report at heq
  simp only [List.length_append, List.length_cons, List.length_nil] at heq
  show o.length = (w.notifs sch root root).length
  omega

/-- The unknown fields of a well-formed message are skipped exactly if
its nesting fits the stack and they all stand in front of its first known
field, under numbers that are no known number modulo `2 ^ 32`. -/
theorem decode_skips_unknown_iff {w : Wire}
    (hw : w.WellFormed sch typed root) :
    SkipsUnknown sch root uninit uninit' w ↔
      w.nesting ≤ maxDepth ∧ w.Leading sch false root := by
  constructor
  · intro h
    have hstrip := Wire.strip_wellFormed hw
    have hins := w.strip_inserts
    obtain ⟨out, used, out', r, hdec, hdec', heq⟩ := h w.strip hstrip hins
    obtain ⟨hnest, -, hlead⟩ := leading_of_ok hw hdec
    obtain ⟨out'', hdec'', hout''⟩ := decode_wire uninit' hstrip
      (w.strip_leading false root) (by rw [hins.nesting]; exact hnest)
    obtain ⟨rfl, -⟩ := hdec'.unique hdec''
    refine ⟨hnest, hlead ?_⟩
    have hlen := congrArg List.length heq
    rw [hout''.resolves] at hlen
    unfold resolve Wire.report at hlen
    rw [List.length_map, hins.notifs] at hlen
    exact hlen
  · intro h
    obtain ⟨hdepth, hlead⟩ := h
    exact skipsUnknown_of_leading hw hlead hdepth

/-- The field `n = 5`, and behind it a field of number 2. -/
def knownThenUnknown : Wire :=
  .scalar ⟨0, 0⟩ [0x08] (.varint [0x05])
    (.unknown [0x10] (.varint [0x07]) .nil)

/-- A field of number 2, and behind it the field `n = 5`. -/
def unknownThenKnown : Wire :=
  .unknown [0x10] (.varint [0x07])
    (.scalar ⟨0, 0⟩ [0x08] (.varint [0x05]) .nil)

/-- Of an unknown field in front of a known one. -/
theorem decode_skips_unknown_iff_first :
    SkipsUnknown oneInt32 0 0 0 unknownThenKnown ↔
      unknownThenKnown.nesting ≤ maxDepth ∧
        unknownThenKnown.Leading oneInt32 false 0 := by
  refine decode_skips_unknown_iff ⟨?_, ?_, ?_, ?_, ?_, ?_, ?_, ?_, trivial⟩
  · exact ⟨by decide, by decide⟩
  · decide
  · decide
  · exact ⟨by decide, by decide⟩
  · decide
  · decide
  · intro h
    obtain ⟨hstr, -⟩ := h
    cases hstr
  · exact ⟨rfl, nofun⟩

/-- A field of an unknown number behind the field `n` is reported as
another `n`. -/
theorem decode_repeats_known :
    ¬ SkipsUnknown oneInt32 0 0 0 knownThenUnknown := by
  intro h
  have hb : (Wire.scalar ⟨0, 0⟩ [0x08] (.varint [0x05]) .nil).WellFormed
      oneInt32 typed 0 := by
    refine ⟨⟨by decide, by decide⟩, by decide, by decide, ?_,
      ⟨rfl, nofun⟩, trivial⟩
    intro h
    obtain ⟨hstr, -⟩ := h
    cases hstr
  obtain ⟨out, used, out', r, hdec, hdec', heq⟩ := h _ hb
    (.scalar _ _ _ (.new _ _ .nil))
  have hw : Decodes oneInt32 0 knownThenUnknown.bytes 0
      [.msgStart 0 false, .field 0 ⟨0, 0⟩ (some (.int32 5)) false,
        .field 0 ⟨0, 0⟩ (some (.int32 7)) false, .msgEnd 0 false]
      (.ok 4) := halts_of_eval 5 rfl
  have hw' : Decodes oneInt32 0
      (Wire.scalar ⟨0, 0⟩ [0x08] (.varint [0x05]) .nil).bytes 0
      [.msgStart 0 false, .field 0 ⟨0, 0⟩ (some (.int32 5)) false,
        .msgEnd 0 false] (.ok 2) := halts_of_eval 4 rfl
  obtain ⟨rfl, -⟩ := hdec.unique hw
  obtain ⟨rfl, -⟩ := hdec'.unique hw'
  cases congrArg List.length heq

end Lwpb
