/-
What a part of the writing pass may write, and how it goes.

There must be room for all that is written on the way (`Room`): a payload
stands ten bytes further on before it is moved down. Without the room it is
a bad access. `PassOutcome` says both at once, of any part of the pass,
together with the one other way it can go: a list too long for its counter.

What a part may write is a `Script`; parts that follow one another write
joined scripts (`PassOutcome.bind`), and a frame is written by
`PassOutcome.frame`.
-/
import Lwpb.Proofs.Python.Values
import Lwpb.Proofs.Python.Errors
import Lwpb.Proofs.Encoder.Trees
import Lwpb.Proofs.RoundTrip

namespace Lwpb

open Memory Base128

-- ===================================================================== room

/-- So many bytes from `a` on lie between `lo` and `hi`. -/
def Fit (lo hi a n : Nat) : Prop := n = 0 ∨ (lo ≤ a ∧ a + n ≤ hi)

theorem fit_append {lo hi a n k : Nat} :
    Fit lo hi a (n + k) ↔ Fit lo hi a n ∧ Fit lo hi (a + n) k := by
  unfold Fit
  omega

/-- Between `lo` and `hi` there is room for what is written from `a`
on. -/
def Room (sch : Schema) (lo hi : Nat) : Nat → Tree → Prop
  | _, .nil => True
  | a, .scalar f v rest =>
      let p := v.payload (sch.field f).opts.typ
      let n := ((sch.field f).key p.wireType ++ p.bytes).length
      Fit lo hi a n ∧ Room sch lo hi (a + n) rest
  | a, .message f body rest =>
      let n := ((sch.field f).framed (body.wire sch).bytes).length
      Room sch lo hi (a + 10) body ∧ Fit lo hi a n ∧
        Room sch lo hi (a + n) rest
  | a, .packed f elems rest =>
      let bytes := elemBytes (elems.map (Value.payload (sch.field f).opts.typ))
      let n := ((sch.field f).framed bytes).length
      Fit lo hi (a + 10) bytes.length ∧ Fit lo hi a n ∧
        Room sch lo hi (a + n) rest

theorem room_append {sch : Schema} {lo hi a : Nat} {t u : Tree} :
    Room sch lo hi a (t.append u) ↔ Room sch lo hi a t ∧
      Room sch lo hi (a + (t.wire sch).bytes.length) u := by
  induction t generalizing a with
  | nil => exact ⟨fun h => ⟨trivial, h⟩, fun h => h.2⟩
  | scalar f v rest ih =>
      simp only [Tree.append, Room, ih, Tree.wire, Wire.bytes,
        List.length_append, and_assoc, Nat.add_assoc]
  | message f body rest ihb ihr =>
      simp only [Tree.append, Room, ihr, Tree.wire, Wire.bytes,
        FieldDesc.framed, List.length_append, and_assoc, Nat.add_assoc]
  | packed f elems rest ih =>
      simp only [Tree.append, Room, ih, Tree.wire, Wire.bytes,
        FieldDesc.framed, List.length_append, and_assoc, Nat.add_assoc]

/-- There is room at least for the bytes themselves. -/
theorem room_bytes {sch : Schema} {lo hi a : Nat} {t : Tree}
    (h : Room sch lo hi a t) : Fit lo hi a (t.wire sch).bytes.length := by
  induction t generalizing a with
  | nil => exact .inl rfl
  | scalar f v rest ih =>
      rw [Tree.wire, Wire.bytes, List.length_append]
      exact fit_append.mpr ⟨h.1, ih h.2⟩
  | message f body rest ihb ihr =>
      rw [Tree.wire, Wire.bytes, List.length_append]
      exact fit_append.mpr ⟨h.2.1, ihr h.2.2⟩
  | packed f elems rest ih =>
      rw [Tree.wire, Wire.bytes, List.length_append]
      exact fit_append.mpr ⟨h.2.1, ih h.2.2⟩

namespace Python

-- ================================================================== scripts

/-- What may be written at one place: which meanings are possible, the
bytes of each, and whether there is room for it at an address. -/
structure Script (τ : Type) where
  spelled : τ → Prop
  bytes : τ → Bytes
  room : Nat → τ → Prop

/-- Scripts that follow one another. -/
structure Joins {σ τ υ : Type} (first : Script σ) (second : Script τ)
    (whole : Script υ) (join : σ → τ → υ) : Prop where
  spelled : ∀ u, whole.spelled u ↔
    ∃ t, first.spelled t ∧ ∃ t', second.spelled t' ∧ u = join t t'
  bytes : ∀ t t', whole.bytes (join t t') = first.bytes t ++ second.bytes t'
  room : ∀ a t t', whole.room a (join t t') ↔ first.room a t ∧
    second.room (a + (first.bytes t).length) t'

/-- The block lies between `lo` and `hi`. -/
def InBlock (lo hi : Nat) (h : Heap) : Prop :=
  h.base = lo ∧ h.base + h.size = hi

theorem InBlock.same {lo hi : Nat} {h h' : Heap} (hb : InBlock lo hi h)
    (hsame : h.SameBlock h') : InBlock lo hi h' := by
  obtain ⟨hbase, hsize⟩ := hsame
  unfold InBlock
  rw [hbase, hsize]
  exact hb

theorem InBlock.owns {lo hi a n : Nat} {h : Heap} (hb : InBlock lo hi h) :
    h.Owns a n ↔ Fit lo hi a n := by
  obtain ⟨rfl, rfl⟩ := hb
  exact Iff.rfl

/-- The bytes stand at `a`, and below it nothing has changed. -/
structure Wrote (hi : Nat) (m m' : Mem) (a : Nat) (bs : Bytes) : Prop where
  within : Within m m' a hi
  read : Memory.read m' a bs.length = bs

theorem Wrote.nil (hi : Nat) (m : Mem) (a : Nat) : Wrote hi m m a [] :=
  ⟨.refl m a hi, rfl⟩

theorem Wrote.append {hi a : Nat} {m m' m'' : Mem} {bs cs : Bytes}
    (h : Wrote hi m m' a bs) (h' : Wrote hi m' m'' (a + bs.length) cs) :
    Wrote hi m m'' a (bs ++ cs) where
  within := h.within.trans
    (h'.within.mono (Nat.le_add_right ..) (Nat.le_refl hi))
  read := by
    rw [List.length_append, read_append, h'.read,
      h'.within.read (.inl (Nat.le_refl _)), h.read]

/-- Lengths that leave room for a header in ten bytes. -/
def Brief (bs : Bytes) : Prop := bs.length < 2 ^ 35

instance (bs : Bytes) : Decidable (Brief bs) :=
  inferInstanceAs (Decidable (bs.length < 2 ^ 35))

-- ================================================================= outcomes

/-- How a part of the writing pass goes that starts at `a`. If it returns,
it has written one of the meanings, for which there was room; a bad access
means that there was no room, if the meaning is determined (`det`); and it
only runs away from a list that is too long (`short`). -/
def PassOutcome {α τ : Type} (lo hi : Nat) (det short : Prop) (w : Script τ)
    (a : Nat) (s : State) (r : Ret α) (good : α → τ → Prop) : Prop :=
  match r with
  | .ret b s' => short ∧ ∃ t, w.spelled t ∧ w.room a t ∧ good b t ∧
      s'.packed = s.packed ∧ InBlock lo hi s'.heap ∧
      (Brief (w.bytes t) → Wrote hi s.heap.mem s'.heap.mem a (w.bytes t))
  | .abort => False
  | .fault => det → ∀ t, w.spelled t → ¬ w.room a t
  | .runaway => ¬ short

section

variable {α β σ τ υ : Type} {lo hi a : Nat} {det short short' : Prop}
  {first : Script σ} {second : Script τ} {whole : Script υ}
  {join : σ → τ → υ} {s : State} {r : Ret α} {next : α → State → Ret β}
  {good : α → σ → Prop} {good' : β → υ → Prop}

theorem PassOutcome.bind (hjoin : Joins first second whole join)
    (hunique : det → ∀ t t', first.spelled t → first.spelled t' → t = t')
    (h : PassOutcome lo hi det short first a s r good)
    (hnext : ∀ b t s', first.spelled t → first.room a t → good b t →
      s'.packed = s.packed → InBlock lo hi s'.heap →
      PassOutcome lo hi det short' second (a + (first.bytes t).length) s'
        (next b s') fun c t' => good' c (join t t')) :
    PassOutcome lo hi det (short ∧ short') whole a s (r.bind next) good' := by
  cases r with
  | ret b s' =>
      obtain ⟨hshort, t, hspelled, hroom, hgood, hpacked, hblock, hwrote⟩ := h
      have hrest := hnext b t s' hspelled hroom hgood hpacked hblock
      show PassOutcome lo hi det (short ∧ short') whole a s (next b s') good'
      cases hr : next b s' with
      | ret c s'' =>
          rw [hr] at hrest
          obtain ⟨hshort', t', hspelled', hroom', hgood', hpacked', hblock',
            hwrote'⟩ := hrest
          refine ⟨⟨hshort, hshort'⟩, join t t',
            (hjoin.spelled _).mpr ⟨t, hspelled, t', hspelled', rfl⟩,
            (hjoin.room a t t').mpr ⟨hroom, hroom'⟩, hgood',
            hpacked'.trans hpacked, hblock', fun hbrief => ?_⟩
          rw [hjoin.bytes] at hbrief ⊢
          unfold Brief at hbrief
          rw [List.length_append] at hbrief
          refine (hwrote ?_).append (hwrote' ?_)
          · exact Nat.lt_of_le_of_lt (Nat.le_add_right ..) hbrief
          · exact Nat.lt_of_le_of_lt (Nat.le_add_left ..) hbrief
      | abort =>
          rw [hr] at hrest
          exact hrest.elim
      | fault =>
          rw [hr] at hrest
          intro hdet u hu hroom'
          obtain ⟨t₁, hspelled₁, t₂, hspelled₂, rfl⟩ := (hjoin.spelled u).mp hu
          obtain rfl := hunique hdet t t₁ hspelled hspelled₁
          exact hrest hdet t₂ hspelled₂ ((hjoin.room a t t₂).mp hroom').2
      | runaway =>
          rw [hr] at hrest
          exact fun hboth => hrest hboth.2
  | abort => exact h.elim
  | fault =>
      intro hdet u hu hroom
      obtain ⟨t, hspelled, t', -, rfl⟩ := (hjoin.spelled u).mp hu
      exact h hdet t hspelled ((hjoin.room a t t').mp hroom).1
  | runaway => exact fun hboth => h hboth.1

theorem PassOutcome.short_congr {w : Script σ} (hshort : short ↔ short')
    (h : PassOutcome lo hi det short w a s r good) :
    PassOutcome lo hi det short' w a s r good := by
  rw [← propext hshort]
  exact h

/-- A part whose result is only looked at. -/
theorem PassOutcome.imp {w : Script σ} {goal : α → σ → Prop}
    (h : PassOutcome lo hi det short w a s r good)
    (hgood : ∀ b t, w.spelled t → w.room a t → good b t → goal b t) :
    PassOutcome lo hi det short w a s r goal := by
  cases r with
  | ret b s' =>
      obtain ⟨hshort, t, hspelled, hroom, hg, hrest⟩ := h
      exact ⟨hshort, t, hspelled, hroom, hgood b t hspelled hroom hg, hrest⟩
  | abort => exact h
  | fault => exact h
  | runaway => exact h

/-- A loop that was not broken off, with something made of its result. -/
theorem PassOutcome.andThen_ret {w : Script σ} {r : Ret (Option α)} {g : α → β}
    {good : Option α → σ → Prop} {goal : Option β → σ → Prop}
    (h : PassOutcome lo hi det short w a s r good)
    (hgood : ∀ b t, w.spelled t → w.room a t → good b t →
      ∃ v, b = some v ∧ goal (some (g v)) t) :
    PassOutcome lo hi det short w a s
      (r.andThen fun v s => .ret (some (g v)) s) goal := by
  cases r with
  | ret b s' =>
      obtain ⟨hshort, t, hspelled, hroom, hg, hrest⟩ := h
      obtain ⟨v, rfl, hgoal⟩ := hgood b t hspelled hroom hg
      exact ⟨hshort, t, hspelled, hroom, hgoal, hrest⟩
  | abort => exact h
  | fault => exact h
  | runaway => exact h

end

-- =================================================================== frames

/-- What adding a field of these bytes at `a` comes to. -/
def Adds (lo hi a : Nat) (s : State) (r : Ret UInt64) (bs : Bytes)
    (wrote : Mem → Mem → Prop) : Prop :=
  (¬ Fit lo hi a bs.length ∧ r = .fault) ∨
    (Fit lo hi a bs.length ∧ ∃ s', r = .ret (UInt64.ofNat bs.length) s' ∧
      s'.packed = s.packed ∧ InBlock lo hi s'.heap ∧
      wrote s.heap.mem s'.heap.mem)

section

variable {lo hi a : Nat} {s : State} {uninit : UInt64} {desc : FieldDesc}
  {val : RawValue}

/-- Bytes from outside of the block. -/
theorem addField_emits {bs : Bytes} (hb : InBlock lo hi s.heap)
    (hadd : Encoder2.addField s.packed uninit s.heap desc val (some a)
      = Encoder2.emit s.heap (some a) 0 bs) :
    Adds lo hi a s (addField uninit desc val (some a) s) bs
      fun m m' => Wrote hi m m' a bs := by
  unfold addField
  rw [hadd, Encoder2.emit, UInt64.zero_add]
  by_cases hfit : Fit lo hi a bs.length
  · rw [Heap.puts_of_owns (hb.owns.mpr hfit)]
    refine .inr ⟨hfit, _, rfl, rfl, hb, ?_, read_store bs⟩
    rcases hfit with hnil | ⟨-, hle⟩
    · rw [List.length_eq_zero_iff.mp hnil]
      exact .refl _ _ _
    · exact (store_within bs).mono (Nat.le_refl a) hle
  · rw [Heap.puts_of_not_owns fun howns => hfit (hb.owns.mp howns)]
    exact .inl ⟨hfit, rfl⟩

/-- A header, and the payload moved down behind it. -/
theorem header_moves {m : Mem} {header body : Bytes}
    (hten : header.length ≤ 10)
    (hbody : Memory.read m (a + 10) body.length = body)
    (hhi : a + header.length + body.length ≤ hi) :
    Wrote hi m (copy (Memory.store m a header) (a + header.length) body.length
      fun i => Memory.store m a header (a + 10 + i)) a (header ++ body) where
  within := by
    refine ((store_within header).mono (Nat.le_refl a) (by omega)).trans ?_
    exact (copy_within _).mono (Nat.le_add_right ..) hhi
  read := by
    rw [List.length_append, read_append, read_copy,
      (copy_within _).read (.inl (Nat.le_refl _)), read_store]
    congr 1
    rw [← read_eq_map (m := Memory.store m a header) (a := a + 10) _
        fun _ _ => rfl,
      (store_within header).read (.inr (by omega)), hbody]

/-- A payload that stands ten bytes further on. -/
theorem addField_framed {body : Bytes} (hnum : desc.number.toNat < 2 ^ 29)
    (hframe : desc.opts.typ = .message ∨ desc.isPackedRepeated = true)
    (hpacked : s.packed = false) (hb : InBlock lo hi s.heap)
    (hfit : Fit lo hi (a + 10) body.length) (hsmall : body.length < 2 ^ 64)
    (hlen : val.len = UInt64.ofNat body.length)
    (hsrc : val.src = .buf (a + 10)) :
    Adds lo hi a s (addField uninit desc val (some a) s) (desc.framed body)
      fun m m' => Brief body →
        Memory.read m (a + 10) body.length = body →
        Wrote hi m m' a (desc.framed body) := by
  have hnat : val.len.toNat = body.length := by
    rw [hlen, UInt64.toNat_ofNat_of_lt' hsmall]
  have hframed : desc.framed body
      = (desc.key .string ++ encode body.length) ++ body :=
    (List.append_assoc ..).symm
  have hpos : 0 < (desc.key .string ++ encode body.length).length := by
    have := encode_length_pos body.length
    rw [List.length_append]
    omega
  have hheader : Brief body →
      (desc.key .string ++ encode body.length).length ≤ 10 := by
    intro hbrief
    rw [List.length_append]
    exact header_length hnum hbrief
  obtain ⟨packed, heap, error, calls⟩ := s
  cases hpacked
  simp only at hb
  unfold addField
  simp only
  rw [Encoder2.addField_frame hframe, Encoder2.encodeKeyed_frame hnum,
    hframed]
  simp only [hnat, hsrc]
  generalize desc.key .string ++ encode body.length = header
    at hpos hheader ⊢
  rw [Adds, List.length_append, fit_append]
  by_cases hput : Fit lo hi a header.length
  · rw [Heap.puts_of_owns (hb.owns.mpr hput), Option.bind_some,
      Option.map_some]
    have hb' : InBlock lo hi
        ⟨Memory.store heap.mem a header, heap.base, heap.size⟩ := hb
    have hread : Heap.Readable
        ⟨Memory.store heap.mem a header, heap.base, heap.size⟩
        (.buf (a + 10)) body.length := hb'.owns.mpr hfit
    by_cases hmove : Fit lo hi (a + header.length) body.length
    · rw [Heap.move_of_owns (hb'.owns.mpr hmove) hread]
      rw [hlen, UInt64.ofNat_add]
      refine .inr ⟨⟨hput, hmove⟩, _, rfl, rfl, hb', ?_⟩
      intro hbrief hbody
      refine header_moves (hheader hbrief) hbody ?_
      unfold Fit at hput hmove
      omega
    · rw [Heap.move_of_not_owns fun howns => hmove (hb'.owns.mp howns)]
      exact .inl ⟨fun hboth => hmove hboth.2, rfl⟩
  · rw [Heap.puts_of_not_owns fun howns => hput (hb.owns.mp howns)]
    exact .inl ⟨fun hboth => hput hboth.1, rfl⟩

end

/-- A frame: the payload ten bytes further on, and then moved down. -/
theorem PassOutcome.frame {α β σ τ : Type} {lo hi a : Nat} {det short : Prop}
    {inner : Script σ} {w : Script τ} (desc : FieldDesc) (wrap : σ → τ)
    {s s₁ : State} {r : Ret α} {next : α → State → Ret β}
    {good : α → σ → Prop} {good' : β → τ → Prop} (hs₁ : s₁.heap = s.heap)
    (hspelled : ∀ u, w.spelled u ↔ ∃ t, inner.spelled t ∧ u = wrap t)
    (hbytes : ∀ t, w.bytes (wrap t) = desc.framed (inner.bytes t))
    (hroom : ∀ t, w.room a (wrap t) ↔ inner.room (a + 10) t ∧
      Fit lo hi a (desc.framed (inner.bytes t)).length)
    (hunique : det → ∀ t t', inner.spelled t → inner.spelled t' → t = t')
    (h : PassOutcome lo hi det short inner (a + 10) s₁ r good)
    (hnext : ∀ b t s', inner.spelled t → inner.room (a + 10) t → good b t →
      s'.packed = s₁.packed → InBlock lo hi s'.heap →
      (¬ Fit lo hi a (desc.framed (inner.bytes t)).length ∧
          next b s' = .fault) ∨
        (Fit lo hi a (desc.framed (inner.bytes t)).length ∧
          ∃ c s'', next b s' = .ret c s'' ∧ good' c (wrap t) ∧
            s''.packed = s.packed ∧ InBlock lo hi s''.heap ∧
            (Brief (inner.bytes t) →
              Memory.read s'.heap.mem (a + 10) (inner.bytes t).length
                = inner.bytes t →
              Wrote hi s'.heap.mem s''.heap.mem a
                (desc.framed (inner.bytes t))))) :
    PassOutcome lo hi det short w a s (r.bind next) good' := by
  cases r with
  | ret b s' =>
      obtain ⟨hshort, t, hsp, hrm, hgood, hpacked, hblock, hwrote⟩ := h
      rw [Ret.ret_bind]
      rcases hnext b t s' hsp hrm hgood hpacked hblock with
        ⟨hno, hfault⟩ | ⟨hfit, c, s'', hret, hgood', hpacked', hblock', hmem⟩
      · rw [hfault]
        intro hdet u hu hroom'
        obtain ⟨t', hsp', rfl⟩ := (hspelled u).mp hu
        obtain rfl := hunique hdet t t' hsp hsp'
        exact hno ((hroom t).mp hroom').2
      · rw [hret]
        refine ⟨hshort, wrap t, (hspelled _).mpr ⟨t, hsp, rfl⟩,
          (hroom t).mpr ⟨hrm, hfit⟩, hgood', hpacked', hblock', fun hb => ?_⟩
        rw [hbytes] at hb ⊢
        have hbrief : Brief (inner.bytes t) := by
          unfold Brief FieldDesc.framed at *
          rw [List.length_append, List.length_append] at hb
          omega
        have hin := hwrote hbrief
        have hout := hmem hbrief hin.read
        rw [hs₁] at hin
        exact ⟨(hin.within.mono (Nat.le_add_right ..) (Nat.le_refl hi)).trans
          hout.within, hout.read⟩
  | abort => exact h.elim
  | fault =>
      intro hdet u hu hroom'
      obtain ⟨t, hsp, rfl⟩ := (hspelled u).mp hu
      exact h hdet t hsp ((hroom t).mp hroom').1
  | runaway => exact h

end Python

end Lwpb
