/-
When varint decoding is exact.

The loop of `lwpb_decode_varint` reads a byte, tests it, and only then
looks whether another one follows. So it is exact, and stays inside its
buffer, from any position with a byte left, except in front of ten
continuation bytes and an eleventh byte: there its test of `bitpos` ends
it at a shift by 70, and it returns a number.

`varintStep_halts` ties the loop to the `decodeVarint` of the decoder's
machine. The two ways of failing are runs of continuation bytes
(`open_runs`); everywhere else the invariant `Counts` keeps the count of
bytes below ten and the position below the end (`counts_kept`), and what
a pass does from there is harmless (`counts_harmless`).
-/
import Lwpb.Core.Varint
import Lwpb.Proofs.Decoder.Readers

namespace Lwpb

open Machine Base128 Slice

variable {data : Bytes} {stop : Nat} {buf : Buf}

-- ===================================================================== a pass

/-- The word behind a pass. -/
def VarintLoop.word (s : VarintLoop) (b : UInt8) : UInt64 :=
  s.varint ||| ((b &&& 0x7f).toUInt64 <<< UInt64.ofNat s.bitpos)

/-- What a pass does. -/
def VarintLoop.accesses (s : VarintLoop) : List VarintAccess :=
  [.read s.pos, .shift s.bitpos]

theorem varintStep_outside {s : VarintLoop} (h : data[s.pos]? = none) :
    varintStep data stop s
      = .halt (.error (.read s.pos)) [.read s.pos] := by
  unfold varintStep
  rw [h]

/-- A continuation byte. -/
theorem high_bit_set {b : UInt8} : b &&& 0x80 ≠ 0 ↔ 128 ≤ b.toNat := by
  rw [ne_eq, high_bit, Nat.not_lt]

/-- A continuation byte with another byte behind it. -/
theorem varintStep_next (s : VarintLoop) {b : UInt8}
    (hb : data[s.pos]? = some b) (hhigh : 128 ≤ b.toNat)
    (hbit : s.bitpos < 64) (hroom : s.pos + 2 ≤ stop) :
    varintStep data stop s
      = .next ⟨s.bitpos + 7, s.pos + 1, s.word b⟩ s.accesses := by
  unfold varintStep
  rw [hb]
  dsimp only
  rw [if_pos ⟨high_bit_set.mpr hhigh, hbit⟩, if_neg (by omega)]
  rfl

/-- A continuation byte with nothing behind it. -/
theorem varintStep_cut (s : VarintLoop) {b : UInt8}
    (hb : data[s.pos]? = some b) (hhigh : 128 ≤ b.toNat)
    (hbit : s.bitpos < 64) (hcut : stop < s.pos + 2) :
    varintStep data stop s
      = .halt (.ok ⟨.endOfBuf, s.word b, s.pos⟩) s.accesses := by
  unfold varintStep
  rw [hb]
  dsimp only
  rw [if_pos ⟨high_bit_set.mpr hhigh, hbit⟩, if_pos hcut]
  rfl

/-- The byte that ends the loop: the last of a varint, or the first with
`bitpos` too large. -/
theorem varintStep_last (stop : Nat) (s : VarintLoop) {b : UInt8}
    (hb : data[s.pos]? = some b) (hend : b.toNat < 128 ∨ 64 ≤ s.bitpos) :
    varintStep data stop s
      = .halt (.ok ⟨.ok, s.word b, s.pos + 1⟩) s.accesses := by
  have hnot : ¬ (b &&& 0x80 ≠ 0 ∧ s.bitpos < 64) := by
    rintro ⟨hcont, hbit⟩
    rw [high_bit_set] at hcont
    omega
  unfold varintStep
  rw [hb]
  dsimp only
  rw [if_neg hnot]
  rfl

/-- A pass that goes on went past a continuation byte. -/
theorem varintStep_cases {s s' : VarintLoop} {o : List VarintAccess}
    (h : varintStep data stop s = .next s' o) :
    ∃ b, data[s.pos]? = some b ∧ 128 ≤ b.toNat ∧ s.bitpos < 64 ∧
      s.pos + 2 ≤ stop ∧ s' = ⟨s.bitpos + 7, s.pos + 1, s.word b⟩ := by
  cases hb : data[s.pos]? with
  | none => rw [varintStep_outside hb] at h; cases h
  | some b =>
      by_cases hend : b.toNat < 128 ∨ 64 ≤ s.bitpos
      · rw [varintStep_last stop s hb hend] at h
        cases h
      · by_cases hcut : stop < s.pos + 2
        · rw [varintStep_cut s hb (by omega) (by omega) hcut] at h
          cases h
        · rw [varintStep_next s hb (by omega) (by omega) (by omega)] at h
          injection h with hs
          exact ⟨b, rfl, by omega, by omega, by omega, hs.symm⟩

/-- Every pass begins with a read and, inside the input, shifts. -/
theorem varintStep_out (data : Bytes) (stop : Nat) (s : VarintLoop) :
    (varintStep data stop s).out = s.accesses ∨
      (varintStep data stop s).out = [.read s.pos] := by
  cases hb : data[s.pos]? with
  | none =>
      rw [varintStep_outside hb]
      exact .inr rfl
  | some b =>
      left
      by_cases hend : b.toNat < 128 ∨ 64 ≤ s.bitpos
      · rw [varintStep_last stop s hb hend]
        rfl
      · by_cases hcut : stop < s.pos + 2
        · rw [varintStep_cut s hb (by omega) (by omega) hcut]
          rfl
        · rw [varintStep_next s hb (by omega) (by omega) (by omega)]
          rfl

-- =========================================================== what it computes

/-- What a call comes to for the decoder. -/
def varintOutcome : Except Fault VarintEnd → Outcome (UInt64 × Nat)
  | .error f => .fault f
  | .ok ⟨.ok, varint, pos⟩ => .ok (varint, pos)
  | .ok ⟨e, _, _⟩ => .err e

/-- The loop ends, and comes to what `decodeVarintLoop` says. -/
theorem varintStep_halts :
    ∀ (rounds bitpos pos : Nat) (acc : UInt64), bitpos + 7 * rounds = 70 →
      ∃ out r, Halts (varintStep data stop) ⟨bitpos, pos, acc⟩ out r ∧
        decodeVarintLoop data stop rounds bitpos pos acc
          = varintOutcome r := by
  intro rounds
  induction rounds with
  | zero =>
      intro bitpos pos acc hbit
      cases hb : data[pos]? with
      | none =>
          exact ⟨_, _, .stop (varintStep_outside hb),
            decodeVarintLoop_outside hb⟩
      | some b =>
          have hlast : 64 ≤ bitpos := by omega
          exact ⟨_, _, .stop (varintStep_last stop _ hb (.inr hlast)),
            decodeVarintLoop_last hb (.inr rfl)⟩
  | succ n ih =>
      intro bitpos pos acc hbit
      have hlt : bitpos < 64 := by omega
      cases hb : data[pos]? with
      | none =>
          exact ⟨_, _, .stop (varintStep_outside hb),
            decodeVarintLoop_outside hb⟩
      | some b =>
          by_cases hlow : b.toNat < 128
          · exact ⟨_, _, .stop (varintStep_last stop _ hb (.inl hlow)),
              decodeVarintLoop_last hb (.inl ((high_bit b).mpr hlow))⟩
          have hhigh := high_bit_set.mpr (Nat.not_lt.mp hlow)
          by_cases hcut : stop < pos + 2
          · exact ⟨_, _, .stop (varintStep_cut _ hb (by omega) hlt hcut),
              decodeVarintLoop_cut hb hhigh hcut⟩
          · have hroom := Nat.not_lt.mp hcut
            rw [decodeVarintLoop_next hb hhigh hroom]
            obtain ⟨out, r, hrun, hloop⟩ :=
              ih (bitpos + 7) (pos + 1) _ (by omega)
            have hnext := varintStep_next ⟨bitpos, pos, acc⟩ hb
              (by omega) hlt hroom
            exact ⟨_, r, .step hnext hrun, hloop⟩

/-- A call ends, and comes to what `decodeVarint` says. -/
theorem decodeVarint_halts (data : Bytes) (buf : Buf) :
    ∃ out r, Halts (varintStep data buf.stop) (varintEntry buf) out r ∧
      decodeVarint data buf
        = (varintOutcome r >>= fun (varint, pos) =>
            .ok (varint, { buf with pos := pos })) := by
  obtain ⟨out, r, hrun, hloop⟩ := @varintStep_halts data buf.stop
    10 0 buf.pos 0 (by omega)
  refine ⟨out, r, hrun, ?_⟩
  unfold decodeVarint
  rw [hloop]

-- =========================================================== the two failures

/-- In front of a byte that is not the buffer's, the first pass reads it. -/
theorem run_reads {s : VarintLoop} {out : List VarintAccess}
    {r : Except Fault VarintEnd}
    (h : Halts (varintStep data stop) s out r) :
    VarintAccess.read s.pos ∈ out := by
  have hfirst : VarintAccess.read s.pos ∈ (varintStep data stop s).out := by
    rcases varintStep_out data stop s with ho | ho <;>
    · rw [ho]
      exact List.mem_cons_self
  cases h with
  | stop hm =>
      rw [hm] at hfirst
      exact hfirst
  | step hm _ =>
      rw [hm] at hfirst
      exact List.mem_append_left _ hfirst

/-- Continuation bytes are gone past, up to ten of them. -/
theorem open_runs :
    ∀ (bs : Bytes) (bitpos pos : Nat) (acc : UInt64), Open bs →
      At data pos bs → pos + bs.length < stop →
      bitpos + 7 * bs.length ≤ 70 →
      ∃ out acc', Exec (varintStep data stop) ⟨bitpos, pos, acc⟩ out
        ⟨bitpos + 7 * bs.length, pos + bs.length, acc'⟩ := by
  intro bs
  induction bs with
  | nil =>
      intro bitpos pos acc _ _ _ _
      exact ⟨[], acc, .refl _⟩
  | cons b bs ih =>
      intro bitpos pos acc hopen hat hroom hbit
      rw [List.length_cons] at hroom hbit
      obtain ⟨hb, htail⟩ := at_cons.mp hat
      have hhigh : 128 ≤ b.toNat := hopen b List.mem_cons_self
      have hnext := varintStep_next ⟨bitpos, pos, acc⟩ hb hhigh
        (by omega : bitpos < 64) (by omega : pos + 2 ≤ stop)
      obtain ⟨out, acc', hrun⟩ := ih (bitpos + 7) (pos + 1)
        (VarintLoop.word ⟨bitpos, pos, acc⟩ b)
        (fun c hc => hopen c (List.mem_cons_of_mem b hc)) htail
        (by omega) (by omega)
      have hbits : bitpos + 7 * (b :: bs).length
          = bitpos + 7 + 7 * bs.length := by
        rw [List.length_cons]
        omega
      have hpos : pos + (b :: bs).length = pos + 1 + bs.length := by
        rw [List.length_cons]
        omega
      rw [hbits, hpos]
      exact ⟨_, acc', .step hnext hrun⟩

-- =============================================================== the property

/-- The bytes from `pos` up to `end`. -/
def Buf.rest (data : Bytes) (buf : Buf) : Bytes :=
  (data.drop buf.pos).take (buf.stop - buf.pos)

/-- Ten continuation bytes and a byte behind them. -/
def TooLong (bs : Bytes) : Prop := 10 < bs.length ∧ Open (bs.take 10)

/-- A call decodes exactly: what it does (`out`) and what it leaves
(`r`). -/
structure DecodesExactly (data : Bytes) (buf : Buf)
    (out : List VarintAccess) (r : Except Fault VarintEnd) : Prop where
  /-- A varint in front of the buffer is read to its end. -/
  reads : ∀ v, IsVarint v → v <+: buf.rest data →
    r = .ok ⟨.ok, varintWord v, buf.pos + v.length⟩
  /-- Where none stands, the call returns an error. -/
  refuses : (∀ v, IsVarint v → ¬ v <+: buf.rest data) →
    ∃ e, r = .ok e ∧ e.err ≠ .ok
  /-- No byte at or behind the end is read. -/
  inside : ∀ p, VarintAccess.read p ∈ out → p < buf.stop
  /-- The position stays in the buffer. -/
  stays : ∀ e, r = .ok e → e.pos ≤ buf.stop
  /-- No word is shifted by its width. -/
  shifts : ∀ k, VarintAccess.shift k ∈ out → k < 64

theorem rest_length (hin : buf.stop ≤ data.length) :
    (buf.rest data).length = buf.stop - buf.pos := by
  unfold Buf.rest
  rw [List.length_take, List.length_drop]
  omega

theorem at_rest : At data buf.pos (buf.rest data) :=
  List.take_prefix _ _

/-- Ten continuation bytes and an eleventh: the eleventh is shifted by
70. -/
theorem tooLong_shifts (hin : buf.stop ≤ data.length)
    (hlong : TooLong (buf.rest data)) {out : List VarintAccess}
    {r : Except Fault VarintEnd}
    (h : Halts (varintStep data buf.stop) (varintEntry buf) out r) :
    VarintAccess.shift 70 ∈ out := by
  obtain ⟨hlen, hopen⟩ := hlong
  rw [rest_length hin] at hlen
  have hten : ((buf.rest data).take 10).length = 10 := by
    rw [List.length_take, rest_length hin]
    omega
  have hat : At data buf.pos ((buf.rest data).take 10) :=
    (List.take_prefix 10 _).trans at_rest
  obtain ⟨out', acc, hrun⟩ := open_runs _ 0 buf.pos 0 hopen hat
    (by omega : _ < buf.stop) (by omega)
  rw [hten] at hrun
  obtain ⟨b, hb⟩ : ∃ b, data[buf.pos + 10]? = some b :=
    ⟨_, List.getElem?_eq_getElem (by omega)⟩
  have hlast := varintStep_last buf.stop ⟨0 + 7 * 10, buf.pos + 10, acc⟩ hb
    (.inr (by decide : 64 ≤ 0 + 7 * 10))
  obtain ⟨rfl, -⟩ := h.unique (hrun.halts (.stop hlast))
  apply List.mem_append_right
  simp [VarintLoop.accesses]

-- ============================================================== the invariant

/-- The bytes gone past are continuation bytes, fewer than ten, and
another byte is left. -/
structure Counts (data : Bytes) (buf : Buf) (s : VarintLoop) (i : Nat) :
    Prop where
  pos : s.pos = buf.pos + i
  bitpos : s.bitpos = 7 * i
  few : i < 10
  left : s.pos < buf.stop
  open_ : Open ((buf.rest data).take i)

theorem rest_get {i : Nat} (h : buf.pos + i < buf.stop) :
    (buf.rest data)[i]? = data[buf.pos + i]? := by
  unfold Buf.rest
  rw [List.getElem?_take_of_lt (by omega), List.getElem?_drop]

theorem counts_entry (hpos : buf.pos < buf.stop) :
    Counts data buf (varintEntry buf) 0 where
  pos := rfl
  bitpos := rfl
  few := by omega
  left := hpos
  open_ := fun _ hb => absurd hb List.not_mem_nil

/-- A pass that goes on counts one more byte: the tenth would make the
buffer begin with a varint that is too long. -/
theorem counts_kept (hin : buf.stop ≤ data.length)
    (hnot : ¬ TooLong (buf.rest data)) {s s' : VarintLoop}
    {o : List VarintAccess} {i : Nat} (hs : Counts data buf s i)
    (hmove : varintStep data buf.stop s = .next s' o) :
    Counts data buf s' (i + 1) := by
  obtain ⟨b, hb, hhigh, -, hroom, rfl⟩ := varintStep_cases hmove
  have hget : (buf.rest data)[i]? = some b := by
    rw [rest_get (hs.pos ▸ hs.left), ← hs.pos]
    exact hb
  have hopen : Open ((buf.rest data).take (i + 1)) := by
    rw [List.take_add_one, hget]
    intro c hc
    rcases List.mem_append.mp hc with hc | hc
    · exact hs.open_ c hc
    · rw [List.mem_singleton.mp hc]
      exact hhigh
  have hlt : i + 1 < 10 := by
    have hfew := hs.few
    have hpos := hs.pos
    by_contra hten
    have hi : i + 1 = 10 := by omega
    rw [hi] at hopen
    apply hnot
    refine ⟨?_, hopen⟩
    rw [rest_length hin]
    omega
  exact {
    pos := by
      show s.pos + 1 = _
      rw [hs.pos, Nat.add_assoc]
    bitpos := by
      show s.bitpos + 7 = _
      rw [hs.bitpos]
      omega
    few := hlt
    left := by
      show s.pos + 1 < buf.stop
      omega
    open_ := hopen }

/-- What a pass may do. -/
def Harmless (stop : Nat) : VarintAccess → Prop
  | .read p => p < stop
  | .shift k => k < 64

theorem counts_harmless {s : VarintLoop} {i : Nat}
    (hs : Counts data buf s i) :
    ∀ e ∈ (varintStep data buf.stop s).out, Harmless buf.stop e := by
  have hread : Harmless buf.stop (.read s.pos) := hs.left
  have hshift : Harmless buf.stop (.shift s.bitpos) := by
    have hbit := hs.bitpos
    have hfew := hs.few
    show s.bitpos < 64
    omega
  intro e he
  rcases varintStep_out data buf.stop s with ho | ho
  · rw [ho] at he
    rcases List.mem_cons.mp he with rfl | he
    · exact hread
    · rw [List.mem_singleton.mp he]
      exact hshift
  · rw [ho] at he
    rw [List.mem_singleton.mp he]
    exact hread

/-- Where the invariant holds, a call that is over returned a varint or
stopped in front of the end. -/
theorem counts_end (hin : buf.stop ≤ data.length) {s : VarintLoop} {i : Nat}
    {r : Except Fault VarintEnd} {o : List VarintAccess}
    (hs : Counts data buf s i)
    (hmove : varintStep data buf.stop s = .halt r o) :
    ∃ e, r = .ok e ∧ e.pos ≤ buf.stop ∧
      (e.err = .ok → ∃ v, IsVarint v ∧ v <+: buf.rest data) := by
  have hleft := hs.left
  obtain ⟨b, hb⟩ : ∃ b, data[s.pos]? = some b :=
    ⟨_, List.getElem?_eq_getElem (by omega)⟩
  by_cases hlow : b.toNat < 128
  · rw [varintStep_last buf.stop s hb (.inl hlow)] at hmove
    cases hmove
    refine ⟨_, rfl, hleft, fun _ => ?_⟩
    refine ⟨(buf.rest data).take (i + 1), ⟨?_, ?_⟩, List.take_prefix _ _⟩
    · have hget : (buf.rest data)[i]? = some b := by
        rw [rest_get (hs.pos ▸ hs.left), ← hs.pos]
        exact hb
      rw [List.take_add_one, hget]
      exact open_append_terminated hs.open_
        ((terminated_cons_lt hlow).mpr rfl)
    · have hfew := hs.few
      rw [List.length_take]
      omega
  · have hbit : s.bitpos < 64 := by
      have hbit := hs.bitpos
      have hfew := hs.few
      omega
    by_cases hcut : buf.stop < s.pos + 2
    · rw [varintStep_cut s hb (by omega) hbit hcut] at hmove
      cases hmove
      exact ⟨_, rfl, Nat.le_of_lt hleft, fun herr => by cases herr⟩
    · rw [varintStep_next s hb (by omega) hbit (by omega)] at hmove
      cases hmove

-- ================================================================== the whole

/-- Away from the two failures a call decodes exactly. -/
theorem decodes_exactly (hpos : buf.pos < buf.stop)
    (hin : buf.stop ≤ data.length) (hnot : ¬ TooLong (buf.rest data))
    {out : List VarintAccess} {r : Except Fault VarintEnd}
    (hrun : Halts (varintStep data buf.stop) (varintEntry buf) out r)
    (hcomes : decodeVarint data buf
      = (varintOutcome r >>= fun (varint, pos) =>
          .ok (varint, { buf with pos := pos }))) :
    DecodesExactly data buf out r := by
  have hkept : ∀ s s' o, (∃ i, Counts data buf s i) →
      varintStep data buf.stop s = .next s' o →
      ∃ i, Counts data buf s' i :=
    fun s s' o ⟨i, hs⟩ hmove => ⟨i + 1, counts_kept hin hnot hs hmove⟩
  have hentry : ∃ i, Counts data buf (varintEntry buf) i :=
    ⟨0, counts_entry hpos⟩
  have hout := hrun.emits hkept
    (fun s ⟨i, hs⟩ => counts_harmless hs) hentry
  obtain ⟨s, o₁, o₂, hexec, hlast, -⟩ := hrun.last
  obtain ⟨i, hs⟩ := hexec.invariant hkept hentry
  obtain ⟨e, rfl, hstop, hok⟩ := counts_end hin hs hlast
  exact {
    reads := by
      intro v hv hat
      have hroom : buf.pos + v.length ≤ buf.stop := by
        have hle := hat.length_le
        rw [rest_length hin] at hle
        omega
      rw [decodeVarint_of_at hv (hat.trans at_rest) hroom] at hcomes
      obtain ⟨err, varint, pos⟩ := e
      cases err with
      | ok =>
          simp only [varintOutcome, Outcome.ok_bind, Outcome.ok.injEq,
            Prod.mk.injEq, Buf.mk.injEq] at hcomes
          rw [hcomes.1, hcomes.2.2.1]
      | _ => cases hcomes
    refuses := fun hnone => ⟨e, rfl, fun herr => by
      obtain ⟨v, hv, hat⟩ := hok herr
      exact hnone v hv hat⟩
    inside := fun p hp => hout _ hp
    stays := by
      intro e' he
      cases he
      exact hstop
    shifts := fun k hk => hout _ hk }

/-- `lwpb_decode_varint` decodes exactly unless its buffer is empty or
begins with ten continuation bytes and an eleventh byte. -/
theorem decodeVarint_exact_iff (data : Bytes) (buf : Buf)
    (hin : buf.stop ≤ data.length) :
    (∃ out r,
      Halts (varintStep data buf.stop) (varintEntry buf) out r ∧
        DecodesExactly data buf out r) ↔
      buf.pos < buf.stop ∧ ¬ TooLong (buf.rest data) := by
  constructor
  · rintro ⟨out, r, hrun, hexact⟩
    constructor
    · exact hexact.inside _ (run_reads hrun)
    · intro hlong
      have hshift := hexact.shifts 70 (tooLong_shifts hin hlong hrun)
      omega
  · rintro ⟨hpos, hnot⟩
    obtain ⟨out, r, hrun, hcomes⟩ := decodeVarint_halts data buf
    exact ⟨out, r, hrun, decodes_exactly hpos hin hnot hrun hcomes⟩

/-- The number 300 in the middle of a buffer. -/
theorem decodeVarint_exact_middle :
    ∃ out r,
      Halts (varintStep [7, 0xac, 0x02, 9] 4) (varintEntry ⟨0, 1, 4⟩) out r ∧
        DecodesExactly [7, 0xac, 0x02, 9] ⟨0, 1, 4⟩ out r :=
  (decodeVarint_exact_iff _ ⟨0, 1, 4⟩ (by decide)).mpr
    ⟨by decide, fun hlong => absurd hlong.1 (by decide)⟩

/-- An empty buffer in front of a byte: that byte is read. -/
theorem decodeVarint_empty_inexact :
    ¬ ∃ out r, Halts (varintStep [5] 0) (varintEntry ⟨0, 0, 0⟩) out r ∧
      DecodesExactly [5] ⟨0, 0, 0⟩ out r := by
  rintro ⟨out, r, hrun, hexact⟩
  have hread := hexact.inside _ (run_reads hrun)
  exact absurd hread (by decide)

end Lwpb
