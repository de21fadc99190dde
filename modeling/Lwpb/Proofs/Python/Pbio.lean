/-
The records that `pbio` processes.

The loop of `pbio` drops the records whose number is less than `skip`.
`StreamReader` numbers from 0, and `PercentCodecReader` from 1, so with a
`skip` the loop over lines processes one record more, in front of the
others.

The loop over what a reader delivers is the dropped records and, behind
them, `fatesOf`, in which numbers play no part (`run_fates`). `Tail` says
what the fates behind the dropped ones look like; whether the whole is what
`skip` and `count` ask for (`Selects`) is then a question of how many are
dropped (`selects_iff`). That the two loops do the same with the
records that both process rests on the codes and the dicts not telling the
formats apart (`Alike`), and is a simulation (`fatesOf_alike`).
-/
import Lwpb.Lib.Sequence
import Lwpb.Python.Pbio
import Lwpb.Proofs.Python.Index
import Lwpb.Proofs.Python.Percent

namespace Lwpb.Python

open Machine Loop

variable {ρ R V W : Type} {p : Pbio R V W} {view : ρ → ReaderView}
  {count : Int}

-- ================================================================= properties

/-- The fates of the records that are processed, with their places. -/
def processed (fates : List Fate) : List (Fate × Nat) :=
  fates.zipIdx.filter fun x => x.1 ≠ .dropped ∧ x.1 ≠ .beyond

/-- Of `n` records the first `skip` are dropped, and at most `count` of the
others are written, one after the other. -/
structure Selects (skip : Nat) (count : Int) (n : Nat)
    (fates : List Fate) : Prop where
  places : (processed fates).map Prod.snd
    = List.range' (min skip n) (processed fates).length
  limit : 0 ≤ count → (fates.count .written : Int) ≤ count
  ends : min skip n + (processed fates).length = n ∨
    (0 ≤ count ∧ (fates.count .written : Int) = count) ∨ .failed ∈ fates

/-- Two loops over `n` records process the same of them: those that `skip`
and `count` ask for. -/
def ProcessesAlike {ρ₁ ρ₂ R₁ R₂ V₁ V₂ W₁ W₂ : Type}
    (turn₁ : ρ₁ → Turn ρ₁ R₁ LoopFail) (view₁ : ρ₁ → ReaderView)
    (p₁ : Pbio R₁ V₁ W₁) (s₁ : ρ₁ × PbioVars V₁ W₁)
    (turn₂ : ρ₂ → Turn ρ₂ R₂ LoopFail) (view₂ : ρ₂ → ReaderView)
    (p₂ : Pbio R₂ V₂ W₂) (s₂ : ρ₂ × PbioVars V₂ W₂)
    (skip : Nat) (count : Int) (n : Nat) : Prop :=
  ∃ fates₁ end₁ fates₂ end₂,
    Halts (pbioStep p₁ view₁ skip count turn₁) s₁ fates₁ end₁ ∧
    Halts (pbioStep p₂ view₂ skip count turn₂) s₂ fates₂ end₂ ∧
    Selects skip count n fates₁ ∧ Selects skip count n fates₂ ∧
    processed fates₁ = processed fates₂

/-- After every read two readers have the same number. -/
def NumbersAlike {ρ₁ ρ₂ R₁ R₂ : Type}
    (turn₁ : ρ₁ → Turn ρ₁ R₁ LoopFail) (view₁ : ρ₁ → ReaderView) (g₁ : ρ₁)
    (turn₂ : ρ₂ → Turn ρ₂ R₂ LoopFail) (view₂ : ρ₂ → ReaderView)
    (g₂ : ρ₂) : Prop :=
  ∃ numbers end₁ end₂,
    Halts (numberStep view₁ turn₁) (g₁, ()) numbers end₁ ∧
    Halts (numberStep view₂ turn₂) (g₂, ()) numbers end₂

-- =================================================================== the loop

/-- The records are numbered one after the other. -/
def Numbered (view : ρ → ReaderView) : Nat → List (ρ × R) → Prop
  | _, [] => True
  | number, (rd, _) :: items =>
      (view rd).currentNumber = number ∧ Numbered view (number + 1) items

/-- The loop behind the records that are dropped. -/
def fatesOf (p : Pbio R V W) (view : ρ → ReaderView) (count : Int) :
    List (ρ × R) → PbioVars V W → List Fate
  | [], _ => []
  | (rd, record) :: items, v =>
      if 0 ≤ count ∧ count ≤ v.written then [.beyond]
      else
        match p.handle (view rd) record v with
        | .ok (fate, v) => fate :: fatesOf p view count items v
        | .error _ => [.failed]

/-- A record that is behind the dropped ones. -/
theorem run_behind {skip number : Nat} {items : List (ρ × R)}
    {v : PbioVars V W} (hnumbers : Numbered view number items)
    (hskip : skip ≤ number) :
    (Loop.run (pbioBody p view skip count) items v).1
      = fatesOf p view count items v := by
  induction items generalizing number v with
  | nil => rfl
  | cons item items ih =>
      obtain ⟨rd, record⟩ := item
      obtain ⟨hnumber, hnumbers⟩ := hnumbers
      have hbehind : ¬ (view rd).currentNumber < skip := by
        rw [hnumber]
        omega
      unfold fatesOf
      by_cases hcount : 0 ≤ count ∧ count ≤ v.written
      · have hbody : pbioBody p view skip count rd record v
            = (.leave v, [.beyond]) := by
          unfold pbioBody
          rw [if_neg hbehind, if_pos hcount]
        rw [Loop.run_leave hbody, if_pos hcount]
      · rw [if_neg hcount]
        cases hhandle : p.handle (view rd) record v with
        | ok r =>
            obtain ⟨fate, v'⟩ := r
            have hbody : pbioBody p view skip count rd record v
                = (.next v', [fate]) := by
              unfold pbioBody
              rw [if_neg hbehind, if_neg hcount, hhandle]
            rw [Loop.run_next hbody, ih hnumbers (by omega)]
            rfl
        | error error =>
            have hbody : pbioBody p view skip count rd record v
                = (.exit (.raised error), [.failed]) := by
              unfold pbioBody
              rw [if_neg hbehind, if_neg hcount, hhandle]
            rw [Loop.run_exit hbody]

/-- The whole loop: as many records are dropped as have a number less than
`skip`. -/
theorem run_fates {skip number : Nat} {items : List (ρ × R)}
    {v : PbioVars V W} (hnumbers : Numbered view number items) :
    (Loop.run (pbioBody p view skip count) items v).1
      = List.replicate (min (skip - number) items.length) .dropped
        ++ fatesOf p view count (items.drop (skip - number)) v := by
  induction items generalizing number v with
  | nil =>
      rw [List.drop_nil, List.length_nil, Nat.min_zero]
      rfl
  | cons item items ih =>
      by_cases hskip : number < skip
      · obtain ⟨rd, record⟩ := item
        obtain ⟨hnumber, hnumbers⟩ := hnumbers
        have hbody : pbioBody p view skip count rd record v
            = (.next v, [.dropped]) := by
          unfold pbioBody
          rw [if_pos (by rw [hnumber]; omega)]
        have hsub : skip - number = skip - (number + 1) + 1 := by omega
        rw [Loop.run_next hbody, ih hnumbers, hsub, List.drop_succ_cons,
          List.length_cons, Nat.add_min_add_right, List.replicate_succ]
        rfl
      · have hzero : skip - number = 0 := by omega
        rw [run_behind hnumbers (by omega), hzero, Nat.zero_min,
          List.drop_zero]
        rfl

-- ================================================================== the fates

theorem boundary_written {record : R} {v v' : PbioVars V W}
    (h : p.boundary record v = .ok v') : v'.written = v.written := by
  unfold Pbio.boundary at h
  split at h
  · cases h
    rfl
  · obtain ⟨world, -, h⟩ := Sequence.ok_of_bind h
    cases h
    rfl

/-- What is done with a record is that it is skipped, or written and
counted. -/
theorem handle_ok {rv : ReaderView} {record : R} {v v' : PbioVars V W}
    {fate : Fate} (h : p.handle rv record v = .ok (fate, v')) :
    (fate = .skipped ∧ v'.written = v.written) ∨
      (fate = .written ∧ v'.written = v.written + 1) := by
  unfold Pbio.handle at h
  obtain ⟨v₁, hboundary, h⟩ := Sequence.ok_of_bind h
  obtain ⟨⟨world, record'⟩, -, h⟩ := Sequence.ok_of_bind h
  have hwritten := boundary_written hboundary
  dsimp only at h
  split at h
  · cases h
    exact .inl ⟨rfl, hwritten⟩
  · obtain ⟨world', -, h⟩ := Sequence.ok_of_bind h
    cases h
    exact .inr ⟨rfl, congrArg (· + 1) hwritten⟩

/-- The fates `hs` are those of the records that are processed, of `m`, when
`written` have been written before. -/
structure Tail (count : Int) (written m : Nat) (fates hs : List Fate) :
    Prop where
  split : ∃ bs, fates = hs ++ bs ∧ (bs = [] ∨ bs = [.beyond])
  handled : ∀ f ∈ hs, f ≠ .dropped ∧ f ≠ .beyond
  fits : hs.length ≤ m
  limit : 0 ≤ count → written ≤ count →
    ((written + hs.count .written : Nat) : Int) ≤ count
  ends : hs.length = m ∨
    (0 ≤ count ∧ count ≤ (written + hs.count .written : Nat)) ∨ .failed ∈ hs
  full : 0 ≤ count ∧ count ≤ written → hs = []

/-- One more record in front, skipped or written. -/
theorem Tail.cons {written written' m : Nat} {fates hs : List Fate}
    {fate : Fate} (h : Tail count written' m fates hs)
    (hfate : (fate = .skipped ∧ written' = written) ∨
      (fate = .written ∧ written' = written + 1))
    (hmore : ¬ (0 ≤ count ∧ count ≤ written)) :
    Tail count written (m + 1) (fate :: fates) (fate :: hs) := by
  obtain ⟨bs, rfl, hbs⟩ := h.split
  have hcount : written + (fate :: hs).count .written
      = written' + hs.count .written := by
    rcases hfate with ⟨rfl, rfl⟩ | ⟨rfl, rfl⟩
    · rw [List.count_cons_of_ne (by decide)]
    · rw [List.count_cons_self]
      omega
  have hlimit := h.limit
  have hends := h.ends
  have hfits := h.fits
  exact {
    split := ⟨bs, rfl, hbs⟩
    handled := by
      refine List.forall_mem_cons.mpr ⟨?_, h.handled⟩
      rcases hfate with ⟨rfl, -⟩ | ⟨rfl, -⟩
      · decide
      · decide
    fits := by
      rw [List.length_cons]
      omega
    limit := fun hpos hle => by
      rw [hcount]
      exact hlimit hpos (by omega)
    ends := by
      rw [hcount, List.length_cons]
      rcases hends with hall | henough | hfailed
      · exact .inl (by omega)
      · exact .inr (.inl henough)
      · exact .inr (.inr (List.mem_cons_of_mem fate hfailed))
    full := fun hfull => absurd hfull hmore }

/-- What the fates behind the dropped records look like. -/
theorem fatesOf_tail (p : Pbio R V W) (view : ρ → ReaderView) (count : Int)
    (items : List (ρ × R)) (v : PbioVars V W) :
    ∃ hs, Tail count v.written items.length
      (fatesOf p view count items v) hs := by
  induction items generalizing v with
  | nil => exact ⟨[], {
      split := ⟨[], rfl, .inl rfl⟩
      handled := fun f hf => absurd hf List.not_mem_nil
      fits := Nat.le_refl 0
      limit := fun _ hle => hle
      ends := .inl rfl
      full := fun _ => rfl }⟩
  | cons item items ih =>
      obtain ⟨rd, record⟩ := item
      unfold fatesOf
      by_cases hcount : 0 ≤ count ∧ count ≤ v.written
      · rw [if_pos hcount]
        exact ⟨[], {
          split := ⟨[.beyond], rfl, .inr rfl⟩
          handled := fun f hf => absurd hf List.not_mem_nil
          fits := Nat.zero_le _
          limit := fun _ hle => hle
          ends := .inr (.inl hcount)
          full := fun _ => rfl }⟩
      · rw [if_neg hcount]
        cases hhandle : p.handle (view rd) record v with
        | ok r =>
            obtain ⟨fate, v'⟩ := r
            obtain ⟨hs, htail⟩ := ih v'
            exact ⟨fate :: hs, htail.cons (handle_ok hhandle) hcount⟩
        | error error => exact ⟨[.failed], {
            split := ⟨[], rfl, .inl rfl⟩
            handled := fun f hf => by
              rw [List.mem_singleton.mp hf]
              decide
            fits := Nat.succ_le_succ (Nat.zero_le _)
            limit := fun _ hle => hle
            ends := .inr (.inr List.mem_cons_self)
            full := fun hfull => absurd hfull hcount }⟩

-- ============================================================== the selection

/-- The fates of `n` records, of which `d` are dropped. -/
structure FateShape (d n : Nat) (count : Int) (fates hs : List Fate) :
    Prop where
  fits : d ≤ n
  split : ∃ tail, fates = List.replicate d .dropped ++ tail ∧
    Tail count 0 (n - d) tail hs

variable {d n : Nat} {fates hs : List Fate}

theorem FateShape.processed_eq (h : FateShape d n count fates hs) :
    processed fates = hs.zipIdx d := by
  obtain ⟨tail, rfl, htail⟩ := h.split
  obtain ⟨bs, rfl, hbs⟩ := htail.split
  have hdropped : ((List.replicate d Fate.dropped).zipIdx 0).filter
      (fun x => x.1 ≠ .dropped ∧ x.1 ≠ .beyond) = [] := by
    rw [List.filter_eq_nil_iff]
    intro x hx
    rw [List.eq_of_mem_replicate (List.fst_mem_of_mem_zipIdx hx)]
    decide
  have hhandled : (hs.zipIdx d).filter
      (fun x => x.1 ≠ .dropped ∧ x.1 ≠ .beyond) = hs.zipIdx d := by
    rw [List.filter_eq_self]
    intro x hx
    exact decide_eq_true
      (htail.handled _ (List.fst_mem_of_mem_zipIdx hx))
  have hbehind : ∀ k, (bs.zipIdx k).filter
      (fun x => x.1 ≠ .dropped ∧ x.1 ≠ .beyond) = [] := by
    intro k
    rcases hbs with rfl | rfl
    · rfl
    · rfl
  unfold processed
  rw [List.zipIdx_append, List.zipIdx_append, List.filter_append,
    List.filter_append, List.length_replicate, Nat.zero_add, hdropped,
    hhandled, hbehind, List.nil_append, List.append_nil]

theorem FateShape.count_eq (h : FateShape d n count fates hs) :
    fates.count .written = hs.count .written := by
  obtain ⟨tail, rfl, htail⟩ := h.split
  obtain ⟨bs, rfl, hbs⟩ := htail.split
  have hbehind : bs.count .written = 0 := by
    rcases hbs with rfl | rfl
    · rfl
    · rfl
  have hdropped : (List.replicate d Fate.dropped).count .written = 0 :=
    List.count_eq_zero.mpr fun hmem =>
      absurd (List.eq_of_mem_replicate hmem) (by decide)
  rw [List.count_append, List.count_append, hbehind, hdropped]
  omega

/-- As many are dropped as should be. -/
theorem FateShape.selects {skip : Nat} (h : FateShape d n count fates hs)
    (hd : d = min skip n) : Selects skip count n fates := by
  have hprocessed := h.processed_eq
  have hcount := h.count_eq
  have hfits := h.fits
  obtain ⟨tail, hsplit, htail⟩ := h.split
  have hlimit := htail.limit
  rw [Nat.zero_add] at hlimit
  exact {
    places := by
      rw [hprocessed, List.zipIdx_map_snd, List.length_zipIdx, ← hd]
    limit := fun hpos => by
      rw [hcount]
      exact hlimit hpos hpos
    ends := by
      rw [hprocessed, hcount, List.length_zipIdx, ← hd]
      rcases htail.ends with hall | ⟨hpos, henough⟩ | hfailed
      · exact .inl (by omega)
      · rw [Nat.zero_add] at henough
        exact .inr (.inl ⟨hpos, le_antisymm (hlimit hpos hpos) henough⟩)
      · right
        right
        obtain ⟨bs, rfl, -⟩ := htail.split
        rw [hsplit]
        exact List.mem_append_right _ (List.mem_append_left bs hfailed) }

/-- No record is processed: with `count` 0, or when all are dropped. -/
theorem FateShape.none_processed (h : FateShape d n count fates hs)
    (hnone : d = n ∨ count = 0) : processed fates = [] := by
  obtain ⟨tail, -, htail⟩ := h.split
  have hnil : hs = [] := by
    rcases hnone with rfl | rfl
    · have hfits := htail.fits
      rw [Nat.sub_self] at hfits
      exact List.length_eq_zero_iff.mp (Nat.le_zero.mp hfits)
    · exact htail.full ⟨Int.le_refl 0, Int.le_refl 0⟩
  rw [h.processed_eq, hnil, List.zipIdx_nil]

/-- One is dropped less than `skip` asks for: it shows if there is a record
at that place and any record is to be processed. -/
theorem selects_iff {skip : Nat}
    (h : FateShape (min (skip - 1) n) n count fates hs) :
    Selects skip count n fates ↔ (skip = 0 ∨ n < skip ∨ count = 0) := by
  constructor
  · intro hselects
    by_contra hcond
    have hd : min (skip - 1) n + 1 = min skip n := by omega
    obtain ⟨tail, -, htail⟩ := h.split
    have hplaces := hselects.places
    rw [h.processed_eq, List.zipIdx_map_snd, List.length_zipIdx] at hplaces
    -- the first record that is processed is at the wrong place
    cases hs with
    | nil =>
        rcases htail.ends with hall | ⟨hpos, henough⟩ | hfailed
        · rw [List.length_nil] at hall
          omega
        · have hzero : count ≤ 0 := henough
          omega
        · exact absurd hfailed List.not_mem_nil
    | cons f hs =>
        rw [List.length_cons, List.range'_succ, List.range'_succ] at hplaces
        have hfirst := (List.cons.inj hplaces).1
        omega
  · intro hcond
    by_cases hd : min (skip - 1) n = min skip n
    · exact h.selects hd
    · have hzero : count = 0 := by omega
      have hnone := h.none_processed (.inr hzero)
      have hcount := h.count_eq
      obtain ⟨tail, -, htail⟩ := h.split
      have hlimit := htail.limit (by omega) (by omega)
      rw [Nat.zero_add] at hlimit
      exact {
        places := by
          rw [hnone]
          rfl
        limit := fun _ => by
          rw [hcount]
          exact hlimit
        ends := .inr (.inl (by
          rw [hcount]
          omega)) }

/-- The fates of a whole loop have their shape. -/
theorem run_shaped (p : Pbio R V W) (view : ρ → ReaderView) (count : Int)
    {skip number : Nat} {items : List (ρ × R)} {v : PbioVars V W}
    (hnumbers : Numbered view number items) (hstart : v.written = 0) :
    ∃ hs, FateShape (min (skip - number) items.length) items.length count
      (Loop.run (pbioBody p view skip count) items v).1 hs := by
  obtain ⟨hs, htail⟩ := fatesOf_tail p view count
    (items.drop (skip - number)) v
  rw [hstart, List.length_drop] at htail
  have hrest : items.length - (skip - number)
      = items.length - min (skip - number) items.length := by omega
  rw [hrest] at htail
  exact ⟨hs, Nat.min_le_right _ _, _, run_fates hnumbers, htail⟩

/-- The numbers of a loop over numbered items. -/
theorem numbers_run {items : List (ρ × R)} {number : Nat}
    (h : Numbered view number items) :
    (Loop.run (numberBody view) items ()).1
      = (List.range' number items.length).map Int.ofNat := by
  induction items generalizing number with
  | nil => rfl
  | cons item items ih =>
      obtain ⟨rd, record⟩ := item
      obtain ⟨hnumber, hnumbers⟩ := h
      have hbody : numberBody view rd record ()
          = (.next (), [(view rd).currentNumber]) := rfl
      rw [Loop.run_next hbody, ih hnumbers, hnumber, List.length_cons,
        List.range'_succ, List.map_cons]
      rfl

-- ============================================================= the simulation

section Simulating

variable {ρ₁ ρ₂ R₁ R₂ V₁ V₂ W₁ W₂ : Type}

/-- Two results of handling a record: both raise, or both leave the record
to the same fate, in variables that belong together. -/
inductive SameFate (Sim : PbioVars V₁ W₁ → PbioVars V₂ W₂ → Prop) :
    Except PyErr (Fate × PbioVars V₁ W₁) →
    Except PyErr (Fate × PbioVars V₂ W₂) → Prop where
  | ok {v₁ : PbioVars V₁ W₁} {v₂ : PbioVars V₂ W₂} (fate : Fate) :
      Sim v₁ v₂ → SameFate Sim (.ok (fate, v₁)) (.ok (fate, v₂))
  | error (e₁ e₂ : PyErr) : SameFate Sim (.error e₁) (.error e₂)

variable {Sim : PbioVars V₁ W₁ → PbioVars V₂ W₂ → Prop}
  {p₁ : Pbio R₁ V₁ W₁} {p₂ : Pbio R₂ V₂ W₂} {view₁ : ρ₁ → ReaderView}
  {view₂ : ρ₂ → ReaderView}

/-- Two loops over records that are handled alike come to the same fates. -/
theorem fatesOf_alike {items₁ : List (ρ₁ × R₁)} {items₂ : List (ρ₂ × R₂)}
    (halike : List.Forall₂ (fun x y => ∀ v₁ v₂, Sim v₁ v₂ →
      SameFate Sim (p₁.handle (view₁ x.1) x.2 v₁)
        (p₂.handle (view₂ y.1) y.2 v₂)) items₁ items₂)
    {v₁ : PbioVars V₁ W₁} {v₂ : PbioVars V₂ W₂} (hsim : Sim v₁ v₂)
    (hwritten : v₁.written = v₂.written) :
    fatesOf p₁ view₁ count items₁ v₁ = fatesOf p₂ view₂ count items₂ v₂ := by
  induction halike generalizing v₁ v₂ with
  | nil => rfl
  | @cons x y items₁ items₂ hxy _ ih =>
      obtain ⟨rd₁, record₁⟩ := x
      obtain ⟨rd₂, record₂⟩ := y
      unfold fatesOf
      rw [hwritten]
      by_cases hcount : 0 ≤ count ∧ count ≤ v₂.written
      · rw [if_pos hcount, if_pos hcount]
      rw [if_neg hcount, if_neg hcount]
      have hsame := hxy v₁ v₂ hsim
      generalize h₁ : p₁.handle (view₁ rd₁) record₁ v₁ = r₁ at hsame
      generalize h₂ : p₂.handle (view₂ rd₂) record₂ v₂ = r₂ at hsame
      cases hsame with
      | @ok v₁' v₂' fate hsim' =>
          have hnext : v₁'.written = v₂'.written := by
            rcases handle_ok h₁ with ⟨hf, hw⟩ | ⟨hf, hw⟩ <;>
            rcases handle_ok h₂ with ⟨hf', hw'⟩ | ⟨hf', hw'⟩
            · omega
            · rw [hf] at hf'
              cases hf'
            · rw [hf] at hf'
              cases hf'
            · omega
          exact congrArg (fate :: ·) (ih hsim' hnext)
      | error e₁ e₂ => rfl

variable {turn₁ : ρ₁ → Turn ρ₁ R₁ LoopFail} {turn₂ : ρ₂ → Turn ρ₂ R₂ LoopFail}
  {g₁ : ρ₁} {g₂ : ρ₂} {items₁ : List (ρ₁ × R₁)} {items₂ : List (ρ₂ × R₂)}

/-- The loops over records that are numbered from 0 and from 1. -/
theorem processesAlike_iff {v₁ : PbioVars V₁ W₁} {v₂ : PbioVars V₂ W₂}
    (hdelivers₁ : Delivers turn₁ g₁ items₁)
    (hdelivers₂ : Delivers turn₂ g₂ items₂)
    (hnumbers₁ : Numbered view₁ 0 items₁)
    (hnumbers₂ : Numbered view₂ 1 items₂)
    (hpaired : List.Forall₂ (fun x y => ∀ v₁ v₂, Sim v₁ v₂ →
      SameFate Sim (p₁.handle (view₁ x.1) x.2 v₁)
        (p₂.handle (view₂ y.1) y.2 v₂)) items₁ items₂)
    (hsim : Sim v₁ v₂) (hstart₁ : v₁.written = 0) (hstart₂ : v₂.written = 0)
    (skip : Nat) (count : Int) :
    ProcessesAlike turn₁ view₁ p₁ (g₁, v₁) turn₂ view₂ p₂ (g₂, v₂) skip count
        items₁.length ↔
      skip = 0 ∨ items₁.length < skip ∨ count = 0 := by
  have hlen : items₂.length = items₁.length := hpaired.length_eq.symm
  have hrun₁ := hdelivers₁.halts (pbioBody p₁ view₁ skip count) v₁
  have hrun₂ := hdelivers₂.halts (pbioBody p₂ view₂ skip count) v₂
  obtain ⟨hs₁, hshape₁⟩ := @run_shaped _ _ _ _ p₁ view₁ count skip 0 items₁
    v₁ hnumbers₁ hstart₁
  obtain ⟨hs₂, hshape₂⟩ := @run_shaped _ _ _ _ p₂ view₂ count skip 1 items₂
    v₂ hnumbers₂ hstart₂
  rw [Nat.sub_zero] at hshape₁
  rw [hlen] at hshape₂
  constructor
  · rintro ⟨fates₁, end₁, fates₂, end₂, -, hhalts₂, -, hselects₂, -⟩
    rw [(hhalts₂.unique hrun₂).1] at hselects₂
    exact (selects_iff hshape₂).mp hselects₂
  · intro hcond
    refine ⟨_, _, _, _, hrun₁, hrun₂, hshape₁.selects rfl,
      (selects_iff hshape₂).mpr hcond, ?_⟩
    rcases hcond with rfl | hall | hnone
    · have hsame : fatesOf p₁ view₁ count items₁ v₁
          = fatesOf p₂ view₂ count items₂ v₂ :=
        fatesOf_alike hpaired hsim (hstart₁.trans hstart₂.symm)
      rw [run_behind hnumbers₁ (Nat.le_refl 0),
        run_behind hnumbers₂ (Nat.zero_le 1), hsame]
    · rw [hshape₁.none_processed (.inl (by omega)),
        hshape₂.none_processed (.inl (by omega))]
    · rw [hshape₁.none_processed (.inr hnone),
        hshape₂.none_processed (.inr hnone)]

/-- The numbers from 0 are not those from 1. -/
theorem numbersAlike_iff (hdelivers₁ : Delivers turn₁ g₁ items₁)
    (hdelivers₂ : Delivers turn₂ g₂ items₂)
    (hnumbers₁ : Numbered view₁ 0 items₁)
    (hnumbers₂ : Numbered view₂ 1 items₂)
    (hlen : items₁.length = items₂.length) :
    NumbersAlike turn₁ view₁ g₁ turn₂ view₂ g₂ ↔ items₁ = [] := by
  have hrun₁ := hdelivers₁.halts (numberBody view₁) ()
  have hrun₂ := hdelivers₂.halts (numberBody view₂) ()
  rw [numbers_run hnumbers₁] at hrun₁
  rw [numbers_run hnumbers₂, ← hlen] at hrun₂
  constructor
  · rintro ⟨numbers, end₁, end₂, hhalts₁, hhalts₂⟩
    have hsame := (hrun₁.unique hhalts₁).1.trans
      (hhalts₂.unique hrun₂).1
    cases items₁ with
    | nil => rfl
    | cons item items₁ =>
        rw [List.length_cons, List.range'_succ, List.range'_succ] at hsame
        exact absurd (List.cons.inj hsame).1 (by decide)
  · rintro rfl
    exact ⟨_, _, _, hrun₁, hrun₂⟩

end Simulating

-- ==================================================================== readers

variable {new : PythonNew} {sch : Schema} {msgnum : UInt32}
  {uninit : Nat → UInt64} {order : DictOrder} {codec : PercentCodec}

theorem stream_numbered {raws : List Bytes} {number offset : Nat}
    {tells : Bool} {items : List (StreamReader × Items)}
    (h : List.Forall₂ (HandsOver new sch msgnum uninit tells)
      (placed raws number offset) items) :
    Numbered StreamReader.view number items := by
  induction raws generalizing number offset items with
  | nil =>
      cases h
      trivial
  | cons raw raws ih =>
      obtain _ | ⟨hover, hrest⟩ := h
      exact ⟨hover.number, ih hrest⟩

/-- What the reader of lines hands over for a line. -/
structure HandsLine (order : DictOrder) (codec : PercentCodec) (text : Bytes)
    (item : PercentCodecReader × PyValue) : Prop where
  raw : item.1.currentRaw = some (text ++ [10])
  record : codec.decode order (text ++ [10]) = some item.2

/-- A reader delivers the lines of a file, numbered from one more than its
own number. -/
theorem lines_deliver {texts : List Bytes} {rd : PercentCodecReader}
    (htexts : ∀ text ∈ texts, ∀ c ∈ text, c ≠ 10)
    (hdec : ∀ text ∈ texts, (codec.decode order (text ++ [10])).isSome)
    (hrest : rd.rest = texts.flatMap (· ++ [10])) :
    ∃ items, Delivers (lineTurn order codec) rd items ∧
      List.Forall₂ (HandsLine order codec) texts items ∧
      Numbered PercentCodecReader.view (rd.currentNumber + 1) items := by
  induction texts generalizing rd with
  | nil =>
      have hread : rd.f.readline = [] := congrArg firstLine hrest
      have hstop : lineTurn order codec rd = .stop := by
        unfold lineTurn PercentCodecReader.read
        simp only [hread, if_pos]
      exact ⟨[], .stop hstop, .nil, trivial⟩
  | cons text texts ih =>
      obtain ⟨htext, htexts⟩ := List.forall_mem_cons.mp htexts
      obtain ⟨hhead, htail⟩ := List.forall_mem_cons.mp hdec
      obtain ⟨record, hrecord⟩ := Option.isSome_iff_exists.mp hhead
      rw [List.flatMap_cons, List.append_assoc] at hrest
      obtain ⟨rd', hread, hrest', hnumber, hraw⟩ :=
        read_line order htext hrest hrecord
      have hturn : lineTurn order codec rd = .item rd' record := by
        unfold lineTurn
        rw [hread]
      obtain ⟨items, hitems, hover, hnumbers⟩ := ih htexts htail hrest'
      rw [hnumber] at hnumbers
      refine ⟨(rd', record) :: items, .item hturn hitems,
        .cons ⟨hraw, hrecord⟩ hover, ?_, hnumbers⟩
      show ((rd'.currentNumber : Nat) : Int) = _
      rw [hnumber]

-- ================================================================== the whole

section Formats

variable {V₁ V₂ W₁ W₂ : Type}

/-- The codes, the dicts and the writers of two runs do not tell the formats
apart: what the two readers make of the record at a place, from `number`
on, is handled alike, whatever the attributes are that depend on the
format. -/
def Alike (new : PythonNew) (sch : Schema) (msgnum : UInt32)
    (uninit : Nat → UInt64) (order : DictOrder) (codec : PercentCodec)
    (p₁ : Pbio Items V₁ W₁) (p₂ : Pbio PyValue V₂ W₂)
    (Sim : PbioVars V₁ W₁ → PbioVars V₂ W₂ → Prop) (number : Nat)
    (raws texts : List Bytes) : Prop :=
  ∀ i raw text record₁ record₂, raws[i]? = some raw →
    texts[i]? = some text →
    decoding new sch msgnum (uninit (number + i)) raw = some record₁ →
    codec.decode order (text ++ [10]) = some record₂ →
    ∀ view₁ view₂ : ReaderView, view₁.currentNumber = (number + i : Nat) →
      view₁.currentRaw = some raw →
      view₂.currentNumber = (number + 1 + i : Nat) →
      view₂.currentRaw = some (text ++ [10]) →
      ∀ v₁ v₂, Sim v₁ v₂ → SameFate Sim (p₁.handle view₁ record₁ v₁)
        (p₂.handle view₂ record₂ v₂)

variable {p₁ : Pbio Items V₁ W₁} {p₂ : Pbio PyValue V₂ W₂}
  {Sim : PbioVars V₁ W₁ → PbioVars V₂ W₂ → Prop}

theorem Alike.tail {number : Nat} {raw text : Bytes}
    {raws texts : List Bytes}
    (h : Alike new sch msgnum uninit order codec p₁ p₂ Sim number
      (raw :: raws) (text :: texts)) :
    Alike new sch msgnum uninit order codec p₁ p₂ Sim (number + 1) raws
      texts := by
  intro i raw' text' record₁ record₂ hraw htext hrecord₁ hrecord₂ view₁ view₂
    hnumber₁ hraw₁ hnumber₂ hraw₂
  have hplace : number + 1 + i = number + (i + 1) := by omega
  have hplace' : number + 1 + 1 + i = number + 1 + (i + 1) := by omega
  rw [hplace] at hrecord₁ hnumber₁
  rw [hplace'] at hnumber₂
  exact h (i + 1) raw' text' record₁ record₂ hraw htext hrecord₁ hrecord₂
    view₁ view₂ hnumber₁ hraw₁ hnumber₂ hraw₂

/-- Place by place, what the readers hand over is handled alike. -/
theorem Alike.paired {raws texts : List Bytes} {number offset : Nat}
    {tells : Bool} {items₁ : List (StreamReader × Items)}
    {items₂ : List (PercentCodecReader × PyValue)}
    (h : Alike new sch msgnum uninit order codec p₁ p₂ Sim number raws texts)
    (hlen : raws.length = texts.length)
    (hover₁ : List.Forall₂ (HandsOver new sch msgnum uninit tells)
      (placed raws number offset) items₁)
    (hover₂ : List.Forall₂ (HandsLine order codec) texts items₂)
    (hnumbers : Numbered PercentCodecReader.view (number + 1) items₂) :
    List.Forall₂ (fun x y => ∀ v₁ v₂, Sim v₁ v₂ →
      SameFate Sim (p₁.handle x.1.view x.2 v₁) (p₂.handle y.1.view y.2 v₂))
      items₁ items₂ := by
  induction raws generalizing texts number offset items₁ items₂ with
  | nil =>
      cases hover₁
      cases texts with
      | nil =>
          cases hover₂
          exact .nil
      | cons text texts => cases hlen
  | cons raw raws ih =>
      cases texts with
      | nil => cases hlen
      | cons text texts =>
          obtain _ | ⟨hhead₁, htail₁⟩ := hover₁
          obtain _ | ⟨hhead₂, htail₂⟩ := hover₂
          obtain ⟨hnumber, hnumbers⟩ := hnumbers
          refine .cons (fun v₁ v₂ hsim => ?_) (ih h.tail (Nat.succ.inj hlen)
            htail₁ htail₂ hnumbers)
          exact h 0 raw text _ _ rfl rfl hhead₁.record hhead₂.record _ _
            hhead₁.number hhead₁.raw hnumber hhead₂.raw v₁ v₂ hsim

/-- The two readers: the loop of `pbio` processes the same records exactly
if none is to be dropped, all are, or none is to be written, and the
numbers of the records agree only if there is none. -/
theorem pbio_alike_iff (new : PythonNew) (sch : Schema) (msgnum : UInt32)
    (uninit : Nat → UInt64) (tells tells' : Bool) (order : DictOrder)
    (codec : PercentCodec) (p₁ : Pbio Items V₁ W₁) (p₂ : Pbio PyValue V₂ W₂)
    (Sim : PbioVars V₁ W₁ → PbioVars V₂ W₂ → Prop) (v₁ : PbioVars V₁ W₁)
    (v₂ : PbioVars V₂ W₂) {raws texts : List Bytes} {stream : Bytes}
    (skip : Nat) (count : Int)
    (hshort : ∀ raw ∈ raws, raw.length < 2 ^ 32)
    (hstream : raws.foldlM writeRaw [] = some stream)
    (hraws : ∀ raw ∈ raws, ∀ u, ∃ items,
      decoderDecode new sch u raw msgnum = .dict items none)
    (hlines : ∀ text ∈ texts, ∀ c ∈ text, c ≠ 10)
    (htexts : ∀ text ∈ texts, (codec.decode order (text ++ [10])).isSome)
    (hlen : raws.length = texts.length)
    (halike : Alike new sch msgnum uninit order codec p₁ p₂ Sim 0 raws texts)
    (hsim : Sim v₁ v₂) (hstart₁ : v₁.written = 0) (hstart₂ : v₂.written = 0) :
    (ProcessesAlike (streamTurn new sch msgnum uninit) StreamReader.view p₁
        (.init ⟨stream, 0, tells⟩, v₁) (lineTurn order codec)
        PercentCodecReader.view p₂
        (.init ⟨texts.flatMap (· ++ [10]), 0, tells'⟩, v₂)
        skip count raws.length ↔
      skip = 0 ∨ raws.length < skip ∨ count = 0) ∧
    (NumbersAlike (streamTurn new sch msgnum uninit) StreamReader.view
        (.init ⟨stream, 0, tells⟩) (lineTurn order codec)
        PercentCodecReader.view
        (.init ⟨texts.flatMap (· ++ [10]), 0, tells'⟩) ↔
      raws = []) := by
  obtain rfl := written_frames hshort hstream
  have hdecoded : ∀ raw ∈ raws, ∀ u,
      (decoding new sch msgnum u raw).isSome := by
    intro raw hraw u
    obtain ⟨items, hitems⟩ := hraws raw hraw u
    exact decoding_isSome hitems
  obtain ⟨items₁, hdelivers₁, hover₁⟩ := @stream_delivers new sch msgnum
    uninit raws 0 0 (.init ⟨frames raws, 0, tells⟩) hshort hdecoded rfl rfl
    rfl rfl
  obtain ⟨items₂, hdelivers₂, hover₂, hnumbers₂⟩ := @lines_deliver order codec
    texts (.init ⟨texts.flatMap (· ++ [10]), 0, tells'⟩) hlines htexts rfl
  have hnumbers₁ := stream_numbered hover₁
  have hpaired := halike.paired hlen hover₁ hover₂ hnumbers₂
  have hcount : items₁.length = raws.length := by
    rw [← hover₁.length_eq, placed_length]
  have hnil : items₁ = [] ↔ raws = [] := by
    rw [← List.length_eq_zero_iff, hcount, List.length_eq_zero_iff]
  constructor
  · rw [← hcount]
    exact processesAlike_iff hdelivers₁ hdelivers₂ hnumbers₁ hnumbers₂ hpaired
      hsim hstart₁ hstart₂ skip count
  · rw [← hnil]
    exact numbersAlike_iff hdelivers₁ hdelivers₂ hnumbers₁ hnumbers₂
      hpaired.length_eq

end Formats

-- ================================================================= one record

section Keeping

variable {V : Type}

/-- A run without options: the writer keeps the records. No record is asked
for a value, as none has a `_SKIP`. -/
def keeping (get : R → String → Option V)
    (setStr : R → String → Bytes → R) : Pbio R V (List R) where
  aggregate := none
  infields := []
  writesPb := false
  begincode := none
  mapcode := none
  endcode := none
  get := get
  contains record k := (get record k).isSome
  setStr := setStr
  truth _ := true
  differs _ _ := true
  write world record := .ok (world ++ [record])
  writeRaw world _ := .ok world

theorem keeping_handle {get : R → String → Option V}
    {setStr : R → String → Bytes → R} {record : R} (rv : ReaderView)
    (v : PbioVars V (List R)) (h : get record "_SKIP" = none) :
    (keeping get setStr).handle rv record v
      = .ok (.written, ⟨v.world ++ [record], v.lastkey, v.written + 1⟩) := by
  show ((if (get record "_SKIP").any _ = true then _ else _) :
    Except PyErr (Fate × PbioVars V (List R))) = _
  rw [h]
  rfl

end Keeping

/-- Over the dicts of the decoder. -/
def keepingItems : Pbio Items PyObject (List Items) :=
  keeping (fun record k => record.lookup k) fun record k v =>
    Assoc.set k (.other (plainId (.str v))) record

/-- The bytes of a name. -/
def nameBytes (k : String) : Bytes :=
  k.toList.map fun c => UInt8.ofNat c.toNat

/-- Over the dicts of the lines. -/
def keepingValues : Pbio PyValue PyValue (List PyValue) :=
  keeping
    (fun
      | .dict items, k => items.lookup (.str (nameBytes k))
      | _, _ => none)
    (fun
      | .dict items, k, v => .dict (Assoc.set (.str (nameBytes k))
          (.leaf (.str v)) items)
      | record, _, _ => record)

/-- Lines of one field. -/
def oneField : PercentCodec := .init [[97]] [9] printable [37, 10]

/-- The number 5 in a record of one field and in a line of one, without
`skip`. -/
theorem pbio_alike_five :
    (ProcessesAlike (streamTurn plainNew numberSchema 0 fun _ => 0)
        StreamReader.view keepingItems
        (.init ⟨[2, 0, 0, 0, 8, 5], 0, false⟩, ⟨[], none, 0⟩)
        (lineTurn listedOrder oneField) PercentCodecReader.view keepingValues
        (.init ⟨[53, 10], 0, false⟩, ⟨[], none, 0⟩) 0 (-1) 1 ↔
      0 = 0 ∨ 1 < 0 ∨ (-1 : Int) = 0) ∧
    (NumbersAlike (streamTurn plainNew numberSchema 0 fun _ => 0)
        StreamReader.view (.init ⟨[2, 0, 0, 0, 8, 5], 0, false⟩)
        (lineTurn listedOrder oneField) PercentCodecReader.view
        (.init ⟨[53, 10], 0, false⟩) ↔
      ([[8, 5]] : List Bytes) = []) :=
  @pbio_alike_iff PyObject PyValue (List Items) (List PyValue) plainNew
    numberSchema 0 (fun _ => 0) false false listedOrder oneField keepingItems
    keepingValues (fun _ _ => True) ⟨[], none, 0⟩ ⟨[], none, 0⟩ [[8, 5]]
    [[53]] [2, 0, 0, 0, 8, 5] 0 (-1) (by decide) (by decide)
    (fun raw hraw u => by
      obtain rfl : raw = [8, 5] := by simpa using hraw
      exact ⟨[("a", .other (plainId (.int 5)))], rfl⟩)
    (by simp)
    (fun text htext => by
      obtain rfl : text = [53] := by simpa using htext
      rfl)
    rfl
    (fun i raw text record₁ record₂ hraw htext hrecord₁ hrecord₂ view₁ view₂
        _ _ _ _ v₁ v₂ _ => by
      obtain rfl : i = 0 := by
        cases i with
        | zero => rfl
        | succ i => cases hraw
      cases hraw
      cases htext
      cases hrecord₁
      cases hrecord₂
      unfold keepingItems keepingValues
      rw [keeping_handle view₁ v₁ rfl, keeping_handle view₂ v₂ rfl]
      exact .ok .written trivial)
    trivial rfl rfl

/-- With a `skip` of 1 the record is dropped from the stream, and the line is
processed: their numbers are 0 and 1. -/
theorem pbio_skips_unlike :
    ¬ ProcessesAlike (streamTurn plainNew numberSchema 0 fun _ => 0)
      StreamReader.view keepingItems
      (.init ⟨[2, 0, 0, 0, 8, 5], 0, false⟩, ⟨[], none, 0⟩)
      (lineTurn listedOrder oneField) PercentCodecReader.view keepingValues
      (.init ⟨[53, 10], 0, false⟩, ⟨[], none, 0⟩) 1 (-1) 1 ∧
    ¬ NumbersAlike (streamTurn plainNew numberSchema 0 fun _ => 0)
      StreamReader.view (.init ⟨[2, 0, 0, 0, 8, 5], 0, false⟩)
      (lineTurn listedOrder oneField) PercentCodecReader.view
      (.init ⟨[53, 10], 0, false⟩) := by
  constructor
  · rintro ⟨fates₁, end₁, fates₂, end₂, -, hhalts, -, hselects, -⟩
    have hwritten : Halts (pbioStep keepingValues PercentCodecReader.view 1
        (-1) (lineTurn listedOrder oneField))
        (.init ⟨[53, 10], 0, false⟩, ⟨[], none, 0⟩) ([.written] ++ [])
        (.done ⟨[.dict [(.str [97], .leaf (.str [53]))]], none, 1⟩) := by
      apply Halts.step
      · rfl
      · exact .stop rfl
    rw [(hhalts.unique hwritten).1] at hselects
    exact absurd hselects.places (by decide)
  · rintro ⟨numbers, end₁, end₂, hhalts₁, hhalts₂⟩
    have hzero : Halts (numberStep StreamReader.view
        (streamTurn plainNew numberSchema 0 fun _ => 0))
        (.init ⟨[2, 0, 0, 0, 8, 5], 0, false⟩, ()) ([0] ++ ([] ++ []))
        (.done ()) := by
      apply Halts.step
      · rfl
      · apply Halts.step
        · rfl
        · exact .stop rfl
    have hone : Halts (numberStep PercentCodecReader.view
        (lineTurn listedOrder oneField)) (.init ⟨[53, 10], 0, false⟩, ())
        ([1] ++ []) (.done ()) := by
      apply Halts.step
      · rfl
      · exact .stop rfl
    have hsame := (hzero.unique hhalts₁).1.trans (hhalts₂.unique hone).1
    exact absurd hsame (by decide)

end Lwpb.Python
