/-
Pieces placed in memory, one after the other.

A writer that lays pieces down is judged by where each of them belongs. A
`Placing` is a piece with the place it belongs to and the place it was
put; a place is anything that has an address. When no piece is put where
a later one belongs, it is all the same whether the memory is right or
whether each piece with a byte was put where it belongs (`placed_iff`):
the last piece that was not leaves its place as it was before, and that
can be anything.
-/
import Lwpb.Lib.Memory
import Mathlib.Data.List.Pairwise

namespace Memory

variable {m m' : Mem} {p q : Nat × List UInt8}
  {ps qs : List (Nat × List UInt8)} {a : Nat}

-- ================================================================== pieces

/-- Pieces, each at its address. -/
def writeAll (m : Mem) (ps : List (Nat × List UInt8)) : Mem :=
  ps.foldl (fun m p => store m p.1 p.2) m

/-- The byte at `a` is one of the piece. -/
def Covers (p : Nat × List UInt8) (a : Nat) : Prop :=
  p.1 ≤ a ∧ a < p.1 + p.2.length

/-- No byte is one of both. -/
def Apart (p q : Nat × List UInt8) : Prop :=
  ∀ a, Covers p a → ¬ Covers q a

theorem Apart.symm (h : Apart p q) : Apart q p :=
  fun a hq hp => h a hp hq

instance : Std.Symm Apart := ⟨fun _ _ => Apart.symm⟩

theorem store_other (h : ¬ Covers p a) : store m p.1 p.2 a = m a :=
  store_within p.2 a (by
    unfold Covers at h
    omega)

theorem store_covered (h : Covers p a) :
    store m p.1 p.2 a = p.2.getD (a - p.1) 0 :=
  (store_apply p.2 a).trans (if_pos h)

/-- What a store leaves at an address depends on nothing else. -/
theorem store_congr (h : m a = m' a) :
    store m p.1 p.2 a = store m' p.1 p.2 a := by
  rw [store_apply, store_apply, h]

theorem writeAll_append :
    writeAll m (ps ++ qs) = writeAll (writeAll m ps) qs := by
  unfold writeAll
  rw [List.foldl_append]

theorem writeAll_other (h : ∀ p ∈ ps, ¬ Covers p a) :
    writeAll m ps a = m a := by
  induction ps generalizing m with
  | nil => rfl
  | cons p ps ih =>
      refine (ih fun q hq => h q (List.mem_cons_of_mem _ hq)).trans ?_
      exact store_other (h p List.mem_cons_self)

theorem writeAll_congr (h : m a = m' a) :
    writeAll m ps a = writeAll m' ps a := by
  induction ps generalizing m m' with
  | nil => exact h
  | cons p ps ih => exact ih (store_congr h)

/-- Memories that agree on a piece's bytes read the same there. -/
theorem read_covered (h : ∀ a, Covers p a → m a = m' a) :
    read m p.1 p.2.length = read m' p.1 p.2.length :=
  read_congr fun i hlo hhi => h i ⟨hlo, hhi⟩

/-- Pieces that lie apart can be read back. -/
theorem read_writeAll (hapart : ps.Pairwise Apart) (hp : p ∈ ps) :
    read (writeAll m ps) p.1 p.2.length = p.2 := by
  induction ps generalizing m with
  | nil => exact absurd hp List.not_mem_nil
  | cons q ps ih =>
      obtain ⟨hq, hrest⟩ := List.pairwise_cons.mp hapart
      rcases List.mem_cons.mp hp with rfl | hp
      · have hthere : read (store m p.1 p.2) p.1 p.2.length = p.2 :=
          read_store p.2
        refine Eq.trans (read_covered fun a ha => ?_) hthere
        exact writeAll_other fun q hmem => hq q hmem a ha
      · exact ih hrest hp

theorem store_comm (h : Apart p q) :
    store (store m p.1 p.2) q.1 q.2 = store (store m q.1 q.2) p.1 p.2 := by
  funext a
  by_cases hp : Covers p a
  · rw [store_other (h a hp), store_covered hp, store_covered hp]
  · rw [store_other hp]
    exact store_congr (store_other hp)

/-- Pieces that lie apart can be put down in any order. -/
theorem writeAll_perm (hapart : ps.Pairwise Apart) (hperm : ps.Perm qs) :
    writeAll m ps = writeAll m qs := by
  refine hperm.foldl_eq' (fun p hp q hq z => ?_) m
  by_cases heq : p = q
  · rw [heq]
  · exact store_comm (hapart.forall hp hq heq)

-- ================================================================= placings

/-- A piece, where it belongs, and where it was put. -/
structure Placing (π : Type) where
  want : π
  got : π
  bytes : List UInt8
  deriving Repr, DecidableEq

variable {π : Type} (addr : π → Nat)

/-- The piece where it belongs. -/
def Placing.wanted (t : Placing π) : Nat × List UInt8 :=
  (addr t.want, t.bytes)

/-- The piece where it was put. -/
def Placing.put (t : Placing π) : Nat × List UInt8 :=
  (addr t.got, t.bytes)

/-- It was put where it belongs, unless there was nothing to put. -/
def Placing.Right (t : Placing π) : Prop := t.bytes ≠ [] → t.got = t.want

variable {addr} {l : List (Placing π)}

theorem writeAll_right (h : ∀ t ∈ l, t.Right) :
    writeAll m (l.map (Placing.put addr))
      = writeAll m (l.map (Placing.wanted addr)) := by
  induction l generalizing m with
  | nil => rfl
  | cons t l ih =>
      have hstore : store m (addr t.got) t.bytes
          = store m (addr t.want) t.bytes := by
        by_cases hnil : t.bytes = []
        · rw [hnil]
          rfl
        · rw [h t List.mem_cons_self hnil]
      show writeAll (store m (addr t.got) t.bytes) _
        = writeAll (store m (addr t.want) t.bytes) _
      rw [hstore]
      exact ih fun s hs => h s (List.mem_cons_of_mem _ hs)

/-- Different places are apart, whatever was put there. -/
structure Separate (addr : π → Nat) (l : List (Placing π)) : Prop where
  wanted : ∀ s ∈ l, ∀ t ∈ l, s.want ≠ t.want →
    Apart (s.wanted addr) (t.wanted addr)
  put : ∀ s ∈ l, ∀ t ∈ l, s.got ≠ t.want →
    Apart (s.put addr) (t.wanted addr)

/-- No piece belongs, and none was put, where a later one belongs. -/
def InOrder (l : List (Placing π)) : Prop :=
  l.Pairwise fun s t => s.want ≠ t.want ∧ s.got ≠ t.want

theorem Separate.pairwise (hsep : Separate addr l) (hord : InOrder l) :
    (l.map (Placing.wanted addr)).Pairwise Apart := by
  rw [List.pairwise_map]
  exact hord.imp_of_mem fun hs ht hne => hsep.wanted _ hs _ ht hne.1

/-- The pieces can be read where they belong, whatever was in memory
before, exactly if each of them was put there. -/
theorem placed_iff (hsep : Separate addr l) (hord : InOrder l) :
    (∀ m, ∀ t ∈ l, read (writeAll m (l.map (Placing.put addr)))
        (addr t.want) t.bytes.length = t.bytes) ↔
      ∀ t ∈ l, t.Right := by
  constructor
  · intro h
    induction l with
    | nil => exact fun _ ht => absurd ht List.not_mem_nil
    | cons s l ih =>
        obtain ⟨hs, hord⟩ := List.pairwise_cons.mp hord
        have hrest : ∀ t ∈ l, t.Right := by
          refine ih ⟨fun u hu t ht => hsep.wanted u
            (List.mem_cons_of_mem _ hu) t (List.mem_cons_of_mem _ ht),
            fun u hu t ht => hsep.put u (List.mem_cons_of_mem _ hu) t
              (List.mem_cons_of_mem _ ht)⟩ hord fun m t ht => ?_
          have happart := hsep.put s List.mem_cons_self t
            (List.mem_cons_of_mem _ ht) (hs t ht).2
          have hread := h m t (List.mem_cons_of_mem _ ht)
          -- what `s` put is none of `t`'s bytes
          refine Eq.trans ?_ hread
          refine @read_covered _ _ (t.wanted addr) fun a ha =>
            writeAll_congr (Eq.symm ?_)
          exact @store_other m (s.put addr) a fun hin => happart a hin ha
        rw [List.forall_mem_cons]
        refine ⟨fun hbytes => ?_, hrest⟩
        by_contra hne
        obtain ⟨b, bs, hb⟩ := List.exists_cons_of_ne_nil hbytes
        have hhere : Covers (s.wanted addr) (addr s.want) := by
          constructor
          · exact Nat.le_refl _
          · show addr s.want < addr s.want + s.bytes.length
            rw [hb, List.length_cons]
            omega
        -- so nothing is put where `s` belongs
        have hsame : ∀ m : Mem, writeAll m
            ((s :: l).map (Placing.put addr)) (addr s.want)
              = m (addr s.want) := by
          intro m
          refine writeAll_other ?_
          rw [List.forall_mem_map, List.forall_mem_cons]
          refine ⟨fun hin => ?_, fun t ht hin => ?_⟩
          · exact hsep.put s List.mem_cons_self s List.mem_cons_self hne _
              hin hhere
          · have hright := hrest t ht (by
              intro hnil
              obtain ⟨hlo, hhi⟩ := hin
              unfold Placing.put at hlo hhi
              rw [hnil] at hhi
              exact absurd hhi (Nat.not_lt.mpr hlo))
            unfold Placing.put at hin
            rw [hright] at hin
            exact hsep.wanted s List.mem_cons_self t
              (List.mem_cons_of_mem _ ht) (hs t ht).1 _ hhere hin
        have hbyte : ∀ m : Mem, m (addr s.want) = b := by
          intro m
          have hread := h m s List.mem_cons_self
          rw [hb, List.length_cons, read, hsame] at hread
          exact (List.cons.inj hread).1
        exact absurd ((hbyte fun _ => 0).trans (hbyte fun _ => 1).symm)
          (by decide)
  · intro h m t ht
    rw [writeAll_right h]
    exact @read_writeAll m (t.wanted addr) _ (hsep.pairwise hord)
      (List.mem_map_of_mem ht)

end Memory
