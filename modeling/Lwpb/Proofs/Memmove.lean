/-
The fallback `memmove` moves downwards only.

`Memory.copy` is what a `memmove` is for: every byte of the source is
taken from the memory before the move. The loop for `d < s` refines it.
Its invariant is that the memory is a copy of the first `i` bytes: byte
`i` of the source lies at or above the end of that copy and still holds
what it held (`moveByte_ahead`), however the ranges overlap.

The loop of the other branch counts an unsigned index down and tests
`i >= 0`. No move of it is a return (`never_returns`), so the claim of a
`memmove` is met exactly where `dest` is not above `src`
(`memmove_moves_iff`).
-/
import Lwpb.Utils.Memmove

namespace Lwpb

open Machine Memory

variable {w size dest src n : Nat} {mem : Mem}

/-- The call is a `memmove`: it returns, the destination range holds what
the source range held, and no other byte has changed. -/
def Memmoves (w size dest src n : Nat) (mem : Mem) : Prop :=
  ∃ mem', Halts (memmoveStep w size dest src n) ⟨.entry, mem⟩ []
      (.ok (dest, mem'))
    ∧ read mem' dest n = read mem src n
    ∧ Within mem mem' dest (dest + n)

-- ==================================================================== upwards

/-- The memory with the first `i` bytes moved. -/
def moved (dest src i : Nat) (mem : Mem) : Mem :=
  copy mem dest i fun j => mem (src + j)

theorem sizeAdd_of_lt {a b : Nat} (h : a + b < 2 ^ w) :
    sizeAdd w a b = a + b :=
  Nat.mod_eq_of_lt h

/-- A byte ahead of the copy is read as it was, and moved. -/
theorem moveByte_ahead (mem : Mem) {i : Nat} (hsize : size ≤ 2 ^ w)
    (hdest : dest + i < size) (hsrc : src + i < size) (hle : dest ≤ src) :
    moveByte w size dest src i (moved dest src i mem)
      = .ok (moved dest src (i + 1) mem) := by
  have hd : sizeAdd w dest i = dest + i := sizeAdd_of_lt (by omega)
  have hs : sizeAdd w src i = src + i := sizeAdd_of_lt (by omega)
  have hkept : moved dest src i mem (src + i) = mem (src + i) :=
    copy_within _ (src + i) (.inr (by omega))
  unfold moveByte
  dsimp only
  rw [hd, hs, if_pos hsrc, if_pos hdest, hkept]
  exact congrArg Outcome.ok (copy_succ _)

/-- The loop for `d < s`, from any index up to `n`. -/
theorem up_returns (hsize : size ≤ 2 ^ w) (hdest : dest + n ≤ size)
    (hsrc : src + n ≤ size) (hlt : dest < src) :
    ∀ k i, i + k = n →
      Halts (memmoveStep w size dest src n) ⟨.up i, moved dest src i mem⟩ []
        (.ok (dest, moved dest src n mem)) := by
  intro k
  induction k with
  | zero =>
      intro i hi
      have hin : i = n := by omega
      subst hin
      apply Halts.stop
      simp [memmoveStep]
  | succ k ih =>
      intro i hi
      have hbyte := moveByte_ahead mem hsize (by omega : dest + i < size)
        (by omega : src + i < size) (Nat.le_of_lt hlt)
      have hnext : sizeAdd w i 1 = i + 1 := sizeAdd_of_lt (by omega)
      have hmove : memmoveStep w size dest src n
          ⟨.up i, moved dest src i mem⟩
          = .next ⟨.up (i + 1), moved dest src (i + 1) mem⟩ [] := by
        unfold memmoveStep
        dsimp only
        rw [if_pos (by omega : i < n), hbyte]
        dsimp only
        rw [hnext]
      exact .step hmove (ih (i + 1) (by omega))

/-- Downwards or in place, the call leaves the copy. -/
theorem memmove_copies (hsize : size ≤ 2 ^ w) (hdest : dest + n ≤ size)
    (hsrc : src + n ≤ size) (hle : dest ≤ src) :
    Halts (memmoveStep w size dest src n) ⟨.entry, mem⟩ []
      (.ok (dest, moved dest src n mem)) := by
  by_cases heq : dest = src
  · subst heq
    apply Halts.stop
    unfold moved
    rw [copy_self]
    simp [memmoveStep]
  · have hlt : dest < src := by omega
    have hentry : memmoveStep w size dest src n ⟨.entry, mem⟩
        = .next ⟨.up 0, moved dest src 0 mem⟩ [] := by
      unfold memmoveStep moved
      dsimp only
      rw [if_neg heq, if_pos hlt, copy_zero]
    exact .step hentry (up_returns hsize hdest hsrc hlt n 0 (by omega))

-- ================================================================== downwards

/-- Control has not left the loop of the `else` branch. -/
def Downwards (s : MoveState) : Prop := ∃ i, s.point = .down i

/-- Every index passes the test: a move of the loop stays in it, or ends
with an access outside the memory. -/
theorem down_moves {s : MoveState} (hs : Downwards s) :
    (∃ s', memmoveStep w size dest src n s = .next s' [] ∧ Downwards s') ∨
      ∃ r, memmoveStep w size dest src n s = .halt r [] ∧ ∀ v, r ≠ .ok v := by
  obtain ⟨point, mem⟩ := s
  obtain ⟨i, rfl⟩ := hs
  unfold memmoveStep
  dsimp only
  rw [if_pos (Nat.zero_le i)]
  cases moveByte w size dest src i mem with
  | ok mem' => exact .inl ⟨_, rfl, _, rfl⟩
  | err e => exact .inr ⟨_, rfl, fun v h => by cases h⟩
  | fault f => exact .inr ⟨_, rfl, fun v h => by cases h⟩

theorem down_stays {s s' : MoveState} {o : List Empty}
    (hs : Downwards s)
    (hmove : memmoveStep w size dest src n s = .next s' o) :
    Downwards s' := by
  rcases @down_moves w size dest src n s hs with
    ⟨t, hnext, ht⟩ | ⟨r, hhalt, -⟩
  · rw [hnext] at hmove
    injection hmove with hs'
    exact hs' ▸ ht
  · rw [hhalt] at hmove
    cases hmove

/-- What ends the loop is no return. -/
theorem down_ends {s : MoveState} {o : List Empty} {r : Outcome (Nat × Mem)}
    (hs : Downwards s)
    (hmove : memmoveStep w size dest src n s = .halt r o) :
    ∀ v, r ≠ .ok v := by
  rcases @down_moves w size dest src n s hs with
    ⟨t, hnext, -⟩ | ⟨r', hhalt, hr⟩
  · rw [hnext] at hmove
    cases hmove
  · rw [hhalt] at hmove
    injection hmove with hr'
    exact hr' ▸ hr

/-- Upwards, the call does not return, whatever the memory and `n`. -/
theorem never_returns (hlt : src < dest) {o : List Empty}
    {v : Nat × Mem} :
    ¬ Halts (memmoveStep w size dest src n) ⟨.entry, mem⟩ o (.ok v) := by
  intro hhalts
  have hentry : memmoveStep w size dest src n ⟨.entry, mem⟩
      = .next ⟨.down (sizePred w n), mem⟩ [] := by
    unfold memmoveStep
    dsimp only
    rw [if_neg (by omega), if_neg (by omega)]
  obtain ⟨o', -, hrest⟩ := (Exec.single hentry).halts_iff.mp hhalts
  obtain ⟨s, o₁, o₂, hrun, hend, -⟩ := hrest.last
  have hdown : Downwards s :=
    hrun.invariant (fun _ _ _ => down_stays) ⟨_, rfl⟩
  exact down_ends hdown hend v rfl

-- ================================================================== the whole

/-- `__lwpb_memmove` is a `memmove` exactly when it moves downwards or
in place. -/
theorem memmove_moves_iff (w size dest src n : Nat) (mem : Mem)
    (hsize : size ≤ 2 ^ w) (hdest : dest + n ≤ size)
    (hsrc : src + n ≤ size) :
    Memmoves w size dest src n mem ↔ dest ≤ src := by
  constructor
  · rintro ⟨mem', hhalts, -, -⟩
    by_contra hlt
    exact never_returns (by omega) hhalts
  · intro hle
    refine ⟨_, memmove_copies hsize hdest hsrc hle, ?_, copy_within _⟩
    unfold moved
    rw [read_copy]
    exact (read_eq_map _ fun _ _ => rfl).symm

/-- Two overlapping bytes of three, moved down on a 64-bit machine. -/
theorem memmove_moves_down :
    Memmoves 64 3 0 1 2 (fun a => UInt8.ofNat a) :=
  (memmove_moves_iff 64 3 0 1 2 _ (by decide) (by decide)
    (by decide)).mpr (by decide)

/-- The same two bytes, moved up: the call does not return. -/
theorem memmove_up_stuck :
    ¬ Memmoves 64 3 1 0 2 (fun a => UInt8.ofNat a) := by
  rintro ⟨mem', hhalts, -, -⟩
  exact never_returns (by decide) hhalts

end Lwpb
