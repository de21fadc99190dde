/-
Deterministic machines with output: the run theory the decoder's proofs
stand on.

A machine is a function from a state to its next move. A move either
goes on to a state or halts with a result, and in both cases it emits a
list of outputs. Nothing here knows what a state is; the decoder, whose
C text is a loop with a `goto` into it, instantiates the machine and
reads its whole runs through the rules below.

# What a run is

`Exec M s o s'` is a finite run from `s` to `s'` emitting `o`;
`Halts M s o r` is a run that ends in a halting move with result `r`.
Determinism (`Exec.halts_iff`, `Halts.unique`) makes a halting run a
function of its first state, so a fact about one run from `s` is a fact
about every run from `s`.

# The rules

- invariance: what a move keeps, a run keeps (`Exec.invariant`), and what
  holds of the outputs of invariant states holds of all outputs
  (`Halts.emits`);
- termination: a measure that every move from an invariant state
  lowers bounds the run (`halts_of_measure`);
- evaluation: a bounded run that comes to a result is a halting run
  (`halts_of_eval`), the bridge from a computed value to `Halts`; and what
  a bounded run checks at each of its states holds of all states it
  passes through (`Reach.of_checked`).
-/
import Mathlib.Data.List.Basic

namespace Machine

/-- One move: go on to a state, or halt with a result; either way emit
outputs. -/
inductive Move (σ ε ρ : Type) where
  | next (s : σ) (out : List ε)
  | halt (r : ρ) (out : List ε)
  deriving Repr, DecidableEq

variable {σ ε ρ : Type} {M : σ → Move σ ε ρ}

/-- What a move emits. -/
def Move.out : Move σ ε ρ → List ε
  | .next _ out => out
  | .halt _ out => out

-- ======================================================================= runs

/-- A finite run, with everything it emits. -/
inductive Exec (M : σ → Move σ ε ρ) : σ → List ε → σ → Prop where
  | refl (s : σ) : Exec M s [] s
  | step {s s₁ s₂ : σ} {o₁ o₂ : List ε} :
      M s = .next s₁ o₁ → Exec M s₁ o₂ s₂ → Exec M s (o₁ ++ o₂) s₂

/-- The run from `s` halts with result `r`, having emitted `o`. -/
inductive Halts (M : σ → Move σ ε ρ) : σ → List ε → ρ → Prop where
  | stop {s : σ} {o : List ε} {r : ρ} : M s = .halt r o → Halts M s o r
  | step {s s₁ : σ} {o₁ o₂ : List ε} {r : ρ} :
      M s = .next s₁ o₁ → Halts M s₁ o₂ r → Halts M s (o₁ ++ o₂) r

/-- The states a run from `s₀` passes through. -/
def Reach (M : σ → Move σ ε ρ) (s₀ s : σ) : Prop :=
  ∃ o, Exec M s₀ o s

theorem Reach.refl (s : σ) : Reach M s s := ⟨[], .refl s⟩

theorem Exec.single {s s' : σ} {o : List ε} (h : M s = .next s' o) :
    Exec M s o s' := by
  simpa using Exec.step h (.refl s')

theorem Exec.trans {s s₁ s₂ : σ} {o₁ o₂ : List ε}
    (h₁ : Exec M s o₁ s₁) (h₂ : Exec M s₁ o₂ s₂) :
    Exec M s (o₁ ++ o₂) s₂ := by
  induction h₁ with
  | refl => simpa using h₂
  | step hm _ ih =>
      rw [List.append_assoc]
      exact .step hm (ih h₂)

theorem Reach.trans {s s₁ s₂ : σ} (h₁ : Reach M s s₁)
    (h₂ : Reach M s₁ s₂) : Reach M s s₂ := by
  obtain ⟨o₁, h₁⟩ := h₁
  obtain ⟨o₂, h₂⟩ := h₂
  exact ⟨o₁ ++ o₂, h₁.trans h₂⟩

theorem Reach.step {s s₁ s₂ : σ} {o : List ε} (h : Reach M s s₁)
    (hm : M s₁ = .next s₂ o) : Reach M s s₂ :=
  h.trans ⟨o, .single hm⟩

-- ================================================================ determinism

/-- A halting run can be read from any state it passes through. -/
theorem Exec.halts_iff {s s' : σ} {o out : List ε} {r : ρ}
    (h : Exec M s o s') :
    Halts M s out r ↔ ∃ o', out = o ++ o' ∧ Halts M s' o' r := by
  induction h generalizing out with
  | refl => simp
  | @step s s₁ s₂ o₁ o₂ hm _ ih =>
      constructor
      · intro hh
        cases hh with
        | stop hs => rw [hm] at hs; cases hs
        | step hs hh =>
            rw [hm] at hs
            injection hs with hs₁ ho₁
            subst hs₁ ho₁
            obtain ⟨o', rfl, hh'⟩ := ih.mp hh
            exact ⟨o', (List.append_assoc ..).symm, hh'⟩
      · intro h
        obtain ⟨o', rfl, hh⟩ := h
        rw [List.append_assoc]
        exact .step hm (ih.mpr ⟨o', rfl, hh⟩)

/-- Running up to `s'` and halting from there is halting. -/
theorem Exec.halts {s s' : σ} {o o' : List ε} {r : ρ}
    (h : Exec M s o s') (hh : Halts M s' o' r) : Halts M s (o ++ o') r :=
  h.halts_iff.mpr ⟨o', rfl, hh⟩

/-- A halting run is unique: same outputs, same result. -/
theorem Halts.unique {s : σ} {o o' : List ε} {r r' : ρ}
    (h : Halts M s o r) (h' : Halts M s o' r') : o = o' ∧ r = r' := by
  induction h generalizing o' with
  | stop hs =>
      cases h' with
      | stop hs' =>
          rw [hs] at hs'
          injection hs' with hr ho
          exact ⟨ho, hr⟩
      | step hs' _ => rw [hs] at hs'; cases hs'
  | step hs _ ih =>
      cases h' with
      | stop hs' => rw [hs] at hs'; cases hs'
      | step hs' hh' =>
          rw [hs] at hs'
          injection hs' with hs₁ ho₁
          subst hs₁ ho₁
          obtain ⟨rfl, rfl⟩ := ih hh'
          exact ⟨rfl, rfl⟩

/-- A halting run, seen as a run to its last state and one halting
move. -/
theorem Halts.last {s : σ} {o : List ε} {r : ρ} (h : Halts M s o r) :
    ∃ s' o₁ o₂, Exec M s o₁ s' ∧ M s' = .halt r o₂ ∧ o = o₁ ++ o₂ := by
  induction h with
  | stop hs => exact ⟨_, [], _, .refl _, hs, rfl⟩
  | step hm _ ih =>
      obtain ⟨s', o₁, o₂, he, hs, rfl⟩ := ih
      exact ⟨s', _, o₂, .step hm he, hs, (List.append_assoc ..).symm⟩

-- ================================================================== the rules

/-- Invariance: what every move keeps, every run keeps. -/
theorem Exec.invariant {I : σ → Prop}
    (hstep : ∀ s s' o, I s → M s = .next s' o → I s')
    {s s' : σ} {o : List ε} (h : Exec M s o s') (hs : I s) : I s' := by
  induction h with
  | refl => exact hs
  | step hm _ ih => exact ih (hstep _ _ _ hs hm)

/-- Outputs along an invariant: what holds of every output of every
invariant state holds of all that a run emits. -/
theorem Halts.emits {I : σ → Prop} {P : ε → Prop}
    (hstep : ∀ s s' o, I s → M s = .next s' o → I s')
    (hout : ∀ s, I s → ∀ e ∈ (M s).out, P e)
    {s : σ} {o : List ε} {r : ρ} (h : Halts M s o r) (hs : I s) :
    ∀ e ∈ o, P e := by
  induction h with
  | stop hm =>
      intro e he
      apply hout _ hs
      rw [hm]
      exact he
  | step hm _ ih =>
      intro e he
      rcases List.mem_append.mp he with he | he
      · apply hout _ hs
        rw [hm]
        exact he
      · exact ih (hstep _ _ _ hs hm) e he

theorem Reach.invariant {I : σ → Prop}
    (hstep : ∀ s s' o, I s → M s = .next s' o → I s')
    {s₀ s : σ} (h : Reach M s₀ s) (h₀ : I s₀) : I s := by
  obtain ⟨o, he⟩ := h
  exact he.invariant hstep h₀

/-- Invariance along a run whose every state is known to satisfy `P`:
the form in which a condition on the states of a run is used. -/
theorem Reach.invariant_of {I P : σ → Prop} {s₀ s : σ}
    (hstep : ∀ s s' o, I s → P s → M s = .next s' o → I s')
    (hP : ∀ s, Reach M s₀ s → P s) (h : Reach M s₀ s) (h₀ : I s₀) :
    I s := by
  have hboth : I s ∧ Reach M s₀ s := by
    refine h.invariant (I := fun s => I s ∧ Reach M s₀ s) ?_ ⟨h₀, .refl s₀⟩
    intro s s' o hs hm
    exact ⟨hstep s s' o hs.1 (hP s hs.2) hm, hs.2.step hm⟩
  exact hboth.1

/-- Termination: a measure lowered by every move from an invariant
state. -/
theorem halts_of_measure {I : σ → Prop} (μ : σ → Nat)
    (hstep : ∀ s s' o, I s → M s = .next s' o → I s' ∧ μ s' < μ s)
    {s : σ} (hs : I s) : ∃ o r, Halts M s o r := by
  induction hn : μ s using Nat.strongRecOn generalizing s with
  | ind n ih =>
      cases hm : M s with
      | halt r o => exact ⟨o, r, .stop hm⟩
      | next s' o =>
          obtain ⟨hs', hlt⟩ := hstep s s' o hs hm
          obtain ⟨o', r, hh⟩ := ih (μ s') (by omega) hs' rfl
          exact ⟨o ++ o', r, .step hm hh⟩

/-- At most `fuel` moves of a run, and what it emitted and returned if
it halted by then. -/
def eval (M : σ → Move σ ε ρ) : Nat → σ → Option (List ε × ρ)
  | 0, _ => none
  | fuel + 1, s =>
      match M s with
      | .halt r o => some (o, r)
      | .next s' o => (eval M fuel s').map fun (o', r) => (o ++ o', r)

/-- Evaluation: a bounded run that comes to a result is a halting
run. -/
theorem halts_of_eval (fuel : Nat) {s : σ} {o : List ε} {r : ρ}
    (h : eval M fuel s = some (o, r)) : Halts M s o r := by
  induction fuel generalizing s o with
  | zero => cases h
  | succ n ih =>
      unfold eval at h
      cases hm : M s with
      | halt r' o' =>
          rw [hm] at h
          simp only [Option.some.injEq, Prod.mk.injEq] at h
          obtain ⟨rfl, rfl⟩ := h
          exact .stop hm
      | next s' o₁ =>
          rw [hm] at h
          simp only [Option.map_eq_some_iff, Prod.mk.injEq, Prod.exists] at h
          obtain ⟨o₂, r', he, rfl, rfl⟩ := h
          exact .step hm (ih he)

/-- The result alone of a bounded run. -/
theorem halts_of_result (fuel : Nat) {s : σ} {r : ρ}
    (h : (eval M fuel s).map Prod.snd = some r) : ∃ o, Halts M s o r := by
  obtain ⟨x, heval, rfl⟩ := Option.map_eq_some_iff.mp h
  exact ⟨x.1, halts_of_eval fuel heval⟩

/-- The run from a state halts within `fuel` moves, and each of its states
passes the check. -/
def checked (M : σ → Move σ ε ρ) (check : σ → Bool) : Nat → σ → Bool
  | 0, _ => false
  | fuel + 1, s =>
      check s && match M s with
        | .halt _ _ => true
        | .next s' _ => checked M check fuel s'

/-- What is checked along a run holds of every state it passes through. -/
theorem Reach.of_checked {P : σ → Prop} [DecidablePred P] (fuel : Nat)
    {s s' : σ} (h : checked M (fun s => decide (P s)) fuel s = true)
    (hreach : Reach M s s') : P s' := by
  obtain ⟨o, hexec⟩ := hreach
  induction hexec generalizing fuel with
  | refl s =>
      cases fuel with
      | zero => cases h
      | succ n =>
          unfold checked at h
          exact of_decide_eq_true (Bool.and_eq_true_iff.mp h).1
  | step hmove _ ih =>
      cases fuel with
      | zero => cases h
      | succ n =>
          unfold checked at h
          rw [hmove] at h
          exact ih n (Bool.and_eq_true_iff.mp h).2

/-- With more moves than the measure of its first state, a run is
evaluated to its end. -/
theorem eval_of_measure {I : σ → Prop} (μ : σ → Nat)
    (hstep : ∀ s s' o, I s → M s = .next s' o → I s' ∧ μ s' < μ s)
    {s : σ} (hs : I s) {fuel : Nat} (hfuel : μ s < fuel) :
    ∃ o r, eval M fuel s = some (o, r) := by
  induction fuel generalizing s with
  | zero => omega
  | succ n ih =>
      unfold eval
      cases hm : M s with
      | halt r o => exact ⟨o, r, rfl⟩
      | next s' o =>
          obtain ⟨hs', hlt⟩ := hstep s s' o hs hm
          obtain ⟨o', r, heval⟩ := ih hs' (by omega)
          exact ⟨o ++ o', r, Option.map_eq_some_iff.mpr ⟨_, heval, rfl⟩⟩

end Machine
