/-
Watching a run from outside.

What a machine emits is often consumed by something with a state of its
own: a handler that builds a tree, a reader that keeps track of where it
is. A `Watch` is such a consumer: a state that changes with every output,
and the outputs it accepts in a state. Whether it accepts everything a
run emits is a question about the run's states as soon as the state of
the watch is known at each of them; the two rules here carry such a
relation along a run.

- `Halts.accepts_iff`: the relation holds whatever the watch thinks of
  the outputs, so acceptance of a whole run is a condition on each of the
  states it passes through.
- `Halts.accepts_of`: the relation is kept as long as the outputs meet a
  condition, so the watch accepts every run whose outputs meet it.
-/
import Lwpb.Lib.Machine

namespace Machine

variable {σ ε ρ γ : Type} {M : σ → Move σ ε ρ}

/-- A consumer of outputs. -/
structure Watch (γ ε : Type) where
  /-- The state behind an output. -/
  see : γ → ε → γ
  /-- The output is acceptable in this state. -/
  ok : γ → ε → Prop

namespace Watch

variable (w : Watch γ ε)

/-- The state behind a list of outputs. -/
def after (g : γ) (o : List ε) : γ := o.foldl w.see g

/-- Every output is acceptable in the state in front of it. -/
def Accepts : γ → List ε → Prop
  | _, [] => True
  | g, e :: es => w.ok g e ∧ Accepts (w.see g e) es

instance decidableAccepts [∀ g e, Decidable (w.ok g e)] :
    ∀ g es, Decidable (w.Accepts g es)
  | _, [] => isTrue trivial
  | g, e :: es => @instDecidableAnd _ _ _ (decidableAccepts (w.see g e) es)

variable {w}

theorem after_append (g : γ) (o o' : List ε) :
    w.after g (o ++ o') = w.after (w.after g o) o' :=
  List.foldl_append

theorem accepts_append {g : γ} {o o' : List ε} :
    w.Accepts g (o ++ o') ↔ w.Accepts g o ∧ w.Accepts (w.after g o) o' := by
  induction o generalizing g with
  | nil => exact (and_iff_right trivial).symm
  | cons e es ih =>
      show (w.ok g e ∧ w.Accepts (w.see g e) (es ++ o')) ↔
        (w.ok g e ∧ w.Accepts (w.see g e) es) ∧
          w.Accepts (w.after (w.see g e) es) o'
      rw [ih, and_assoc]

theorem accepts_single {g : γ} {e : ε} : w.Accepts g [e] ↔ w.ok g e :=
  and_iff_left trivial

/-- What is seen does not depend on what is accepted. -/
theorem after_congr {w' : Watch γ ε} (h : w'.see = w.see) (g : γ)
    (o : List ε) : w'.after g o = w.after g o := by
  unfold after
  rw [h]

/-- A watch that sees outputs through a translation. -/
def comap {ε' : Type} (tr : ε' → ε) (w : Watch γ ε) : Watch γ ε' where
  see g e := w.see g (tr e)
  ok g e := w.ok g (tr e)

theorem after_comap {ε' : Type} {tr : ε' → ε} (g : γ) (o : List ε') :
    (w.comap tr).after g o = w.after g (o.map tr) := by
  unfold after
  rw [List.foldl_map]
  rfl

theorem accepts_comap {ε' : Type} {tr : ε' → ε} {g : γ} {o : List ε'} :
    (w.comap tr).Accepts g o ↔ w.Accepts g (o.map tr) := by
  induction o generalizing g with
  | nil => exact Iff.rfl
  | cons e es ih => exact and_congr_right fun _ => ih

end Watch

-- ============================================================ one move on

/-- A state that halts reaches itself only. -/
theorem Reach.eq_of_halt {s s' : σ} {r : ρ} {o : List ε}
    (hm : M s = .halt r o) (h : Reach M s s') : s' = s := by
  obtain ⟨out, he⟩ := h
  cases he with
  | refl => rfl
  | step hm' _ => rw [hm] at hm'; cases hm'

/-- A state that goes on reaches itself and what the next one reaches. -/
theorem reach_iff_of_next {s s₁ s' : σ} {o : List ε}
    (hm : M s = .next s₁ o) : Reach M s s' ↔ s' = s ∨ Reach M s₁ s' := by
  constructor
  · intro h
    obtain ⟨out, he⟩ := h
    cases he with
    | refl => exact .inl rfl
    | step hm' he =>
        rw [hm] at hm'
        injection hm' with hs₁
        subst hs₁
        exact .inr ⟨_, he⟩
  · rintro (rfl | h)
    · exact .refl s'
    · exact Reach.trans ⟨_, .single hm⟩ h

-- ================================================================ the rules

/-- A watch whose state is known at every state of a run accepts what the
run emits exactly if it accepts what each of its moves emits. -/
theorem Halts.accepts_iff {w : Watch γ ε} {J : γ → σ → Prop}
    {Good : σ → Prop}
    (hout : ∀ g s, J g s → (w.Accepts g (M s).out ↔ Good s))
    (hnext : ∀ g s s' o, J g s → M s = .next s' o → J (w.after g o) s')
    {g : γ} {s : σ} {o : List ε} {r : ρ} (hs : J g s) (h : Halts M s o r) :
    w.Accepts g o ↔ ∀ s', Reach M s s' → Good s' := by
  induction h generalizing g with
  | @stop s o r hm =>
      have hgood := hout g s hs
      rw [hm] at hgood
      constructor
      · intro ho s' hreach
        rw [hreach.eq_of_halt hm]
        exact hgood.mp ho
      · intro hall
        exact hgood.mpr (hall s (.refl s))
  | @step s s₁ o₁ o₂ r hm _ ih =>
      have hgood := hout g s hs
      rw [hm] at hgood
      have hrest := ih (hnext g s s₁ o₁ hs hm)
      rw [Watch.accepts_append, hrest]
      constructor
      · intro h s' hreach
        obtain ⟨ho, hall⟩ := h
        rcases (reach_iff_of_next hm).mp hreach with rfl | hreach
        · exact hgood.mp ho
        · exact hall s' hreach
      · intro hall
        refine ⟨hgood.mpr (hall s (.refl s)), fun s' hreach => ?_⟩
        exact hall s' ((reach_iff_of_next hm).mpr (.inr hreach))

/-- What a watch accepts under a condition on the outputs. `ask` accepts
what meets the condition, and sees the same as `w`: as long as the outputs
meet it, the relation is kept, and `w` accepts them. -/
theorem Halts.accepts_of {w ask : Watch γ ε} {J : γ → σ → Prop}
    {End : γ → ρ → Prop} (hsee : ask.see = w.see)
    (hnext : ∀ g s s' o, J g s → M s = .next s' o → ask.Accepts g o →
      w.Accepts g o ∧ J (w.after g o) s')
    (hhalt : ∀ g s r o, J g s → M s = .halt r o → ask.Accepts g o →
      w.Accepts g o ∧ End (w.after g o) r)
    {g : γ} {s : σ} {o : List ε} {r : ρ} (hs : J g s) (h : Halts M s o r)
    (hask : ask.Accepts g o) : w.Accepts g o ∧ End (w.after g o) r := by
  induction h generalizing g with
  | @stop s o r hm => exact hhalt g s r o hs hm hask
  | @step s s₁ o₁ o₂ r hm _ ih =>
      obtain ⟨hask₁, hask₂⟩ := Watch.accepts_append.mp hask
      obtain ⟨ho₁, hs₁⟩ := hnext g s s₁ o₁ hs hm hask₁
      rw [Watch.after_congr hsee] at hask₂
      obtain ⟨ho₂, hend⟩ := ih hs₁ hask₂
      rw [Watch.accepts_append, Watch.after_append]
      exact ⟨⟨ho₁, ho₂⟩, hend⟩

end Machine
