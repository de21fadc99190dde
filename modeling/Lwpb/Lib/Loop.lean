/-
Loops over a generator, with `break` and `continue`.

A generator is a function from its state to its next turn: it hands over
an item, does something and hands over none, is exhausted, or leaves in
another way (an exception, say). A loop over it has variables of its own.
`step` is the loop as a machine, one turn of the generator a move.

What a loop does depends on the generator through the items only.
`Delivers` says which items come from a state, each with the generator as
it is when the body sees it, and `run` is the loop over a list of those,
which is a recursion over the list. `Delivers.halts` is the bridge: a loop
over a generator that delivers a list is the loop over the list, so that
properties of loops are proved by induction on a list.
-/
import Lwpb.Lib.Machine

namespace Loop

open Machine

variable {ρ ι α ε χ : Type}

-- =================================================================== the loop

/-- What a turn of a generator comes to. -/
inductive Turn (ρ ι χ : Type) where
  | item (g : ρ) (x : ι)
  | again (g : ρ)
  | stop
  | exit (x : χ)

/-- What the body of a loop comes to: it goes on, breaks, or leaves the
loop in another way. -/
inductive Flow (α χ : Type) where
  | next (a : α)
  | leave (a : α)
  | exit (x : χ)

/-- How a loop ends, with its variables if it ends as it should. -/
inductive End (α χ : Type) where
  | done (a : α)
  | exit (x : χ)

/-- A turn of a loop: the body sees the generator behind the turn. -/
def step (turn : ρ → Turn ρ ι χ)
    (body : ρ → ι → α → Flow α χ × List ε) (s : ρ × α) :
    Move (ρ × α) ε (End α χ) :=
  match turn s.1 with
  | .item g x =>
      match body g x s.2 with
      | (.next a, out) => .next (g, a) out
      | (.leave a, out) => .halt (.done a) out
      | (.exit e, out) => .halt (.exit e) out
  | .again g => .next (g, s.2) []
  | .stop => .halt (.done s.2) []
  | .exit e => .halt (.exit e) []

/-- The loop over a list of items. -/
def run (body : ρ → ι → α → Flow α χ × List ε) :
    List (ρ × ι) → α → List ε × End α χ
  | [], a => ([], .done a)
  | (g, x) :: items, a =>
      match body g x a with
      | (.next a, out) => (out ++ (run body items a).1, (run body items a).2)
      | (.leave a, out) => (out, .done a)
      | (.exit e, out) => (out, .exit e)

variable {turn : ρ → Turn ρ ι χ} {body : ρ → ι → α → Flow α χ × List ε}

/-- The body goes on. -/
theorem run_next {g : ρ} {x : ι} {items : List (ρ × ι)} {a a' : α}
    {out : List ε} (h : body g x a = (.next a', out)) :
    run body ((g, x) :: items) a
      = (out ++ (run body items a').1, (run body items a').2) := by
  rw [run, h]

/-- The body breaks. -/
theorem run_leave {g : ρ} {x : ι} {items : List (ρ × ι)} {a a' : α}
    {out : List ε} (h : body g x a = (.leave a', out)) :
    run body ((g, x) :: items) a = (out, .done a') := by
  rw [run, h]

/-- The body leaves in another way. -/
theorem run_exit {g : ρ} {x : ι} {items : List (ρ × ι)} {a : α} {e : χ}
    {out : List ε} (h : body g x a = (.exit e, out)) :
    run body ((g, x) :: items) a = (out, .exit e) := by
  rw [run, h]

-- ================================================================= generators

/-- From this state the generator delivers these items, and is exhausted
then. -/
inductive Delivers (turn : ρ → Turn ρ ι χ) : ρ → List (ρ × ι) → Prop where
  | stop {g : ρ} : turn g = .stop → Delivers turn g []
  | again {g g' : ρ} {items : List (ρ × ι)} : turn g = .again g' →
      Delivers turn g' items → Delivers turn g items
  | item {g g' : ρ} {x : ι} {items : List (ρ × ι)} : turn g = .item g' x →
      Delivers turn g' items → Delivers turn g ((g', x) :: items)

/-- A turn that hands over an item is a round of the body. -/
theorem step_item {g g' : ρ} {x : ι} {a : α} (h : turn g = .item g' x) :
    step turn body (g, a) =
      match body g' x a with
      | (.next a', out) => .next (g', a') out
      | (.leave a', out) => .halt (.done a') out
      | (.exit e, out) => .halt (.exit e) out := by
  unfold step
  rw [h]

/-- The loop over a generator is the loop over what it delivers. -/
theorem Delivers.halts {g : ρ} {items : List (ρ × ι)}
    (h : Delivers turn g items) (body : ρ → ι → α → Flow α χ × List ε)
    (a : α) :
    Halts (step turn body) (g, a) (run body items a).1
      (run body items a).2 := by
  induction h generalizing a with
  | stop hturn =>
      apply Halts.stop
      unfold step
      rw [hturn]
      rfl
  | @again g g' items hturn _ ih =>
      have hmove : step turn body (g, a) = .next (g', a) [] := by
        unfold step
        rw [hturn]
      exact .step hmove (ih a)
  | @item g g' x items hturn _ ih =>
      have hmove := @step_item ρ ι α ε χ turn body g g' x a hturn
      cases hbody : body g' x a with
      | mk flow out =>
          rw [hbody] at hmove
          cases flow with
          | next a' =>
              rw [run_next hbody]
              exact .step hmove (ih a')
          | leave a' =>
              rw [run_leave hbody]
              exact .stop hmove
          | exit e =>
              rw [run_exit hbody]
              exact .stop hmove

end Loop
