/-
Ledgers: what a program has obtained and not yet given back.

A program that works on handles (descriptors, buffers) leaves a trail:
what it obtained, used and gave back, in order. The `ledger` watches the
trail with the multiset of what is held, and accepts a use or a release of
what is held only. A trail it accepts gives nothing back more often than it
was obtained (`releases_le`), and uses nothing that was given back. A
`Balanced` trail gives back all that it obtains (`Balanced.releases_eq`).

`Traced` is the monad of such programs: a computation comes to a value or
does not come back, and leaves a trail either way. `Keeps own r held` is
its triple: from `own` the trail is accepted, and what is held behind it is
at least `held` of the value. The rules are the usual ones (`Keeps.bind`,
`Keeps.frame`, `Keeps.weaken`); what is obtained and forgotten is no fault
of a trail, so that the precondition and the postcondition are lower
bounds.
-/
import Lwpb.Lib.Watch
import Mathlib.Data.Multiset.AddSub

namespace Machine

/-- A line of a trail. -/
inductive Entry (α : Type) where
  | acquire (a : α)
  | use (a : α)
  | release (a : α)
  deriving Repr, DecidableEq

variable {α β γ : Type} [DecidableEq α]

/-- The ledger: what is held. -/
def ledger : Watch (Multiset α) (Entry α) where
  see own
    | .acquire a => a ::ₘ own
    | .use _ => own
    | .release a => own.erase a
  ok own
    | .acquire _ => True
    | .use a => a ∈ own
    | .release a => a ∈ own

-- ================================================================== trails

/-- More may be held than is asked for. -/
theorem ledger_frame {own : Multiset α} {es : List (Entry α)}
    (h : ledger.Accepts own es) (rest : Multiset α) :
    ledger.Accepts (rest + own) es ∧
      ledger.after (rest + own) es = rest + ledger.after own es := by
  induction es generalizing own with
  | nil => exact ⟨trivial, rfl⟩
  | cons e es ih =>
      obtain ⟨hok, hes⟩ := h
      have hmem : ∀ a ∈ own, a ∈ rest + own := fun a ha =>
        Multiset.mem_add.mpr (.inr ha)
      have hsee : ledger.see (rest + own) e = rest + ledger.see own e := by
        cases e with
        | acquire a => exact (Multiset.add_cons a rest own).symm
        | use a => rfl
        | release a => exact Multiset.erase_add_right_pos rest hok
      have hok' : ledger.ok (rest + own) e := by
        cases e with
        | acquire a => trivial
        | use a => exact hmem a hok
        | release a => exact hmem a hok
      obtain ⟨hes', hafter⟩ := ih hes
      rw [← hsee] at hes' hafter
      exact ⟨⟨hok', hes'⟩, hafter⟩

/-- With more in hand, the same entries are accepted and more is left. -/
theorem ledger_mono {own own' : Multiset α} {es : List (Entry α)}
    (hle : own ≤ own') (h : ledger.Accepts own es) :
    ledger.Accepts own' es ∧ ledger.after own es ≤ ledger.after own' es := by
  obtain ⟨rest, rfl⟩ := Multiset.le_iff_exists_add.mp hle
  rw [Multiset.add_comm own rest]
  obtain ⟨hes, hafter⟩ := ledger_frame h rest
  rw [hafter]
  exact ⟨hes, Multiset.le_add_left _ _⟩

/-- What is held behind a trail, by what was held in front of it. -/
theorem after_count {own : Multiset α} {es : List (Entry α)}
    (h : ledger.Accepts own es) (a : α) :
    (ledger.after own es).count a + es.count (.release a)
      = own.count a + es.count (.acquire a) := by
  induction es generalizing own with
  | nil => rfl
  | cons e es ih =>
      obtain ⟨hok, hes⟩ := h
      have hline : (ledger.see own e).count a
            + (if e == .release a then 1 else 0)
          = own.count a + (if e == .acquire a then 1 else 0) := by
        cases e with
        | acquire b =>
            by_cases hab : b = a
            · subst hab
              simp [ledger]
            · simp [ledger, hab, Multiset.count_cons_of_ne (Ne.symm hab)]
        | use b => simp [ledger]
        | release b =>
            have hpos : 0 < own.count b := Multiset.count_pos.mpr hok
            by_cases hab : b = a
            · subst hab
              simp [ledger, Nat.sub_add_cancel hpos]
            · simp [ledger, hab, Multiset.count_erase_of_ne (Ne.symm hab)]
      have hih := ih hes
      rw [List.count_cons, List.count_cons]
      show (ledger.after (ledger.see own e) es).count a + _ = _
      omega

/-- Nothing is given back more often than it was obtained. -/
theorem releases_le {own : Multiset α} {es : List (Entry α)}
    (h : ledger.Accepts own es) (a : α) :
    es.count (.release a) ≤ own.count a + es.count (.acquire a) := by
  have hcount := after_count h a
  omega

-- ========================================================= balanced trails

/-- The trail is accepted, and leaves the ledger as it found it. -/
structure Balanced (own : Multiset α) (es : List (Entry α)) : Prop where
  accepts : ledger.Accepts own es
  after : ledger.after own es = own

section Balanced

variable {own : Multiset α} {es es' : List (Entry α)}

/-- No entries are balanced. -/
theorem Balanced.nil : Balanced own [] := ⟨trivial, rfl⟩

/-- Balanced entries follow each other. -/
theorem Balanced.append (h : Balanced own es) (h' : Balanced own es') :
    Balanced own (es ++ es') := by
  refine ⟨Watch.accepts_append.mpr ⟨h.accepts, ?_⟩, ?_⟩
  · rw [h.after]
    exact h'.accepts
  · rw [Watch.after_append, h.after]
    exact h'.after

/-- A use of what is in hand is balanced. -/
theorem Balanced.use {a : α} (ha : a ∈ own) : Balanced own [.use a] :=
  ⟨⟨ha, trivial⟩, rfl⟩

/-- A trail that needs nothing. -/
theorem Balanced.of_zero (h : Balanced 0 es) : Balanced own es := by
  obtain ⟨hacc, hafter⟩ := ledger_frame h.accepts own
  rw [h.after, Multiset.add_zero] at hafter
  rw [Multiset.add_zero] at hacc
  exact ⟨hacc, hafter⟩

/-- What is obtained in front and given back behind. -/
theorem Balanced.hold {a : α} (h : Balanced (a ::ₘ own) es) :
    Balanced own (.acquire a :: es ++ [.release a]) := by
  refine ⟨⟨trivial, Watch.accepts_append.mpr ⟨h.accepts, ?_⟩⟩, ?_⟩
  · show ledger.Accepts (ledger.after (a ::ₘ own) es) _
    rw [h.after]
    exact ⟨Multiset.mem_cons_self a own, trivial⟩
  · show ledger.after (a ::ₘ own) (es ++ [.release a]) = own
    rw [Watch.after_append, h.after]
    exact Multiset.erase_cons_head a own

/-- Two of them. -/
theorem Balanced.hold_both {a b : α} (h : Balanced (a ::ₘ b ::ₘ own) es) :
    Balanced own
      (.acquire a :: .acquire b :: es ++ [.release a, .release b]) := by
  have hheld : b ::ₘ a ::ₘ own = a ::ₘ b ::ₘ own := Multiset.cons_swap b a own
  have hgiven : (a ::ₘ b ::ₘ own).erase a = b ::ₘ own :=
    Multiset.erase_cons_head a _
  refine ⟨⟨trivial, trivial, ?_⟩, ?_⟩
  · show ledger.Accepts (b ::ₘ a ::ₘ own) (es ++ _)
    rw [hheld]
    refine Watch.accepts_append.mpr ⟨h.accepts, ?_⟩
    rw [h.after]
    refine ⟨Multiset.mem_cons_self a _, ?_, trivial⟩
    show b ∈ (a ::ₘ b ::ₘ own).erase a
    rw [hgiven]
    exact Multiset.mem_cons_self b own
  · show ledger.after (b ::ₘ a ::ₘ own) (es ++ _) = own
    rw [hheld, Watch.after_append, h.after]
    show ((a ::ₘ b ::ₘ own).erase a).erase b = own
    rw [hgiven]
    exact Multiset.erase_cons_head b own

/-- A balanced trail gives back what it obtains, as often as it obtains
it. -/
theorem Balanced.releases_eq (h : Balanced own es) (a : α) :
    es.count (.release a) = es.count (.acquire a) := by
  have hcount := after_count h.accepts a
  rw [h.after] at hcount
  exact Nat.add_left_cancel hcount

end Balanced

-- ================================================================ programs

/-- What a program comes to. -/
inductive Traced (α β : Type) where
  | back (b : β) (es : List (Entry α))
  | gone (es : List (Entry α))
  deriving Repr, DecidableEq

namespace Traced

/-- The trail, whether the program comes back or not. -/
def entries : Traced α β → List (Entry α)
  | back _ es => es
  | gone es => es

/-- Put a trail in front. -/
def behind (es : List (Entry α)) : Traced α β → Traced α β
  | back b es' => back b (es ++ es')
  | gone es' => gone (es ++ es')

instance : Monad (Traced α) where
  pure b := back b []
  bind
    | back b es, f => behind es (f b)
    | gone es, _ => gone es

/-- One line of the trail. -/
def emit (e : Entry α) : Traced α Unit := back () [e]

/-- The program does not come back. -/
def stop : Traced α β := gone []

/-- From `own` the trail is accepted, and leaves at least `held`. -/
def Keeps (own : Multiset α) (r : Traced α β) (held : β → Multiset α) :
    Prop :=
  ledger.Accepts own r.entries ∧
    ∀ b es, r = back b es → held b ≤ ledger.after own es

/-- If the program comes back, it is with such a value. -/
def Gives (r : Traced α β) (P : β → Prop) : Prop :=
  ∀ b es, r = back b es → P b

section Gives

omit [DecidableEq α]

variable {r : Traced α β} {P : β → Prop} {Q : γ → Prop}

/-- What does not return gives everything. -/
theorem Gives.stop : Gives (stop : Traced α β) P := nofun

/-- A value gives what holds of it. -/
theorem Gives.pure {b : β} (h : P b) : Gives (pure b : Traced α β) P := by
  intro b' es heq
  obtain ⟨rfl, -⟩ := Traced.back.inj heq
  exact h

/-- A branch gives what both ways give. -/
theorem Gives.ite {p : Prop} [Decidable p] {r' : Traced α β}
    (h : Gives r P) (h' : Gives r' P) : Gives (if p then r else r') P := by
  by_cases hp : p
  · rwa [if_pos hp]
  · rwa [if_neg hp]

/-- A sequence gives what its second part gives from what the first does. -/
theorem Gives.bind {f : β → Traced α γ} (h : Gives r P)
    (hf : ∀ b, P b → Gives (f b) Q) : Gives (r >>= f) Q := by
  cases r with
  | gone es => exact nofun
  | back b es =>
      intro c es' heq
      have heq' : behind es (f b) = back c es' := heq
      cases hfb : f b with
      | gone es'' => rw [hfb] at heq'; cases heq'
      | back c' es'' =>
          rw [hfb] at heq'
          obtain ⟨rfl, -⟩ := Traced.back.inj heq'
          exact hf b (h b es rfl) c' es'' hfb

/-- What a program comes to is no matter. -/
theorem Gives.then {r : Traced α Unit} {f : Unit → Traced α γ}
    (h : Gives (f ()) Q) : Gives (r >>= f) Q := by
  have hr : Gives r fun _ => True := fun _ _ _ => trivial
  exact hr.bind fun _ _ => h

end Gives

variable {own own' : Multiset α} {r : Traced α β} {held held' : β → Multiset α}

/-- What does not return keeps the account, up to there. -/
theorem Keeps.stop : Keeps own (stop : Traced α β) held := ⟨trivial, nofun⟩

/-- A value is kept with what it holds. -/
theorem Keeps.pure {b : β} (h : held b ≤ own) :
    Keeps own (pure b : Traced α β) held := by
  refine ⟨trivial, fun b' es heq => ?_⟩
  obtain ⟨rfl, rfl⟩ := Traced.back.inj heq
  exact h

/-- An entry that is in order is booked. -/
theorem Keeps.emit {e : Entry α} (h : ledger.ok own e) :
    Keeps own (emit e) fun _ => ledger.see own e := by
  refine ⟨⟨h, trivial⟩, fun b es heq => ?_⟩
  obtain ⟨-, rfl⟩ := Traced.back.inj heq
  exact le_refl _

/-- A smaller claim, from more. -/
theorem Keeps.weaken (h : Keeps own r held) (hown : own ≤ own')
    (hheld : ∀ b, held' b ≤ held b) : Keeps own' r held' := by
  obtain ⟨hacc, hafter⟩ := ledger_mono hown h.1
  refine ⟨hacc, fun b es heq => ?_⟩
  rw [heq] at hafter
  exact (hheld b).trans ((h.2 b es heq).trans hafter)

/-- What needs nothing. -/
theorem Keeps.of_zero (h : Keeps 0 r held) : Keeps own r held :=
  h.weaken (Multiset.zero_le own) fun _ => le_refl _

/-- What a program does not touch stays. -/
theorem Keeps.frame (h : Keeps own r held) (rest : Multiset α) :
    Keeps (rest + own) r fun b => rest + held b := by
  obtain ⟨hacc, hafter⟩ := ledger_frame h.1 rest
  refine ⟨hacc, fun b es heq => ?_⟩
  rw [heq] at hafter
  show rest + held b ≤ ledger.after (rest + own) es
  rw [show ledger.after (rest + own) es = rest + ledger.after own es from
    hafter]
  exact Multiset.add_le_add_left (h.2 b es heq)

/-- One program after the other. -/
theorem Keeps.bind {f : β → Traced α γ} {heldf : γ → Multiset α}
    (h : Keeps own r held) (hf : ∀ b, Keeps (held b) (f b) heldf) :
    Keeps own (r >>= f) heldf := by
  cases r with
  | gone es => exact ⟨h.1, nofun⟩
  | back b es =>
      have hrest : Keeps (ledger.after own es) (f b) heldf :=
        (hf b).weaken (h.2 b es rfl) fun _ => le_refl _
      obtain ⟨hacc, hafter⟩ := hrest
      show Keeps own (behind es (f b)) heldf
      cases hfb : f b with
      | gone es' =>
          rw [hfb] at hacc
          exact ⟨Watch.accepts_append.mpr ⟨h.1, hacc⟩, nofun⟩
      | back c es' =>
          rw [hfb] at hacc
          refine ⟨Watch.accepts_append.mpr ⟨h.1, hacc⟩, fun c' es'' heq => ?_⟩
          obtain ⟨rfl, rfl⟩ := Traced.back.inj heq
          rw [Watch.after_append]
          exact hafter c es' hfb

end Traced

end Machine
