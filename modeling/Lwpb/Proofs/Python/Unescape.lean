/-
What unescaping comes to, on any string.

`unescape` looks every match of its regular expression up in a table. Read
by hand, a string is cut into pieces from left to right (`pieces`) and each
piece is a byte (`unescaped`). The expression matches hex digits in any mix
of upper and lower case, and the table has the pairs that are written in one
case: the two agree exactly as long as no pair has letters of both
(`unescape_iff`). For a pair that has, the lookup is an exception.

The reading by hand takes digits as numbers (`hexValue`) and looks nothing
up. That the code cuts the same pieces is one lemma (`unescape_eq_mapM`);
the rest is about the table, which is built from the 256 bytes, each in
two spellings: what it has is exactly the pairs that are not mixed
(`lookup_pair`), and such a pair is looked up to its number.
-/
import Lwpb.Lib.Sequence
import Lwpb.Proofs.Python.Percent

namespace Lwpb.Python

-- ================================================================== pieces

/-- What is read as one byte. -/
inductive Piece where
  | char (c : UInt8)
  | percent
  | pair (a b : UInt8)
  deriving Repr, DecidableEq

/-- A string, cut from left to right. -/
def pieces : Bytes → List Piece
  | [] => []
  | c :: cs =>
      if c ≠ 37 then .char c :: pieces cs
      else
        match cs with
        | 37 :: cs => .percent :: pieces cs
        | a :: b :: cs =>
            if isHexDigit a && isHexDigit b then .pair a b :: pieces cs
            else .char 37 :: pieces (a :: b :: cs)
        | cs => .char 37 :: pieces cs

namespace Piece

def text : Piece → Bytes
  | .char c => [c]
  | .percent => [37, 37]
  | .pair a b => [37, a, b]

/-- A lower case letter, of the hex digits. -/
def IsLower (c : UInt8) : Prop := 97 ≤ c

/-- An upper case letter, of the hex digits. -/
def IsUpper (c : UInt8) : Prop := 65 ≤ c ∧ c < 97

instance (c : UInt8) : Decidable (IsLower c) :=
  inferInstanceAs (Decidable (97 ≤ c))

instance (c : UInt8) : Decidable (IsUpper c) :=
  inferInstanceAs (Decidable (65 ≤ c ∧ c < 97))

/-- The number of a hex digit in any case. -/
def hexValue (c : UInt8) : Nat :=
  if IsLower c then c.toNat - 87
  else if IsUpper c then c.toNat - 55
  else c.toNat - 48

def byte : Piece → UInt8
  | .char c => c
  | .percent => 37
  | .pair a b => UInt8.ofNat (16 * hexValue a + hexValue b)

/-- Two digits, one a letter of lower case and the other one of upper
case. -/
def Mixed : Piece → Prop
  | .pair a b => (IsLower a ∧ IsUpper b) ∨ (IsUpper a ∧ IsLower b)
  | _ => False

/-- What the code makes of it. -/
def lookup : Piece → Option UInt8
  | .char c => some c
  | .percent => hextochr [37]
  | .pair a b => hextochr [a, b]

end Piece

/-- The bytes that the pieces of a string stand for. -/
def unescaped (s : Bytes) : Bytes := (pieces s).map Piece.byte

/-- Nothing is lost between the pieces. -/
theorem pieces_text (s : Bytes) : (pieces s).flatMap Piece.text = s := by
  fun_induction pieces s with
  | case1 => rfl
  | case2 c cs h ih => rw [List.flatMap_cons, ih]; rfl
  | case3 c h cs ih =>
      rw [List.flatMap_cons, ih, not_not.mp h]
      rfl
  | case4 c h a b cs hne hhex ih =>
      rw [List.flatMap_cons, ih, not_not.mp h]
      rfl
  | case5 c h a b cs hne hhex ih =>
      rw [List.flatMap_cons, ih, not_not.mp h]
      rfl
  | case6 c h cs hne hno ih =>
      rw [List.flatMap_cons, ih, not_not.mp h]
      rfl

/-- A percent sign in front of two hex digits. -/
theorem unescape_digits {a b : UInt8} {cs : Bytes} (ha : a ≠ 37)
    (h : (isHexDigit a && isHexDigit b) = true) :
    unescape (37 :: a :: b :: cs)
      = (hextochr [a, b]).bind fun c => (unescape cs).map (c :: ·) := by
  conv_lhs => unfold unescape
  rw [if_neg (not_not_intro rfl)]
  split
  · next heq => exact absurd (List.cons.inj heq).1 ha
  · next heq =>
      injection heq with h₁ heq
      injection heq with h₂ h₃
      subst h₁ h₂ h₃
      rw [if_pos h]
      rfl
  · next hno => exact absurd rfl (hno a b cs)

/-- A percent sign in front of anything else. -/
theorem unescape_stray {cs : Bytes} (hpercent : ∀ cs', cs = 37 :: cs' → False)
    (hdigits : ∀ a b cs', cs = a :: b :: cs' →
      (isHexDigit a && isHexDigit b) ≠ true) :
    unescape (37 :: cs) = (unescape cs).map (37 :: ·) := by
  conv_lhs => unfold unescape
  rw [if_neg (not_not_intro rfl)]
  split
  · next cs' => exact absurd rfl fun heq => hpercent cs' heq
  · next a b cs' _ => rw [if_neg (hdigits a b cs' rfl)]
  · rfl

/-- The code cuts the same pieces. -/
theorem unescape_eq_mapM (s : Bytes) :
    unescape s = (pieces s).mapM Piece.lookup := by
  have hcons : ∀ (p : Piece) (ps : List Piece),
      (p :: ps).mapM Piece.lookup
        = p.lookup.bind fun c => (ps.mapM Piece.lookup).map (c :: ·) := by
    intro p ps
    rw [List.mapM_cons]
    cases p.lookup <;> cases ps.mapM Piece.lookup <;> rfl
  fun_induction pieces s with
  | case1 => rfl
  | case2 c cs h ih =>
      rw [unescape_cons h, ih, hcons]
      rfl
  | case3 c h cs ih =>
      rw [not_not.mp h, unescape_percent, ih, hcons]
      rfl
  | case4 c h a b cs hne hhex ih =>
      rw [not_not.mp h, unescape_digits hne hhex, ih, hcons]
      rfl
  | case5 c h a b cs hne hhex ih =>
      have hstray := @unescape_stray (a :: b :: cs)
        (fun cs' heq => hne (List.cons.inj heq).1) fun a' b' cs' heq => by
          cases heq
          exact hhex
      rw [not_not.mp h, hstray, ih, hcons]
      rfl
  | case6 c h cs hne hno ih =>
      rw [not_not.mp h, unescape_stray hne fun a b cs' heq =>
        absurd heq (hno a b cs'), ih, hcons]
      rfl

-- ================================================================== lookups

namespace Piece

/-- The digits of one case, by number. -/
theorem hexDigit_hexValue {c : UInt8} (h : isHexDigit c = true) :
    hexValue c < 16 ∧ (¬ IsLower c → hexDigit true (hexValue c) = c) ∧
      (¬ IsUpper c → hexDigit false (hexValue c) = c) := by
  have hall : ∀ n < 256, isHexDigit (UInt8.ofNat n) = true →
      hexValue (UInt8.ofNat n) < 16 ∧
        (¬ IsLower (UInt8.ofNat n) →
          hexDigit true (hexValue (UInt8.ofNat n)) = UInt8.ofNat n) ∧
        (¬ IsUpper (UInt8.ofNat n) →
          hexDigit false (hexValue (UInt8.ofNat n)) = UInt8.ofNat n) := by
    decide +kernel
  have hc := hall c.toNat c.toNat_lt
  rw [UInt8.ofNat_toNat] at hc
  exact hc h

/-- `'%X'` writes no lower case letter, and `'%x'` no upper case one. -/
theorem hexDigit_case : ∀ n < 16,
    ¬ IsLower (hexDigit true n) ∧ ¬ IsUpper (hexDigit false n) := by
  decide

theorem hex2_hexValue {u : Bool} {a b : UInt8} (ha : hexValue a < 16)
    (hb : hexValue b < 16) (ha' : hexDigit u (hexValue a) = a)
    (hb' : hexDigit u (hexValue b) = b) :
    hex2 u (byte (.pair a b)) = [a, b] := by
  have hnat : (byte (.pair a b)).toNat = 16 * hexValue a + hexValue b := by
    show (UInt8.ofNat (16 * hexValue a + hexValue b)).toNat = _
    rw [UInt8.toNat_ofNat']
    omega
  unfold hex2
  rw [hnat, show (16 * hexValue a + hexValue b) / 16 = hexValue a by omega,
    show (16 * hexValue a + hexValue b) % 16 = hexValue b by omega, ha', hb']

/-- What the table has of one case, it has for the pairs written in it. -/
theorem hexChar_some {u : Bool} {key : Bytes} {c : UInt8}
    (h : hexChar u key = some c) : hex2 u c = key := by
  unfold hexChar at h
  simpa using List.find?_some h

theorem hextochr_pair {a b : UInt8} :
    hextochr [a, b] = (hexChar true [a, b]).or (hexChar false [a, b]) := by
  unfold hextochr
  rw [if_neg fun heq => by cases heq]

/-- The digits that a pair in the table is written with. -/
theorem hexChar_digits {u : Bool} {a b c : UInt8}
    (h : hexChar u [a, b] = some c) :
    ∃ m < 16, ∃ n < 16, a = hexDigit u m ∧ b = hexDigit u n := by
  have hc := c.toNat_lt
  obtain ⟨ha, hb⟩ := List.cons.inj (hexChar_some h)
  exact ⟨_, by omega, _, by omega, ha.symm, (List.cons.inj hb).1.symm⟩

/-- No case has a mixed pair. -/
theorem hexChar_mixed {u : Bool} {a b : UInt8} (h : Mixed (.pair a b)) :
    hexChar u [a, b] = none := by
  cases hfound : hexChar u [a, b] with
  | none => rfl
  | some c =>
      obtain ⟨m, hm, n, hn, rfl, rfl⟩ := hexChar_digits hfound
      obtain ⟨hmlow, hmup⟩ := hexDigit_case m hm
      obtain ⟨hnlow, hnup⟩ := hexDigit_case n hn
      cases u with
      | true =>
          rcases h with ⟨hlow, -⟩ | ⟨-, hlow⟩
          · exact absurd hlow hmlow
          · exact absurd hlow hnlow
      | false =>
          rcases h with ⟨-, hup⟩ | ⟨hup, -⟩
          · exact absurd hup hnup
          · exact absurd hup hmup

/-- Digits that are not mixed are of one case. -/
theorem one_case {a b : UInt8} (h : ¬ Mixed (.pair a b)) :
    (¬ IsLower a ∧ ¬ IsLower b) ∨ (¬ IsUpper a ∧ ¬ IsUpper b) := by
  have hno : ∀ c, IsLower c → ¬ IsUpper c := fun c hlow hup =>
    UInt8.not_le.mpr hup.2 hlow
  have hnot := not_or.mp h
  by_cases hlow : IsLower a ∨ IsLower b
  · refine .inr ?_
    rcases hlow with ha | hb
    · exact ⟨hno a ha, fun hup => hnot.1 ⟨ha, hup⟩⟩
    · exact ⟨fun hup => hnot.2 ⟨hup, hb⟩, hno b hb⟩
  · exact .inl (not_or.mp hlow)

/-- A pair of digits is in the table exactly if it is not mixed. -/
theorem lookup_pair {a b : UInt8} (ha : isHexDigit a = true)
    (hb : isHexDigit b = true) :
    lookup (.pair a b) = some (byte (.pair a b)) ↔ ¬ Mixed (.pair a b) := by
  obtain ⟨halt, haupper, halower⟩ := hexDigit_hexValue ha
  obtain ⟨hblt, hbupper, hblower⟩ := hexDigit_hexValue hb
  show hextochr [a, b] = _ ↔ _
  rw [hextochr_pair]
  constructor
  · intro h hmixed
    rw [hexChar_mixed hmixed, hexChar_mixed hmixed] at h
    cases h
  · intro h
    rcases one_case h with ⟨hna, hnb⟩ | ⟨hna, hnb⟩
    · have hkey := hex2_hexValue halt hblt (haupper hna) (hbupper hnb)
      rw [hexChar_of_hex2 hkey]
      rfl
    · have hkey := hex2_hexValue halt hblt (halower hna) (hblower hnb)
      rw [hexChar_of_hex2 hkey]
      cases hupper : hexChar true [a, b] with
      | none => rfl
      | some c =>
          -- what upper case has for it is the same
          rw [hex2_inj ((hexChar_some hupper).trans hkey.symm)]
          rfl

end Piece

-- ================================================================== results

/-- The pairs that a string is cut into are hex digits. -/
theorem pair_of_mem_pieces {s : Bytes} {a b : UInt8}
    (h : .pair a b ∈ pieces s) :
    isHexDigit a = true ∧ isHexDigit b = true := by
  fun_induction pieces s with
  | case1 => cases h
  | case2 c cs hc ih =>
      rcases List.mem_cons.mp h with heq | h
      · cases heq
      · exact ih h
  | case3 c hc cs ih =>
      rcases List.mem_cons.mp h with heq | h
      · cases heq
      · exact ih h
  | case4 c hc a' b' cs hne hhex ih =>
      rcases List.mem_cons.mp h with heq | h
      · cases heq
        exact Bool.and_eq_true_iff.mp hhex
      · exact ih h
  | case5 c hc a' b' cs hne hhex ih =>
      rcases List.mem_cons.mp h with heq | h
      · cases heq
      · exact ih h
  | case6 c hc cs hne hno ih =>
      rcases List.mem_cons.mp h with heq | h
      · cases heq
      · exact ih h

/-- A piece of a string is looked up to its byte exactly if it is not
mixed. -/
theorem lookup_piece {s : Bytes} {p : Piece} (h : p ∈ pieces s) :
    p.lookup = some p.byte ↔ ¬ p.Mixed := by
  cases p with
  | char c => exact iff_of_true rfl id
  | percent => exact iff_of_true rfl id
  | pair a b =>
      obtain ⟨ha, hb⟩ := pair_of_mem_pieces h
      exact Piece.lookup_pair ha hb

/-- A string is unescaped as it reads exactly if no pair of hex digits that
it is cut into has a letter of lower case and one of upper case. -/
theorem unescape_iff (s : Bytes) :
    unescape s = some (unescaped s) ↔ ∀ p ∈ pieces s, ¬ p.Mixed := by
  rw [unescape_eq_mapM, unescaped, Sequence.mapM_eq_map]
  constructor
  · intro h p hp
    exact (lookup_piece hp).mp (h p hp)
  · intro h p hp
    exact (lookup_piece hp).mpr (h p hp)

/-- `%aB` is 171, and unescaping it is an exception. -/
theorem unescape_mixed :
    unescaped [37, 97, 66] = [171] ∧ unescape [37, 97, 66] = none := by
  decide +kernel

end Lwpb.Python
