import Backtrack.Arith
import Mathlib.Logic.Relation

/-!
# Expressions — the language of arithmetic

An expression is a chain of terms with `+` between them, a term a chain of factors with `*` between
them, and a factor a row of digits or an expression in parentheses. `Expression s v` says that the
text `s` is such an expression and has the value `v`, with the operations made from left to right.

The language is about texts; a parser goes from place to place of one input. `Reads` is the bridge:
from here to there the input reads as a word with this value. For each of the three layers there is
a lemma that says how its words are read piece by piece.
-/

namespace Backtrack.Arith

/-- Which texts stand for which values. -/
abbrev Meaning := List Char → Int → Prop

/-- Operands with an operator between them, combined from left to right. -/
inductive Chained (operator : Char) (combine : Int → Int → Int) (operand : Meaning) :
    List Char → Int → Prop where
  | single {s : List Char} {v : Int} (first : operand s v) :
      Chained operator combine operand s v
  | more {s t : List Char} {v w : Int} (before : Chained operator combine operand s v)
      (last : operand t w) : Chained operator combine operand (s ++ operator :: t) (combine v w)

/-- The number that the digits spell, with saturation after each of them. -/
def decimal (digits : List Char) : Int :=
  digits.foldl (fun value c => Saturating.snoc value (digitValue c)) 0

/-- A row of digits, at least one. -/
def Number : Meaning := fun s v =>
  s ≠ [] ∧ (∀ c ∈ s, c.isDigit = true) ∧ v = decimal s

/-- A number, or an expression in parentheses. -/
inductive Factor : List Char → Int → Prop where
  | number {s : List Char} {v : Int} (digits : Number s v) : Factor s v
  | parenthesized {s : List Char} {v : Int}
      (inside : Chained '+' Saturating.add (Chained '*' Saturating.mul Factor) s v) :
      Factor ('(' :: (s ++ [')'])) v

/-- A product of factors. -/
abbrev Term : Meaning :=
  Chained '*' Saturating.mul Factor

/-- A sum of terms. -/
abbrev Expression : Meaning :=
  Chained '+' Saturating.add Term

/-! ## Stretches of an input -/

/-- The characters from position `j` up to, not including, `k`. -/
def stretch (input : List Char) (j k : Nat) : List Char :=
  (input.drop j).take (k - j)

/-- From `j` to `k` the input reads as a word with the value `v`. -/
def Reads (input : List Char) (L : Meaning) (j : Nat) (v : Int) (k : Nat) : Prop :=
  j ≤ k ∧ k ≤ input.length ∧ L (stretch input j k) v

section

variable {input : List Char} {j k l : Nat}

theorem stretch_append (hjk : j ≤ k) (hkl : k ≤ l) :
    stretch input j l = stretch input j k ++ stretch input k l := by
  have hdrop : input.drop k = (input.drop j).drop (k - j) := by
    rw [List.drop_drop, Nat.add_sub_cancel' hjk]
  rw [stretch, stretch, stretch, hdrop, show l - j = (k - j) + (l - k) by omega, List.take_add]

theorem stretch_succ {c : Char} (hc : input[j]? = some c) : stretch input j (j + 1) = [c] := by
  obtain ⟨hj, rfl⟩ := List.getElem?_eq_some_iff.mp hc
  rw [stretch, Nat.add_sub_cancel_left, List.drop_eq_getElem_cons hj]
  rfl

theorem stretch_cons {c : Char} (hc : input[j]? = some c) (hjk : j < k) :
    stretch input j k = c :: stretch input (j + 1) k := by
  rw [stretch_append (Nat.le_add_right j 1) hjk, stretch_succ hc]
  rfl

theorem length_stretch (hk : k ≤ input.length) : (stretch input j k).length = k - j := by
  rw [stretch, List.length_take, List.length_drop]
  omega

theorem stretch_eq_cons {c : Char} {s : List Char} (hk : k ≤ input.length)
    (h : stretch input j k = c :: s) :
    j < k ∧ input[j]? = some c ∧ stretch input (j + 1) k = s := by
  have hlength := congrArg List.length h
  rw [length_stretch hk, List.length_cons] at hlength
  have hj : input[j]? = some input[j] := List.getElem?_eq_getElem (by omega)
  rw [stretch_cons hj (by omega)] at h
  obtain ⟨rfl, rfl⟩ := List.cons.inj h
  exact ⟨by omega, hj, rfl⟩

/-- Where a stretch falls into two parts, they are stretches too. -/
theorem stretch_eq_append {s t : List Char} (hk : k ≤ input.length) (hjk : j ≤ k)
    (h : stretch input j k = s ++ t) :
    ∃ i, j ≤ i ∧ i ≤ k ∧ stretch input j i = s ∧ stretch input i k = t := by
  have hlength := congrArg List.length h
  rw [length_stretch hk, List.length_append] at hlength
  refine ⟨j + s.length, by omega, by omega, ?_⟩
  rw [stretch_append (show j ≤ j + s.length by omega) (by omega)] at h
  exact List.append_inj h (by rw [length_stretch (by omega)]; omega)

end

/-! ## Chains of readings -/

section

variable {input : List Char}

/-- From one end to the next along a chain: an operator, and a reading of an operand behind it. -/
def Onward (input : List Char) (operator : Char) (combine : Int → Int → Int) (L : Meaning)
    (x y : Int × Nat) : Prop :=
  input[x.2]? = some operator ∧ ∃ w, Reads input L (x.2 + 1) w y.2 ∧ y.1 = combine x.1 w

/-- A chain is read by reading its first operand and going onward. -/
theorem reads_chained_iff {operator : Char} {combine : Int → Int → Int} {L : Meaning} {j k : Nat}
    {v : Int} : Reads input (Chained operator combine L) j v k ↔ ∃ x : Int × Nat,
      Reads input L j x.1 x.2 ∧
      Relation.ReflTransGen (Onward input operator combine L) x (v, k) := by
  constructor
  · rintro ⟨hjk, hk, h⟩
    generalize hs : stretch input j k = s at h
    induction h generalizing k with
    | @single s v first => exact ⟨(v, k), ⟨hjk, hk, hs ▸ first⟩, .refl⟩
    | @more s t v w _ last ih =>
        obtain ⟨i, hji, hik, hleft, hright⟩ := stretch_eq_append hk hjk hs
        obtain ⟨hlt, hop, hright⟩ := stretch_eq_cons hk hright
        obtain ⟨x, hx, hsteps⟩ := ih hji (by omega) hleft
        exact ⟨x, hx, hsteps.tail ⟨hop, w, ⟨hlt, hk, hright ▸ last⟩, rfl⟩⟩
  · rintro ⟨⟨w, i⟩, ⟨hji, hi, hfirst⟩, hsteps⟩
    generalize hy : (v, k) = y at hsteps
    induction hsteps generalizing v k with
    | refl =>
        cases hy
        exact ⟨hji, hi, .single hfirst⟩
    | @tail x y _ hstep ih =>
        subst hy
        obtain ⟨hjx, hx, hbefore⟩ := ih rfl
        obtain ⟨hop, u, ⟨hle, hk, hlast⟩, rfl⟩ := hstep
        refine ⟨by omega, hk, ?_⟩
        rw [stretch_append hjx (show x.2 ≤ k by omega), stretch_cons hop (by omega)]
        exact .more hbefore hlast

theorem decimal_append (digits : List Char) (c : Char) :
    decimal (digits ++ [c]) = Saturating.snoc (decimal digits) (digitValue c) := by
  simp [decimal]

/-- One more digit. -/
def Digit (input : List Char) (x y : Int × Nat) : Prop :=
  ∃ c, input[x.2]? = some c ∧ c.isDigit = true ∧
    y = (Saturating.snoc x.1 (digitValue c), x.2 + 1)

/-- A number is read digit by digit. -/
theorem reads_number_iff {j k : Nat} {v : Int} :
    Reads input Number j v k ↔ Relation.TransGen (Digit input) (0, j) (v, k) := by
  have one : ∀ {k : Nat} {c : Char}, j ≤ k → input[k]? = some c →
      stretch input j (k + 1) = stretch input j k ++ [c] := by
    intro k c hjk hc
    rw [stretch_append hjk (Nat.le_add_right k 1), stretch_succ hc]
  have none : stretch input j j = [] := by
    rw [stretch, Nat.sub_self, List.take_zero]
  constructor
  · rintro ⟨hjk, hk, hne, hdigits, rfl⟩
    have hlt : j < k := Nat.lt_of_le_of_ne hjk fun h => hne (h ▸ none)
    clear hne
    induction k with
    | zero => omega
    | succ k ih =>
        have hc : input[k]? = some input[k] := List.getElem?_eq_getElem hk
        rw [one (by omega) hc] at hdigits ⊢
        obtain ⟨hdigits, hdigit⟩ := List.forall_mem_append.mp hdigits
        have hstep : Digit input (decimal (stretch input j k), k)
            (decimal (stretch input j k ++ [input[k]]), k + 1) :=
          ⟨_, hc, hdigit _ (List.mem_singleton_self _), by rw [decimal_append]⟩
        rcases Nat.eq_or_lt_of_le (Nat.le_of_lt_succ hlt) with rfl | hlt
        · rw [none] at hstep ⊢
          exact .single hstep
        · exact .tail (ih (by omega) (by omega) hdigits hlt) hstep
  · intro h
    generalize hy : (v, k) = y at h
    induction h generalizing v k with
    | single hstep =>
        obtain ⟨c, hc, hdigit, rfl⟩ := hstep
        cases hy
        obtain ⟨hj, -⟩ := List.getElem?_eq_some_iff.mp hc
        refine ⟨Nat.le_succ j, hj, ?_⟩
        rw [one (Nat.le_refl j) hc, none, List.nil_append]
        exact ⟨List.cons_ne_nil _ _, List.forall_mem_singleton.mpr hdigit, rfl⟩
    | @tail x y _ hstep ih =>
        obtain ⟨c, hc, hdigit, rfl⟩ := hstep
        cases hy
        obtain ⟨hjx, -, -, hdigits, hvalue⟩ := ih rfl
        obtain ⟨hx, -⟩ := List.getElem?_eq_some_iff.mp hc
        refine ⟨by omega, hx, ?_⟩
        rw [one hjx hc]
        refine ⟨by simp, List.forall_mem_append.mpr
          ⟨hdigits, List.forall_mem_singleton.mpr hdigit⟩, ?_⟩
        rw [decimal_append, ← hvalue]

/-- An expression in parentheses is read from the one to the other. -/
theorem reads_factor_iff {j k : Nat} {v : Int} :
    Reads input Factor j v k ↔ Reads input Number j v k ∨
      input[j]? = some '(' ∧ ∃ i, Reads input Expression (j + 1) v i ∧ input[i]? = some ')' ∧
        k = i + 1 := by
  constructor
  · rintro ⟨hjk, hk, h⟩
    generalize hs : stretch input j k = s at h
    cases h with
    | number digits => exact Or.inl ⟨hjk, hk, hs ▸ digits⟩
    | @parenthesized s v inside =>
        obtain ⟨hlt, hopen, hs⟩ := stretch_eq_cons hk hs
        obtain ⟨i, hji, hik, hleft, hright⟩ := stretch_eq_append hk hlt hs
        obtain ⟨hlt', hclose, hend⟩ := stretch_eq_cons hk hright
        have hlength := congrArg List.length hend
        rw [length_stretch hk, List.length_nil] at hlength
        exact Or.inr ⟨hopen, i, ⟨hji, by omega, hleft ▸ inside⟩, hclose, by omega⟩
  · rintro (⟨hjk, hk, digits⟩ | ⟨hopen, i, ⟨hji, hi, inside⟩, hclose, rfl⟩)
    · exact ⟨hjk, hk, .number digits⟩
    · obtain ⟨hlt, -⟩ := List.getElem?_eq_some_iff.mp hclose
      refine ⟨by omega, hlt, ?_⟩
      rw [stretch_cons hopen (by omega), stretch_append hji (Nat.le_succ i), stretch_succ hclose]
      exact .parenthesized inside

end

end Backtrack.Arith
