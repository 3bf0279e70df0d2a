import Backtrack.Proofs.Calculation
import Mathlib.Data.List.Induction
import Mathlib.Data.Nat.Digits.Defs

/-!
# Exactness — saturation is one clamp at the end

Every step of a calculation saturates: every further digit of a number, every product and every sum.
Nevertheless nothing is lost but what lies behind the greatest number. Capping a natural number
commutes with the three operations, so a calculation comes to the exact value, capped once.

What the exact value is is said of trees. A tree is an expression as the grammar derives it, and
has a text and a natural number for its value, neither of which knows of saturation.
-/

namespace Backtrack.Arith

/-! ## Trees -/

/-- A decimal digit. -/
abbrev DigitChar := { c : Char // c.isDigit = true }

/-- The number that a digit stands for. -/
def DigitChar.value (d : DigitChar) : Nat :=
  d.val.toNat - '0'.toNat

mutual

/-- A factor as it is written: a row of digits, at least one, or a sum in parentheses. -/
inductive FactorTree where
  | number (first : DigitChar) (rest : List DigitChar)
  | parenthesized (inside : SumTree)

/-- A product as it is written: a factor, or a product and one factor more. -/
inductive ProductTree where
  | single (factor : FactorTree)
  | times (before : ProductTree) (last : FactorTree)

/-- A sum as it is written: a product, or a sum and one product more. -/
inductive SumTree where
  | single (product : ProductTree)
  | plus (before : SumTree) (last : ProductTree)

end

mutual

/-- What is written for a factor. -/
def FactorTree.text : FactorTree → List Char
  | .number first rest    => (first :: rest).map Subtype.val
  | .parenthesized inside => '(' :: (inside.text ++ [')'])

/-- What is written for a product. -/
def ProductTree.text : ProductTree → List Char
  | .single factor     => factor.text
  | .times before last => before.text ++ '*' :: last.text

/-- What is written for a sum. -/
def SumTree.text : SumTree → List Char
  | .single product   => product.text
  | .plus before last => before.text ++ '+' :: last.text

end

mutual

/-- The exact value of a factor: its digits, the last one counting least, or what is inside. -/
def FactorTree.value : FactorTree → Nat
  | .number first rest    => Nat.ofDigits 10 ((first :: rest).reverse.map DigitChar.value)
  | .parenthesized inside => inside.value

/-- The exact value of a product. -/
def ProductTree.value : ProductTree → Nat
  | .single factor     => factor.value
  | .times before last => before.value * last.value

/-- The exact value of a sum, which has no bound. -/
def SumTree.value : SumTree → Nat
  | .single product   => product.value
  | .plus before last => before.value + last.value

end

/-! ## Capping -/

/-- A natural number, or the greatest signed 64-bit number if that is less. -/
def cap (n : Nat) : Int :=
  min n Saturating.greatest

theorem cap_eq_of_le {n : Nat} (h : (n : Int) ≤ Saturating.greatest) : cap n = n :=
  min_eq_left h

theorem cap_eq_greatest {n : Nat} (h : Saturating.greatest ≤ n) : cap n = Saturating.greatest :=
  min_eq_right h

theorem cap_nonneg (n : Nat) : 0 ≤ cap n :=
  le_min (Int.natCast_nonneg n) (by decide)

theorem clamp_eq_cap (n : Nat) : Saturating.clamp n = cap n := by
  have h := cap_nonneg n
  rw [Saturating.clamp, min_comm]
  exact max_eq_right (le_trans (by decide) h)

theorem clamp_eq_greatest {x : Int} (h : Saturating.greatest ≤ x) :
    Saturating.clamp x = Saturating.greatest := by
  rw [Saturating.clamp, min_eq_left h]
  rfl

theorem add_cap (a b : Nat) : Saturating.add (cap a) (cap b) = cap (a + b) := by
  simp only [Saturating.add, Saturating.clamp, cap, Saturating.greatest, Saturating.least]
  omega

/-- A factor of nought makes nought of a capped factor too; else the product is no less than either
    factor, so it is capped if one of them is. -/
theorem mul_cap (a b : Nat) : Saturating.mul (cap a) (cap b) = cap (a * b) := by
  have hgreatest : (0 : Int) ≤ Saturating.greatest := by decide
  have large : ∀ {a b : Nat}, 0 < b → Saturating.greatest ≤ a →
      Saturating.mul (cap a) (cap b) = cap (a * b) := by
    intro a b hb ha
    have hcap : 1 ≤ cap b := le_min (by exact_mod_cast hb) (by decide)
    have hproduct : Saturating.greatest ≤ ((a * b : Nat) : Int) := by
      push_cast
      exact le_trans ha (le_mul_of_one_le_right (by positivity) (by exact_mod_cast hb))
    rw [Saturating.mul, cap_eq_greatest ha, cap_eq_greatest hproduct]
    exact clamp_eq_greatest (le_mul_of_one_le_right hgreatest hcap)
  rcases Nat.eq_zero_or_pos a with rfl | ha
  · simp [Saturating.mul, cap, Saturating.clamp, Saturating.greatest, Saturating.least]
  rcases Nat.eq_zero_or_pos b with rfl | hb
  · simp [Saturating.mul, cap, Saturating.clamp, Saturating.greatest, Saturating.least]
  rcases le_total Saturating.greatest (a : Int) with hle | hle
  · exact large hb hle
  rcases le_total Saturating.greatest (b : Int) with hle' | hle'
  · have h := large (a := b) (b := a) ha hle'
    rwa [Saturating.mul, mul_comm, mul_comm b a] at h
  · rw [Saturating.mul, cap_eq_of_le hle, cap_eq_of_le hle', ← Nat.cast_mul]
    exact clamp_eq_cap (a * b)

example : Saturating.mul (cap (2 ^ 64)) (cap 0) = 0 ∧
    Saturating.mul (cap (2 ^ 64)) (cap 2) = cap (2 ^ 65) := by decide

theorem DigitChar.code_bounds (d : DigitChar) :
    '0'.toNat ≤ d.val.toNat ∧ d.val.toNat ≤ '9'.toNat := by
  simpa [Char.isDigit, UInt32.le_iff_toNat_le] using d.property

theorem digitValue_eq_cap (d : DigitChar) : digitValue d.val = cap d.value := by
  obtain ⟨hlow, hhigh⟩ := d.code_bounds
  have hsmall : d.value ≤ 9 := Nat.sub_le_sub_right hhigh _
  rw [digitValue, if_pos d.property, cap_eq_of_le (le_trans (Int.ofNat_le.mpr hsmall) (by decide))]
  exact (Nat.cast_sub hlow).symm

/-- One more digit. -/
theorem snoc_cap (n : Nat) (d : DigitChar) :
    Saturating.snoc (cap n) (digitValue d.val) = cap (d.value + 10 * n) := by
  have hten : cap 10 = 10 := rfl
  rw [Saturating.snoc, digitValue_eq_cap, ← hten, mul_cap, add_cap, Nat.add_comm, Nat.mul_comm]

/-- The number that the digits spell. -/
theorem decimal_eq_cap (digits : List DigitChar) :
    decimal (digits.map Subtype.val) =
      cap (Nat.ofDigits 10 (digits.reverse.map DigitChar.value)) := by
  induction digits using List.reverseRecOn with
  | nil => rfl
  | append_singleton digits d ih =>
      rw [List.map_append, List.map_singleton, decimal_append, ih, snoc_cap]
      simp [Nat.ofDigits_cons]

/-! ## Trees and words -/

mutual

/-- What is written for a factor is one, and its value is the exact one, capped. -/
theorem FactorTree.factor_text : (tree : FactorTree) → Factor tree.text (cap tree.value)
  | .number first rest    => by
      refine .number ⟨List.cons_ne_nil _ _, fun c hc => ?_, (decimal_eq_cap _).symm⟩
      obtain ⟨d, -, rfl⟩ := List.mem_map.mp hc
      exact d.property
  | .parenthesized inside => .parenthesized inside.expression_text

/-- The same for a product. -/
theorem ProductTree.term_text : (tree : ProductTree) → Term tree.text (cap tree.value)
  | .single factor     => .single factor.factor_text
  | .times before last => by
      rw [ProductTree.value, ← mul_cap]
      exact .more before.term_text last.factor_text

/-- The same for a sum. -/
theorem SumTree.expression_text : (tree : SumTree) → Expression tree.text (cap tree.value)
  | .single product   => .single product.term_text
  | .plus before last => by
      rw [SumTree.value, ← add_cap]
      exact .more before.expression_text last.term_text

end

/-- A chain is written for a tree if its operands are. -/
theorem Chained.exists_tree {operator : Char} {combine : Int → Int → Int} {operand : Meaning}
    {Leaf Tree : Type} {leafText : Leaf → List Char} {text : Tree → List Char} {n : Nat}
    (single : ∀ leaf, ∃ tree, text tree = leafText leaf)
    (more : ∀ before last, ∃ tree, text tree = text before ++ operator :: leafText last)
    (hleaf : ∀ s v, s.length ≤ n → operand s v → ∃ leaf, leafText leaf = s) {s : List Char}
    {v : Int} (h : Chained operator combine operand s v) (hn : s.length ≤ n) :
    ∃ tree, text tree = s := by
  induction h with
  | @single s v first =>
      obtain ⟨leaf, rfl⟩ := hleaf s v hn first
      exact single leaf
  | @more s t v w _ last ih =>
      rw [List.length_append, List.length_cons] at hn
      obtain ⟨before, rfl⟩ := ih (by omega)
      obtain ⟨leaf, rfl⟩ := hleaf t w (by omega) last
      exact more before leaf

theorem Term.exists_tree {n : Nat}
    (h : ∀ s v, s.length ≤ n → Factor s v → ∃ tree : FactorTree, tree.text = s) {s : List Char}
    {v : Int} (hs : Term s v) (hn : s.length ≤ n) : ∃ tree : ProductTree, tree.text = s :=
  Chained.exists_tree (fun leaf => ⟨.single leaf, rfl⟩)
    (fun before last => ⟨.times before last, rfl⟩) h hs hn

theorem Expression.exists_tree_of_factor {n : Nat}
    (h : ∀ s v, s.length ≤ n → Factor s v → ∃ tree : FactorTree, tree.text = s) {s : List Char}
    {v : Int} (hs : Expression s v) (hn : s.length ≤ n) : ∃ tree : SumTree, tree.text = s :=
  Chained.exists_tree (fun leaf => ⟨.single leaf, rfl⟩)
    (fun before last => ⟨.plus before last, rfl⟩) (fun _ _ hn hs => Term.exists_tree h hs hn) hs hn

/-- Every factor is written for a tree: what stands in parentheses is shorter. -/
theorem Factor.exists_tree {s : List Char} {v : Int} (h : Factor s v) :
    ∃ tree : FactorTree, tree.text = s := by
  induction hn : s.length using Nat.strongRecOn generalizing s v with
  | _ n ih =>
      cases h with
      | number digits =>
          obtain ⟨hne, hdigits, -⟩ := digits
          obtain ⟨first, rest, rfl⟩ := List.exists_cons_of_ne_nil hne
          obtain ⟨hfirst, hrest⟩ := List.forall_mem_cons.mp hdigits
          refine ⟨.number ⟨first, hfirst⟩ (rest.attachWith _ hrest), ?_⟩
          rw [FactorTree.text, List.map_cons, List.attachWith_map_subtype_val]
      | @parenthesized s v inside =>
          simp only [List.length_cons, List.length_append] at hn
          obtain ⟨tree, rfl⟩ := Expression.exists_tree_of_factor
            (fun t w ht hw => ih t.length (by omega) hw rfl) inside (Nat.le_refl s.length)
          exact ⟨.parenthesized tree, rfl⟩

/-- **EXACT UP TO ONE CLAMP.** A text has a value exactly if it is written for a tree, that is, if
    the grammar derives it; and then its value is the exact natural number, or the greatest signed
    64-bit number if that is less. This holds for numbers with any number of digits and expressions
    of any depth, although every digit, every product and every sum saturates by itself. -/
theorem evaluate_eq_exact (text : String) (v : Int) :
    evaluate text = some (.ok v) ↔
      ∃ tree : SumTree, tree.text = text.toList ∧ v = min (tree.value : Int) (2 ^ 63 - 1) := by
  rw [evaluate_eq_ok_iff]
  constructor
  · intro h
    obtain ⟨tree, htext⟩ := Expression.exists_tree_of_factor (fun _ _ _ hs => Factor.exists_tree hs)
      h (Nat.le_refl _)
    refine ⟨tree, htext, h.unique ?_⟩
    rw [← htext]
    exact tree.expression_text
  · rintro ⟨tree, htext, rfl⟩
    rw [← htext]
    exact tree.expression_text

end Backtrack.Arith
