import Backtrack.Proofs.Expressions
import Backtrack.Proofs.Sufficiency
import Mathlib.Data.List.Pairwise

/-!
# Readings — lists that taper

A parser for a language lists the readings of an input at one place: the values and the ends of all
words that begin there. Each list here *tapers*: its ends become smaller from one item to the next,
and at each end but the first the input goes on with a character of a certain set. The set is what
tells the layers of the grammar apart. A number that can be made longer is followed by a digit, a
term also by `*`, an expression also by `+`. So only the longest factor can be followed by `*`, only
the longest term by `+` and only the longest expression by a closing parenthesis; the chains of
operands never fork, and no end comes twice.

`Tells` puts the two together: a list tells a language at a place if it has exactly its readings
there, and tapers.
-/

namespace Backtrack.Arith

/-! ## Lists that taper -/

section

variable {α : Type} {input : List Char} {P Q : Char → Prop}

/-- The ends become smaller from one item to the next, and at each end but the first the input goes
    on with a character of the set. -/
def Tapers (input : List Char) (P : Char → Prop) (l : List (α × Nat)) : Prop :=
  l.Pairwise fun x y => y.2 < x.2 ∧ ∃ c, input[y.2]? = some c ∧ P c

theorem Tapers.imp {l : List (α × Nat)} (h : Tapers input P l) (hPQ : ∀ c, P c → Q c) :
    Tapers input Q l :=
  List.Pairwise.imp (fun ⟨hlt, c, hc, hP⟩ => ⟨hlt, c, hc, hPQ c hP⟩) h

/-- No end comes twice, so there are no more items than ends. -/
theorem Tapers.length_le : ∀ {l : List (α × Nat)} {n : Nat}, Tapers input P l →
    (∀ x ∈ l, x.2 < n) → l.length ≤ n
  | [],     _, _, _ => Nat.zero_le _
  | x :: l, n, h, hn => by
      obtain ⟨hx, hl⟩ := List.pairwise_cons.mp h
      have hlength := length_le hl fun y hy => (hx y hy).1
      have hfirst := hn x (List.mem_cons_self ..)
      rw [List.length_cons]
      omega

theorem Tapers.eq_of_snd_eq {l : List (α × Nat)} (h : Tapers input P l) {x y : α × Nat}
    (hx : x ∈ l) (hy : y ∈ l) (hxy : x.2 = y.2) : x = y := by
  have hsymm : Std.Symm fun x y : α × Nat => x.2 = y.2 → x = y :=
    ⟨fun _ _ h hxy => (h hxy.symm).symm⟩
  have hpairs : l.Pairwise fun x y => x.2 = y.2 → x = y :=
    List.Pairwise.imp (fun ⟨hlt, _⟩ hxy => absurd hxy (Nat.ne_of_gt hlt)) h
  exact hpairs.forall_of_forall (fun _ _ _ => rfl) hx hy hxy

/-- Each item replaced by items further on. Where the input goes on with a character of the set, an
    item may only be replaced by one at the same end. -/
theorem Tapers.flatMap {β : Type} {part : α × Nat → List (β × Nat)} (hPQ : ∀ c, P c → Q c)
    {l : List (α × Nat)} : Tapers input P l → (∀ x ∈ l, Tapers input Q (part x)) →
    (∀ x ∈ l, ∀ y ∈ part x, x.2 ≤ y.2) →
    (∀ x ∈ l, (∃ c, input[x.2]? = some c ∧ P c) → ∀ y ∈ part x, y.2 = x.2) →
    Tapers input Q (l.flatMap part) := by
  induction l with
  | nil =>
      intro _ _ _ _
      exact List.Pairwise.nil
  | cons x l ih =>
      intro h hparts hfurther hstays
      obtain ⟨hx, hl⟩ := List.pairwise_cons.mp h
      obtain ⟨hpart, hparts⟩ := List.forall_mem_cons.mp hparts
      obtain ⟨hfurther₀, hfurther⟩ := List.forall_mem_cons.mp hfurther
      obtain ⟨-, hstays⟩ := List.forall_mem_cons.mp hstays
      rw [Tapers, List.flatMap_cons, List.pairwise_append]
      refine ⟨hpart, ih hl hparts hfurther hstays, fun y hy z hz => ?_⟩
      -- what comes behind the items of the first part stands where it stood
      obtain ⟨x', hx', hz⟩ := List.mem_flatMap.mp hz
      obtain ⟨hlt, c, hc, hP⟩ := hx x' hx'
      have hyx := hfurther₀ y hy
      have hzx := hstays x' hx' ⟨c, hc, hP⟩ z hz
      exact ⟨by omega, c, hzx ▸ hc, hPQ c hP⟩

end

/-! ## Spreading out from one end -/

section

variable {α : Type} {input : List Char} {P O : Char → Prop} {occurrences : Nat → List (α × Nat)}
  {step : Int → α → Int} {j N : Nat}

/-- All ends that can be reached from one end by occurrences in a row, the furthest first, with the
    value that has then been put together. -/
def spread (occurrences : Nat → List (α × Nat)) (step : Int → α → Int) :
    Nat → Int → Nat → List (Int × Nat)
  | 0,     _, _ => []
  | n + 1, v, k =>
      ((occurrences k).flatMap fun x => spread occurrences step n (step v x.1) x.2) ++ [(v, k)]

/-- The rows of a repetition, with their values put together, are spread out. -/
theorem map_rowsFrom (v : Int) (least n : Nat) :
    ∀ (row : List α) (k : Nat), least ≤ row.length →
      (rowsFrom occurrences least n row k).map (fun y => (y.1.foldl step v, y.2)) =
        spread occurrences step n (row.foldl step v) k := by
  induction n with
  | zero =>
      intro row k _
      rfl
  | succ n ih =>
      intro row k hrow
      rw [rowsFrom, spread, if_pos hrow, List.map_append, List.map_flatMap]
      congr 2
      funext x
      rw [ih (row ++ [x.1]) x.2 (by rw [List.length_append]; omega), List.foldl_append]
      rfl

/-- The occurrences from `j` on all move, and none ends behind `N`. -/
def Moves (occurrences : Nat → List (α × Nat)) (j N : Nat) : Prop :=
  ∀ k, j ≤ k → ∀ x ∈ occurrences k, k < x.2 ∧ x.2 ≤ N

theorem Moves.le_of_mem_spread (h : Moves occurrences j N) (n : Nat) :
    ∀ {v : Int} {k : Nat}, j ≤ k → ∀ y ∈ spread occurrences step n v k, k ≤ y.2 := by
  induction n with
  | zero =>
      intro v k _ y hy
      exact nomatch hy
  | succ n ih =>
      intro v k hk y hy
      rcases List.mem_append.mp hy with hy | hy
      · obtain ⟨x, hx, hy⟩ := List.mem_flatMap.mp hy
        obtain ⟨hlt, -⟩ := h k hk x hx
        have := ih (by omega) y hy
        omega
      · exact Nat.le_of_eq (congrArg Prod.snd (List.mem_singleton.mp hy)).symm

/-- What is reached is what can be reached step by step. -/
theorem Moves.mem_spread_iff (h : Moves occurrences j N) (n : Nat) :
    ∀ {v : Int} {k : Nat}, j ≤ k → k ≤ N → N < k + n → ∀ {y : Int × Nat},
      (y ∈ spread occurrences step n v k ↔ Relation.ReflTransGen
        (fun x y => ∃ a, (a, y.2) ∈ occurrences x.2 ∧ y.1 = step x.1 a) (v, k) y) := by
  induction n with
  | zero =>
      intro v k _ hk hn
      omega
  | succ n ih =>
      intro v k hjk hk hn y
      rw [spread, List.mem_append, List.mem_singleton, List.mem_flatMap,
        Relation.ReflTransGen.cases_head_iff, or_comm, eq_comm]
      refine or_congr_right ⟨?_, ?_⟩
      · rintro ⟨x, hx, hy⟩
        obtain ⟨hlt, hle⟩ := h k hjk x hx
        exact ⟨(step v x.1, x.2), ⟨x.1, hx, rfl⟩, (ih (by omega) hle (by omega)).mp hy⟩
      · rintro ⟨⟨w, i⟩, ⟨a, ha, rfl⟩, hsteps⟩
        obtain ⟨hlt, hle⟩ := h k hjk (a, i) ha
        exact ⟨(a, i), ha, (ih (by omega) hle (by omega)).mpr hsteps⟩

/-- There are twice as many steps as there are ends. -/
theorem Moves.stepsFrom_eq (h : Moves occurrences j N) (step : Int → α → Int) (n : Nat) :
    ∀ {v : Int} {k : Nat}, j ≤ k → k ≤ N → N < k + n →
      stepsFrom occurrences n k + 1 = 2 * (spread occurrences step n v k).length := by
  induction n with
  | zero =>
      intro v k _ hk hn
      omega
  | succ n ih =>
      intro v k hjk hk hn
      have hsum : ∀ l : List (α × Nat), (∀ x ∈ l, k < x.2 ∧ x.2 ≤ N) →
          l.foldr (fun x steps => stepsFrom occurrences n x.2 + 1 + steps) 1 =
            2 * (l.flatMap fun x => spread occurrences step n (step v x.1) x.2).length + 1 := by
        intro l
        induction l with
        | nil =>
            intro _
            rfl
        | cons x l ihl =>
            intro hl
            obtain ⟨⟨hlt, hle⟩, hl⟩ := List.forall_mem_cons.mp hl
            rw [List.foldr_cons, List.flatMap_cons, List.length_append, ihl hl,
              ih (v := step v x.1) (by omega) hle (by omega)]
            omega
      rw [stepsFrom, spread, hsum _ (h k hjk), List.length_append, List.length_singleton]
      omega

/-- Spreading out from each item of a list that tapers. The occurrences begin with characters that
    are not in the set of the list, so only the first item can be gone on from. -/
theorem Moves.tapers_flatMap {β : Type} (h : Moves occurrences j N)
    (hopens : ∀ k, occurrences k ≠ [] → ∃ c, input[k]? = some c ∧ O c)
    (hdisjoint : ∀ c, P c → ¬O c) {n : Nat}
    (hspread : ∀ v k, j ≤ k → Tapers input (fun c => P c ∨ O c) (spread occurrences step n v k))
    {g : β × Nat → Int} {l : List (β × Nat)} (hl : Tapers input P l) (hj : ∀ x ∈ l, j ≤ x.2) :
    Tapers input (fun c => P c ∨ O c)
      (l.flatMap fun x => spread occurrences step n (g x) x.2) := by
  refine hl.flatMap (fun c => Or.inl) (fun x hx => hspread _ _ (hj x hx))
    (fun x hx => h.le_of_mem_spread n (hj x hx)) ?_
  rintro x hx ⟨c, hc, hP⟩ y hy
  have hnone : occurrences x.2 = [] := by
    refine by_contra fun hne => ?_
    obtain ⟨c', hc', hO⟩ := hopens x.2 hne
    obtain rfl : c = c' := Option.some.inj (hc.symm.trans hc')
    exact hdisjoint c hP hO
  cases n with
  | zero => exact nomatch hy
  | succ n =>
      rw [spread, hnone] at hy
      rw [List.mem_singleton.mp hy]

/-- What is spread out tapers: the sets of the occurrences and of their first characters join. -/
theorem Moves.tapers_spread (h : Moves occurrences j N) (step : Int → α → Int)
    (htapers : ∀ k, j ≤ k → Tapers input P (occurrences k))
    (hopens : ∀ k, occurrences k ≠ [] → ∃ c, input[k]? = some c ∧ O c)
    (hdisjoint : ∀ c, P c → ¬O c) (n : Nat) :
    ∀ v k, j ≤ k → Tapers input (fun c => P c ∨ O c) (spread occurrences step n v k) := by
  induction n with
  | zero =>
      intro v k _
      exact List.Pairwise.nil
  | succ n ih =>
      intro v k hk
      have hfurther : ∀ x ∈ occurrences k, j ≤ x.2 := fun x hx => by
        have := (h k hk x hx).1
        omega
      rw [Tapers, spread, List.pairwise_append]
      refine ⟨h.tapers_flatMap hopens hdisjoint ih (htapers k hk) hfurther,
        List.pairwise_singleton _ _, fun y hy z hz => ?_⟩
      -- the end itself comes last, with an occurrence before it to begin there
      obtain ⟨x, hx, hy⟩ := List.mem_flatMap.mp hy
      obtain rfl := List.mem_singleton.mp hz
      obtain ⟨c, hc, hO⟩ := hopens k (List.ne_nil_of_mem hx)
      have hxy := h.le_of_mem_spread n (hfurther x hx) y hy
      exact ⟨Nat.lt_of_lt_of_le (h k hk x hx).1 hxy, c, hc, Or.inr hO⟩

end

/-! ## Lists that tell a language -/

/-- The list has exactly the readings of the language at position `j`, none of them empty, and it
    tapers. -/
structure Tells (input : List Char) (L : Meaning) (P : Char → Prop) (j : Nat)
    (l : List (Int × Nat)) : Prop where
  mem_iff : ∀ v k, (v, k) ∈ l ↔ Reads input L j v k
  tapers  : Tapers input P l
  moves   : ∀ x ∈ l, j < x.2

/-- The character at a position, if it passes a test, and the position behind it. -/
def symbolAt (input : List Char) (test : Char → Bool) (k : Nat) : List (Char × Nat) :=
  (input[k]?.filter test).toList.map fun c => (c, k + 1)

/-- The readings behind a given character. -/
def behind (input : List Char) (c : Char) (lists : Nat → List (Int × Nat)) (k : Nat) :
    List (Int × Nat) :=
  (symbolAt input (fun y => decide (y = c)) k).flatMap fun x => lists x.2

section

variable {input : List Char} {L : Meaning} {P : Char → Prop} {j : Nat}

theorem mem_symbolAt {test : Char → Bool} {k : Nat} {x : Char × Nat} :
    x ∈ symbolAt input test k ↔ input[k]? = some x.1 ∧ test x.1 = true ∧ x.2 = k + 1 := by
  simp only [symbolAt, List.mem_map, Option.mem_toList, Option.filter_eq_some_iff]
  constructor
  · rintro ⟨c, ⟨hc, htest⟩, rfl⟩
    exact ⟨hc, htest, rfl⟩
  · rintro ⟨hc, htest, hx⟩
    exact ⟨x.1, ⟨hc, htest⟩, by rw [← hx]⟩

theorem length_symbolAt_le (input : List Char) (test : Char → Bool) (k : Nat) :
    (symbolAt input test k).length ≤ 1 := by
  rw [symbolAt, List.length_map]
  cases input[k]?.filter test <;> simp

theorem mem_behind {c : Char} {lists : Nat → List (Int × Nat)} {k : Nat} {x : Int × Nat} :
    x ∈ behind input c lists k ↔ input[k]? = some c ∧ x ∈ lists (k + 1) := by
  simp only [behind, List.mem_flatMap, mem_symbolAt, decide_eq_true_eq]
  constructor
  · rintro ⟨⟨d, i⟩, ⟨hd, rfl, rfl⟩, hx⟩
    exact ⟨hd, hx⟩
  · rintro ⟨hc, hx⟩
    exact ⟨(c, k + 1), ⟨hc, rfl, rfl⟩, hx⟩

theorem behind_of_eq {c : Char} {k : Nat} (hc : input[k]? = some c)
    (lists : Nat → List (Int × Nat)) : behind input c lists k = lists (k + 1) := by
  simp [behind, symbolAt, hc, Option.filter]

theorem behind_of_ne {c : Char} {k : Nat} (hc : input[k]? ≠ some c)
    (lists : Nat → List (Int × Nat)) : behind input c lists k = [] :=
  List.eq_nil_iff_forall_not_mem.mpr fun _ hx => hc (mem_behind.mp hx).1

theorem Tells.le {l : List (Int × Nat)} (h : Tells input L P j l) {x : Int × Nat} (hx : x ∈ l) :
    x.2 ≤ input.length :=
  ((h.mem_iff x.1 x.2).mp hx).2.1

theorem Tells.length_le {l : List (Int × Nat)} (h : Tells input L P j l) :
    l.length ≤ input.length + 1 :=
  h.tapers.length_le fun _ hx => Nat.lt_succ_of_le (h.le hx)

/-- Steps of one kind are steps of another kind, where an invariant sees to it. -/
theorem reflTransGen_of_invariant {α : Type} {r r' : α → α → Prop} {I : α → Prop}
    (h : ∀ x y, I x → r x y → r' x y ∧ I y) {a b : α} (hab : Relation.ReflTransGen r a b)
    (ha : I a) : Relation.ReflTransGen r' a b ∧ I b := by
  induction hab with
  | refl => exact ⟨.refl, ha⟩
  | @tail x y _ hxy ih =>
      obtain ⟨hxy', hy⟩ := h x y ih.2 hxy
      exact ⟨ih.1.tail hxy', hy⟩

/-! ## Numbers -/

/-- The readings of a number. -/
def numbers (input : List Char) (j : Nat) : List (Int × Nat) :=
  (symbolAt input Char.isDigit j).flatMap fun x =>
    spread (symbolAt input Char.isDigit) (fun v c => Saturating.snoc v (digitValue c))
      (input.length + 1) (Saturating.snoc 0 (digitValue x.1)) x.2

theorem moves_symbolAt (input : List Char) (test : Char → Bool) :
    Moves (symbolAt input test) 0 input.length := by
  intro k _ x hx
  obtain ⟨hc, -, hx⟩ := mem_symbolAt.mp hx
  obtain ⟨hk, -⟩ := List.getElem?_eq_some_iff.mp hc
  omega

theorem tells_numbers (input : List Char) (j : Nat) :
    Tells input Number (fun c => c.isDigit = true) j (numbers input j) where
  mem_iff v k := by
    rw [reads_number_iff, Relation.TransGen.head'_iff, numbers, List.mem_flatMap]
    -- an occurrence is a digit, and a step is a step
    have hstep : (fun x y : Int × Nat => ∃ a, (a, y.2) ∈ symbolAt input Char.isDigit x.2 ∧
        y.1 = Saturating.snoc x.1 (digitValue a)) = Digit input := by
      funext x y
      simp only [mem_symbolAt, Digit, Prod.ext_iff]
      exact propext ⟨fun ⟨c, ⟨hc, hd, hy⟩, hv⟩ => ⟨c, hc, hd, hv, hy⟩,
        fun ⟨c, hc, hd, hv, hy⟩ => ⟨c, ⟨hc, hd, hy⟩, hv⟩⟩
    constructor
    · rintro ⟨⟨c, i⟩, hx, hy⟩
      have hi := (moves_symbolAt input Char.isDigit j (Nat.zero_le j) _ hx).2
      rw [(moves_symbolAt input _).mem_spread_iff _ (Nat.zero_le i) hi (by omega), hstep] at hy
      obtain ⟨hc, hd, rfl⟩ := mem_symbolAt.mp hx
      exact ⟨_, ⟨c, hc, hd, rfl⟩, hy⟩
    · rintro ⟨_, ⟨c, hc, hd, rfl⟩, hy⟩
      have hx : (c, j + 1) ∈ symbolAt input Char.isDigit j := mem_symbolAt.mpr ⟨hc, hd, rfl⟩
      have hi := (moves_symbolAt input Char.isDigit j (Nat.zero_le j) _ hx).2
      refine ⟨_, hx, ?_⟩
      rw [(moves_symbolAt input _).mem_spread_iff _ (Nat.zero_le _) hi (by omega), hstep]
      exact hy
  tapers := by
    -- there is at most one digit at a place
    have hone : ∀ k, Tapers input (fun _ => False) (symbolAt input Char.isDigit k) := by
      intro k
      rw [Tapers, symbolAt]
      cases input[k]?.filter Char.isDigit <;> simp
    have hopens : ∀ k, symbolAt input Char.isDigit k ≠ [] →
        ∃ c, input[k]? = some c ∧ c.isDigit = true := by
      intro k hne
      obtain ⟨x, hx⟩ := List.exists_mem_of_ne_nil _ hne
      obtain ⟨hc, hd, -⟩ := mem_symbolAt.mp hx
      exact ⟨_, hc, hd⟩
    have hspread := (moves_symbolAt input Char.isDigit).tapers_spread
      (fun v c => Saturating.snoc v (digitValue c)) (fun k _ => hone k) hopens
      (fun _ => False.elim) (input.length + 1)
    exact ((moves_symbolAt input Char.isDigit).tapers_flatMap hopens (fun _ => False.elim) hspread
      (g := fun x => Saturating.snoc 0 (digitValue x.1)) (hone j) fun _ _ => Nat.zero_le _).imp
      fun c hc => hc.resolve_left id
  moves y hy := by
    obtain ⟨x, hx, hy⟩ := List.mem_flatMap.mp hy
    have hle := (moves_symbolAt input _).le_of_mem_spread _ (Nat.zero_le _) y hy
    have hlt := (moves_symbolAt input _ j (Nat.zero_le j) x hx).1
    omega

/-! ## Chains -/

/-- The readings of a chain, with those of its operand given. -/
def chains (input : List Char) (operator : Char) (combine : Int → Int → Int)
    (lists : Nat → List (Int × Nat)) (j : Nat) : List (Int × Nat) :=
  (lists j).flatMap fun x =>
    spread (behind input operator lists) combine (input.length + 1) x.1 x.2

theorem moves_behind (operator : Char) {lists : Nat → List (Int × Nat)}
    (h : ∀ k, j ≤ k → k ≤ input.length → Tells input L P k (lists k)) :
    Moves (behind input operator lists) j input.length := by
  intro k hk x hx
  obtain ⟨hop, hx⟩ := mem_behind.mp hx
  obtain ⟨hlt, -⟩ := List.getElem?_eq_some_iff.mp hop
  have htells := h (k + 1) (by omega) hlt
  exact ⟨Nat.lt_of_succ_lt (htells.moves x hx), htells.le hx⟩

theorem Tells.chained {operator : Char} (combine : Int → Int → Int)
    {lists : Nat → List (Int × Nat)}
    (h : ∀ k, j ≤ k → k ≤ input.length → Tells input L P k (lists k)) (hj : j ≤ input.length)
    (hclosed : ¬P operator) :
    Tells input (Chained operator combine L) (fun c => P c ∨ c = operator) j
      (chains input operator combine lists j) where
  mem_iff v k := by
    rw [reads_chained_iff, chains, List.mem_flatMap]
    refine exists_congr fun x => ?_
    have hmem : x ∈ lists j ↔ Reads input L j x.1 x.2 := (h j (Nat.le_refl j) hj).mem_iff x.1 x.2
    rw [hmem]
    refine and_congr_right fun hx => ?_
    rw [(moves_behind operator h).mem_spread_iff _ hx.1 hx.2.1 (by omega)]
    -- from `j` on, the occurrences are the readings of the operand behind the operator
    constructor
    · refine fun hsteps => (reflTransGen_of_invariant (I := fun y => j ≤ y.2) ?_ hsteps hx.1).1
      rintro y z hy ⟨w, hw, hz⟩
      obtain ⟨hop, hw⟩ := mem_behind.mp hw
      obtain ⟨hlt, -⟩ := List.getElem?_eq_some_iff.mp hop
      have hreads := ((h (y.2 + 1) (by omega) hlt).mem_iff w z.2).mp hw
      exact ⟨⟨hop, w, hreads, hz⟩, by have := hreads.1; omega⟩
    · refine fun hsteps => (reflTransGen_of_invariant (I := fun y => j ≤ y.2) ?_ hsteps hx.1).1
      rintro y z hy ⟨hop, w, hreads, hz⟩
      obtain ⟨hlt, -⟩ := List.getElem?_eq_some_iff.mp hop
      have hw := ((h (y.2 + 1) (by omega) hlt).mem_iff w z.2).mpr hreads
      exact ⟨⟨w, mem_behind.mpr ⟨hop, hw⟩, hz⟩, by have := hreads.1; omega⟩
  tapers := by
    have htapers : ∀ k, j ≤ k → Tapers input P (behind input operator lists k) := by
      intro k hk
      by_cases hc : input[k]? = some operator
      · obtain ⟨hlt, -⟩ := List.getElem?_eq_some_iff.mp hc
        rw [behind_of_eq hc]
        exact (h (k + 1) (by omega) hlt).tapers
      · rw [behind_of_ne hc]
        exact List.Pairwise.nil
    have hopens : ∀ k, behind input operator lists k ≠ [] →
        ∃ c, input[k]? = some c ∧ c = operator := by
      intro k hne
      obtain ⟨x, hx⟩ := List.exists_mem_of_ne_nil _ hne
      exact ⟨operator, (mem_behind.mp hx).1, rfl⟩
    have hdisjoint : ∀ c, P c → ¬c = operator := fun c hc hop => hclosed (hop ▸ hc)
    have hhere := h j (Nat.le_refl j) hj
    exact (moves_behind operator h).tapers_flatMap hopens hdisjoint
      ((moves_behind operator h).tapers_spread combine htapers hopens hdisjoint _) hhere.tapers
      fun x hx => Nat.le_of_lt (hhere.moves x hx)
  moves y hy := by
    obtain ⟨x, hx, hy⟩ := List.mem_flatMap.mp hy
    have hlt := (h j (Nat.le_refl j) hj).moves x hx
    have hle := (moves_behind operator h).le_of_mem_spread _ (Nat.le_of_lt hlt) y hy
    omega

/-! ## Factors -/

/-- The readings in parentheses, with those of what is inside given. -/
def enclosed (input : List Char) (lists : Nat → List (Int × Nat)) (j : Nat) : List (Int × Nat) :=
  (behind input '(' lists j).flatMap fun x =>
    (symbolAt input (fun c => decide (c = ')')) x.2).map fun y => (x.1, y.2)

theorem mem_enclosed {lists : Nat → List (Int × Nat)} {v : Int} {k : Nat} :
    (v, k) ∈ enclosed input lists j ↔
      input[j]? = some '(' ∧ ∃ i, (v, i) ∈ lists (j + 1) ∧ input[i]? = some ')' ∧ k = i + 1 := by
  simp only [enclosed, List.mem_flatMap, mem_behind, List.mem_map, mem_symbolAt,
    decide_eq_true_eq, Prod.mk.injEq]
  constructor
  · rintro ⟨⟨w, i⟩, ⟨hopen, hx⟩, ⟨c, m⟩, ⟨hc, rfl, rfl⟩, rfl, rfl⟩
    exact ⟨hopen, i, hx, hc, rfl⟩
  · rintro ⟨hopen, i, hx, hc, rfl⟩
    exact ⟨(v, i), ⟨hopen, hx⟩, (')', i + 1), ⟨hc, rfl, rfl⟩, rfl, rfl⟩

/-- Only the longest word can be followed by a closing parenthesis, so there is at most one
    reading. -/
theorem tapers_enclosed {lists : Nat → List (Int × Nat)}
    (h : input[j]? = some '(' → Tapers input P (lists (j + 1))) (hclosed : ¬P ')')
    (Q : Char → Prop) : Tapers input Q (enclosed input lists j) := by
  by_cases hopen : input[j]? = some '('
  · have htapers := h hopen
    rw [enclosed, behind_of_eq hopen]
    cases hl : lists (j + 1) with
    | nil => exact List.Pairwise.nil
    | cons x l =>
        rw [hl] at htapers
        have hothers : (l.flatMap fun x =>
            (symbolAt input (fun c => decide (c = ')')) x.2).map fun y => (x.1, y.2)) = [] := by
          refine List.eq_nil_iff_forall_not_mem.mpr fun y hy => ?_
          obtain ⟨x', hx', hy⟩ := List.mem_flatMap.mp hy
          obtain ⟨⟨c, i⟩, hc, -⟩ := List.mem_map.mp hy
          obtain ⟨-, d, hd, hP⟩ := (List.pairwise_cons.mp htapers).1 x' hx'
          obtain ⟨hc, hclose, -⟩ := mem_symbolAt.mp hc
          obtain rfl : d = c := Option.some.inj (hd.symm.trans hc)
          exact hclosed (of_decide_eq_true hclose ▸ hP)
        rw [List.flatMap_cons, hothers, List.append_nil, Tapers, symbolAt]
        cases input[x.2]?.filter fun c => decide (c = ')') <;> simp
  · rw [enclosed, behind_of_ne hopen]
    exact List.Pairwise.nil

theorem Tells.factor (lists : Nat → List (Int × Nat))
    (h : j < input.length → Tells input Expression P (j + 1) (lists (j + 1)))
    (hclosed : ¬P ')') :
    Tells input Factor (fun c => c.isDigit = true) j
      (numbers input j ++ enclosed input lists j) where
  mem_iff v k := by
    rw [List.mem_append, (tells_numbers input j).mem_iff, reads_factor_iff, mem_enclosed]
    refine or_congr_right (and_congr_right fun hopen => exists_congr fun i => ?_)
    obtain ⟨hlt, -⟩ := List.getElem?_eq_some_iff.mp hopen
    rw [(h hlt).mem_iff]
  tapers := by
    rw [Tapers, List.pairwise_append]
    refine ⟨(tells_numbers input j).tapers, tapers_enclosed (fun hopen => ?_) hclosed _,
      fun y hy z hz => ?_⟩
    · exact (h (List.getElem?_eq_some_iff.mp hopen).1).tapers
    · -- a number begins with a digit, which is no parenthesis
      obtain ⟨x, hx, -⟩ := List.mem_flatMap.mp hy
      obtain ⟨hc, hdigit, -⟩ := mem_symbolAt.mp hx
      have hopen := (mem_enclosed.mp hz).1
      rw [Option.some.inj (hc.symm.trans hopen)] at hdigit
      exact absurd hdigit (by decide)
  moves x hx := by
    rcases List.mem_append.mp hx with hx | hx
    · exact (tells_numbers input j).moves x hx
    · obtain ⟨hopen, i, hi, -, hx⟩ := mem_enclosed.mp hx
      obtain ⟨hlt, -⟩ := List.getElem?_eq_some_iff.mp hopen
      have := (h hlt).moves _ hi
      omega

end

end Backtrack.Arith
