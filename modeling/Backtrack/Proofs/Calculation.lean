import Backtrack.Proofs.Readings
import Mathlib.Order.Bounds.Defs
import Mathlib.Tactic.Linarith

/-!
# Calculation — what is printed for a text

The parsers of arithmetic list the readings of their languages, and the allowance that comes with a
text is enough for all of them. By induction on the input that is left: an expression in parentheses
is read further on, and each layer of the grammar adds a number of steps that is linear in the
length of the text.

The list of an expression tapers, so its first item is the longest. If that is the whole text, its
value is printed; if not, nothing else is, and its end is the position that is reported.
-/

namespace Backtrack.Arith

open Store

variable {input : List Char}

/-- At position `j` the parser gives a list that tells the language, under the allowance `d`. -/
def Evaluates (input : List Char) (d : Nat) (p : Reader Int) (L : Meaning) (P : Char → Prop)
    (j : Nat) : Prop :=
  ∃ l, p.Gives grammar (.ofList input) 0 d j l ∧ Tells input L P j l

section

variable {d d' j : Nat} {p : Reader Int} {L : Meaning} {P : Char → Prop}

theorem Evaluates.raise (h : Evaluates input d p L P j) (hd : d ≤ d') :
    Evaluates input d' p L P j := by
  obtain ⟨l, hp, hl⟩ := h
  exact ⟨l, hp.raise hd, hl⟩

theorem gives_symbolAt (input : List Char) (test : Char → Bool) :
    (Parser.satisfy test : Reader Char).Gives grammar (.ofList input) 0 (d + 1) j
      (symbolAt input test j) := by
  rw [symbolAt, ← Source.answer_ofList]
  exact Parser.gives_satisfy test

/-- Behind a symbol. -/
theorem gives_behind (lists : Nat → List (Int × Nat)) {c : Char}
    (hp : input[j]? = some c → p.Gives grammar (.ofList input) 0 d (j + 1) (lists (j + 1))) :
    ((Parser.symbol c).andRight p).Gives grammar (.ofList input) 0 (d + 6) j
      (behind input c lists j) := by
  have hseq := Parser.Gives.seq (f := fun (_ : Char) (b : Int) => b) (q := p) (g := lists)
    (d := d + 1) (gives_symbolAt (j := j) input fun y => decide (y = c)) ?_
  · have hlength := length_symbolAt_le input (fun y => decide (y = c)) j
    simp only [Prod.mk.eta, List.map_id'] at hseq
    exact hseq.raise (by omega)
  · intro x hx
    obtain ⟨hc, htest, hx⟩ := mem_symbolAt.mp hx
    rw [hx]
    rw [of_decide_eq_true htest] at hc
    exact (hp hc).raise (Nat.le_add_right d 1)

/-- A number gives the rows of digits, all but the empty one. -/
theorem gives_number (hj : j ≤ input.length) :
    number.Gives grammar (.ofList input) 0 (2 * input.length + 8) j (numbers input j) := by
  have hmoves := moves_symbolAt input Char.isDigit
  have hlength := (tells_numbers input j).length_le
  have hsteps : stepsFrom (symbolAt input Char.isDigit) (input.length + 2) j + 1 =
      2 * (numbers input j ++ [(0, j)]).length :=
    hmoves.stepsFrom_eq (fun v c => Saturating.snoc v (digitValue c)) _ (Nat.zero_le j) hj
      (by omega)
  have hrows := Parser.gives_repetition 1 (input.length + 2) id
    (fun k _ => hmoves k (Nat.zero_le k))
    (fun k _ _ => gives_symbolAt (d := 0) (j := k) input Char.isDigit) hj (by omega)
  have hnumber := hrows.mapPure
    fun digits => digits.foldl (fun value c => Saturating.snoc value (digitValue c)) 0
  have hlist : ((rowsFrom (symbolAt input Char.isDigit) 1 (input.length + 2) [] j).map
      fun y => (id y.1, y.2)).map (fun x =>
        (x.1.foldl (fun value c => Saturating.snoc value (digitValue c)) 0, x.2)) =
      numbers input j := by
    rw [List.map_map, rowsFrom, if_neg (by simp), List.append_nil, List.map_flatMap, numbers]
    congr 1
    funext x
    exact map_rowsFrom 0 1 _ [x.1] x.2 (by simp)
  rw [hlist] at hnumber
  refine hnumber.raise ?_
  rw [List.length_append, List.length_singleton] at hsteps
  omega

/-- The operands of a chain behind an end of the first, with their operators. There are no more
    rows of them than the chain has readings, so the steps are bounded by the length of the text. -/
theorem gives_operands {operand : Reader Int} {operator : Char} (combine : Int → Int → Int)
    {lists : Nat → List (Int × Nat)}
    (hgives : ∀ k, j ≤ k → k ≤ input.length →
      operand.Gives grammar (.ofList input) 0 d k (lists k))
    (htells : ∀ k, j ≤ k → k ≤ input.length → Tells input L P k (lists k))
    (hj : j ≤ input.length) (hclosed : ¬P operator) {x : Int × Nat} (hx : x ∈ lists j) :
    ((Parser.symbol operator).andRight operand).many.Gives grammar (.ofList input) 0
      (d + 2 * input.length + 9) x.2
      ((rowsFrom (behind input operator lists) 0 (input.length + 1) [] x.2).map
        fun y => (id y.1, y.2)) := by
  have hhere := htells j (Nat.le_refl j) hj
  have hlt := hhere.moves x hx
  have hle := hhere.le hx
  have hmoves := moves_behind operator htells
  have hsteps := hmoves.stepsFrom_eq combine (v := x.1) (input.length + 1)
    (Nat.le_of_lt hlt) hle (by omega)
  have hlength : (spread (behind input operator lists) combine (input.length + 1) x.1
      x.2).length ≤ input.length + 1 := by
    have hchains := Tells.chained combine htells hj hclosed
    refine Nat.le_trans (List.Sublist.length_le ?_) hchains.length_le
    exact List.sublist_flatten_of_mem (List.mem_map_of_mem hx)
  refine (Parser.gives_repetition 0 _ id (fun k hk => hmoves k (by omega))
    (fun k hk hkN => ?_) hle (show input.length < x.2 + (input.length + 1) by omega)).raise
    (d := d + 6 + _ + 2) (by omega)
  refine gives_behind lists fun hop => hgives (k + 1) (by omega) ?_
  exact (List.getElem?_eq_some_iff.mp hop).1

/-- **A CHAIN** of operands, each of which may be anywhere behind the first. -/
theorem Evaluates.chainLeft {operand : Reader Int} (operator : Char) (combine : Int → Int → Int)
    (h : ∀ k, j ≤ k → k ≤ input.length → Evaluates input d operand L P k) (hj : j ≤ input.length)
    (hclosed : ¬P operator) :
    Evaluates input (d + 4 * input.length + 18) (operand.chainLeft operator combine)
      (Chained operator combine L) (fun c => P c ∨ c = operator) j := by
  have hlists : ∀ k, ∃ l, j ≤ k → k ≤ input.length →
      operand.Gives grammar (.ofList input) 0 d k l ∧ Tells input L P k l := by
    intro k
    by_cases hk : j ≤ k ∧ k ≤ input.length
    · obtain ⟨l, hl⟩ := h k hk.1 hk.2
      exact ⟨l, fun _ _ => hl⟩
    · exact ⟨[], fun hjk hkN => absurd ⟨hjk, hkN⟩ hk⟩
  choose lists hlists using hlists
  have hgives k hjk hkN := (hlists k hjk hkN).1
  have htells k hjk hkN := (hlists k hjk hkN).2
  refine ⟨chains input operator combine lists j, ?_, Tells.chained combine htells hj hclosed⟩
  let rows (k : Nat) : List (List Int × Nat) :=
    (rowsFrom (behind input operator lists) 0 (input.length + 1) [] k).map fun y => (id y.1, y.2)
  have hmany : ∀ x ∈ lists j, ((Parser.symbol operator).andRight operand).many.Gives grammar
      (.ofList input) 0 (d + 2 * input.length + 9) x.2 (rows x.2) :=
    fun x hx => gives_operands combine hgives htells hj hclosed hx
  have hfirst := (hgives j (Nat.le_refl j) hj).raise (show d ≤ d + 2 * input.length + 9 by omega)
  have hchain := (hfirst.seq (f := Prod.mk) (g := rows) hmany).mapPure
    fun x => x.2.foldl combine x.1
  have hlist : ((lists j).flatMap fun x => (rows x.2).map fun y => ((x.1, y.1), y.2)).map
      (fun x => (x.1.2.foldl combine x.1.1, x.2)) = chains input operator combine lists j := by
    rw [List.map_flatMap, chains]
    congr 1
    funext x
    rw [List.map_map, List.map_map]
    exact map_rowsFrom x.1 0 _ [] x.2 (Nat.zero_le _)
  rw [hlist] at hchain
  refine hchain.raise ?_
  have hlength := (htells j (Nat.le_refl j) hj).length_le
  omega

/-- A factor is read here or, in parentheses, further on. -/
theorem Evaluates.factor (h : j < input.length → Evaluates input d expr Expression P (j + 1))
    (hj : j ≤ input.length) (hclosed : ¬P ')') :
    Evaluates input (d + 2 * input.length + 15) factor Factor (fun c => c.isDigit = true) j := by
  obtain ⟨l, hl⟩ : ∃ l, j < input.length → expr.Gives grammar (.ofList input) 0 d (j + 1) l ∧
      Tells input Expression P (j + 1) l := by
    by_cases hlt : j < input.length
    · obtain ⟨l, hl⟩ := h hlt
      exact ⟨l, fun _ => hl⟩
    · exact ⟨[], fun hlt' => absurd hlt' hlt⟩
  have htells : j < input.length → Tells input Expression P (j + 1) l := fun hlt => (hl hlt).2
  have hopen := gives_behind (fun _ => l) (p := .rule .expr) (c := '(') (j := j)
    fun hc => (hl (List.getElem?_eq_some_iff.mp hc).1).1.rule
  have hlength : (behind input '(' (fun _ => l) j).length ≤ input.length + 1 := by
    by_cases hc : input[j]? = some '('
    · rw [behind_of_eq hc]
      exact (htells (List.getElem?_eq_some_iff.mp hc).1).length_le
    · rw [behind_of_ne hc]
      exact Nat.zero_le _
  have henclosed := hopen.seq (f := fun (a : Int) (_ : Char) => a) fun x _ =>
    gives_symbolAt (d := d + 6) (j := x.2) input fun y => decide (y = ')')
  have hnumber := gives_number hj
  have hfactor : Arith.factor.Gives grammar (.ofList input) 0 (d + 2 * input.length + 12 + 3) j
      (numbers input j ++ enclosed input (fun _ => l) j) :=
    (hnumber.raise (by omega)).or (henclosed.raise (by omega))
  exact ⟨_, hfactor, Tells.factor (fun _ => l) htells hclosed⟩

/-- The characters that can follow an expression that can be made longer. -/
def GoesOn (c : Char) : Prop :=
  (c.isDigit = true ∨ c = '*') ∨ c = '+'

/-- **AN EXPRESSION**, anywhere in the input: each layer of parentheses adds to the allowance what
    the three layers of the grammar take. -/
theorem evaluates_expr (input : List Char) (j : Nat) (hj : j ≤ input.length) :
    Evaluates input ((input.length + 1 - j) * (10 * input.length + 51)) expr Expression GoesOn
      j := by
  induction hn : input.length - j using Nat.strongRecOn generalizing j with
  | _ n ih =>
      have hfactor : ∀ k, j ≤ k → k ≤ input.length →
          Evaluates input ((input.length - j) * (10 * input.length + 51) + 2 * input.length + 15)
            factor Factor (fun c => c.isDigit = true) k := by
        intro k hjk hk
        refine Evaluates.factor (fun hlt => ?_) hk (show ¬GoesOn ')' by simp [GoesOn])
        refine (ih (input.length - (k + 1)) (by omega) (k + 1) hlt rfl).raise ?_
        exact Nat.mul_le_mul_right _ (by omega)
      have hterm k hjk hk := Evaluates.chainLeft '*' Saturating.mul
        (j := k) (fun k' hk' => hfactor k' (Nat.le_trans hjk hk')) hk (by decide)
      have hexpr := Evaluates.chainLeft '+' Saturating.add hterm hj
        (by decide)
      refine hexpr.raise (Nat.le_of_eq ?_)
      rw [show input.length + 1 - j = input.length - j + 1 by omega,
        Nat.add_mul (input.length - j) 1, Nat.one_mul]
      omega

end

/-! ## The verdict -/

section

variable {source : Source Char} {d m : Nat}

/-- The outcomes that are left end no further on than the furthest so far, and input is left behind
    each of them. -/
theorem firstCompleteFrom_of_gives {q : Nat} {l : List (Int × Nat)} :
    (∀ x ∈ l, x.2 ≤ q ∧ (source.answer x.2).isSome = true) →
    ∀ {s : Outcomes Char Empty Rule Int} {m n : Nat} {st : Store Char Empty},
      s.Gives grammar source 0 d m l → Feeds source 0 m st → d + l.length < n →
      ∃ rest st', s.firstCompleteFrom grammar n (some q) st =
        .done ⟨.error (.incomplete q), rest⟩ st' := by
  induction l with
  | nil =>
      intro _ s m n st hs hst hn
      obtain ⟨rest, st', hpull, -⟩ := hs st hst
      obtain ⟨n, rfl⟩ := Nat.exists_eq_add_one.mpr (Nat.zero_lt_of_lt hn)
      refine ⟨rest, st', ?_⟩
      rw [Outcomes.firstCompleteFrom, Outcomes.pull_raise (by omega) hpull]
      rfl
  | cons x l ih =>
      intro hl s m n st hs hst hn
      obtain ⟨⟨hle, hsome⟩, hl⟩ := List.forall_mem_cons.mp hl
      obtain ⟨rest, st', hpull, hst', hrest⟩ := hs st hst
      obtain ⟨n, rfl⟩ := Nat.exists_eq_add_one.mpr (Nat.zero_lt_of_lt hn)
      rw [List.length_cons] at hn
      obtain ⟨rest', st'', hfirst⟩ := ih hl hrest hst'.self (n := n) (by omega)
      refine ⟨rest', st'', ?_⟩
      rw [Outcomes.firstCompleteFrom, Outcomes.pull_raise (by omega) hpull]
      dsimp only [Run.bind]
      have hopen : ¬(source.cursorAt 0 x.2).isExhausted = true := by
        rw [Cursor.isExhausted, Option.isNone_iff_eq_none]
        exact Option.isSome_iff_ne_none.mp hsome
      have hmax : (some q).elim x.2 (max · x.2) = q := Nat.max_eq_left hle
      rw [if_neg hopen, show (source.cursorAt 0 x.2).position = x.2 from rfl, hmax]
      exact hfirst

end

/-- What is made of the readings of a text of length `n`, the longest first. -/
def verdict (n : Nat) : List (Int × Nat) → Except ResolveError Int
  | []     => .error .noParse
  | x :: _ => if x.2 = n then .ok x.1 else .error (.incomplete x.2)

/-- The longest reading decides: the others end before it, with input left behind them. -/
theorem firstComplete_of_gives {L : Meaning} {P : Char → Prop} {d n m : Nat} {l : List (Int × Nat)}
    {s : Outcomes Char Empty Rule Int} {st : Store Char Empty} (hl : Tells input L P 0 l)
    (hs : s.Gives grammar (.ofList input) 0 d m l) (hst : Feeds (.ofList input) 0 m st)
    (hn : d + l.length < n) : ∃ resolution st',
      s.firstComplete grammar n st = .done resolution st' ∧
      resolution.verdict.map Outcome.value = verdict input.length l := by
  obtain ⟨n, rfl⟩ := Nat.exists_eq_add_one.mpr (Nat.zero_lt_of_lt hn)
  rw [Outcomes.firstComplete, Outcomes.firstCompleteFrom]
  cases l with
  | nil =>
      obtain ⟨rest, st', hpull, -⟩ := hs st hst
      rw [Outcomes.pull_raise (by omega) hpull]
      exact ⟨_, st', rfl, rfl⟩
  | cons x l =>
      obtain ⟨rest, st', hpull, hst', hrest⟩ := hs st hst
      rw [List.length_cons] at hn
      rw [Outcomes.pull_raise (by omega) hpull]
      dsimp only [Run.bind]
      have hx := hl.le (List.mem_cons_self ..)
      have hexhausted : ((Source.ofList input).cursorAt 0 x.2).isExhausted = true ↔
          x.2 = input.length := by
        rw [Cursor.isExhausted, Option.isNone_iff_eq_none, Source.cursorAt, Source.answer_ofList,
          List.getElem?_eq_none_iff]
        omega
      by_cases hend : x.2 = input.length
      · rw [if_pos (hexhausted.mpr hend), verdict, if_pos hend]
        exact ⟨_, st', rfl, rfl⟩
      · rw [if_neg (hend ∘ hexhausted.mp), verdict, if_neg hend]
        have hothers : ∀ y ∈ l, y.2 ≤ x.2 ∧ ((Source.ofList input).answer y.2).isSome = true := by
          intro y hy
          obtain ⟨hlt, c, hc, -⟩ := (List.pairwise_cons.mp hl.tapers).1 y hy
          rw [Source.answer_ofList, hc]
          exact ⟨Nat.le_of_lt hlt, rfl⟩
        obtain ⟨rest', st'', hfirst⟩ :=
          firstCompleteFrom_of_gives hothers hrest hst'.self (n := n) (by omega)
        exact ⟨_, st'', hfirst, rfl⟩

theorem le_allowance (n : Nat) : (n + 1) * (10 * n + 51) + (n + 1) < allowance n := by
  rw [allowance]
  nlinarith

theorem startOn_empty (p : Reader Int) (n : Nat) (source : Source Char) :
    p.startOn grammar n source .empty =
      p.start grammar n (source.cursorAt 0 0) ((empty : Store Char Empty).attach source).2 :=
  rfl

/-- The allowance of a text is enough, and its readings decide. -/
theorem evaluate_eq_verdict (text : String) : ∃ l,
    Tells text.toList Expression GoesOn 0 l ∧
    evaluate text = some (verdict text.toList.length l) := by
  obtain ⟨l, hexpr, hl⟩ := evaluates_expr text.toList 0 (Nat.zero_le _)
  refine ⟨l, hl, ?_⟩
  rw [Nat.sub_zero] at hexpr
  have hintact := (intact_empty : (empty : Store Char Empty).Intact).attach (.ofList text.toList)
  have hfeeds : Feeds (.ofList text.toList) 0 1
      ((empty : Store Char Empty).attach (.ofList text.toList)).2 :=
    ⟨hintact.1, rfl, Nat.le_refl 1⟩
  obtain ⟨s, st, hstart, hst, hs⟩ := hexpr _ hfeeds
  have hlength := hl.length_le
  have hbound := le_allowance text.toList.length
  obtain ⟨resolution, st', hfirst, hverdict⟩ :=
    firstComplete_of_gives hl hs hst.self (n := allowance text.toList.length) (by omega)
  have hrun : ((expr.startOn grammar (allowance text.toList.length) (.ofList text.toList)
      .empty).bind fun s st => s.firstComplete grammar (allowance text.toList.length) st) =
        .done resolution st' := by
    rw [startOn_empty, Parser.start_raise (by omega) hstart]
    exact hfirst
  unfold evaluate
  dsimp only
  rw [hrun]
  exact congrArg some hverdict

/-! ## What is printed -/

/-- The readings at the beginning are the words that the text begins with. -/
theorem Tells.mem_iff_prefix {L : Meaning} {P : Char → Prop} {l : List (Int × Nat)}
    (h : Tells input L P 0 l) {v : Int} {k : Nat} :
    (v, k) ∈ l ↔ ∃ s, s <+: input ∧ s.length = k ∧ L s v := by
  rw [h.mem_iff, Reads, stretch, List.drop_zero, Nat.sub_zero]
  constructor
  · rintro ⟨-, hk, hword⟩
    exact ⟨_, List.take_prefix k input, List.length_take_of_le hk, hword⟩
  · rintro ⟨s, hs, rfl, hword⟩
    rw [← List.prefix_iff_eq_take.mp hs]
    exact ⟨Nat.zero_le _, hs.length_le, hword⟩

theorem Expression.ne_nil {s : List Char} {v : Int} (h : Expression s v) : s ≠ [] := by
  rintro rfl
  obtain ⟨l, -, hl⟩ := evaluates_expr [] 0 (Nat.le_refl _)
  have hmem : (v, 0) ∈ l := hl.mem_iff_prefix.mpr ⟨[], List.prefix_refl _, rfl, h⟩
  exact Nat.lt_irrefl 0 (hl.moves _ hmem)

/-- An expression has one value. -/
theorem Expression.unique {s : List Char} {v w : Int} (hv : Expression s v)
    (hw : Expression s w) : v = w := by
  obtain ⟨l, -, hl⟩ := evaluates_expr s 0 (Nat.zero_le _)
  have hmem : ∀ {u}, Expression s u → (u, s.length) ∈ l := fun hu =>
    hl.mem_iff_prefix.mpr ⟨s, List.prefix_refl s, rfl, hu⟩
  exact congrArg Prod.fst (hl.tapers.eq_of_snd_eq (hmem hv) (hmem hw) rfl)

/-- A text is an expression; or nothing that it begins with is one; or its longest beginning that is
    an expression falls short of it. The verdict is accordingly. -/
theorem evaluate_cases (text : String) :
    (∃ v, Expression text.toList v ∧ evaluate text = some (.ok v)) ∨
    ((∀ s, s ≠ [] → s <+: text.toList → ∀ v, ¬Expression s v) ∧
      evaluate text = some (.error .noParse)) ∨
    ∃ n, (∀ v, ¬Expression text.toList v) ∧
      IsGreatest {k | ∃ s v, s <+: text.toList ∧ s.length = k ∧ Expression s v} n ∧
      evaluate text = some (.error (.incomplete n)) := by
  obtain ⟨l, hl, heval⟩ := evaluate_eq_verdict text
  cases l with
  | nil =>
      refine Or.inr (Or.inl ⟨fun s _ hs v hv => ?_, heval⟩)
      exact nomatch hl.mem_iff_prefix.mpr ⟨s, hs, rfl, hv⟩
  | cons x l =>
      obtain ⟨s, hs, hlength, hx⟩ := hl.mem_iff_prefix.mp (List.mem_cons_self (a := x))
      by_cases hend : x.2 = text.toList.length
      · rw [verdict, if_pos hend] at heval
        obtain rfl := hs.eq_of_length (hlength.trans hend)
        exact Or.inl ⟨x.1, hx, heval⟩
      · rw [verdict, if_neg hend] at heval
        have hbound : ∀ {t w}, t <+: text.toList → Expression t w → t.length ≤ x.2 := by
          intro t w ht hw
          rcases List.mem_cons.mp (hl.mem_iff_prefix.mpr ⟨t, ht, rfl, hw⟩) with heq | hmem
          · exact Nat.le_of_eq (congrArg Prod.snd heq)
          · exact Nat.le_of_lt ((List.pairwise_cons.mp hl.tapers).1 _ hmem).1
        refine Or.inr (Or.inr ⟨x.2, fun v hv => ?_, ⟨⟨s, x.1, hs, hlength, hx⟩, ?_⟩, heval⟩)
        · have hle := hbound (List.prefix_refl _) hv
          have := hl.le (List.mem_cons_self (a := x))
          omega
        · rintro k ⟨t, w, ht, rfl, hw⟩
          exact hbound ht hw

theorem evaluate_eq_ok_iff (text : String) (v : Int) :
    evaluate text = some (.ok v) ↔ Expression text.toList v := by
  rcases evaluate_cases text with ⟨w, hw, heval⟩ | ⟨hnone, heval⟩ | ⟨n, hnot, -, heval⟩
  · rw [heval, Option.some.injEq, Except.ok.injEq]
    exact ⟨fun h => h ▸ hw, fun hv => hw.unique hv⟩
  · rw [heval]
    exact ⟨fun h => (nomatch h), fun hv => absurd hv (hnone _ hv.ne_nil (List.prefix_refl _) v)⟩
  · rw [heval]
    exact ⟨fun h => (nomatch h), fun hv => absurd hv (hnot v)⟩

theorem evaluate_eq_noParse_iff (text : String) :
    evaluate text = some (.error .noParse) ↔
      ∀ s, s ≠ [] → s <+: text.toList → ∀ v, ¬Expression s v := by
  rcases evaluate_cases text with ⟨w, hw, heval⟩ | ⟨hnone, heval⟩ | ⟨n, -, ⟨hmem, -⟩, heval⟩
  · rw [heval]
    exact ⟨fun h => (nomatch h), fun h => absurd hw (h _ hw.ne_nil (List.prefix_refl _) w)⟩
  · rw [heval]
    exact ⟨fun _ => hnone, fun _ => rfl⟩
  · rw [heval]
    obtain ⟨s, v, hs, -, hv⟩ := hmem
    exact ⟨fun h => (nomatch h), fun h => absurd hv (h s hv.ne_nil hs v)⟩

theorem evaluate_eq_incomplete_iff (text : String) (n : Nat) :
    evaluate text = some (.error (.incomplete n)) ↔ (∀ v, ¬Expression text.toList v) ∧
      IsGreatest {k | ∃ s v, s <+: text.toList ∧ s.length = k ∧ Expression s v} n := by
  rcases evaluate_cases text with ⟨w, hw, heval⟩ | ⟨hnone, heval⟩ | ⟨m, hnot, hmax, heval⟩
  · rw [heval]
    exact ⟨fun h => (nomatch h), fun h => absurd hw (h.1 w)⟩
  · rw [heval]
    refine ⟨fun h => (nomatch h), fun h => ?_⟩
    obtain ⟨s, v, hs, -, hv⟩ := h.2.1
    exact absurd hv (hnone s hv.ne_nil hs v)
  · rw [heval]
    constructor
    · rintro ⟨⟩
      exact ⟨hnot, hmax⟩
    · intro h
      rw [hmax.unique h.2]

/-- A number can be read back from its digits. -/
theorem ofDigitChars_repr (n : Nat) : Nat.ofDigitChars 10 n.repr.toList 0 = n := by
  rw [Nat.toList_repr, Nat.ofDigitChars_ten_toDigits]

theorem eq_of_repr_eq {m n : Nat} (h : m.repr = n.repr) : m = n := by
  rw [← ofDigitChars_repr m, h, ofDigitChars_repr]

/-- No number without a sign looks like one with a sign. -/
theorem repr_ne_signed (m n : Nat) : m.repr ≠ "-" ++ n.repr := by
  intro h
  have hsign : '-' ∈ Nat.toDigits 10 m := by
    rw [← Nat.toList_repr, h, String.toList_append]
    exact List.mem_cons_self ..
  exact absurd (Nat.isDigit_of_mem_toDigits (by decide) (by decide) hsign) (by decide)

/-- Different values are printed differently. -/
theorem toString_value_injective : Function.Injective (toString : Int → String) := by
  intro v w h
  rw [Int.toString_eq_repr, Int.toString_eq_repr, Int.repr_eq_if, Int.repr_eq_if] at h
  by_cases hv : 0 ≤ v <;> by_cases hw : 0 ≤ w
  · rw [if_pos hv, if_pos hw] at h
    have := eq_of_repr_eq h
    omega
  · rw [if_pos hv, if_neg hw] at h
    exact absurd h (repr_ne_signed _ _)
  · rw [if_neg hv, if_pos hw] at h
    exact absurd h.symm (repr_ne_signed _ _)
  · rw [if_neg hv, if_neg hw, String.append_right_inj] at h
    have := eq_of_repr_eq h
    omega

theorem message_noParse : ResolveError.noParse.message = "input did not match" :=
  rfl

theorem message_ambiguous (n : Nat) :
    (ResolveError.ambiguous n).message =
      "ambiguous parse: at least " ++ toString n ++ " outcomes" :=
  rfl

theorem message_incomplete (n : Nat) :
    (ResolveError.incomplete n).message = "unexpected input at position " ++ toString n :=
  rfl

/-- Every failed choice has a report of its own. -/
theorem message_injective : Function.Injective ResolveError.message := by
  intro a b h
  -- reports of different kinds differ in their first letters
  have hlist := congrArg String.toList h
  cases a with
  | noParse =>
      cases b with
      | noParse => rfl
      | ambiguous n => rw [message_noParse, message_ambiguous] at hlist; simp at hlist
      | incomplete n => rw [message_noParse, message_incomplete] at hlist; simp at hlist
  | ambiguous m =>
      cases b with
      | noParse => rw [message_noParse, message_ambiguous] at hlist; simp at hlist
      | ambiguous n =>
          rw [message_ambiguous, message_ambiguous, String.append_left_inj,
            String.append_right_inj] at h
          rw [eq_of_repr_eq h]
      | incomplete n => rw [message_ambiguous, message_incomplete] at hlist; simp at hlist
  | incomplete m =>
      cases b with
      | noParse => rw [message_noParse, message_incomplete] at hlist; simp at hlist
      | ambiguous n => rw [message_ambiguous, message_incomplete] at hlist; simp at hlist
      | incomplete n =>
          rw [message_incomplete, message_incomplete, String.append_right_inj] at h
          rw [eq_of_repr_eq h]

theorem line_of_ok {text : String} {v : Int} (h : evaluate text = some (.ok v)) :
    line text = text ++ " = " ++ toString v := by
  unfold line
  generalize evaluate text = answer at h
  subst h
  rfl

theorem line_of_error {text : String} {cause : ResolveError}
    (h : evaluate text = some (.error cause)) : line text = text ++ ": " ++ cause.message := by
  unfold line
  generalize evaluate text = answer at h
  subst h
  rfl

/-- A value is not printed in the way of a report. -/
theorem value_ne_report (text a b : String) : text ++ " = " ++ a ≠ text ++ ": " ++ b := by
  intro h
  rw [String.append_assoc, String.append_assoc, String.append_right_inj] at h
  simpa using congrArg String.toList h

theorem exists_evaluate (text : String) : ∃ answer, evaluate text = some answer := by
  obtain ⟨l, -, heval⟩ := evaluate_eq_verdict text
  exact ⟨_, heval⟩

theorem line_eq_value_iff (text : String) (v : Int) :
    line text = text ++ " = " ++ toString v ↔ evaluate text = some (.ok v) := by
  refine ⟨fun h => ?_, line_of_ok⟩
  obtain ⟨answer, heval⟩ := exists_evaluate text
  cases answer with
  | ok w =>
      rw [line_of_ok heval, String.append_right_inj] at h
      rw [heval, toString_value_injective h]
  | error cause =>
      rw [line_of_error heval] at h
      exact absurd h.symm (value_ne_report _ _ _)

theorem line_eq_report_iff (text : String) (cause : ResolveError) :
    line text = text ++ ": " ++ cause.message ↔ evaluate text = some (.error cause) := by
  refine ⟨fun h => ?_, line_of_error⟩
  obtain ⟨answer, heval⟩ := exists_evaluate text
  cases answer with
  | ok v =>
      rw [line_of_ok heval] at h
      exact absurd h (value_ne_report _ _ _)
  | error cause' =>
      rw [line_of_error heval, String.append_right_inj] at h
      rw [heval, message_injective h]

/-- **WHAT IS PRINTED.** For any texts, at least one, the report has a line for each, in their order
    and each a matter of its text alone; reading the text comes to an end. The line has a value
    exactly if the text is an expression with this value. It says that nothing matched exactly if
    no text but the empty one that the text begins with is an expression. It gives a position
    exactly if the text is no expression and the longest text that it begins with and that is one
    has this length. -/
theorem report_lines {texts : List String} (h : texts ≠ []) :
    report texts = String.join (texts.map fun text => line text ++ "\n") ∧
    ∀ text ∈ texts, (∃ answer, evaluate text = some answer) ∧
      (∀ v, line text = s!"{text} = {v}" ↔ Expression text.toList v) ∧
      (line text = s!"{text}: input did not match" ↔
        ∀ s, s ≠ [] → s <+: text.toList → ∀ v, ¬Expression s v) ∧
      ∀ n, line text = s!"{text}: unexpected input at position {n}" ↔
        (∀ v, ¬Expression text.toList v) ∧
        IsGreatest {k | ∃ s v, s <+: text.toList ∧ s.length = k ∧ Expression s v} n := by
  refine ⟨?_, fun text _ => ⟨exists_evaluate text, fun v => ?_, ?_, fun n => ?_⟩⟩
  · unfold report
    dsimp only
    rw [if_neg (by rwa [List.isEmpty_iff])]
  · exact (line_eq_value_iff text v).trans (evaluate_eq_ok_iff text v)
  · rw [← evaluate_eq_noParse_iff, ← line_eq_report_iff, message_noParse, String.append_assoc]
    exact Iff.rfl
  · have htext : text ++ ": " ++ ("unexpected input at position " ++ toString n) =
        s!"{text}: unexpected input at position {n}" := by
      rw [← String.append_assoc, @String.append_assoc text]
      rfl
    rw [← evaluate_eq_incomplete_iff, ← line_eq_report_iff, message_incomplete, htext]

/-- The sum is in parentheses, so it comes first. -/
theorem report_product :
    ["(2+3)*4"] ≠ [] ∧ Expression ['(', '2', '+', '3', ')', '*', '4'] 20 ∧
      report ["(2+3)*4"] = "(2+3)*4 = 20\n" := by
  have digit : ∀ c : Char, c.isDigit = true → Factor [c] (decimal [c]) := by
    intro c hc
    exact .number ⟨List.cons_ne_nil _ _, List.forall_mem_singleton.mpr hc, rfl⟩
  have two : Term ['2'] 2 := Chained.single (digit '2' rfl)
  have three : Term ['3'] 3 := Chained.single (digit '3' rfl)
  have sum : Expression ['2', '+', '3'] 5 := Chained.more (Chained.single two) three
  have product : Term ['(', '2', '+', '3', ')', '*', '4'] 20 :=
    Chained.more (Chained.single (.parenthesized sum)) (digit '4' rfl)
  have hproduct : Expression ['(', '2', '+', '3', ')', '*', '4'] 20 := Chained.single product
  have hne : ["(2+3)*4"] ≠ [] := List.cons_ne_nil _ _
  obtain ⟨hreport, hlines⟩ := report_lines hne
  have hline := ((hlines _ (List.mem_singleton.mpr rfl)).2.1 20).mpr hproduct
  refine ⟨hne, hproduct, hreport.trans ?_⟩
  rw [List.map_singleton, hline]
  rfl

end Backtrack.Arith
