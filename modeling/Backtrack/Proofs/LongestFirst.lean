import Backtrack.Proofs.Calculation
import Backtrack.Proofs.Completeness

/-!
# Longest first — the order of the readings

An expression, a term or a factor may be read from a place in several ways, and each of them ends at
a place of its own: the longest reading is tried first, and every other one is shorter than the one
before it. So a caller who wants the whole input needs to look at the first outcome only.

The list of the readings is known for one source and one number (`evaluates_expr`). It is the list
of successes of the parser, and so what the parser delivers at any cursor of any source with the
same characters, whatever else has been done to the store.
-/

namespace Backtrack

open Store

variable {σ ε : Type} {ρ : Type → Type} {α : Type}

/-! ## The first complete outcome -/

namespace Outcomes

variable {G : Grammar σ ε ρ} {source : Source σ} {i : Nat}

section

variable {s rest : Outcomes σ ε ρ α} {n : Nat} {furthest : Option Nat} {st st₁ st' : Store σ ε}
  {r : Resolution σ ε ρ α}

/-- A search for a complete outcome fails where there is no outcome. -/
theorem firstCompleteFrom_of_none (hpulled : s.pulled G st = .done ⟨none, rest⟩ st₁)
    (h : s.firstCompleteFrom G n furthest st = .done r st') : ∀ o, r.verdict ≠ .ok o := by
  cases n with
  | zero => exact nomatch h
  | succ n =>
      obtain ⟨pulled, st₂, hpull, h⟩ := Run.bind_eq_done_iff.mp h
      cases hpulled.symm.trans ((pulled_eq_done_iff G st).mpr ⟨n, hpull⟩)
      cases h
      exact fun o ho => nomatch ho

/-- Where there is one, the search has found it if it is complete, and else goes on behind it. -/
theorem firstCompleteFrom_of_some {o : Outcome σ α}
    (hpulled : s.pulled G st = .done ⟨some o, rest⟩ st₁)
    (h : s.firstCompleteFrom G n furthest st = .done r st') :
    (o.cursor.isExhausted = true ∧ r.verdict = .ok o) ∨
      ∃ n' furthest', rest.firstCompleteFrom G n' furthest' st₁ = .done r st' := by
  cases n with
  | zero => exact nomatch h
  | succ n =>
      obtain ⟨pulled, st₂, hpull, h⟩ := Run.bind_eq_done_iff.mp h
      cases hpulled.symm.trans ((pulled_eq_done_iff G st).mpr ⟨n, hpull⟩)
      dsimp only at h
      by_cases hend : o.cursor.isExhausted = true
      · rw [if_pos hend] at h
        cases h
        exact Or.inl ⟨hend, rfl⟩
      · rw [if_neg hend] at h
        exact Or.inr ⟨n, _, h⟩

end

/-- If input is left behind every outcome, none of them is complete. -/
theorem Lists.not_complete {l : List (α × Nat)} :
    (∀ x ∈ l, (source.answer x.2).isSome = true) →
    ∀ {s : Outcomes σ ε ρ α} {m n : Nat} {furthest : Option Nat} {st st' : Store σ ε}
      {r : Resolution σ ε ρ α}, s.Lists G source i m l → Feeds source i m st →
      s.firstCompleteFrom G n furthest st = .done r st' → ∀ o, r.verdict ≠ .ok o := by
  induction l with
  | nil =>
      intro _ s m n furthest st st' r hs hst h
      obtain ⟨rest, st₁, hpulled, -⟩ := hs st hst
      exact firstCompleteFrom_of_none hpulled h
  | cons x l ih =>
      intro hopen s m n furthest st st' r hs hst h
      obtain ⟨hx, hl⟩ := List.forall_mem_cons.mp hopen
      obtain ⟨rest, st₁, hpulled, hst₁, hrest⟩ := hs st hst
      rcases firstCompleteFrom_of_some hpulled h with ⟨hend, -⟩ | ⟨n', furthest', h⟩
      · rw [Cursor.isExhausted, Option.isNone_iff_eq_none] at hend
        exact absurd hend (Option.isSome_iff_ne_none.mp hx)
      · exact ih hl hrest hst₁.self h

/-- If input is left behind every outcome but the first, only the first can be complete. -/
theorem Lists.firstComplete_eq {x : α × Nat} {l : List (α × Nat)}
    (hopen : ∀ y ∈ l, (source.answer y.2).isSome = true) {s : Outcomes σ ε ρ α} {m n : Nat}
    {st st' : Store σ ε} {r : Resolution σ ε ρ α} {o : Outcome σ α}
    (hs : s.Lists G source i m (x :: l)) (hst : Feeds source i m st)
    (h : s.firstComplete G n st = .done r st') (ho : r.verdict = .ok o) :
    o = ⟨x.1, source.cursorAt i x.2⟩ := by
  obtain ⟨rest, st₁, hpulled, hst₁, hrest⟩ := hs st hst
  rcases firstCompleteFrom_of_some hpulled h with ⟨-, hfirst⟩ | ⟨n', furthest', h⟩
  · rw [hfirst] at ho
    exact (Except.ok.inj ho).symm
  · exact absurd ho (hrest.not_complete hopen hst₁.self h o)

end Outcomes

namespace Arith

variable {input : List Char} {j : Nat}

/-- The three layers of the grammar. -/
inductive Layer where
  | factor
  | term
  | expr

/-- The parser of a layer. -/
def Layer.reader : Layer → Reader Int
  | .factor => Arith.factor
  | .term   => Arith.term
  | .expr   => Arith.expr

/-- The language of a layer. -/
def Layer.language : Layer → Meaning
  | .factor => Factor
  | .term   => Term
  | .expr   => Expression

theorem Layer.plain (layer : Layer) : layer.reader.Plain := by
  have hfactor : Arith.factor.Plain := ⟨trivial, ⟨trivial, trivial⟩, trivial⟩
  have hterm : Arith.term.Plain := ⟨hfactor, trivial, hfactor⟩
  cases layer with
  | factor => exact hfactor
  | term => exact hterm
  | expr => exact ⟨hterm, trivial, hterm⟩

theorem plain_grammar : grammar.Plain
  | _, .expr => Layer.plain .expr

/-- At every position the parser of a layer gives a list that tells its language. -/
theorem evaluates_layer (input : List Char) (j : Nat) (hj : j ≤ input.length) (layer : Layer) :
    ∃ d P, Evaluates input d layer.reader layer.language P j := by
  have hfactor : ∀ k ≤ input.length, Evaluates input
      ((input.length + 1) * (10 * input.length + 51) + 2 * input.length + 15)
      factor Factor (fun c => c.isDigit = true) k := by
    intro k hk
    refine Evaluates.factor (fun hlt => ?_) hk (show ¬GoesOn ')' by simp [GoesOn])
    refine (evaluates_expr input (k + 1) hlt).raise ?_
    exact Nat.mul_le_mul_right _ (by omega)
  cases layer with
  | factor => exact ⟨_, _, hfactor j hj⟩
  | term =>
      exact ⟨_, _, Evaluates.chainLeft '*' Saturating.mul (fun k _ => hfactor k) hj (by decide)⟩
  | expr => exact ⟨_, _, evaluates_expr input j hj⟩

/-- The readings of a layer at a position are the successes of its parser there. -/
theorem Layer.enumerates (layer : Layer) (input : List Char) (j : Nat) (hj : j ≤ input.length) :
    ∃ l P, layer.reader.Enumerates grammar input j l ∧ Tells input layer.language P j l := by
  obtain ⟨d, P, l, hgives, htells⟩ := evaluates_layer input j hj layer
  exact ⟨l, P, hgives.lists.enumerates plain_grammar layer.plain hj, htells⟩

/-- No end comes twice, and all ends lie between two places. -/
theorem Tapers.length_le_sub {P : Char → Prop} : ∀ {l : List (Int × Nat)} {n : Nat},
    Tapers input P l → (∀ x ∈ l, j < x.2 ∧ x.2 ≤ n) → l.length ≤ n - j
  | [],     _, _, _ => Nat.zero_le _
  | x :: l, n, h, hn => by
      obtain ⟨hx, hl⟩ := List.pairwise_cons.mp h
      obtain ⟨hfirst, hothers⟩ := List.forall_mem_cons.mp hn
      have hlength := length_le_sub (n := x.2 - 1) hl fun y hy =>
        ⟨(hothers y hy).1, Nat.le_sub_one_of_lt (hx y hy).1⟩
      rw [List.length_cons]
      omega

/-- The outcomes are the readings of a language from position `j` on, each at an end of its own, the
    longest first. -/
structure LongestFirst (input : List Char) (L : Meaning) (j : Nat)
    (l : List (Outcome Char Int)) : Prop where
  /-- Each outcome ends before the one that comes before it. -/
  decreasing : l.Pairwise fun o o' => o'.cursor.position < o.cursor.position
  /-- No two outcomes end at the same place. -/
  once : ∀ o ∈ l, ∀ o' ∈ l, o.cursor.position = o'.cursor.position → o = o'
  /-- There are no more outcomes than symbols. -/
  length_le : l.length ≤ input.length - j
  /-- They are the readings. -/
  mem_iff : ∀ v k, (∃ o ∈ l, o.value = v ∧ o.cursor.position = k) ↔ Reads input L j v k
  /-- No reading is longer than the first outcome. -/
  longest : ∀ o ∈ l.head?, IsGreatest {k | ∃ v, Reads input L j v k} o.cursor.position

theorem Tells.longestFirst {L : Meaning} {P : Char → Prop} {l : List (Int × Nat)}
    (h : Tells input L P j l) (source : Source Char) (i : Nat) :
    LongestFirst input L j (l.map fun x => ⟨x.1, source.cursorAt i x.2⟩) where
  decreasing := List.pairwise_map.mpr (List.Pairwise.imp (fun hxy => hxy.1) h.tapers)
  once := by
    simp only [List.forall_mem_map]
    intro x hx y hy hxy
    rw [h.tapers.eq_of_snd_eq hx hy hxy]
  length_le := by
    rw [List.length_map]
    exact h.tapers.length_le_sub fun x hx => ⟨h.moves x hx, h.le hx⟩
  mem_iff v k := by
    rw [← h.mem_iff]
    constructor
    · rintro ⟨o, ho, rfl, rfl⟩
      obtain ⟨x, hx, rfl⟩ := List.mem_map.mp ho
      exact hx
    · intro hmem
      exact ⟨_, List.mem_map.mpr ⟨(v, k), hmem, rfl⟩, rfl, rfl⟩
  longest := by
    cases l with
    | nil => exact fun o ho => nomatch ho
    | cons x l =>
        rintro _ ⟨⟩
        refine ⟨⟨x.1, (h.mem_iff x.1 x.2).mp (List.mem_cons_self ..)⟩, ?_⟩
        rintro k ⟨v, hk⟩
        rcases List.mem_cons.mp ((h.mem_iff v k).mpr hk) with heq | hmem
        · exact Nat.le_of_eq (congrArg Prod.snd heq)
        · exact Nat.le_of_lt ((List.pairwise_cons.mp h.tapers).1 _ hmem).1

/-- Input is left behind every reading but the longest. -/
theorem Tells.isSome_answer {source : Source Char} (hinput : source.Delivers input) {L : Meaning}
    {P : Char → Prop} {x : Int × Nat} {l : List (Int × Nat)} (h : Tells input L P j (x :: l)) :
    ∀ y ∈ l, (source.answer y.2).isSome = true := by
  intro y hy
  obtain ⟨-, c, hc, -⟩ := (List.pairwise_cons.mp h.tapers).1 y hy
  rw [hinput _ (h.le (List.mem_cons_of_mem x hy)), hc]
  rfl

/-- **LONGEST FIRST.** In any reachable world, at any cursor of a source that delivers a text: the
    parser of a factor, of a term or of an expression can be started and pulled until it answers
    nothing. Its outcomes are the readings of its language there, and they become shorter from one
    to the next: so no two end at one place, there are no more of them than symbols are left, and
    the first is the longest reading that there is. And whenever the search for the first complete
    outcome finds one, under whatever allowance, it has found the first outcome of all. -/
theorem outcomes_longestFirst [Carrier Char] {w : World Char Empty} (hw : w.Reachable)
    {c : Cursor Char} (hc : c ∈ w.cursors) {chain : Chain Char}
    (hchain : w.store.chains[c.source]? = some chain) {input : List Char}
    (hinput : chain.source.Delivers input) (layer : Layer) :
    ∃ l s st st', layer.reader.started grammar c w.store = .done s st ∧
      s.answers grammar (l.length + 1) st = .done (l.map some ++ [none]) st' ∧
      LongestFirst input layer.language c.position l ∧
      ∀ n r st₁ o, s.firstComplete grammar n st = .done r st₁ → r.verdict = .ok o →
        l.head? = some o := by
  obtain ⟨hcursor, hfeeds⟩ := hw.sound.feeds hc hchain
  obtain ⟨l, P, ⟨d, hd⟩, htells⟩ :=
    layer.enumerates input c.position (hfeeds.le_length hinput)
  obtain ⟨s, st, hstarted, hst, hs⟩ := Parser.lists_of_enumerate hinput d _ _ l hd _ hfeeds
  obtain ⟨st', hanswers, -⟩ := hs.answers hst.self
  refine ⟨l.map fun x => ⟨x.1, chain.source.cursorAt c.source x.2⟩, s, st, st', ?_, ?_,
    htells.longestFirst _ _, fun n r st₁ o hfirst ho => ?_⟩
  · rw [hcursor]
    exact hstarted
  · rw [List.length_map, List.map_map]
    exact hanswers
  · cases l with
    | nil => exact absurd ho (hs.not_complete (List.forall_mem_nil _) hst.self hfirst o)
    | cons x l =>
        rw [hs.firstComplete_eq (htells.isSome_answer hinput) hst.self hfirst ho]
        rfl

/-- A sum that breaks off behind its first term, read from its beginning. -/
theorem product_longestFirst :
    let _ : Carrier Char := .none
    let text := ['2', '*', '3', '+']
    let w : World Char Empty := .facing text
    w.Reachable ∧ (Source.ofList text).Delivers text ∧
      ∃ l s st st', expr.started grammar ⟨0, 0, 0, some '2'⟩ w.store = .done s st ∧
        s.answers grammar (l.length + 1) st = .done (l.map some ++ [none]) st' ∧
        LongestFirst text Expression 0 l ∧
        ∀ n r st₁ o, s.firstComplete grammar n st = .done r st₁ → r.verdict = .ok o →
          l.head? = some o := by
  intro _ text w
  have hreach : w.Reachable := World.reachable_facing text
  have hdelivers := Source.delivers_ofList text
  exact ⟨hreach, hdelivers,
    outcomes_longestFirst hreach (List.mem_singleton.mpr rfl) rfl hdelivers .expr⟩

end Arith

end Backtrack
