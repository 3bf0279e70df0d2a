import Backtrack.Proofs.Successes

/-!
# Sufficiency — allowances that are enough

A sequence that delivers a finite list needs some allowance for each of its pulls, and one for all
of them can be told from its parts. `Outcomes.Gives` says that a given allowance is enough for every
pull until the list is used up, and each kind of sequence has a lemma that adds what it needs
itself. Passing an outcome on costs one step. Going on to the next outcome of the first part of a
sequence costs two, and they add up where the second part finds nothing. A repetition pays for each
row that it puts on its stack, whether or not the row is long enough to be delivered.

The lemmas are for sequences of parsers that have no faults and leave no remarks, with repetitions
of parsers that consume something.
-/

namespace Backtrack

open Store

variable {σ ε : Type} {ρ : Type → Type} {α β γ : Type}

/-- Under the allowance `d`, pulling the sequence delivers exactly this list, values and positions,
    from any store that has the source read at least `m` times. -/
def Outcomes.Gives (G : Grammar σ ε ρ) (source : Source σ) (i d : Nat) :
    Outcomes σ ε ρ α → Nat → List (α × Nat) → Prop
  | s, m, []          => ∀ st, Feeds source i m st → ∃ rest st',
      s.pull G d st = .done ⟨none, rest⟩ st' ∧ Feeds source i (st.readsOf i) st'
  | s, m, (a, j) :: l => ∀ st, Feeds source i m st → ∃ rest st',
      s.pull G d st = .done ⟨some ⟨a, source.cursorAt i j⟩, rest⟩ st' ∧
      Feeds source i (max (st.readsOf i) (j + 1)) st' ∧ rest.Gives G source i d (st'.readsOf i) l

/-- Under the allowance `d`, the parser can be started at position `j` and gives this list. -/
def Parser.Gives (G : Grammar σ ε ρ) (source : Source σ) (i d : Nat) (p : Parser σ ε ρ α) (j : Nat)
    (l : List (α × Nat)) : Prop :=
  ∀ st, Feeds source i (j + 1) st → ∃ s st',
    p.start G d (source.cursorAt i j) st = .done s st' ∧ Feeds source i (st.readsOf i) st' ∧
    s.Gives G source i d (st'.readsOf i) l

/-- The rows that go on from `row` at position `j`, where `occurrences` lists the single occurrences
    at a position and all of them move: first the rows that extend it, then `row` itself, unless it
    is too short. -/
def rowsFrom (occurrences : Nat → List (α × Nat)) (least : Nat) :
    Nat → List α → Nat → List (List α × Nat)
  | 0,     _,   _ => []
  | n + 1, row, j =>
      ((occurrences j).flatMap fun x => rowsFrom occurrences least n (row ++ [x.1]) x.2) ++
        if least ≤ row.length then [(row, j)] else []

/-- How many steps may come to be nested while these rows are gone through: each of them is put on
    the stack and taken from it. -/
def stepsFrom (occurrences : Nat → List (α × Nat)) : Nat → Nat → Nat
  | 0,     _ => 0
  | n + 1, j => (occurrences j).foldr (fun x steps => stepsFrom occurrences n x.2 + 1 + steps) 1

theorem Parser.start_raise {G : Grammar σ ε ρ} {d d' : Nat} (hd : d ≤ d') {p : Parser σ ε ρ α}
    {c : Cursor σ} {s : Outcomes σ ε ρ α} {st st' : Store σ ε}
    (h : p.start G d c st = .done s st') :
    p.start G d' c st = .done s st' := by
  rw [p.start_eq_of_le G hd c st (by simp [h]), h]

theorem Outcomes.pull_raise {G : Grammar σ ε ρ} {d d' : Nat} (hd : d ≤ d') {s : Outcomes σ ε ρ α}
    {st st' : Store σ ε} {x : Pull σ ε ρ α} (h : s.pull G d st = .done x st') :
    s.pull G d' st = .done x st' := by
  rw [s.pull_eq_of_le G hd st (by simp [h]), h]

namespace Outcomes

variable {G : Grammar σ ε ρ} {source : Source σ} {i d₀ d d' m m' j : Nat}

/-! ## One lemma for each kind of sequence -/

theorem Gives.mono {s : Outcomes σ ε ρ α} {l : List (α × Nat)} (h : s.Gives G source i d m l)
    (hm : m ≤ m') : s.Gives G source i d m' l := by
  cases l with
  | nil => exact fun st hst => h st (hst.mono hm)
  | cons x l => exact fun st hst => h st (hst.mono hm)

/-- What an allowance is enough for, a greater one is enough for. -/
theorem Gives.raise (hd : d ≤ d') {l : List (α × Nat)} : ∀ {s : Outcomes σ ε ρ α} {m : Nat},
    s.Gives G source i d m l → s.Gives G source i d' m l := by
  induction l with
  | nil =>
      intro s m h st hst
      obtain ⟨rest, st', hpull, hst'⟩ := h st hst
      exact ⟨rest, st', pull_raise hd hpull, hst'⟩
  | cons x l ih =>
      intro s m h st hst
      obtain ⟨rest, st', hpull, hst', hrest⟩ := h st hst
      exact ⟨rest, st', pull_raise hd hpull, hst', ih hrest⟩

/-- A sequence that first does something else and then answers like another one gives what that one
    gives. -/
theorem Gives.of_pull {s : Outcomes σ ε ρ α} {l : List (α × Nat)} (hd : d ≤ d')
    (h : ∀ st, Feeds source i m st → ∃ (t : Outcomes σ ε ρ α) (st' : Store σ ε),
      s.pull G d' st = t.pull G d st' ∧ Feeds source i (st.readsOf i) st' ∧
      t.Gives G source i d (st'.readsOf i) l) :
    s.Gives G source i d' m l := by
  cases l with
  | nil =>
      intro st hst
      obtain ⟨t, st', hpull, hst', ht⟩ := h st hst
      obtain ⟨rest, st'', hrest, hst''⟩ := ht st' hst'.self
      exact ⟨rest, st'', hpull.trans hrest, hst''.mono hst'.reads⟩
  | cons x l =>
      intro st hst
      obtain ⟨t, st', hpull, hst', ht⟩ := h st hst
      obtain ⟨rest, st'', hrest, hst'', hl⟩ := ht st' hst'.self
      have hreads := hst'.reads
      exact ⟨rest, st'', hpull.trans hrest, hst''.mono (by omega), hl.raise hd⟩

theorem gives_empty : (empty : Outcomes σ ε ρ α).Gives G source i (d + 1) m [] :=
  fun st hst => ⟨_, st, rfl, hst.self⟩

theorem gives_consuming (f : σ → α) {x : σ} (hx : source.answer j = some x) (hj : j < m) :
    (consuming f (source.cursorAt i j) : Outcomes σ ε ρ α).Gives G source i (d + 1) m
      [(f x, j + 1)] := by
  intro st hst
  have hreads := hst.reads
  obtain ⟨hfound, hspends⟩ := hst.intact.advance_spec hst.source (j := j) (by omega)
  have hdemand : source.demand i j i = j + 2 := if_pos ⟨rfl, by rw [hx]; rfl⟩
  refine ⟨.empty, (st.advance (source.cursorAt i j)).2, ?_, (hst.spends hspends).mono (by omega),
    gives_empty⟩
  rw [pull, show (source.cursorAt i j).current = some x from hx]
  dsimp only
  rw [hfound, Source.next?, hx]
  rfl

/-- Changing each value. -/
theorem Gives.mapped {f : Outcome σ α → Call ε (Outcome σ β)} {g : α → β}
    (hf : ∀ o, f o = .pure (o.withValue (g o.value))) {l : List (α × Nat)} :
    ∀ {s : Outcomes σ ε ρ α} {m : Nat}, s.Gives G source i d m l →
      (Outcomes.mapped f s).Gives G source i (d + 1) m (l.map fun x => (g x.1, x.2)) := by
  induction l with
  | nil =>
      intro s m h st hst
      obtain ⟨rest, st', hpull, hst'⟩ := h st hst
      refine ⟨.mapped f rest, st', ?_, hst'⟩
      rw [pull, hpull]
      rfl
  | cons x l ih =>
      intro s m h st hst
      obtain ⟨rest, st', hpull, hst', hrest⟩ := h st hst
      refine ⟨.mapped f rest, st', ?_, hst', ih hrest⟩
      rw [pull, hpull]
      dsimp only [Run.bind]
      rw [hf]
      rfl

/-- A sequence with nothing waiting behind it. -/
theorem Gives.chained_nil {l : List (α × Nat)} : ∀ {s : Outcomes σ ε ρ α} {m : Nat},
    s.Gives G source i d m l → (chained s []).Gives G source i (d + 1) m l := by
  induction l with
  | nil =>
      intro s m h st hst
      obtain ⟨rest, st', hpull, hst'⟩ := h st hst
      refine ⟨.empty, st', ?_, hst'⟩
      rw [pull, hpull]
      rfl
  | cons x l ih =>
      intro s m h st hst
      obtain ⟨rest, st', hpull, hst', hrest⟩ := h st hst
      refine ⟨.chained rest [], st', ?_, hst', ih hrest⟩
      rw [pull, hpull]
      rfl

/-- A sequence with a parser waiting behind it: when the one is spent the other is started. -/
theorem Gives.chained_cons {p : Parser σ ε ρ α} {waiting : List (Parser σ ε ρ α × Cursor σ)}
    {l' l'' : List (α × Nat)} (hp : p.Gives G source i d₀ j l') (hd : d₀ ≤ d)
    (hwaiting : ∀ {s : Outcomes σ ε ρ α} {m : Nat}, j < m → s.Gives G source i d₀ m l' →
      (chained s waiting).Gives G source i d m l'') {l : List (α × Nat)} :
    ∀ {s : Outcomes σ ε ρ α} {m : Nat}, j < m → s.Gives G source i d m l →
      (chained s ((p, source.cursorAt i j) :: waiting)).Gives G source i (d + 1) m
        (l ++ l'') := by
  induction l with
  | nil =>
      intro s m hj h
      refine Gives.of_pull (Nat.le_add_right d 1) ?_
      intro st hst
      obtain ⟨rest, st', hpull, hst'⟩ := h st hst
      have hreads := hst.reads
      have hreads' := hst'.reads
      obtain ⟨t, st'', hstart, hst'', ht⟩ := hp st' (hst'.self.mono (by omega))
      have hreads'' := hst''.reads
      refine ⟨chained t waiting, st'', ?_, hst''.mono hreads', hwaiting (by omega) ht⟩
      rw [pull, hpull]
      dsimp only [Run.bind]
      rw [Parser.start_raise hd hstart]
  | cons x l ih =>
      intro s m hj h st hst
      obtain ⟨rest, st', hpull, hst', hrest⟩ := h st hst
      have hreads := hst.reads
      have hreads' := hst'.reads
      refine ⟨.chained rest _, st', ?_, hst', ih (by omega) hrest⟩
      rw [pull, hpull]
      rfl

/-- A parser to be started at the first pull. -/
theorem gives_deferred {p : Parser σ ε ρ α} {l : List (α × Nat)} (hp : p.Gives G source i d j l)
    (hj : j < m) : (deferred p (source.cursorAt i j)).Gives G source i (d + 2) m l :=
  Gives.chained_cons hp (Nat.le_add_right d 1) (fun _ => Gives.chained_nil) hj gives_empty

/-- The inner sequence of a pair goes with the value held, and then the outer one goes on. -/
theorem Gives.paired_inner {f : α → β → γ} {q : Parser σ ε ρ β} {outer : Outcomes σ ε ρ α} {a : α}
    {l' : List (γ × Nat)} {m₀ : Nat}
    (hspent : (paired f q outer none .empty).Gives G source i d m₀ l') {l : List (β × Nat)} :
    ∀ {inner : Outcomes σ ε ρ β} {m : Nat}, m₀ ≤ m → inner.Gives G source i d m l →
      (paired f q outer (some a) inner).Gives G source i (d + 1) m
        (l.map (fun y => (f a y.1, y.2)) ++ l') := by
  induction l with
  | nil =>
      intro inner m hm hinner
      refine Gives.of_pull (Nat.le_add_right d 1) ?_
      intro st hst
      obtain ⟨rest, st', hpull, hst'⟩ := hinner st hst
      have hreads := hst.reads
      have hreads' := hst'.reads
      refine ⟨.paired f q outer none .empty, st', ?_, hst', hspent.mono (by omega)⟩
      rw [pull, hpull]
      rfl
  | cons y l ih =>
      intro inner m hm hinner st hst
      obtain ⟨rest, st', hpull, hst', hrest⟩ := hinner st hst
      have hreads := hst.reads
      have hreads' := hst'.reads
      refine ⟨.paired f q outer (some a) rest, st', ?_, hst', ih (by omega) hrest⟩
      rw [pull, hpull]
      rfl

/-- Going on behind each outcome with one and the same parser, and combining the values. Each
    outcome of the outer sequence adds two steps. -/
theorem Gives.paired {f : α → β → γ} {q : Parser σ ε ρ β} {g : Nat → List (β × Nat)}
    {l : List (α × Nat)} : (∀ x ∈ l, q.Gives G source i d x.2 (g x.2)) →
    ∀ {outer : Outcomes σ ε ρ α} {m : Nat}, outer.Gives G source i d m l →
      (Outcomes.paired f q outer none .empty).Gives G source i (d + 2 * l.length + 1) m
        (l.flatMap fun x => (g x.2).map fun y => (f x.1 y.1, y.2)) := by
  induction l with
  | nil =>
      intro _ outer m houter st hst
      obtain ⟨rest, st', hpull, hst'⟩ := houter st hst
      refine ⟨.empty, st', ?_, hst'⟩
      rw [List.length_nil, pull, hpull]
      rfl
  | cons x l ih =>
      obtain ⟨a, j⟩ := x
      intro hq outer m houter
      obtain ⟨hfirst, hq⟩ := List.forall_mem_cons.mp hq
      -- what comes behind this outcome needs less than what is left with it
      refine Gives.of_pull (d := d + 2 * l.length + 2) (by rw [List.length_cons]; omega) ?_
      intro st hst
      obtain ⟨outer', st₁, hpull, hst₁, hrest⟩ := houter st hst
      obtain ⟨t, st₂, hstart, hst₂, ht⟩ := hfirst st₁ (hst₁.mono (Nat.le_max_right _ _))
      have hreads₁ := hst₁.reads
      have hreads₂ := hst₂.reads
      refine ⟨.paired f q outer' (some a) t, st₂, ?_, hst₂.mono (by omega),
        (ih hq hrest).paired_inner hreads₂ (ht.raise (by omega))⟩
      rw [List.length_cons, show d + 2 * (l.length + 1) + 1 = d + 2 * l.length + 2 + 1 from rfl,
        pull, pull_raise (by omega) hpull]
      dsimp only [Run.bind]
      rw [Parser.start_raise (by omega) hstart]

section

variable {least N : Nat} {f : List α → β} {p : Parser σ ε ρ α}

variable (G source i d least f p) in
/-- Putting an occurrence at position `j` on top of any row that reads `row` with it, the repetition
    gives the rows of this list and then what it would have given without, at the cost of `steps`
    more steps. -/
def Affords (row : List α) (j : Nat) (found : List (List α × Nat)) (steps : Nat) : Prop :=
  ∀ (value : Option α) (below : Frames σ ε ρ α) {l : List (β × Nat)} {m d' : Nat}, d ≤ d' →
    (∀ s c, (Frames.push s c value below).values [] = row) →
    (repeating least f p none below).Gives G source i d' m l →
    ∀ st, Feeds source i (max m (j + 1)) st → ∃ t st',
      p.start G d (source.cursorAt i j) st = .done t st' ∧ Feeds source i (st.readsOf i) st' ∧
      (repeating least f p none (.push t (source.cursorAt i j) value below)).Gives G source i
        (d' + steps) (st'.readsOf i) (found.map (fun y => (f y.1, y.2)) ++ l)

/-- With no more occurrences on top the row itself comes, unless it is too short, and then the row
    below. -/
theorem Gives.repeating_spent {row : List α} {value : Option α} {below : Frames σ ε ρ α}
    {l' : List (β × Nat)} {m₀ : Nat} (hrow : ∀ s c, (Frames.push s c value below).values [] = row)
    (hbelow : (repeating least f p none below).Gives G source i d' m₀ l') (hd : d ≤ d')
    (hj : j < m₀) {s : Outcomes σ ε ρ α} (hm : m₀ ≤ m) (hs : s.Gives G source i d m []) :
    (repeating least f p none (.push s (source.cursorAt i j) value below)).Gives G source i
      (d' + 1) m ((if least ≤ row.length then [(row, j)] else []).map (fun y => (f y.1, y.2)) ++
        l') := by
  by_cases hlong : least ≤ row.length
  · rw [if_pos hlong]
    intro st hst
    obtain ⟨rest, st', hpull, hst'⟩ := hs st hst
    have hreads := hst.reads
    have hreads' := hst'.reads
    refine ⟨.repeating least f p none below, st', ?_, hst'.self.mono (by omega),
      (hbelow.mono (by omega)).raise (by omega)⟩
    rw [pull, pull_raise hd hpull]
    dsimp only [Run.bind]
    rw [hrow, if_pos hlong]
  · rw [if_neg hlong]
    refine Gives.of_pull (d := d') (by omega) ?_
    intro st hst
    obtain ⟨rest, st', hpull, hst'⟩ := hs st hst
    have hreads := hst.reads
    have hreads' := hst'.reads
    refine ⟨.repeating least f p none below, st', ?_, hst', hbelow.mono (by omega)⟩
    rw [pull, pull_raise hd hpull]
    dsimp only [Run.bind]
    rw [hrow, if_neg hlong]

/-- What the topmost occurrence has left is used up first, each outcome with all that extends it;
    then comes the row itself, unless it is too short, and then the row below. -/
theorem Gives.repeating_push {deeper : List α → Nat → List (List α × Nat)} {steps : Nat → Nat}
    {row : List α} {value : Option α} {below : Frames σ ε ρ α} {l' : List (β × Nat)} {m₀ : Nat}
    (hrow : ∀ s c, (Frames.push s c value below).values [] = row)
    (hbelow : (repeating least f p none below).Gives G source i d' m₀ l') (hd : d ≤ d')
    (hj : j < m₀) {l : List (α × Nat)} :
    (∀ x ∈ l, x.2 ≠ j ∧
      Affords G source i d least f p (row ++ [x.1]) x.2 (deeper (row ++ [x.1]) x.2) (steps x.2)) →
    ∀ {s : Outcomes σ ε ρ α} {m : Nat}, m₀ ≤ m → s.Gives G source i d m l →
      (repeating least f p none (.push s (source.cursorAt i j) value below)).Gives G source i
        (d' + l.foldr (fun x rest => steps x.2 + 1 + rest) 1) m
        (((l.flatMap fun x => deeper (row ++ [x.1]) x.2) ++
          if least ≤ row.length then [(row, j)] else []).map (fun y => (f y.1, y.2)) ++ l') := by
  induction l with
  | nil =>
      intro _ s m hm hs
      exact Gives.repeating_spent hrow hbelow hd hj hm hs
  | cons x l ih =>
      obtain ⟨a, k⟩ := x
      intro hdeeper s m hm hs
      obtain ⟨⟨hk, hfirst⟩, hdeeper⟩ := List.forall_mem_cons.mp hdeeper
      have hvalues : ∀ s c, (Frames.push s c value below).values [a] = row ++ [a] := by
        intro s c
        rw [Frames.values_eq_append, hrow]
      -- the occurrence has moved: its rows come before what is left of this one
      rw [List.foldr_cons]
      refine Gives.of_pull (d := d' + l.foldr (fun x rest => steps x.2 + 1 + rest) 1 + steps k)
        (by dsimp only; omega) ?_
      intro st hst
      obtain ⟨rest, st₁, hpull, hst₁, hrest⟩ := hs st hst
      have hreads := hst.reads
      have hreads₁ := hst₁.reads
      have hrest' := ih hdeeper (by omega) hrest
      obtain ⟨t, st₂, hstart, hst₂, ht⟩ := hfirst (some a)
        (.push rest (source.cursorAt i j) value below) (by omega) (fun _ _ => hvalues rest _) hrest'
        st₁ (hst₁.self.mono (by omega))
      refine ⟨.repeating least f p none (.push t (source.cursorAt i k) (some a)
        (.push rest (source.cursorAt i j) value below)), st₂, ?_, hst₂.mono (by omega), ?_⟩
      · rw [show d' + (steps k + 1 + l.foldr (fun x rest => steps x.2 + 1 + rest) 1) =
          d' + l.foldr (fun x rest => steps x.2 + 1 + rest) 1 + steps k + 1 by omega, pull,
          pull_raise (by omega) hpull]
        dsimp only [Run.bind]
        rw [if_neg (show ¬(source.cursorAt i k).position = (source.cursorAt i j).position from hk),
          Parser.start_raise (by omega) hstart]
      · rw [List.flatMap_cons, List.append_assoc, List.map_append, List.append_assoc]
        exact ht

/-- All rows that go on from a row are given. -/
theorem affords (least : Nat) (f : List α → β) {occurrences : Nat → List (α × Nat)} {j₀ : Nat}
    (hmoves : ∀ k, j₀ ≤ k → ∀ x ∈ occurrences k, k < x.2 ∧ x.2 ≤ N)
    (hp : ∀ k, j₀ ≤ k → k ≤ N → p.Gives G source i d k (occurrences k)) (n : Nat) :
    ∀ row j, j₀ ≤ j → j ≤ N → N < j + n → Affords G source i d least f p row j
      (rowsFrom occurrences least n row j) (stepsFrom occurrences n j) := by
  induction n with
  | zero =>
      intro row j _ hj hn
      omega
  | succ n ih =>
      intro row j hj₀ hj hn value below l m d' hd hrow hbelow st hst
      obtain ⟨t, st', hstart, hst', ht⟩ := hp j hj₀ hj st (hst.mono (Nat.le_max_right _ _))
      have hreads := hst.reads
      have hreads' := hst'.reads
      refine ⟨t, st', hstart, hst', Gives.repeating_push hrow
        (hbelow.mono (Nat.le_max_left m (j + 1))) hd (by omega) (fun x hx => ?_) (by omega) ht⟩
      obtain ⟨hjx, hxN⟩ := hmoves j hj₀ x hx
      exact ⟨by omega, ih _ _ (by omega) hxN (by omega)⟩

theorem gives_bottom : (repeating least f p none .bottom).Gives G source i (d + 1) m [] :=
  fun st hst => ⟨_, st, rfl, hst.self⟩

end

end Outcomes

/-! ## Parsers -/

namespace Parser

variable {G : Grammar σ ε ρ} {source : Source σ} {i d d' j : Nat}

theorem Gives.raise {p : Parser σ ε ρ α} {l : List (α × Nat)} (h : p.Gives G source i d j l)
    (hd : d ≤ d') : p.Gives G source i d' j l := by
  intro st hst
  obtain ⟨s, st', hstart, hst', hs⟩ := h st hst
  exact ⟨s, st', start_raise hd hstart, hst', hs.raise hd⟩

/-- One symbol that passes a test. -/
theorem gives_satisfy (test : σ → Bool) :
    (satisfy test : Parser σ ε ρ σ).Gives G source i (d + 1) j
      (((source.answer j).filter test).toList.map fun x => (x, j + 1)) := by
  intro st hst
  have hcurrent : (source.cursorAt i j).current = source.answer j := rfl
  have hstart : (satisfy test : Parser σ ε ρ σ).start G (d + 1) (source.cursorAt i j) st =
      .done (if ((source.answer j).filter test).isSome then
        .consuming id (source.cursorAt i j) else .empty) st := by
    rw [satisfy, start, hcurrent]
    cases source.answer j with
    | none => rfl
    | some x => cases hx : test x <;> simp [Call.run, Call.pure, Run.bind, Store.remark, hx]
  refine ⟨_, st, hstart, hst.self, ?_⟩
  cases hx : (source.answer j).filter test with
  | none => exact Outcomes.gives_empty
  | some x =>
      have hanswer := (Option.filter_eq_some_iff.mp hx).1
      exact Outcomes.gives_consuming id hanswer hst.reads

theorem Gives.mapPure {p : Parser σ ε ρ α} {l : List (α × Nat)} (h : p.Gives G source i d j l)
    (g : α → β) : (p.mapPure g).Gives G source i (d + 1) j (l.map fun x => (g x.1, x.2)) := by
  intro st hst
  obtain ⟨s, st', hstart, hst', hs⟩ := h st hst
  refine ⟨.mapped (fun o => (Call.pure (g o.value)).map o.withValue) s, st', ?_, hst',
    hs.mapped fun o => rfl⟩
  rw [Parser.mapPure, start, hstart]
  rfl

theorem Gives.seq {f : α → β → γ} {p : Parser σ ε ρ α} {q : Parser σ ε ρ β} {l : List (α × Nat)}
    {g : Nat → List (β × Nat)} (hp : p.Gives G source i d j l)
    (hq : ∀ x ∈ l, q.Gives G source i d x.2 (g x.2)) :
    (Parser.seq f p q).Gives G source i (d + 2 * l.length + 3) j
      (l.flatMap fun x => (g x.2).map fun y => (f x.1 y.1, y.2)) := by
  intro st hst
  refine ⟨_, st, rfl, hst.self, ?_⟩
  refine (Outcomes.Gives.paired (fun x hx => (hq x hx).raise (Nat.le_add_right d 2))
    (Outcomes.gives_deferred hp hst.reads)).raise (by omega)

theorem Gives.or {p q : Parser σ ε ρ α} {l l' : List (α × Nat)} (hp : p.Gives G source i d j l)
    (hq : q.Gives G source i d j l') : (p.or q).Gives G source i (d + 3) j (l ++ l') := by
  intro st hst
  refine ⟨_, st, rfl, hst.self, ?_⟩
  refine Outcomes.Gives.chained_cons (l := []) (hp.raise (Nat.le_add_right d 1))
    (Nat.le_add_right _ 1) (fun hj hs => ?_) hst.reads Outcomes.gives_empty
  exact hs.chained_cons hq (Nat.le_add_right d 1) (fun _ => Outcomes.Gives.chained_nil) hj

/-- A repetition puts its first occurrence on the empty row. -/
theorem gives_repetition (least n : Nat) (f : List α → β) {p : Parser σ ε ρ α} {N : Nat}
    {occurrences : Nat → List (α × Nat)}
    (hmoves : ∀ k, j ≤ k → ∀ x ∈ occurrences k, k < x.2 ∧ x.2 ≤ N)
    (hp : ∀ k, j ≤ k → k ≤ N → p.Gives G source i d k (occurrences k)) (hj : j ≤ N)
    (hn : N < j + n) :
    (repetition least f p).Gives G source i (d + stepsFrom occurrences n j + 2) j
      ((rowsFrom occurrences least n [] j).map fun y => (f y.1, y.2)) := by
  intro st hst
  refine ⟨_, st, rfl, hst.self,
    Outcomes.Gives.of_pull (d := d + 1 + stepsFrom occurrences n j) (by omega) fun st₁ hst₁ => ?_⟩
  have hreads := hst.reads
  have hreads₁ := hst₁.reads
  obtain ⟨t, st₂, hstart, hst₂, ht⟩ := Outcomes.affords least f hmoves hp n [] j
    (Nat.le_refl j) hj hn none .bottom (Nat.le_add_right d 1) (fun _ _ => rfl)
    (Outcomes.gives_bottom (m := 0)) st₁ (hst₁.mono (by omega))
  rw [List.append_nil] at ht
  refine ⟨_, st₂, ?_, hst₂, ht⟩
  rw [show d + stepsFrom occurrences n j + 2 = d + 1 + stepsFrom occurrences n j + 1 by omega,
    Outcomes.pull, start_raise (by omega) hstart]
  rfl

theorem Gives.rule {r : ρ α} {l : List (α × Nat)} (h : (G.body r).Gives G source i d j l) :
    (Parser.rule r).Gives G source i (d + 1) j l := by
  intro st hst
  obtain ⟨s, st', hstart, hst', hs⟩ := h st hst
  exact ⟨s, st', hstart, hst', hs.raise (Nat.le_add_right d 1)⟩

end Parser

/-! ## Without an allowance -/

section

variable {G : Grammar σ ε ρ} {source : Source σ} {i d : Nat}

/-- What is given under some allowance is delivered. -/
theorem Outcomes.Gives.lists {l : List (α × Nat)} : ∀ {s : Outcomes σ ε ρ α} {m : Nat},
    s.Gives G source i d m l → s.Lists G source i m l := by
  induction l with
  | nil =>
      intro s m h st hst
      obtain ⟨rest, st', hpull, hst'⟩ := h st hst
      exact ⟨rest, st', (pulled_eq_done_iff G st).mpr ⟨d, hpull⟩, hst'⟩
  | cons x l ih =>
      intro s m h st hst
      obtain ⟨rest, st', hpull, hst', hrest⟩ := h st hst
      exact ⟨rest, st', (pulled_eq_done_iff G st).mpr ⟨d, hpull⟩, hst', ih hrest⟩

theorem Parser.Gives.lists {p : Parser σ ε ρ α} {j : Nat} {l : List (α × Nat)}
    (h : p.Gives G source i d j l) : p.Lists G source i j l := by
  intro st hst
  obtain ⟨s, st', hstart, hst', hs⟩ := h st hst
  exact ⟨s, st', (started_eq_done_iff G _ st).mpr ⟨d, hstart⟩, hst', hs.lists⟩

end

end Backtrack
