import Backtrack.Proofs.Renaming
import Backtrack.Proofs.Stack

/-!
# Folding — a loop that carries a value

The rows of a repetition may be folded from the left, beginning with some value. The same can be
had without rows, by a loop that carries the value along: look for an occurrence, go on behind it
with the value that it leads to, and when no more is to be found there, give the value carried.

A loop is a rule for each value, so the grammar is extended by such rules (`Grammar.looping`). The
two sides are compared by way of the recursion that lists the rows (`Rows`): where an enumeration is
suspended with the row `row`, the loop is suspended with `row.foldl step a` (`Rows.Folds`), and each
follows the other through every pull. Here it matters that every occurrence consumes something, for
one that consumes nothing ends its row, but not the loop.
-/

namespace Backtrack

open Store

universe u v w w'

variable {σ ε : Type} {ρ : Type → Type} {α β γ : Type}

/-! ## The grammar with the loop -/

/-- The names of the rules of a grammar, and one name more for each value of the type `α`. -/
inductive Looped (ρ : Type → Type) (α γ : Type) : Type where
  | old (r : ρ γ)
  | loop (a : α) (h : α = γ)

/-- The parser in the larger grammar. -/
def Parser.extend (p : Parser σ ε ρ γ) : Parser σ ε (Looped ρ α) γ :=
  p.rename fun _ => .old

/-- The sequence in the larger grammar. -/
def Outcomes.extend (s : Outcomes σ ε ρ γ) : Outcomes σ ε (Looped ρ α) γ :=
  s.rename fun _ => .old

/-- The loop, when it carries `a`. -/
def Parser.loop (a : α) : Parser σ ε (Looped ρ α) α :=
  .rule (.loop a rfl)

/-- The grammar with a loop over `q`: behind each outcome of `q` it goes on with the value that
    `step` makes of the value carried and the value found, and at last it gives the value that it
    carries. -/
def Grammar.looping (G : Grammar σ ε ρ) (step : α → β → α) (q : Parser σ ε ρ β) :
    Grammar σ ε (Looped ρ α) where
  body {γ} r := match γ, r with
    | _, .old r      => (G.body r).extend
    | _, .loop a rfl => (q.extend.bind fun b => .loop (step a b)).or (.unit a)

namespace Outcomes

/-- The loop has been started and carries `a`, and nothing has been pulled. -/
def asking (step : α → β → α) (q : Parser σ ε ρ β) (a : α) (c : Cursor σ) :
    Outcomes σ ε (Looped ρ α) α :=
  .chained .empty [(q.extend.bind fun b => .loop (step a b), c), (.unit a, c)]

/-- What goes on behind each of the occurrences `s`, if `a` was carried before them. -/
def beyond (step : α → β → α) (a : α) (s : Outcomes σ ε ρ β)
    (inner : Outcomes σ ε (Looped ρ α) α) : Outcomes σ ε (Looped ρ α) α :=
  .bound (fun b => .loop (step a b)) (.chained s.extend []) inner

/-- The loop carries `a` at `c`, has the occurrences `s` still to come there, and before them what
    is left behind the latest one. -/
def carrying (step : α → β → α) (a : α) (c : Cursor σ) (s : Outcomes σ ε ρ β)
    (inner : Outcomes σ ε (Looped ρ α) α) : Outcomes σ ε (Looped ρ α) α :=
  .chained (beyond step a s inner) [(.unit a, c)]

/-- When nothing goes on any more, the value carried is given. -/
def atLast (a : α) (c : Cursor σ) :
    Pull σ ε (Looped ρ α) α → Store σ ε → Run σ ε (Pull σ ε (Looped ρ α) α)
  | ⟨some o, t⟩, st => .done ⟨some o, .chained t [(.unit a, c)]⟩ st
  | ⟨none, _⟩,   st => .done ⟨some ⟨a, c⟩, .chained (.ready []) []⟩ st

end Outcomes

section

variable {G : Grammar σ ε ρ} {step : α → β → α} {q : Parser σ ε ρ β} {a : α} {c : Cursor σ}

theorem Grammar.renames_looping : G.Renames (fun _ => Looped.old) (G.looping step q) :=
  fun _ _ => rfl

/-- The parser in the larger grammar is started like the parser. -/
theorem Parser.started_extend (p : Parser σ ε ρ γ) (c : Cursor σ) (st : Store σ ε) :
    p.extend.started (G.looping step q) c st = (p.started G c st).bind fun s st =>
      .done s.extend st :=
  p.started_rename Grammar.renames_looping c st

theorem Parser.started_loop (a : α) (c : Cursor σ) (st : Store σ ε) :
    (loop a).started (G.looping step q) c st = .done (.asking step q a c) st := by
  rw [loop, started_rule]
  exact started_or (G.looping step q) c st _ _

/-- Whatever the allowance, a start goes no further than without one. -/
theorem Parser.start_within_started (G : Grammar σ ε ρ) (p : Parser σ ε ρ γ) (n : Nat)
    (c : Cursor σ) (st : Store σ ε) : (p.start G n c st).Within (p.started G c st) :=
  (p.start_tends G c st).rising.within_limit n

/-- The same of a pull. -/
theorem Outcomes.pull_within_pulled (G : Grammar σ ε ρ) (s : Outcomes σ ε ρ γ) (n : Nat)
    (st : Store σ ε) : (s.pull G n st).Within (s.pulled G st) :=
  (s.pull_tends G st).rising.within_limit n

theorem Parser.start_loop_within (n : Nat) (a : α) (c : Cursor σ) (st : Store σ ε) :
    ((loop a).start (G.looping step q) n c st).Within (.done (.asking step q a c) st) := by
  rw [← started_loop]
  exact (loop a).start_within_started _ n c st

namespace Outcomes

theorem pull_chained_unit_within (t : Outcomes σ ε (Looped ρ α) α) (n : Nat) (st : Store σ ε) :
    ((chained t [(.unit a, c)]).pull (G.looping step q) (n + 1) st).Within
      ((t.pull (G.looping step q) n st).bind (atLast a c)) := by
  refine (Run.Within.refl _).bind ?_
  rintro ⟨_ | o, t⟩ st
  · match n with
    | 0     => exact .unfinished _
    | 1     => exact .unfinished _
    | m + 2 => exact .refl _
  · exact .refl _

theorem pulled_chained_unit (t : Outcomes σ ε (Looped ρ α) α) (st : Store σ ε) :
    (chained t [(.unit a, c)]).pulled (G.looping step q) st =
      (t.pulled (G.looping step q) st).bind (atLast a c) := by
  rw [pulled_chained]
  refine Run.bind_congr fun x st _ => ?_
  rcases x with ⟨_ | o, t⟩
  · dsimp only
    rw [Parser.started_unit, Run.done_bind, pulled_chained_nil, pulled_ready_cons]
    rfl
  · rfl

/-- The sequence in the larger grammar is pulled like the sequence. -/
theorem pulled_extend (s : Outcomes σ ε ρ γ) (st : Store σ ε) :
    s.extend.pulled (G.looping step q) st = (s.pulled G st).bind fun x st =>
      .done ⟨x.answer, x.rest.extend⟩ st :=
  s.pulled_rename Grammar.renames_looping st

/-- What the loop does when nothing is left behind the latest occurrence. -/
noncomputable def next (G : Grammar σ ε ρ) (step : α → β → α) (q : Parser σ ε ρ β) (a : α)
    (c : Cursor σ) (s : Outcomes σ ε ρ β) (st : Store σ ε) :
    Run σ ε (Pull σ ε (Looped ρ α) α) :=
  (s.pulled G st).bind fun x st =>
    match x with
    | ⟨some o, s⟩ =>
        (carrying step a c s (asking step q (step a o.value) o.cursor)).pulled
          (G.looping step q) st
    | ⟨none, _⟩   => .done ⟨some ⟨a, c⟩, .chained (.ready []) []⟩ st

theorem pulled_carrying (s : Outcomes σ ε ρ β) (inner : Outcomes σ ε (Looped ρ α) α)
    (st : Store σ ε) :
    (carrying step a c s inner).pulled (G.looping step q) st =
      (inner.pulled (G.looping step q) st).bind fun x st =>
        match x with
        | ⟨some o, inner⟩ => .done ⟨some o, carrying step a c s inner⟩ st
        | ⟨none, _⟩       => next G step q a c s st := by
  rw [carrying, pulled_chained_unit, beyond, pulled_bound, Run.bind_assoc]
  refine Run.bind_congr fun x st _ => ?_
  rcases x with ⟨_ | o, inner⟩
  · dsimp only
    rw [pulled_chained_nil, pulled_extend, next, Run.bind_assoc, Run.bind_assoc, Run.bind_assoc]
    refine Run.bind_congr fun x st _ => ?_
    rcases x with ⟨_ | o, s⟩
    · rfl
    · dsimp only [Run.done_bind]
      rw [Parser.started_loop, Run.done_bind, carrying, pulled_chained_unit]
      rfl
  · rfl

theorem pulled_asking (a : α) (c : Cursor σ) (st : Store σ ε) :
    (asking step q a c).pulled (G.looping step q) st =
      (q.started G c st).bind fun s st =>
        (carrying step a c s .empty).pulled (G.looping step q) st := by
  rw [asking, pulled_chained_empty, Parser.started_bind, Run.done_bind, pulled_chained_unit,
    pulled_bound_deferred, Parser.started_extend, Run.bind_assoc, Run.bind_assoc]
  refine Run.bind_congr fun s st _ => ?_
  rw [Run.done_bind, carrying, pulled_chained_unit]
  rfl

end Outcomes

end

/-! ## What is suspended -/

namespace Run

variable {δ : Type u} {η : Type v} {δ' : Type w} {η' : Type w'} {R : δ → η → Prop}
  {S : δ' → η' → Prop} {r : Run σ ε δ} {r' : Run σ ε η}

/-- Where one run follows another, what comes next may make use of how the two have ended. -/
theorem Follows.andThen {k : δ → Store σ ε → Run σ ε δ'} {l : η → Store σ ε → Run σ ε η'}
    (h : Follows R r r')
    (hk : ∀ a b st, r = .done a st → r' = .done b st → R a b → Follows S (k a st) (l b st)) :
    Follows S (r.bind k) (r'.bind l) := by
  cases h with
  | done st h => exact hk _ _ st rfl rfl h
  | fault x st => exact .fault x st
  | unfinished => exact .unfinished _

end Run

section

variable [Carrier σ] (G : Grammar σ ε ρ) (q : Parser σ ε ρ β)

/-- In the store, or when it has been read on, the parser gives this outcome where it is started. -/
def Parser.Offers (st : Store σ ε) (c : Cursor σ) (o : Outcome σ β) : Prop :=
  ∃ st₁ found s own, st.ReadOn st₁ ∧ st₁.Holds c ∧ q.Delivers G c st₁ (found ++ [o]) s own

/-- Every outcome of the parser consumes something. -/
def Parser.Consumes (st : Store σ ε) : Prop :=
  ∀ c o, q.Offers G st c o → o.cursor.position ≠ c.position

/-- Wherever the enumeration is suspended, it goes on soundly, with what the parser leaves. -/
def Rows.Sound (st : Store σ ε) : Rows σ ε ρ β → Prop
  | waiting _ c      => q.Sound G c st
  | going _ c s rows => (∃ os, q.Leaves G c os s st) ∧ rows.Sound st
  | spent            => True

variable {G q} {st st' st₁ st₂ : Store σ ε} {c : Cursor σ} {s s' : Outcomes σ ε ρ β}
  {rows : Rows σ ε ρ β} {row : List β} {o : Outcome σ β}

theorem Parser.Leaves.offers {os : List (Outcome σ β)} (h : q.Leaves G c os s st₁)
    (hread : st.ReadOn st₁) (hs : s.pulled G st₁ = .done ⟨some o, s'⟩ st₂) :
    q.Offers G st c o := by
  obtain ⟨own, hown⟩ := h.gives hs
  exact ⟨st₁, os, s', own, hread, h.parser.holds, hown⟩

namespace Rows

theorem Sound.later (h : rows.Sound G q st) (hread : st.ReadOn st') : rows.Sound G q st' := by
  induction rows with
  | waiting row c => exact Parser.Sound.later h hread.later
  | going row c s rows ih =>
      obtain ⟨⟨os, hleaves⟩, hrows⟩ := h
      exact ⟨⟨os, hleaves.later hread⟩, ih hrows⟩
  | spent => trivial

/-- An occurrence has been found, and the rows behind it are waiting. -/
theorem Sound.deeper (h : (going row c s rows).Sound G q st)
    (hs : s.pulled G st = .done ⟨some o, s'⟩ st') :
    (going row c s' (waiting (row ++ [o.value]) o.cursor)).Sound G q st' ∧ st.ReadOn st' := by
  obtain ⟨⟨os, hleaves⟩, -⟩ := h
  have hleaves' := hleaves.pull hs
  obtain ⟨hs', -, ho⟩ := hleaves.sequence.pulled hs
  exact ⟨⟨⟨_, hleaves'⟩, hs'.parser hleaves'.parser.honest (ho o rfl).1⟩,
    hleaves.sequence.readOn hs⟩

/-- An occurrence that is found lies elsewhere. -/
theorem Sound.moved {st₀ : Store σ ε} (h : (going row c s rows).Sound G q st)
    (hq : q.Consumes G st₀) (hread : st₀.ReadOn st)
    (hs : s.pulled G st = .done ⟨some o, s'⟩ st') : o.cursor.position ≠ c.position := by
  obtain ⟨⟨os, hleaves⟩, -⟩ := h
  exact hq c o (hleaves.offers hread hs)

/-- **A PULL OF AN ENUMERATION** reads on, and leaves what goes on soundly. -/
theorem Sound.pull (n : Nat) : ∀ {rows : Rows σ ε ρ β} {st st' : Store σ ε}
    {found : Answer σ ε ρ β}, rows.Sound G q st → st.Intact →
    rows.pull G 0 q n st = .done found st' →
    st.ReadOn st' ∧ (found.elim spent Prod.snd).Sound G q st' := by
  induction n with
  | zero =>
      intro rows st st' found _ _ hpull
      exact nomatch hpull
  | succ n ih =>
      intro rows st st' found h hst hpull
      cases rows with
      | spent =>
          cases hpull
          exact ⟨.refl hst, trivial⟩
      | waiting row c =>
          obtain ⟨s, st₁, hs, hdone⟩ := Run.bind_eq_done_iff.mp hpull
          have hstarted := (Parser.started_eq_done_iff G c st).mpr ⟨n, hs⟩
          have hread := (Parser.Sound.started h hstarted).2
          have hgoing : (going row c s spent).Sound G q st₁ := ⟨⟨[], .start h hstarted⟩, trivial⟩
          obtain ⟨hread', hfound⟩ := ih hgoing hread.later.intact hdone
          exact ⟨hread.trans hread', hfound⟩
      | going row c s rows =>
          obtain ⟨found₁, st₁, hrows, hdone⟩ := Run.bind_eq_done_iff.mp hpull
          obtain ⟨hread, hfound₁⟩ := ih h.2 hst hrows
          have h₁ := h.later hread
          cases found₁ with
          | some answer =>
              cases hdone
              exact ⟨hread, h₁.1, hfound₁⟩
          | none =>
              obtain ⟨⟨_ | o, s'⟩, st₂, hs, hdone⟩ := Run.bind_eq_done_iff.mp hdone
              · cases hdone
                obtain ⟨⟨os, hleaves⟩, -⟩ := h₁
                have hpulled := (Outcomes.pulled_eq_done_iff G st₁).mpr ⟨n, hs⟩
                refine ⟨hread.trans (hleaves.sequence.readOn hpulled), ?_⟩
                split <;> trivial
              · have hpulled := (Outcomes.pulled_eq_done_iff G st₁).mpr ⟨n, hs⟩
                obtain ⟨hdeeper, hread'⟩ := h₁.deeper hpulled
                dsimp only at hdone
                split at hdone
                · cases hdone
                  exact ⟨hread.trans hread', hdeeper.1, trivial⟩
                · obtain ⟨hread'', hfound⟩ := ih hdeeper hread'.later.intact hdone
                  exact ⟨(hread.trans hread').trans hread'', hfound⟩

theorem Sound.pulled (h : rows.Sound G q st) (hst : st.Intact) {found : Answer σ ε ρ β}
    (hpulled : rows.pulled G 0 q st = .done found st') :
    st.ReadOn st' ∧ (found.elim spent Prod.snd).Sound G q st' := by
  obtain ⟨n, hn⟩ := ((rows.pull_tends G 0 q st).rising.limit_eq_iff (by simp)).mp hpulled
  exact h.pull n hst hn

omit [Carrier σ] in
/-- As long as something is suspended there is another row, be it the shortest. -/
theorem pull_ne_none (n : Nat) : ∀ (rows : Rows σ ε ρ β) (st st' : Store σ ε), rows ≠ spent →
    rows.pull G 0 q n st ≠ .done none st' := by
  induction n with
  | zero => intro rows st st' _; exact nofun
  | succ n ih =>
      intro rows st st' hrows hpull
      cases rows with
      | spent => exact hrows rfl
      | waiting row c =>
          obtain ⟨s, st₁, -, hdone⟩ := Run.bind_eq_done_iff.mp hpull
          exact ih (going row c s spent) st₁ st' nofun hdone
      | going row c s rows =>
          obtain ⟨found, st₁, -, hdone⟩ := Run.bind_eq_done_iff.mp hpull
          cases found with
          | some answer => exact nomatch hdone
          | none =>
              obtain ⟨⟨_ | o, s'⟩, st₂, -, hdone⟩ := Run.bind_eq_done_iff.mp hdone
              · dsimp only at hdone
                rw [if_pos (Nat.zero_le _)] at hdone
                exact nomatch hdone
              · dsimp only at hdone
                split at hdone
                · exact nomatch hdone
                · exact ih (going row c s' (waiting _ o.cursor)) st₂ st' nofun hdone

end Rows

end

/-! ## The loop and the rows -/

section

variable (step : α → β → α) (q : Parser σ ε ρ β) (a : α)

/-- The loop is suspended where the enumeration is, and carries the row folded. -/
inductive Rows.Folds : Rows σ ε ρ β → Outcomes σ ε (Looped ρ α) α → Prop where
  | waiting (row : List β) (c : Cursor σ) :
      Folds (.waiting row c) (.asking step q (row.foldl step a) c)
  | going (row : List β) (c : Cursor σ) (s : Outcomes σ ε ρ β) {rows : Rows σ ε ρ β}
      {inner : Outcomes σ ε (Looped ρ α) α} (h : Folds rows inner) :
      Folds (.going row c s rows) (.carrying step (row.foldl step a) c s inner)
  /-- Nothing is left before the next occurrence is asked for. -/
  | empty : Folds .spent .empty
  /-- The value carried has been given. -/
  | given : Folds .spent (.chained (.ready []) [])

/-- A pull of the loop gives the row folded, and leaves the loop where the enumeration is. -/
def Rows.Folded (x : Pull σ ε (Looped ρ α) α) (found : Rows.Answer σ ε ρ β) : Prop :=
  x.answer = found.map (fun (o, _) => ⟨o.value.foldl step a, o.cursor⟩) ∧
    Folds step q a (found.elim .spent Prod.snd) x.rest

variable {step q a} [Carrier σ] {G : Grammar σ ε ρ} {st₀ st : Store σ ε} {c : Cursor σ}
  {rows : Rows σ ε ρ β} {row : List β} {t inner : Outcomes σ ε (Looped ρ α) α}

namespace Rows

omit [Carrier σ] in
/-- Behind one more occurrence the loop carries the longer row. -/
theorem Folds.longer (row : List β) (o : Outcome σ β) :
    Folds step q a (.waiting (row ++ [o.value]) o.cursor)
      (.asking step q (step (row.foldl step a) o.value) o.cursor) := by
  have hfold : (row ++ [o.value]).foldl step a = step (row.foldl step a) o.value := by
    rw [List.foldl_append]
    rfl
  rw [← hfold]
  exact .waiting _ o.cursor

/-- The enumeration, under any allowance, follows the loop. -/
theorem Folds.pull_follows (hq : q.Consumes G st₀) (n : Nat) : ∀ {rows : Rows σ ε ρ β}
    {t : Outcomes σ ε (Looped ρ α) α} {st : Store σ ε}, Folds step q a rows t →
    rows.Sound G q st → st₀.ReadOn st →
    Run.Follows (fun found x => Folded step q a x found) (rows.pull G 0 q n st)
      (t.pulled (G.looping step q) st) := by
  induction n with
  | zero => intro rows t st _ _ _; exact .unfinished _
  | succ n ih =>
      intro rows t st h hsound hread
      cases h with
      | waiting row c =>
          rw [Outcomes.pulled_asking]
          refine Run.Follows.andThen (q.start_follows c n st) ?_
          rintro s _ st₁ - hs rfl
          have hread₁ := (Parser.Sound.started hsound hs).2
          exact ih (.going row c s .empty) ⟨⟨[], .start hsound hs⟩, trivial⟩ (hread.trans hread₁)
      | @going row c s rows inner h =>
          rw [Outcomes.pulled_carrying]
          refine Run.Follows.andThen (ih h hsound.2 hread) ?_
          rintro (_ | ⟨o, rows'⟩) ⟨answer, inner'⟩ st₁ hrows - ⟨hanswer, hrest⟩
          · have hread₁ := (hsound.2.pull n hread.later.intact hrows).1
            have hsound₁ := hsound.later hread₁
            obtain rfl : answer = none := hanswer
            refine Run.Follows.andThen (s.pull_follows n st₁) ?_
            rintro ⟨_ | o, s'⟩ _ st₂ - hs rfl
            · exact .done st₂ ⟨rfl, .given⟩
            · obtain ⟨hdeeper, hread₂⟩ := hsound₁.deeper hs
              have hmoved := hsound₁.moved hq (hread.trans hread₁) hs
              dsimp only
              rw [if_neg hmoved]
              exact ih (.going row c s' (.longer row o)) hdeeper ((hread.trans hread₁).trans hread₂)
          · obtain rfl : answer = some _ := hanswer
            exact .done st₁ ⟨rfl, .going row c s hrest⟩
      | empty =>
          rw [Outcomes.pulled_empty]
          exact .done st ⟨rfl, .empty⟩
      | given =>
          rw [Outcomes.pulled_chained_nil, Outcomes.pulled_ready_nil]
          exact .done st ⟨rfl, .empty⟩

variable (step q a G st₀) in
/-- Under an allowance, the loop follows the enumeration, and so does what goes on behind the
    occurrences at one place. -/
structure Followed (n : Nat) : Prop where
  loop : ∀ {rows : Rows σ ε ρ β} {t : Outcomes σ ε (Looped ρ α) α} {st : Store σ ε},
    Folds step q a rows t → rows.Sound G q st → st₀.ReadOn st →
    Run.Follows (Folded step q a) (t.pull (G.looping step q) n st) (rows.pulled G 0 q st)
  beyond : ∀ {row : List β} {c : Cursor σ} {s : Outcomes σ ε ρ β} {rows : Rows σ ε ρ β}
    {inner : Outcomes σ ε (Looped ρ α) α} {st : Store σ ε}, Folds step q a rows inner →
    (going row c s rows).Sound G q st → st₀.ReadOn st →
    Run.Follows (Folded step q a)
      (((Outcomes.beyond step (row.foldl step a) s inner).pull (G.looping step q) n st).bind
        (Outcomes.atLast (row.foldl step a) c))
      ((going row c s rows).pulled G 0 q st)

omit [Carrier σ] in
/-- The loop does nothing before it starts to look for occurrences. -/
theorem pull_asking_within (v : α) (c : Cursor σ) (n : Nat) (st : Store σ ε) :
    ((Outcomes.asking step q v c).pull (G.looping step q) (n + 1) st).Within
      ((q.extend.start (G.looping step q) n c st).bind fun u st =>
        ((Outcomes.bound (fun b => .loop (step v b)) (.chained u []) .empty).pull
          (G.looping step q) n st).bind (Outcomes.atLast v c)) := by
  cases n with
  | zero => exact .unfinished _
  | succ n =>
      refine (Outcomes.pull_chained_unit_within _ n st).trans ?_
      have hstart := Outcomes.pull_bound_deferred_within (G := G.looping step q)
        (g := fun b => .loop (step v b)) q.extend c n st
      refine (hstart.bind fun _ _ => .refl _).trans ?_
      rw [Run.bind_assoc]
      refine (q.extend.start_within_succ _ n c st).bind fun u st => ?_
      exact (Outcomes.pull_within_succ _ n _ st).bind fun _ _ => .refl _

theorem Followed.beyond_succ (hq : q.Consumes G st₀) {n : Nat} (h : Followed step q a G st₀ n)
    {c : Cursor σ} {s : Outcomes σ ε ρ β} (hfolds : Folds step q a rows inner)
    (hsound : (going row c s rows).Sound G q st) (hread : st₀.ReadOn st) :
    Run.Follows (Folded step q a)
      (((Outcomes.beyond step (row.foldl step a) s inner).pull (G.looping step q) (n + 1) st).bind
        (Outcomes.atLast (row.foldl step a) c))
      ((going row c s rows).pulled G 0 q st) := by
  rw [pulled_going, Outcomes.beyond, Outcomes.pull, Run.bind_assoc]
  refine Run.Follows.andThen (h.loop hfolds hsound.2 hread) ?_
  rintro ⟨answer, inner'⟩ (_ | ⟨o, rows'⟩) st₁ - hrows ⟨hanswer, hrest⟩
  · obtain rfl : answer = none := hanswer
    have hread₁ := (hsound.2.pulled hread.later.intact hrows).1
    have hsound₁ := hsound.later hread₁
    have hfront := (Outcomes.chained s.extend []).pull_within_pulled (G.looping step q) n st₁
    dsimp only
    rw [Run.bind_assoc]
    refine (hfront.bind fun _ _ => .refl _).follows ?_
    rw [Outcomes.pulled_chained_nil, Outcomes.pulled_extend, Run.bind_assoc, Run.bind_assoc, own]
    refine Run.Follows.andThen (.refl _) ?_
    rintro ⟨_ | o, s'⟩ _ st₂ hs - rfl
    · exact .done st₂ ⟨rfl, .given⟩
    · obtain ⟨hdeeper, hread₂⟩ := hsound₁.deeper hs
      have hmoved := hsound₁.moved hq (hread.trans hread₁) hs
      dsimp only [Run.done_bind]
      rw [if_neg hmoved, Run.bind_assoc]
      refine ((Parser.start_loop_within n (step (row.foldl step a) o.value) o.cursor st₂).bind
        fun _ _ => .refl _).follows ?_
      exact h.beyond (.longer row o) hdeeper ((hread.trans hread₁).trans hread₂)
  · obtain rfl : answer = some _ := hanswer
    exact .done st₁ ⟨rfl, .going row c s hrest⟩

theorem Followed.loop_succ {n : Nat} (h : Followed step q a G st₀ n)
    (hfolds : Folds step q a rows t) (hsound : rows.Sound G q st) (hread : st₀.ReadOn st) :
    Run.Follows (Folded step q a) (t.pull (G.looping step q) (n + 1) st)
      (rows.pulled G 0 q st) := by
  cases hfolds with
  | waiting row c =>
      rw [pulled_waiting]
      refine (pull_asking_within (row.foldl step a) c n st).follows ?_
      have hstarted := q.extend.start_within_started (G.looping step q) n c st
      refine (hstarted.bind fun _ _ => .refl _).follows ?_
      rw [Parser.started_extend, Run.bind_assoc]
      refine Run.Follows.andThen (.refl _) ?_
      rintro s _ st₁ hs - rfl
      have hread₁ := (Parser.Sound.started hsound hs).2
      exact h.beyond .empty ⟨⟨[], .start hsound hs⟩, trivial⟩ (hread.trans hread₁)
  | going row c s hinner =>
      refine (Outcomes.pull_chained_unit_within _ n st).follows ?_
      exact h.beyond hinner hsound hread
  | empty =>
      rw [pulled_spent]
      exact .done st ⟨rfl, .empty⟩
  | given =>
      rw [pulled_spent]
      refine (Outcomes.pull_within_pulled _ _ (n + 1) st).follows ?_
      rw [Outcomes.pulled_chained_nil, Outcomes.pulled_ready_nil]
      exact .done st ⟨rfl, .empty⟩

/-- The loop, under any allowance, follows the enumeration. -/
theorem followed (hq : q.Consumes G st₀) (n : Nat) : Followed step q a G st₀ n := by
  induction n with
  | zero => exact ⟨fun _ _ _ => .unfinished _, fun _ _ _ => .unfinished _⟩
  | succ n ih =>
      constructor
      · intro rows t st hfolds hsound hread
        exact ih.loop_succ hfolds hsound hread
      · intro row c s rows inner st hfolds hsound hread
        exact ih.beyond_succ hq hfolds hsound hread

/-- **THE LOOP AND THE ROWS.** A pull of the loop gives the next row folded, or both come to no
    answer, and they leave the same store. -/
theorem Folds.pulled_agrees (hq : q.Consumes G st₀) (h : Folds step q a rows t)
    (hsound : rows.Sound G q st) (hread : st₀.ReadOn st) :
    Run.Agrees (Folded step q a) (t.pulled (G.looping step q) st) (rows.pulled G 0 q st) :=
  .of_follows (.limit fun n => (followed hq n).loop h hsound hread)
    (.limit fun n => h.pull_follows hq n hsound hread)

end Rows

end

/-! ## Behind the outcomes of another parser -/

/-- A first value and a row, folded. -/
def Outcome.fold (step : α → β → α) (o : Outcome σ (α × List β)) : Call ε (Outcome σ α) :=
  (Call.pure (o.value.2.foldl step o.value.1)).map o.withValue

namespace Outcomes

variable (step : α → β → α) (q : Parser σ ε ρ β)

/-- The rows behind each of the outcomes in front, folded. -/
def foldedRows (front : Outcomes σ ε ρ α) (held : Option α)
    (inner : Outcomes σ ε ρ (List β)) : Outcomes σ ε ρ α :=
  .mapped (Outcome.fold step) (.paired Prod.mk q.many front held inner)

/-- The loop behind each of the outcomes in front. -/
def looped (front : Outcomes σ ε ρ α) (inner : Outcomes σ ε (Looped ρ α) α) :
    Outcomes σ ε (Looped ρ α) α :=
  .bound .loop front.extend inner

variable {step q} {G : Grammar σ ε ρ} {front : Outcomes σ ε ρ α} {st : Store σ ε}

theorem pulled_foldedRows_some (a : α) (inner : Outcomes σ ε ρ (List β)) :
    (foldedRows step q front (some a) inner).pulled G st =
      (inner.pulled G st).bind fun x st =>
        match x with
        | ⟨some o, inner⟩ =>
            .done ⟨some ⟨o.value.foldl step a, o.cursor⟩, foldedRows step q front (some a) inner⟩ st
        | ⟨none, _⟩       => (foldedRows step q front none .empty).pulled G st := by
  rw [foldedRows, pulled_mapped, pulled_paired_some, Run.bind_assoc]
  refine Run.bind_congr fun x st _ => ?_
  rcases x with ⟨_ | o, inner⟩
  · dsimp only
    rw [foldedRows, pulled_mapped]
  · rfl

theorem pulled_foldedRows_none :
    (foldedRows step q front none .empty).pulled G st =
      (front.pulled G st).bind fun x st =>
        match x with
        | ⟨none, _⟩       => .done ⟨none, .mapped (Outcome.fold step) .empty⟩ st
        | ⟨some o, front⟩ =>
            (foldedRows step q front (some o.value)
              (.repeating 0 id q (some o.cursor) .bottom)).pulled G st := by
  rw [foldedRows, pulled_mapped, pulled_paired_none, Run.bind_assoc]
  refine Run.bind_congr fun x st _ => ?_
  rcases x with ⟨_ | o, front⟩
  · rfl
  · dsimp only
    rw [Parser.many, Parser.started_repetition, Run.done_bind, foldedRows, pulled_mapped]
    rfl

theorem pulled_looped_empty :
    (looped front .empty).pulled (G.looping step q) st =
      (front.pulled G st).bind fun x st =>
        match x with
        | ⟨none, _⟩       => .done ⟨none, .empty⟩ st
        | ⟨some o, front⟩ =>
            (looped front (.asking step q o.value o.cursor)).pulled (G.looping step q) st := by
  rw [looped, pulled_bound_empty, pulled_extend, Run.bind_assoc]
  refine Run.bind_congr fun x st _ => ?_
  rcases x with ⟨_ | o, front⟩
  · rfl
  · dsimp only [Run.done_bind]
    rw [Parser.started_loop, Run.done_bind, looped]

theorem pulled_looped (inner : Outcomes σ ε (Looped ρ α) α) :
    (looped front inner).pulled (G.looping step q) st =
      (inner.pulled (G.looping step q) st).bind fun x st =>
        match x with
        | ⟨some o, inner⟩ => .done ⟨some o, looped front inner⟩ st
        | ⟨none, _⟩       => (looped front .empty).pulled (G.looping step q) st := by
  rw [looped, pulled_bound]
  refine Run.bind_congr fun x st _ => ?_
  rcases x with ⟨_ | o, inner⟩
  · exact (pulled_bound_empty ..).symm
  · rfl

end Outcomes

section

variable [Carrier σ] {G : Grammar σ ε ρ} {step : α → β → α} {q : Parser σ ε ρ β}
  {st₀ st : Store σ ε} {a : α} {rows : Rows σ ε ρ β} {t : Outcomes σ ε (Looped ρ α) α}
  {inner : Outcomes σ ε ρ (List β)} {front : Outcomes σ ε ρ α} {k : Nat}

variable (G step q st₀) in
/-- As long as a repetition, an enumeration and a loop are suspended at one place, `k` pulls of the
    folded rows behind an outcome give the answers of the loop behind it. -/
def Outcomes.FoldsAt (k : Nat) : Prop :=
  ∀ {front : Outcomes σ ε ρ α} {a : α} {inner : Outcomes σ ε ρ (List β)} {rows : Rows σ ε ρ β}
    {t : Outcomes σ ε (Looped ρ α) α} {st : Store σ ε},
    Run.Agrees (Rows.Matches 0 id q) (inner.pulled G st) (rows.pulled G 0 q st) →
    Rows.Folds step q a rows t → rows.Sound G q st → st₀.ReadOn st → front.Sound G st →
    (foldedRows step q front (some a) inner).answers G k st =
      (looped front t).answers (G.looping step q) k st

namespace Outcomes.FoldsAt

/-- One more pull, if the two go on alike when the rows have come to an end. -/
theorem succ_of_ended (hq : q.Consumes G st₀) (ih : FoldsAt G step q st₀ k)
    (hinner : Run.Agrees (Rows.Matches 0 id q) (inner.pulled G st) (rows.pulled G 0 q st))
    (hfolds : Rows.Folds step q a rows t) (hsound : rows.Sound G q st) (hread : st₀.ReadOn st)
    (hfront : front.Sound G st)
    (hended : ∀ st₁, st.ReadOn st₁ → rows.pulled G 0 q st = .done none st₁ →
      (foldedRows step q front none .empty).answers G (k + 1) st₁ =
        (looped front .empty).answers (G.looping step q) (k + 1) st₁) :
    (foldedRows step q front (some a) inner).answers G (k + 1) st =
      (looped front t).answers (G.looping step q) (k + 1) st := by
  have hloop := hfolds.pulled_agrees hq hsound hread
  rw [answers, answers, pulled_foldedRows_some, pulled_looped, Run.bind_assoc, Run.bind_assoc]
  revert hinner hloop
  generalize inner.pulled G st = r
  generalize t.pulled (G.looping step q) st = r'
  generalize hrows : rows.pulled G 0 q st = r''
  intro hinner hloop
  cases hinner with
  | fault x st => cases hloop; rfl
  | unfinished => cases hloop; rfl
  | @done x found st₁ hmatch =>
      obtain ⟨hread₁, hsound₁⟩ := hsound.pulled hread.later.intact hrows
      cases hloop with
      | @done y _ _ hfolded =>
          obtain ⟨frames, hrest, hanswer, hnest⟩ := hmatch
          obtain ⟨hanswer', hfolds'⟩ := hfolded
          obtain ⟨answer, inner'⟩ := x
          obtain ⟨answer', t'⟩ := y
          dsimp only at hrest hanswer hanswer' hfolds'
          rcases found with _ | ⟨o, rows'⟩
          · obtain rfl : answer = none := hanswer
            obtain rfl : answer' = none := hanswer'
            exact hended st₁ hread₁ hrows
          · obtain rfl : answer = some ⟨o.value, o.cursor⟩ := hanswer
            obtain rfl : answer' = some _ := hanswer'
            subst hrest
            rw [Option.elim_some] at hnest hfolds' hsound₁
            have hagrees := frames.pulled_agrees G 0 id q st₁
            rw [hnest] at hagrees
            have hrest := ih (a := a) hagrees hfolds' hsound₁ (hread.trans hread₁)
              (hfront.later hread₁.later)
            rw [Run.done_bind, Run.done_bind]
            dsimp only
            rw [Run.done_bind, hrest]
            rfl

/-- One more pull, when nothing is left behind the latest of the outcomes in front. -/
theorem succ_between (hq : q.Consumes G st₀) (hhonest : q.Honest st₀.held) (hst₀ : st₀.Intact)
    (ih : FoldsAt G step q st₀ k) (hread : st₀.ReadOn st) (hfront : front.Sound G st) :
    (foldedRows step q front none .empty).answers G (k + 1) st =
      (looped front .empty).answers (G.looping step q) (k + 1) st := by
  rw [answers, answers, pulled_foldedRows_none, pulled_looped_empty, Run.bind_assoc,
    Run.bind_assoc]
  refine Run.bind_congr fun x st₁ hx => ?_
  have hread₁ := hfront.readOn hx
  obtain ⟨hfront₁, -, ho⟩ := hfront.pulled hx
  rcases x with ⟨_ | o, front'⟩
  · have hover : (Outcomes.empty : Outcomes σ ε ρ (α × List β)).Over st₁ := .ready
    have hover' : (Outcomes.empty : Outcomes σ ε (Looped ρ α) α).Over st₁ := .ready
    dsimp only
    rw [Run.done_bind, Run.done_bind, (hover.mapped _).answers k hread₁.later.intact,
      hover'.answers k hread₁.later.intact]
  · have hread' := hread.trans hread₁
    have hsound : q.Sound G o.cursor st₁ := hfront₁.parser
      (hhonest.mono (hread'.later.held_subset hst₀)) (ho o rfl).1
    -- there is a row behind the outcome, so the rows do not come to an end at once
    refine succ_of_ended hq ih (Rows.pulled_root_agrees G 0 id q o.cursor st₁)
      (.waiting [] o.cursor) hsound hread' hfront₁ fun st₂ _ hnone => ?_
    obtain ⟨n, hn⟩ := ((Rows.pull_tends G 0 q st₁ _).rising.limit_eq_iff (by simp)).mp hnone
    exact absurd hn (Rows.pull_ne_none n (.waiting [] o.cursor) st₁ st₂ (by simp))

end Outcomes.FoldsAt

/-- **ANY NUMBER OF PULLS.** -/
theorem Outcomes.foldsAt (hq : q.Consumes G st₀) (hhonest : q.Honest st₀.held) (hst₀ : st₀.Intact)
    (k : Nat) : FoldsAt G step q st₀ k := by
  induction k with
  | zero => intro front a inner rows t st _ _ _ _ _; rfl
  | succ k ih =>
      intro front a inner rows t st hinner hfolds hsound hread hfront
      refine ih.succ_of_ended hq hinner hfolds hsound hread hfront fun st₁ hread₁ _ => ?_
      exact ih.succ_between hq hhonest hst₀ (hread.trans hread₁) (hfront.later hread₁.later)

/-- **ROWS FOLDED ARE A LOOP.** Any number of occurrences behind an outcome, folded from the left
    beginning with its value, give the answers of the loop that carries the value along. -/
theorem Parser.Sound.folded_answers {p : Parser σ ε ρ α} {c : Cursor σ} (h : p.Sound G c st)
    (hhonest : q.Honest st.held) (hq : q.Consumes G st) (k : Nat) :
    ((p.and q.many).mapPure fun pair => pair.2.foldl step pair.1).answers G c k st =
      (p.extend.bind .loop).answers (G.looping step q) c k st := by
  rw [answers, answers, mapPure, started_map, Parser.and, started_seq, started_bind, Run.done_bind,
    Run.done_bind, Run.done_bind]
  have hdeferred : (Outcomes.deferred p c).Sound G st :=
    ⟨h.intact, h.grammar, Outcomes.held_deferred h.honest (mem_held.mpr h.holds)⟩
  cases k with
  | zero => rfl
  | succ k =>
      exact Outcomes.FoldsAt.succ_between hq hhonest h.intact
        (Outcomes.foldsAt hq hhonest h.intact k) (.refl h.intact) hdeferred

end

end Backtrack
