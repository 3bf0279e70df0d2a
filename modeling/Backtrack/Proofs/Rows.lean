import Backtrack.Proofs.Limit

/-!
# Rows — repetition as a recursion

The rows of occurrences from a place have a recursive description: go through the occurrences there,
one after the other; one that stays where it is ends its row, behind any other the rows go on in the
same way; and at last comes the row that was given, unless it is too short. Read as a process that
is suspended after each answer, this is `Rows`: while a longer row is being looked at, the process
that lists its extensions stands inside the process that lists the shorter one.

A repetition is pulled by a walk with a stack of its own instead. The stack, read from the bottom,
is the nest of suspended processes read from the outside (`Frames.nested`). Popping a frame resumes
the process outside, so the two give the same answers, and they start the repeated parser, read the
sources and leave remarks at the same moments, since the stores agree after every pull.
-/

namespace Backtrack

variable {σ ε : Type} {ρ : Type → Type} {α β : Type}

/-- The recursive enumeration of rows, suspended between two answers. -/
inductive Rows (σ ε : Type) (ρ : Type → Type) (α : Type) : Type 1 where
  /-- The rows that begin with `row`, which has led to `c`; nothing has been done yet. -/
  | waiting (row : List α) (c : Cursor σ) : Rows σ ε ρ α
  /-- The same, with these occurrences at `c` still to come. Before them stands what is left of the
      rows that go on from the latest occurrence. -/
  | going (row : List α) (c : Cursor σ) (occurrences : Outcomes σ ε ρ α)
      (longer : Rows σ ε ρ α) : Rows σ ε ρ α
  /-- No more rows. -/
  | spent : Rows σ ε ρ α

/-- An answer with what is left behind it, or the end. -/
abbrev Rows.Answer (σ ε : Type) (ρ : Type → Type) (α : Type) : Type 1 :=
  Option (Outcome σ (List α) × Rows σ ε ρ α)

namespace Rows

variable (G : Grammar σ ε ρ) (least : Nat) (p : Parser σ ε ρ α)

/-- The next row of at least `least` occurrences of `p`, under an allowance. -/
def pull : Nat → Rows σ ε ρ α → Store σ ε → Run σ ε (Answer σ ε ρ α)
  | 0,     _,                  _  => .unfinished
  | _ + 1, spent,              st => .done none st
  | n + 1, waiting row c,      st =>
      (p.start G n c st).bind fun s st => pull n (going row c s spent) st
  | n + 1, going row c s rows, st =>
      (pull n rows st).bind fun found st =>
        match found with
        | some (o, rows) => .done (some (o, going row c s rows)) st
        | none           =>
            (s.pull G n st).bind fun pulled st =>
              match pulled with
              | ⟨some o, s⟩ =>
                  if o.cursor.position = c.position then
                    .done (some (⟨row ++ [o.value], o.cursor⟩, going row c s spent)) st
                  else
                    pull n (going row c s (waiting (row ++ [o.value]) o.cursor)) st
              | ⟨none, _⟩   =>
                  .done (if least ≤ row.length then some (⟨row, c⟩, spent) else none) st

theorem pull_within_succ (n : Nat) : ∀ (rows : Rows σ ε ρ α) (st : Store σ ε),
    (rows.pull G least p n st).Within (rows.pull G least p (n + 1) st) := by
  induction n with
  | zero => intro rows st; exact .unfinished _
  | succ n ih =>
      intro rows st
      cases rows with
      | spent => exact .refl _
      | waiting row c => exact (p.start_within_succ G n c st).bind fun s st => ih _ st
      | going row c s rows =>
          refine (ih rows st).bind ?_
          intro found st
          rcases found with _ | ⟨o, rows⟩
          · refine (s.pull_within_succ G n st).bind ?_
            intro pulled st
            rcases pulled with ⟨_ | o, s⟩
            · exact .refl _
            · dsimp only
              split
              · exact .refl _
              · exact ih _ st
          · exact .refl _

/-- The next row, with as great an allowance as it takes. -/
noncomputable def pulled (rows : Rows σ ε ρ α) (st : Store σ ε) : Run σ ε (Answer σ ε ρ α) :=
  Run.limit fun n => rows.pull G least p n st

/-- The answers to the next `k` pulls, in order. -/
noncomputable def answers : Nat → Rows σ ε ρ α → Store σ ε →
    Run σ ε (List (Option (Outcome σ (List α))))
  | 0,     _,    st => .done [] st
  | k + 1, rows, st =>
      (rows.pulled G least p st).bind fun found st =>
        (answers k (found.elim spent Prod.snd) st).bind fun answers st =>
          .done (found.map Prod.fst :: answers) st

variable (st : Store σ ε)

theorem pull_tends (rows : Rows σ ε ρ α) :
    Run.Tends (fun n => rows.pull G least p n st) (rows.pulled G least p st) :=
  ⟨fun n => rows.pull_within_succ G least p n st, rfl⟩

theorem pulled_eq {rows : Rows σ ε ρ α} {x : Run σ ε (Answer σ ε ρ α)}
    (h : Run.Tends (fun n => rows.pull G least p (n + 1) st) x) : rows.pulled G least p st = x :=
  (rows.pull_tends G least p st).rising.limit_succ.symm.trans h.limit

theorem pulled_spent : (spent : Rows σ ε ρ α).pulled G least p st = .done none st :=
  pulled_eq G least p st (.const _)

theorem pulled_waiting (row : List α) (c : Cursor σ) :
    (waiting row c).pulled G least p st = (p.started G c st).bind fun s st =>
      (going row c s spent).pulled G least p st :=
  pulled_eq G least p st ((p.start_tends G c st).bind fun _ st => pull_tends G least p st _)

/-- What an enumeration does when no longer row is left: it goes to its next occurrence, and there
    it gives a row or goes deeper; behind the last occurrence it ends with its own row. -/
noncomputable def own (row : List α) (c : Cursor σ) (s : Outcomes σ ε ρ α) :
    Run σ ε (Answer σ ε ρ α) :=
  (s.pulled G st).bind fun pulled st =>
    match pulled with
    | ⟨some o, s⟩ =>
        if o.cursor.position = c.position then
          .done (some (⟨row ++ [o.value], o.cursor⟩, going row c s spent)) st
        else
          (going row c s (waiting (row ++ [o.value]) o.cursor)).pulled G least p st
    | ⟨none, _⟩   =>
        .done (if least ≤ row.length then some (⟨row, c⟩, spent) else none) st

/-- The rows that go on from the latest occurrence come first. -/
theorem pulled_going (row : List α) (c : Cursor σ) (s : Outcomes σ ε ρ α)
    (rows : Rows σ ε ρ α) :
    (going row c s rows).pulled G least p st = (rows.pulled G least p st).bind fun found st =>
      match found with
      | some (o, rows) => .done (some (o, going row c s rows)) st
      | none           => own G least p st row c s := by
  refine pulled_eq G least p st ((rows.pull_tends G least p st).bind fun found st => ?_)
  rcases found with _ | ⟨o, rows⟩
  · refine (s.pull_tends G st).bind ?_
    intro pulled st
    rcases pulled with ⟨_ | o, s⟩
    · exact .const _
    · dsimp only
      split
      · exact .const _
      · exact pull_tends G least p st _
  · exact .const _

theorem pulled_going_spent (row : List α) (c : Cursor σ) (s : Outcomes σ ε ρ α) :
    (going row c s spent).pulled G least p st = own G least p st row c s := by
  rw [pulled_going, pulled_spent]
  rfl

end Rows

/-! ## The stack as a nest -/

/-- The values along a row in front of `tail` are the values of the row, then `tail`. -/
theorem Frames.values_eq_append : (frames : Frames σ ε ρ α) → (tail : List α) →
    frames.values tail = frames.values [] ++ tail
  | .bottom,                  _    => rfl
  | .push _ _ none below,     tail => values_eq_append below tail
  | .push _ _ (some a) below, tail => by
      show below.values (a :: tail) = below.values [a] ++ tail
      rw [values_eq_append below (a :: tail), values_eq_append below [a], List.append_assoc]
      rfl

theorem Frames.values_push (s : Outcomes σ ε ρ α) (c : Cursor σ) (value : Option α)
    (below : Frames σ ε ρ α) : (push s c value below).values [] = below.values value.toList := by
  cases value <;> rfl

/-- The nest of enumerations that a stack stands for, with `rows` innermost. -/
def Frames.nested : Frames σ ε ρ α → Rows σ ε ρ α → Rows σ ε ρ α
  | .bottom,               rows => rows
  | .push s c value below, rows => below.nested (.going (below.values value.toList) c s rows)

section

variable (G : Grammar σ ε ρ) (least : Nat) (f : List α → β) (p : Parser σ ε ρ α)

/-- In a nest, the innermost enumeration answers first; when it is spent, the rest goes on. -/
theorem Frames.pulled_nested : (frames : Frames σ ε ρ α) → (rows : Rows σ ε ρ α) →
    (st : Store σ ε) →
    (frames.nested rows).pulled G least p st = (rows.pulled G least p st).bind fun found st =>
      match found with
      | some (o, rows) => .done (some (o, frames.nested rows)) st
      | none           => (frames.nested .spent).pulled G least p st
  | .bottom, rows, st => by
      show rows.pulled G least p st = _
      cases rows.pulled G least p st with
      | done found st =>
          rcases found with _ | ⟨o, rows⟩
          · exact (Rows.pulled_spent G least p st).symm
          · rfl
      | fault x st => rfl
      | unfinished => rfl
  | .push s c value below, rows, st => by
      show (below.nested (.going _ c s rows)).pulled G least p st = _
      rw [pulled_nested below, Rows.pulled_going, Run.bind_assoc]
      refine congrArg (Run.bind _) (funext fun found => funext fun st => ?_)
      rcases found with _ | ⟨o, rows⟩
      · show _ = (below.nested (.going _ c s .spent)).pulled G least p st
        rw [pulled_nested below, Rows.pulled_going_spent]
      · rfl

/-- Going deeper puts one more frame on the stack. -/
theorem Frames.pulled_nested_waiting (frames : Frames σ ε ρ α) (a : α) (c : Cursor σ)
    (st : Store σ ε) :
    (frames.nested (.waiting (frames.values [a]) c)).pulled G least p st =
      (p.started G c st).bind fun t st =>
        ((push t c (some a) frames).nested .spent).pulled G least p st := by
  rw [pulled_nested, Rows.pulled_waiting, Run.bind_assoc]
  refine congrArg (Run.bind _) (funext fun t => funext fun st => ?_)
  show _ = (frames.nested (.going (frames.values [a]) c t .spent)).pulled G least p st
  rw [pulled_nested]

/-- An answer of the walk and an answer of the nest are the same, and so is what they leave. -/
def Rows.Matches (pulled : Pull σ ε ρ β) (found : Rows.Answer σ ε ρ α) : Prop :=
  ∃ frames, pulled.rest = .repeating least f p none frames ∧
    pulled.answer = found.map (fun (o, _) => ⟨f o.value, o.cursor⟩) ∧
    frames.nested .spent = found.elim .spent Prod.snd

/-- As far as the walk gets, the nest goes with it. -/
theorem Frames.pull_follows (n : Nat) : ∀ (frames : Frames σ ε ρ α) (st : Store σ ε),
    Run.Follows (Rows.Matches least f p) ((Outcomes.repeating least f p none frames).pull G n st)
      ((frames.nested .spent).pulled G least p st) := by
  induction n with
  | zero => intro frames st; exact .unfinished _
  | succ n ih =>
      intro frames st
      cases frames with
      | bottom =>
          rw [show (bottom : Frames σ ε ρ α).nested .spent = .spent from rfl, Rows.pulled_spent]
          exact .done st ⟨.bottom, rfl, rfl, rfl⟩
      | push s c value below =>
          rw [show (push s c value below).nested .spent
              = below.nested (.going (below.values value.toList) c s .spent) from rfl,
            pulled_nested G least p below, Rows.pulled_going_spent, Rows.own, Run.bind_assoc]
          refine Run.Follows.bind (.of_within ((s.pull_tends G st).rising.within_limit n)) ?_
          rintro ⟨_ | o, s⟩ _ st rfl
          · -- the frame is spent: its row comes, or the frame below goes on
            show Run.Follows _ (if least ≤ ((push s c value below).values []).length then _ else _)
              (Run.bind (.done (if least ≤ (below.values value.toList).length then _ else _) st) _)
            rw [values_push]
            split
            · exact .done st ⟨below, rfl, rfl, rfl⟩
            · exact ih below st
          · have hrow : (push s c value below).values [o.value]
                = below.values value.toList ++ [o.value] := by
              rw [values_eq_append, values_push]
            dsimp only
            split
            · exact .done st ⟨push s c value below, rfl, by rw [hrow]; rfl, rfl⟩
            · -- going deeper: the same nest with one more enumeration inside
              rw [← pulled_nested G least p below, ← hrow,
                show below.nested (.going (below.values value.toList) c s
                    (.waiting ((push s c value below).values [o.value]) o.cursor))
                  = (push s c value below).nested
                    (.waiting ((push s c value below).values [o.value]) o.cursor) from rfl,
                pulled_nested_waiting]
              refine Run.Follows.bind
                (.of_within ((p.start_tends G o.cursor st).rising.within_limit n)) ?_
              rintro t _ st rfl
              exact ih _ st

/-- The walk comes to no answer when it takes `rows` up on top of `below`. -/
def Rows.Stalls : Rows σ ε ρ α → Frames σ ε ρ α → Store σ ε → Prop
  | spent,              below, st =>
      (Outcomes.repeating least f p none below).pulled G st = .unfinished
  | waiting row c,      below, st => ∃ value : Option α, row = below.values value.toList ∧
      ((p.started G c st).bind fun t st =>
        (Outcomes.repeating least f p none (.push t c value below)).pulled G st) = .unfinished
  | going row c s rows, below, st => ∃ value : Option α, row = below.values value.toList ∧
      rows.Stalls (.push s c value below) st

theorem Frames.stalls_nested : (frames : Frames σ ε ρ α) → (rows : Rows σ ε ρ α) →
    (st : Store σ ε) → rows.Stalls G least f p frames st →
    (frames.nested rows).Stalls G least f p .bottom st
  | .bottom,               _,    _,  h => h
  | .push _ _ value below, _,    st, h => stalls_nested below _ st ⟨value, rfl, h⟩

/-- Where the walk comes to no answer, the nest has none either: it is not finished, or has to go
    on below, where the walk comes to no answer. -/
theorem Rows.pull_of_stalls (n : Nat) : ∀ (rows : Rows σ ε ρ α) (below : Frames σ ε ρ α)
    (st : Store σ ε), rows.Stalls G least f p below st →
    rows.pull G least p n st = .unfinished ∨ ∃ st', rows.pull G least p n st = .done none st' ∧
      (Outcomes.repeating least f p none below).pulled G st' = .unfinished := by
  induction n with
  | zero => intro rows below st _; exact Or.inl rfl
  | succ n ih =>
      intro rows below st h
      cases rows with
      | spent => exact Or.inr ⟨st, rfl, h⟩
      | waiting row c =>
          obtain ⟨value, hrow, h⟩ := h
          rw [pull]
          rcases ((p.start_tends G c st).rising.within_limit n).of_bind_unfinished h
            with hs | ⟨t, st₁, hs, hstall⟩
          · rw [hs]
            exact Or.inl rfl
          · rw [hs]
            exact ih (going row c t spent) below st₁ ⟨value, hrow, hstall⟩
      | going row c s rows =>
          -- the longer rows stall on top of this frame, or they are spent and the frame itself does
          obtain ⟨value, hrow, h⟩ := h
          rw [pull]
          rcases ih rows (.push s c value below) st h with hrows | ⟨st₁, hrows, hstall⟩
          · rw [hrows]
            exact Or.inl rfl
          · rw [hrows]
            rw [Outcomes.pulled_repeating_push] at hstall
            show Run.bind (s.pull G n st₁) _ = _ ∨ ∃ st', Run.bind (s.pull G n st₁) _ = _ ∧ _
            rcases ((s.pull_tends G st₁).rising.within_limit n).of_bind_unfinished hstall
              with hs | ⟨⟨_ | o, s⟩, st₂, hs, hstall⟩
            · rw [hs]
              exact Or.inl rfl
            · rw [hs]
              dsimp only at hstall
              rw [Frames.values_push, ← hrow] at hstall
              split at hstall
              · exact nomatch hstall
              · next hshort =>
                  refine Or.inr ⟨st₂, ?_, hstall⟩
                  show Run.done (if least ≤ row.length then _ else _) st₂ = _
                  rw [if_neg hshort]
            · rw [hs]
              dsimp only at hstall
              split at hstall
              · exact nomatch hstall
              · next hmoves =>
                  dsimp only [Run.bind]
                  rw [if_neg hmoves]
                  refine ih _ below st₂ ⟨value, hrow, some o.value, ?_, hstall⟩
                  show row ++ [o.value] = (Frames.push s c value below).values [o.value]
                  rw [Frames.values_eq_append, Frames.values_push, hrow]

/-- The walk over a stack and the nest that the stack stands for give the same answer, or both come
    to none, and they leave the same store. -/
theorem Frames.pulled_agrees (frames : Frames σ ε ρ α) (st : Store σ ε) :
    Run.Agrees (Rows.Matches least f p) ((Outcomes.repeating least f p none frames).pulled G st)
      ((frames.nested .spent).pulled G least p st) := by
  refine Run.Follows.agrees (.limit fun n => frames.pull_follows G least f p n st) ?_
  intro hstall
  have hnone : ∀ n, (frames.nested .spent).pull G least p n st = .unfinished := by
    intro n
    have hnest := frames.stalls_nested G least f p .spent st hstall
    rcases Rows.pull_of_stalls G least f p n _ _ st hnest with h | ⟨st', -, hbottom⟩
    · exact h
    · rw [Outcomes.pulled_repeating_bottom] at hbottom
      exact nomatch hbottom
  rw [Rows.pulled, show (fun n => (frames.nested .spent).pull G least p n st)
    = fun _ => .unfinished from funext hnone]
  exact Run.limit_const _

/-- The first pull puts the first frame on the stack. -/
theorem Rows.pulled_root_agrees (c : Cursor σ) (st : Store σ ε) :
    Run.Agrees (Rows.Matches least f p)
      ((Outcomes.repeating least f p (some c) .bottom).pulled G st)
      ((Rows.waiting [] c).pulled G least p st) := by
  rw [Outcomes.pulled_repeating_root, pulled_waiting]
  cases p.started G c st with
  | done s st => exact (Frames.push s c none .bottom).pulled_agrees G least f p st
  | fault x st => exact .fault x st
  | unfinished => exact .unfinished

/-- The lists of answers of the walk and of the nest, row by row. -/
def Rows.SameAnswers (answers : List (Option (Outcome σ β)))
    (rows : List (Option (Outcome σ (List α)))) : Prop :=
  answers = rows.map (Option.map fun o => ⟨f o.value, o.cursor⟩)

theorem Rows.sameAnswers_id : @SameAnswers σ α (List α) id = Eq := by
  funext answers rows
  have hid : (Option.map fun o : Outcome σ (List α) =>
      (⟨id o.value, o.cursor⟩ : Outcome σ (List α))) = id := Option.map_id
  rw [SameAnswers, hid, List.map_id]

theorem Rows.sameAnswers_cons {pulled : Pull σ ε ρ β} {found : Answer σ ε ρ α}
    (h : Matches least f p pulled found) {answers : List (Option (Outcome σ β))}
    {rows : List (Option (Outcome σ (List α)))} (hrest : SameAnswers f answers rows) :
    SameAnswers f (pulled.answer :: answers) (found.map Prod.fst :: rows) := by
  obtain ⟨-, -, hanswer, -⟩ := h
  rw [SameAnswers, List.map_cons, hanswer, hrest, Option.map_map]
  rfl

theorem Frames.answers_agrees (k : Nat) : ∀ (frames : Frames σ ε ρ α) (st : Store σ ε),
    Run.Agrees (Rows.SameAnswers f) ((Outcomes.repeating least f p none frames).answers G k st)
      ((frames.nested .spent).answers G least p k st) := by
  induction k with
  | zero => intro frames st; exact .done st rfl
  | succ k ih =>
      intro frames st
      refine (frames.pulled_agrees G least f p st).bind ?_
      intro pulled found st hmatch
      obtain ⟨frames', hrest, hanswer, hnest⟩ := hmatch
      rw [hrest, ← hnest]
      refine (ih frames' st).bind fun answers rows st hsame => .done st ?_
      exact Rows.sameAnswers_cons least f p ⟨frames', hrest, hanswer, hnest⟩ hsame

/-- A repetition gives the answers of the recursion, pull by pull. -/
theorem Rows.answers_repetition_agrees (c : Cursor σ) (st : Store σ ε) (k : Nat) :
    Run.Agrees (SameAnswers f)
      (((Parser.repetition least f p).started G c st).bind fun s st => s.answers G k st)
      ((Rows.waiting [] c).answers G least p k st) := by
  rw [Parser.started_repetition]
  cases k with
  | zero => exact .done st rfl
  | succ k =>
      refine (pulled_root_agrees G least f p c st).bind ?_
      intro pulled found st hmatch
      obtain ⟨frames, hrest, hanswer, hnest⟩ := hmatch
      rw [hrest, ← hnest]
      refine (frames.answers_agrees G least f p k st).bind fun answers rows st hsame => .done st ?_
      exact sameAnswers_cons least f p ⟨frames, hrest, hanswer, hnest⟩ hsame

end

/-- **Repetition refines its recursive definition.** However many pulls are made, `many` and `many1`
    give the answers of the recursive enumeration that starts with the empty row, in the same order,
    and after each pull the store is the same: the sources have been read equally often, and the log
    has the same events in the same order. Since `p` may remark on its every start, the occurrences
    are looked for at the same places, in the same order and in the same pulls. Where one side comes
    to no answer or to a fault, so does the other. -/
theorem Parser.many_refines_recursion (G : Grammar σ ε ρ) (p : Parser σ ε ρ α) (c : Cursor σ)
    (st : Store σ ε) (k : Nat) :
    ((p.many.started G c st).bind fun s st => s.answers G k st)
        = (Rows.waiting [] c).answers G 0 p k st ∧
      ((p.many1.started G c st).bind fun s st => s.answers G k st)
        = (Rows.waiting [] c).answers G 1 p k st := by
  refine ⟨?_, ?_⟩
  · have h := Rows.answers_repetition_agrees G 0 id p c st k
    rw [Rows.sameAnswers_id] at h
    exact h.eq
  · have h := Rows.answers_repetition_agrees G 1 id p c st k
    rw [Rows.sameAnswers_id] at h
    exact h.eq

end Backtrack
