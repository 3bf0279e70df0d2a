import Backtrack.Proofs.Remainders
import Backtrack.Proofs.Rows

/-!
# Stack invariant — a repetition at any time

A repetition is pulled now and then. In between, others take up sources, read on and pull sequences
of their own, and all this while its stack lies untouched. `Outcomes.Answered` is the history of a
sequence under such conditions: the answers it has given, one for each pull, and what is left of it
in the store as it is now. `Parser.Gave` is the same from the start of a parser on.

One call of a repetition may put many frames on its stack and take many off. It is a row of *turns*,
each of which does one thing to the stack (`Frames.Turn`), and a last step that answers
(`Frames.Exit`). Histories grow along a turn, so what holds the frames together survives it, and
therefore the whole call (`Frames.Stacked.pull`) and the whole life of the repetition.
-/

namespace Backtrack

open Store

variable {σ ε : Type} {ρ : Type → Type} {α β : Type}

/-- The answers that a sequence has given since it stood in a store, one for each pull, and what is
    left of it in the store as it is now. -/
inductive Outcomes.Answered (G : Grammar σ ε ρ) (s : Outcomes σ ε ρ α) (st : Store σ ε) :
    List (Option (Outcome σ α)) → Outcomes σ ε ρ α → Store σ ε → Prop where
  /-- Nothing has been pulled yet. -/
  | nothing : Answered G s st [] s st
  /-- Others have worked on the store. -/
  | wait {answers : List (Option (Outcome σ α))} {s' : Outcomes σ ε ρ α} {st' st'' : Store σ ε}
      (h : Answered G s st answers s' st') (later : st'.Later st'') :
      Answered G s st answers s' st''
  | pull {answers : List (Option (Outcome σ α))} {s' s'' : Outcomes σ ε ρ α}
      {st' st'' : Store σ ε} {answer : Option (Outcome σ α)} (h : Answered G s st answers s' st')
      (pulled : s'.pulled G st' = .done ⟨answer, s''⟩ st'') :
      Answered G s st (answers ++ [answer]) s'' st''

/-- What each frame is marked with, the latest first: its place, and the value that led there. -/
def Frames.marks : Frames σ ε ρ α → List (Cursor σ × Option α)
  | .bottom               => []
  | .push _ c value below => (c, value) :: below.marks

/-! ## Turns -/

section

variable (G : Grammar σ ε ρ) (least : Nat) (f : List α → β) (p : Parser σ ε ρ α)

/-- A turn of the loop that does not answer. -/
inductive Frames.Turn : Frames σ ε ρ α → Store σ ε → Frames σ ε ρ α → Store σ ε → Prop where
  /-- The frame on top gives an outcome that lies elsewhere, and the parser is started there. -/
  | descend {s s' t : Outcomes σ ε ρ α} {d : Cursor σ} {value : Option α}
      {below : Frames σ ε ρ α} {o : Outcome σ α} {st st₁ st₂ : Store σ ε}
      (gives : s.pulled G st = .done ⟨some o, s'⟩ st₁)
      (moved : o.cursor.position ≠ d.position)
      (starts : p.started G o.cursor st₁ = .done t st₂) :
      Turn (.push s d value below) st
        (.push t o.cursor (some o.value) (.push s' d value below)) st₂
  /-- The frame on top is spent, and goes without an answer: its row is too short. -/
  | ascend {s s' : Outcomes σ ε ρ α} {d : Cursor σ} {value : Option α} {below : Frames σ ε ρ α}
      {st st₁ : Store σ ε} (spent : s.pulled G st = .done ⟨none, s'⟩ st₁)
      (short : ((Frames.push s' d value below).values []).length < least) :
      Turn (.push s d value below) st below st₁

/-- Turn after turn. -/
inductive Frames.Turns : Frames σ ε ρ α → Store σ ε → Frames σ ε ρ α → Store σ ε → Prop where
  | none {frames : Frames σ ε ρ α} {st : Store σ ε} : Turns frames st frames st
  | more {frames frames' frames'' : Frames σ ε ρ α} {st st' st'' : Store σ ε}
      (first : Frames.Turn G least p frames st frames' st')
      (rest : Turns frames' st' frames'' st'') : Turns frames st frames'' st''

/-- The last step of a call, with the answer and what is left. -/
inductive Frames.Exit : Frames σ ε ρ α → Store σ ε → Pull σ ε ρ β → Store σ ε → Prop where
  /-- The frame on top gives an outcome that has not moved, which ends the row. -/
  | stay {s s' : Outcomes σ ε ρ α} {d : Cursor σ} {value : Option α} {below : Frames σ ε ρ α}
      {o : Outcome σ α} {st st' : Store σ ε} (gives : s.pulled G st = .done ⟨some o, s'⟩ st')
      (unmoved : o.cursor.position = d.position) :
      Exit (.push s d value below) st
        ⟨some ⟨f ((Frames.push s' d value below).values [o.value]), o.cursor⟩,
          .repeating least f p none (.push s' d value below)⟩ st'
  /-- The frame on top is spent, and the row that led to it is the answer. -/
  | emit {s s' : Outcomes σ ε ρ α} {d : Cursor σ} {value : Option α} {below : Frames σ ε ρ α}
      {st st' : Store σ ε} (spent : s.pulled G st = .done ⟨none, s'⟩ st')
      (long : least ≤ ((Frames.push s' d value below).values []).length) :
      Exit (.push s d value below) st
        ⟨some ⟨f ((Frames.push s' d value below).values []), d⟩,
          .repeating least f p none below⟩ st'
  /-- There is no frame any more. -/
  | finish {st : Store σ ε} : Exit .bottom st ⟨none, .repeating least f p none .bottom⟩ st

/-- **WHAT ONE CALL DOES**: turns, and a step that answers. -/
theorem Frames.turns_of_pull (n : Nat) : ∀ {frames : Frames σ ε ρ α} {st st' : Store σ ε}
    {x : Pull σ ε ρ β}, (Outcomes.repeating least f p none frames).pull G n st = .done x st' →
    ∃ frames₁ st₁, frames.Turns G least p st frames₁ st₁ ∧
      frames₁.Exit G least f p st₁ x st' := by
  induction n with
  | zero => intro frames st st' x hpull; exact nomatch hpull
  | succ n ih =>
      intro frames st st' x hpull
      cases frames with
      | bottom =>
          cases hpull
          exact ⟨.bottom, st, .none, .finish⟩
      | push s d value below =>
          obtain ⟨⟨answer, s'⟩, st₁, hs, hdone⟩ := Run.bind_eq_done_iff.mp hpull
          have hpulled := (Outcomes.pulled_eq_done_iff G st).mpr ⟨n, hs⟩
          cases answer with
          | none =>
              dsimp only at hdone
              split at hdone
              · next hlong =>
                  cases hdone
                  exact ⟨_, st, .none, .emit hpulled hlong⟩
              · next hshort =>
                  obtain ⟨frames₁, st₂, hturns, hexit⟩ := ih hdone
                  exact ⟨frames₁, st₂, .more (.ascend hpulled (Nat.lt_of_not_le hshort)) hturns,
                    hexit⟩
          | some o =>
              dsimp only at hdone
              split at hdone
              · next hunmoved =>
                  cases hdone
                  exact ⟨_, st, .none, .stay hpulled hunmoved⟩
              · next hmoved =>
                  obtain ⟨t, st₂, ht, hdone⟩ := Run.bind_eq_done_iff.mp hdone
                  have hstarted := (Parser.started_eq_done_iff G o.cursor st₁).mpr ⟨n, ht⟩
                  obtain ⟨frames₁, st₃, hturns, hexit⟩ := ih hdone
                  exact ⟨frames₁, st₃, .more (.descend hpulled hmoved hstarted) hturns, hexit⟩

end

section

variable [Carrier σ] {G : Grammar σ ε ρ}

/-! ## Histories -/

section

variable {s s' : Outcomes σ ε ρ α} {st st' origin : Store σ ε}
  {answers : List (Option (Outcome σ α))}

/-- A sequence that is sound to begin with is sound at any time. -/
theorem Outcomes.Answered.sound (hlife : s.Answered G st answers s' st') (h : s.Sound G st) :
    s'.Sound G st' ∧ st.Later st' := by
  induction hlife with
  | nothing => exact ⟨h, .refl h.intact⟩
  | wait _ later ih => exact ⟨ih.1.later later, ih.2.trans later⟩
  | pull _ pulled ih =>
      obtain ⟨hsound, hlater, -⟩ := ih.1.pulled pulled
      exact ⟨hsound, ih.2.trans hlater⟩

/-- Some time after `origin` the parser was started at `c`. Its sequence has given these outcomes
    since, one for each pull, and `s` is what is left of it in the store as it is now. -/
structure Parser.Gave (G : Grammar σ ε ρ) (origin : Store σ ε) (p : Parser σ ε ρ α) (c : Cursor σ)
    (os : List (Outcome σ α)) (s : Outcomes σ ε ρ α) (st : Store σ ε) : Prop where
  history : ∃ st₀ s₀ st₁, origin.Later st₀ ∧ p.Sound G c st₀ ∧ p.started G c st₀ = .done s₀ st₁ ∧
    s₀.Answered G st₁ (os.map some) s st

namespace Parser.Gave

variable {p : Parser σ ε ρ α} {c : Cursor σ} {os : List (Outcome σ α)} {o : Outcome σ α}

theorem sound (h : p.Gave G origin c os s st) :
    p.Sound G c st ∧ s.Sound G st ∧ origin.Later st := by
  obtain ⟨st₀, s₀, st₁, horigin, hp, hstart, hlife⟩ := h.history
  obtain ⟨hs₀, hread⟩ := hp.started hstart
  obtain ⟨hs, hlater⟩ := hlife.sound hs₀
  have hlater₀ := hread.later.trans hlater
  exact ⟨hp.later hlater₀, hs, horigin.trans hlater₀⟩

theorem start (horigin : origin.Later st) (hp : p.Sound G c st)
    (hstart : p.started G c st = .done s st') : p.Gave G origin c [] s st' :=
  ⟨st, s, st', horigin, hp, hstart, .nothing⟩

theorem wait (h : p.Gave G origin c os s st) (later : st.Later st') :
    p.Gave G origin c os s st' := by
  obtain ⟨st₀, s₀, st₁, horigin, hp, hstart, hlife⟩ := h.history
  exact ⟨st₀, s₀, st₁, horigin, hp, hstart, hlife.wait later⟩

theorem pull (h : p.Gave G origin c os s st) (hpulled : s.pulled G st = .done ⟨some o, s'⟩ st') :
    p.Gave G origin c (os ++ [o]) s' st' := by
  obtain ⟨st₀, s₀, st₁, horigin, hp, hstart, hlife⟩ := h.history
  refine ⟨st₀, s₀, st₁, horigin, hp, hstart, ?_⟩
  rw [List.map_append]
  exact hlife.pull hpulled

/-- The parser may be started at the place of an outcome. -/
theorem next (h : p.Gave G origin c os s st) (hpulled : s.pulled G st = .done ⟨some o, s'⟩ st') :
    p.Sound G o.cursor st' := by
  obtain ⟨hp, hs, -⟩ := h.sound
  obtain ⟨hs', hlater, ho⟩ := hs.pulled hpulled
  exact hs'.parser (hp.later hlater).honest (ho o rfl).1

end Parser.Gave

end

/-! ## The invariant -/

section

variable {origin st st' : Store σ ε} {p : Parser σ ε ρ α} {c d : Cursor σ}
  {os os' : List (Outcome σ α)} {s t : Outcomes σ ε ρ α} {value : Option α}
  {frames frames' below : Frames σ ε ρ α}

/-- A stack of a repetition that was begun at `c` some time after `origin`, in the store as it is
    now. The list has the outcomes that the frame on top has given so far. -/
inductive Frames.Stacked (G : Grammar σ ε ρ) (origin : Store σ ε) (p : Parser σ ε ρ α)
    (c : Cursor σ) (st : Store σ ε) : List (Outcome σ α) → Frames σ ε ρ α → Prop where
  /-- The bottom frame has the start cursor and no value. -/
  | root {os : List (Outcome σ α)} {s : Outcomes σ ε ρ α} (h : p.Gave G origin c os s st) :
      Stacked G origin p c st os (.push s c none .bottom)
  /-- A frame above another has the value and the cursor of the latest outcome that the frame below
      has given, and this outcome lies elsewhere. -/
  | upon {os os' : List (Outcome σ α)} {o : Outcome σ α} {s t : Outcomes σ ε ρ α} {d : Cursor σ}
      {value : Option α} {below : Frames σ ε ρ α}
      (h : Stacked G origin p c st (os ++ [o]) (.push s d value below))
      (moved : o.cursor.position ≠ d.position) (top : p.Gave G origin o.cursor os' t st) :
      Stacked G origin p c st os' (.push t o.cursor (some o.value) (.push s d value below))

/-- In the middle of a call. -/
def Frames.Standing (G : Grammar σ ε ρ) (origin : Store σ ε) (p : Parser σ ε ρ α) (c : Cursor σ)
    (st : Store σ ε) (frames : Frames σ ε ρ α) : Prop :=
  frames = .bottom ∨ ∃ os, frames.Stacked G origin p c st os

/-- Between two calls: the frame on top has given an outcome. -/
def Frames.Resting (G : Grammar σ ε ρ) (origin : Store σ ε) (p : Parser σ ε ρ α) (c : Cursor σ)
    (st : Store σ ε) (frames : Frames σ ε ρ α) : Prop :=
  frames = .bottom ∨ ∃ os o, frames.Stacked G origin p c st (os ++ [o])

namespace Frames

theorem Stacked.wait (h : frames.Stacked G origin p c st os) (later : st.Later st') :
    frames.Stacked G origin p c st' os := by
  induction h with
  | root h => exact .root (h.wait later)
  | upon _ moved top ih => exact .upon ih moved (top.wait later)

theorem Stacked.top (h : (push s d value below).Stacked G origin p c st os) :
    p.Gave G origin d os s st := by
  cases h with
  | root h => exact h
  | upon _ _ top => exact top

/-- The frame on top may have been pulled. -/
theorem Stacked.retop (h : (push s d value below).Stacked G origin p c st os)
    (top : p.Gave G origin d os' t st) : (push t d value below).Stacked G origin p c st os' := by
  cases h with
  | root => exact .root top
  | upon h moved _ => exact .upon h moved top

/-- Without the frame on top, the one below has given an outcome. -/
theorem Stacked.pop (h : (push s d value below).Stacked G origin p c st os) :
    below.Resting G origin p c st := by
  cases h with
  | root => exact .inl rfl
  | upon h _ _ => exact .inr ⟨_, _, h⟩

/-- **THE MARKS OF A STACK.** The bottom frame is marked with the start cursor alone, and each other
    frame with the cursor and the value of an outcome. The values are the row. -/
theorem Stacked.marks_eq (h : frames.Stacked G origin p c st os) : ∃ led : List (Outcome σ α),
    frames.marks = led.reverse.map (fun o => (o.cursor, some o.value)) ++ [(c, none)] ∧
      frames.values [] = led.map Outcome.value := by
  induction h with
  | root => exact ⟨[], rfl, rfl⟩
  | @upon _ _ o _ _ _ _ _ _ _ _ ih =>
      obtain ⟨led, hmarks, hvalues⟩ := ih
      refine ⟨led ++ [o], ?_, ?_⟩
      · rw [marks, hmarks, List.reverse_concat]
        rfl
      · rw [values_push, values_eq_append, hvalues, List.map_append]
        rfl

theorem Resting.wait (h : frames.Resting G origin p c st) (later : st.Later st') :
    frames.Resting G origin p c st' :=
  h.imp_right fun ⟨os, o, h⟩ => ⟨os, o, h.wait later⟩

theorem Resting.standing (h : frames.Resting G origin p c st) : frames.Standing G origin p c st :=
  h.imp_right fun ⟨_, _, h⟩ => ⟨_, h⟩

theorem Standing.stacked (h : (push s d value below).Standing G origin p c st) :
    ∃ os, (push s d value below).Stacked G origin p c st os := by
  obtain h | h := h
  · exact nomatch h
  · exact h

/-! ## One call -/

variable {least : Nat} {f : List α → β}

/-- **A TURN KEEPS THE INVARIANT.** -/
theorem Turn.standing (hturn : frames.Turn G least p st frames' st')
    (h : frames.Standing G origin p c st) :
    st.Later st' ∧ frames'.Standing G origin p c st' := by
  cases hturn with
  | descend gives moved starts =>
      obtain ⟨os, h⟩ := h.stacked
      obtain ⟨-, hs, horigin⟩ := h.top.sound
      have hlater := (hs.pulled gives).2.1
      have hparser := h.top.next gives
      have hlater' := (hparser.started starts).2.later
      have hbelow := (h.wait hlater).retop (h.top.pull gives)
      have htop := Parser.Gave.start (horigin.trans hlater) hparser starts
      exact ⟨hlater.trans hlater', .inr ⟨[], .upon (hbelow.wait hlater') moved htop⟩⟩
  | ascend spent _ =>
      obtain ⟨os, h⟩ := h.stacked
      have hlater := (h.top.sound.2.1.pulled spent).2.1
      exact ⟨hlater, (h.wait hlater).pop.standing⟩

/-- **SO DOES A ROW OF TURNS.** -/
theorem Turns.standing (hturns : frames.Turns G least p st frames' st') (hst : st.Intact)
    (h : frames.Standing G origin p c st) :
    st.Later st' ∧ frames'.Standing G origin p c st' := by
  induction hturns with
  | none => exact ⟨.refl hst, h⟩
  | more first _ ih =>
      obtain ⟨hlater, h'⟩ := first.standing h
      obtain ⟨hlater', h''⟩ := ih hlater.intact h'
      exact ⟨hlater.trans hlater', h''⟩

/-- **THE LAST STEP** leaves a stack whose top frame has given an outcome. -/
theorem Exit.resting {x : Pull σ ε ρ β} (hexit : frames.Exit G least f p st x st')
    (hst : st.Intact) (h : frames.Standing G origin p c st) :
    st.Later st' ∧ ∃ frames', x.rest = .repeating least f p none frames' ∧
      frames'.Resting G origin p c st' := by
  cases hexit with
  | stay gives _ =>
      obtain ⟨os, h⟩ := h.stacked
      have hlater := (h.top.sound.2.1.pulled gives).2.1
      exact ⟨hlater, _, rfl, .inr ⟨os, _, (h.wait hlater).retop (h.top.pull gives)⟩⟩
  | emit spent _ =>
      obtain ⟨os, h⟩ := h.stacked
      have hlater := (h.top.sound.2.1.pulled spent).2.1
      exact ⟨hlater, _, rfl, (h.wait hlater).pop⟩
  | finish => exact ⟨.refl hst, .bottom, rfl, .inl rfl⟩

/-- **ONE CALL.** -/
theorem Standing.pulled {x : Pull σ ε ρ β} (h : frames.Standing G origin p c st) (hst : st.Intact)
    (hpulled : (Outcomes.repeating least f p none frames).pulled G st = .done x st') :
    st.Later st' ∧ ∃ frames', x.rest = .repeating least f p none frames' ∧
      frames'.Resting G origin p c st' := by
  obtain ⟨n, hn⟩ := (Outcomes.pulled_eq_done_iff G st).mp hpulled
  obtain ⟨frames₁, st₁, hturns, hexit⟩ := turns_of_pull G least f p n hn
  obtain ⟨hlater, h₁⟩ := hturns.standing hst h
  obtain ⟨hlater', hrest⟩ := hexit.resting hlater.intact h₁
  exact ⟨hlater.trans hlater', hrest⟩

end Frames

/-! ## Any number of calls -/

/-- **A WHOLE LIFE.** The start cursor is kept until the first call, and the stack is empty till
    then. -/
theorem Outcomes.Answered.repetition {least : Nat} {f : List α → β}
    {answers : List (Option (Outcome σ β))} {r : Outcomes σ ε ρ β} (hp : p.Sound G c st)
    (hlife : (repeating least f p (some c) .bottom).Answered G st answers r st') :
    st.Later st' ∧ ∃ root frames, r = .repeating least f p root frames ∧
      (answers = [] ∧ root = some c ∧ frames = .bottom ∨
        answers ≠ [] ∧ root = none ∧ frames.Resting G st p c st') := by
  induction hlife with
  | nothing => exact ⟨.refl hp.intact, _, _, rfl, .inl ⟨rfl, rfl, rfl⟩⟩
  | wait _ later ih =>
      obtain ⟨hlater, root, frames, hr, hcase⟩ := ih
      refine ⟨hlater.trans later, root, frames, hr, hcase.imp_right ?_⟩
      exact fun ⟨hne, hroot, hrest⟩ => ⟨hne, hroot, hrest.wait later⟩
  | @pull answers _ s'' st₁ st₂ answer _ pulled ih =>
      obtain ⟨hlater, root, frames, rfl, hcase⟩ := ih
      have hne : answers ++ [answer] ≠ [] := List.concat_ne_nil _ _
      rcases hcase with ⟨-, rfl, rfl⟩ | ⟨-, rfl, hrest⟩
      · -- the first call starts the parser at the start cursor
        have hp₁ := hp.later hlater
        rw [pulled_repeating_root] at pulled
        obtain ⟨s, st₃, hstart, hpulled⟩ := Run.bind_eq_done_iff.mp pulled
        have hlater₁ := (hp₁.started hstart).2.later
        have hstands : Frames.Standing G st p c st₃ (.push s c none .bottom) :=
          .inr ⟨[], .root (.start hlater hp₁ hstart)⟩
        obtain ⟨hlater₂, frames', hr, hrest⟩ := hstands.pulled hlater₁.intact hpulled
        exact ⟨(hlater.trans hlater₁).trans hlater₂, none, frames', hr, .inr ⟨hne, rfl, hrest⟩⟩
      · obtain ⟨hlater', frames', hr, hrest'⟩ := hrest.standing.pulled hlater.intact pulled
        exact ⟨hlater.trans hlater', none, frames', hr, .inr ⟨hne, rfl, hrest'⟩⟩

end

/-- **THE STACK OF A REPETITION** at any time. A repetition has been started at a cursor that the
    callers have, it has been pulled any number of times, and anything may have happened to the
    store in between. As long as nothing has been pulled, it keeps its start cursor and its stack is
    empty; from the first pull on it has no start cursor any more. If the stack is not empty, each
    frame has what is left of a run of the parser at its cursor: the bottom frame at the start
    cursor, and each other frame at the cursor of the latest outcome that the frame below has given,
    which lies elsewhere than the frame below; and the frame on top has given an outcome too. The
    bottom frame has no value, each other frame has the value of the outcome that led to it, and so
    the row on the stack has one item for each frame but the bottom one. -/
theorem Parser.repetition_stack {w : World σ ε} (hw : w.Reachable) (hG : G.Honest w.known)
    {p : Parser σ ε ρ α} (hp : p.Honest w.known) {c : Cursor σ} (hc : c ∈ w.cursors) {least : Nat}
    {f : List α → β} {s s' : Outcomes σ ε ρ β} {st st' : Store σ ε}
    {answers : List (Option (Outcome σ β))}
    (hstart : (repetition least f p).started G c w.store = .done s st)
    (hlife : s.Answered G st answers s' st') :
    ∃ root frames, s' = .repeating least f p root frames ∧
      (answers = [] → root = some c ∧ frames = .bottom) ∧ (answers ≠ [] → root = none) ∧
      (frames ≠ .bottom →
        (∃ os o, frames.Stacked G w.store p c st' (os ++ [o])) ∧
        ∃ led : List (Outcome σ α),
          frames.marks = led.reverse.map (fun o => (o.cursor, some o.value)) ++ [(c, none)] ∧
          frames.values [] = led.map Outcome.value) := by
  rw [started_repetition] at hstart
  cases hstart
  obtain ⟨-, root, frames, hs', hcase⟩ := hlife.repetition (hw.sound.parser hG hp hc)
  refine ⟨root, frames, hs', ?_⟩
  rcases hcase with ⟨hnone, hroot, hframes⟩ | ⟨hsome, hroot, hrest⟩
  · exact ⟨fun _ => ⟨hroot, hframes⟩, fun h => absurd hnone h, fun h => absurd hframes h⟩
  · refine ⟨fun h => absurd h hsome, fun _ => hroot, fun hframes => ?_⟩
    obtain ⟨os, o, h⟩ := hrest.resolve_left hframes
    exact ⟨⟨os, o, h⟩, h.marks_eq⟩

end

/-- Others take up a source before the items of a pair are asked for. The longest row is given, and
    on the stack is the first item. -/
theorem Parser.item_repetition_stack :
    let _ : Carrier Nat := .none
    let c : Cursor Nat := ⟨0, 0, 0, some 7⟩
    let p : Parser Nat Unit (fun _ => Empty) Nat := .item
    let frames : Frames Nat Unit (fun _ => Empty) Nat :=
      .push .empty ⟨0, 1, 1, some 8⟩ (some 7) (.push .empty c none .bottom)
    ∃ s st', p.many.started .empty c World.pair.store = .done s World.pair.store ∧
      s.Answered .empty World.pair.store [some ⟨[7, 8], ⟨0, 2, 2, none⟩⟩]
        (.repeating 0 id p none frames) st' ∧
      (∃ os o, frames.Stacked .empty World.pair.store p c st' (os ++ [o])) ∧
      ∃ led : List (Outcome Nat Nat),
        frames.marks = led.reverse.map (fun o => (o.cursor, some o.value)) ++ [(c, none)] ∧
        frames.values [] = led.map Outcome.value := by
  intro _ c p frames
  have hplain : p.Plain := trivial
  have hstart : p.many.started .empty c World.pair.store =
      .done (.repeating 0 id p (some c) .bottom) World.pair.store := started_repetition ..
  have hsound := World.reachable_pair.sound
  let another : Store Nat Unit := (World.pair.store.attach (.ofList [9])).2
  have hattach : World.pair.store.Later another :=
    ⟨(hsound.intact.attach _).1, grows_attach _ _⟩
  obtain ⟨st', hpulled⟩ :
      ∃ st', (Outcomes.repeating 0 id p (some c) .bottom).pulled .empty another =
        .done ⟨some ⟨[7, 8], ⟨0, 2, 2, none⟩⟩, .repeating 0 id p none frames⟩ st' :=
    ⟨_, (Outcomes.pulled_eq_done_iff .empty another).mpr ⟨6, rfl⟩⟩
  have hlife := (Outcomes.Answered.nothing.wait hattach).pull hpulled
  obtain ⟨root, frames', hframes, -, -, hstack⟩ := repetition_stack World.reachable_pair
    (fun _ r => r.elim) (hplain.honest _) (List.mem_singleton.mpr rfl) hstart hlife
  cases hframes
  exact ⟨_, _, hstart, hlife, hstack nofun⟩

end Backtrack
