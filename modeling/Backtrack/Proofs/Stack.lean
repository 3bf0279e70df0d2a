import Backtrack.Proofs.Remainders
import Backtrack.Proofs.Rows

/-!
# Stack — what a repetition has set aside

While a repetition walks over the rows of occurrences from its start, it keeps the row that it is at
on a stack: the sequences that have not been tried to their ends, the places where they were begun,
and the occurrences that led there. The parts of an occurrence are in two frames, its value in the
frame above the one whose sequence has given it, and its place as the place of that frame.

`Frames.Stands` says what holds the frames together: each frame above another has the value and the
place of the *latest* outcome that the frame below has given, and the sequence below is what the
parser leaves behind it. A pull takes such a stack to such a stack (`Frames.Stands.pull`), and the
row it gives is read off the stack it leaves: the values on it and one outcome more, the latest of
the frame on top (`Frames.Behind`); if nothing is left, it was the empty row.
-/

namespace Backtrack

open Store

variable {σ ε : Type} {ρ : Type → Type} {α β : Type}

section

variable [Carrier σ]

section

variable (G : Grammar σ ε ρ) (p : Parser σ ε ρ α) (c : Cursor σ) (st : Store σ ε)

/-- The stack of a walk that was begun at `c`, as it stands in a store. On top is a sequence that is
    left behind the outcomes in the list. -/
inductive Frames.Stands : List (Outcome σ α) → Frames σ ε ρ α → Prop where
  /-- The lowest frame stands where the walk was begun, and no occurrence has led there. -/
  | root {os : List (Outcome σ α)} {s : Outcomes σ ε ρ α} (h : p.Leaves G c os s st) :
      Stands os (.push s c none .bottom)
  /-- The latest outcome below lies elsewhere, and the frame on top was begun there. -/
  | upon {os os' : List (Outcome σ α)} {o : Outcome σ α} {s t : Outcomes σ ε ρ α} {d : Cursor σ}
      {value : Option α} {below : Frames σ ε ρ α}
      (h : Stands (os ++ [o]) (.push s d value below)) (moved : o.cursor.position ≠ d.position)
      (top : p.Leaves G o.cursor os' t st) :
      Stands os' (.push t o.cursor (some o.value) (.push s d value below))

/-- The stack that is left when a row has just been given. -/
inductive Frames.Behind : Outcome σ (List α) → Frames σ ε ρ α → Prop where
  /-- Behind the empty row there is nothing left. -/
  | first : Behind ⟨[], c⟩ .bottom
  /-- The row ends with the latest outcome of the frame on top. -/
  | last {os : List (Outcome σ α)} {o : Outcome σ α} {frames : Frames σ ε ρ α}
      (h : frames.Stands G p c st (os ++ [o])) : Behind ⟨frames.values [o.value], o.cursor⟩ frames

end

variable {G : Grammar σ ε ρ} {p : Parser σ ε ρ α} {c d : Cursor σ} {st st' : Store σ ε}
  {os os' : List (Outcome σ α)} {s t : Outcomes σ ε ρ α} {value : Option α}
  {frames below : Frames σ ε ρ α}

namespace Frames

theorem Stands.intact (h : frames.Stands G p c st os) : st.Intact := by
  cases h with
  | root h => exact h.parser.intact
  | upon _ _ top => exact top.parser.intact

theorem Stands.later (h : frames.Stands G p c st os) (hread : st.ReadOn st') :
    frames.Stands G p c st' os := by
  induction h with
  | root h => exact .root (h.later hread)
  | upon _ moved top ih => exact .upon ih moved (top.later hread)

theorem Behind.later {row : Outcome σ (List α)} (h : frames.Behind G p c st row)
    (hread : st.ReadOn st') : frames.Behind G p c st' row := by
  cases h with
  | first => exact .first
  | last h => exact .last (h.later hread)

theorem Stands.top (h : (push s d value below).Stands G p c st os) : p.Leaves G d os s st := by
  cases h with
  | root h => exact h
  | upon _ _ top => exact top

/-- The frame on top may be at another outcome. -/
theorem Stands.retop (h : (push s d value below).Stands G p c st os)
    (top : p.Leaves G d os' t st) : (push t d value below).Stands G p c st os' := by
  cases h with
  | root => exact .root top
  | upon h moved _ => exact .upon h moved top

/-- When the frame on top is spent, its row is given. -/
theorem Stands.behind (h : (push s d value below).Stands G p c st os) :
    below.Behind G p c st ⟨(push s d value below).values [], d⟩ := by
  cases h with
  | root => exact .first
  | upon h _ _ => exact .last h

end Frames

/-! ## One pull -/

/-- What a pull comes to: a row, or the end. -/
inductive Pull.Walks (G : Grammar σ ε ρ) (least : Nat) (f : List α → β) (p : Parser σ ε ρ α)
    (c : Cursor σ) (st : Store σ ε) : Pull σ ε ρ β → Prop where
  | row {row : Outcome σ (List α)} {frames : Frames σ ε ρ α} (h : frames.Behind G p c st row) :
      Walks G least f p c st ⟨some ⟨f row.value, row.cursor⟩, .repeating least f p none frames⟩
  | ended : Walks G least f p c st ⟨none, .repeating least f p none .bottom⟩

/-- **A PULL TAKES A STACK TO A STACK.** -/
theorem Frames.Stands.pull {least : Nat} {f : List α → β} (n : Nat) :
    ∀ {os : List (Outcome σ α)} {frames : Frames σ ε ρ α} {st st' : Store σ ε} {x : Pull σ ε ρ β},
      frames.Stands G p c st os →
      (Outcomes.repeating least f p none frames).pull G n st = .done x st' →
      st.ReadOn st' ∧ x.Walks G least f p c st' := by
  induction n with
  | zero => intro os frames st st' x _ hpull; exact nomatch hpull
  | succ n ih =>
      intro os frames st st' x h hpull
      cases frames with
      | bottom => exact nomatch h
      | push s d value below =>
          obtain ⟨⟨answer, s'⟩, st₁, hs, hdone⟩ := Run.bind_eq_done_iff.mp hpull
          have hpulled := (Outcomes.pulled_eq_done_iff G st).mpr ⟨n, hs⟩
          have hread := h.top.sequence.readOn hpulled
          cases answer with
          | none =>
              dsimp only at hdone
              rw [show (push s' d value below).values [] = (push s d value below).values []
                by rw [values_push, values_push]] at hdone
              split at hdone
              · cases hdone
                exact ⟨hread, .row (h.later hread).behind⟩
              · -- the row is too short, and the walk goes on below
                cases h with
                | root =>
                    cases n with
                    | zero => exact nomatch hdone
                    | succ n =>
                        cases hdone
                        exact ⟨hread, .ended⟩
                | upon h _ _ =>
                    obtain ⟨hread', hwalks⟩ := ih (h.later hread) hdone
                    exact ⟨hread.trans hread', hwalks⟩
          | some o =>
              have htop := h.top.pull hpulled
              have hstands := (h.later hread).retop htop
              dsimp only at hdone
              split at hdone
              · cases hdone
                exact ⟨hread, .row (.last hstands)⟩
              · next hmoved =>
                  -- one more frame on the stack, begun at the outcome
                  obtain ⟨t, st₂, ht, hdone⟩ := Run.bind_eq_done_iff.mp hdone
                  have hstarted := (Parser.started_eq_done_iff G o.cursor st₁).mpr ⟨n, ht⟩
                  obtain ⟨hs', -, ho⟩ := h.top.sequence.pulled hpulled
                  have hparser := hs'.parser htop.parser.honest (ho o rfl).1
                  have hread₂ := (hparser.started hstarted).2
                  have hlonger := Stands.upon (hstands.later hread₂) hmoved
                    (.start hparser hstarted)
                  obtain ⟨hread', hwalks⟩ := ih hlonger hdone
                  exact ⟨(hread.trans hread₂).trans hread', hwalks⟩

/-! ## Pull after pull -/

/-- A repetition in the course of its pulls. -/
inductive Outcomes.Walking (G : Grammar σ ε ρ) (least : Nat) (f : List α → β) (p : Parser σ ε ρ α)
    (c : Cursor σ) (st : Store σ ε) : Outcomes σ ε ρ β → Prop where
  /-- Nothing has been pulled, and the parser has not been started. -/
  | begun (h : p.Sound G c st) : Walking G least f p c st (.repeating least f p (some c) .bottom)
  /-- Between two rows, the frame on top has given an outcome. -/
  | going {os : List (Outcome σ α)} {o : Outcome σ α} {frames : Frames σ ε ρ α}
      (h : frames.Stands G p c st (os ++ [o])) :
      Walking G least f p c st (.repeating least f p none frames)
  | spent (h : st.Intact) : Walking G least f p c st (.repeating least f p none .bottom)

section

variable {least : Nat} {f : List α → β} {r r' : Outcomes σ ε ρ β}

theorem Frames.Behind.walking {row : Outcome σ (List α)} (h : frames.Behind G p c st row)
    (hst : st.Intact) : (Outcomes.repeating least f p none frames).Walking G least f p c st := by
  cases h with
  | first => exact .spent hst
  | last h => exact .going h

theorem Pull.Walks.walking {x : Pull σ ε ρ β} (h : x.Walks G least f p c st) (hst : st.Intact) :
    x.rest.Walking G least f p c st := by
  cases h with
  | row h => exact h.walking hst
  | ended => exact .spent hst

namespace Outcomes.Walking

theorem intact (h : r.Walking G least f p c st) : st.Intact := by
  cases h with
  | begun h => exact h.intact
  | going h => exact h.intact
  | spent h => exact h

/-- **ONE PULL** of a repetition, whenever it is made. -/
theorem pulled (h : r.Walking G least f p c st) {x : Pull σ ε ρ β}
    (hpulled : r.pulled G st = .done x st') : st.ReadOn st' ∧ x.Walks G least f p c st' := by
  obtain ⟨n, hn⟩ := (pulled_eq_done_iff G st).mp hpulled
  cases h with
  | begun h =>
      rw [pulled_repeating_root] at hpulled
      obtain ⟨s, st₁, hstart, hrest⟩ := Run.bind_eq_done_iff.mp hpulled
      obtain ⟨m, hm⟩ := (pulled_eq_done_iff G st₁).mp hrest
      obtain ⟨hread, hwalks⟩ := Frames.Stands.pull m (.root (.start h hstart)) hm
      exact ⟨(h.started hstart).2.trans hread, hwalks⟩
  | going h => exact h.pull n hn
  | spent h =>
      rw [pulled_repeating_bottom] at hpulled
      cases hpulled
      exact ⟨.refl h, .ended⟩

/-- **ANY NUMBER OF PULLS** of a repetition. Of each row that has been given, the stack behind it
    tells how it has come about. -/
theorem yields (h : r.Walking G least f p c st) {os : List (Outcome σ β)}
    (hyields : r.Yields G st os r' st') : st.ReadOn st' ∧ r'.Walking G least f p c st' ∧
      ∀ o ∈ os, ∃ row frames, o = ⟨f row.value, row.cursor⟩ ∧ Frames.Behind G p c st' row frames := by
  induction hyields with
  | nil => exact ⟨.refl h.intact, h, nofun⟩
  | cons first _ ih =>
      obtain ⟨hread, hwalks⟩ := h.pulled first
      obtain ⟨hread', hwalking, hrows⟩ := ih (hwalks.walking hread.later.intact)
      refine ⟨hread.trans hread', hwalking, ?_⟩
      intro o ho
      rcases List.mem_cons.mp ho with rfl | ho
      · cases hwalks with
        | row h => exact ⟨_, _, rfl, h.later hread'⟩
      · exact hrows o ho

theorem readOn_of_ends (h : r.Walking G least f p c st) {os : List (Outcome σ β)}
    {st₁ : Store σ ε} (hyields : r.Yields G st os r' st₁) (hends : r'.Ends G st₁ st') :
    st.ReadOn st' := by
  obtain ⟨hread, hwalking, -⟩ := h.yields hyields
  obtain ⟨rest, hrest⟩ := hends
  exact hread.trans (hwalking.pulled hrest).1

end Outcomes.Walking

omit [Carrier σ] in
/-- The start of a repetition is no work, and what it gives is what it is pulled for. -/
theorem Parser.delivers_repetition_iff {os : List (Outcome σ β)} :
    (repetition least f p).Delivers G c st os r st' ↔
      (Outcomes.repeating least f p (some c) .bottom).Yields G st os r st' := by
  rw [Delivers, started_repetition]
  constructor
  · rintro ⟨_, _, hstart, hyields⟩
    cases hstart
    exact hyields
  · exact fun hyields => ⟨_, st, rfl, hyields⟩

/-- The same from the start of the repetition on. -/
theorem Parser.Sound.delivers_rows (h : p.Sound G c st) {os : List (Outcome σ β)}
    (hdelivers : (repetition least f p).Delivers G c st os r st') :
    st.ReadOn st' ∧ r.Walking G least f p c st' ∧
      ∀ o ∈ os, ∃ row frames, o = ⟨f row.value, row.cursor⟩ ∧
        Frames.Behind G p c st' row frames :=
  (Outcomes.Walking.begun h).yields (delivers_repetition_iff.mp hdelivers)

end

end

end Backtrack
