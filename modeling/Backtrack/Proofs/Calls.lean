import Backtrack.Proofs.Lifetime

/-!
# Calls — all that happens in the course of a pull

To start a parser, or to pull a sequence, other parsers are started and other sequences pulled. Each
of these is a *job*, and `Job.Calls` lists which jobs a job calls for, with what has to be found
first. A job is *at work* in a parser's life if it is the start of the parser, a pull of its
sequence, or called for by a job at work: this is every start and every pull anywhere in a grammar,
down to the rows of a repetition in the middle of a pull.

What a sound job calls for is sound. So what is to be shown of every parser that is run anywhere can
be shown of an honest parser run at a cursor that an intact store holds.
-/

namespace Backtrack

open Store

variable {σ ε : Type} {ρ : Type → Type} {α : Type}

/-- Something to be done: a parser to be started at a cursor, or a sequence to be pulled that was
    begun at a cursor. -/
inductive Job (σ ε : Type) (ρ : Type → Type) : Type 1 where
  | start {α : Type} (p : Parser σ ε ρ α) (c : Cursor σ) (st : Store σ ε)
  | pull {α : Type} (origin : Cursor σ) (s : Outcomes σ ε ρ α) (st : Store σ ε)

namespace Job

/-- The store in which a job is taken up. -/
def store : Job σ ε ρ → Store σ ε
  | .start _ _ st => st
  | .pull _ _ st  => st

/-- The jobs that a job calls for, each with the allowance `n`. -/
inductive Calls (G : Grammar σ ε ρ) (n : Nat) : Job σ ε ρ → Job σ ε ρ → Prop where
  | map {α β : Type} {f : α → Call ε β} {p : Parser σ ε ρ α} {c : Cursor σ} {st : Store σ ε} :
      Calls G n (.start (.map f p) c st) (.start p c st)
  | filter {α : Type} {test : α → Call ε Bool} {p : Parser σ ε ρ α} {c : Cursor σ}
      {st : Store σ ε} : Calls G n (.start (.filter test p) c st) (.start p c st)
  | spanning {α β : Type} {f : α → Span → β} {p : Parser σ ε ρ α} {c : Cursor σ}
      {st : Store σ ε} : Calls G n (.start (.spanning f p) c st) (.start p c st)
  | lookahead {α : Type} {p : Parser σ ε ρ α} {c : Cursor σ} {st : Store σ ε} :
      Calls G n (.start (.lookahead p) c st) (.start p c st)
  | rule {α : Type} {r : ρ α} {c : Cursor σ} {st : Store σ ε} :
      Calls G n (.start (.rule r) c st) (.start (G.body r) c st)
  | remark {α : Type} {notes : Cursor σ → List ε} {p : Parser σ ε ρ α} {c : Cursor σ}
      {st : Store σ ε} :
      Calls G n (.start (.remark notes p) c st) (.start p c (st.remark (notes c)))
  /-- The sequence inside. -/
  | mapped {α β : Type} {f : Outcome σ α → Call ε (Outcome σ β)} {s : Outcomes σ ε ρ α}
      {c : Cursor σ} {st : Store σ ε} : Calls G n (.pull c (.mapped f s) st) (.pull c s st)
  | filtered {α : Type} {test : Outcome σ α → Call ε Bool} {s : Outcomes σ ε ρ α}
      {c : Cursor σ} {st : Store σ ε} : Calls G n (.pull c (.filtered test s) st) (.pull c s st)
  /-- An outcome has failed the test. -/
  | refused {α : Type} {test : Outcome σ α → Call ε Bool} {s s' : Outcomes σ ε ρ α}
      {o : Outcome σ α} {c : Cursor σ} {st st₁ st₂ : Store σ ε}
      (hs : s.pull G n st = .done ⟨some o, s'⟩ st₁) (htest : (test o).run st₁ = .done false st₂) :
      Calls G n (.pull c (.filtered test s) st) (.pull c (.filtered test s') st₂)
  | chained {α : Type} {s : Outcomes σ ε ρ α} {waiting : List (Parser σ ε ρ α × Cursor σ)}
      {c : Cursor σ} {st : Store σ ε} : Calls G n (.pull c (.chained s waiting) st) (.pull c s st)
  /-- The sequence is spent, and the first parser that waits is started. -/
  | waiting {α : Type} {s s' : Outcomes σ ε ρ α} {p : Parser σ ε ρ α} {d : Cursor σ}
      {waiting : List (Parser σ ε ρ α × Cursor σ)} {c : Cursor σ} {st st₁ : Store σ ε}
      (hs : s.pull G n st = .done ⟨none, s'⟩ st₁) :
      Calls G n (.pull c (.chained s ((p, d) :: waiting)) st) (.start p d st₁)
  | waited {α : Type} {s s' t : Outcomes σ ε ρ α} {p : Parser σ ε ρ α} {d : Cursor σ}
      {waiting : List (Parser σ ε ρ α × Cursor σ)} {c : Cursor σ} {st st₁ st₂ : Store σ ε}
      (hs : s.pull G n st = .done ⟨none, s'⟩ st₁) (hp : p.start G n d st₁ = .done t st₂) :
      Calls G n (.pull c (.chained s ((p, d) :: waiting)) st) (.pull c (.chained t waiting) st₂)
  | inner {α β : Type} {next : α → Parser σ ε ρ β} {outer : Outcomes σ ε ρ α}
      {inner : Outcomes σ ε ρ β} {c : Cursor σ} {st : Store σ ε} :
      Calls G n (.pull c (.bound next outer inner) st) (.pull c inner st)
  /-- The continuation of one outcome is spent, and another outcome is asked for. -/
  | outer {α β : Type} {next : α → Parser σ ε ρ β} {outer : Outcomes σ ε ρ α}
      {inner inner' : Outcomes σ ε ρ β} {c : Cursor σ} {st st₁ : Store σ ε}
      (hinner : inner.pull G n st = .done ⟨none, inner'⟩ st₁) :
      Calls G n (.pull c (.bound next outer inner) st) (.pull c outer st₁)
  | next {α β : Type} {next : α → Parser σ ε ρ β} {outer outer' : Outcomes σ ε ρ α}
      {inner inner' : Outcomes σ ε ρ β} {o : Outcome σ α} {c : Cursor σ}
      {st st₁ st₂ : Store σ ε} (hinner : inner.pull G n st = .done ⟨none, inner'⟩ st₁)
      (houter : outer.pull G n st₁ = .done ⟨some o, outer'⟩ st₂) :
      Calls G n (.pull c (.bound next outer inner) st) (.start (next o.value) o.cursor st₂)
  | continued {α β : Type} {next : α → Parser σ ε ρ β} {outer outer' : Outcomes σ ε ρ α}
      {inner inner' t : Outcomes σ ε ρ β} {o : Outcome σ α} {c : Cursor σ}
      {st st₁ st₂ st₃ : Store σ ε} (hinner : inner.pull G n st = .done ⟨none, inner'⟩ st₁)
      (houter : outer.pull G n st₁ = .done ⟨some o, outer'⟩ st₂)
      (hnext : (next o.value).start G n o.cursor st₂ = .done t st₃) :
      Calls G n (.pull c (.bound next outer inner) st) (.pull c (.bound next outer' t) st₃)
  | first {α β γ : Type} {f : α → β → γ} {q : Parser σ ε ρ β} {outer : Outcomes σ ε ρ α}
      {inner : Outcomes σ ε ρ β} {c : Cursor σ} {st : Store σ ε} :
      Calls G n (.pull c (.paired f q outer none inner) st) (.pull c outer st)
  | second {α β γ : Type} {f : α → β → γ} {q : Parser σ ε ρ β} {outer outer' : Outcomes σ ε ρ α}
      {inner : Outcomes σ ε ρ β} {o : Outcome σ α} {c : Cursor σ} {st st₁ : Store σ ε}
      (houter : outer.pull G n st = .done ⟨some o, outer'⟩ st₁) :
      Calls G n (.pull c (.paired f q outer none inner) st) (.start q o.cursor st₁)
  | pairing {α β γ : Type} {f : α → β → γ} {q : Parser σ ε ρ β}
      {outer outer' : Outcomes σ ε ρ α} {inner t : Outcomes σ ε ρ β} {o : Outcome σ α}
      {c : Cursor σ} {st st₁ st₂ : Store σ ε}
      (houter : outer.pull G n st = .done ⟨some o, outer'⟩ st₁)
      (hq : q.start G n o.cursor st₁ = .done t st₂) :
      Calls G n (.pull c (.paired f q outer none inner) st)
        (.pull c (.paired f q outer' (some o.value) t) st₂)
  | paired {α β γ : Type} {f : α → β → γ} {q : Parser σ ε ρ β} {outer : Outcomes σ ε ρ α} {a : α}
      {inner : Outcomes σ ε ρ β} {c : Cursor σ} {st : Store σ ε} :
      Calls G n (.pull c (.paired f q outer (some a) inner) st) (.pull c inner st)
  /-- The second parser is spent behind one outcome of the first. -/
  | unpaired {α β γ : Type} {f : α → β → γ} {q : Parser σ ε ρ β} {outer : Outcomes σ ε ρ α}
      {a : α} {inner inner' : Outcomes σ ε ρ β} {c : Cursor σ} {st st₁ : Store σ ε}
      (hinner : inner.pull G n st = .done ⟨none, inner'⟩ st₁) :
      Calls G n (.pull c (.paired f q outer (some a) inner) st)
        (.pull c (.paired f q outer none .empty) st₁)
  | root {α β : Type} {least : Nat} {f : List α → β} {p : Parser σ ε ρ α} {d : Cursor σ}
      {frames : Frames σ ε ρ α} {c : Cursor σ} {st : Store σ ε} :
      Calls G n (.pull c (.repeating least f p (some d) frames) st) (.start p d st)
  | rooted {α β : Type} {least : Nat} {f : List α → β} {p : Parser σ ε ρ α} {d : Cursor σ}
      {frames : Frames σ ε ρ α} {s : Outcomes σ ε ρ α} {c : Cursor σ} {st st₁ : Store σ ε}
      (hp : p.start G n d st = .done s st₁) :
      Calls G n (.pull c (.repeating least f p (some d) frames) st)
        (.pull c (.repeating least f p none (.push s d none frames)) st₁)
  /-- The frame on top has the cursor of its own that it was begun at. -/
  | frame {α β : Type} {least : Nat} {f : List α → β} {p : Parser σ ε ρ α}
      {s : Outcomes σ ε ρ α} {d : Cursor σ} {value : Option α} {below : Frames σ ε ρ α}
      {c : Cursor σ} {st : Store σ ε} :
      Calls G n (.pull c (.repeating least f p none (.push s d value below)) st) (.pull d s st)
  /-- An occurrence has been found, and the row goes on behind it. -/
  | occurrence {α β : Type} {least : Nat} {f : List α → β} {p : Parser σ ε ρ α}
      {s s' : Outcomes σ ε ρ α} {d : Cursor σ} {value : Option α} {below : Frames σ ε ρ α}
      {o : Outcome σ α} {c : Cursor σ} {st st₁ : Store σ ε}
      (hs : s.pull G n st = .done ⟨some o, s'⟩ st₁) (hmoved : o.cursor.position ≠ d.position) :
      Calls G n (.pull c (.repeating least f p none (.push s d value below)) st)
        (.start p o.cursor st₁)
  | longer {α β : Type} {least : Nat} {f : List α → β} {p : Parser σ ε ρ α}
      {s s' t : Outcomes σ ε ρ α} {d : Cursor σ} {value : Option α} {below : Frames σ ε ρ α}
      {o : Outcome σ α} {c : Cursor σ} {st st₁ st₂ : Store σ ε}
      (hs : s.pull G n st = .done ⟨some o, s'⟩ st₁) (hmoved : o.cursor.position ≠ d.position)
      (hp : p.start G n o.cursor st₁ = .done t st₂) :
      Calls G n (.pull c (.repeating least f p none (.push s d value below)) st)
        (.pull c (.repeating least f p none
          (.push t o.cursor (some o.value) (.push s' d value below))) st₂)
  /-- The frame on top is spent, and its row too short to count. -/
  | shorter {α β : Type} {least : Nat} {f : List α → β} {p : Parser σ ε ρ α}
      {s s' : Outcomes σ ε ρ α} {d : Cursor σ} {value : Option α} {below : Frames σ ε ρ α}
      {c : Cursor σ} {st st₁ : Store σ ε} (hs : s.pull G n st = .done ⟨none, s'⟩ st₁)
      (hshort : ¬ least ≤ ((Frames.push s' d value below).values []).length) :
      Calls G n (.pull c (.repeating least f p none (.push s d value below)) st)
        (.pull c (.repeating least f p none below) st₁)

end Job

/-- The jobs that are at work in the life of a parser started at a cursor: its start, the pulls of
    its sequence, whenever they are made, and whatever these call for. -/
inductive Parser.Works (G : Grammar σ ε ρ) (p : Parser σ ε ρ α) (c : Cursor σ) (st : Store σ ε) :
    Job σ ε ρ → Prop where
  | start : Works G p c st (.start p c st)
  | pull {s s' : Outcomes σ ε ρ α} {st₁ st₂ : Store σ ε} (hstart : p.started G c st = .done s st₁)
      (hlife : s.Becomes G st₁ s' st₂) : Works G p c st (.pull c s' st₂)
  | call {t t' : Job σ ε ρ} {n : Nat} (h : Works G p c st t) (hcall : t.Calls G n t') :
      Works G p c st t'

/-! ## Sound jobs -/

section

variable [Carrier σ]

/-- The store is intact and holds the cursor, and nobody makes up a cursor. -/
structure Parser.Sound (G : Grammar σ ε ρ) (p : Parser σ ε ρ α) (c : Cursor σ) (st : Store σ ε) :
    Prop where
  intact  : st.Intact
  grammar : G.Honest st.held
  honest  : p.Honest st.held
  holds   : st.Holds c

/-- The parser, or the sequence, is sound in the store. -/
def Job.Sound (G : Grammar σ ε ρ) : Job σ ε ρ → Prop
  | .start p c st => p.Sound G c st
  | .pull _ s st  => s.Sound G st

variable {G : Grammar σ ε ρ} {p : Parser σ ε ρ α} {c : Cursor σ} {st st' : Store σ ε} {n : Nat}

theorem Parser.Sound.later (h : p.Sound G c st) (hlater : st.Later st') : p.Sound G c st' :=
  have hheld := hlater.held_subset h.intact
  ⟨hlater.intact, h.grammar.mono hheld, h.honest.mono hheld,
    mem_held.mp (hheld (mem_held.mpr h.holds))⟩

/-- Callers who start a parser at a cursor they have start it soundly. -/
theorem World.Sound.parser {w : World σ ε} (hw : w.Sound) (hG : G.Honest w.known)
    (hp : p.Honest w.known) (hc : c ∈ w.cursors) : p.Sound G c w.store :=
  ⟨hw.intact, hG.mono hw.known_subset, hp.mono hw.known_subset, hw.cursors c hc⟩

theorem Parser.Sound.start (h : p.Sound G c st) {s : Outcomes σ ε ρ α}
    (hstart : p.start G n c st = .done s st') : s.Sound G st' ∧ st.Later st' :=
  sound_of_start h.intact h.grammar h.honest h.holds hstart

/-- Where one sequence is sound, so is another that holds nothing but cursors of the store. -/
theorem Outcomes.Sound.other {β : Type} {s : Outcomes σ ε ρ α} (h : s.Sound G st)
    {t : Outcomes σ ε ρ β} (ht : t.Held st.held) : t.Sound G st :=
  ⟨h.intact, h.grammar, ht⟩

/-- And a parser may be started there at any cursor of the store. -/
theorem Outcomes.Sound.parser {β : Type} {s : Outcomes σ ε ρ β} (h : s.Sound G st)
    (hp : p.Honest st.held) (hc : c ∈ st.held) : p.Sound G c st :=
  ⟨h.intact, h.grammar, hp, mem_held.mp hc⟩

namespace Outcomes.Sound

variable {β γ : Type} {st₁ st₂ st₃ : Store σ ε}

theorem pull_filtered {test : Outcome σ α → Call ε Bool} {s s' : Outcomes σ ε ρ α}
    {o : Outcome σ α} (h : (filtered test s).Sound G st)
    (hs : s.pull G n st = .done ⟨some o, s'⟩ st₁) (htest : (test o).run st₁ = .done false st₂) :
    (filtered test s').Sound G st₂ ∧ st.Later st₂ := by
  obtain ⟨hs', hlater, -⟩ := (h.other (t := s) h.held).pull hs
  have hlater' := Call.later_of_run hs'.intact htest
  have hs'' := hs'.later hlater'
  exact ⟨hs''.other hs''.held, hlater.trans hlater'⟩

theorem pull_chained {s s' : Outcomes σ ε ρ α} {p : Parser σ ε ρ α} {d : Cursor σ}
    {waiting : List (Parser σ ε ρ α × Cursor σ)} (h : (chained s ((p, d) :: waiting)).Sound G st)
    (hs : s.pull G n st = .done ⟨none, s'⟩ st₁) :
    p.Sound G d st₁ ∧ (chained s waiting).Sound G st₁ ∧ st.Later st₁ := by
  obtain ⟨-, hlater, -⟩ := (h.other h.held.1).pull hs
  have h₁ := h.later hlater
  obtain ⟨hp, hd⟩ := h₁.held.2 (p, d) (List.mem_cons_self ..)
  exact ⟨h₁.parser hp hd, h₁.other ⟨h₁.held.1, fun w hw => h₁.held.2 w (List.mem_cons_of_mem _ hw)⟩,
    hlater⟩

theorem pull_bound {next : α → Parser σ ε ρ β} {outer outer' : Outcomes σ ε ρ α}
    {inner inner' : Outcomes σ ε ρ β} {o : Outcome σ α} (h : (bound next outer inner).Sound G st)
    (hinner : inner.pull G n st = .done ⟨none, inner'⟩ st₁)
    (houter : outer.pull G n st₁ = .done ⟨some o, outer'⟩ st₂) :
    (next o.value).Sound G o.cursor st₂ ∧ (bound next outer' inner).Sound G st₂ ∧
      st.Later st₂ := by
  obtain ⟨-, hlater, -⟩ := (h.other h.held.2.1).pull hinner
  have h₁ := h.later hlater
  obtain ⟨houter', hlater', ho⟩ := (h₁.other h₁.held.1).pull houter
  have h₂ := h₁.later hlater'
  obtain ⟨hcursor, hvalue⟩ := ho o rfl
  exact ⟨h₂.parser (h₂.held.2.2 _ (fun _ hc => hc) o.value hvalue) hcursor,
    h₂.other ⟨houter'.held, h₂.held.2⟩, hlater.trans hlater'⟩

theorem pull_paired {f : α → β → γ} {q : Parser σ ε ρ β} {outer outer' : Outcomes σ ε ρ α}
    {inner : Outcomes σ ε ρ β} {o : Outcome σ α} (h : (paired f q outer none inner).Sound G st)
    (houter : outer.pull G n st = .done ⟨some o, outer'⟩ st₁) :
    q.Sound G o.cursor st₁ ∧ (paired f q outer' (some o.value) inner).Sound G st₁ ∧
      st.Later st₁ := by
  obtain ⟨houter', hlater, ho⟩ := (h.other h.held.2.1).pull houter
  have h₁ := h.later hlater
  obtain ⟨hcursor, hvalue⟩ := ho o rfl
  refine ⟨h₁.parser h₁.held.1 hcursor, h₁.other ⟨h₁.held.1, houter'.held, h₁.held.2.2.1, ?_,
    h₁.held.2.2.2.2⟩, hlater⟩
  intro a ha
  obtain rfl := Option.some.inj ha
  exact hvalue

theorem pull_repeating {least : Nat} {f : List α → β} {p : Parser σ ε ρ α}
    {s s' : Outcomes σ ε ρ α} {d : Cursor σ} {value : Option α} {below : Frames σ ε ρ α}
    {o : Outcome σ α} (h : (repeating least f p none (.push s d value below)).Sound G st)
    (hs : s.pull G n st = .done ⟨some o, s'⟩ st₁) :
    p.Sound G o.cursor st₁ ∧
      (repeating least f p none (.push s' d value below)).Sound G st₁ ∧
      o.Known st₁.held ∧ st.Later st₁ := by
  obtain ⟨hs', hlater, ho⟩ := (h.other h.held.2.1.1).pull hs
  have h₁ := h.later hlater
  exact ⟨h₁.parser h₁.held.1 (ho o rfl).1,
    h₁.other ⟨h₁.held.1, ⟨hs'.held, h₁.held.2.1.2⟩, h₁.held.2.2⟩, ho o rfl, hlater⟩

end Outcomes.Sound

/-- **ONE CALL.** What a sound job calls for is sound, in a store that has only grown. -/
theorem Job.Calls.sound {t t' : Job σ ε ρ} (hcall : t.Calls G n t') (h : t.Sound G) :
    t'.Sound G ∧ t.store.Later t'.store := by
  cases hcall with
  | map => exact ⟨⟨h.intact, h.grammar, h.honest.1, h.holds⟩, .refl h.intact⟩
  | filter => exact ⟨⟨h.intact, h.grammar, h.honest, h.holds⟩, .refl h.intact⟩
  | spanning => exact ⟨⟨h.intact, h.grammar, h.honest.1, h.holds⟩, .refl h.intact⟩
  | lookahead => exact ⟨⟨h.intact, h.grammar, h.honest, h.holds⟩, .refl h.intact⟩
  | rule => exact ⟨⟨h.intact, h.grammar, h.grammar _ _, h.holds⟩, .refl h.intact⟩
  | @remark α notes p c st =>
      have hlater := Later.remark h.intact (notes c)
      have h' := Parser.Sound.later h hlater
      exact ⟨⟨h'.intact, h'.grammar, h'.honest, h'.holds⟩, hlater⟩
  | mapped => exact ⟨h.other h.held.1, .refl h.intact⟩
  | filtered => exact ⟨⟨h.intact, h.grammar, h.held⟩, .refl h.intact⟩
  | refused hs htest => exact Outcomes.Sound.pull_filtered h hs htest
  | chained => exact ⟨h.other h.held.1, .refl h.intact⟩
  | waiting hs =>
      obtain ⟨hp, -, hlater⟩ := Outcomes.Sound.pull_chained h hs
      exact ⟨hp, hlater⟩
  | waited hs hstart =>
      obtain ⟨hp, hrest, hlater⟩ := Outcomes.Sound.pull_chained h hs
      obtain ⟨ht, hlater'⟩ := hp.start hstart
      exact ⟨ht.other ⟨ht.held, (hrest.later hlater').held.2⟩, hlater.trans hlater'⟩
  | inner => exact ⟨h.other h.held.2.1, .refl h.intact⟩
  | outer hinner =>
      obtain ⟨-, hlater, -⟩ := (h.other h.held.2.1).pull hinner
      have h₁ := Outcomes.Sound.later h hlater
      exact ⟨h₁.other h₁.held.1, hlater⟩
  | next hinner houter =>
      obtain ⟨hnext, -, hlater⟩ := Outcomes.Sound.pull_bound h hinner houter
      exact ⟨hnext, hlater⟩
  | continued hinner houter hstart =>
      obtain ⟨hnext, hrest, hlater⟩ := Outcomes.Sound.pull_bound h hinner houter
      obtain ⟨ht, hlater'⟩ := hnext.start hstart
      have hrest' := hrest.later hlater'
      exact ⟨ht.other ⟨hrest'.held.1, ht.held, hrest'.held.2.2⟩, hlater.trans hlater'⟩
  | first => exact ⟨h.other h.held.2.1, .refl h.intact⟩
  | second houter =>
      obtain ⟨hq, -, hlater⟩ := Outcomes.Sound.pull_paired h houter
      exact ⟨hq, hlater⟩
  | pairing houter hstart =>
      obtain ⟨hq, hrest, hlater⟩ := Outcomes.Sound.pull_paired h houter
      obtain ⟨ht, hlater'⟩ := hq.start hstart
      have hrest' := hrest.later hlater'
      exact ⟨ht.other ⟨hrest'.held.1, hrest'.held.2.1, ht.held, hrest'.held.2.2.2⟩,
        hlater.trans hlater'⟩
  | paired => exact ⟨h.other h.held.2.2.1, .refl h.intact⟩
  | unpaired hinner =>
      obtain ⟨-, hlater, -⟩ := (h.other h.held.2.2.1).pull hinner
      have h₁ := Outcomes.Sound.later h hlater
      exact ⟨h₁.other ⟨h₁.held.1, h₁.held.2.1, Outcomes.held_empty, forall_mem_none,
        h₁.held.2.2.2.2⟩, hlater⟩
  | root => exact ⟨h.parser h.held.1 (h.held.2.2.1 _ rfl), .refl h.intact⟩
  | rooted hstart =>
      have hd := h.held.2.2.1 _ rfl
      obtain ⟨hs, hlater⟩ := (h.parser h.held.1 hd).start hstart
      have h₁ := Outcomes.Sound.later h hlater
      exact ⟨h₁.other ⟨h₁.held.1, ⟨hs.held, h₁.held.2.2.1 _ rfl, forall_mem_none, h₁.held.2.1⟩,
        forall_mem_none, h₁.held.2.2.2⟩, hlater⟩
  | frame => exact ⟨h.other h.held.2.1.1, .refl h.intact⟩
  | occurrence hs hmoved =>
      obtain ⟨hp, -, -, hlater⟩ := Outcomes.Sound.pull_repeating h hs
      exact ⟨hp, hlater⟩
  | longer hs hmoved hstart =>
      obtain ⟨hp, hrest, ho, hlater⟩ := Outcomes.Sound.pull_repeating h hs
      obtain ⟨ht, hlater'⟩ := hp.start hstart
      have ho' := ho.mono (hlater'.held_subset hrest.intact)
      have hrest' := hrest.later hlater'
      refine ⟨ht.other ⟨hrest'.held.1, ⟨ht.held, ho'.1, ?_, hrest'.held.2.1⟩, hrest'.held.2.2⟩,
        hlater.trans hlater'⟩
      intro a ha
      obtain rfl := Option.some.inj ha
      exact ho'.2
  | shorter hs hshort =>
      obtain ⟨-, hlater, -⟩ := (h.other h.held.2.1.1).pull hs
      have h₁ := Outcomes.Sound.later h hlater
      exact ⟨h₁.other ⟨h₁.held.1, h₁.held.2.1.2.2.2, h₁.held.2.2⟩, hlater⟩

end

end Backtrack
