import Backtrack.Proofs.World
import Backtrack.Resolve

/-!
# Lifetimes — what becomes of a sequence

Between two pulls of a sequence anything may happen to the store: others take up sources, go on from
cursors, start parsers and pull sequences of their own. All that this comes to is that the store is
still intact and has only grown. `Outcomes.Becomes` follows a sequence through its life: it is
pulled, others work on the store, and it may be narrowed to its complete outcomes.

All along the sequence stays *sound*: the store is intact and holds every cursor that the sequence
has. What is to be shown of every pull in a sequence's life can thus be shown of a single one.
-/

namespace Backtrack

open Store

variable {σ ε : Type} {ρ : Type → Type} {α : Type}

namespace Store

/-- What may have become of a store: it is intact, and has only grown. -/
structure Later (st st' : Store σ ε) : Prop where
  intact : st'.Intact
  grows  : st.Grows st'

variable {st st' st'' : Store σ ε}

theorem Later.refl (h : st.Intact) : st.Later st :=
  ⟨h, .refl st⟩

theorem Later.trans (h : st.Later st') (h' : st'.Later st'') : st.Later st'' :=
  ⟨h'.intact, h.grows.trans h'.grows⟩

theorem Later.remark (h : st.Intact) (notes : List ε) : st.Later (st.remark notes) :=
  ⟨(h.spends_remark notes).intact, (h.spends_remark notes).grows⟩

/-- The cursors that a store holds. -/
def held (st : Store σ ε) : Set (Cursor σ) :=
  shared st st

theorem mem_held {c : Cursor σ} : c ∈ st.held ↔ st.Holds c :=
  and_self_iff

theorem Later.held_subset (h : st.Later st') (hst : st.Intact) : st.held ⊆ st'.held :=
  h.grows.shared_subset hst h.intact

end Store

/-- A call that comes to a result has only left its remarks. -/
theorem Call.run_eq_done_iff {call : Call ε α} {a : α} {st st' : Store σ ε} :
    call.run st = .done a st' ↔ call.result = .ok a ∧ st' = st.remark call.notes := by
  rw [Call.run]
  cases call.result with
  | ok b => simp [eq_comm]
  | error x => simp

theorem Call.later_of_run {call : Call ε α} {a : α} {st st' : Store σ ε} (hst : st.Intact)
    (h : call.run st = .done a st') : st.Later st' := by
  rw [(run_eq_done_iff.mp h).2]
  exact .remark hst call.notes

/-- Whatever the callers do leaves a later store. -/
theorem World.Steps.later [Carrier σ] {w w' : World σ ε} (h : w.Steps w') (hw : w.Sound) :
    w.store.Later w'.store :=
  ⟨(h.sound hw).1.intact, (h.sound hw).2⟩

/-- A sequence in the course of its life. -/
inductive Outcomes.Becomes (G : Grammar σ ε ρ) (s : Outcomes σ ε ρ α) (st : Store σ ε) :
    Outcomes σ ε ρ α → Store σ ε → Prop where
  /-- Nothing has happened yet. -/
  | unchanged : Becomes G s st s st
  /-- Others have worked on the store. -/
  | wait {s' : Outcomes σ ε ρ α} {st' st'' : Store σ ε} (h : Becomes G s st s' st')
      (later : st'.Later st'') : Becomes G s st s' st''
  /-- It has been pulled. -/
  | pull {s' s'' : Outcomes σ ε ρ α} {st' st'' : Store σ ε} {answer : Option (Outcome σ α)}
      (h : Becomes G s st s' st') (pulled : s'.pulled G st' = .done ⟨answer, s''⟩ st'') :
      Becomes G s st s'' st''
  /-- It has been narrowed to its complete outcomes. -/
  | complete {s' : Outcomes σ ε ρ α} {st' : Store σ ε} (h : Becomes G s st s' st') :
      Becomes G s st s'.complete st'

section

variable [Carrier σ] {G : Grammar σ ε ρ}

/-- The store is intact and holds every cursor of the sequence, which makes up none. -/
structure Outcomes.Sound (G : Grammar σ ε ρ) (s : Outcomes σ ε ρ α) (st : Store σ ε) : Prop where
  intact  : st.Intact
  grammar : G.Honest st.held
  held    : s.Held st.held

variable {s s' : Outcomes σ ε ρ α} {st st' : Store σ ε}

/-- Starting an honest parser gives a sound sequence. -/
theorem Parser.sound_of_start {p : Parser σ ε ρ α} {c : Cursor σ} {n : Nat} (hst : st.Intact)
    (hG : G.Honest st.held) (hp : p.Honest st.held) (hc : st.Holds c)
    (h : p.start G n c st = .done s st') : s.Sound G st' ∧ st.Later st' := by
  have hpar := p.start_parallel n c ⟨hst, hst, fun _ => rfl⟩ hG hp (mem_held.mpr hc)
  rw [h] at hpar
  cases hpar with
  | done left _ hheld =>
      have hlater : st.Later st' := ⟨left.intact, left.grows⟩
      exact ⟨⟨left.intact, hG.mono (hlater.held_subset hst), hheld⟩, hlater⟩

namespace Outcomes

theorem Sound.later (h : s.Sound G st) (hlater : st.Later st') : s.Sound G st' :=
  ⟨hlater.intact, h.grammar.mono (hlater.held_subset h.intact),
    h.held.mono (hlater.held_subset h.intact)⟩

/-- What a pull of a sound sequence leaves is sound, and the outcome it finds is known. -/
theorem Sound.pull (h : s.Sound G st) {n : Nat} {answer : Option (Outcome σ α)}
    (hpull : s.pull G n st = .done ⟨answer, s'⟩ st') :
    s'.Sound G st' ∧ st.Later st' ∧ ∀ o ∈ answer, o.Known st'.held := by
  have hpar := pull_parallel n s ⟨h.intact, h.intact, fun _ => rfl⟩ h.grammar h.held
  rw [hpull] at hpar
  cases hpar with
  | done left _ hpulled =>
      have hlater : st.Later st' := ⟨left.intact, left.grows⟩
      exact ⟨⟨left.intact, h.grammar.mono (hlater.held_subset h.intact), hpulled.1⟩, hlater,
        hpulled.2⟩

theorem Sound.pulled (h : s.Sound G st) {answer : Option (Outcome σ α)}
    (hpulled : s.pulled G st = .done ⟨answer, s'⟩ st') :
    s'.Sound G st' ∧ st.Later st' ∧ ∀ o ∈ answer, o.Known st'.held := by
  obtain ⟨n, hn⟩ := (pulled_eq_done_iff G st).mp hpulled
  exact h.pull hn

/-- **A SOUND SEQUENCE STAYS SOUND** all its life, in a store that only grows. -/
theorem Sound.becomes (h : s.Sound G st) (hlife : s.Becomes G st s' st') :
    s'.Sound G st' ∧ st.Later st' := by
  induction hlife with
  | unchanged => exact ⟨h, .refl h.intact⟩
  | wait _ later ih => exact ⟨ih.1.later later, ih.2.trans later⟩
  | pull _ pulled ih =>
      obtain ⟨hsound, hlater, -⟩ := ih.1.pulled pulled
      exact ⟨hsound, ih.2.trans hlater⟩
  | complete _ ih => exact ⟨⟨ih.1.intact, ih.1.grammar, ih.1.held⟩, ih.2⟩

end Outcomes

/-- A parser that callers start at a cursor they have gives a sound sequence. -/
theorem World.Sound.started {w : World σ ε} (hw : w.Sound) (hG : G.Honest w.known)
    {p : Parser σ ε ρ α} (hp : p.Honest w.known) {c : Cursor σ} (hc : c ∈ w.cursors)
    (h : p.started G c w.store = .done s st) : s.Sound G st ∧ w.store.Later st := by
  obtain ⟨n, hn⟩ := (Parser.started_eq_done_iff G c w.store).mp h
  exact Parser.sound_of_start hw.intact (hG.mono hw.known_subset) (hp.mono hw.known_subset)
    (hw.cursors c hc) hn

end

end Backtrack
