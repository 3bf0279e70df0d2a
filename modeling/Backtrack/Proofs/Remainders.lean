import Backtrack.Proofs.Calls
import Backtrack.Proofs.Demand

/-!
# Remainders — a sequence that is set aside

A repetition sets the sequences of its parser aside and comes back to them later, when others have
read on in the same sources. What is left of such a sequence is described here by what the parser
would give if it were started all over: `Parser.Leaves` says that, started in the present store and
pulled until it has given certain outcomes, it would leave exactly this sequence.

Since what has been read before makes no difference, this stays true when others read on
(`Parser.Leaves.later`), and a pull of the remainder adds an outcome to the list
(`Parser.Leaves.pull`). So whatever a remainder gives is an outcome of the parser at the cursor
where it was started, in the plainest sense (`Parser.Delivers`), and in any store.
-/

namespace Backtrack

open Store

variable {σ ε : Type} {ρ : Type → Type} {α β : Type}

namespace Store

/-- The store has been read on and remarked on, and knows the same sources as before. -/
structure ReadOn (st st' : Store σ ε) : Prop where
  later   : st.Later st'
  sources : ∀ i, st'.source? i = st.source? i

variable {st st' st'' : Store σ ε}

theorem ReadOn.refl (h : st.Intact) : st.ReadOn st :=
  ⟨.refl h, fun _ => rfl⟩

theorem ReadOn.trans (h : st.ReadOn st') (h' : st'.ReadOn st'') : st.ReadOn st'' :=
  ⟨h.later.trans h'.later, fun i => (h'.sources i).trans (h.sources i)⟩

theorem Spends.readOn {demand : Nat → Nat} {notes : List ε} (h : st.Spends demand notes st') :
    st.ReadOn st' :=
  ⟨⟨h.intact, h.grows⟩, h.sources⟩

theorem ReadOn.alike (h : st.ReadOn st') (hst : st.Intact) : Alike st st' :=
  ⟨hst, h.later.intact, fun i => (h.sources i).symm⟩

/-- What was held before is what both stores hold. -/
theorem ReadOn.shared_eq (h : st.ReadOn st') (hst : st.Intact) : shared st st' = st.held := by
  ext c
  refine ⟨fun hc => mem_held.mpr hc.1, fun hc => ⟨mem_held.mp hc, ?_⟩⟩
  exact mem_held.mp (h.later.held_subset hst hc)

theorem shared_comm (st st' : Store σ ε) : shared st st' = shared st' st :=
  Set.ext fun _ => and_comm

theorem Alike.symm (h : Alike st st') : Alike st' st :=
  ⟨h.right, h.left, fun i => (h.sources i).symm⟩

end Store

section

variable [Carrier σ] {G : Grammar σ ε ρ} {p : Parser σ ε ρ α} {c : Cursor σ}
  {s s' : Outcomes σ ε ρ α} {os : List (Outcome σ α)} {st st' st₁ own : Store σ ε}

/-! ## What runs do to the store -/

theorem Parser.Sound.started (h : p.Sound G c st) (hstart : p.started G c st = .done s st') :
    s.Sound G st' ∧ st.ReadOn st' := by
  obtain ⟨n, hn⟩ := (started_eq_done_iff G c st).mp hstart
  have hpar := p.started_parallel c (ReadOn.alike (.refl h.intact) h.intact) h.grammar h.honest
    (mem_held.mpr h.holds)
  rw [hstart] at hpar
  obtain ⟨_, _, _, -, left, -, -⟩ := hpar.of_done
  exact ⟨(h.start hn).1, left.readOn⟩

theorem Outcomes.Sound.readOn (h : s.Sound G st) {x : Pull σ ε ρ α}
    (hpulled : s.pulled G st = .done x st') : st.ReadOn st' := by
  have hpar := s.pulled_parallel (ReadOn.alike (.refl h.intact) h.intact) h.grammar h.held
  rw [hpulled] at hpar
  obtain ⟨_, _, _, -, left, -, -⟩ := hpar.of_done
  exact left.readOn

theorem Outcomes.Sound.yields (h : s.Sound G st) (hyields : s.Yields G st os s' st') :
    s'.Sound G st' ∧ st.ReadOn st' := by
  induction hyields with
  | nil => exact ⟨h, .refl h.intact⟩
  | cons first _ ih =>
      obtain ⟨hrest, hread⟩ := ih (h.pulled first).1
      exact ⟨hrest, (h.readOn first).trans hread⟩

omit [Carrier σ] in
/-- Answers that come to an end are outcomes, one with each pull, and then the end. -/
theorem Outcomes.yields_of_answers {os : List (Outcome σ α)} {s : Outcomes σ ε ρ α}
    {st st' : Store σ ε}
    (h : s.answers G (os.length + 1) st = .done (os.map some ++ [none]) st') :
    ∃ r st₁, s.Yields G st os r st₁ ∧ r.Ends G st₁ st' := by
  induction os generalizing s st with
  | nil =>
      obtain ⟨⟨answer, rest⟩, st₁, hpulled, hdone⟩ := Run.bind_eq_done_iff.mp h
      cases hdone
      exact ⟨s, st, .nil s st, rest, hpulled⟩
  | cons o os ih =>
      obtain ⟨⟨answer, rest⟩, st₁, hpulled, hdone⟩ := Run.bind_eq_done_iff.mp h
      obtain ⟨answers, st₂, hanswers, hlist⟩ := Run.bind_eq_done_iff.mp hdone
      cases hlist
      obtain ⟨r, st₃, hyields, hends⟩ := ih hanswers
      exact ⟨r, st₃, .cons hpulled hyields, hends⟩

/-! ## The same outcomes elsewhere -/

/-- A sequence gives the same outcomes in another store that knows the same sources. -/
theorem Outcomes.Yields.elsewhere (hyields : s.Yields G st os s' own) {st₁ : Store σ ε}
    (h : Alike st st₁) (hG : G.Honest (shared st st₁)) (hs : s.Held (shared st st₁)) :
    ∃ own₁, s.Yields G st₁ os s' own₁ := by
  induction hyields generalizing st₁ with
  | nil s st => exact ⟨st₁, .nil s st₁⟩
  | @cons s s' _ st st' _ o _ first _ ih =>
      have hpar := s.pulled_parallel h hG hs
      rw [first] at hpar
      obtain ⟨_, _, st₁', first₁, left, right, hheld⟩ := hpar.of_done
      obtain ⟨own₁, rest₁⟩ := ih (h.spends left right) (hG.mono (h.shared_subset left right)) hheld.1
      exact ⟨own₁, .cons first₁ rest₁⟩

/-- So does a parser. -/
theorem Parser.Delivers.elsewhere (hdelivers : p.Delivers G c st os s own) (h : Alike st st₁)
    (hG : G.Honest (shared st st₁)) (hp : p.Honest (shared st st₁)) (hc : c ∈ shared st st₁) :
    ∃ own₁, p.Delivers G c st₁ os s own₁ := by
  obtain ⟨s₀, st₀, hstart, hyields⟩ := hdelivers
  have hpar := p.started_parallel c h hG hp hc
  rw [hstart] at hpar
  obtain ⟨_, _, st₁', hstart₁, left, right, hheld⟩ := hpar.of_done
  obtain ⟨own₁, hyields₁⟩ := hyields.elsewhere (h.spends left right)
    (hG.mono (h.shared_subset left right)) hheld
  exact ⟨own₁, s₀, st₁', hstart₁, hyields₁⟩

/-- Others may read on before a parser is started, or may not have done so yet. -/
theorem Parser.Sound.delivers_iff (h : p.Sound G c st) (hread : st.ReadOn st') :
    (∃ own, p.Delivers G c st' os s own) ↔ ∃ own, p.Delivers G c st os s own := by
  have halike := hread.alike h.intact
  have hshared := hread.shared_eq h.intact
  have hc := mem_held.mpr h.holds
  constructor
  · rintro ⟨own, hown⟩
    rw [shared_comm] at hshared
    exact hown.elsewhere halike.symm (hshared ▸ h.grammar) (hshared ▸ h.honest) (hshared ▸ hc)
  · rintro ⟨own, hown⟩
    exact hown.elsewhere halike (hshared ▸ h.grammar) (hshared ▸ h.honest) (hshared ▸ hc)

theorem Parser.Sound.delivers (h : p.Sound G c st) (hdelivers : p.Delivers G c st os s own) :
    s.Sound G own ∧ st.ReadOn own := by
  obtain ⟨s₀, st₀, hstart, hyields⟩ := hdelivers
  obtain ⟨hs₀, hread⟩ := h.started hstart
  obtain ⟨hs, hread'⟩ := hs₀.yields hyields
  exact ⟨hs, hread.trans hread'⟩

/-! ## Remainders -/

/-- The sequence is sound in the store, and is what the parser leaves that is started there and has
    given these outcomes. -/
structure Parser.Leaves (G : Grammar σ ε ρ) (p : Parser σ ε ρ α) (c : Cursor σ)
    (os : List (Outcome σ α)) (s : Outcomes σ ε ρ α) (st : Store σ ε) : Prop where
  parser   : p.Sound G c st
  sequence : s.Sound G st
  delivers : ∃ own, p.Delivers G c st os s own

namespace Parser.Leaves

/-- A remainder stays a remainder when others read on. -/
theorem later (h : p.Leaves G c os s st) (hread : st.ReadOn st') : p.Leaves G c os s st' :=
  ⟨h.parser.later hread.later, h.sequence.later hread.later,
    (h.parser.delivers_iff hread).mpr h.delivers⟩

theorem start (h : p.Sound G c st) (hstart : p.started G c st = .done s st') :
    p.Leaves G c [] s st' := by
  obtain ⟨hs, hread⟩ := h.started hstart
  refine ⟨h.later hread.later, hs, (h.delivers_iff hread).mpr ?_⟩
  exact ⟨st', s, st', hstart, .nil s st'⟩

variable {o : Outcome σ α}

/-- An outcome of the remainder comes next in the list. -/
theorem gives (h : p.Leaves G c os s st) (hpulled : s.pulled G st = .done ⟨some o, s'⟩ st') :
    ∃ own, p.Delivers G c st (os ++ [o]) s' own := by
  obtain ⟨own, hown⟩ := h.delivers
  have hread := (h.parser.delivers hown).2
  have hshared := hread.shared_eq h.parser.intact
  have hpar := s.pulled_parallel (hread.alike h.parser.intact) (hshared ▸ h.parser.grammar)
    (hshared ▸ h.sequence.held)
  rw [hpulled] at hpar
  obtain ⟨_, _, own', hpulled', -, -, -⟩ := hpar.of_done
  obtain ⟨s₀, st₀, hstart, hyields⟩ := hown
  exact ⟨own', s₀, st₀, hstart, hyields.append (.cons hpulled' (.nil s' own'))⟩

/-- **A PULL OF A REMAINDER** leaves a remainder. -/
theorem pull (h : p.Leaves G c os s st) (hpulled : s.pulled G st = .done ⟨some o, s'⟩ st') :
    p.Leaves G c (os ++ [o]) s' st' := by
  have hread := h.sequence.readOn hpulled
  exact ⟨h.parser.later hread.later, (h.sequence.pulled hpulled).1,
    (h.parser.delivers_iff hread).mpr (h.gives hpulled)⟩

end Parser.Leaves

end

end Backtrack
