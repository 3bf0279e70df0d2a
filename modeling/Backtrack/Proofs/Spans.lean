import Backtrack.Proofs.Forward

/-!
# Spans — how far an outcome lies from the start

Since no parser goes back, a span never ends before it starts, so that measuring it is no fault. Its
length is the number of moves from the start to the outcome, and it is empty exactly when the
outcome lies where the parser was started. A repetition compares positions to see whether an
occurrence has consumed anything; for the same reason it might as well compare places.
-/

namespace Backtrack

open Store

variable {σ ε : Type} {ρ : Type → Type} {α : Type}

/-- Every outcome that the sequence will ever give satisfies `P`, because the function says so that
    is applied to each. -/
def Outcomes.Ruled : {α : Type} → Outcomes σ ε ρ α → (Outcome σ α → Prop) → Prop
  | _, .mapped f _,   P => ∀ o o', (f o).result = .ok o' → P o'
  | _, .filtered _ s, P => s.Ruled P
  | _, _,             _ => False

namespace Outcomes.Ruled

variable {G : Grammar σ ε ρ} {s s' : Outcomes σ ε ρ α} {st st' : Store σ ε}
  {P : Outcome σ α → Prop}

theorem pull (n : Nat) : ∀ {α : Type} {s s' : Outcomes σ ε ρ α} {P : Outcome σ α → Prop}
    {answer : Option (Outcome σ α)} {st st' : Store σ ε}, s.Ruled P →
      s.pull G n st = .done ⟨answer, s'⟩ st' → s'.Ruled P ∧ ∀ o ∈ answer, P o := by
  induction n with
  | zero =>
      intro α s s' P answer st st' _ hpull
      exact nomatch hpull
  | succ n ih =>
      intro α s s' P answer st st' h hpull
      cases s with
      | mapped f s =>
          obtain ⟨⟨_ | o, s₁⟩, st₁, -, hdone⟩ := Run.bind_eq_done_iff.mp hpull
          · cases hdone
            exact ⟨h, forall_mem_none⟩
          · obtain ⟨o', st₂, hcall, hdone⟩ := Run.bind_eq_done_iff.mp hdone
            cases hdone
            refine ⟨h, fun o'' ho'' => ?_⟩
            obtain rfl := Option.some.inj ho''
            exact h o o' (Call.run_eq_done_iff.mp hcall).1
      | filtered test s =>
          obtain ⟨⟨answer₁, s₁⟩, st₁, hs, hdone⟩ := Run.bind_eq_done_iff.mp hpull
          obtain ⟨hs₁, ho⟩ := ih (s := s) h hs
          cases answer₁ with
          | none =>
              cases hdone
              exact ⟨hs₁, forall_mem_none⟩
          | some o =>
              obtain ⟨ok, st₂, -, hdone⟩ := Run.bind_eq_done_iff.mp hdone
              cases ok with
              | true => cases hdone; exact ⟨hs₁, ho⟩
              | false => exact ih (s := .filtered test s₁) hs₁ hdone
      | _ => exact h.elim

theorem becomes (h : s.Ruled P) (hlife : s.Becomes G st s' st') : s'.Ruled P := by
  induction hlife with
  | unchanged => exact h
  | wait _ _ ih => exact ih
  | pull _ pulled ih =>
      obtain ⟨n, hn⟩ := (pulled_eq_done_iff G _).mp pulled
      exact (Ruled.pull n ih hn).1
  | complete _ ih => exact ih

end Outcomes.Ruled

/-- The span joined to each outcome goes from where the parser was started to the outcome. -/
theorem Parser.ruled_spanning {β : Type} {G : Grammar σ ε ρ} {f : α → Span → β}
    {p : Parser σ ε ρ α} {c : Cursor σ} {st st' : Store σ ε} {s : Outcomes σ ε ρ β}
    (h : (p.spanning f).started G c st = .done s st') :
    s.Ruled fun o => ∃ a, o.value = f a ⟨c.position, o.cursor.position⟩ := by
  rw [started_spanning] at h
  obtain ⟨t, st₁, -, hdone⟩ := Run.bind_eq_done_iff.mp h
  cases hdone
  intro o o' ho'
  obtain rfl := Except.ok.inj ho'
  exact ⟨o.value, rfl⟩

/-- At some time in its life the parser, started at a cursor, gives the outcome and leaves this
    store. -/
def Parser.Finds (G : Grammar σ ε ρ) (p : Parser σ ε ρ α) (c : Cursor σ) (st : Store σ ε)
    (o : Outcome σ α) (st' : Store σ ε) : Prop :=
  ∃ s s' rest st₁ st₂, p.started G c st = .done s st₁ ∧ s.Becomes G st₁ s' st₂ ∧
    s'.pulled G st₂ = .done ⟨some o, rest⟩ st'

theorem Store.Intact.position_eq_iff {st : Store σ ε} (h : st.Intact) {c d : Cursor σ}
    (hc : st.Holds c) (hd : st.Holds d) (hcd : c.Reaches d) :
    d.position = c.position ↔ d.same c = true := by
  rw [h.same_iff_of_holds hd hc]
  exact (and_iff_right hcd.1.symm).symm

section

variable {G : Grammar σ ε ρ} {p : Parser σ ε ρ α} {c : Cursor σ} {st st' : Store σ ε}

theorem Parser.Finds.eq_span {β : Type} {f : α → Span → β} {o : Outcome σ β}
    (hfinds : (p.spanning f).Finds G c st o st') :
    ∃ a, o.value = f a ⟨c.position, o.cursor.position⟩ := by
  obtain ⟨s, s', rest, st₁, st₂, hstart, hlife, hpulled⟩ := hfinds
  obtain ⟨n, hn⟩ := (Outcomes.pulled_eq_done_iff G st₂).mp hpulled
  exact (Outcomes.Ruled.pull n ((ruled_spanning hstart).becomes hlife) hn).2 o rfl

variable [Carrier σ]

theorem Job.Forward.finds {o : Outcome σ α} (h : (Job.start p c st).Forward G)
    (hfinds : p.Finds G c st o st') :
    st'.Intact ∧ st'.Holds c ∧ st'.Holds o.cursor ∧ c.Reaches o.cursor := by
  obtain ⟨s, s', rest, st₁, st₂, hstart, hlife, hpulled⟩ := hfinds
  obtain ⟨n, hn⟩ := (Parser.started_eq_done_iff G c st).mp hstart
  obtain ⟨hs, hlater⟩ := delivers n _ h _ _ hn
  have hlater' := (Outcomes.Sound.becomes hs.sound hlife).2
  obtain ⟨hrest, hlater'', ho⟩ := (hs.becomes hlife).pulled hpulled
  have hc := (Parser.Sound.later h.sound (hlater.trans (hlater'.trans hlater''))).holds
  exact ⟨hrest.sound.intact, hc, mem_held.mp (ho o rfl).2.1, (ho o rfl).1⟩

/-- **OUTCOMES LIE AHEAD.** Callers who have got to a world by whatever steps start a parser at one
    of their cursors. Wherever in the course of its life a parser is started, be it the parser
    itself or one deep inside its grammar, every outcome that it ever gives is got to from the place
    of its start by some number of moves along the chain. Where a span is joined to the outcome, it
    goes from the one place to the other, measuring it is no fault and gives the number of moves,
    and it is empty exactly when the two are one place; `spanned` is the case of pairs. And at every
    turn of a repetition, the test whether an occurrence has consumed anything says whether the two
    places differ. -/
theorem Parser.outcomes_lie_ahead {w : World σ ε} (hw : w.Reachable) (hG : G.Honest w.known)
    (hGonward : G.Onward w.known) (hp : p.Honest w.known) (hponward : p.Onward w.known)
    (hc : c ∈ w.cursors) :
    (∀ {β : Type} (q : Parser σ ε ρ β) d st o st', p.Works G c w.store (.start q d st) →
      q.Finds G d st o st' → ∃ k, st'.advanceBy d 0 k = (o.cursor, k, st')) ∧
    (∀ {β γ : Type} (f : β → Span → γ) (q : Parser σ ε ρ β) d st o st',
      p.Works G c w.store (.start (q.spanning f) d st) → (q.spanning f).Finds G d st o st' →
      ∃ k a span, st'.advanceBy d 0 k = (o.cursor, k, st') ∧ o.value = f a span ∧
        span = ⟨d.position, o.cursor.position⟩ ∧ span.start ≤ span.stop ∧ span.length = .ok k ∧
        (span.isEmpty = true ↔ o.cursor.same d = true)) ∧
    ∀ {β γ : Type} (least : Nat) (f : List β → γ) (q : Parser σ ε ρ β) s s' origin d value below
      st o st',
      p.Works G c w.store (.pull origin (.repeating least f q none (.push s d value below)) st) →
      s.pulled G st = .done ⟨some o, s'⟩ st' →
      (o.cursor.position = d.position ↔ o.cursor.same d = true) := by
  have hsound := hw.sound
  have hforward : (Job.start p c w.store).Forward G :=
    ⟨⟨hsound.intact, hG.mono hsound.known_subset, hp.mono hsound.known_subset,
      hsound.cursors c hc⟩, hGonward.mono hsound.known_subset, hponward.mono hsound.known_subset⟩
  refine ⟨fun q d st o st' hwork hfinds => ?_, fun f q d st o st' hwork hfinds => ?_, ?_⟩
  · obtain ⟨hintact, hd, ho, hreaches⟩ := (hwork.forward hforward).finds hfinds
    obtain ⟨k, hk, -⟩ := hintact.exists_advanceBy hd ho hreaches
    exact ⟨k, hk⟩
  · obtain ⟨hintact, hd, ho, hreaches⟩ := (hwork.forward hforward).finds hfinds
    obtain ⟨k, hk, hposition⟩ := hintact.exists_advanceBy hd ho hreaches
    obtain ⟨a, ha⟩ := hfinds.eq_span
    refine ⟨k, a, _, hk, ha, rfl, Nat.le.intro hposition, ?_, ?_⟩
    · exact (Span.length_eq_ok_iff _ k).mpr hposition
    · rw [Span.isEmpty_iff, ← hintact.position_eq_iff hd ho hreaches]
      exact eq_comm
  · intro β γ least f q s s' origin d value below st o st' hwork hpulled
    have hframe := hwork.forward hforward
    have hd := mem_held.mp (Outcomes.Sound.held hframe.sound).2.1.2.1
    have hs : (Job.pull d s st).Forward G :=
      (Job.Calls.frame (n := 0)).forward_of_onward hframe hframe.onward.2.1.1
    obtain ⟨hrest, hlater, ho⟩ := hs.pulled hpulled
    have hd' := mem_held.mp (hlater.held_subset hs.sound.intact (mem_held.mpr hd))
    exact hrest.sound.intact.position_eq_iff hd' (mem_held.mp (ho o rfl).2.1) (ho o rfl).1

/-- In the first pull of a repetition the parser repeated is started, and its span measured. -/
theorem Parser.many_spanned_lies_ahead :
    let c : Cursor Nat := ⟨0, 0, 0, some 7⟩
    let o : Outcome Nat (Nat × Span) := ⟨(7, ⟨0, 1⟩), ⟨0, 1, 1, some 8⟩⟩
    let p : Parser Nat Unit (fun _ => Empty) (Nat × Span) := item.spanned
    let st := World.pair.store
    let st' := (st.advance c).2
    p.many.Works .empty c st (.start p c st) ∧ p.Finds .empty c st o st' ∧
      ∃ k, st'.advanceBy c 0 k = (o.cursor, k, st') ∧ o.value.2.length = .ok k := by
  intro c o p st st'
  let _ : Carrier Nat := .none
  have hplain : p.many.Plain := trivial
  have hwork : p.many.Works .empty c st (.start p c st) :=
    .call (n := 0) (.pull (started_repetition .empty c st 0 id p) .unchanged) .root
  have hfinds : p.Finds .empty c st o st' := by
    let s (t : Outcomes Nat Unit (fun _ => Empty) Nat) :
        Outcomes Nat Unit (fun _ => Empty) (Nat × Span) :=
      .mapped (fun o => .pure (o.withValue (o.value, ⟨c.position, o.cursor.position⟩))) t
    refine ⟨s (.consuming id c), s (.consuming id c), s .empty, st, st, ?_, .unchanged, ?_⟩
    · exact (started_spanning .empty c st Prod.mk item).trans (by rw [item, started_anySymbol]; rfl)
    · rw [Outcomes.pulled_mapped, Outcomes.pulled_consuming]
      rfl
  obtain ⟨-, hspans, -⟩ := outcomes_lie_ahead World.reachable_pair (fun _ r => r.elim)
    (fun _ r => r.elim) (hplain.honest _) trivial (List.mem_singleton.mpr rfl)
  obtain ⟨k, a, span, hk, hvalue, -, -, hlength, -⟩ := hspans Prod.mk item c st o st' hwork hfinds
  exact ⟨hwork, hfinds, k, hk, hvalue ▸ hlength⟩

end

end Backtrack
