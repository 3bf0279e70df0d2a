import Backtrack.Proofs.Draining
import Backtrack.Proofs.Ending
import Backtrack.Proofs.MonadLaws
import Backtrack.Proofs.Stack

/-!
# Exhaustion — a repetition comes to its end

A parser of the caller's own making may succeed without consuming anything, at every place and as
often as it likes. A repetition of it comes to its end all the same, if only each run of the parser
does and none goes back: an occurrence that has not moved ends its row, and behind one that has
moved there is less of the source to come.

One call of a repetition may put many frames on the stack and take many off, so what goes down with
each turn takes the whole stack into account. Here it is read from the bottom: a stack that comes to
its end still does with one more frame on top (`Outcomes.Exhausts.push`), by induction on the places
behind the frame, and among frames at one place on the outcomes that are left there.
-/

namespace Backtrack

open Store

variable {σ ε : Type} {ρ : Type → Type} {α β : Type} [Carrier σ] {G : Grammar σ ε ρ}

/-- The sequence is sound, and gives these outcomes, one with each pull, and then nothing. -/
structure Outcomes.Exhausts (G : Grammar σ ε ρ) (s : Outcomes σ ε ρ α) (os : List (Outcome σ α))
    (st : Store σ ε) : Prop where
  sound : s.Sound G st
  ends  : ∃ r st₁ st₂, s.Yields G st os r st₁ ∧ r.Ends G st₁ st₂

/-- From every cursor on source `i`, whoever has read on since `origin`, the sequence of the parser
    is finite and each of its pulls returns. Every outcome lies on the same source, and not before
    the place where the parser was started. -/
def Parser.Finishes (G : Grammar σ ε ρ) (origin : Store σ ε) (i : Nat) (p : Parser σ ε ρ α) :
    Prop :=
  ∀ st d, origin.ReadOn st → st.Holds d → d.source = i →
    ∃ os s st₁ st₂, p.Delivers G d st os s st₁ ∧ s.Ends G st₁ st₂ ∧
      ∀ o ∈ os, o.cursor.source = i ∧ d.position ≤ o.cursor.position

/-! ## Sequences that come to an end -/

namespace Outcomes

variable {s s' t : Outcomes σ ε ρ α} {o : Outcome σ α} {os : List (Outcome σ α)}
  {st st' st₁ own own' : Store σ ε}

/-- A sequence that comes to its end does so in every store that knows the same sources. -/
theorem Yields.ends_elsewhere (hyields : s.Yields G st os s' own) (hends : s'.Ends G own own')
    (h : Alike st st₁) (hG : G.Honest (shared st st₁)) (hs : s.Held (shared st st₁)) :
    ∃ r own₁ own₁', s.Yields G st₁ os r own₁ ∧ r.Ends G own₁ own₁' := by
  induction hyields generalizing st₁ with
  | nil s st =>
      obtain ⟨rest, hrest⟩ := hends
      have hpar := s.pulled_parallel h hG hs
      rw [hrest] at hpar
      obtain ⟨_, _, own₁', hrest₁, -, -, -⟩ := hpar.of_done
      exact ⟨s, st₁, own₁', .nil s st₁, rest, hrest₁⟩
  | @cons s _ _ _ _ _ _ _ first _ ih =>
      have hpar := s.pulled_parallel h hG hs
      rw [first] at hpar
      obtain ⟨_, _, _, first₁, left, right, hheld⟩ := hpar.of_done
      obtain ⟨r, own₁, own₁', hyields₁, hends₁⟩ :=
        ih hends (h.spends left right) (hG.mono (h.shared_subset left right)) hheld.1
      exact ⟨r, own₁, own₁', .cons first₁ hyields₁, hends₁⟩

namespace Exhausts

/-- Others may read on. -/
theorem later (h : s.Exhausts G os st) (hread : st.ReadOn st') : s.Exhausts G os st' := by
  obtain ⟨r, st₁, st₂, hyields, hends⟩ := h.ends
  have hintact := h.sound.intact
  have hshared := hread.shared_eq hintact
  exact ⟨h.sound.later hread.later, hyields.ends_elsewhere hends (hread.alike hintact)
    (hshared ▸ h.sound.grammar) (hshared ▸ h.sound.held)⟩

theorem pulled_nil (h : s.Exhausts G [] st) :
    ∃ rest st', s.pulled G st = .done ⟨none, rest⟩ st' ∧ st.ReadOn st' := by
  obtain ⟨r, st₁, st₂, hyields, rest, hrest⟩ := h.ends
  cases hyields
  exact ⟨rest, st₂, hrest, h.sound.readOn hrest⟩

theorem pulled_cons (h : s.Exhausts G (o :: os) st) :
    ∃ s' st', s.pulled G st = .done ⟨some o, s'⟩ st' ∧ st.ReadOn st' ∧ o.Known st'.held ∧
      s'.Exhausts G os st' := by
  obtain ⟨r, st₁, st₂, hyields, hends⟩ := h.ends
  cases hyields with
  | @cons _ s' _ _ st' _ _ _ first rest =>
      obtain ⟨hs', -, ho⟩ := h.sound.pulled first
      exact ⟨s', st', first, h.sound.readOn first, ho o rfl, hs', r, st₁, st₂, rest, hends⟩

theorem cons (hs : s.Sound G st) (hpulled : s.pulled G st = .done ⟨some o, s'⟩ st')
    (h : s'.Exhausts G os st') : s.Exhausts G (o :: os) st := by
  obtain ⟨r, st₁, st₂, hyields, hends⟩ := h.ends
  exact ⟨hs, r, st₁, st₂, .cons hpulled hyields, hends⟩

/-- A sequence that answers like another one comes to its end as that one does. -/
theorem of_pulled_eq (hs : s.Sound G st) (hpulled : s.pulled G st = t.pulled G st')
    (h : t.Exhausts G os st') : s.Exhausts G os st := by
  obtain ⟨r, st₁, st₂, hyields, rest, hrest⟩ := h.ends
  cases hyields with
  | nil => exact ⟨hs, s, st, st₂, .nil s st, rest, hpulled.trans hrest⟩
  | cons first hyields =>
      exact ⟨hs, r, st₁, st₂, .cons (hpulled.trans first) hyields, rest, hrest⟩

end Exhausts

end Outcomes

/-- A parser that finishes may be started wherever an outcome lies. -/
theorem Parser.Finishes.started {origin st : Store σ ε} {i : Nat} {p : Parser σ ε ρ α}
    {d : Cursor σ} (hp : p.Finishes G origin i) (hread : origin.ReadOn st) (h : p.Sound G d st)
    (hd : d.source = i) : ∃ s st' os, p.started G d st = .done s st' ∧ st.ReadOn st' ∧
      s.Exhausts G os st' ∧ ∀ o ∈ os, o.cursor.source = i ∧ d.position ≤ o.cursor.position := by
  obtain ⟨os, r, st₁, st₂, ⟨s, st', hstart, hyields⟩, hends, hplaces⟩ := hp st d hread h.holds hd
  obtain ⟨hs, hread'⟩ := h.started hstart
  exact ⟨s, st', os, hstart, hread', ⟨hs, r, st₁, st₂, hyields, hends⟩, hplaces⟩

omit [Carrier σ] in
/-- On a source that ends, no cursor lies behind the first empty answer. -/
theorem Store.Intact.position_le {st : Store σ ε} (h : st.Intact) {d : Cursor σ} (hd : st.Holds d)
    {source : Source σ} (hsource : st.source? d.source = some source) {N : Nat}
    (hN : source.answer N = none) : d.position ≤ N := by
  obtain ⟨source', hsource', hnode, hcursor⟩ := h.holds_iff.mp hd
  obtain rfl : source = source' := Option.some.inj (hsource.symm.trans hsource')
  have hposition : d.position = d.node := congrArg Cursor.position hcursor
  refine Nat.le_of_not_lt fun hlt => ?_
  have hsymbol := h.isSome_answer hsource (j := N) (by omega)
  rw [hN] at hsymbol
  exact nomatch hsymbol

/-! ## What the frame on top answers -/

namespace Outcomes

omit [Carrier σ]

variable {least : Nat} {f : List α → β} {p : Parser σ ε ρ α} {s s' t : Outcomes σ ε ρ α}
  {d : Cursor σ} {value : Option α} {below : Frames σ ε ρ α} {o : Outcome σ α}
  {st st₁ st₂ : Store σ ε}

theorem pulled_push_of_long (h : s.pulled G st = .done ⟨none, s'⟩ st₁)
    (hlong : least ≤ ((Frames.push s' d value below).values []).length) :
    (repeating least f p none (.push s d value below)).pulled G st =
      .done ⟨some ⟨f ((Frames.push s' d value below).values []), d⟩,
        .repeating least f p none below⟩ st₁ := by
  rw [pulled_repeating_push, h]
  exact if_pos hlong

theorem pulled_push_of_short (h : s.pulled G st = .done ⟨none, s'⟩ st₁)
    (hshort : ¬ least ≤ ((Frames.push s' d value below).values []).length) :
    (repeating least f p none (.push s d value below)).pulled G st =
      (repeating least f p none below).pulled G st₁ := by
  rw [pulled_repeating_push, h]
  exact if_neg hshort

theorem pulled_push_of_stay (h : s.pulled G st = .done ⟨some o, s'⟩ st₁)
    (hstay : o.cursor.position = d.position) :
    (repeating least f p none (.push s d value below)).pulled G st =
      .done ⟨some ⟨f ((Frames.push s' d value below).values [o.value]), o.cursor⟩,
        .repeating least f p none (.push s' d value below)⟩ st₁ := by
  rw [pulled_repeating_push, h]
  exact if_pos hstay

theorem pulled_push_of_moved (h : s.pulled G st = .done ⟨some o, s'⟩ st₁)
    (hmoved : o.cursor.position ≠ d.position) (ht : p.started G o.cursor st₁ = .done t st₂) :
    (repeating least f p none (.push s d value below)).pulled G st =
      (repeating least f p none
        (.push t o.cursor (some o.value) (.push s' d value below))).pulled G st₂ := by
  rw [pulled_repeating_push, h]
  refine (if_neg hmoved).trans ?_
  rw [ht]
  rfl

end Outcomes

/-! ## The stack, from the bottom -/

section

variable {origin st : Store σ ε} {i N : Nat} {source : Source σ} {least : Nat} {f : List α → β}
  {p : Parser σ ε ρ α} {rows : List (Outcome σ β)} {below : Frames σ ε ρ α}

/-- A frame that is sound by itself may be put on a sound stack. -/
theorem Outcomes.Sound.push {s : Outcomes σ ε ρ α} {d : Cursor σ} {value : Option α}
    (h : (repeating least f p none below).Sound G st) (hs : s.Sound G st) (hd : st.Holds d)
    (hvalue : ∀ a ∈ value, Knows st.held a) :
    (repeating least f p none (.push s d value below)).Sound G st :=
  h.other ⟨h.held.1, ⟨hs.held, mem_held.mpr hd, hvalue, h.held.2.1⟩, forall_mem_none,
    h.held.2.2.2⟩

/-- **ONE MORE FRAME.** A stack that comes to its end still does so with a frame on top, at a place
    of a source that ends. -/
theorem Outcomes.Exhausts.push (hp : p.Finishes G origin i)
    (hsource : origin.source? i = some source) (hN : source.answer N = none)
    {s : Outcomes σ ε ρ α} {left : List (Outcome σ α)} {d : Cursor σ} {value : Option α}
    (hread : origin.ReadOn st)
    (hbelow : (repeating least f p none below).Exhausts G rows st) (hs : s.Exhausts G left st)
    (hd : st.Holds d) (hvalue : ∀ a ∈ value, Knows st.held a)
    (hplaces : ∀ o ∈ left, o.cursor.source = i ∧ d.position ≤ o.cursor.position) :
    ∃ rows', (repeating least f p none (.push s d value below)).Exhausts G rows' st := by
  -- by induction on the number of places behind `d`, and then on the outcomes left at `d`: a frame
  -- that is put on top lies further on, and meanwhile there is an outcome less in this one
  induction hn : N - d.position using Nat.strongRecOn
    generalizing s left d value below rows st with
  | _ n ihn =>
      induction left generalizing s st with
      | nil =>
          have hsound := hbelow.sound.push hs.sound hd hvalue
          obtain ⟨rest, st₁, hpulled, hread₁⟩ := hs.pulled_nil
          have hbelow₁ := hbelow.later hread₁
          by_cases hlong : least ≤ ((Frames.push rest d value below).values []).length
          · exact ⟨_, .cons hsound (pulled_push_of_long hpulled hlong) hbelow₁⟩
          · exact ⟨rows, .of_pulled_eq hsound (pulled_push_of_short hpulled hlong) hbelow₁⟩
      | cons o left ih =>
          have hsound := hbelow.sound.push hs.sound hd hvalue
          obtain ⟨s', st₁, hpulled, hread₁, ⟨ho, hknown⟩, hs'⟩ := hs.pulled_cons
          obtain ⟨⟨hi, hle⟩, hplaces'⟩ := List.forall_mem_cons.mp hplaces
          have hbelow₁ := hbelow.later hread₁
          have hheld := hread₁.later.held_subset hbelow.sound.intact
          have hd₁ := mem_held.mp (hheld (mem_held.mpr hd))
          obtain ⟨rows₁, hrows₁⟩ := ih (hread.trans hread₁) hbelow₁ hs' hd₁
            (fun a ha => (hvalue a ha).mono hheld) hplaces'
          by_cases hstay : o.cursor.position = d.position
          · exact ⟨_, .cons hsound (pulled_push_of_stay hpulled hstay) hrows₁⟩
          · -- the occurrence has moved, and its rows come before the others
            have hread' := hread.trans hread₁
            have hparser := hrows₁.sound.parser hrows₁.sound.held.1 ho
            have hend := hrows₁.sound.intact.position_le (mem_held.mp ho)
              (by rw [hi, hread'.sources, hsource]) hN
            obtain ⟨t, st₂, os, hstart, hread₂, ht, htplaces⟩ := hp.started hread' hparser hi
            have hheld₂ := hread₂.later.held_subset hrows₁.sound.intact
            obtain ⟨rows₂, hrows₂⟩ := ihn (N - o.cursor.position) (by omega)
              (hread'.trans hread₂) (hrows₁.later hread₂) ht (mem_held.mp (hheld₂ ho))
              (fun a ha => Option.some.inj ha ▸ hknown.mono hheld₂) htplaces rfl
            exact ⟨rows₂, .of_pulled_eq hsound (pulled_push_of_moved hpulled hstay hstart) hrows₂⟩

/-- **FROM THE START ON.** -/
theorem Parser.Finishes.repetition (hp : p.Finishes G origin i)
    (hsource : origin.source? i = some source) (hN : source.answer N = none) {c : Cursor σ}
    (hread : origin.ReadOn st) (h : (repetition least f p).Sound G c st) (hc : c.source = i) :
    ∃ os, (Outcomes.repeating least f p (some c) .bottom).Exhausts G os st := by
  have hparser : p.Sound G c st := ⟨h.intact, h.grammar, h.honest.1, h.holds⟩
  have hheld := mem_held.mpr h.holds
  have hsound : (Outcomes.repeating least f p (some c) .bottom).Sound G st :=
    ⟨h.intact, h.grammar, h.honest.1, trivial, fun d hd => Option.some.inj hd ▸ hheld, h.honest.2⟩
  obtain ⟨s, st₁, left, hstart, hread₁, hs, hplaces⟩ := hp.started hread hparser hc
  -- the empty stack has nothing to give
  have hbottom : (Outcomes.repeating least f p none .bottom).Exhausts G [] st₁ := by
    have hsound₁ := hsound.later hread₁.later
    exact ⟨hsound₁.other ⟨hsound₁.held.1, trivial, forall_mem_none, hsound₁.held.2.2.2⟩,
      _, st₁, st₁, .nil _ _, _, Outcomes.pulled_repeating_bottom ..⟩
  obtain ⟨os, hos⟩ := hbottom.push hp hsource hN (hread.trans hread₁) hs
    (h.later hread₁.later).holds forall_mem_none hplaces
  refine ⟨os, .of_pulled_eq hsound ?_ hos⟩
  rw [Outcomes.pulled_repeating_root, hstart]
  rfl

end

/-! ## Pulling on behind the end -/

omit [Carrier σ] in
theorem Outcomes.Yields.answers {s r : Outcomes σ ε ρ α} {os : List (Outcome σ α)}
    {st st₁ : Store σ ε} (h : s.Yields G st os r st₁) (k : Nat) :
    s.answers G (os.length + k) st = (r.answers G k st₁).bind fun more st' =>
      .done (os.map some ++ more) st' := by
  induction h with
  | nil s st =>
      rw [List.length_nil, Nat.zero_add]
      cases s.answers G k st <;> rfl
  | @cons s s' _ st st' _ o os first _ ih =>
      rw [List.length_cons, Nat.add_right_comm, Outcomes.answers, first]
      show (s'.answers G (os.length + k) st').bind _ = _
      rw [ih, Run.bind_assoc]
      rfl

/-- A repetition that has come to its end stays there. -/
theorem Outcomes.Exhausts.answers_repeating {least : Nat} {f : List α → β} {p : Parser σ ε ρ α}
    {c : Cursor σ} {st : Store σ ε} {os : List (Outcome σ β)} (hp : p.Sound G c st)
    (h : (repeating least f p (some c) .bottom).Exhausts G os st) :
    ∃ st', ∀ k, (repeating least f p (some c) .bottom).answers G (os.length + (k + 1)) st =
      .done (os.map some ++ List.replicate (k + 1) none) st' := by
  obtain ⟨r, st₁, st₂, hyields, rest, hrest⟩ := h.ends
  obtain ⟨-, hwalking, -⟩ := (Walking.begun hp).yields hyields
  obtain ⟨-, hwalks⟩ := hwalking.pulled hrest
  refine ⟨st₂, fun k => ?_⟩
  cases hwalks with
  | ended =>
      rw [hyields.answers, Outcomes.answers, hrest]
      show (((repeating least f p none .bottom).answers G k st₂).bind _).bind _ = _
      rw [(Spent.repeating least f p).answers G st₂ k]
      rfl

/-- **A REPETITION COMES TO ITS END.** Callers who have got to a world by whatever steps repeat a
    parser, which may be of their own making, at one of their cursors, on a source that ends. From
    every cursor on that source the sequence of the parser is finite and each of its pulls returns,
    and its outcomes lie on the same source and do not go back; it may well succeed at each place
    without consuming anything. Then the repetition, of any number of occurrences or of at least so
    many, has finitely many outcomes and no more: whenever it is started, each pull returns, the
    first ones with these outcomes and all further ones with nothing. -/
theorem Parser.repetition_ends {w : World σ ε} (hw : w.Reachable) (hG : G.Honest w.known)
    {least : Nat} {f : List α → β} {p : Parser σ ε ρ α}
    (hp : (repetition least f p).Honest w.known) {c : Cursor σ} (hc : c ∈ w.cursors)
    {source : Source σ} {N : Nat} (hsource : w.store.source? c.source = some source)
    (hN : source.answer N = none) (hfinishes : p.Finishes G w.store c.source) :
    ∃ os : List (Outcome σ β), ∀ st, w.store.ReadOn st → ∃ st', ∀ k,
      (repetition least f p).answers G c (os.length + (k + 1)) st =
        .done (os.map some ++ List.replicate (k + 1) none) st' := by
  have hsound := hw.sound.parser hG hp hc
  obtain ⟨os, hos⟩ := hfinishes.repetition hsource hN (.refl hsound.intact) hsound rfl
  refine ⟨os, fun st hread => ?_⟩
  have hsound' := hsound.later hread.later
  obtain ⟨st', hst'⟩ := (hos.later hread).answers_repeating
    ⟨hsound'.intact, hsound'.grammar, hsound'.honest.1, hsound'.holds⟩
  refine ⟨st', fun k => ?_⟩
  rw [answers, started_repetition]
  exact hst' k

/-- A parser that succeeds once at every place, and consumes nothing. -/
theorem Parser.single_repetition_ends :
    let c : Cursor Nat := ⟨0, 0, 0, some 7⟩
    let p : Parser Nat Unit (fun _ => Empty) Nat := .single 5
    p.Finishes .empty World.pair.store 0 ∧
      ∃ os : List (Outcome Nat (List Nat)), ∀ st, World.pair.store.ReadOn st → ∃ st', ∀ k,
        p.many.answers .empty c (os.length + (k + 1)) st =
          .done (os.map some ++ List.replicate (k + 1) none) st' := by
  intro c p
  let _ : Carrier Nat := .none
  have hfinishes : p.Finishes .empty World.pair.store 0 := by
    intro st d _ _ hd
    let s (n : Nat) : Outcomes Nat Unit (fun _ => Empty) Nat :=
      .scripted (fun n => .arrive (if n = 0 then some ⟨5, d⟩ else none)) n
    have hstart : p.started .empty d st = .done (s 0) st :=
      (started_eq_done_iff .empty d st).mpr ⟨1, rfl⟩
    have hfirst : (s 0).pulled .empty st = .done ⟨some ⟨5, d⟩, s 1⟩ st :=
      (Outcomes.pulled_eq_done_iff .empty st).mpr ⟨1, rfl⟩
    have hsecond : (s 1).pulled .empty st = .done ⟨none, s 2⟩ st :=
      (Outcomes.pulled_eq_done_iff .empty st).mpr ⟨1, rfl⟩
    exact ⟨[⟨5, d⟩], s 1, st, st, ⟨s 0, st, hstart, .cons hfirst (.nil _ _)⟩, ⟨s 2, hsecond⟩,
      List.forall_mem_singleton.mpr ⟨hd, Nat.le_refl _⟩⟩
  have hhonest : p.many.Honest World.pair.known := ⟨honest_single 5 _, fun _ _ _ _ => nofun⟩
  exact ⟨hfinishes, repetition_ends World.reachable_pair (fun _ r => r.elim) hhonest
    (List.mem_singleton.mpr rfl) rfl (Source.answer_ofList [7, 8] 2) hfinishes⟩

end Backtrack
