import Backtrack.Proofs.Folding
import Backtrack.Proofs.Tiling

/-!
# Left chains — operators that associate to the left

A chain of operands is read as one operand and any number of others, each with the operator in front
of it, and then folded from the left. Since an operator consumes a symbol, and operands do not go
back, no occurrence stands still; so the chain is a loop that carries the value of what has been
read so far (`Backtrack.Proofs.Folding`).

What the value of a chain is, is read off from how its outcome has come about
(`Parser.Operands`): the first operand is found where the chain was started, and each other behind
an operator that is found where the operand before it ends.
-/

namespace Backtrack

open Store

variable {σ ε : Type} {ρ : Type → Type} {α β γ : Type}

/-! ## What one symbol gives -/

section

variable {G : Grammar σ ε ρ} {d : Cursor σ} {st st' : Store σ ε}

/-- The place behind a cursor is one position further. -/
theorem Store.Intact.position_of_advance (hst : st.Intact) (hd : st.Holds d) :
    ∀ e ∈ (st.advance d).1, e.position = d.position + 1 := by
  obtain ⟨source, hsource, hnode, hcursor⟩ := hst.holds_iff.mp hd
  rw [hcursor, (hst.advance_spec hsource hnode).1, Source.next?]
  intro e he
  obtain ⟨x, -, rfl⟩ := Option.map_eq_some_iff.mp he
  rfl

/-- A sequence that consumes one symbol gives it, with the place behind it. -/
theorem Outcomes.yields_consuming {f : σ → α} {found : List (Outcome σ α)} {x : Outcome σ α}
    {s : Outcomes σ ε ρ α} (h : (consuming f d).Yields G st (found ++ [x]) s st') :
    ∃ y, d.current = some y ∧ x.value = f y ∧ (st.advance d).1 = some x.cursor := by
  generalize hos : found ++ [x] = os at h
  cases h with
  | nil => exact absurd hos (by simp)
  | @cons _ s₁ _ _ st₁ _ o os first rest =>
      rw [pulled_consuming] at first
      cases hcurrent : d.current with
      | none =>
          rw [hcurrent] at first
          cases first
      | some y =>
          rw [hcurrent] at first
          obtain ⟨⟨hmap, rfl⟩, -⟩ : ((st.advance d).1.map (fun rest => ⟨f y, rest⟩) = some o ∧
              Outcomes.empty = s₁) ∧ (st.advance d).2 = st₁ := by simpa using first
          obtain ⟨e, he, rfl⟩ := Option.map_eq_some_iff.mp hmap
          obtain rfl := yields_empty rest
          obtain ⟨-, hx⟩ := List.append_inj' (hos.trans (List.nil_append _).symm) rfl
          obtain rfl := List.singleton_inj.mp hx
          exact ⟨y, rfl, rfl, he⟩

end

section

variable [Carrier σ] {G : Grammar σ ε ρ} {p : Parser σ ε ρ α} {q : Parser σ ε ρ β} {c d : Cursor σ}
  {st st₁ st' : Store σ ε}

/-! ## What the parts of a parser have offered -/

/-- An honest parser may be started wherever the store has been read on. -/
theorem Parser.Honest.sound (hp : p.Honest st.held) (hst : st.Intact) (hG : G.Honest st.held)
    (hread : st.ReadOn st₁) (hc : st₁.Holds c) : p.Sound G c st₁ :=
  have hheld := hread.later.held_subset hst
  ⟨hread.later.intact, hG.mono hheld, hp.mono hheld, hc⟩

namespace Parser

/-- The last outcomes come from a continuation that has been started behind an outcome in front. -/
theorem Leaves.last_leg {outer outer' : Outcomes σ ε ρ α} {inner : Outcomes σ ε ρ β} {a : α}
    {legs : List (Outcome σ α × List (Outcome σ β))} (hst : st.Intact) (hq : q.Honest st.held)
    (h : Relay G (fun _ => q) outer st₁ legs outer' a inner st') :
    ∀ {os : List (Outcome σ α)}, p.Leaves G c os outer st₁ → st.ReadOn st₁ →
      ∃ before o found st₂, legs = before ++ [(o, found)] ∧ found ≠ [] ∧ p.Offers G st c o ∧
        st.ReadOn st₂ ∧ st₂.Holds o.cursor ∧ q.Delivers G o.cursor st₂ found inner st' := by
  -- the continuation is sound behind each outcome in front
  have hsound {os : List (Outcome σ α)} {s s' : Outcomes σ ε ρ α} {o : Outcome σ α}
      {st₁ st₂ : Store σ ε} (hleaves : p.Leaves G c os s st₁) (hread : st.ReadOn st₁)
      (hs : s.pulled G st₁ = .done ⟨some o, s'⟩ st₂) :
      st.ReadOn st₂ ∧ q.Sound G o.cursor st₂ := by
    have hread₂ := hread.trans (hleaves.sequence.readOn hs)
    obtain ⟨hs', -, ho⟩ := hleaves.sequence.pulled hs
    exact ⟨hread₂, hs'.parser (hq.mono (hread₂.later.held_subset hst)) (ho o rfl).1⟩
  induction h with
  | @last _ _ _ o found _ st₂ _ pull run hfound =>
      intro os hleaves hread
      obtain ⟨hread₂, hcontinued⟩ := hsound hleaves hread pull
      exact ⟨[], o, found, st₂, rfl, hfound, hleaves.offers hread pull, hread₂, hcontinued.holds,
        run⟩
  | @more _ _ _ _ _ o _ found legs _ _ _ _ _ pull run spent _ ih =>
      intro os hleaves hread
      obtain ⟨hread₂, hcontinued⟩ := hsound hleaves hread pull
      obtain ⟨hinner, hread₃⟩ := hcontinued.delivers run
      obtain ⟨rest, hrest⟩ := spent
      have hread₄ := hread₃.trans (hinner.readOn hrest)
      obtain ⟨before, last, found', st₅, rfl, hlast⟩ :=
        ih ((hleaves.pull pull).later hread₄) (hread₂.trans hread₄)
      exact ⟨(o, found) :: before, last, found', st₅, rfl, hlast⟩

namespace Offers

/-- An outcome of a sequence of two parsers comes from an outcome of the first and one of the second
    behind it. -/
theorem of_seq {f : α → β → γ} {x : Outcome σ γ} (h : (seq f p q).Offers G st c x)
    (hst : st.Intact) (hG : G.Honest st.held) (hp : p.Honest st.held) (hq : q.Honest st.held) :
    ∃ o y, p.Offers G st c o ∧ q.Offers G st o.cursor y ∧
      x = y.withValue (f o.value y.value) := by
  obtain ⟨st₁, found, s, own, hread, hc, hdelivers⟩ := h
  obtain ⟨outer, st₂, legs, outer', a, inner, hstart, hrelay, hos, -, -⟩ :=
    ((demand_exact G c st₁ own).2.1 f p q _ s (by simp)).mp hdelivers
  have hsound := hp.sound hst hG hread hc
  have hread₂ := hread.trans (hsound.started hstart).2
  obtain ⟨before, o, found', st₃, rfl, hfound', hoffers, hread₃, ho, hrun⟩ :=
    Leaves.last_leg hst hq hrelay (.start hsound hstart) hread₂
  obtain ⟨init, y, rfl⟩ := (List.eq_nil_or_concat' found').resolve_left hfound'
  rw [delivered, List.flatMap_append, List.flatMap_singleton, List.map_append, List.map_singleton,
    ← List.append_assoc] at hos
  obtain ⟨-, hlast⟩ := List.append_inj' hos rfl
  exact ⟨o, y, hoffers, ⟨st₃, init, inner, own, hread₃, ho, hrun⟩, List.singleton_inj.mp hlast⟩

omit [Carrier σ] in
/-- A function on the values changes the value of an outcome. -/
theorem of_mapPure {f : α → β} {x : Outcome σ β} (h : (p.mapPure f).Offers G st c x) :
    ∃ o, p.Offers G st c o ∧ x = o.withValue (f o.value) := by
  obtain ⟨st₁, found, s, own, hread, hc, t, st₂, hstart, hyields⟩ := h
  rw [mapPure, started_map] at hstart
  obtain ⟨t', st₃, ht, hdone⟩ := Run.bind_eq_done_iff.mp hstart
  cases hdone
  obtain ⟨os, s', hyields', hos⟩ := hyields.of_mapped (g := fun o => o.withValue (f o.value))
  obtain ⟨before, last, rfl, -, hlast⟩ := List.append_eq_map_iff.mp hos
  obtain ⟨o, rfl, rfl⟩ := List.map_eq_singleton_iff.mp hlast
  exact ⟨o, ⟨st₁, before, s', own, hread, hc, t', _, ht, hyields'⟩, rfl⟩

omit [Carrier σ] in
/-- An outcome of a single symbol is the symbol, and lies one position further. -/
theorem of_symbol [DecidableEq σ] {op : σ} {x : Outcome σ σ}
    (h : (symbol op : Parser σ ε ρ σ).Offers G st d x) :
    d.current = some op ∧ x.value = op ∧ x.cursor.position = d.position + 1 := by
  obtain ⟨st₁, found, s, own, hread, hd, t, st₂, hstart, hyields⟩ := h
  rw [symbol, satisfy, started_testSymbol] at hstart
  cases hcurrent : d.current with
  | none =>
      rw [hcurrent] at hstart
      cases hstart
      exact absurd (Outcomes.yields_empty hyields) (by simp)
  | some y =>
      rw [hcurrent] at hstart
      cases hstart
      -- the symbol has passed the test, for else there would be no outcome
      by_cases hy : y = op
      · rw [if_pos (decide_eq_true hy)] at hyields
        obtain ⟨z, hz, hvalue, hadvance⟩ := Outcomes.yields_consuming hyields
        obtain rfl := Option.some.inj (hcurrent.symm.trans hz)
        exact ⟨congrArg some hy, hvalue.trans hy,
          hread.later.intact.position_of_advance hd _ hadvance⟩
      · rw [if_neg (by simpa using hy)] at hyields
        exact absurd (Outcomes.yields_empty hyields) (by simp)

end Offers

/-! ## Operands in a row -/

variable (G) in
/-- Outcomes of a parser, one behind the other: their values, and where the last of them lies. -/
inductive Row (p : Parser σ ε ρ α) (st : Store σ ε) (c : Cursor σ) :
    List α → Cursor σ → Prop where
  | nil : Row p st c [] c
  | snoc {row : List α} {d : Cursor σ} {o : Outcome σ α} (h : Row p st c row d)
      (last : p.Offers G st d o) : Row p st c (row ++ [o.value]) o.cursor

end Parser

/-- **THE OCCURRENCES ON THE STACK** lie one behind the other. -/
theorem Frames.Stands.row {s : Outcomes σ ε ρ α} {value : Option α} {below : Frames σ ε ρ α}
    {os : List (Outcome σ α)} (h : (push s d value below).Stands G p c st₁ os)
    (hread : st.ReadOn st₁) : p.Row G st c ((push s d value below).values []) d := by
  generalize hframes : push s d value below = frames at h
  induction h generalizing s d value below with
  | root h =>
      cases hframes
      exact .nil
  | @upon os _ o s t d value below h moved top ih =>
      cases hframes
      have hlast : p.Offers G st d o := by
        obtain ⟨own, hown⟩ := h.top.delivers
        exact ⟨st₁, os, s, own, hread, h.top.parser.holds, hown⟩
      rw [values_push, Option.toList_some, values_eq_append]
      exact .snoc (ih rfl) hlast

theorem Frames.Behind.row {frames : Frames σ ε ρ α} {row : Outcome σ (List α)}
    (h : frames.Behind G p c st₁ row) (hread : st.ReadOn st₁) :
    p.Row G st c row.value row.cursor := by
  cases h with
  | first => exact .nil
  | @last os o _ h =>
      cases frames with
      | bottom => exact nomatch h
      | push s d value below =>
          obtain ⟨own, hown⟩ := h.top.delivers
          dsimp only
          rw [values_eq_append]
          exact .snoc (h.row hread) ⟨st₁, os, s, own, hread, h.top.parser.holds, hown⟩

namespace Parser

/-- An outcome of a repetition is a row of outcomes. -/
theorem Offers.row {x : Outcome σ (List α)} (h : p.many.Offers G st c x) (hst : st.Intact)
    (hG : G.Honest st.held) (hp : p.Honest st.held) : p.Row G st c x.value x.cursor := by
  obtain ⟨st₁, found, s, own, hread, hc, hdelivers⟩ := h
  obtain ⟨hread₁, -, hrows⟩ := (hp.sound hst hG hread hc).delivers_rows hdelivers
  obtain ⟨row, frames, rfl, hbehind⟩ := hrows x (by simp)
  exact hbehind.row (hread.trans hread₁)

section

variable [DecidableEq σ] (G) in
/-- Operands from `c` on, with an operator in front of each but the first: the value of the first,
    those of the others, and where the last of them lies. -/
inductive Operands (operand : Parser σ ε ρ α) (op : σ) (st : Store σ ε) (c : Cursor σ) :
    α → List α → Cursor σ → Prop where
  | first {o : Outcome σ α} (h : operand.Offers G st c o) :
      Operands operand op st c o.value [] o.cursor
  | next {a : α} {others : List α} {d : Cursor σ} {x : Outcome σ σ} {o : Outcome σ α}
      (h : Operands operand op st c a others d)
      (operator : (symbol op : Parser σ ε ρ σ).Offers G st d x)
      (last : operand.Offers G st x.cursor o) :
      Operands operand op st c a (others ++ [o.value]) o.cursor

variable [DecidableEq σ] {operand : Parser σ ε ρ α} {op : σ}

/-- Behind a first operand, a row of operators and operands goes on with the operands. -/
theorem Operands.row {o : Outcome σ α} (h : operand.Offers G st c o) (hst : st.Intact)
    (hG : G.Honest st.held)
    (hq : ((symbol op).andRight operand : Parser σ ε ρ α).Honest st.held) {row : List α}
    (hrow : ((symbol op).andRight operand).Row G st o.cursor row d) :
    operand.Operands G op st c o.value row d := by
  induction hrow with
  | nil => exact .first h
  | snoc _ last ih =>
      obtain ⟨x, y, hx, hy, rfl⟩ := last.of_seq hst hG hq.1 hq.2.1
      exact .next ih hx hy

/-- An operator in front makes every operand consume something, if operands do not go back. -/
theorem consumes_andRight (hst : st.Intact) (hG : G.Honest st.held)
    (hq : ((symbol op).andRight operand : Parser σ ε ρ α).Honest st.held)
    (hback : ∀ d o, operand.Offers G st d o → d.position ≤ o.cursor.position) :
    ((symbol op).andRight operand).Consumes G st := by
  intro d o h
  obtain ⟨x, y, hx, hy, rfl⟩ := h.of_seq hst hG hq.1 hq.2.1
  obtain ⟨-, -, hposition⟩ := hx.of_symbol
  have hle := hback x.cursor y hy
  show y.cursor.position ≠ d.position
  omega

/-- **OPERATORS ASSOCIATE TO THE LEFT.** Callers who have got to a world by whatever steps start a
    chain of operands at one of their cursors, and no outcome of the operand parser ever lies behind
    the place where that was started. Then the chain gives the answers of an operand followed by the
    loop that looks for an operator and another operand, goes on with the combined value, and at
    last gives the value carried: pull by pull the same values at the same places, or the same
    fault, or no answer at all; and the same store in the end, with the same reads and the same
    remarks in its log. And whatever the chain gives comes from operands in a row with an operator
    in front of each but the first, and its value is that of the first, combined with the others one
    after the other. -/
theorem chain_left_associative {w : World σ ε} (hw : w.Reachable) (hG : G.Honest w.known)
    {combine : α → α → α} (hp : (operand.chainLeft op combine).Honest w.known)
    (hc : c ∈ w.cursors)
    (hback : ∀ d o, operand.Offers G w.store d o → d.position ≤ o.cursor.position) :
    (∀ k, (operand.chainLeft op combine).answers G c k w.store =
      (operand.extend.bind .loop).answers
        (G.looping combine ((symbol op).andRight operand)) c k w.store) ∧
    ∀ x, (operand.chainLeft op combine).Offers G w.store c x →
      ∃ a others, operand.Operands G op w.store c a others x.cursor ∧
        x.value = others.foldl combine a := by
  have hsound := hw.sound
  have hst := hsound.intact
  have hG' := hG.mono hsound.known_subset
  have hp' := hp.1.mono hsound.known_subset
  have hq : ((symbol op).andRight operand : Parser σ ε ρ α).Honest w.store.held := hp'.2.1.1
  constructor
  · intro k
    have hoperand : operand.Sound G c w.store := ⟨hst, hG', hp'.1, hsound.cursors c hc⟩
    exact hoperand.folded_answers hq (consumes_andRight hst hG' hq hback) k
  · intro x hx
    obtain ⟨pair, hpair, rfl⟩ := hx.of_mapPure
    obtain ⟨o, row, ho, hrow, rfl⟩ := hpair.of_seq hst hG' hp'.1 hp'.2.1
    exact ⟨o.value, row.value, .row ho hst hG' hq (hrow.row hst hG' hq), rfl⟩

end

end Parser

end

/-- Two subtractions in a row, which do not come to the same from the right. -/
theorem Parser.item_chain_left_associative :
    let c : Cursor Nat := ⟨0, 0, 0, some 9⟩
    let st := (World.facing [9, 0, 3, 0, 2] : World Nat Unit).store
    let x : Outcome Nat Nat := ⟨9 - 3 - 2, ⟨0, 5, 5, none⟩⟩
    let operand : Parser Nat Unit (fun _ => Empty) Nat := .item
    let chain := operand.chainLeft 0 (· - ·)
    (∀ d o, operand.Offers .empty st d o → d.position ≤ o.cursor.position) ∧
      chain.answers .empty c 4 st = (operand.extend.bind .loop).answers
        (Grammar.looping .empty (· - ·) ((symbol 0).andRight operand)) c 4 st ∧
      chain.Offers .empty st c x ∧
      ∃ a others, operand.Operands .empty 0 st c a others x.cursor ∧
        9 - 3 - 2 = others.foldl (· - ·) a := by
  intro c st x operand chain
  let _ : Carrier Nat := .none
  have hreach : (World.facing [9, 0, 3, 0, 2] : World Nat Unit).Reachable :=
    World.reachable_facing [9, 0, 3, 0, 2]
  have hplain : chain.Plain := ⟨trivial, trivial, trivial⟩
  have hlist : chain.enumerate .empty [9, 0, 3, 0, 2] 9 0 =
      some [(9 - 3 - 2, 5), (9 - 3, 3), (9, 1)] := by decide
  obtain ⟨s, st₀, st', hstart, hanswers, -⟩ := chain.pulls_enumeration hreach
    (List.mem_singleton.mpr rfl) rfl (Source.delivers_ofList [9, 0, 3, 0, 2]) .empty hlist
  let shorter : List (Outcome Nat Nat) := [⟨9 - 3, ⟨0, 3, 3, some 0⟩⟩, ⟨9, ⟨0, 1, 1, some 0⟩⟩]
  have hos : s.answers .empty ((x :: shorter).length + 1) st₀ =
      .done ((x :: shorter).map some ++ [none]) st' := hanswers
  have hoffers : chain.Offers .empty st c x := by
    obtain ⟨r, st₁, hyields, -⟩ := Outcomes.yields_of_answers hos
    cases hyields with
    | cons first rest =>
        have hc := hreach.sound.cursors c (List.mem_singleton.mpr rfl)
        exact ⟨st, [], _, _, .refl hreach.sound.intact, hc, s, st₀, hstart,
          .cons first (.nil _ _)⟩
  have hback (d : Cursor Nat) (o : Outcome Nat Nat) (h : operand.Offers .empty st d o) :
      d.position ≤ o.cursor.position := by
    obtain ⟨st₁, found, s, own, hread, hd, hdelivers⟩ := h
    have hitem : operand.Plain := trivial
    have hforward : (Job.start operand d st₁).Forward .empty :=
      ⟨⟨hread.later.intact, fun _ r => r.elim, hitem.honest _, hd⟩, fun _ r => r.elim, trivial⟩
    exact hforward.position_le hdelivers
  obtain ⟨hanswers, hvalue⟩ := chain_left_associative hreach (fun _ r => r.elim)
    (hplain.honest _) (List.mem_singleton.mpr rfl) hback
  exact ⟨hback, hanswers 4, hoffers, hvalue x hoffers⟩

end Backtrack
