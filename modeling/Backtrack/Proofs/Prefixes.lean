import Backtrack.Proofs.RepetitionLaws
import Backtrack.Proofs.Stack
import Backtrack.Proofs.Successes
import Backtrack.Proofs.Verdicts
import Mathlib.Data.List.Infix

/-!
# Prefixes — longer rows before shorter ones

A repetition gives the longest rows first. With an ambiguous parser the lengths may still go up and
down; what holds of every row is that the row without its last occurrence comes later. The reason is
the stack: the rows on it, one for each frame (`Frames.rows`), are owed. A pull gives one row, and
owes the rows that were owed before and were not given (`Frames.pull_rows`). So if the repetition
comes to its end, all of them have been given, from the top down.

A parser with at most one outcome at each place can give nothing more at a frame that has given an
outcome. So behind the first row, which is the longest, nothing comes but what is owed.
-/

namespace Backtrack

open Store

variable {σ ε : Type} {ρ : Type → Type} {α β : Type}

/-- The rows along a stack, the longest first: where each frame stands, and what has led there. -/
def Frames.rows : Frames σ ε ρ α → List (Outcome σ (List α))
  | .bottom               => []
  | .push s d value below => ⟨(push s d value below).values [], d⟩ :: below.rows

section

variable {G : Grammar σ ε ρ} {p : Parser σ ε ρ α} {c d : Cursor σ} {st st₁ st' : Store σ ε}
  {frames below : Frames σ ε ρ α} {s t : Outcomes σ ε ρ α} {value : Option α}
  {r : Outcomes σ ε ρ (List α)} {os : List (Outcome σ (List α))}

namespace Frames

/-- The prefixes of a longer row: itself, and those of the row before. -/
theorem reverse_inits_concat (row : List α) (a : α) :
    (row ++ [a]).inits.reverse = (row ++ [a]) :: row.inits.reverse := by
  rw [List.inits_append]
  simp

theorem rows_push : (push s d value below).rows = (push t d value below).rows := by
  rw [rows, rows, values_push, values_push]

/-- The rows along a stack are the prefixes of the longest. -/
theorem Rooted.map_value_rows (h : frames.Rooted c) :
    frames.rows.map Outcome.value = (frames.values []).inits.reverse := by
  induction h with
  | root s => rfl
  | @upon s d a below h ih =>
      have hvalues : (push s d (some a) below).values [] = below.values [] ++ [a] := by
        rw [values_push, Option.toList_some, values_eq_append]
      rw [rows, List.map_cons, ih, hvalues, reverse_inits_concat]

/-! ## What is owed is given -/

/-- **A PULL GIVES ONE ROW**, and owes what was owed before and has not been given. -/
theorem pull_rows (n : Nat) : ∀ {frames : Frames σ ε ρ α} {st st' : Store σ ε}
    {x : Pull σ ε ρ (List α)}, frames ≠ .bottom →
    (Outcomes.repeating 0 id p none frames).pull G n st = .done x st' →
    ∃ row frames', x = ⟨some row, .repeating 0 id p none frames'⟩ ∧
      frames.rows <:+ row :: frames'.rows := by
  induction n with
  | zero => intro frames st st' x _ hpull; exact nomatch hpull
  | succ n ih =>
      intro frames st st' x hframes hpull
      cases frames with
      | bottom => exact absurd rfl hframes
      | push s d value below =>
          obtain ⟨⟨answer, s'⟩, st₁, -, hdone⟩ := Run.bind_eq_done_iff.mp hpull
          cases answer with
          | none =>
              cases hdone
              refine ⟨_, below, rfl, ?_⟩
              rw [rows_push (t := s')]
              exact List.suffix_refl _
          | some o =>
              rw [rows_push (t := s')]
              dsimp only at hdone
              split at hdone
              · cases hdone
                exact ⟨_, push s' d value below, rfl, List.suffix_cons ..⟩
              · obtain ⟨t, st₂, -, hdone⟩ := Run.bind_eq_done_iff.mp hdone
                have hlonger : push t o.cursor (some o.value) (push s' d value below) ≠ .bottom :=
                  nofun
                obtain ⟨row, frames', hx, hrows⟩ := ih hlonger hdone
                exact ⟨row, frames', hx, (List.suffix_cons ..).trans hrows⟩

theorem pulled_rows {x : Pull σ ε ρ (List α)} (hframes : frames ≠ .bottom)
    (hpulled : (Outcomes.repeating 0 id p none frames).pulled G st = .done x st') :
    ∃ row frames', x = ⟨some row, .repeating 0 id p none frames'⟩ ∧
      frames.rows <:+ row :: frames'.rows := by
  obtain ⟨n, hn⟩ := (Outcomes.pulled_eq_done_iff G st).mp hpulled
  exact pull_rows n hframes hn

/-- Only the stack without frames has nothing more to give. -/
theorem eq_bottom_of_ends (h : (Outcomes.repeating 0 id p none frames).Ends G st st') :
    frames = .bottom ∧ st' = st := by
  obtain ⟨rest, hrest⟩ := h
  by_cases hframes : frames = .bottom
  · subst hframes
    rw [Outcomes.pulled_repeating_bottom] at hrest
    cases hrest
    exact ⟨rfl, rfl⟩
  · obtain ⟨row, frames', hx, -⟩ := pulled_rows hframes hrest
    cases hx

theorem yields_bottom (h : (Outcomes.repeating 0 id p none .bottom).Yields G st os r st') :
    os = [] := by
  cases h with
  | nil => rfl
  | cons first _ =>
      rw [Outcomes.pulled_repeating_bottom] at first
      cases first

/-- **ALL THAT IS OWED IS GIVEN** before the end, in the order in which it is owed. -/
theorem rows_sublist (hyields : (Outcomes.repeating 0 id p none frames).Yields G st os r st₁)
    (hends : r.Ends G st₁ st') : frames.rows.Sublist os := by
  generalize hr : Outcomes.repeating 0 id p none frames = r₀ at hyields
  induction hyields generalizing frames with
  | nil =>
      subst hr
      obtain ⟨rfl, -⟩ := eq_bottom_of_ends hends
      exact .slnil
  | cons first _ ih =>
      subst hr
      by_cases hframes : frames = .bottom
      · rw [hframes]
        exact List.nil_sublist _
      · obtain ⟨row, frames', hx, hrows⟩ := pulled_rows hframes first
        cases hx
        exact hrows.sublist.trans ((ih hends rfl).cons_cons _)

/-! ## One or more -/

/-- Without the empty row at the end, these are the rows of one occurrence or more. -/
theorem Rooted.yields_many1 (h : frames.Rooted c)
    (hyields : (Outcomes.repeating 0 id p none frames).Yields G st os r st₁)
    (hends : r.Ends G st₁ st') : ∃ os₁ r₁ st₂, os = os₁ ++ [⟨[], c⟩] ∧
      (Outcomes.repeating 1 id p none frames).Yields G st os₁ r₁ st₂ ∧ r₁.Ends G st₂ st' := by
  generalize hr : Outcomes.repeating 0 id p none frames = r₀ at hyields
  induction hyields generalizing frames with
  | nil =>
      subst hr
      obtain ⟨rfl, -⟩ := eq_bottom_of_ends hends
      exact nomatch h
  | @cons _ _ _ st _ _ _ _ first rest ih =>
      subst hr
      have hparted := Outcomes.pulled_agrees (G := G) fun n => h.pull_parted id p n frames st
      rw [first] at hparted
      generalize hsecond : (Outcomes.repeating 1 id p none frames).pulled G st = second at hparted
      cases hparted with
      | done _ hparted =>
          cases hparted with
          | same _ hframes =>
              obtain ⟨os₁, r₁, st₂, rfl, hyields₁, hends₁⟩ := ih hframes hends rfl
              exact ⟨_ :: os₁, r₁, st₂, rfl, .cons hsecond hyields₁, hends₁⟩
          | last =>
              cases yields_bottom rest
              cases rest
              obtain ⟨-, rfl⟩ := eq_bottom_of_ends hends
              exact ⟨[], _, st, rfl, .nil _ st, _, hsecond⟩

end Frames

end

section

variable [Carrier σ] {G : Grammar σ ε ρ} {p : Parser σ ε ρ α} {c d : Cursor σ}
  {st st₁ st' : Store σ ε} {frames below : Frames σ ε ρ α} {s t : Outcomes σ ε ρ α}
  {value : Option α} {found : List (Outcome σ α)} {x : Outcome σ α}
  {r : Outcomes σ ε ρ (List α)} {os : List (Outcome σ (List α))}

namespace Frames

theorem Stands.rooted (h : frames.Stands G p c st found) : frames.Rooted c := by
  induction h with
  | root => exact .root _
  | upon _ _ _ ih => exact .upon _ _ _ ih

/-- If the frame on top has given something, so has the parser at the start. -/
theorem Stands.delivers_first (h : frames.Stands G p c st found) (hfound : found ≠ []) :
    ∃ first s own, p.Delivers G c st [first] s own := by
  induction h with
  | root h =>
      obtain ⟨own, s₀, st₀, hstart, hyields⟩ := h.delivers
      cases hyields with
      | nil => exact absurd rfl hfound
      | cons first _ => exact ⟨_, _, _, s₀, st₀, hstart, .cons first (.nil _ _)⟩
  | upon _ _ _ ih => exact ih (by simp)

/-- Behind a row comes, as what is owed next, the row without its last occurrence. -/
theorem Behind.owes {row : Outcome σ (List α)} (h : frames.Behind G p c st row) :
    (row = ⟨[], c⟩ ∧ frames = .bottom) ∨ ∃ shorter ∈ frames.rows, ∃ v found s own,
      row.value = shorter.value ++ [v] ∧
        p.Delivers G shorter.cursor st (found ++ [⟨v, row.cursor⟩]) s own := by
  cases h with
  | first => exact Or.inl ⟨rfl, rfl⟩
  | @last found o _ h =>
      cases frames with
      | bottom => exact nomatch h
      | push s d value below =>
          obtain ⟨own, hown⟩ := h.top.delivers
          refine Or.inr ⟨_, List.mem_cons_self .., o.value, found, s, own, ?_, hown⟩
          exact values_eq_append ..

/-! ## At most one outcome -/

/-- Where the parser has at most one outcome, a stack gives what it owes and nothing else. -/
theorem Stands.yields_rows (h : frames.Stands G p c st (found ++ [x]))
    (hyields : (Outcomes.repeating 0 id p none frames).Yields G st os r st₁)
    (hends : r.Ends G st₁ st')
    (hone : ∀ d found s own, st'.Holds d → p.Delivers G d st' found s own → found.length ≤ 1) :
    os = frames.rows := by
  generalize hr : Outcomes.repeating 0 id p none frames = r₀ at hyields
  induction hyields generalizing frames found x with
  | nil =>
      subst hr
      obtain ⟨rfl, -⟩ := eq_bottom_of_ends hends
      exact nomatch h
  | @cons _ _ _ st _ _ _ _ first rest ih =>
      subst hr
      have hread := (Outcomes.Walking.going h).readOn_of_ends (.cons first rest) hends
      cases frames with
      | bottom => exact nomatch h
      | push s d value below =>
          rw [Outcomes.pulled_repeating_push] at first
          obtain ⟨⟨answer, s'⟩, st₂, hpulled, hdone⟩ := Run.bind_eq_done_iff.mp first
          cases answer with
          | some o =>
              -- the frame on top would have given two outcomes
              have hparser := h.top.parser
              obtain ⟨own, hown⟩ := (hparser.delivers_iff hread).mpr (h.top.gives hpulled)
              have hheld := mem_held.mp
                (hread.later.held_subset hparser.intact (mem_held.mpr hparser.holds))
              have hlength := hone d _ _ _ hheld hown
              rw [List.length_append, List.length_append, List.length_singleton,
                List.length_singleton] at hlength
              omega
          | none =>
              have hread₂ := h.top.sequence.readOn hpulled
              cases hdone
              rw [rows_push (t := s'), rows]
              cases h with
              | root =>
                  rw [yields_bottom rest]
                  rfl
              | upon h _ _ =>
                  rw [ih (h.later hread₂) hends rfl]
                  rfl

/-- Then the lists from any row on are this row and its prefixes. -/
theorem Behind.map_value {row : Outcome σ (List α)} (h : frames.Behind G p c st row)
    (hyields : (Outcomes.repeating 0 id p none frames).Yields G st os r st₁)
    (hends : r.Ends G st₁ st')
    (hone : ∀ d found s own, st'.Holds d → p.Delivers G d st' found s own → found.length ≤ 1) :
    (row :: os).map Outcome.value = row.value.inits.reverse := by
  cases h with
  | first =>
      rw [yields_bottom hyields]
      rfl
  | last h =>
      rw [h.yields_rows hyields hends hone, List.map_cons, h.rooted.map_value_rows,
        values_eq_append, reverse_inits_concat]

end Frames

/-! ## The whole sequence -/

/-- What is left behind a row is a stack, and tells how the row has come about. -/
theorem Outcomes.Walking.next_row {r₀ : Outcomes σ ε ρ (List α)} {least : Nat}
    (h : r₀.Walking G least id p c st) {row : Outcome σ (List α)}
    (hpulled : r₀.pulled G st = .done ⟨some row, r⟩ st') :
    st.ReadOn st' ∧ ∃ frames, r = .repeating least id p none frames ∧
      Frames.Behind G p c st' row frames := by
  obtain ⟨hread, hwalks⟩ := h.pulled hpulled
  refine ⟨hread, ?_⟩
  generalize hx : Pull.mk (some row) r = x at hwalks
  cases hwalks with
  | row hbehind =>
      cases hx
      exact ⟨_, rfl, hbehind⟩
  | ended => cases hx

namespace Parser

omit [Carrier σ] in
/-- Without the empty row at the end, the outcomes of any number of occurrences are those of one or
    more. -/
theorem many1_delivers_of_many (hdelivers : p.many.Delivers G c st os r st₁)
    (hends : r.Ends G st₁ st') : ∃ os₁ r₁ st₂, os = os₁ ++ [⟨[], c⟩] ∧
      p.many1.Delivers G c st os₁ r₁ st₂ ∧ r₁.Ends G st₂ st' := by
  have hyields := delivers_repetition_iff.mp hdelivers
  -- in the first pull the parser is started, and that is the same on both sides
  have hbegins : ∃ s st₂, p.started G c st = .done s st₂ ∧
      (Outcomes.repeating 0 id p none (.push s c none .bottom)).Yields G st₂ os r st₁ := by
    cases hyields with
    | nil =>
        obtain ⟨rest, hrest⟩ := hends
        rw [Outcomes.pulled_repeating_root] at hrest
        obtain ⟨s, st₂, -, hrest⟩ := Run.bind_eq_done_iff.mp hrest
        cases (Frames.eq_bottom_of_ends ⟨rest, hrest⟩).1
    | cons first rest =>
        rw [Outcomes.pulled_repeating_root] at first
        obtain ⟨s, st₂, hs, first⟩ := Run.bind_eq_done_iff.mp first
        exact ⟨s, st₂, hs, .cons first rest⟩
  obtain ⟨s, st₂, hs, hyields⟩ := hbegins
  obtain ⟨os₁, r₁, st₃, hos, hyields₁, last, hlast⟩ :=
    (Frames.Rooted.root s).yields_many1 hyields hends
  have hpulled : (Outcomes.repeating 1 id p (some c) .bottom).pulled G st =
      (Outcomes.repeating 1 id p none (.push s c none .bottom)).pulled G st₂ := by
    rw [Outcomes.pulled_repeating_root, hs]
    rfl
  have hgathers := Outcomes.Gathers.of_pulled_eq hpulled (.ended hyields₁ hlast) (Nat.succ_pos _)
  obtain _ | ⟨hyields₁, hlast⟩ := hgathers
  exact ⟨os₁, _, _, hos, delivers_repetition_iff.mpr hyields₁, _, hlast⟩

variable (hparser : p.Sound G c st) (hdelivers : p.many.Delivers G c st os r st₁)
  (hends : r.Ends G st₁ st')
include hparser hdelivers hends

/-- **BEHIND EACH ROW** comes the row without its last occurrence; the empty row is the last. -/
theorem Sound.followed {before after : List (Outcome σ (List α))} {o : Outcome σ (List α)}
    (hos : os = before ++ o :: after) :
    (o = ⟨[], c⟩ ∧ after = []) ∨ ∃ shorter ∈ after, ∃ v found s own,
      o.value = shorter.value ++ [v] ∧
        p.Delivers G shorter.cursor st' (found ++ [⟨v, o.cursor⟩]) s own := by
  have hyields := delivers_repetition_iff.mp hdelivers
  subst hos
  obtain ⟨r₁, st₂, hbefore, hafter⟩ := hyields.split
  obtain _ | ⟨first, rest⟩ := hafter
  have hwalking := ((Outcomes.Walking.begun hparser).yields hbefore).2.1
  obtain ⟨hread, frames, rfl, hbehind⟩ := hwalking.next_row first
  have hread' := (hbehind.walking hread.later.intact).readOn_of_ends rest hends
  have hrows := Frames.rows_sublist rest hends
  rcases (hbehind.later hread').owes with ⟨hrow, rfl⟩ | ⟨shorter, hmem, howed⟩
  · exact Or.inl ⟨hrow, Frames.yields_bottom rest⟩
  · exact Or.inr ⟨shorter, hrows.subset hmem, howed⟩

/-- Where the parser has at most one outcome, the lists are one list and its prefixes. Without an
    outcome at the start this is the empty list. -/
theorem Sound.prefixes
    (hone : ∀ d found s own, st'.Holds d → p.Delivers G d st' found s own → found.length ≤ 1) :
    ∃ row, os.map Outcome.value = row.inits.reverse ∧
      ((∀ found s own, p.Delivers G c st found s own → found = []) → row = []) := by
  obtain ⟨os₁, -, -, hos, -, -⟩ := many1_delivers_of_many hdelivers hends
  have hyields := delivers_repetition_iff.mp hdelivers
  cases hyields with
  | nil => exact absurd hos (by simp)
  | @cons _ _ _ _ _ _ row after first rest =>
      obtain ⟨hread, frames, rfl, hbehind⟩ := (Outcomes.Walking.begun hparser).next_row first
      refine ⟨row.value, hbehind.map_value rest hends hone, fun hnone => ?_⟩
      cases hbehind with
      | first => rfl
      | last h =>
          obtain ⟨x, s, own, hown⟩ := h.delivers_first (by simp)
          obtain ⟨own, hown⟩ := (hparser.delivers_iff hread).mp ⟨own, hown⟩
          exact absurd (hnone _ _ _ hown) (by simp)

end Parser

/-- **LONGEST FIRST.** Callers who have got to a world by whatever steps start a repetition at one of
    their cursors, and pull it until its end. Then behind each outcome with a last occurrence comes
    one with the row before it, and the occurrence is one that the parser gives there; and the last
    outcome is the empty row at the start. If the parser gives at most one outcome at each cursor,
    the rows are one longest row and its prefixes, each shorter than the one before by one
    occurrence, down to the empty row; and one occurrence or more comes to its end as well, with the
    same rows but the empty one, which is none at all if the parser gives no outcome at the start. -/
theorem Parser.longest_first {w : World σ ε} (hw : w.Reachable) (hG : G.Honest w.known)
    (hp : p.many.Honest w.known) (hc : c ∈ w.cursors)
    (hdelivers : p.many.Delivers G c w.store os r st) (hends : r.Ends G st st') :
    (∀ before o after xs v, os = before ++ o :: after → o.value = xs ++ [v] →
      ∃ shorter ∈ after, shorter.value = xs ∧ ∃ found s own,
        p.Delivers G shorter.cursor st' (found ++ [⟨v, o.cursor⟩]) s own) ∧
    os.getLast? = some ⟨[], c⟩ ∧
    ((∀ d found s own, st'.Holds d → p.Delivers G d st' found s own → found.length ≤ 1) →
      ∃ row : List α, os.map Outcome.value = row.inits.reverse ∧
        ∃ os₁ r₁ st₁, p.many1.Delivers G c w.store os₁ r₁ st₁ ∧ r₁.Ends G st₁ st' ∧
          os₁.map Outcome.value = row.inits.tail.reverse ∧
          ((∀ found s own, p.Delivers G c w.store found s own → found = []) → os₁ = [])) := by
  have hparser : p.Sound G c w.store := hw.sound.parser hG hp.1 hc
  obtain ⟨os₁, r₁, st₁, hos, hdelivers₁, hends₁⟩ := many1_delivers_of_many hdelivers hends
  refine ⟨?_, ?_, ?_⟩
  · intro before o after xs v hsplit hvalue
    rcases hparser.followed hdelivers hends hsplit with ⟨rfl, -⟩ | ⟨shorter, hmem, v', h⟩
    · exact absurd hvalue (by simp)
    · obtain ⟨found, s, own, hlonger, hown⟩ := h
      obtain ⟨hxs, hv⟩ := List.append_inj' (hvalue.symm.trans hlonger) rfl
      cases hv
      exact ⟨shorter, hmem, hxs.symm, found, s, own, hown⟩
  · rw [hos, List.getLast?_concat]
  · intro hone
    obtain ⟨row, hrow, hnone⟩ := hparser.prefixes hdelivers hends hone
    have hrow₁ : os₁.map Outcome.value = row.inits.tail.reverse := by
      rw [hos, List.map_append, List.map_singleton] at hrow
      have hinits : row.inits.reverse = row.inits.tail.reverse ++ [[]] := by
        cases row <;> simp
      exact (List.append_inj' (hrow.trans hinits) rfl).1
    refine ⟨row, hrow, os₁, r₁, st₁, hdelivers₁, hends₁, hrow₁, fun h => ?_⟩
    rw [hnone h] at hrow₁
    exact List.map_eq_nil_iff.mp hrow₁

end

/-- A single item has at most one outcome. -/
theorem Parser.Delivers.length_anySymbol_le_one {G : Grammar σ ε ρ} {f : σ → α} {d : Cursor σ}
    {st st' : Store σ ε} {found : List (Outcome σ α)} {s : Outcomes σ ε ρ α}
    (h : (anySymbol f : Parser σ ε ρ α).Delivers G d st found s st') : found.length ≤ 1 := by
  obtain ⟨s₀, st₀, hstart, hyields⟩ := h
  cases hstart.symm.trans (started_anySymbol G d st f)
  cases hyields with
  | nil => exact Nat.zero_le _
  | cons first rest =>
      rw [Outcomes.pulled_consuming] at first
      split at first
      · cases first
      · generalize (st.advance d).1 = next at first
        cases next with
        | none => cases first
        | some d' =>
            cases first
            rw [Outcomes.yields_empty rest, List.length_singleton]

/-- The rows of two items, and those of one item or more. -/
theorem Parser.item_longest_first :
    let c : Cursor Nat := ⟨0, 0, 0, some 7⟩
    let p : Parser Nat Unit (fun _ => Empty) Nat := .item
    ∃ os r st st', p.many.Delivers .empty c World.pair.store os r st ∧ r.Ends .empty st st' ∧
      (∀ d found s own, st'.Holds d → p.Delivers .empty d st' found s own → found.length ≤ 1) ∧
      os.map Outcome.value = [[7, 8], [7], []] ∧ os.getLast? = some ⟨[], c⟩ ∧
      ∃ os₁ r₁ st₁, p.many1.Delivers .empty c World.pair.store os₁ r₁ st₁ ∧
        r₁.Ends .empty st₁ st' ∧ os₁.map Outcome.value = [[7, 8], [7]] := by
  intro c p
  let _ : Carrier Nat := .none
  have hplain : p.many.Plain := trivial
  have hlist : p.many.enumerate .empty [7, 8] 5 0 = some [([7, 8], 2), ([7], 1), ([], 0)] := by
    decide
  obtain ⟨s, st₀, st', hstart, hanswers, -⟩ := p.many.pulls_enumeration
    World.reachable_pair (List.mem_singleton.mpr rfl) rfl (fun j _ => Source.answer_ofList [7, 8] j)
    .empty hlist
  let os : List (Outcome Nat (List Nat)) :=
    [⟨[7, 8], ⟨0, 2, 2, none⟩⟩, ⟨[7], ⟨0, 1, 1, some 8⟩⟩, ⟨[], c⟩]
  have hos : s.answers .empty (os.length + 1) st₀ = .done (os.map some ++ [none]) st' := hanswers
  obtain ⟨r, st, hyields, hends⟩ := Outcomes.yields_of_answers hos
  have hdelivers : p.many.Delivers .empty c World.pair.store os r st := ⟨s, st₀, hstart, hyields⟩
  have hone (d : Cursor Nat) (found) (s) (own) (_ : st'.Holds d)
      (h : p.Delivers .empty d st' found s own) : found.length ≤ 1 :=
    h.length_anySymbol_le_one
  obtain ⟨-, hlast, hrows⟩ := longest_first World.reachable_pair (fun _ r => r.elim)
    (hplain.honest _) (List.mem_singleton.mpr rfl) hdelivers hends
  obtain ⟨row, hrow, os₁, r₁, st₁, hdelivers₁, hends₁, hrow₁, -⟩ := hrows hone
  have hvalues : os₁.map Outcome.value = (os.map Outcome.value).dropLast := by
    rw [hrow₁, hrow, List.dropLast_reverse]
  exact ⟨os, r, st, st', hdelivers, hends, hone, rfl, hlast, os₁, r₁, st₁, hdelivers₁, hends₁,
    hvalues⟩

end Backtrack
