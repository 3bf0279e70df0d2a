import Backtrack.Proofs.Spans
import Backtrack.Proofs.Stack
import Backtrack.Proofs.Successes
import Backtrack.Proofs.Verdicts

/-!
# Tiling — the spans of repeated items

When each item of a repetition is joined with the stretch of input that it was read from, these
stretches cover the match without a gap: the first begins where the repetition was started, each
other where the one before it ends, and the last ends at the outcome.

The value of an item and the place that it led to are in different frames of the stack, so this is
read off the frames from the bottom up (`Frames.Stands.tile`): the value of a frame is the latest
outcome of the frame below, whose span begins at the place of that frame, and the outcome lies at
the place of the frame itself. These two places differ, so the span is not empty. Only the last item
may be one that has consumed nothing, for then it is not on the stack.
-/

namespace Backtrack

open Store

variable {σ ε : Type} {ρ : Type → Type} {α β : Type}

/-! ## Spans behind one another -/

namespace Span

/-- The spans stand one behind the other, from the first position to the last. -/
def Tile : Nat → List Span → Nat → Prop
  | start, [],            stop => start = stop
  | start, span :: spans, stop => span.start = start ∧ Tile span.stop spans stop

/-- The lengths of the spans added up. If one of them cannot be measured, neither can all. -/
def totalLength : List Span → Except Fault Nat
  | []            => .ok 0
  | span :: spans => do return (← span.length) + (← totalLength spans)

variable {start stop : Nat} {spans : List Span}

theorem Tile.snoc {middle : Nat} (h : Tile start spans middle) (stop : Nat) :
    Tile start (spans ++ [⟨middle, stop⟩]) stop := by
  induction spans generalizing start with
  | nil => exact ⟨h.symm, rfl⟩
  | cons first spans ih => exact ⟨h.1, ih h.2⟩

section

variable (h : Tile start spans stop) (hforward : ∀ span ∈ spans, span.start ≤ span.stop)
include h hforward

theorem Tile.le : ∀ span ∈ spans, start ≤ span.start := by
  induction spans generalizing start with
  | nil => intro span hspan; exact absurd hspan List.not_mem_nil
  | cons first spans ih =>
      obtain ⟨hstart, hrest⟩ := h
      have hfirst := hforward first (List.mem_cons_self ..)
      intro span hspan
      rcases List.mem_cons.mp hspan with rfl | hspan
      · exact Nat.le_of_eq hstart.symm
      · have hle := ih hrest (fun x hx => hforward x (List.mem_cons_of_mem _ hx)) span hspan
        omega

/-- Spans that do not run backwards are in order. -/
theorem Tile.pairwise : spans.Pairwise fun earlier later => earlier.stop ≤ later.start := by
  induction spans generalizing start with
  | nil => exact .nil
  | cons first spans ih =>
      have hspans : ∀ span ∈ spans, span.start ≤ span.stop :=
        fun x hx => hforward x (List.mem_cons_of_mem _ hx)
      exact .cons (Tile.le h.2 hspans) (ih h.2 hspans)

/-- Then they can be measured, and the lengths add up to the whole stretch. -/
theorem Tile.totalLength : ∃ n, totalLength spans = .ok n ∧ start + n = stop := by
  induction spans generalizing start with
  | nil => exact ⟨0, rfl, h⟩
  | cons first spans ih =>
      obtain ⟨hstart, hrest⟩ := h
      obtain ⟨n, hn, hsum⟩ := ih hrest fun x hx => hforward x (List.mem_cons_of_mem _ hx)
      have hfirst := hforward first (List.mem_cons_self ..)
      have hlength : first.length = .ok (first.stop - first.start) :=
        (length_eq_ok_iff ..).mpr (by omega)
      refine ⟨first.stop - first.start + n, ?_, by omega⟩
      rw [Span.totalLength, hlength, hn]
      rfl

end

end Span

/-! ## What `spanning` gives -/

section

variable {G : Grammar σ ε ρ} {p : Parser σ ε ρ α} {c d : Cursor σ} {st st' own : Store σ ε}

/-- A function on the outcomes changes each of them. -/
theorem Outcomes.Yields.of_mapped {g : Outcome σ α → Outcome σ β} {s : Outcomes σ ε ρ α}
    {os : List (Outcome σ β)} {r : Outcomes σ ε ρ β}
    (h : (mapped (fun o => .pure (g o)) s).Yields G st os r st') :
    ∃ os' s', s.Yields G st os' s' st' ∧ os = os'.map g := by
  generalize hs : mapped (fun o => .pure (g o)) s = t at h
  induction h generalizing s with
  | nil => exact ⟨[], s, .nil _ _, rfl⟩
  | cons first _ ih =>
      subst hs
      rw [pulled_mapped] at first
      obtain ⟨⟨_ | o, s₁⟩, st₁, hpulled, hdone⟩ := Run.bind_eq_done_iff.mp first
      · cases hdone
      · cases hdone
        obtain ⟨os', s', hyields, rfl⟩ := ih rfl
        exact ⟨o :: os', s', .cons hpulled hyields, rfl⟩

/-- Each outcome gets the span from the start to where it lies. -/
theorem Parser.Delivers.of_spanning {f : α → Span → β} {os : List (Outcome σ β)}
    {r : Outcomes σ ε ρ β} (h : (p.spanning f).Delivers G d st os r own) :
    ∃ os' s, p.Delivers G d st os' s own ∧
      os = os'.map fun o => o.withValue (f o.value ⟨d.position, o.cursor.position⟩) := by
  obtain ⟨t, st₀, hstart, hyields⟩ := h
  rw [started_spanning] at hstart
  obtain ⟨s₀, st₁, hs₀, hdone⟩ := Run.bind_eq_done_iff.mp hstart
  cases hdone
  obtain ⟨os', s, hs, hos⟩ := hyields.of_mapped
  exact ⟨os', s, ⟨s₀, st₀, hs₀, hs⟩, hos⟩

/-- A span of the parser: it has been started at one end, and has given an outcome at the other. -/
def Parser.Covers (G : Grammar σ ε ρ) (p : Parser σ ε ρ α) (st : Store σ ε) (span : Span) : Prop :=
  ∃ d os o s own, st.Holds d ∧ p.Delivers G d st (os ++ [o]) s own ∧
    span = ⟨d.position, o.cursor.position⟩

end

/-! ## The spans on a stack -/

section

variable [Carrier σ] {G : Grammar σ ε ρ} {p : Parser σ ε ρ α} {c d : Cursor σ}
  {st st' : Store σ ε} {os : List (Outcome σ (α × Span))} {o : Outcome σ (α × Span)}
  {s : Outcomes σ ε ρ (α × Span)} {value : Option (α × Span)} {below : Frames σ ε ρ (α × Span)}

theorem Parser.Leaves.covers (h : p.spanned.Leaves G d (os ++ [o]) s st) :
    o.value.2 = ⟨d.position, o.cursor.position⟩ ∧ p.Covers G st o.value.2 := by
  obtain ⟨own, hown⟩ := h.delivers
  obtain ⟨os', s', hdelivers, hos⟩ := hown.of_spanning
  obtain ⟨before, last, rfl, rfl, hlast⟩ := List.append_eq_map_iff.mp hos
  obtain ⟨o', rfl, rfl⟩ := List.map_eq_singleton_iff.mp hlast
  exact ⟨rfl, d, before, o', s', own, h.parser.holds, hdelivers, rfl⟩

/-- **THE SPANS ON THE STACK** lead without a gap from the start to the frame on top. -/
theorem Frames.Stands.tile (h : (push s d value below).Stands G p.spanned c st os) :
    Span.Tile c.position (((push s d value below).values []).map Prod.snd) d.position ∧
      ∀ span ∈ ((push s d value below).values []).map Prod.snd,
        span.isEmpty = false ∧ p.Covers G st span := by
  generalize hframes : push s d value below = frames at h
  induction h generalizing s d value below with
  | root h =>
      cases hframes
      exact ⟨rfl, fun span hspan => absurd hspan List.not_mem_nil⟩
  | @upon _ _ o s t d value below h moved top ih =>
      cases hframes
      obtain ⟨htile, hspans⟩ := ih rfl
      obtain ⟨hspan, hcovers⟩ := h.top.covers
      rw [values_push, Option.toList_some, values_eq_append, List.map_append, List.map_singleton]
      constructor
      · rw [hspan]
        exact htile.snoc o.cursor.position
      · intro span hmem
        rcases List.mem_append.mp hmem with hmem | hmem
        · exact hspans span hmem
        · rw [List.mem_singleton.mp hmem]
          refine ⟨?_, hcovers⟩
          rw [hspan, ← Bool.not_eq_true, Span.isEmpty_iff]
          exact fun hsame => moved hsame.symm

/-- **THE SPANS OF A ROW**, and what else there is to be known of an outcome of a repetition. -/
theorem Frames.Behind.tile {frames : Frames σ ε ρ (α × Span)} {row : Outcome σ (List (α × Span))}
    (h : frames.Behind G p.spanned c st row) :
    Span.Tile c.position (row.value.map Prod.snd) row.cursor.position ∧
      (row.value = [] → row.cursor = c) ∧
      (∀ span ∈ (row.value.map Prod.snd).dropLast, span.isEmpty = false) ∧
      ∀ span ∈ row.value.map Prod.snd, p.Covers G st span := by
  cases h with
  | first => exact ⟨rfl, fun _ => rfl, nofun, nofun⟩
  | @last _ o _ h =>
      cases frames with
      | bottom => exact nomatch h
      | push s d value below =>
          obtain ⟨htile, hspans⟩ := h.tile
          obtain ⟨hspan, hcovers⟩ := h.top.covers
          dsimp only
          rw [values_eq_append, List.map_append, List.map_singleton]
          refine ⟨?_, ?_, ?_, ?_⟩
          · rw [hspan]
            exact htile.snoc o.cursor.position
          · intro hnil
            exact absurd hnil (by simp)
          · rw [List.dropLast_concat]
            exact fun span hmem => (hspans span hmem).1
          · intro span hmem
            rcases List.mem_append.mp hmem with hmem | hmem
            · exact (hspans span hmem).2
            · rw [List.mem_singleton.mp hmem]
              exact hcovers

/-- **SPANS TILE THE MATCH.** Callers who have got to a world by whatever steps start a repetition
    of items with their spans at one of their cursors, and pull it any number of times. In each
    outcome the spans lead from the start to the place of the outcome, each beginning where the one
    before it ends; no items leave the cursor at the start; and no span but perhaps the last is
    empty. If the outcomes of the items never lie behind where the items were started, the spans are
    in order, none runs backwards, and so all can be measured; the lengths add up to the distance
    from the start to the outcome. -/
theorem Parser.spans_tile {w : World σ ε} (hw : w.Reachable) (hG : G.Honest w.known)
    (hp : p.spanned.many.Honest w.known) (hc : c ∈ w.cursors)
    {os : List (Outcome σ (List (α × Span)))} {r : Outcomes σ ε ρ (List (α × Span))}
    (hdelivers : p.spanned.many.Delivers G c w.store os r st ∨
      p.spanned.many1.Delivers G c w.store os r st) {o : Outcome σ (List (α × Span))} (ho : o ∈ os) :
    let spans := o.value.map Prod.snd
    Span.Tile c.position spans o.cursor.position ∧ (o.value = [] → o.cursor = c) ∧
      (∀ span ∈ spans.dropLast, span.isEmpty = false) ∧
      ((∀ d found x s st', st.Holds d → p.Delivers G d st (found ++ [x]) s st' →
          d.position ≤ x.cursor.position) →
        (∀ span ∈ spans, span.start ≤ span.stop) ∧
        spans.Pairwise (fun earlier later => earlier.stop ≤ later.start) ∧
        ∃ n, Span.totalLength spans = .ok n ∧ c.position + n = o.cursor.position) := by
  have hparser : p.spanned.Sound G c w.store := hw.sound.parser hG hp.1 hc
  have hrow : ∃ frames, Frames.Behind G p.spanned c st o frames := by
    rcases hdelivers with h | h <;>
    · obtain ⟨-, -, hrows⟩ := hparser.delivers_rows h
      obtain ⟨row, frames, rfl, hbehind⟩ := hrows o ho
      exact ⟨frames, hbehind⟩
  obtain ⟨frames, hbehind⟩ := hrow
  obtain ⟨htile, hempty, hlast, hcovers⟩ := hbehind.tile
  refine ⟨htile, hempty, hlast, ?_⟩
  intro hback
  have hforward : ∀ span ∈ o.value.map Prod.snd, span.start ≤ span.stop := by
    intro span hspan
    obtain ⟨d, found, o', s, own, hd, hown, rfl⟩ := hcovers span hspan
    exact hback d found o' s own hd hown
  exact ⟨hforward, htile.pairwise hforward, htile.totalLength hforward⟩

omit [Carrier σ] in
/-- Pulls without anything in between are part of the life of a sequence. -/
theorem Outcomes.Becomes.yields {s₀ s s' : Outcomes σ ε ρ α} {st₀ : Store σ ε}
    {os : List (Outcome σ α)} (h : s₀.Becomes G st₀ s st) (hyields : s.Yields G st os s' st') :
    s₀.Becomes G st₀ s' st' := by
  induction hyields with
  | nil => exact h
  | cons first _ ih => exact ih (.pull h first)

omit [Carrier σ] in
theorem Parser.Delivers.finds {found : List (Outcome σ α)} {o : Outcome σ α}
    {s : Outcomes σ ε ρ α} (h : p.Delivers G d st (found ++ [o]) s st') :
    p.Finds G d st o st' := by
  obtain ⟨s₀, st₀, hstart, hyields⟩ := h
  obtain ⟨s₁, st₁, hfound, hlast⟩ := hyields.split
  obtain _ | ⟨hpulled, hrest⟩ := hlast
  cases hrest
  exact ⟨s₀, s₁, s, st₀, st₁, hstart, Outcomes.Becomes.unchanged.yields hfound, hpulled⟩

/-- Parsers that go on from where they were started give no outcome behind it. -/
theorem Job.Forward.position_le (h : (Job.start p d st).Forward G) {found : List (Outcome σ α)}
    {o : Outcome σ α} {s : Outcomes σ ε ρ α} (hdelivers : p.Delivers G d st (found ++ [o]) s st') :
    d.position ≤ o.cursor.position := by
  obtain ⟨hintact, hd, ho, hreaches⟩ := h.finds hdelivers.finds
  obtain ⟨k, -, hposition⟩ := hintact.exists_advanceBy hd ho hreaches
  exact Nat.le.intro hposition

end

/-- The spans of two items, the longest row that they make. -/
theorem Parser.item_spans_tile :
    let c : Cursor Nat := ⟨0, 0, 0, some 7⟩
    let spans : List Span := [⟨0, 1⟩, ⟨1, 2⟩]
    let o : Outcome Nat (List (Nat × Span)) := ⟨[7, 8].zip spans, ⟨0, 2, 2, none⟩⟩
    let p : Parser Nat Unit (fun _ => Empty) Nat := .item
    ∃ os r st, p.spanned.many.Delivers .empty c World.pair.store os r st ∧ o ∈ os ∧
      (∀ d found x s st', st.Holds d → p.Delivers .empty d st (found ++ [x]) s st' →
        d.position ≤ x.cursor.position) ∧
      Span.Tile 0 spans 2 ∧ ∃ n, Span.totalLength spans = .ok n ∧ 0 + n = 2 := by
  intro c spans o p
  let _ : Carrier Nat := .none
  have hplain : p.spanned.many.Plain := trivial
  have hlist : p.spanned.many.enumerate .empty [7, 8] 5 0 =
      some [([7, 8].zip spans, 2), ([(7, ⟨0, 1⟩)], 1), ([], 0)] := by decide
  obtain ⟨s, st₀, st, hstart, hanswers, -⟩ := p.spanned.many.pulls_enumeration
    World.reachable_pair (List.mem_singleton.mpr rfl) rfl (fun j _ => Source.answer_ofList [7, 8] j)
    .empty hlist
  let os : List (Outcome Nat (List (Nat × Span))) :=
    [o, ⟨[(7, ⟨0, 1⟩)], ⟨0, 1, 1, some 8⟩⟩, ⟨[], c⟩]
  have hos : s.answers .empty (os.length + 1) st₀ = .done (os.map some ++ [none]) st := hanswers
  obtain ⟨r, st₁, hyields, -⟩ := Outcomes.yields_of_answers hos
  have hdelivers : p.spanned.many.Delivers .empty c World.pair.store os r st₁ :=
    ⟨s, st₀, hstart, hyields⟩
  have hmany : p.spanned.many.Sound .empty c World.pair.store := World.reachable_pair.sound.parser
    (fun _ r => r.elim) (hplain.honest _) (List.mem_singleton.mpr rfl)
  have hintact := (hmany.delivers hdelivers).1.intact
  have hback (d : Cursor Nat) (found) (x : Outcome Nat Nat) (s) (st') (hd : st₁.Holds d)
      (h : p.Delivers .empty d st₁ (found ++ [x]) s st') : d.position ≤ x.cursor.position := by
    have hitem : p.Plain := trivial
    have hforward : (Job.start p d st₁).Forward .empty :=
      ⟨⟨hintact, fun _ r => r.elim, hitem.honest _, hd⟩, fun _ r => r.elim, trivial⟩
    exact hforward.position_le h
  obtain ⟨htile, -, -, hmeasure⟩ := spans_tile World.reachable_pair (fun _ r => r.elim)
    (hplain.honest _) (List.mem_singleton.mpr rfl) (Or.inl hdelivers) (List.mem_cons_self ..)
  obtain ⟨-, -, hlength⟩ := hmeasure hback
  exact ⟨os, r, st₁, hdelivers, List.mem_cons_self .., hback, htile, hlength⟩

end Backtrack
