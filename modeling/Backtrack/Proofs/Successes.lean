import Backtrack.Enumeration
import Backtrack.Proofs.Rows
import Backtrack.Proofs.World
import Mathlib.Data.List.Forall2

/-!
# Successes — a sequence pulled to its end

`Parser.enumerate` lists what a parser finds on a finite input, with nothing to pull and no store.
This file shows that where the list exists, pulling delivers it: in its order, with its
multiplicities, and with the cursors of the chain at its end positions.

A suspended sequence may be left alone for a while, and meanwhile the source may be read further by
others. So `Outcomes.Lists` says what a sequence delivers from any store that has the source read
far enough. It has one lemma for each kind of sequence, by induction on the list that is left; for a
repetition the list of the topmost occurrence is used up first, and then that of the row below.
-/

namespace Backtrack

open Store

variable {σ ε : Type} {ρ : Type → Type} {α β γ : Type}

/-- The source answers with the symbols of `input` and then with nothing; what it would answer to
    further reads is left open. -/
def Source.Delivers (source : Source σ) (input : List σ) : Prop :=
  ∀ j ≤ input.length, source.answer j = input[j]?

theorem Source.delivers_ofList (input : List σ) : (ofList input).Delivers input :=
  fun j _ => answer_ofList input j

/-- The store is intact, knows the source by the number `i`, and has read it at least `m` times. -/
structure Store.Feeds (source : Source σ) (i m : Nat) (st : Store σ ε) : Prop where
  intact : st.Intact
  source : st.source? i = some source
  reads  : m ≤ st.readsOf i

/-- Pulling the sequence delivers exactly this list, values and positions, from any store that has
    the source read at least `m` times. -/
def Outcomes.Lists (G : Grammar σ ε ρ) (source : Source σ) (i : Nat) :
    Outcomes σ ε ρ α → Nat → List (α × Nat) → Prop
  | s, m, []          => ∀ st, Feeds source i m st → ∃ rest st',
      s.pulled G st = .done ⟨none, rest⟩ st' ∧ Feeds source i (st.readsOf i) st'
  | s, m, (a, j) :: l => ∀ st, Feeds source i m st → ∃ rest st',
      s.pulled G st = .done ⟨some ⟨a, source.cursorAt i j⟩, rest⟩ st' ∧
      Feeds source i (max (st.readsOf i) (j + 1)) st' ∧ rest.Lists G source i (st'.readsOf i) l

/-- Starting the parser at position `j` gives a sequence that delivers exactly this list. -/
def Parser.Lists (G : Grammar σ ε ρ) (source : Source σ) (i : Nat) (p : Parser σ ε ρ α) (j : Nat)
    (l : List (α × Nat)) : Prop :=
  ∀ st, Feeds source i (j + 1) st → ∃ s st',
    p.started G (source.cursorAt i j) st = .done s st' ∧ Feeds source i (st.readsOf i) st' ∧
    s.Lists G source i (st'.readsOf i) l

/-! ## Stores that feed -/

section

variable {source : Source σ} {i m m' j : Nat} {st st' : Store σ ε}

theorem Store.Feeds.mono (h : Feeds source i m st) (hm : m' ≤ m) : Feeds source i m' st :=
  ⟨h.intact, h.source, Nat.le_trans hm h.reads⟩

theorem Store.Feeds.self (h : Feeds source i m st) : Feeds source i (st.readsOf i) st :=
  ⟨h.intact, h.source, Nat.le_refl _⟩

theorem Store.Feeds.spends (h : Feeds source i m st) {demand : Nat → Nat} {notes : List ε}
    (hspends : st.Spends demand notes st') :
    Feeds source i (max (st.readsOf i) (demand i)) st' where
  intact := hspends.intact
  source := (hspends.sources i).trans h.source
  reads := Nat.le_of_eq (hspends.reads i).symm

theorem Store.Feeds.remark (h : Feeds source i m st) (notes : List ε) :
    Feeds source i (st.readsOf i) (st.remark notes) :=
  (h.spends (h.intact.spends_remark notes)).mono (Nat.le_max_left _ _)

/-- There is no read behind the end of the input. -/
theorem Store.Feeds.le_length {input : List σ} (hinput : source.Delivers input)
    (h : Feeds source i (j + 1) st) : j ≤ input.length := by
  refine Nat.le_of_not_lt fun hj => ?_
  have hreads := h.reads
  have hsymbol := h.intact.isSome_answer h.source (j := input.length) (by omega)
  rw [hinput _ (Nat.le_refl _), List.getElem?_eq_none (Nat.le_refl _)] at hsymbol
  exact nomatch hsymbol

/-- As far as the source has been read, it has answered with the input. -/
theorem Store.Feeds.answer_eq {input : List σ} (hinput : source.Delivers input)
    (h : Feeds source i (j + 1) st) : source.answer j = input[j]? :=
  hinput j (h.le_length hinput)

/-- A source that is taken up is known by the next number, and has been read once. -/
theorem Store.Intact.feeds_attach (h : st.Intact) (source : Source σ) :
    Feeds source st.chains.size 1 (st.attach source).2 := by
  refine ⟨(h.attach source).1, source?_attach_size st source, ?_⟩
  rw [readsOf, getElem?_chains_attach, if_pos rfl]
  exact Nat.le_refl 1

theorem World.feeds_facing (symbols : List σ) :
    Feeds (.ofList symbols) 0 1 (World.facing symbols : World σ ε).store :=
  (intact_empty : (Store.empty : Store σ ε).Intact).feeds_attach (.ofList symbols)

/-- A cursor that callers have is the one at its position, and the source has been read that far. -/
theorem World.Sound.feeds [Carrier σ] {w : World σ ε} (hw : w.Sound) {c : Cursor σ}
    (hc : c ∈ w.cursors) {chain : Chain σ} (hchain : w.store.chains[c.source]? = some chain) :
    c = chain.source.cursorAt c.source c.position ∧
      Feeds chain.source c.source (c.position + 1) w.store := by
  obtain ⟨source, hsource, hnode, hcursor⟩ := hw.intact.holds_iff.mp (hw.cursors c hc)
  have hposition : c.position = c.node := congrArg Cursor.position hcursor
  obtain rfl : chain.source = source := by
    rw [source?, hchain] at hsource
    exact Option.some.inj hsource
  rw [hposition]
  exact ⟨hcursor, hw.intact, hsource, hnode⟩

end

theorem Call.result_eq_of_toOption {call : Call ε β} {b : β} (h : call.result.toOption = some b) :
    call.result = .ok b := by
  cases hresult : call.result with
  | ok b' =>
      rw [hresult] at h
      rw [Option.some.inj h]
  | error x =>
      rw [hresult] at h
      exact nomatch h

/-- A call that returns. -/
theorem Call.run_eq_done {call : Call ε β} {b : β} (h : call.result = .ok b) (st : Store σ ε) :
    call.run st = .done b (st.remark call.notes) := by
  rw [Call.run, h]

theorem concatMap?_cons_eq_some_iff {f : α → Option (List β)} {a : α} {as : List α} {cs : List β} :
    concatMap? f (a :: as) = some cs ↔
      ∃ bs bs', f a = some bs ∧ concatMap? f as = some bs' ∧ cs = bs ++ bs' := by
  rw [concatMap?, Option.bind_eq_some_iff]
  constructor
  · rintro ⟨bs, hbs, hmap⟩
    obtain ⟨bs', hbs', rfl⟩ := Option.map_eq_some_iff.mp hmap
    exact ⟨bs, bs', hbs, hbs', rfl⟩
  · rintro ⟨bs, bs', hbs, hbs', rfl⟩
    exact ⟨bs, hbs, Option.map_eq_some_iff.mpr ⟨bs', hbs', rfl⟩⟩

namespace Outcomes

variable {G : Grammar σ ε ρ} {source : Source σ} {i m m' j : Nat}

/-! ## One lemma for each kind of sequence -/

theorem Lists.mono {s : Outcomes σ ε ρ α} {l : List (α × Nat)} (h : s.Lists G source i m l)
    (hm : m ≤ m') : s.Lists G source i m' l := by
  cases l with
  | nil => exact fun st hst => h st (hst.mono hm)
  | cons x l => exact fun st hst => h st (hst.mono hm)

/-- A sequence that first does something else and then answers like another one delivers what that
    one delivers. -/
theorem Lists.of_pulled {s : Outcomes σ ε ρ α} {l : List (α × Nat)}
    (h : ∀ st, Feeds source i m st → ∃ (t : Outcomes σ ε ρ α) (st' : Store σ ε),
      s.pulled G st = t.pulled G st' ∧ Feeds source i (st.readsOf i) st' ∧
      t.Lists G source i (st'.readsOf i) l) :
    s.Lists G source i m l := by
  cases l with
  | nil =>
      intro st hst
      obtain ⟨t, st', hpulled, hst', ht⟩ := h st hst
      obtain ⟨rest, st'', hrest, hst''⟩ := ht st' hst'.self
      exact ⟨rest, st'', hpulled.trans hrest, hst''.mono hst'.reads⟩
  | cons x l =>
      intro st hst
      obtain ⟨t, st', hpulled, hst', ht⟩ := h st hst
      obtain ⟨rest, st'', hrest, hst'', hl⟩ := ht st' hst'.self
      refine ⟨rest, st'', hpulled.trans hrest, hst''.mono ?_, hl⟩
      have hreads := hst'.reads
      omega

theorem lists_empty : (empty : Outcomes σ ε ρ α).Lists G source i m [] :=
  fun st hst => ⟨_, st, pulled_ready_nil G st, hst.self⟩

theorem lists_ready {a : α} (hj : j < m) :
    (ready [⟨a, source.cursorAt i j⟩] : Outcomes σ ε ρ α).Lists G source i m [(a, j)] := by
  intro st hst
  have hreads := hst.reads
  refine ⟨_, st, pulled_ready_cons G st _ _, hst.self.mono ?_, lists_empty⟩
  omega

theorem lists_consuming (f : σ → α) (hj : j < m) :
    (consuming f (source.cursorAt i j) : Outcomes σ ε ρ α).Lists G source i m
      ((source.answer j).elim [] fun x => [(f x, j + 1)]) := by
  have hcurrent : (source.cursorAt i j).current = source.answer j := rfl
  cases hx : source.answer j with
  | none =>
      intro st hst
      refine ⟨.empty, st, ?_, hst.self⟩
      rw [pulled_consuming, hcurrent, hx]
  | some x =>
      intro st hst
      have hreads := hst.reads
      obtain ⟨hfound, hspends⟩ := hst.intact.advance_spec hst.source (j := j) (by omega)
      have hdemand : source.demand i j i = j + 2 := if_pos ⟨rfl, by rw [hx]; rfl⟩
      refine ⟨.empty, (st.advance (source.cursorAt i j)).2, ?_, (hst.spends hspends).mono ?_,
        lists_empty⟩
      · rw [pulled_consuming, hcurrent, hx]
        dsimp only
        rw [hfound, Source.next?, hx]
        rfl
      · omega

/-- Changing each outcome by a call that returns. The new place may also be one from before. -/
theorem Lists.mapped {f : Outcome σ α → Call ε (Outcome σ β)} {l : List (α × Nat)}
    {l' : List (β × Nat)} {m₀ : Nat}
    (hl : List.Forall₂ (fun x y =>
      (f ⟨x.1, source.cursorAt i x.2⟩).result = .ok ⟨y.1, source.cursorAt i y.2⟩ ∧
        (y.2 = x.2 ∨ y.2 < m₀)) l l') :
    ∀ {s : Outcomes σ ε ρ α} {m : Nat}, m₀ ≤ m → s.Lists G source i m l →
      (Outcomes.mapped f s).Lists G source i m l' := by
  induction hl with
  | nil =>
      intro s m hm h st hst
      obtain ⟨rest, st', hpulled, hst'⟩ := h st hst
      refine ⟨.mapped f rest, st', ?_, hst'⟩
      rw [pulled_mapped, hpulled]
      rfl
  | @cons x y l l' hxy _ ih =>
      intro s m hm h st hst
      obtain ⟨a, j⟩ := x
      obtain ⟨b, k⟩ := y
      obtain ⟨hcall, hplace⟩ := hxy
      obtain ⟨rest, st', hpulled, hst', hrest⟩ := h st hst
      -- the call is made after the pull inside, and only leaves remarks
      have hremark := hst'.remark (f ⟨a, source.cursorAt i j⟩).notes
      have hreads := hst.reads
      have hreads' := hst'.reads
      have hreads'' := hremark.reads
      refine ⟨.mapped f rest, _, ?_, hremark.mono ?_, ih ?_ (hrest.mono hreads'')⟩
      · rw [pulled_mapped, hpulled]
        show ((f ⟨a, source.cursorAt i j⟩).run st').bind _ = _
        rw [Call.run_eq_done hcall]
        rfl
      · dsimp only at hplace
        omega
      · omega

/-- Keeping the outcomes that pass a test which returns. -/
theorem Lists.filtered {test : Outcome σ α → Call ε Bool} {l : List (α × Nat)} :
    ∀ {l' : List (α × Nat)} {s : Outcomes σ ε ρ α} {m : Nat}, s.Lists G source i m l →
      concatMap? (fun x => (test ⟨x.1, source.cursorAt i x.2⟩).result.toOption.map fun ok =>
        if ok then [x] else []) l = some l' →
      (Outcomes.filtered test s).Lists G source i m l' := by
  induction l with
  | nil =>
      intro l' s m h hl
      obtain rfl := Option.some.inj hl
      intro st hst
      obtain ⟨rest, st', hpulled, hst'⟩ := h st hst
      refine ⟨.filtered test rest, st', ?_, hst'⟩
      rw [pulled_filtered, hpulled]
      rfl
  | cons x l ih =>
      obtain ⟨a, j⟩ := x
      intro l' s m h hl
      obtain ⟨kept, l'', hkept, hl'', rfl⟩ := concatMap?_cons_eq_some_iff.mp hl
      obtain ⟨ok, hok, rfl⟩ := Option.map_eq_some_iff.mp hkept
      have hcall := Call.result_eq_of_toOption hok
      -- the pull inside and the test; what comes of it is a matter of `ok`
      have hpull : ∀ st, Feeds source i m st → ∃ rest st',
          (Outcomes.filtered test s).pulled G st =
            (if ok then .done ⟨some ⟨a, source.cursorAt i j⟩, .filtered test rest⟩ st'
              else (Outcomes.filtered test rest).pulled G st') ∧
          Feeds source i (max (st.readsOf i) (j + 1)) st' ∧
          rest.Lists G source i (st'.readsOf i) l := by
        intro st hst
        obtain ⟨rest, st', hpulled, hst', hrest⟩ := h st hst
        have hremark := hst'.remark (test ⟨a, source.cursorAt i j⟩).notes
        refine ⟨rest, _, ?_, hremark.mono hst'.reads, hrest.mono hremark.reads⟩
        rw [pulled_filtered, hpulled]
        show ((test ⟨a, source.cursorAt i j⟩).run st').bind _ = _
        rw [Call.run_eq_done hcall]
        rfl
      cases ok with
      | true =>
          intro st hst
          obtain ⟨rest, st', hpulled, hst', hrest⟩ := hpull st hst
          exact ⟨_, st', hpulled, hst', ih hrest hl''⟩
      | false =>
          refine Lists.of_pulled ?_
          intro st hst
          obtain ⟨rest, st', hpulled, hst', hrest⟩ := hpull st hst
          exact ⟨_, st', hpulled, hst'.mono (Nat.le_max_left _ _), ih hrest hl''⟩

/-- A sequence with nothing waiting behind it. -/
theorem Lists.chained_nil {l : List (α × Nat)} : ∀ {s : Outcomes σ ε ρ α} {m : Nat},
    s.Lists G source i m l → (chained s []).Lists G source i m l := by
  induction l with
  | nil =>
      intro s m h st hst
      obtain ⟨rest, st', hpulled, hst'⟩ := h st hst
      refine ⟨.empty, st', ?_, hst'⟩
      rw [pulled_chained, hpulled]
      rfl
  | cons x l ih =>
      intro s m h st hst
      obtain ⟨rest, st', hpulled, hst', hrest⟩ := h st hst
      refine ⟨.chained rest [], st', ?_, hst', ih hrest⟩
      rw [pulled_chained, hpulled]
      rfl

/-- A sequence with a parser waiting behind it: when the one is spent the other is started. -/
theorem Lists.chained_cons {p : Parser σ ε ρ α} {waiting : List (Parser σ ε ρ α × Cursor σ)}
    {l' l'' : List (α × Nat)} (hp : p.Lists G source i j l')
    (hwaiting : ∀ {s : Outcomes σ ε ρ α} {m : Nat}, j < m → s.Lists G source i m l' →
      (chained s waiting).Lists G source i m l'') {l : List (α × Nat)} :
    ∀ {s : Outcomes σ ε ρ α} {m : Nat}, j < m → s.Lists G source i m l →
      (chained s ((p, source.cursorAt i j) :: waiting)).Lists G source i m (l ++ l'') := by
  induction l with
  | nil =>
      intro s m hj h
      refine Lists.of_pulled ?_
      intro st hst
      obtain ⟨rest, st', hpulled, hst'⟩ := h st hst
      have hreads := hst.reads
      have hreads' := hst'.reads
      obtain ⟨t, st'', hstarted, hst'', ht⟩ := hp st' (hst'.self.mono (by omega))
      have hreads'' := hst''.reads
      refine ⟨chained t waiting, st'', ?_, hst''.mono hreads', hwaiting (by omega) ht⟩
      rw [pulled_chained, hpulled]
      show (p.started G _ st').bind _ = _
      rw [hstarted]
      rfl
  | cons x l ih =>
      intro s m hj h st hst
      obtain ⟨rest, st', hpulled, hst', hrest⟩ := h st hst
      have hreads := hst.reads
      have hreads' := hst'.reads
      refine ⟨.chained rest _, st', ?_, hst', ih (by omega) hrest⟩
      rw [pulled_chained, hpulled]
      rfl

/-- A parser to be started at the first pull. -/
theorem lists_deferred {p : Parser σ ε ρ α} {l : List (α × Nat)} (hp : p.Lists G source i j l)
    (hj : j < m) : (deferred p (source.cursorAt i j)).Lists G source i m l :=
  Lists.chained_cons hp (fun _ => Lists.chained_nil) hj lists_empty

/-- The inner sequence comes first; what follows is settled by the case that it is spent. -/
theorem Lists.bound_inner {next : α → Parser σ ε ρ β} {outer : Outcomes σ ε ρ α}
    {l' : List (β × Nat)} {m₀ : Nat}
    (hspent : ∀ {inner : Outcomes σ ε ρ β} {m : Nat}, m₀ ≤ m → inner.Lists G source i m [] →
      (bound next outer inner).Lists G source i m l') {l : List (β × Nat)} :
    ∀ {inner : Outcomes σ ε ρ β} {m : Nat}, m₀ ≤ m → inner.Lists G source i m l →
      (bound next outer inner).Lists G source i m (l ++ l') := by
  induction l with
  | nil => exact hspent
  | cons y l ih =>
      intro inner m hm hinner st hst
      obtain ⟨rest, st', hpulled, hst', hrest⟩ := hinner st hst
      have hreads := hst.reads
      have hreads' := hst'.reads
      refine ⟨.bound next outer rest, st', ?_, hst', ih (by omega) hrest⟩
      rw [pulled_bound, hpulled]
      rfl

/-- Going on behind each outcome with the parser that its value chooses. -/
theorem Lists.bound {next : α → Parser σ ε ρ β} {g : α × Nat → Option (List (β × Nat))}
    (hnext : ∀ a j l, g (a, j) = some l → (next a).Lists G source i j l) {l : List (α × Nat)} :
    ∀ {l' : List (β × Nat)} {outer : Outcomes σ ε ρ α} {inner : Outcomes σ ε ρ β} {m : Nat},
      concatMap? g l = some l' → outer.Lists G source i m l → inner.Lists G source i m [] →
      (Outcomes.bound next outer inner).Lists G source i m l' := by
  induction l with
  | nil =>
      intro l' outer inner m hl houter hinner
      obtain rfl := Option.some.inj hl
      intro st hst
      obtain ⟨rest, st₁, hinner', hst₁⟩ := hinner st hst
      obtain ⟨rest', st₂, houter', hst₂⟩ := houter st₁ (hst₁.mono hst.reads)
      refine ⟨.empty, st₂, ?_, hst₂.mono hst₁.reads⟩
      rw [pulled_bound, hinner']
      show (outer.pulled G st₁).bind _ = _
      rw [houter']
      rfl
  | cons x l ih =>
      obtain ⟨a, j⟩ := x
      intro l' outer inner m hl houter hinner
      obtain ⟨first, l'', hfirst, hl'', rfl⟩ := concatMap?_cons_eq_some_iff.mp hl
      refine Lists.of_pulled ?_
      intro st hst
      obtain ⟨rest, st₁, hinner', hst₁⟩ := hinner st hst
      obtain ⟨outer', st₂, houter', hst₂, hrest⟩ := houter st₁ (hst₁.mono hst.reads)
      obtain ⟨t, st₃, hstarted, hst₃, ht⟩ :=
        hnext a j first hfirst st₂ (hst₂.mono (Nat.le_max_right _ _))
      have hreads₁ := hst₁.reads
      have hreads₂ := hst₂.reads
      have hreads₃ := hst₃.reads
      refine ⟨.bound next outer' t, st₃, ?_, hst₃.mono (by omega),
        Lists.bound_inner (fun hm hspent => ih hl'' (hrest.mono hm) hspent) hreads₃ ht⟩
      rw [pulled_bound, hinner']
      show (outer.pulled G st₁).bind _ = _
      rw [houter']
      show ((next a).started G _ st₂).bind _ = _
      rw [hstarted]
      rfl

/-- The same for a pair: the inner sequence goes with the value held. -/
theorem Lists.paired_inner {f : α → β → γ} {q : Parser σ ε ρ β} {outer : Outcomes σ ε ρ α} {a : α}
    {l' : List (γ × Nat)} {m₀ : Nat}
    (hspent : ∀ {m : Nat}, m₀ ≤ m → (paired f q outer none .empty).Lists G source i m l')
    {l : List (β × Nat)} :
    ∀ {inner : Outcomes σ ε ρ β} {m : Nat}, m₀ ≤ m → inner.Lists G source i m l →
      (paired f q outer (some a) inner).Lists G source i m
        (l.map (fun y => (f a y.1, y.2)) ++ l') := by
  induction l with
  | nil =>
      intro inner m hm hinner
      refine Lists.of_pulled ?_
      intro st hst
      obtain ⟨rest, st', hpulled, hst'⟩ := hinner st hst
      have hreads := hst.reads
      have hreads' := hst'.reads
      refine ⟨.paired f q outer none .empty, st', ?_, hst', hspent (by omega)⟩
      rw [pulled_paired_some, hpulled]
      rfl
  | cons y l ih =>
      intro inner m hm hinner st hst
      obtain ⟨rest, st', hpulled, hst', hrest⟩ := hinner st hst
      have hreads := hst.reads
      have hreads' := hst'.reads
      refine ⟨.paired f q outer (some a) rest, st', ?_, hst', ih (by omega) hrest⟩
      rw [pulled_paired_some, hpulled]
      rfl

/-- Going on behind each outcome with one and the same parser, and combining the values. -/
theorem Lists.paired {f : α → β → γ} {q : Parser σ ε ρ β} {g : Nat → Option (List (β × Nat))}
    (hq : ∀ j l, g j = some l → q.Lists G source i j l) {l : List (α × Nat)} :
    ∀ {l' : List (γ × Nat)} {outer : Outcomes σ ε ρ α} {m : Nat},
      concatMap? (fun x => (g x.2).map (List.map fun y => (f x.1 y.1, y.2))) l = some l' →
      outer.Lists G source i m l →
      (Outcomes.paired f q outer none .empty).Lists G source i m l' := by
  induction l with
  | nil =>
      intro l' outer m hl houter
      obtain rfl := Option.some.inj hl
      intro st hst
      obtain ⟨rest, st', hpulled, hst'⟩ := houter st hst
      refine ⟨.empty, st', ?_, hst'⟩
      rw [pulled_paired_none, hpulled]
      rfl
  | cons x l ih =>
      obtain ⟨a, j⟩ := x
      intro l' outer m hl houter
      obtain ⟨first, l'', hfirst, hl'', rfl⟩ := concatMap?_cons_eq_some_iff.mp hl
      obtain ⟨found, hfound, rfl⟩ := Option.map_eq_some_iff.mp hfirst
      refine Lists.of_pulled ?_
      intro st hst
      obtain ⟨outer', st₁, hpulled, hst₁, hrest⟩ := houter st hst
      obtain ⟨t, st₂, hstarted, hst₂, ht⟩ :=
        hq j found hfound st₁ (hst₁.mono (Nat.le_max_right _ _))
      have hreads₁ := hst₁.reads
      have hreads₂ := hst₂.reads
      refine ⟨.paired f q outer' (some a) t, st₂, ?_, hst₂.mono (by omega),
        Lists.paired_inner (fun hm => ih hl'' (hrest.mono hm)) hreads₂ ht⟩
      rw [pulled_paired_none, hpulled]
      show (q.started G _ st₁).bind _ = _
      rw [hstarted]
      rfl

section

variable {least : Nat} {f : List α → β} {p : Parser σ ε ρ α}

variable (G source i least f p) in
/-- Putting an occurrence at position `j` on top of any row that reads `row` with it, the repetition
    delivers the rows of this list and then what it would have delivered without. -/
def Descends (row : List α) (j : Nat) (found : List (List α × Nat)) : Prop :=
  ∀ (value : Option α) (below : Frames σ ε ρ α) {l : List (β × Nat)} {m : Nat},
    (∀ s c, (Frames.push s c value below).values [] = row) →
    (repeating least f p none below).Lists G source i m l →
    ∀ st, Feeds source i (max m (j + 1)) st → ∃ t st',
      p.started G (source.cursorAt i j) st = .done t st' ∧ Feeds source i (st.readsOf i) st' ∧
      (repeating least f p none (.push t (source.cursorAt i j) value below)).Lists G source i
        (st'.readsOf i) (found.map (fun y => (f y.1, y.2)) ++ l)

/-- What the topmost occurrence has left is used up first, each outcome with all that extends it;
    then comes the row itself, unless it is too short, and then the row below. -/
theorem Lists.repeating_push {deeper : List α → Nat → Option (List (List α × Nat))}
    (hdeeper : ∀ row j found, deeper row j = some found →
      Descends G source i least f p row j found)
    {row : List α} {value : Option α} {below : Frames σ ε ρ α} {l' : List (β × Nat)} {m₀ : Nat}
    (hrow : ∀ s c, (Frames.push s c value below).values [] = row)
    (hbelow : (repeating least f p none below).Lists G source i m₀ l') (hj : j < m₀)
    {l : List (α × Nat)} :
    ∀ {longer : List (List α × Nat)} {s : Outcomes σ ε ρ α} {m : Nat}, m₀ ≤ m →
      concatMap? (fun x => if x.2 = j then some [(row ++ [x.1], x.2)]
        else deeper (row ++ [x.1]) x.2) l = some longer → s.Lists G source i m l →
      (repeating least f p none (.push s (source.cursorAt i j) value below)).Lists G source i m
        ((longer ++ if least ≤ row.length then [(row, j)] else []).map (fun y => (f y.1, y.2))
          ++ l') := by
  induction l with
  | nil =>
      intro longer s m hm hl hs
      obtain rfl := Option.some.inj hl
      -- no more occurrences here: the row itself comes, or at once the row below
      by_cases hlong : least ≤ row.length
      · rw [if_pos hlong]
        intro st hst
        obtain ⟨rest, st', hpulled, hst'⟩ := hs st hst
        have hreads := hst.reads
        have hreads' := hst'.reads
        refine ⟨.repeating least f p none below, st', ?_, hst'.self.mono ?_,
          hbelow.mono (by omega)⟩
        · rw [pulled_repeating_push, hpulled]
          dsimp only [Run.bind]
          rw [hrow, if_pos hlong]
        · omega
      · rw [if_neg hlong]
        refine Lists.of_pulled ?_
        intro st hst
        obtain ⟨rest, st', hpulled, hst'⟩ := hs st hst
        have hreads := hst.reads
        have hreads' := hst'.reads
        refine ⟨.repeating least f p none below, st', ?_, hst', hbelow.mono (by omega)⟩
        rw [pulled_repeating_push, hpulled]
        dsimp only [Run.bind]
        rw [hrow, if_neg hlong]
  | cons x l ih =>
      obtain ⟨a, k⟩ := x
      intro longer s m hm hl hs
      obtain ⟨first, longer', hfirst, hl', rfl⟩ := concatMap?_cons_eq_some_iff.mp hl
      have hvalues : ∀ s c, (Frames.push s c value below).values [a] = row ++ [a] := by
        intro s c
        rw [Frames.values_eq_append, hrow]
      have hstays : (source.cursorAt i k).position = (source.cursorAt i j).position ↔ k = j :=
        Iff.rfl
      by_cases hk : k = j
      · -- the occurrence has not moved, and its row ends
        rw [if_pos hk] at hfirst
        obtain rfl := Option.some.inj hfirst
        intro st hst
        obtain ⟨rest, st', hpulled, hst', hrest⟩ := hs st hst
        have hreads := hst.reads
        have hreads' := hst'.reads
        refine ⟨.repeating least f p none (.push rest (source.cursorAt i j) value below), st', ?_,
          hst', ih (by omega) hl' hrest⟩
        rw [pulled_repeating_push, hpulled]
        dsimp only [Run.bind]
        rw [if_pos (hstays.mpr hk), hvalues]
      · -- the occurrence has moved: its rows come before what is left of this one
        rw [if_neg hk] at hfirst
        refine Lists.of_pulled ?_
        intro st hst
        obtain ⟨rest, st₁, hpulled, hst₁, hrest⟩ := hs st hst
        have hreads := hst.reads
        have hreads₁ := hst₁.reads
        have hrest' := ih (by omega) hl' hrest
        obtain ⟨t, st₂, hstarted, hst₂, ht⟩ := hdeeper _ _ _ hfirst (some a)
          (.push rest (source.cursorAt i j) value below) (fun _ _ => hvalues rest _) hrest' st₁
          (hst₁.self.mono (by omega))
        refine ⟨.repeating least f p none (.push t (source.cursorAt i k) (some a)
          (.push rest (source.cursorAt i j) value below)), st₂, ?_, hst₂.mono (by omega), ?_⟩
        · rw [pulled_repeating_push, hpulled]
          dsimp only [Run.bind]
          rw [if_neg (hk ∘ hstays.mp), hstarted]
        · rw [List.append_assoc, List.map_append, List.append_assoc]
          exact ht

/-- All rows that go on from a row are delivered. -/
theorem descends {occurrences : Nat → Option (List (α × Nat))}
    (hoccurrences : ∀ j l, occurrences j = some l → p.Lists G source i j l) (n : Nat) :
    ∀ row j found, rows? occurrences least n row j = some found →
      Descends G source i least f p row j found := by
  induction n with
  | zero =>
      intro row j found h
      simp [rows?] at h
  | succ n ih =>
      intro row j found h value below l m hrow hbelow st hst
      obtain ⟨here, hhere, hmap⟩ := Option.bind_eq_some_iff.mp h
      obtain ⟨longer, hlonger, rfl⟩ := Option.map_eq_some_iff.mp hmap
      obtain ⟨t, st', hstarted, hst', ht⟩ :=
        hoccurrences j here hhere st (hst.mono (Nat.le_max_right _ _))
      have hreads := hst.reads
      have hreads' := hst'.reads
      refine ⟨t, st', hstarted, hst', ?_⟩
      exact Lists.repeating_push ih hrow (hbelow.mono (by omega)) (by omega) (Nat.le_refl _)
        hlonger ht

theorem lists_bottom : (repeating least f p none .bottom).Lists G source i m [] :=
  fun st hst => ⟨_, st, pulled_repeating_bottom G st least f p, hst.self⟩

end

end Outcomes

/-! ## Parsers -/

/-- A partial function that gives one item for each relates the two lists item by item. -/
theorem forall₂_of_concatMap? {g : α → Option (List β)} {R : α → β → Prop}
    (hg : ∀ x found, g x = some found → ∃ y, found = [y] ∧ R x y) :
    ∀ {l : List α} {l' : List β}, concatMap? g l = some l' → List.Forall₂ R l l'
  | [],     _, h => by
      obtain rfl := Option.some.inj h
      exact .nil
  | x :: l, _, h => by
      obtain ⟨first, l'', hfirst, hl, rfl⟩ := concatMap?_cons_eq_some_iff.mp h
      obtain ⟨y, rfl, hxy⟩ := hg x first hfirst
      exact .cons hxy (forall₂_of_concatMap? hg hl)

namespace Parser

variable {G : Grammar σ ε ρ} {source : Source σ} {i j : Nat}

/-- A parser whose outcomes are those of `p`, each changed by a call that returns. -/
theorem Lists.mapped {p : Parser σ ε ρ α} {q : Parser σ ε ρ β} {l : List (α × Nat)}
    {l' : List (β × Nat)} {f : Outcome σ α → Call ε (Outcome σ β)} (hp : p.Lists G source i j l)
    (hq : ∀ st, q.started G (source.cursorAt i j) st =
      (p.started G (source.cursorAt i j) st).bind fun s st => .done (.mapped f s) st)
    (hl : List.Forall₂ (fun x y =>
      (f ⟨x.1, source.cursorAt i x.2⟩).result = .ok ⟨y.1, source.cursorAt i y.2⟩ ∧
        (y.2 = x.2 ∨ y.2 < j + 1)) l l') : q.Lists G source i j l' := by
  intro st hst
  obtain ⟨s, st', hstarted, hst', hs⟩ := hp st hst
  have hreads := hst.reads
  have hreads' := hst'.reads
  refine ⟨.mapped f s, st', ?_, hst', Outcomes.Lists.mapped hl (by omega) hs⟩
  rw [hq, hstarted]
  rfl

/-- A test on the current symbol is made at the start; the symbol is consumed by the pull. -/
theorem lists_testSymbol {input : List σ} (hinput : source.Delivers input)
    {test : σ → Call ε Bool} {f : σ → α} {n : Nat} {l : List (α × Nat)}
    (h : (testSymbol test f : Parser σ ε ρ α).enumerate G input (n + 1) j = some l) :
    (testSymbol test f : Parser σ ε ρ α).Lists G source i j l := by
  intro st hst
  have hcurrent : (source.cursorAt i j).current = input[j]? := hst.answer_eq hinput
  rw [enumerate] at h
  rw [started_testSymbol, hcurrent]
  cases hx : input[j]? with
  | none =>
      rw [hx] at h
      obtain rfl := Option.some.inj h
      exact ⟨_, st, rfl, hst.self, Outcomes.lists_empty⟩
  | some x =>
      rw [hx] at h
      obtain ⟨ok, hok, rfl⟩ := Option.map_eq_some_iff.mp h
      have hremark := hst.remark (test x).notes
      refine ⟨if ok then .consuming f (source.cursorAt i j) else .empty, _, ?_, hremark, ?_⟩
      · dsimp only
        rw [Call.run_eq_done (Call.result_eq_of_toOption hok)]
        rfl
      · cases ok with
        | false => exact Outcomes.lists_empty
        | true =>
            have hanswer : source.answer j = some x := hcurrent.trans hx
            have hlists : (Outcomes.consuming f (source.cursorAt i j)).Lists G source i
              (st.readsOf i) _ := Outcomes.lists_consuming f hst.reads
            rw [hanswer] at hlists
            exact hlists.mono hremark.reads

theorem Lists.filter {test : α → Call ε Bool} {p : Parser σ ε ρ α} {found l : List (α × Nat)}
    (hp : p.Lists G source i j found)
    (hl : concatMap? (fun x => (test x.1).result.toOption.map fun ok => if ok then [x] else [])
      found = some l) : (p.filter test).Lists G source i j l := by
  intro st hst
  obtain ⟨s, st', hstarted, hst', hs⟩ := hp st hst
  refine ⟨.filtered (fun o => test o.value) s, st', ?_, hst', hs.filtered hl⟩
  rw [started_filter, hstarted]
  rfl

/-- A repetition puts its first occurrence on the empty row. -/
theorem lists_repetition {least : Nat} {f : List α → β} {p : Parser σ ε ρ α}
    {occurrences : Nat → Option (List (α × Nat))}
    (hoccurrences : ∀ j l, occurrences j = some l → p.Lists G source i j l) {n : Nat}
    {found : List (List α × Nat)} (hfound : rows? occurrences least n [] j = some found) :
    (repetition least f p).Lists G source i j (found.map fun y => (f y.1, y.2)) := by
  intro st hst
  have hreads := hst.reads
  refine ⟨_, st, started_repetition .., hst.self, Outcomes.Lists.of_pulled fun st' hst' => ?_⟩
  have hreads' := hst'.reads
  obtain ⟨t, st'', hstarted, hst'', ht⟩ := Outcomes.descends (f := f) hoccurrences n [] j found
    hfound none .bottom (fun _ _ => rfl) (Outcomes.lists_bottom (m := 0)) st'
    (hst'.mono (by omega))
  rw [List.append_nil] at ht
  refine ⟨_, st'', ?_, hst'', ht⟩
  rw [Outcomes.pulled_repeating_root, hstarted]
  rfl

/-- **ALL SUCCESSES.** Where the list of successes exists, the parser delivers it. -/
theorem lists_of_enumerate {input : List σ} (hinput : source.Delivers input) (n : Nat) :
    ∀ {α : Type} (p : Parser σ ε ρ α) (j : Nat) (l : List (α × Nat)),
      p.enumerate G input n j = some l → p.Lists G source i j l := by
  -- by induction on the depth: rule names make the parsers themselves go round
  induction n with
  | zero =>
      intro α p j l h
      simp [enumerate] at h
  | succ n ih =>
      intro α p j l h
      cases p with
      | unit a =>
          intro st hst
          obtain rfl := Option.some.inj h
          exact ⟨_, st, started_unit .., hst.self, Outcomes.lists_ready hst.reads⟩
      | fail =>
          intro st hst
          obtain rfl := Option.some.inj h
          exact ⟨_, st, started_fail .., hst.self, Outcomes.lists_empty⟩
      | anySymbol f =>
          intro st hst
          obtain rfl := Option.some.inj h
          rw [← hst.answer_eq hinput]
          exact ⟨_, st, started_anySymbol .., hst.self, Outcomes.lists_consuming f hst.reads⟩
      | testSymbol test f => exact lists_testSymbol hinput h
      | finish a =>
          intro st hst
          obtain rfl := Option.some.inj h
          have hcurrent : (source.cursorAt i j).current = input[j]? := hst.answer_eq hinput
          refine ⟨_, st, started_finish .., hst.self, ?_⟩
          rw [Cursor.isExhausted, hcurrent]
          cases input[j]? with
          | none => exact Outcomes.lists_ready hst.reads
          | some x => exact Outcomes.lists_empty
      | map f p =>
          obtain ⟨found, hfound, hl⟩ := Option.bind_eq_some_iff.mp h
          refine (ih p j found hfound).mapped (fun st => started_map ..) ?_
          refine forall₂_of_concatMap? (fun x here hhere => ?_) hl
          obtain ⟨b, hb, rfl⟩ := Option.map_eq_some_iff.mp hhere
          refine ⟨(b, x.2), rfl, ?_, Or.inl rfl⟩
          exact Call.result_map_eq_ok.mpr ⟨b, Call.result_eq_of_toOption hb, rfl⟩
      | filter test p =>
          obtain ⟨found, hfound, hl⟩ := Option.bind_eq_some_iff.mp h
          exact (ih p j found hfound).filter hl
      | bind p next =>
          obtain ⟨found, hfound, hl⟩ := Option.bind_eq_some_iff.mp h
          intro st hst
          refine ⟨_, st, started_bind .., hst.self, Outcomes.Lists.bound (fun a k l => ?_) hl
            (Outcomes.lists_deferred (ih p j found hfound) hst.reads) Outcomes.lists_empty⟩
          exact ih (next a) k l
      | seq f p q =>
          obtain ⟨found, hfound, hl⟩ := Option.bind_eq_some_iff.mp h
          intro st hst
          exact ⟨_, st, started_seq .., hst.self, Outcomes.Lists.paired (ih q) hl
            (Outcomes.lists_deferred (ih p j found hfound) hst.reads)⟩
      | or p q =>
          obtain ⟨first, hfirst, hmap⟩ := Option.bind_eq_some_iff.mp h
          obtain ⟨second, hsecond, rfl⟩ := Option.map_eq_some_iff.mp hmap
          intro st hst
          refine ⟨_, st, started_or .., hst.self, Outcomes.Lists.chained_cons (l := [])
            (ih p j first hfirst) ?_ hst.reads Outcomes.lists_empty⟩
          exact fun hj hs => hs.chained_cons (ih q j second hsecond)
            (fun _ => Outcomes.Lists.chained_nil) hj
      | repetition least f p =>
          obtain ⟨found, hfound, rfl⟩ := Option.map_eq_some_iff.mp h
          exact lists_repetition (ih p) hfound
      | spanning f p =>
          obtain ⟨found, hfound, rfl⟩ := Option.map_eq_some_iff.mp h
          refine (ih p j found hfound).mapped (fun st => started_spanning ..) ?_
          rw [List.forall₂_map_right_iff, List.forall₂_same]
          exact fun x _ => ⟨rfl, Or.inl rfl⟩
      | rule r =>
          intro st hst
          rw [started_rule]
          exact ih (G.body r) j l h st hst
      | remark notes p =>
          intro st hst
          have hremark := hst.remark (notes (source.cursorAt i j))
          obtain ⟨s, st', hstarted, hst', hs⟩ := ih p j l h _ (hremark.mono hst.reads)
          exact ⟨s, st', (started_remark ..).trans hstarted, hst'.mono hremark.reads, hs⟩
      | abort x => simp [enumerate] at h
      | lookahead p =>
          obtain ⟨found, hfound, rfl⟩ := Option.map_eq_some_iff.mp h
          refine (ih p j found hfound).mapped (fun st => started_lookahead ..) ?_
          rw [List.forall₂_map_right_iff, List.forall₂_same]
          exact fun x _ => ⟨rfl, Or.inr (Nat.lt_succ_self j)⟩
      | custom start => simp [enumerate] at h

end Parser

/-! ## To the end -/

/-- Pulling a sequence until it answers nothing. -/
theorem Outcomes.Lists.answers {G : Grammar σ ε ρ} {source : Source σ} {i : Nat}
    {l : List (α × Nat)} : ∀ {s : Outcomes σ ε ρ α} {m : Nat} {st : Store σ ε},
    s.Lists G source i m l → Feeds source i m st →
    ∃ st', s.answers G (l.length + 1) st =
        .done (l.map (fun x => some ⟨x.1, source.cursorAt i x.2⟩) ++ [none]) st' ∧
      Feeds source i (st.readsOf i) st' ∧ ∀ x ∈ l, x.2 < st'.readsOf i := by
  induction l with
  | nil =>
      intro s m st h hst
      obtain ⟨rest, st', hpulled, hst'⟩ := h st hst
      refine ⟨st', ?_, hst', List.forall_mem_nil _⟩
      rw [Outcomes.answers, hpulled]
      rfl
  | cons x l ih =>
      intro s m st h hst
      obtain ⟨rest, st', hpulled, hst', hrest⟩ := h st hst
      obtain ⟨st'', hanswers, hst'', hends⟩ := ih hrest hst'.self
      have hreads := hst'.reads
      have hreads' := hst''.reads
      refine ⟨st'', ?_, hst''.mono (by omega), fun y hy => ?_⟩
      · rw [List.length_cons, Outcomes.answers, hpulled]
        show (Outcomes.answers G (l.length + 1) rest st').bind _ = _
        rw [hanswers]
        rfl
      · rcases List.mem_cons.mp hy with rfl | hy
        · omega
        · exact hends y hy

/-- **PULLING DELIVERS THE LIST OF SUCCESSES.** In any reachable world, at any cursor of a source
    that delivers a finite input: if the list of successes of the parser exists there, then the
    parser can be started, and pulling its outcomes gives the items of the list, in their order and
    as often as they stand in it, and then nothing. Each outcome has the value of its item, and its
    cursor is the one that the store has in the chain at the end position of the item. -/
theorem Parser.pulls_enumeration [Carrier σ] {w : World σ ε} (hw : w.Reachable) {c : Cursor σ}
    (hc : c ∈ w.cursors) {chain : Chain σ} (hchain : w.store.chains[c.source]? = some chain)
    {input : List σ} (hinput : chain.source.Delivers input) (G : Grammar σ ε ρ)
    (p : Parser σ ε ρ α) {n : Nat} {l : List (α × Nat)}
    (hl : p.enumerate G input n c.position = some l) :
    ∃ s st st', p.started G c w.store = .done s st ∧
      s.answers G (l.length + 1) st =
        .done (l.map (fun x => some ⟨x.1, chain.source.cursorAt c.source x.2⟩) ++ [none]) st' ∧
      ∀ x ∈ l, st'.cursor? c.source x.2 = some (chain.source.cursorAt c.source x.2) := by
  have hsound := hw.sound
  obtain ⟨source, hsource, hnode, hcursor⟩ := hsound.intact.holds_iff.mp (hsound.cursors c hc)
  obtain rfl : chain.source = source := by
    rw [source?, hchain] at hsource
    exact Option.some.inj hsource
  have hposition : c.position = c.node := congrArg Cursor.position hcursor
  rw [hposition] at hl
  have hfeeds : Feeds chain.source c.source (c.node + 1) w.store := ⟨hsound.intact, hsource, hnode⟩
  obtain ⟨s, st, hstarted, hst, hs⟩ :=
    p.lists_of_enumerate hinput n c.node l hl w.store hfeeds
  obtain ⟨st', hanswers, hst', hends⟩ := hs.answers hst.self
  refine ⟨s, st, st', ?_, hanswers, fun x hx => ?_⟩
  · rw [hcursor]
    exact hstarted
  · exact hst'.intact.cursor?_eq_some_iff.mpr ⟨chain.source, hst'.source, hends x hx, rfl⟩

/-- The rows of one or two symbols, the longer one first. -/
theorem many1_item_pulled :
    let _ : Carrier Nat := .none
    let p : Parser Nat Unit (fun _ => Empty) (List Nat) := .many1 .item
    World.pair.Reachable ∧ p.enumerate .empty [7, 8] 4 0 = some [([7, 8], 2), ([7], 1)] ∧
      ∃ s st st', p.started .empty ⟨0, 0, 0, some 7⟩ World.pair.store = .done s st ∧
        s.answers .empty 3 st = .done
          [some ⟨[7, 8], ⟨0, 2, 2, none⟩⟩, some ⟨[7], ⟨0, 1, 1, some 8⟩⟩, none] st' := by
  intro _ p
  have hlist : p.enumerate .empty [7, 8] 4 0 = some [([7, 8], 2), ([7], 1)] := by decide
  have hdelivers : (Source.ofList [7, 8]).Delivers [7, 8] :=
    fun j _ => Source.answer_ofList [7, 8] j
  obtain ⟨s, st, st', hstarted, hanswers, -⟩ := p.pulls_enumeration World.reachable_pair
    (List.mem_singleton.mpr rfl) rfl hdelivers .empty hlist
  exact ⟨World.reachable_pair, hlist, s, st, st', hstarted, hanswers⟩

end Backtrack
