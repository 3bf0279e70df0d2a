import Backtrack.Proofs.Successes

/-!
# Draining — sequences that come to an end

A sequence drains when every pull comes to an end and only finitely many of them find an outcome.
What it finds is not told, only where: a predicate says how far the outcomes may lie from the place
where the parser was started. That is what is needed to start another parser there.

`Outcomes.Drains` is an accessibility predicate, with the pulls that find an outcome as its steps.
Each kind of sequence drains when its parts do, by induction on the parts. A repetition goes deeper
only at an occurrence that has moved, and there are only so many places to move to.
-/

namespace Backtrack

open Store

universe u v

variable {σ ε : Type} {ρ : Type → Type} {α β γ : Type}

/-- The run comes to an end: with a result as it should be, or else with a fault, which is to be
    possible only if `faulty` holds. -/
def Run.Settles {δ : Type u} (faulty : Prop) (post : δ → Store σ ε → Prop) : Run σ ε δ → Prop
  | .done x st  => post x st
  | .fault _ _  => faulty
  | .unfinished => False

/-- The sequence has nothing left, and answers nothing from now on. -/
inductive Outcomes.Spent : {α : Type} → Outcomes σ ε ρ α → Prop where
  | ready {α : Type} : Spent (.ready [] : Outcomes σ ε ρ α)
  | mapped {α β : Type} (f : Outcome σ α → Call ε (Outcome σ β)) {s : Outcomes σ ε ρ α}
      (h : Spent s) : Spent (.mapped f s)
  | filtered {α : Type} (test : Outcome σ α → Call ε Bool) {s : Outcomes σ ε ρ α} (h : Spent s) :
      Spent (.filtered test s)
  | repeating {α β : Type} (least : Nat) (f : List α → β) (p : Parser σ ε ρ α) :
      Spent (.repeating least f p none .bottom)

/-- What a pull from the store `st` comes to: nothing, and then the sequence is spent; or an outcome
    at a place of the source that has been read, as `P` wants it, and then `R` holds of the rest.
    The reads that had been made are not lost. -/
inductive Pull.Answers (source : Source σ) (i : Nat) (R : Outcomes σ ε ρ α → Nat → Prop)
    (P : α → Nat → Prop) (st : Store σ ε) : Pull σ ε ρ α → Store σ ε → Prop where
  | none {rest : Outcomes σ ε ρ α} {st' : Store σ ε} (hst' : Feeds source i (st.readsOf i) st')
      (spent : rest.Spent) : Answers source i R P st ⟨.none, rest⟩ st'
  | some {a : α} {k : Nat} {rest : Outcomes σ ε ρ α} {st' : Store σ ε}
      (hst' : Feeds source i (st.readsOf i) st') (hk : k < st'.readsOf i) (hP : P a k)
      (hrest : R rest (st'.readsOf i)) :
      Answers source i R P st ⟨.some ⟨a, source.cursorAt i k⟩, rest⟩ st'

/-- From any store that has the source read at least `m` times, every pull settles, and there is no
    endless row of pulls that find an outcome. -/
inductive Outcomes.Drains (G : Grammar σ ε ρ) (source : Source σ) (i : Nat) (faulty : Prop)
    (P : α → Nat → Prop) : Outcomes σ ε ρ α → Nat → Prop where
  | intro {s : Outcomes σ ε ρ α} {m : Nat}
      (settles : ∀ st, Feeds source i m st →
        (s.pulled G st).Settles faulty (Pull.Answers source i (fun _ _ => True) P st))
      (rest : ∀ st o t st', Feeds source i m st → s.pulled G st = .done ⟨some o, t⟩ st' →
        Drains G source i faulty P t (st'.readsOf i)) : Drains G source i faulty P s m

/-- Starting the parser at position `j` settles, and gives a sequence that drains. -/
def Parser.Drains (G : Grammar σ ε ρ) (source : Source σ) (i : Nat) (faulty : Prop)
    (P : α → Nat → Prop) (p : Parser σ ε ρ α) (j : Nat) : Prop :=
  ∀ st, Feeds source i (j + 1) st →
    (p.started G (source.cursorAt i j) st).Settles faulty fun s st' =>
      Feeds source i (st.readsOf i) st' ∧ s.Drains G source i faulty P (st'.readsOf i)

/-! ## Runs that settle -/

section

variable {δ : Type u} {η : Type v} {faulty : Prop} {post : δ → Store σ ε → Prop}

theorem Run.Settles.bind {next : δ → Store σ ε → Run σ ε η} {post' : η → Store σ ε → Prop}
    {r : Run σ ε δ} (h : r.Settles faulty post)
    (hnext : ∀ x st, post x st → (next x st).Settles faulty post') :
    (r.bind next).Settles faulty post' := by
  cases r with
  | done x st => exact hnext x st h
  | fault x st => exact h
  | unfinished => exact h.elim

theorem Run.Settles.imp {post' : δ → Store σ ε → Prop} {r : Run σ ε δ} (h : r.Settles faulty post)
    (himp : ∀ x st, post x st → post' x st) : r.Settles faulty post' := by
  cases r with
  | done x st => exact himp x st h
  | fault x st => exact h
  | unfinished => exact h.elim

theorem Call.run_settles {call : Call ε β} {post : β → Store σ ε → Prop} {st : Store σ ε}
    (herror : ∀ x, call.result = .error x → faulty)
    (hok : ∀ b, call.result = .ok b → post b (st.remark call.notes)) :
    (call.run st).Settles faulty post := by
  rw [Call.run]
  cases hresult : call.result with
  | ok b => exact hok b hresult
  | error x => exact herror x hresult

end

theorem Pull.Answers.imp {source : Source σ} {i : Nat} {P P' : α → Nat → Prop}
    {R R' : Outcomes σ ε ρ α → Nat → Prop}
    {st st₀ st' : Store σ ε} {x : Pull σ ε ρ α} (h : Pull.Answers source i R P st x st')
    (hreads : st₀.readsOf i ≤ st.readsOf i) (hP : ∀ a k, P a k → P' a k)
    (hR : ∀ t m, R t m → R' t m) : Pull.Answers source i R' P' st₀ x st' := by
  cases h with
  | none hst' spent => exact .none (hst'.mono hreads) spent
  | some hst' hk h hrest => exact .some (hst'.mono hreads) hk (hP _ _ h) (hR _ _ hrest)

/-- A source is read no further than to its first empty answer. -/
theorem Store.Feeds.reads_le {source : Source σ} {i m N : Nat} {st : Store σ ε}
    (h : Feeds source i m st) (hN : source.answer N = none) : st.readsOf i ≤ N + 1 := by
  refine Nat.le_of_not_lt fun hlt => ?_
  have hsymbol := h.intact.isSome_answer h.source hlt
  rw [hN] at hsymbol
  exact nomatch hsymbol

namespace Outcomes

theorem Spent.pulled {s : Outcomes σ ε ρ α} (h : s.Spent) (G : Grammar σ ε ρ) (st : Store σ ε) :
    ∃ rest, s.pulled G st = .done ⟨none, rest⟩ st ∧ rest.Spent := by
  induction h with
  | ready => exact ⟨_, pulled_ready_nil G st, .ready⟩
  | mapped f _ ih =>
      obtain ⟨rest, hrest, hspent⟩ := ih
      refine ⟨.mapped f rest, ?_, .mapped f hspent⟩
      rw [pulled_mapped, hrest]
      rfl
  | filtered test _ ih =>
      obtain ⟨rest, hrest, hspent⟩ := ih
      refine ⟨.filtered test rest, ?_, .filtered test hspent⟩
      rw [pulled_filtered, hrest]
      rfl
  | repeating least f p => exact ⟨_, pulled_repeating_bottom G st least f p, .repeating least f p⟩

/-- A sequence that is spent gives no more outcomes, however often it is pulled. -/
theorem Spent.answers {s : Outcomes σ ε ρ α} (h : s.Spent) (G : Grammar σ ε ρ) (st : Store σ ε)
    (k : Nat) : s.answers G k st = .done (List.replicate k none) st := by
  induction k generalizing s with
  | zero => rfl
  | succ k ih =>
      obtain ⟨rest, hrest, hspent⟩ := h.pulled G st
      rw [Outcomes.answers, hrest]
      show (rest.answers G k st).bind _ = _
      rw [ih hspent]
      rfl

variable {G : Grammar σ ε ρ} {source : Source σ} {i m m' m₀ j : Nat} {faulty : Prop}
  {P P' : α → Nat → Prop} {Q : β → Nat → Prop} {R : γ → Nat → Prop}

/-! ## Working with sequences that drain -/

/-- Induction on the pulls that are left. -/
@[elab_as_elim]
theorem Drains.induct {motive : ∀ s m, Drains G source i faulty P s m → Prop}
    (step : ∀ s m h, (∀ st, Feeds source i m st → (s.pulled G st).Settles faulty
      (Pull.Answers source i (fun t m => ∃ h, motive t m h) P st)) → motive s m h)
    {s : Outcomes σ ε ρ α} {m : Nat} (h : s.Drains G source i faulty P m) : motive s m h := by
  induction h with
  | @intro s m settles rest ih =>
      refine step s m _ fun st hst => ?_
      have hsettles := settles st hst
      cases hrun : s.pulled G st with
      | done x st' =>
          rw [hrun] at hsettles
          cases hsettles with
          | none hst' spent => exact .none hst' spent
          | some hst' hk hP _ =>
              exact .some hst' hk hP ⟨rest st _ _ _ hst hrun, ih st _ _ _ hst hrun⟩
      | fault x st' =>
          rw [hrun] at hsettles
          exact hsettles
      | unfinished =>
          rw [hrun] at hsettles
          exact hsettles

theorem Drains.settles {s : Outcomes σ ε ρ α} (h : s.Drains G source i faulty P m) :
    ∀ {st₀ st : Store σ ε}, Feeds source i m st → st₀.readsOf i ≤ st.readsOf i →
      (s.pulled G st).Settles faulty
        (Pull.Answers source i (Drains G source i faulty P) P st₀) := by
  induction h using Drains.induct with
  | step s m _ ih =>
      intro st₀ st hst hreads
      exact (ih st hst).imp fun x st' hx => hx.imp hreads (fun _ _ => id) fun _ _ h => h.1

theorem drains_of_settles {s : Outcomes σ ε ρ α}
    (h : ∀ st, Feeds source i m st → (s.pulled G st).Settles faulty
      (Pull.Answers source i (Drains G source i faulty P) P st)) :
    s.Drains G source i faulty P m := by
  refine .intro (fun st hst => ?_) fun st o t st' hst hrun => ?_
  · exact (h st hst).imp fun x st' hx =>
      hx.imp (Nat.le_refl _) (fun _ _ => id) fun _ _ _ => trivial
  · have hsettles := h st hst
    rw [hrun] at hsettles
    cases hsettles with
    | some _ _ _ hrest => exact hrest

theorem Drains.mono {s : Outcomes σ ε ρ α} (h : s.Drains G source i faulty P m) (hm : m ≤ m') :
    s.Drains G source i faulty P m' :=
  drains_of_settles fun _ hst => h.settles (hst.mono hm) (Nat.le_refl _)

theorem Drains.imp (hP : ∀ a k, P a k → P' a k) {s : Outcomes σ ε ρ α}
    (h : s.Drains G source i faulty P m) : s.Drains G source i faulty P' m := by
  induction h using Drains.induct with
  | step s m _ ih =>
      exact drains_of_settles fun st hst => (ih st hst).imp fun x st' hx =>
        hx.imp (Nat.le_refl _) hP fun _ _ h => h.2

/-! ## One lemma for each kind of sequence -/

theorem drains_empty : (empty : Outcomes σ ε ρ α).Drains G source i faulty P m := by
  refine drains_of_settles fun st hst => ?_
  rw [empty, pulled_ready_nil]
  exact .none hst.self .ready

theorem drains_ready {a : α} (hj : j < m) (hP : P a j) :
    (ready [⟨a, source.cursorAt i j⟩] : Outcomes σ ε ρ α).Drains G source i faulty P m := by
  refine drains_of_settles fun st hst => ?_
  rw [pulled_ready_cons]
  exact .some hst.self (Nat.lt_of_lt_of_le hj hst.reads) hP drains_empty

theorem drains_consuming {f : σ → α} (hj : j < m) (hP : ∀ x, P (f x) (j + 1)) :
    (consuming f (source.cursorAt i j) : Outcomes σ ε ρ α).Drains G source i faulty P m := by
  refine drains_of_settles fun st hst => ?_
  have hreads := hst.reads
  rw [pulled_consuming, show (source.cursorAt i j).current = source.answer j from rfl]
  cases hx : source.answer j with
  | none => exact .none hst.self .ready
  | some x =>
      obtain ⟨hfound, hspends⟩ := hst.intact.advance_spec hst.source (j := j) (by omega)
      have hdemand : source.demand i j i = j + 2 := if_pos ⟨rfl, by rw [hx]; rfl⟩
      have hst' := hst.spends hspends
      have hreads' := hst'.reads
      dsimp only
      rw [hfound, Source.next?, hx]
      exact .some (hst'.mono (Nat.le_max_left _ _)) (by omega) (hP x) drains_empty

/-- Changing each outcome. The new place may also be one from before. -/
theorem Drains.mapped {f : Outcome σ α → Call ε (Outcome σ β)}
    (herror : ∀ a k x, P a k → (f ⟨a, source.cursorAt i k⟩).result = .error x → faulty)
    (hok : ∀ a k o, P a k → (f ⟨a, source.cursorAt i k⟩).result = .ok o →
      ∃ b k', o = ⟨b, source.cursorAt i k'⟩ ∧ (k' = k ∨ k' < m₀) ∧ Q b k')
    {s : Outcomes σ ε ρ α} (h : s.Drains G source i faulty P m) :
    m₀ ≤ m → (Outcomes.mapped f s).Drains G source i faulty Q m := by
  induction h using Drains.induct with
  | step s m _ ih =>
      intro hm
      refine drains_of_settles fun st hst => ?_
      rw [pulled_mapped]
      refine (ih st hst).bind ?_
      rintro _ st' (⟨hst', spent⟩ | @⟨a, k, rest, _, hst', hk, hP, -, hrest⟩)
      · exact .none hst' (.mapped f spent)
      · refine (Call.run_settles (herror a k · hP) fun o ho => ?_).bind fun o st'' h => h
        obtain ⟨b, k', rfl, hk', hQ⟩ := hok a k o hP ho
        have hremark := hst'.remark (f ⟨a, source.cursorAt i k⟩).notes
        have hreads := hst.reads
        have hreads' := hst'.reads
        have hreads'' := hremark.reads
        exact .some (hremark.mono hst'.reads) (by omega) hQ
          ((hrest (by omega)).mono hreads'')

/-- Keeping the outcomes that pass a test. -/
theorem Drains.filtered {test : Outcome σ α → Call ε Bool}
    (herror : ∀ a k x, P a k → (test ⟨a, source.cursorAt i k⟩).result = .error x → faulty)
    {s : Outcomes σ ε ρ α} (h : s.Drains G source i faulty P m) :
    (Outcomes.filtered test s).Drains G source i faulty P m := by
  induction h using Drains.induct with
  | step s m _ ih =>
      refine drains_of_settles fun st hst => ?_
      rw [pulled_filtered]
      refine (ih st hst).bind ?_
      rintro _ st' (⟨hst', spent⟩ | @⟨a, k, rest, _, hst', hk, hP, -, hrest⟩)
      · exact .none hst' (.filtered test spent)
      · have hremark := hst'.remark (test ⟨a, source.cursorAt i k⟩).notes
        have hreads' := hst'.reads
        have hreads'' := hremark.reads
        have htest : ((test ⟨a, source.cursorAt i k⟩).run st').Settles faulty
            fun _ st'' => st'' = st'.remark (test ⟨a, source.cursorAt i k⟩).notes :=
          Call.run_settles (herror a k · hP) fun _ _ => rfl
        refine htest.bind ?_
        rintro ok _ rfl
        cases ok with
        | true => exact .some (hremark.mono hreads') (by omega) hP (hrest.mono hreads'')
        | false => exact (hrest.mono hreads'').settles hremark.self (by omega)

/-- A sequence, and then the parsers that wait behind it. -/
theorem Drains.chained {waiting : List (Parser σ ε ρ α × Cursor σ)} :
    (∀ q ∈ waiting, ∃ j < m₀, q.2 = source.cursorAt i j ∧ q.1.Drains G source i faulty P j) →
    ∀ {s : Outcomes σ ε ρ α} {m : Nat}, m₀ ≤ m → s.Drains G source i faulty P m →
      (Outcomes.chained s waiting).Drains G source i faulty P m := by
  induction waiting with
  | nil =>
      intro _ s m _ h
      induction h using Drains.induct with
      | step s m _ ih =>
          refine drains_of_settles fun st hst => ?_
          have hreads := hst.reads
          rw [pulled_chained]
          refine (ih st hst).bind ?_
          rintro _ st' (⟨hst', -⟩ | ⟨hst', hk, hP, -, hrest⟩)
          · exact .none hst' .ready
          · have hreads' := hst'.reads
            exact .some hst' hk hP (hrest (by omega))
  | cons q waiting ihw =>
      intro hall s m hm h
      obtain ⟨p, c⟩ := q
      obtain ⟨⟨j, hj, rfl, hp⟩, hwaiting⟩ := List.forall_mem_cons.mp hall
      induction h using Drains.induct with
      | step s m _ ih =>
          refine drains_of_settles fun st hst => ?_
          have hreads := hst.reads
          rw [pulled_chained]
          refine (ih st hst).bind ?_
          rintro _ st' (⟨hst', -⟩ | ⟨hst', hk, hP, -, hrest⟩)
          · -- the sequence is spent, and the next parser is started
            have hreads' := hst'.reads
            refine (hp st' (hst'.self.mono (by omega))).bind ?_
            rintro t st'' ⟨hst'', ht⟩
            have hreads'' := hst''.reads
            exact (ihw hwaiting (by omega) ht).settles hst''.self (by omega)
          · have hreads' := hst'.reads
            exact .some hst' hk hP (hrest (by omega))

/-- A parser to be started at the first pull. -/
theorem drains_deferred {p : Parser σ ε ρ α} (hp : p.Drains G source i faulty P j) (hj : j < m) :
    (deferred p (source.cursorAt i j)).Drains G source i faulty P m :=
  Drains.chained (List.forall_mem_singleton.mpr ⟨j, hj, rfl, hp⟩) (Nat.le_refl _) drains_empty

/-- Going on behind each outcome with the parser that its value chooses. -/
theorem Drains.bound {next : α → Parser σ ε ρ β}
    (hnext : ∀ a k, P a k → (next a).Drains G source i faulty Q k) {outer : Outcomes σ ε ρ α}
    (houter : outer.Drains G source i faulty P m) :
    ∀ {inner : Outcomes σ ε ρ β} {m' : Nat}, m ≤ m' → inner.Drains G source i faulty Q m' →
      (Outcomes.bound next outer inner).Drains G source i faulty Q m' := by
  -- the continuation is used up first, and then the outer sequence goes one further
  induction houter using Drains.induct with
  | step outer m _ ihouter =>
      intro inner m' hm hinner
      induction hinner using Drains.induct with
      | step inner m' _ ihinner =>
          refine drains_of_settles fun st hst => ?_
          have hreads := hst.reads
          rw [pulled_bound]
          refine (ihinner st hst).bind ?_
          rintro _ st₁ (⟨hst₁, -⟩ | ⟨hst₁, hk, hQ, -, hrest⟩)
          · have hreads₁ := hst₁.reads
            refine (ihouter st₁ (hst₁.mono (by omega))).bind ?_
            rintro _ st₂ (⟨hst₂, -⟩ | @⟨a, k, outer', _, hst₂, hk, hP, -, hrest⟩)
            · exact .none (hst₂.mono hreads₁) .ready
            · have hreads₂ := hst₂.reads
              refine (hnext a k hP st₂ (hst₂.self.mono (by omega))).bind ?_
              rintro t st₃ ⟨hst₃, ht⟩
              have hreads₃ := hst₃.reads
              exact (hrest (by omega) ht).settles hst₃.self (by omega)
          · have hreads₁ := hst₁.reads
            exact .some hst₁ hk hQ (hrest (by omega))

/-- The same for a pair: the inner sequence goes with the value held. -/
theorem Drains.paired_inner {f : α → β → γ} {q : Parser σ ε ρ β} {outer : Outcomes σ ε ρ α} {a : α}
    (hspent : (paired f q outer none .empty).Drains G source i faulty R m₀)
    {inner : Outcomes σ ε ρ β} (hinner : inner.Drains G source i faulty (fun b => R (f a b)) m) :
    m₀ ≤ m → (paired f q outer (some a) inner).Drains G source i faulty R m := by
  induction hinner using Drains.induct with
  | step inner m _ ih =>
      intro hm
      refine drains_of_settles fun st hst => ?_
      have hreads := hst.reads
      rw [pulled_paired_some]
      refine (ih st hst).bind ?_
      rintro _ st' (⟨hst', -⟩ | ⟨hst', hk, hR, -, hrest⟩)
      · have hreads' := hst'.reads
        exact hspent.settles (hst'.mono (by omega)) hreads'
      · have hreads' := hst'.reads
        exact .some hst' hk hR (hrest (by omega))

/-- Going on behind each outcome with one and the same parser, and combining the values. -/
theorem Drains.paired {f : α → β → γ} {q : Parser σ ε ρ β}
    (hq : ∀ a k, P a k → q.Drains G source i faulty (fun b => R (f a b)) k)
    {outer : Outcomes σ ε ρ α} (houter : outer.Drains G source i faulty P m) :
    (Outcomes.paired f q outer none .empty).Drains G source i faulty R m := by
  induction houter using Drains.induct with
  | step outer m _ ih =>
      refine drains_of_settles fun st hst => ?_
      rw [pulled_paired_none]
      refine (ih st hst).bind ?_
      rintro _ st₁ (⟨hst₁, -⟩ | @⟨a, k, outer', _, hst₁, hk, hP, -, hrest⟩)
      · exact .none hst₁ .ready
      · refine (hq a k hP st₁ (hst₁.self.mono (by omega))).bind ?_
        rintro t st₂ ⟨hst₂, ht⟩
        have hreads₁ := hst₁.reads
        have hreads₂ := hst₂.reads
        exact (hrest.paired_inner ht (by omega)).settles hst₂.self (by omega)

section

variable {least : Nat} {f : List α → β} {p : Parser σ ε ρ α} {N : Nat} {Q : Nat → Prop}

theorem drains_bottom :
    (repeating least f p none .bottom).Drains G source i faulty (fun _ => Q) m := by
  refine drains_of_settles fun st hst => ?_
  rw [pulled_repeating_bottom]
  exact .none hst.self (.repeating least f p)

/-- A frame on top of a row that drains. The occurrences left at its cursor stay there or lie
    behind it, and at each place behind it the repeated parser drains too. -/
theorem Drains.repeating_push (hN : source.answer N = none) {value : Option α}
    {below : Frames σ ε ρ α} (hj : j < m₀)
    (hp : ∀ k, j < k → p.Drains G source i faulty (fun _ k' => k ≤ k') k) (hQ : ∀ k, j < k → Q k)
    (hown : ∀ s c, least ≤ ((Frames.push s c value below).values []).length → Q j)
    (hbelow : (repeating least f p none below).Drains G source i faulty (fun _ => Q) m₀)
    {s : Outcomes σ ε ρ α} (hm : m₀ ≤ m)
    (hs : s.Drains G source i faulty (fun _ k => j ≤ k ∧ (k = j → Q j)) m) :
    (repeating least f p none (.push s (source.cursorAt i j) value below)).Drains G source i
      faulty (fun _ => Q) m := by
  -- by induction on the number of places behind `j`, and then on the occurrences left at `j`; the
  -- source is read no further than to its first empty answer
  induction hn : N - j using Nat.strongRecOn generalizing j m₀ m value below s with
  | _ n ihn =>
      induction hs using Drains.induct with
      | step s m _ ih =>
          refine drains_of_settles fun st hst => ?_
          have hreads := hst.reads
          rw [pulled_repeating_push]
          refine (ih st hst).bind ?_
          rintro _ st₁ (⟨hst₁, -⟩ | @⟨a, k, rest, _, hst₁, hk, ⟨hjk, hstay⟩, -, hrest⟩)
          · -- no more occurrences here: the row itself comes, or at once the row below
            have hreads₁ := hst₁.reads
            have hbelow' := hbelow.mono (show m₀ ≤ st₁.readsOf i by omega)
            dsimp only
            split
            · exact .some hst₁ (by omega) (hown _ _ ‹_›) hbelow'
            · exact hbelow'.settles hst₁.self hreads₁
          · have hreads₁ := hst₁.reads
            have hrest' := hrest (by omega)
            dsimp only
            split
            · have hkj : k = j := ‹_›
              exact .some hst₁ hk (hkj ▸ hstay hkj) hrest'
            · -- the occurrence has moved: its rows come before what is left here
              have hkj : k ≠ j := ‹_›
              have hend := hst₁.reads_le hN
              have hlt : j < k := by omega
              refine (hp k hlt st₁ (hst₁.self.mono (by omega))).bind ?_
              rintro t st₂ ⟨hst₂, ht⟩
              have hreads₂ := hst₂.reads
              refine (ihn (N - k) (by omega) hk (fun k' hk' => hp k' (by omega))
                (fun k' hk' => hQ k' (by omega)) (fun _ _ _ => hQ k hlt) hrest' hreads₂
                (ht.imp ?_) rfl).settles hst₂.self (by omega)
              exact fun _ k' hle => ⟨hle, fun _ => hQ k hlt⟩

end

/-! ## To the end -/

/-- However often a sequence that drains is pulled, the pulls settle, and there is a number of pulls
    behind which all of them answer nothing. -/
theorem Drains.answers {s : Outcomes σ ε ρ α} (h : s.Drains G source i faulty P m) :
    ∀ {st : Store σ ε}, Feeds source i m st → ∃ n, ∀ k, (s.answers G k st).Settles faulty
      fun answers _ => answers.length = k ∧ ∀ x ∈ answers.drop n, x = none := by
  induction h using Drains.induct with
  | step s m _ ih =>
      intro st hst
      have hsettles := ih st hst
      -- no pull at all is no matter
      suffices h : ∃ n, ∀ k, (s.answers G (k + 1) st).Settles faulty
          fun answers _ => answers.length = k + 1 ∧ ∀ x ∈ answers.drop n, x = none by
        obtain ⟨n, hn⟩ := h
        refine ⟨n, fun k => ?_⟩
        cases k with
        | zero => exact ⟨rfl, by simp⟩
        | succ k => exact hn k
      simp only [Outcomes.answers]
      cases hrun : s.pulled G st with
      | done x st' =>
          rw [hrun] at hsettles
          cases hsettles with
          | @none rest _ _ spent =>
              refine ⟨0, fun k => ?_⟩
              show ((rest.answers G k st').bind _).Settles _ _
              rw [spent.answers G st' k]
              simp [Run.bind, Run.Settles]
          | @some a j rest _ hst' _ _ hrest =>
              obtain ⟨n, hn⟩ := hrest.2 hst'.self
              refine ⟨n + 1, fun k => (hn k).bind ?_⟩
              rintro answers st'' ⟨hlength, hnone⟩
              exact ⟨congrArg (· + 1) hlength, hnone⟩
      | fault x st' =>
          rw [hrun] at hsettles
          exact ⟨0, fun _ => hsettles⟩
      | unfinished =>
          rw [hrun] at hsettles
          exact hsettles.elim

end Outcomes

theorem Parser.Drains.imp {G : Grammar σ ε ρ} {source : Source σ} {i j : Nat} {faulty : Prop}
    {P P' : α → Nat → Prop} {p : Parser σ ε ρ α} (h : p.Drains G source i faulty P j)
    (hP : ∀ a k, P a k → P' a k) : p.Drains G source i faulty P' j :=
  fun st hst => (h st hst).imp fun _ _ hs => ⟨hs.1, hs.2.imp hP⟩

end Backtrack
