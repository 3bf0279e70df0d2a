import Backtrack.Proofs.MonadLaws

/-!
# Choice laws — pull by pull

A choice gives the outcomes of one parser and then those of the other. It can be regrouped, `fail`
adds nothing to it on either side, and `bind`, `map` and `filter` distribute over it. All of this
holds pull by pull: after every pull both sides have given the same answers and left the same store.

The sides hand over from one parser to the next at different depths, so they are not the same
sequence at any time. They are *bisimilar*: a relation between sequences that is kept by every pull
and that lets no answer, no fault and no read be different.

* Regrouping moves parsers from one list of waiting parsers to the next one out
  (`Outcomes.Flattens`).
* What distributes over a choice is a *layer* around a sequence (`Outcomes.Layer`), which asks the
  sequence for one outcome after the other. Around a choice the layer stays while the parsers
  change, and in a choice of layers a new layer is put on with each parser. The loop over the
  outcomes stands outside in the first case and inside in the second, so each side is shown to
  follow the other by an induction on the allowance for the layer.
-/

namespace Backtrack

universe u v w

variable {σ ε : Type} {ρ : Type → Type} {α β : Type}

theorem Run.Follows.refl {δ : Type u} (r : Run σ ε δ) : Follows Eq r r :=
  .of_within (.refl r)

/-- Runs that follow each other agree. -/
theorem Run.Agrees.of_follows {δ : Type u} {η : Type v} {R : δ → η → Prop} {r : Run σ ε δ}
    {r' : Run σ ε η} (h : Follows R r r') (h' : Follows (fun b a => R a b) r' r) :
    Agrees R r r' := by
  refine h.agrees fun hr => ?_
  subst hr
  cases h'
  rfl

theorem Run.limit_bind_follows {δ : Type u} {η : Type v} {ι : Type u} {R : η → ι → Prop}
    {r : Nat → Run σ ε δ} {k : δ → Store σ ε → Run σ ε η} {x : Run σ ε ι}
    (h : ∀ n, Follows R ((r n).bind k) x) : Follows R ((limit r).bind k) x := by
  rw [limit]
  split
  · exact h _
  · exact .unfinished x

/-- Two pulls give the same answer and leave related sequences. -/
def Pull.Matches (R : Outcomes σ ε ρ α → Outcomes σ ε ρ α → Prop) (x y : Pull σ ε ρ α) : Prop :=
  x.answer = y.answer ∧ R x.rest y.rest

variable {G : Grammar σ ε ρ}

namespace Outcomes

/-! ## Bisimilar sequences -/

variable (G) in
/-- Sequences that the relation has put together stay together under every pull: the same answer
    and the same store, or the same fault, or no answer at all. -/
def Bisimulation (R : Outcomes σ ε ρ α → Outcomes σ ε ρ α → Prop) : Prop :=
  ∀ s s', R s s' → ∀ st, Run.Agrees (Pull.Matches R) (s.pulled G st) (s'.pulled G st)

namespace Bisimulation

variable {R : Outcomes σ ε ρ α → Outcomes σ ε ρ α → Prop}

/-- Bisimilar sequences give the same answers and leave the same store. -/
theorem answers (h : Bisimulation G R) (k : Nat) : ∀ s s', R s s' → ∀ st,
    s.answers G k st = s'.answers G k st := by
  induction k with
  | zero => intro s s' _ st; rfl
  | succ k ih =>
      intro s s' hs st
      refine ((h s s' hs st).bind fun x y st hxy => ?_).eq
      rw [hxy.1, ih _ _ hxy.2]
      exact .refl _

/-- Parsers have the same answers when their first pulls match. -/
theorem parser_answers (h : Bisimulation G R) {p q : Parser σ ε ρ α} {c : Cursor σ}
    {st : Store σ ε}
    (hfirst : Run.Agrees (Pull.Matches R) ((p.started G c st).bind fun s st => s.pulled G st)
      ((q.started G c st).bind fun s st => s.pulled G st)) (k : Nat) :
    p.answers G c (k + 1) st = q.answers G c (k + 1) st := by
  rw [Parser.answers_succ, Parser.answers_succ]
  refine (hfirst.bind fun x y st hxy => ?_).eq
  rw [Pull.answers, Pull.answers, hxy.1, h.answers k _ _ hxy.2]
  exact .refl _

end Bisimulation

/-! ## Regrouping -/

/-- The second sequence has on one list the parsers that wait on several in the first. -/
inductive Flattens : Outcomes σ ε ρ α → Outcomes σ ε ρ α → Prop where
  /-- There is nothing to flatten. -/
  | refl (s : Outcomes σ ε ρ α) : Flattens s s
  /-- The parsers that wait inside come first. -/
  | inside (s : Outcomes σ ε ρ α) (waiting later : List (Parser σ ε ρ α × Cursor σ)) :
      Flattens (.chained (.chained s waiting) later) (.chained s (waiting ++ later))
  /-- A choice that waits comes to both its parsers. -/
  | waiting (s : Outcomes σ ε ρ α) (sooner later : List (Parser σ ε ρ α × Cursor σ))
      (p q : Parser σ ε ρ α) (c : Cursor σ) :
      Flattens (.chained s (sooner ++ (p.or q, c) :: later))
        (.chained s (sooner ++ (p, c) :: (q, c) :: later))

theorem Flattens.pull_refl (x : Run σ ε (Pull σ ε ρ α)) :
    Run.Agrees (Pull.Matches Flattens) x x := by
  cases x with
  | done x st => exact .done st ⟨rfl, .refl x.rest⟩
  | fault x st => exact .fault x st
  | unfinished => exact .unfinished

theorem pulled_empty (st : Store σ ε) :
    (empty : Outcomes σ ε ρ α).pulled G st = .done ⟨none, .empty⟩ st :=
  pulled_ready_nil G st

/-- A sequence that is over goes on with the first of the parsers that wait. -/
theorem pulled_chained_empty (p : Parser σ ε ρ α) (c : Cursor σ)
    (waiting : List (Parser σ ε ρ α × Cursor σ)) (st : Store σ ε) :
    (chained .empty ((p, c) :: waiting)).pulled G st =
      (p.started G c st).bind fun s st => (chained s waiting).pulled G st := by
  rw [pulled_chained, pulled_empty]
  rfl

theorem agrees_inside (waiting later : List (Parser σ ε ρ α × Cursor σ)) :
    ∀ (s : Outcomes σ ε ρ α) (st : Store σ ε), Run.Agrees (Pull.Matches Flattens)
      ((chained (.chained s waiting) later).pulled G st)
      ((chained s (waiting ++ later)).pulled G st) := by
  induction waiting with
  | nil =>
      intro s st
      rw [pulled_chained, pulled_chained_nil, Run.bind_assoc, List.nil_append, pulled_chained]
      refine (Run.Agrees.refl (s.pulled G st)).bind ?_
      rintro ⟨_ | o, s⟩ _ st rfl
      · rcases later with _ | ⟨first, later⟩ <;> exact Flattens.pull_refl _
      · exact .done st ⟨rfl, .inside s [] later⟩
  | cons first waiting ih =>
      intro s st
      obtain ⟨p, c⟩ := first
      rw [pulled_chained, pulled_chained, Run.bind_assoc, List.cons_append, pulled_chained]
      refine (Run.Agrees.refl (s.pulled G st)).bind ?_
      rintro ⟨_ | o, s⟩ _ st rfl
      · dsimp only
        rw [Run.bind_assoc]
        refine (Run.Agrees.refl (p.started G c st)).bind ?_
        rintro s _ st rfl
        have hinside := ih s st
        rw [pulled_chained] at hinside
        exact hinside
      · exact .done st ⟨rfl, .inside s ((p, c) :: waiting) later⟩

theorem agrees_waiting (sooner later : List (Parser σ ε ρ α × Cursor σ)) (p q : Parser σ ε ρ α)
    (c : Cursor σ) : ∀ (s : Outcomes σ ε ρ α) (st : Store σ ε), Run.Agrees (Pull.Matches Flattens)
      ((chained s (sooner ++ (p.or q, c) :: later)).pulled G st)
      ((chained s (sooner ++ (p, c) :: (q, c) :: later)).pulled G st) := by
  induction sooner with
  | nil =>
      intro s st
      rw [List.nil_append, List.nil_append, pulled_chained, pulled_chained]
      refine (Run.Agrees.refl (s.pulled G st)).bind ?_
      rintro ⟨_ | o, s⟩ _ st rfl
      · dsimp only
        rw [Parser.started_or, Run.done_bind, ← pulled_chained_empty]
        exact agrees_inside [(p, c), (q, c)] later .empty st
      · exact .done st ⟨rfl, .waiting s [] later p q c⟩
  | cons first sooner ih =>
      intro s st
      obtain ⟨p₁, c₁⟩ := first
      rw [List.cons_append, List.cons_append, pulled_chained, pulled_chained]
      refine (Run.Agrees.refl (s.pulled G st)).bind ?_
      rintro ⟨_ | o, s⟩ _ st rfl
      · refine (Run.Agrees.refl (p₁.started G c₁ st)).bind ?_
        rintro s _ st rfl
        exact ih s st
      · exact .done st ⟨rfl, .waiting s ((p₁, c₁) :: sooner) later p q c⟩

/-- Flattening changes no answer. -/
theorem bisimulation_flattens :
    Bisimulation G (Flattens : Outcomes σ ε ρ α → Outcomes σ ε ρ α → Prop) := by
  intro s s' h st
  cases h with
  | refl s => exact Flattens.pull_refl _
  | inside s waiting later => exact agrees_inside waiting later s st
  | waiting s sooner later p q c => exact agrees_waiting sooner later p q c s st

/-! ## Distributing -/

end Outcomes

/-- A layer around sequences, with a state of its own. It first looks for an outcome that it has
    in hand, and then takes those of the sequence one by one until it has made one of its own. -/
structure Outcomes.Layer (σ ε : Type) (ρ : Type → Type) (ι : Type w) (α β : Type) where
  /-- The layer has nothing in hand. -/
  idle : ι
  /-- Ask for an outcome in hand. -/
  ask : ι → Store σ ε → Run σ ε (Option (Outcome σ β) × ι)
  /-- Take an outcome of the sequence inside, and perhaps make one from it at once. -/
  take : Outcome σ α → Store σ ε → Run σ ε (Option (Outcome σ β) × ι)
  /-- The layer around a sequence. -/
  around : ι → Outcomes σ ε ρ α → Outcomes σ ε ρ β
  /-- What is left when the sequence inside is over. -/
  spent : Outcomes σ ε ρ α → Outcomes σ ε ρ β
  /-- The parser whose sequences are those of another with the layer around them. -/
  wrap : Parser σ ε ρ α → Parser σ ε ρ β

namespace Outcomes.Layer

variable {ι : Type w}

section

variable (G) (L : Layer σ ε ρ ι α β)
  (again : ι → Outcomes σ ε ρ α → Store σ ε → Run σ ε (Pull σ ε ρ β))

/-- One pull of the layer around a sequence. -/
noncomputable abbrev pulls (i : ι) (s : Outcomes σ ε ρ α) (st : Store σ ε) :
    Run σ ε (Pull σ ε ρ β) :=
  (L.around i s).pulled G st

/-- The sequence inside has been asked. If nothing is made from its answer, this is done `again`. -/
def feed : Pull σ ε ρ α → Store σ ε → Run σ ε (Pull σ ε ρ β)
  | ⟨none, s⟩,   st => .done ⟨none, L.spent s⟩ st
  | ⟨some o, s⟩, st =>
      (L.take o st).bind fun (made, i) st =>
        match made with
        | some o => .done ⟨some o, L.around i s⟩ st
        | none   => again i s st

/-- One turn of the layer: what is in hand comes first. -/
noncomputable def turn (i : ι) (s : Outcomes σ ε ρ α) (st : Store σ ε) :
    Run σ ε (Pull σ ε ρ β) :=
  (L.ask i st).bind fun (held, i) st =>
    match held with
    | some o => .done ⟨some o, L.around i s⟩ st
    | none   => (s.pulled G st).bind (L.feed again)

/-- The layer works as described, under every allowance and without one. -/
structure Lawful : Prop where
  pull_within : ∀ n i s st, ((L.around i s).pull G (n + 1) st).Within
    (L.turn G (fun i s st => (L.around i s).pull G n st) i s st)
  pulled : ∀ i s st, (L.around i s).pulled G st = L.turn G (L.pulls G) i s st
  started : ∀ p c st, (((L.wrap p).started G c st).bind fun t st => t.pulled G st) =
    (p.started G c st).bind fun s st => (L.around L.idle s).pulled G st
  ask_idle : ∀ st, L.ask L.idle st = .done (none, L.idle) st
  pulled_spent : ∀ st, (L.spent .empty).pulled G st = .done ⟨none, L.spent .empty⟩ st

end

/-- Each of the parsers that wait gets a layer of its own. -/
def wrapAll (L : Layer σ ε ρ ι α β) (waiting : List (Parser σ ε ρ α × Cursor σ)) :
    List (Parser σ ε ρ β × Cursor σ) :=
  waiting.map fun (p, c) => (L.wrap p, c)

/-- A layer around a choice, and a choice of sequences with a layer around each. -/
inductive Distributed (L : Layer σ ε ρ ι α β) : Outcomes σ ε ρ β → Outcomes σ ε ρ β → Prop where
  | around (i : ι) (s : Outcomes σ ε ρ α) (waiting : List (Parser σ ε ρ α × Cursor σ)) :
      Distributed L (L.around i (.chained s waiting)) (.chained (L.around i s) (L.wrapAll waiting))
  | spent : Distributed L (L.spent .empty) .empty

variable (G) in
/-- The sequence in front has been asked. At its end the first of the parsers that wait is started
    in its place. -/
noncomputable def handOver (waiting : List (Parser σ ε ρ α × Cursor σ)) :
    Pull σ ε ρ α → Store σ ε → Run σ ε (Pull σ ε ρ α)
  | ⟨some o, s⟩, st => .done ⟨some o, .chained s waiting⟩ st
  | ⟨none, _⟩,   st =>
      match waiting with
      | []                => .done ⟨none, .empty⟩ st
      | (p, c) :: waiting =>
          (p.started G c st).bind fun s st => (Outcomes.chained s waiting).pulled G st

theorem pulled_chained_handOver (s : Outcomes σ ε ρ α)
    (waiting : List (Parser σ ε ρ α × Cursor σ)) (st : Store σ ε) :
    (Outcomes.chained s waiting).pulled G st = (s.pulled G st).bind (handOver G waiting) := by
  rw [Outcomes.pulled_chained]
  refine Run.bind_congr fun x st _ => ?_
  rcases x with ⟨_ | o, s⟩ <;> rcases waiting with _ | ⟨⟨p, c⟩, waiting⟩ <;> rfl

namespace Lawful

variable {L : Layer σ ε ρ ι α β}

theorem pulled_idle (hL : L.Lawful G) (s : Outcomes σ ε ρ α) (st : Store σ ε) :
    (L.around L.idle s).pulled G st = (s.pulled G st).bind (L.feed (L.pulls G)) := by
  rw [hL.pulled, turn, hL.ask_idle]
  rfl

/-- A parser that waits with its layer is started, and then the layer has nothing in hand. -/
theorem started_chained (hL : L.Lawful G) (p : Parser σ ε ρ α) (c : Cursor σ)
    (waiting : List (Parser σ ε ρ β × Cursor σ)) (st : Store σ ε) :
    (((L.wrap p).started G c st).bind fun t st => (Outcomes.chained t waiting).pulled G st) =
      (p.started G c st).bind fun s st =>
        (Outcomes.chained (L.around L.idle s) waiting).pulled G st := by
  simp only [pulled_chained_handOver]
  rw [← Run.bind_assoc, hL.started, Run.bind_assoc]

theorem chained_idle (hL : L.Lawful G) (s : Outcomes σ ε ρ α)
    (waiting : List (Parser σ ε ρ β × Cursor σ)) (st : Store σ ε) :
    (Outcomes.chained (L.around L.idle s) waiting).pulled G st =
      ((s.pulled G st).bind (L.feed (L.pulls G))).bind (handOver G waiting) := by
  rw [pulled_chained_handOver, hL.pulled_idle]

section

variable {again : ι → Outcomes σ ε ρ α → Store σ ε → Run σ ε (Pull σ ε ρ β)}

/-- The layer around a choice follows the choice of layers, as soon as it does so when it is pulled
    again. -/
theorem feed_follows (hL : L.Lawful G)
    (hagain : ∀ i s waiting st, Run.Follows (Pull.Matches L.Distributed)
      (again i (.chained s waiting) st)
      ((Outcomes.chained (L.around i s) (L.wrapAll waiting)).pulled G st))
    (waiting : List (Parser σ ε ρ α × Cursor σ)) : ∀ s st,
    Run.Follows (Pull.Matches L.Distributed)
      (((Outcomes.chained s waiting).pulled G st).bind (L.feed again))
      (((s.pulled G st).bind (L.feed (L.pulls G))).bind (handOver G (L.wrapAll waiting))) := by
  -- an outcome of the sequence in front, whichever parsers wait
  have hsome (o : Outcome σ α) (s : Outcomes σ ε ρ α) (waiting) (st : Store σ ε) :
      Run.Follows (Pull.Matches L.Distributed) (L.feed again ⟨some o, .chained s waiting⟩ st)
        ((L.feed (L.pulls G) ⟨some o, s⟩ st).bind (handOver G (L.wrapAll waiting))) := by
    rw [feed, feed, Run.bind_assoc]
    refine (Run.Follows.refl (L.take o st)).bind ?_
    rintro ⟨_ | o, i⟩ _ st rfl
    · dsimp only
      rw [← pulled_chained_handOver]
      exact hagain i s waiting st
    · exact .done st ⟨rfl, .around i s waiting⟩
  induction waiting with
  | nil =>
      intro s st
      rw [pulled_chained_handOver, Run.bind_assoc, Run.bind_assoc]
      refine (Run.Follows.refl (s.pulled G st)).bind ?_
      rintro ⟨_ | o, s⟩ _ st rfl
      · exact .done st ⟨rfl, .spent⟩
      · exact hsome o s [] st
  | cons first waiting ih =>
      intro s st
      rw [pulled_chained_handOver, Run.bind_assoc, Run.bind_assoc]
      refine (Run.Follows.refl (s.pulled G st)).bind ?_
      rintro ⟨_ | o, s⟩ _ st rfl
      · -- the next parser is started inside the layer, or with a layer of its own
        obtain ⟨p, c⟩ := first
        show Run.Follows _ (((p.started G c st).bind fun s st =>
            (Outcomes.chained s waiting).pulled G st).bind _)
          (((L.wrap p).started G c st).bind fun t st =>
            (Outcomes.chained t (L.wrapAll waiting)).pulled G st)
        rw [hL.started_chained, Run.bind_assoc]
        refine (Run.Follows.refl (p.started G c st)).bind ?_
        rintro s _ st rfl
        rw [hL.chained_idle]
        exact ih s st
      · exact hsome o s (first :: waiting) st

end

/-- The layer around a choice, under any allowance, follows the choice of layers. -/
theorem around_chained_follows (hL : L.Lawful G) (n : Nat) : ∀ i s waiting st,
    Run.Follows (Pull.Matches L.Distributed) ((L.around i (.chained s waiting)).pull G n st)
      ((Outcomes.chained (L.around i s) (L.wrapAll waiting)).pulled G st) := by
  induction n with
  | zero => intro i s waiting st; exact .unfinished _
  | succ n ih =>
      intro i s waiting st
      refine (hL.pull_within n i (.chained s waiting) st).follows ?_
      rw [pulled_chained_handOver, hL.pulled, turn, turn, Run.bind_assoc]
      refine (Run.Follows.refl (L.ask i st)).bind ?_
      rintro ⟨_ | o, i⟩ _ st rfl
      · exact hL.feed_follows ih waiting s st
      · exact .done st ⟨rfl, .around i s waiting⟩

/-- One layer of the choice, and what the choice hands over to, follow the layer around the choice,
    as soon as this is so when the sequence in front is over. -/
theorem handOver_follows (hL : L.Lawful G) {waiting : List (Parser σ ε ρ α × Cursor σ)}
    (hnext : ∀ s st, Run.Follows (fun y x => Pull.Matches L.Distributed x y)
      (handOver G (L.wrapAll waiting) ⟨none, L.spent s⟩ st)
      ((handOver G waiting ⟨none, s⟩ st).bind (L.feed (L.pulls G))))
    (n : Nat) : ∀ i s st, Run.Follows (fun y x => Pull.Matches L.Distributed x y)
      (((L.around i s).pull G n st).bind (handOver G (L.wrapAll waiting)))
      ((L.around i (.chained s waiting)).pulled G st) := by
  induction n with
  | zero => intro i s st; exact .unfinished _
  | succ n ih =>
      intro i s st
      refine ((hL.pull_within n i s st).bind fun _ _ => .refl _).follows ?_
      rw [hL.pulled, turn, turn, Run.bind_assoc]
      refine (Run.Follows.refl (L.ask i st)).bind ?_
      rintro ⟨_ | o, i⟩ _ st rfl
      · dsimp only
        rw [Run.bind_assoc, pulled_chained_handOver, Run.bind_assoc]
        refine (Run.Follows.refl (s.pulled G st)).bind ?_
        rintro ⟨_ | o, s⟩ _ st rfl
        · exact hnext s st
        · dsimp only [feed, handOver]
          rw [Run.done_bind, feed, Run.bind_assoc]
          refine (Run.Follows.refl (L.take o st)).bind ?_
          rintro ⟨_ | o, i⟩ _ st rfl
          · exact ih i s st
          · exact .done st ⟨rfl, .around i s waiting⟩
      · exact .done st ⟨rfl, .around i s waiting⟩

/-- The choice of layers follows the layer around a choice. -/
theorem chained_around_follows (hL : L.Lawful G) (waiting : List (Parser σ ε ρ α × Cursor σ)) :
    ∀ i s st, Run.Follows (fun y x => Pull.Matches L.Distributed x y)
      ((Outcomes.chained (L.around i s) (L.wrapAll waiting)).pulled G st)
      ((L.around i (.chained s waiting)).pulled G st) := by
  induction waiting with
  | nil =>
      intro i s st
      rw [pulled_chained_handOver]
      exact Run.limit_bind_follows fun n =>
        hL.handOver_follows (fun s st => .done st ⟨rfl, .spent⟩) n i s st
  | cons first waiting ih =>
      intro i s st
      obtain ⟨p, c⟩ := first
      rw [pulled_chained_handOver]
      refine Run.limit_bind_follows fun n => hL.handOver_follows (fun s st => ?_) n i s st
      show Run.Follows _ (((L.wrap p).started G c st).bind fun t st =>
          (Outcomes.chained t (L.wrapAll waiting)).pulled G st)
        (((p.started G c st).bind fun s st => (Outcomes.chained s waiting).pulled G st).bind _)
      rw [hL.started_chained, Run.bind_assoc]
      refine (Run.Follows.refl (p.started G c st)).bind ?_
      rintro s _ st rfl
      rw [← hL.pulled_idle]
      exact ih L.idle s st

/-- Pulls take a layer around a choice and the choice of layers to matching sequences. -/
theorem bisimulation_distributed (hL : L.Lawful G) : Outcomes.Bisimulation G L.Distributed := by
  intro s s' h st
  cases h with
  | around i s waiting =>
      exact .of_follows (.limit fun n => hL.around_chained_follows n i s waiting st)
        (hL.chained_around_follows waiting i s st)
  | spent =>
      rw [hL.pulled_spent, Outcomes.pulled_empty]
      exact .done st ⟨rfl, .spent⟩

/-- The parser with a layer distributes over a choice. -/
theorem answers_or (hL : L.Lawful G) (p q : Parser σ ε ρ α) (c : Cursor σ) (k : Nat)
    (st : Store σ ε) :
    (L.wrap (p.or q)).answers G c (k + 1) st =
      ((L.wrap p).or (L.wrap q)).answers G c (k + 1) st := by
  refine hL.bisimulation_distributed.parser_answers ?_ k
  rw [hL.started, Parser.started_or, Parser.started_or, Run.done_bind, Run.done_bind]
  have hempty : (Outcomes.chained (L.around L.idle .empty) (L.wrapAll [(p, c), (q, c)])).pulled G st
      = (Outcomes.chained .empty [(L.wrap p, c), (L.wrap q, c)]).pulled G st := by
    rw [hL.chained_idle, pulled_chained_handOver, Outcomes.pulled_empty, Outcomes.pulled_empty]
    rfl
  rw [← hempty]
  exact hL.bisimulation_distributed _ _ (.around L.idle .empty [(p, c), (q, c)]) st

/-- A layer around nothing is nothing. -/
theorem answers_fail (hL : L.Lawful G) (c : Cursor σ) (k : Nat) (st : Store σ ε) :
    (L.wrap .fail).answers G c (k + 1) st = Parser.fail.answers G c (k + 1) st := by
  refine hL.bisimulation_distributed.parser_answers ?_ k
  rw [hL.started, Parser.started_fail, Parser.started_fail, Run.done_bind, Run.done_bind,
    hL.pulled_idle, Outcomes.pulled_empty, Outcomes.pulled_empty]
  exact .done st ⟨rfl, .spent⟩

end Lawful

/-! ### Layers -/

/-- Each outcome is changed. -/
def mapping (f : α → Call ε β) : Layer σ ε ρ Unit α β where
  idle := ()
  ask i st := .done (none, i) st
  take o st := (((f o.value).map o.withValue).run st).bind fun o st => .done (some o, ()) st
  around _ s := .mapped (fun o => (f o.value).map o.withValue) s
  spent s := .mapped (fun o => (f o.value).map o.withValue) s
  wrap p := p.map f

/-- Outcomes are dropped. -/
def filtering (test : α → Call ε Bool) : Layer σ ε ρ Unit α α where
  idle := ()
  ask i st := .done (none, i) st
  take o st := ((test o.value).run st).bind fun ok st =>
    .done (if ok then some o else none, ()) st
  around _ s := .filtered (fun o => test o.value) s
  spent s := .filtered (fun o => test o.value) s
  wrap p := p.filter test

variable (G) in
/-- Behind each outcome comes a continuation, and what is left of it is in hand. -/
noncomputable def binding (next : α → Parser σ ε ρ β) :
    Layer σ ε ρ (Outcomes σ ε ρ β) α β where
  idle := .empty
  ask inner st := (inner.pulled G st).bind fun pulled st => .done (pulled.answer, pulled.rest) st
  take o st := ((next o.value).started G o.cursor st).bind fun inner st => .done (none, inner) st
  around inner s := .bound next (.chained s []) inner
  spent _ := .empty
  wrap p := p.bind next

theorem lawful_mapping (f : α → Call ε β) : (mapping f : Layer σ ε ρ Unit α β).Lawful G where
  pull_within n i s st := by
    refine ((s.pull_tends G st).rising.within_limit n).bind fun x st => ?_
    rcases x with ⟨_ | o, s⟩
    · exact .refl _
    · show Run.Within _ (Run.bind (Run.bind _ _) _)
      rw [Run.bind_assoc]
      exact .refl _
  pulled i s st := by
    show (Outcomes.mapped _ s).pulled G st = _
    rw [Outcomes.pulled_mapped]
    refine Run.bind_congr fun x st _ => ?_
    rcases x with ⟨_ | o, s⟩
    · rfl
    · show _ = Run.bind (Run.bind _ _) _
      rw [Run.bind_assoc]
      rfl
  started p c st := by
    show ((p.map f).started G c st).bind _ = _
    rw [Parser.started_map, Run.bind_assoc]
    rfl
  ask_idle st := rfl
  pulled_spent st := by
    show (Outcomes.mapped _ .empty).pulled G st = _
    rw [Outcomes.pulled_mapped, Outcomes.pulled_empty]
    rfl

theorem lawful_filtering (test : α → Call ε Bool) :
    (filtering test : Layer σ ε ρ Unit α α).Lawful G where
  pull_within n i s st := by
    refine ((s.pull_tends G st).rising.within_limit n).bind fun x st => ?_
    rcases x with ⟨_ | o, s⟩
    · exact .refl _
    · show Run.Within _ (Run.bind (Run.bind _ _) _)
      rw [Run.bind_assoc]
      refine (Run.Within.refl _).bind fun ok st => ?_
      cases ok <;> exact .refl _
  pulled i s st := by
    show (Outcomes.filtered _ s).pulled G st = _
    rw [Outcomes.pulled_filtered]
    refine Run.bind_congr fun x st _ => ?_
    rcases x with ⟨_ | o, s⟩
    · rfl
    · show _ = Run.bind (Run.bind _ _) _
      rw [Run.bind_assoc]
      refine Run.bind_congr fun ok st _ => ?_
      cases ok <;> rfl
  started p c st := by
    show ((p.filter test).started G c st).bind _ = _
    rw [Parser.started_filter, Run.bind_assoc]
    rfl
  ask_idle st := rfl
  pulled_spent st := by
    show (Outcomes.filtered _ .empty).pulled G st = _
    rw [Outcomes.pulled_filtered, Outcomes.pulled_empty]
    rfl

theorem lawful_binding (next : α → Parser σ ε ρ β) :
    (binding G next).Lawful G where
  pull_within n inner s st := by
    show Run.Within _ (Run.bind (Run.bind _ _) _)
    rw [Run.bind_assoc]
    refine ((inner.pull_tends G st).rising.within_limit n).bind fun x st => ?_
    rcases x with ⟨_ | o, inner⟩
    · have hinside := ((Outcomes.chained s []).pull_tends G st).rising.within_limit n
      refine (hinside.bind fun _ _ => .refl _).trans ?_
      show Run.Within (((Outcomes.chained s []).pulled G st).bind _) _
      rw [Outcomes.pulled_chained_nil, Run.bind_assoc]
      refine (Run.Within.refl (s.pulled G st)).bind fun x st => ?_
      rcases x with ⟨_ | o, s⟩
      · exact .refl _
      · show Run.Within _ (Run.bind (Run.bind _ _) _)
        rw [Run.bind_assoc]
        exact (((next o.value).start_tends G o.cursor st).rising.within_limit n).bind
          fun _ _ => .refl _
    · exact .refl _
  pulled inner s st := by
    show (Outcomes.bound next (.chained s []) inner).pulled G st = Run.bind (Run.bind _ _) _
    rw [Outcomes.pulled_bound, Run.bind_assoc]
    refine Run.bind_congr fun x st _ => ?_
    rcases x with ⟨_ | o, inner⟩
    · dsimp only
      rw [Outcomes.pulled_chained_nil, Run.bind_assoc]
      refine Run.bind_congr fun x st _ => ?_
      rcases x with ⟨_ | o, s⟩
      · rfl
      · show _ = Run.bind (Run.bind _ _) _
        rw [Run.bind_assoc]
        rfl
    · rfl
  started p c st := by
    show ((p.bind next).started G c st).bind _ = _
    rw [Parser.started_bind, Run.done_bind]
    exact Outcomes.pulled_bound_deferred next p c st
  ask_idle st := by
    show Run.bind (Outcomes.pulled G .empty st) _ = _
    rw [Outcomes.pulled_empty]
    rfl
  pulled_spent st := Outcomes.pulled_empty st

end Outcomes.Layer

/-! ## The laws -/

/-- The parsers give the same answers to the first `k` pulls and leave the same store, when both are
    started at `c`. -/
def Parser.SameAnswers (G : Grammar σ ε ρ) (c : Cursor σ) (k : Nat) (st : Store σ ε)
    (p q : Parser σ ε ρ α) : Prop :=
  p.answers G c k st = q.answers G c k st

namespace Outcomes

theorem passes_chained_nil : Passes G fun s : Outcomes σ ε ρ α => .chained s [] :=
  pulled_chained_nil

/-- Behind the sequence waits a parser that never succeeds. -/
theorem passes_chained_fail (c : Cursor σ) :
    Passes G fun s : Outcomes σ ε ρ α => .chained s [(.fail, c)] := by
  intro s st
  rw [pulled_chained]
  refine Run.bind_congr fun x st _ => ?_
  rcases x with ⟨_ | o, s⟩
  · dsimp only
    rw [Parser.started_fail, Run.done_bind, pulled_chained_nil, pulled_empty]
    rfl
  · rfl

end Outcomes

/-- Through a layer that passes the outcomes on come the answers of the parser itself. -/
theorem Outcomes.Passes.answers_started [Carrier σ] {w : World σ ε} (hw : w.Sound)
    (hG : G.Honest w.known) (hGfinal : G.Final w.known) {p : Parser σ ε ρ α}
    (hp : p.Honest w.known) (hpfinal : p.Final w.known) {c : Cursor σ} (hc : c ∈ w.cursors)
    {layer : Outcomes σ ε ρ α → Outcomes σ ε ρ α} (h : Passes G layer) {s : Outcomes σ ε ρ α}
    (hfirst : s.pulled G w.store =
      (p.started G c w.store).bind fun s st => (layer s).pulled G st) (k : Nat) :
    s.answers G (k + 1) w.store = p.answers G c (k + 1) w.store := by
  rw [answers_succ_of_started layer hfirst]
  refine Run.bind_congr fun s st hstart => ?_
  exact h.answers (k + 1) (hw.started hG hp hc hstart).1
    (hw.started_final hGfinal hpfinal hc hstart)

/-- Both groupings come to three parsers that wait on one list. -/
theorem Parser.same_or_or (p q r : Parser σ ε ρ α) (c : Cursor σ) (k : Nat) (st : Store σ ε) :
    SameAnswers G c k st ((p.or q).or r) (p.or (q.or r)) := by
  have hleft := Outcomes.bisimulation_flattens.answers (G := G) k _ _
    (.waiting .empty [] [(r, c)] p q c) st
  have hright := Outcomes.bisimulation_flattens.answers (G := G) k _ _
    (.waiting .empty [(p, c)] [] q r c) st
  rw [SameAnswers, answers, answers, started_or, started_or, Run.done_bind, Run.done_bind]
  exact hleft.trans hright.symm

/-- **CHOICE LAWS, PULL BY PULL.** Callers who have got to a world by whatever steps start parsers
    at one of their cursors and make one pull or more. Then it makes no difference how a choice of
    three is grouped, or whether `fail` is one of the parsers of a choice; and `bind`, `map` and
    `filter` of a choice come to the choice of the `bind`s, `map`s and `filter`s, and of `fail` to
    `fail`: the same answers, with equal values at the same places, or the same fault, or no answer
    at all; and the same store in the end, with the same reads and the same remarks in its log. Of
    parsers of the caller's own making it is assumed that their own sequences end for good. -/
theorem Parser.choice_laws [Carrier σ] {w : World σ ε} (hw : w.Reachable) {G : Grammar σ ε ρ}
    (hG : G.Honest w.known) (hGfinal : G.Final w.known) {p : Parser σ ε ρ α}
    (q r : Parser σ ε ρ α) (f : α → Parser σ ε ρ β) (m : α → Call ε β) (d : α → Call ε Bool)
    (hp : p.Honest w.known) (hpfinal : p.Final w.known) {c : Cursor σ} (hc : c ∈ w.cursors)
    (k : Nat) :
    SameAnswers G c (k + 1) w.store ((p.or q).or r) (p.or (q.or r)) ∧
      SameAnswers G c (k + 1) w.store (fail.or p) p ∧
      SameAnswers G c (k + 1) w.store (p.or fail) p ∧
      SameAnswers G c (k + 1) w.store ((p.or q).bind f) ((p.bind f).or (q.bind f)) ∧
      SameAnswers G c (k + 1) w.store (fail.bind f) fail ∧
      SameAnswers G c (k + 1) w.store ((p.or q).map m) ((p.map m).or (q.map m)) ∧
      SameAnswers G c (k + 1) w.store (fail.map m) fail ∧
      SameAnswers G c (k + 1) w.store ((p.or q).filter d) ((p.filter d).or (q.filter d)) ∧
      SameAnswers G c (k + 1) w.store (fail.filter d) fail := by
  refine ⟨same_or_or p q r c (k + 1) w.store, ?_, ?_,
    (Outcomes.Layer.lawful_binding f).answers_or p q c k w.store,
    (Outcomes.Layer.lawful_binding f).answers_fail c k w.store,
    (Outcomes.Layer.lawful_mapping m).answers_or p q c k w.store,
    (Outcomes.Layer.lawful_mapping m).answers_fail c k w.store,
    (Outcomes.Layer.lawful_filtering d).answers_or p q c k w.store,
    (Outcomes.Layer.lawful_filtering d).answers_fail c k w.store⟩
  · rw [SameAnswers, answers, started_or, Run.done_bind]
    refine Outcomes.passes_chained_nil.answers_started hw.sound hG hGfinal hp hpfinal hc ?_ k
    rw [Outcomes.pulled_chained_empty, started_fail, Run.done_bind, Outcomes.pulled_chained_empty]
  · rw [SameAnswers, answers, started_or, Run.done_bind]
    exact (Outcomes.passes_chained_fail c).answers_started hw.sound hG hGfinal hp hpfinal hc
      (Outcomes.pulled_chained_empty p c [(fail, c)] w.store) k

/-- The laws for a parser of the caller's own making, a choice that consumes a symbol, and three
    pulls, which is one more than there are outcomes of `p` and `q` together. -/
theorem Parser.single_choice_laws :
    let c : Cursor Nat := ⟨0, 0, 0, some 7⟩
    let st := World.pair.store
    let p : Parser Nat Unit (fun _ => Empty) Nat := .single 5
    let q : Parser Nat Unit (fun _ => Empty) Nat := .item
    let r : Parser Nat Unit (fun _ => Empty) Nat := .unit 6
    let f : Nat → Parser Nat Unit (fun _ => Empty) Nat := fun v => .mapPure (· + v) .item
    let m : Nat → Call Unit Nat := fun v => ⟨[()], .ok (v + 1)⟩
    let d : Nat → Call Unit Bool := fun v => .pure (decide (v = 5))
    let same (p q : Parser Nat Unit (fun _ => Empty) Nat) : Prop :=
      SameAnswers .empty c 3 st p q
    same ((p.or q).or r) (p.or (q.or r)) ∧
      same (fail.or p) p ∧ same (p.or fail) p ∧
      same ((p.or q).bind f) ((p.bind f).or (q.bind f)) ∧ same (fail.bind f) fail ∧
      same ((p.or q).map m) ((p.map m).or (q.map m)) ∧ same (fail.map m) fail ∧
      same ((p.or q).filter d) ((p.filter d).or (q.filter d)) ∧ same (fail.filter d) fail := by
  intro c st p q r f m d same
  let _ : Carrier Nat := .none
  exact choice_laws World.reachable_pair (fun _ r => r.elim) (fun _ r => r.elim) q r f m d
    (honest_single 5 _) (final_single 5 World.pair.known) (List.mem_singleton.mpr rfl) 2

end Backtrack
