import Backtrack.Proofs.Ending

/-!
# Monad laws — pull by pull

`unit` and `bind` satisfy the laws of a monad, not only for the lists of outcomes but pull by pull:
after every pull both sides have given the same answers and left the same store.

The two unit laws say that a sequence passes unchanged through one more layer of `bind`. The layer
is put away at the end of the sequence, where the sequence itself would be pulled again, so it
matters that ends are final.

Associativity relates two machines that are nested in different ways. Both have three sequences at
work, the outcomes of `p`, what is left of `f` and what is left of `g`, and both ask them in the
same order: a turn of one machine is a turn of the other (`Outcomes.Turns`). But in the first the
loop over `f` stands inside the loop over `g`, and in the second it is the other way round. So each
is shown to follow the other by an induction on the allowance for the outer loop, with one for the
inner loop inside.
-/

namespace Backtrack

open Store

universe u v

variable {σ ε : Type} {ρ : Type → Type} {α β γ : Type}

namespace Run

variable {δ : Type u} {η : Type v}

theorem done_bind (b : δ) (st : Store σ ε) (k : δ → Store σ ε → Run σ ε η) :
    (Run.done b st).bind k = k b st := rfl

theorem bind_congr {r : Run σ ε δ} {k l : δ → Store σ ε → Run σ ε η}
    (h : ∀ b st, r = .done b st → k b st = l b st) : r.bind k = r.bind l := by
  cases r with
  | done b st => exact h b st rfl
  | fault x st => rfl
  | unfinished => rfl

theorem Agrees.refl (r : Run σ ε δ) : Agrees Eq r r := by
  cases r with
  | done b st => exact .done st rfl
  | fault x st => exact .fault x st
  | unfinished => exact .unfinished

theorem Within.follows {R : δ → η → Prop} {r r' : Run σ ε δ} {x : Run σ ε η} (h : r.Within r')
    (h' : Follows R r' x) : Follows R r x := by
  rcases h with rfl | rfl
  · exact .unfinished x
  · exact h'

end Run

theorem Parser.start_follows {G : Grammar σ ε ρ} (p : Parser σ ε ρ α) (c : Cursor σ) (n : Nat)
    (st : Store σ ε) : Run.Follows Eq (p.start G n c st) (p.started G c st) :=
  .of_within ((p.start_tends G c st).rising.within_limit n)

namespace Outcomes

variable {G : Grammar σ ε ρ}

theorem pull_follows (s : Outcomes σ ε ρ α) (n : Nat) (st : Store σ ε) :
    Run.Follows Eq (s.pull G n st) (s.pulled G st) :=
  .of_within ((s.pull_tends G st).rising.within_limit n)

/-! ## One more layer -/

/-- A sequence that is over answers nothing any number of times. -/
theorem Over.answers (k : Nat) : ∀ {s : Outcomes σ ε ρ α} {st : Store σ ε}, s.Over st → st.Intact →
    s.answers G k st = .done (List.replicate k none) st := by
  induction k with
  | zero =>
      intro s st _ _
      rfl
  | succ k ih =>
      intro s st h hst
      obtain ⟨rest, hrest, hover⟩ := h.pulled hst G
      rw [Outcomes.answers, hrest]
      dsimp only [Run.bind]
      rw [ih hover hst]
      rfl

variable (G) in
/-- The layer passes the outcomes of a sequence on, and puts it away at its end. -/
def Passes (layer : Outcomes σ ε ρ α → Outcomes σ ε ρ α) : Prop :=
  ∀ s st, (layer s).pulled G st = (s.pulled G st).bind fun pulled st =>
    match pulled with
    | ⟨some o, s⟩ => .done ⟨some o, layer s⟩ st
    | ⟨none, _⟩   => .done ⟨none, .empty⟩ st

/-- Through such a layer come the answers of the sequence, if its end is final. -/
theorem Passes.answers [Carrier σ] {layer : Outcomes σ ε ρ α → Outcomes σ ε ρ α}
    (h : Passes G layer) (k : Nat) : ∀ {s : Outcomes σ ε ρ α} {st : Store σ ε}, s.Sound G st →
      s.Final st → (layer s).answers G k st = s.answers G k st := by
  induction k with
  | zero =>
      intro s st _ _
      rfl
  | succ k ih =>
      intro s st hs hfinal
      rw [Outcomes.answers, Outcomes.answers, h s st]
      cases hpulled : s.pulled G st with
      | fault x st => rfl
      | unfinished => rfl
      | done pulled st₁ =>
          rcases pulled with ⟨answer, rest⟩
          obtain ⟨n, hn⟩ := (pulled_eq_done_iff G st).mp hpulled
          obtain ⟨hrest, hover⟩ := Sound.pull_final n s hs hfinal hn
          have hsound := (hs.pulled hpulled).1
          cases answer with
          | some o =>
              dsimp only [Run.bind]
              rw [ih hsound hrest]
          | none =>
              have hempty : (empty : Outcomes σ ε ρ α).Over st₁ := .ready
              dsimp only [Run.bind]
              rw [(hover rfl).answers k hsound.intact, hempty.answers k hsound.intact]

theorem pulled_chained_nil (s : Outcomes σ ε ρ α) (st : Store σ ε) :
    (chained s []).pulled G st = (s.pulled G st).bind fun pulled st =>
      match pulled with
      | ⟨some o, s⟩ => .done ⟨some o, .chained s []⟩ st
      | ⟨none, _⟩   => .done ⟨none, .empty⟩ st := by
  rw [pulled_chained]
  refine Run.bind_congr fun pulled st _ => ?_
  rcases pulled with ⟨_ | o, s⟩ <;> rfl

theorem pulled_bound_empty (next : α → Parser σ ε ρ β) (outer : Outcomes σ ε ρ α)
    (st : Store σ ε) :
    (bound next outer .empty).pulled G st = (outer.pulled G st).bind fun pulled st =>
      match pulled with
      | ⟨none, _⟩       => .done ⟨none, .empty⟩ st
      | ⟨some o, outer⟩ =>
          ((next o.value).started G o.cursor st).bind fun inner st =>
            (bound next outer inner).pulled G st := by
  rw [pulled_bound, empty, pulled_ready_nil]
  rfl

/-- The first pull starts the parser that waits. -/
theorem pulled_bound_deferred (next : α → Parser σ ε ρ β) (p : Parser σ ε ρ α) (c : Cursor σ)
    (st : Store σ ε) :
    (bound next (.deferred p c) .empty).pulled G st = (p.started G c st).bind fun s st =>
      (bound next (.chained s []) .empty).pulled G st := by
  have hfirst : (deferred p c).pulled G st =
      (p.started G c st).bind fun s st => (chained s []).pulled G st := by
    rw [deferred, pulled_chained, empty, pulled_ready_nil]
    rfl
  rw [pulled_bound_empty, hfirst, Run.bind_assoc]
  refine Run.bind_congr fun s st _ => ?_
  rw [pulled_bound_empty]

/-- The continuation of an only outcome. -/
theorem passes_bound_spent (next : α → Parser σ ε ρ β) :
    Passes G (.bound next (.chained (.ready []) [])) := by
  intro s st
  rw [pulled_bound]
  refine Run.bind_congr fun pulled st _ => ?_
  rcases pulled with ⟨_ | o, s⟩
  · dsimp only
    rw [pulled_chained_nil, pulled_ready_nil]
    rfl
  · rfl

/-- The outcomes of a sequence, each given again. -/
theorem passes_bound_unit :
    Passes G fun s : Outcomes σ ε ρ α => .bound .unit (.chained s []) .empty := by
  intro s st
  rw [pulled_bound_empty, pulled_chained_nil, Run.bind_assoc]
  refine Run.bind_congr fun pulled st _ => ?_
  rcases pulled with ⟨_ | o, s⟩
  · rfl
  · dsimp only [Run.bind]
    rw [Parser.started_unit]
    dsimp only
    rw [pulled_bound, pulled_ready_cons]
    rfl

/-! ## Two ways to nest -/

section

variable (f : α → Parser σ ε ρ β) (g : β → Parser σ ε ρ γ)

/-- `bind` of a `bind`: given the outcomes `ps` of the first parser, what is left `fs` of the second
    and what is left `gs` of the third. -/
def leftward (ps : Outcomes σ ε ρ α) (fs : Outcomes σ ε ρ β) (gs : Outcomes σ ε ρ γ) :
    Outcomes σ ε ρ γ :=
  .bound g (.chained (.bound f ps fs) []) gs

/-- The same for a `bind` into a `bind`. -/
def rightward (ps : Outcomes σ ε ρ α) (fs : Outcomes σ ε ρ β) (gs : Outcomes σ ε ρ γ) :
    Outcomes σ ε ρ γ :=
  .bound (fun v => (f v).bind g) ps (.bound g (.chained fs []) gs)

variable (G)
variable (machine : Outcomes σ ε ρ α → Outcomes σ ε ρ β → Outcomes σ ε ρ γ → Outcomes σ ε ρ γ)

/-- What a machine does when nothing is left of the second parser: it goes to the next outcome of
    the first. -/
noncomputable def restarted (ps : Outcomes σ ε ρ α) (st : Store σ ε) : Run σ ε (Pull σ ε ρ γ) :=
  (ps.pulled G st).bind fun pulled st =>
    match pulled with
    | ⟨none, _⟩    => .done ⟨none, .empty⟩ st
    | ⟨some o, ps⟩ =>
        ((f o.value).started G o.cursor st).bind fun fs st => (machine ps fs .empty).pulled G st

/-- What a machine does when nothing is left of the third parser: it goes to the next outcome of the
    second. -/
noncomputable def resumed (ps : Outcomes σ ε ρ α) (fs : Outcomes σ ε ρ β) (st : Store σ ε) :
    Run σ ε (Pull σ ε ρ γ) :=
  (fs.pulled G st).bind fun pulled st =>
    match pulled with
    | ⟨none, _⟩    => restarted G f machine ps st
    | ⟨some o, fs⟩ =>
        ((g o.value).started G o.cursor st).bind fun gs st => (machine ps fs gs).pulled G st

/-- The machine asks the third parser first and then resumes. -/
def Turns : Prop :=
  ∀ ps fs gs st, (machine ps fs gs).pulled G st = (gs.pulled G st).bind fun pulled st =>
    match pulled with
    | ⟨some o, gs⟩ => .done ⟨some o, machine ps fs gs⟩ st
    | ⟨none, _⟩    => resumed G f g machine ps fs st

variable {G machine} {f g}

theorem Turns.pulled_empty (h : Turns G f g machine) (ps : Outcomes σ ε ρ α)
    (fs : Outcomes σ ε ρ β) (st : Store σ ε) :
    (machine ps fs .empty).pulled G st = resumed G f g machine ps fs st := by
  rw [h, empty, pulled_ready_nil]
  rfl

end

theorem turns_leftward (f : α → Parser σ ε ρ β) (g : β → Parser σ ε ρ γ) :
    Turns G f g (leftward f g) := by
  intro ps fs gs st
  rw [leftward, pulled_bound]
  refine Run.bind_congr fun pulled st _ => ?_
  rcases pulled with ⟨_ | o, gs⟩
  · dsimp only
    rw [resumed, pulled_chained_nil, pulled_bound, Run.bind_assoc, Run.bind_assoc]
    refine Run.bind_congr fun pulled st _ => ?_
    rcases pulled with ⟨_ | o, fs⟩
    · dsimp only
      rw [restarted, Run.bind_assoc]
      refine Run.bind_congr fun pulled st _ => ?_
      rcases pulled with ⟨_ | o, ps⟩
      · rfl
      · dsimp only
        rw [Run.bind_assoc]
        refine Run.bind_congr fun fs st _ => ?_
        -- the loop over the second parser goes on, as it does after an empty third
        have hloop := pulled_bound_empty (G := G) g (.chained (.bound f ps fs) []) st
        rw [pulled_chained_nil, Run.bind_assoc] at hloop
        exact hloop.symm
    · rfl
  · rfl

theorem turns_rightward (f : α → Parser σ ε ρ β) (g : β → Parser σ ε ρ γ) :
    Turns G f g (rightward f g) := by
  intro ps fs gs st
  rw [rightward, pulled_bound, pulled_bound, Run.bind_assoc]
  refine Run.bind_congr fun pulled st _ => ?_
  rcases pulled with ⟨_ | o, gs⟩
  · dsimp only
    rw [resumed, pulled_chained_nil, Run.bind_assoc, Run.bind_assoc]
    refine Run.bind_congr fun pulled st _ => ?_
    rcases pulled with ⟨_ | o, fs⟩
    · dsimp only
      rw [Run.done_bind, Run.done_bind, restarted]
      refine Run.bind_congr fun pulled st _ => ?_
      rcases pulled with ⟨_ | o, ps⟩
      · rfl
      · dsimp only
        rw [Parser.started_bind, Run.done_bind, pulled_bound, pulled_bound_deferred,
          Run.bind_assoc]
        refine Run.bind_congr fun fs st _ => ?_
        exact (pulled_bound G st _ ps _).symm
    · dsimp only
      rw [Run.done_bind, Run.bind_assoc]
      refine Run.bind_congr fun gs st _ => ?_
      exact (pulled_bound G st _ ps _).symm
  · rfl

/-- The two machines have given the same answer, and have the same sequences at work. -/
inductive Regrouped (f : α → Parser σ ε ρ β) (g : β → Parser σ ε ρ γ) :
    Pull σ ε ρ γ → Pull σ ε ρ γ → Prop where
  | some (o : Outcome σ γ) (ps : Outcomes σ ε ρ α) (fs : Outcomes σ ε ρ β)
      (gs : Outcomes σ ε ρ γ) :
      Regrouped f g ⟨some o, leftward f g ps fs gs⟩ ⟨some o, rightward f g ps fs gs⟩
  | none : Regrouped f g ⟨none, .empty⟩ ⟨none, .empty⟩

section

variable {f : α → Parser σ ε ρ β} {g : β → Parser σ ε ρ γ}

/-- The loop over the second parser, which stands inside in the first machine: `k` is what the loop
    over the third does with its answer. -/
theorem follows_resumed {n : Nat} {k : Pull σ ε ρ β → Store σ ε → Run σ ε (Pull σ ε ρ γ)}
    (hnone : ∀ fs st, k ⟨none, fs⟩ st = .done ⟨none, .empty⟩ st)
    (hsome : ∀ o fs st, k ⟨some o, fs⟩ st = ((g o.value).start G n o.cursor st).bind fun gs st =>
      (bound g (.chained fs []) gs).pull G n st)
    (ih : ∀ ps fs gs st, Run.Follows (Regrouped f g) ((leftward f g ps fs gs).pull G n st)
      ((rightward f g ps fs gs).pulled G st)) (m : Nat) :
    ∀ ps fs st, Run.Follows (Regrouped f g) (((bound f ps fs).pull G m st).bind k)
      (resumed G f g (rightward f g) ps fs st) := by
  induction m with
  | zero =>
      intro ps fs st
      exact .unfinished _
  | succ m ihm =>
      intro ps fs st
      rw [pull, resumed, Run.bind_assoc]
      refine (fs.pull_follows m st).bind ?_
      rintro ⟨_ | o, fs⟩ _ st rfl
      · dsimp only
        rw [restarted, Run.bind_assoc]
        refine (ps.pull_follows m st).bind ?_
        rintro ⟨_ | o, ps⟩ _ st rfl
        · dsimp only
          rw [Run.done_bind, hnone]
          exact .done st .none
        · dsimp only
          rw [Run.bind_assoc]
          refine ((f o.value).start_follows o.cursor m st).bind ?_
          rintro fs _ st rfl
          rw [(turns_rightward f g).pulled_empty]
          exact ihm ps fs st
      · dsimp only
        rw [Run.done_bind, hsome]
        refine ((g o.value).start_follows o.cursor n st).bind ?_
        rintro gs _ st rfl
        exact ih ps fs gs st

/-- The first machine, under any allowance, follows the second. -/
theorem leftward_follows (n : Nat) : ∀ ps fs gs st,
    Run.Follows (Regrouped f g) ((leftward f g ps fs gs).pull G n st)
      ((rightward f g ps fs gs).pulled G st) := by
  induction n with
  | zero =>
      intro ps fs gs st
      exact .unfinished _
  | succ n ih =>
      intro ps fs gs st
      rw [leftward, pull, turns_rightward]
      refine (gs.pull_follows n st).bind ?_
      rintro ⟨_ | o, gs⟩ _ st rfl
      · cases n with
        | zero => exact .unfinished _
        | succ n =>
            dsimp only
            rw [pull, Run.bind_assoc]
            exact follows_resumed (fun _ _ => rfl) (fun _ _ _ => rfl) ih n ps fs st
      · exact .done st (.some o ps fs gs)

/-- A `bind` that waits does nothing before the first of its two parsers is started. -/
theorem pull_bound_deferred_within (q : Parser σ ε ρ β) (c : Cursor σ) (n : Nat) (st : Store σ ε) :
    ((bound g (.deferred q c) .empty).pull G n st).Within
      ((q.start G n c st).bind fun fs st => (bound g (.chained fs []) .empty).pull G n st) := by
  match n with
  | 0 => exact .unfinished _
  | 1 => exact .unfinished _
  | 2 => exact .unfinished _
  | n + 3 =>
      show Run.Within (((q.start G (n + 1) c st).bind fun fs st =>
        (chained fs []).pull G (n + 1) st).bind _) _
      rw [Run.bind_assoc]
      refine ((q.start_within_succ G (n + 1) c st).trans (q.start_within_succ G _ c st)).bind ?_
      intro fs st
      exact ((chained fs []).pull_within_succ G (n + 1) st).bind fun _ _ => .refl _

/-- The loop over the third parser, which stands inside in the second machine: `k` is what the loop
    over the first does with its answer. -/
theorem follows_leftward {ps : Outcomes σ ε ρ α}
    {k : Pull σ ε ρ γ → Store σ ε → Run σ ε (Pull σ ε ρ γ)}
    (hnone : ∀ gs st, Run.Follows (fun y x => Regrouped f g x y) (k ⟨none, gs⟩ st)
      (restarted G f (leftward f g) ps st))
    (hsome : ∀ o gs st, k ⟨some o, gs⟩ st =
      .done ⟨some o, .bound (fun v => (f v).bind g) ps gs⟩ st) (m : Nat) :
    ∀ fs gs st, Run.Follows (fun y x => Regrouped f g x y)
      (((bound g (.chained fs []) gs).pull G m st).bind k)
      ((leftward f g ps fs gs).pulled G st) := by
  induction m with
  | zero =>
      intro fs gs st
      exact .unfinished _
  | succ m ihm =>
      intro fs gs st
      rw [pull, turns_leftward, Run.bind_assoc]
      refine (gs.pull_follows m st).bind ?_
      rintro ⟨_ | o, gs⟩ _ st rfl
      · dsimp only
        rw [Run.bind_assoc, resumed]
        cases m with
        | zero => exact .unfinished _
        | succ m =>
            rw [pull, Run.bind_assoc]
            refine (fs.pull_follows m st).bind ?_
            rintro ⟨_ | o, fs⟩ _ st rfl
            · exact hnone _ st
            · dsimp only
              rw [Run.done_bind, Run.bind_assoc]
              refine ((g o.value).start_follows o.cursor _ st).bind ?_
              rintro gs _ st rfl
              exact ihm fs gs st
      · dsimp only
        rw [Run.done_bind, hsome]
        exact .done st (.some o ps fs gs)

/-- The second machine, under any allowance, follows the first. -/
theorem rightward_follows (n : Nat) : ∀ ps fs gs st,
    Run.Follows (fun y x => Regrouped f g x y) ((rightward f g ps fs gs).pull G n st)
      ((leftward f g ps fs gs).pulled G st) := by
  induction n with
  | zero =>
      intro ps fs gs st
      exact .unfinished _
  | succ n ih =>
      intro ps fs gs st
      rw [rightward, pull]
      refine follows_leftward (fun gs st => ?_) (fun _ _ _ => rfl) n fs gs st
      refine (ps.pull_follows n st).bind ?_
      rintro ⟨_ | o, ps⟩ _ st rfl
      · exact .done st .none
      · cases n with
        | zero => exact .unfinished _
        | succ n =>
            dsimp only
            rw [Parser.start, Run.done_bind, pull]
            have hwithin := pull_bound_deferred_within (G := G) (g := g) (f o.value) o.cursor n st
            refine (hwithin.bind fun _ _ => .refl _).follows ?_
            rw [Run.bind_assoc]
            refine ((f o.value).start_follows o.cursor n st).bind ?_
            rintro fs _ st rfl
            exact ih ps fs .empty st

/-- The two machines give the same answer and leave the same store. -/
theorem leftward_agrees (ps : Outcomes σ ε ρ α) (fs : Outcomes σ ε ρ β) (gs : Outcomes σ ε ρ γ)
    (st : Store σ ε) :
    Run.Agrees (Regrouped f g) ((leftward f g ps fs gs).pulled G st)
      ((rightward f g ps fs gs).pulled G st) := by
  refine Run.Follows.agrees (.limit fun n => leftward_follows n ps fs gs st) fun hleft => ?_
  -- where the first machine comes to no answer, the second, which follows it, comes to none
  have hright : Run.Follows (fun y x => Regrouped f g x y) ((rightward f g ps fs gs).pulled G st)
      ((leftward f g ps fs gs).pulled G st) := .limit fun n => rightward_follows n ps fs gs st
  rw [hleft] at hright
  generalize (rightward f g ps fs gs).pulled G st = r at hright
  cases hright
  rfl

theorem answers_leftward (k : Nat) : ∀ (ps : Outcomes σ ε ρ α) (fs : Outcomes σ ε ρ β)
    (gs : Outcomes σ ε ρ γ) (st : Store σ ε),
      (leftward f g ps fs gs).answers G k st = (rightward f g ps fs gs).answers G k st := by
  induction k with
  | zero =>
      intro ps fs gs st
      rfl
  | succ k ih =>
      intro ps fs gs st
      refine ((leftward_agrees ps fs gs st).bind fun x y st hxy => ?_).eq
      cases hxy with
      | some o ps fs gs =>
          dsimp only
          rw [ih ps fs gs st]
          exact .refl _
      | none => exact .refl _

end

/-! ## The laws -/

/-- The first pull of a `bind` behind `unit` starts the continuation. -/
theorem pulled_bound_unit (f : α → Parser σ ε ρ β) (x : α) (c : Cursor σ) (st : Store σ ε) :
    (bound f (.deferred (.unit x) c) .empty).pulled G st =
      ((f x).started G c st).bind fun s st =>
        (bound f (.chained (.ready []) []) s).pulled G st := by
  rw [pulled_bound_deferred, Parser.started_unit, Run.done_bind, pulled_bound_empty,
    pulled_chained_nil, pulled_ready_cons]
  rfl

/-- The first pull sets the first machine going. -/
theorem pulled_bound_bind (f : α → Parser σ ε ρ β) (g : β → Parser σ ε ρ γ) (p : Parser σ ε ρ α)
    (c : Cursor σ) (st : Store σ ε) :
    (bound g (.deferred (p.bind f) c) .empty).pulled G st =
      (leftward f g (.deferred p c) .empty .empty).pulled G st := by
  rw [pulled_bound_deferred, Parser.started_bind]
  rfl

/-- The first pull sets the second machine going. -/
theorem pulled_bound_into_bind (f : α → Parser σ ε ρ β) (g : β → Parser σ ε ρ γ)
    (p : Parser σ ε ρ α) (c : Cursor σ) (st : Store σ ε) :
    (rightward f g (.deferred p c) .empty .empty).pulled G st =
      (bound (fun v => (f v).bind g) (.deferred p c) .empty).pulled G st := by
  rw [rightward, pulled_bound, pulled_bound_empty g, pulled_chained_nil, empty, pulled_ready_nil,
    ← empty, pulled_bound_empty]
  rfl

/-- What the first answers are is a matter of the first pull. -/
theorem answers_succ_congr {s s' : Outcomes σ ε ρ α} {st : Store σ ε}
    (h : s.pulled G st = s'.pulled G st) (k : Nat) :
    s.answers G (k + 1) st = s'.answers G (k + 1) st := by
  rw [answers, answers, h]

/-- The first pull may consist in starting a parser and pulling its sequence. -/
theorem answers_succ_of_started (layer : Outcomes σ ε ρ β → Outcomes σ ε ρ α)
    {s : Outcomes σ ε ρ α} {p : Parser σ ε ρ β} {c : Cursor σ} {st : Store σ ε}
    (h : s.pulled G st = (p.started G c st).bind fun t st => (layer t).pulled G st) (k : Nat) :
    s.answers G (k + 1) st =
      (p.started G c st).bind fun t st => (layer t).answers G (k + 1) st := by
  rw [answers, h, Run.bind_assoc]
  rfl

end Outcomes

/-- Start a parser at a cursor and pull `k` times: the answers in order. -/
noncomputable def Parser.answers (G : Grammar σ ε ρ) (p : Parser σ ε ρ α) (c : Cursor σ) (k : Nat)
    (st : Store σ ε) : Run σ ε (List (Option (Outcome σ α))) :=
  (p.started G c st).bind fun s st => s.answers G k st

/-- The answer of a pull that has been made, and those to `k` further ones. -/
noncomputable def Pull.answers (G : Grammar σ ε ρ) (k : Nat) (pulled : Pull σ ε ρ α)
    (st : Store σ ε) : Run σ ε (List (Option (Outcome σ α))) :=
  (pulled.rest.answers G k st).bind fun answers st => .done (pulled.answer :: answers) st

/-- The first pull comes as soon as the parser is started. -/
theorem Parser.answers_succ (G : Grammar σ ε ρ) (p : Parser σ ε ρ α) (c : Cursor σ) (k : Nat)
    (st : Store σ ε) :
    p.answers G c (k + 1) st =
      ((p.started G c st).bind fun s st => s.pulled G st).bind fun x st => x.answers G k st := by
  rw [Run.bind_assoc]
  rfl

/-- **MONAD LAWS, PULL BY PULL.** Callers who have got to a world by whatever steps start parsers at
    one of their cursors and make one pull or more. Then `unit` on the left of `bind` comes to the
    continuation itself, `unit` on the right of `bind` to the parser itself, and it makes no
    difference which of two `bind`s stands inside the other: the same answers, with equal values at
    the same places, or the same fault, or no answer at all; and the same store in the end, with the
    same reads and the same remarks in its log. Of parsers of the caller's own making it is assumed
    that their own sequences end for good. -/
theorem Parser.monad_laws [Carrier σ] {w : World σ ε} (hw : w.Reachable) {G : Grammar σ ε ρ}
    (hG : G.Honest w.known) (hGfinal : G.Final w.known) {p : Parser σ ε ρ α} {x : α}
    {f : α → Parser σ ε ρ β} (g : β → Parser σ ε ρ γ) (hp : p.Honest w.known)
    (hpfinal : p.Final w.known) (hf : (f x).Honest w.known) (hffinal : (f x).Final w.known)
    {c : Cursor σ} (hc : c ∈ w.cursors) (k : Nat) :
    ((unit x).bind f).answers G c (k + 1) w.store = (f x).answers G c (k + 1) w.store ∧
      (p.bind unit).answers G c (k + 1) w.store = p.answers G c (k + 1) w.store ∧
      ((p.bind f).bind g).answers G c (k + 1) w.store
        = (p.bind fun v => (f v).bind g).answers G c (k + 1) w.store := by
  have hsound := hw.sound
  refine ⟨?_, ?_, ?_⟩
  · rw [answers, started_bind, Run.done_bind, Outcomes.answers_succ_of_started
      (.bound f (.chained (.ready []) [])) (Outcomes.pulled_bound_unit f x c w.store)]
    refine Run.bind_congr fun s st hstart => ?_
    exact (Outcomes.passes_bound_spent f).answers (k + 1) (hsound.started hG hf hc hstart).1
      (hsound.started_final hGfinal hffinal hc hstart)
  · rw [answers, started_bind, Run.done_bind, Outcomes.answers_succ_of_started
      (fun s => .bound unit (.chained s []) .empty)
      (Outcomes.pulled_bound_deferred unit p c w.store)]
    refine Run.bind_congr fun s st hstart => ?_
    exact Outcomes.passes_bound_unit.answers (k + 1) (hsound.started hG hp hc hstart).1
      (hsound.started_final hGfinal hpfinal hc hstart)
  · calc ((p.bind f).bind g).answers G c (k + 1) w.store
        = (Outcomes.leftward f g (.deferred p c) .empty .empty).answers G (k + 1) w.store := by
          rw [answers, started_bind, Run.done_bind]
          exact Outcomes.answers_succ_congr (Outcomes.pulled_bound_bind f g p c w.store) k
      _ = (Outcomes.rightward f g (.deferred p c) .empty .empty).answers G (k + 1) w.store :=
          Outcomes.answers_leftward (k + 1) _ _ _ w.store
      _ = (p.bind fun v => (f v).bind g).answers G c (k + 1) w.store := by
          rw [answers, started_bind, Run.done_bind]
          exact Outcomes.answers_succ_congr (Outcomes.pulled_bound_into_bind f g p c w.store) k

/-- The laws for a parser of the caller's own making, a continuation that depends on the value and
    three pulls, one more than there are outcomes. -/
theorem Parser.single_monad_laws :
    let c : Cursor Nat := ⟨0, 0, 0, some 7⟩
    let st := World.pair.store
    let p : Parser Nat Unit (fun _ => Empty) Nat := .single 5
    let f : Nat → Parser Nat Unit (fun _ => Empty) Nat := fun v =>
      .or (.mapPure (· + v) .item) (.unit v)
    let g : Nat → Parser Nat Unit (fun _ => Empty) (Nat × Nat) := fun v => .unit (v, v)
    ((unit 5).bind f).answers .empty c 3 st = (f 5).answers .empty c 3 st ∧
      (p.bind unit).answers .empty c 3 st = p.answers .empty c 3 st ∧
      ((p.bind f).bind g).answers .empty c 3 st
        = (p.bind fun v => (f v).bind g).answers .empty c 3 st := by
  intro c st p f g
  let _ : Carrier Nat := .none
  have hplain : (f 5).Plain := ⟨trivial, trivial⟩
  exact monad_laws World.reachable_pair (fun _ r => r.elim) (fun _ r => r.elim) g
    (honest_single 5 _) (final_single 5 World.pair.known) (hplain.honest _) trivial
    (List.mem_singleton.mpr rfl) 2

end Backtrack
