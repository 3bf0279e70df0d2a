import Backtrack.Allowance

/-!
# Runs without an allowance

An allowance that was enough stays enough, so the runs under growing allowances have a limit: the
finished run, if some allowance suffices, and an unfinished one, if none does. `Parser.started` and
`Outcomes.pulled` are these limits. They satisfy the equations of `Parser.start` and `Outcomes.pull`
with the allowance left out, and these equations are how a sequence is reasoned about: nothing below
speaks of allowances except to prove two limits equal, which is done by showing each side within the
other.
-/

namespace Backtrack

universe u v w w'

variable {σ ε : Type} {ρ : Type → Type} {α β γ : Type}

namespace Run

variable {δ : Type u} {η : Type v} {ι : Type w}

theorem Within.antisymm {r r' : Run σ ε δ} (h : r.Within r') (h' : r'.Within r) : r = r' := by
  rcases h with rfl | h
  · rcases h' with rfl | h'
    · rfl
    · exact h'.symm
  · exact h

theorem bind_assoc (r : Run σ ε δ) (k : δ → Store σ ε → Run σ ε η)
    (l : η → Store σ ε → Run σ ε ι) :
    (r.bind k).bind l = r.bind fun b st => (k b st).bind l := by
  cases r <;> rfl

/-- If a run does not get through two parts, then it is stuck in the first or in the second. -/
theorem Within.of_bind_unfinished {r r' : Run σ ε δ} {k : δ → Store σ ε → Run σ ε η}
    (h : r.Within r') (hk : r'.bind k = .unfinished) :
    r = .unfinished ∨ ∃ b st, r = .done b st ∧ k b st = .unfinished := by
  rcases h with h | rfl
  · exact Or.inl h
  · cases r with
    | done b st => exact Or.inr ⟨b, st, rfl, hk⟩
    | fault x st => exact nomatch hk
    | unfinished => exact Or.inl rfl

/-- Runs under growing allowances, each agreeing with the next as far as it got. -/
def Rising (r : Nat → Run σ ε δ) : Prop :=
  ∀ n, (r n).Within (r (n + 1))

open Classical in
/-- What the runs come to in the end: the finished one, if there is one. -/
noncomputable def limit (r : Nat → Run σ ε δ) : Run σ ε δ :=
  if h : ∃ n, r n ≠ .unfinished then r (choose h) else .unfinished

theorem limit_within {r : Nat → Run σ ε δ} {x : Run σ ε δ} (h : ∀ n, (r n).Within x) :
    (limit r).Within x := by
  rw [limit]
  split
  · exact h _
  · exact Within.unfinished _

theorem limit_const (x : Run σ ε δ) : limit (fun _ => x) = x := by
  refine Within.antisymm (limit_within fun _ => .refl x) ?_
  by_cases hx : x = .unfinished
  · exact Or.inl hx
  · rw [limit, dif_pos ⟨0, hx⟩]
    exact .refl x

namespace Rising

variable {r : Nat → Run σ ε δ}

theorem within_of_le (h : Rising r) {n m : Nat} (hnm : n ≤ m) : (r n).Within (r m) := by
  induction hnm with
  | refl => exact .refl _
  | step _ ih => exact ih.trans (h _)

theorem within_limit (h : Rising r) (n : Nat) : (r n).Within (limit r) := by
  by_cases hn : r n = .unfinished
  · exact Or.inl hn
  · have hex : ∃ n, r n ≠ .unfinished := ⟨n, hn⟩
    have hchosen := Classical.choose_spec hex
    rw [limit, dif_pos hex]
    -- two finished runs agree, whichever has the greater allowance
    rcases Nat.le_total n (Classical.choose hex) with hle | hle
    · exact h.within_of_le hle
    · exact Or.inr ((h.within_of_le hle).eq_of_finished hchosen)

/-- The limit is finished exactly when some allowance suffices. -/
theorem limit_eq_iff (h : Rising r) {x : Run σ ε δ} (hx : x ≠ .unfinished) :
    limit r = x ↔ ∃ n, r n = x := by
  constructor
  · intro hlim
    by_cases hex : ∃ n, r n ≠ .unfinished
    · rw [limit, dif_pos hex] at hlim
      exact ⟨_, hlim⟩
    · rw [limit, dif_neg hex] at hlim
      exact absurd hlim.symm hx
  · rintro ⟨n, rfl⟩
    exact (h.within_limit n).eq_of_finished hx

theorem limit_succ (h : Rising r) : limit (fun n => r (n + 1)) = limit r := by
  refine Within.antisymm (limit_within fun n => h.within_limit (n + 1)) ?_
  refine limit_within fun n => (h n).trans ?_
  exact within_limit (r := fun n => r (n + 1)) (fun n => h (n + 1)) n

end Rising

/-- What holds between the runs under every allowance holds in the limit, if only unfinished runs go
    with unfinished ones. -/
theorem limit_rel {R : Run σ ε δ → Run σ ε η → Prop} {r₁ : Nat → Run σ ε δ} {r₂ : Nat → Run σ ε η}
    (h₁ : Rising r₁) (h₂ : Rising r₂) (h : ∀ n, R (r₁ n) (r₂ n))
    (hiff : ∀ {r r'}, R r r' → (r = .unfinished ↔ r' = .unfinished)) :
    R (limit r₁) (limit r₂) := by
  by_cases hend : ∀ n, r₁ n = .unfinished
  · have hend' : ∀ n, r₂ n = .unfinished := fun n => (hiff (h n)).mp (hend n)
    have hzero := h 0
    rw [hend, hend'] at hzero
    rw [funext hend, funext hend', limit_const, limit_const]
    exact hzero
  · -- some allowance suffices for both, and what it gives is the limit
    obtain ⟨n, hn⟩ := Classical.not_forall.mp hend
    have hn' : r₂ n ≠ .unfinished := fun hc => hn ((hiff (h n)).mpr hc)
    rw [(h₁.limit_eq_iff hn).mpr ⟨n, rfl⟩, (h₂.limit_eq_iff hn').mpr ⟨n, rfl⟩]
    exact h n

/-- The runs rise, and `x` is what they come to. -/
structure Tends (r : Nat → Run σ ε δ) (x : Run σ ε δ) : Prop where
  rising : Rising r
  limit  : limit r = x

namespace Tends

theorem const (x : Run σ ε δ) : Tends (fun _ => x) x :=
  ⟨fun _ => .refl x, limit_const x⟩

/-- Runs in two parts tend to the limit of the first part, then that of the second. -/
theorem bind {r : Nat → Run σ ε δ} {x : Run σ ε δ} {k : Nat → δ → Store σ ε → Run σ ε η}
    {l : δ → Store σ ε → Run σ ε η} (h : Tends r x) (hk : ∀ b st, Tends (k · b st) (l b st)) :
    Tends (fun n => (r n).bind (k n)) (x.bind l) := by
  have hboth : Rising fun n => (r n).bind (k n) :=
    fun n => (h.rising n).bind fun b st => (hk b st).rising n
  refine ⟨hboth, Within.antisymm (limit_within fun n => ?_) ?_⟩
  · rw [← h.limit]
    refine (h.rising.within_limit n).bind ?_
    intro b st
    rw [← (hk b st).limit]
    exact (hk b st).rising.within_limit n
  · by_cases hx : x = .unfinished
    · rw [hx]
      exact .unfinished _
    · obtain ⟨n₀, hn₀⟩ := (h.rising.limit_eq_iff hx).mp h.limit
      have hr : ∀ m, n₀ ≤ m → r m = x := fun m hm =>
        ((h.rising.within_of_le hm).eq_of_finished (hn₀ ▸ hx)).trans hn₀
      cases x with
      | unfinished => exact absurd rfl hx
      | fault cause st =>
          -- a fault of the first part is a fault of the whole
          have hn := hboth.within_limit n₀
          rw [hn₀] at hn
          exact hn
      | done b st =>
          show (l b st).Within _
          rw [← (hk b st).limit]
          refine limit_within ?_
          intro n
          -- both parts are finished under the greater of the two allowances
          have hm := hboth.within_limit (max n n₀)
          rw [hr _ (Nat.le_max_right n n₀)] at hm
          exact ((hk b st).rising.within_of_le (Nat.le_max_left n n₀)).trans hm

end Tends

end Run

namespace Run

variable {δ : Type u} {η : Type v}

/-- A run follows another when it is unfinished, or both end in the same way: with the same fault,
    or with results that `R` relates; and in the same store. -/
inductive Follows (R : δ → η → Prop) : Run σ ε δ → Run σ ε η → Prop where
  | done {a : δ} {b : η} (st : Store σ ε) (h : R a b) : Follows R (.done a st) (.done b st)
  | fault (x : Fault) (st : Store σ ε) : Follows R (.fault x st) (.fault x st)
  | unfinished (r : Run σ ε η) : Follows R .unfinished r

namespace Follows

variable {R : δ → η → Prop}

theorem of_within {r r' : Run σ ε δ} (h : r.Within r') : Follows Eq r r' := by
  rcases h with rfl | rfl
  · exact .unfinished _
  · cases r with
    | done a st => exact .done st rfl
    | fault x st => exact .fault x st
    | unfinished => exact .unfinished _

theorem bind {δ' : Type w} {η' : Type w'} {S : δ' → η' → Prop} {r : Run σ ε δ} {r' : Run σ ε η}
    {k : δ → Store σ ε → Run σ ε δ'} {l : η → Store σ ε → Run σ ε η'} (h : Follows R r r')
    (hk : ∀ a b st, R a b → Follows S (k a st) (l b st)) : Follows S (r.bind k) (r'.bind l) := by
  cases h with
  | done st h => exact hk _ _ st h
  | fault x st => exact .fault x st
  | unfinished => exact .unfinished _

theorem limit {r : Nat → Run σ ε δ} {x : Run σ ε η} (h : ∀ n, Follows R (r n) x) :
    Follows R (limit r) x := by
  rw [Run.limit]
  split
  · exact h _
  · exact .unfinished x

end Follows

/-- Runs agree when both are unfinished, or both end in the same way. -/
inductive Agrees (R : δ → η → Prop) : Run σ ε δ → Run σ ε η → Prop where
  | done {a : δ} {b : η} (st : Store σ ε) (h : R a b) : Agrees R (.done a st) (.done b st)
  | fault (x : Fault) (st : Store σ ε) : Agrees R (.fault x st) (.fault x st)
  | unfinished : Agrees R .unfinished .unfinished

theorem Follows.agrees {R : δ → η → Prop} {r : Run σ ε δ} {r' : Run σ ε η} (h : Follows R r r')
    (hend : r = .unfinished → r' = .unfinished) : Agrees R r r' := by
  cases h with
  | done st h => exact .done st h
  | fault x st => exact .fault x st
  | unfinished =>
      rw [hend rfl]
      exact .unfinished

theorem Agrees.bind {δ' : Type w} {η' : Type w'} {R : δ → η → Prop} {S : δ' → η' → Prop}
    {r : Run σ ε δ} {r' : Run σ ε η} {k : δ → Store σ ε → Run σ ε δ'}
    {l : η → Store σ ε → Run σ ε η'} (h : Agrees R r r')
    (hk : ∀ a b st, R a b → Agrees S (k a st) (l b st)) : Agrees S (r.bind k) (r'.bind l) := by
  cases h with
  | done st h => exact hk _ _ st h
  | fault x st => exact .fault x st
  | unfinished => exact .unfinished

theorem Agrees.eq {r r' : Run σ ε δ} (h : Agrees Eq r r') : r = r' := by
  cases h with
  | done st h => rw [h]
  | fault x st => rfl
  | unfinished => rfl

end Run

/-- Start a parser, with as great an allowance as it takes. -/
noncomputable def Parser.started (G : Grammar σ ε ρ) (p : Parser σ ε ρ α) (c : Cursor σ)
    (st : Store σ ε) : Run σ ε (Outcomes σ ε ρ α) :=
  Run.limit fun n => p.start G n c st

/-- Pull the next outcome, with as great an allowance as it takes. -/
noncomputable def Outcomes.pulled (G : Grammar σ ε ρ) (s : Outcomes σ ε ρ α) (st : Store σ ε) :
    Run σ ε (Pull σ ε ρ α) :=
  Run.limit fun n => s.pull G n st

section

variable (G : Grammar σ ε ρ) (c : Cursor σ) (st : Store σ ε)

theorem Parser.start_tends (p : Parser σ ε ρ α) :
    Run.Tends (fun n => p.start G n c st) (p.started G c st) :=
  ⟨fun n => p.start_within_succ G n c st, rfl⟩

theorem Outcomes.pull_tends (s : Outcomes σ ε ρ α) :
    Run.Tends (fun n => s.pull G n st) (s.pulled G st) :=
  ⟨fun n => s.pull_within_succ G n st, rfl⟩

/-- A parser can be started when some allowance is enough for it. -/
theorem Parser.started_eq_done_iff {p : Parser σ ε ρ α} {s : Outcomes σ ε ρ α} {st' : Store σ ε} :
    p.started G c st = .done s st' ↔ ∃ n, p.start G n c st = .done s st' :=
  (p.start_tends G c st).rising.limit_eq_iff (by simp)

/-- A pull is answered when some allowance is enough for it. -/
theorem Outcomes.pulled_eq_done_iff {s : Outcomes σ ε ρ α} {x : Pull σ ε ρ α} {st' : Store σ ε} :
    s.pulled G st = .done x st' ↔ ∃ n, s.pull G n st = .done x st' :=
  (s.pull_tends G st).rising.limit_eq_iff (by simp)

/-- The answers to the next `k` pulls, in order. -/
noncomputable def Outcomes.answers : Nat → Outcomes σ ε ρ α → Store σ ε →
    Run σ ε (List (Option (Outcome σ α)))
  | 0,     _, st => .done [] st
  | k + 1, s, st =>
      (s.pulled G st).bind fun pulled st =>
        (Outcomes.answers k pulled.rest st).bind fun answers st =>
          .done (pulled.answer :: answers) st

/-! ## Starting -/

namespace Parser

theorem started_eq {p : Parser σ ε ρ α} {x : Run σ ε (Outcomes σ ε ρ α)}
    (h : Run.Tends (fun n => p.start G (n + 1) c st) x) : p.started G c st = x :=
  (p.start_tends G c st).rising.limit_succ.symm.trans h.limit

theorem started_unit (a : α) :
    (unit a : Parser σ ε ρ α).started G c st = .done (.ready [⟨a, c⟩]) st :=
  started_eq G c st (.const _)

theorem started_fail : (fail : Parser σ ε ρ α).started G c st = .done .empty st :=
  started_eq G c st (.const _)

theorem started_anySymbol (f : σ → α) :
    (anySymbol f : Parser σ ε ρ α).started G c st = .done (.consuming f c) st :=
  started_eq G c st (.const _)

theorem started_testSymbol (test : σ → Call ε Bool) (f : σ → α) :
    (testSymbol test f : Parser σ ε ρ α).started G c st =
      match c.current with
      | none   => .done .empty st
      | some x => ((test x).run st).bind fun ok st =>
          .done (if ok then .consuming f c else .empty) st :=
  started_eq G c st (.const _)

theorem started_finish (a : α) :
    (finish a : Parser σ ε ρ α).started G c st =
      .done (if c.isExhausted then .ready [⟨a, c⟩] else .empty) st :=
  started_eq G c st (.const _)

theorem started_map (f : α → Call ε β) (p : Parser σ ε ρ α) :
    (p.map f).started G c st = (p.started G c st).bind fun s st =>
      .done (.mapped (fun o => (f o.value).map o.withValue) s) st :=
  started_eq G c st ((p.start_tends G c st).bind fun _ _ => .const _)

theorem started_filter (test : α → Call ε Bool) (p : Parser σ ε ρ α) :
    (p.filter test).started G c st = (p.started G c st).bind fun s st =>
      .done (.filtered (fun o => test o.value) s) st :=
  started_eq G c st ((p.start_tends G c st).bind fun _ _ => .const _)

theorem started_bind (p : Parser σ ε ρ α) (next : α → Parser σ ε ρ β) :
    (p.bind next).started G c st = .done (.bound next (.deferred p c) .empty) st :=
  started_eq G c st (.const _)

theorem started_seq (f : α → β → γ) (p : Parser σ ε ρ α) (q : Parser σ ε ρ β) :
    (seq f p q).started G c st = .done (.paired f q (.deferred p c) none .empty) st :=
  started_eq G c st (.const _)

theorem started_or (p q : Parser σ ε ρ α) :
    (p.or q).started G c st = .done (.chained .empty [(p, c), (q, c)]) st :=
  started_eq G c st (.const _)

theorem started_repetition (least : Nat) (f : List α → β) (p : Parser σ ε ρ α) :
    (repetition least f p).started G c st = .done (.repeating least f p (some c) .bottom) st :=
  started_eq G c st (.const _)

theorem started_spanning (f : α → Span → β) (p : Parser σ ε ρ α) :
    (p.spanning f).started G c st = (p.started G c st).bind fun s st =>
      .done (.mapped (fun o =>
        .pure (o.withValue (f o.value ⟨c.position, o.cursor.position⟩))) s) st :=
  started_eq G c st ((p.start_tends G c st).bind fun _ _ => .const _)

theorem started_rule (r : ρ α) : (rule r).started G c st = (G.body r).started G c st :=
  started_eq G c st ((G.body r).start_tends G c st)

theorem started_remark (notes : Cursor σ → List ε) (p : Parser σ ε ρ α) :
    (p.remark notes).started G c st = p.started G c (st.remark (notes c)) :=
  started_eq G c st (p.start_tends G c _)

theorem started_abort (x : Fault) : (abort x : Parser σ ε ρ α).started G c st = .fault x st :=
  started_eq G c st (.const _)

theorem started_lookahead (p : Parser σ ε ρ α) :
    p.lookahead.started G c st = (p.started G c st).bind fun s st =>
      .done (.mapped (fun o => .pure ⟨o.value, c⟩) s) st :=
  started_eq G c st ((p.start_tends G c st).bind fun _ _ => .const _)

end Parser

/-! ## Pulling -/

namespace Outcomes

theorem pulled_eq {s : Outcomes σ ε ρ α} {x : Run σ ε (Pull σ ε ρ α)}
    (h : Run.Tends (fun n => s.pull G (n + 1) st) x) : s.pulled G st = x :=
  (s.pull_tends G st).rising.limit_succ.symm.trans h.limit

theorem pulled_ready_nil : (ready [] : Outcomes σ ε ρ α).pulled G st = .done ⟨none, .empty⟩ st :=
  pulled_eq G st (.const _)

theorem pulled_ready_cons (o : Outcome σ α) (os : List (Outcome σ α)) :
    (ready (o :: os) : Outcomes σ ε ρ α).pulled G st = .done ⟨some o, .ready os⟩ st :=
  pulled_eq G st (.const _)

theorem pulled_consuming (f : σ → α) :
    (consuming f c : Outcomes σ ε ρ α).pulled G st =
      match c.current with
      | none   => .done ⟨none, .empty⟩ st
      | some x => .done ⟨(st.advance c).1.map fun rest => ⟨f x, rest⟩, .empty⟩
          (st.advance c).2 :=
  pulled_eq G st (.const _)

theorem pulled_mapped (f : Outcome σ α → Call ε (Outcome σ β)) (s : Outcomes σ ε ρ α) :
    (mapped f s).pulled G st = (s.pulled G st).bind fun pulled st =>
      match pulled with
      | ⟨none, s⟩   => .done ⟨none, .mapped f s⟩ st
      | ⟨some o, s⟩ => ((f o).run st).bind fun o st => .done ⟨some o, .mapped f s⟩ st :=
  pulled_eq G st ((s.pull_tends G st).bind fun _ _ => .const _)

theorem pulled_filtered (test : Outcome σ α → Call ε Bool) (s : Outcomes σ ε ρ α) :
    (filtered test s).pulled G st = (s.pulled G st).bind fun pulled st =>
      match pulled with
      | ⟨none, s⟩   => .done ⟨none, .filtered test s⟩ st
      | ⟨some o, s⟩ => ((test o).run st).bind fun ok st =>
          if ok then .done ⟨some o, .filtered test s⟩ st else (filtered test s).pulled G st := by
  refine pulled_eq G st ((s.pull_tends G st).bind fun pulled st => ?_)
  rcases pulled with ⟨_ | o, s⟩
  · exact .const _
  · refine (Run.Tends.const _).bind ?_
    intro ok st
    cases ok
    · exact (filtered test s).pull_tends G st
    · exact .const _

theorem pulled_chained (s : Outcomes σ ε ρ α) (waiting : List (Parser σ ε ρ α × Cursor σ)) :
    (chained s waiting).pulled G st = (s.pulled G st).bind fun pulled st =>
      match pulled, waiting with
      | ⟨some o, s⟩, _                 => .done ⟨some o, .chained s waiting⟩ st
      | ⟨none, _⟩,   []                => .done ⟨none, .empty⟩ st
      | ⟨none, _⟩,   (p, c) :: waiting =>
          (p.started G c st).bind fun s st => (chained s waiting).pulled G st := by
  refine pulled_eq G st ((s.pull_tends G st).bind fun pulled st => ?_)
  rcases pulled with ⟨_ | o, s⟩
  · rcases waiting with _ | ⟨⟨p, c⟩, waiting⟩
    · exact .const _
    · exact (p.start_tends G c st).bind fun s st => (chained s waiting).pull_tends G st
  · exact .const _

theorem pulled_bound (next : α → Parser σ ε ρ β) (outer : Outcomes σ ε ρ α)
    (inner : Outcomes σ ε ρ β) :
    (bound next outer inner).pulled G st = (inner.pulled G st).bind fun pulled st =>
      match pulled with
      | ⟨some o, inner⟩ => .done ⟨some o, .bound next outer inner⟩ st
      | ⟨none, _⟩       =>
          (outer.pulled G st).bind fun pulled st =>
            match pulled with
            | ⟨none, _⟩       => .done ⟨none, .empty⟩ st
            | ⟨some o, outer⟩ =>
                ((next o.value).started G o.cursor st).bind fun inner st =>
                  (bound next outer inner).pulled G st := by
  refine pulled_eq G st ((inner.pull_tends G st).bind fun pulled st => ?_)
  rcases pulled with ⟨_ | o, inner⟩
  · refine (outer.pull_tends G st).bind ?_
    intro pulled st
    rcases pulled with ⟨_ | o, outer⟩
    · exact .const _
    · exact ((next o.value).start_tends G o.cursor st).bind fun inner st =>
        (bound next outer inner).pull_tends G st
  · exact .const _

theorem pulled_paired_none (f : α → β → γ) (q : Parser σ ε ρ β) (outer : Outcomes σ ε ρ α)
    (inner : Outcomes σ ε ρ β) :
    (paired f q outer none inner).pulled G st = (outer.pulled G st).bind fun pulled st =>
      match pulled with
      | ⟨none, _⟩       => .done ⟨none, .empty⟩ st
      | ⟨some o, outer⟩ =>
          (q.started G o.cursor st).bind fun inner st =>
            (paired f q outer (some o.value) inner).pulled G st := by
  refine pulled_eq G st ((outer.pull_tends G st).bind fun pulled st => ?_)
  rcases pulled with ⟨_ | o, outer⟩
  · exact .const _
  · exact (q.start_tends G o.cursor st).bind fun inner st =>
      (paired f q outer (some o.value) inner).pull_tends G st

theorem pulled_paired_some (f : α → β → γ) (q : Parser σ ε ρ β) (outer : Outcomes σ ε ρ α) (a : α)
    (inner : Outcomes σ ε ρ β) :
    (paired f q outer (some a) inner).pulled G st = (inner.pulled G st).bind fun pulled st =>
      match pulled with
      | ⟨some o, inner⟩ =>
          .done ⟨some (o.withValue (f a o.value)), .paired f q outer (some a) inner⟩ st
      | ⟨none, _⟩       => (paired f q outer none .empty).pulled G st := by
  refine pulled_eq G st ((inner.pull_tends G st).bind fun pulled st => ?_)
  rcases pulled with ⟨_ | o, inner⟩
  · exact (paired f q outer none .empty).pull_tends G st
  · exact .const _

section

variable (least : Nat) (f : List α → β) (p : Parser σ ε ρ α)

theorem pulled_repeating_root (frames : Frames σ ε ρ α) :
    (repeating least f p (some c) frames).pulled G st = (p.started G c st).bind fun s st =>
      (repeating least f p none (.push s c none frames)).pulled G st :=
  pulled_eq G st ((p.start_tends G c st).bind fun s st =>
    (repeating least f p none (.push s c none frames)).pull_tends G st)

theorem pulled_repeating_bottom :
    (repeating least f p none .bottom).pulled G st =
      .done ⟨none, .repeating least f p none .bottom⟩ st :=
  pulled_eq G st (.const _)

theorem pulled_repeating_push (s : Outcomes σ ε ρ α) (value : Option α)
    (below : Frames σ ε ρ α) :
    (repeating least f p none (.push s c value below)).pulled G st =
      (s.pulled G st).bind fun pulled st =>
        match pulled with
        | ⟨some o, s⟩ =>
            let frames := .push s c value below
            if o.cursor.position = c.position then
              .done ⟨some ⟨f (frames.values [o.value]), o.cursor⟩,
                .repeating least f p none frames⟩ st
            else
              (p.started G o.cursor st).bind fun t st =>
                (repeating least f p none (.push t o.cursor (some o.value) frames)).pulled G st
        | ⟨none, s⟩   =>
            let row := (Frames.push s c value below).values []
            if least ≤ row.length then
              .done ⟨some ⟨f row, c⟩, .repeating least f p none below⟩ st
            else
              (repeating least f p none below).pulled G st := by
  refine pulled_eq G st ((s.pull_tends G st).bind fun pulled st => ?_)
  rcases pulled with ⟨_ | o, s⟩ <;> dsimp only <;> split
  · exact .const _
  · exact (repeating least f p none below).pull_tends G st
  · exact .const _
  · exact (p.start_tends G _ st).bind fun t st => pull_tends G st _

end

end Outcomes

end

end Backtrack
