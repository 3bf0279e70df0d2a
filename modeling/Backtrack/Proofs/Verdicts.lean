import Backtrack.Proofs.Causality
import Backtrack.Proofs.Demand
import Mathlib.Data.ENat.Lattice
import Mathlib.Data.List.Basic

/-!
# Verdicts — what a caller makes of a sequence, and what is left of it

A caller who wants one outcome pulls until the verdict is certain, and not once more. What this
takes is said by *harvests*: the outcomes of some pulls in a row, whether the last pull has answered
nothing, and the sequence as it stands then. A verdict is a function of the harvest, and the caller
is left with the sequence and the store of the harvest.

* `unique` takes the harvest of 16 outcomes, or all there are, and judges by their number.
* `firstComplete` goes on to the first complete outcome, which is the first outcome of the narrowed
  sequence; if there is none, it goes on to the end and reports how far the outcomes have reached.
* `complete` gives the complete outcomes of what has been harvested, and harvests no more than up to
  the one that it gives.

All this holds of sequences that never end as well, as far as they are pulled.
-/

namespace Backtrack

variable {σ ε : Type} {ρ : Type → Type} {α : Type}

/-! ## Without an allowance -/

/-- Choose among the outcomes of a sequence, with as great an allowance as it takes. -/
noncomputable def Policy.resolved (G : Grammar σ ε ρ) (policy : Policy) (s : Outcomes σ ε ρ α)
    (st : Store σ ε) : Run σ ε (Resolution σ ε ρ α) :=
  Run.limit fun n => policy.resolve G n s st

/-- Where a caller goes on to the first complete outcome, the narrowed sequence does the same at its
    first pull. They go equally far, and come to the same outcome or to none. -/
def Resolution.HeadOf (r : Resolution σ ε ρ α) (x : Pull σ ε ρ α) : Prop :=
  r.verdict.toOption = x.answer ∧ r.rest.complete = x.rest

namespace Outcomes

/-- Count the outcomes up to a limit, on from `seen`, with as great an allowance as it takes. -/
noncomputable def counted (G : Grammar σ ε ρ) : Nat → Nat → Outcomes σ ε ρ α → Store σ ε →
    Run σ ε (Nat × Outcomes σ ε ρ α)
  | 0,         seen, s, st => .done (seen, s) st
  | limit + 1, seen, s, st =>
      (s.pulled G st).bind fun pulled st =>
        match pulled with
        | ⟨none, s⟩   => .done (seen, s) st
        | ⟨some _, s⟩ => counted G limit (seen + 1) s st

/-- The first complete outcome, with as great an allowance as it takes. -/
noncomputable def firstCompleted (G : Grammar σ ε ρ) (furthest : Option Nat)
    (s : Outcomes σ ε ρ α) (st : Store σ ε) : Run σ ε (Resolution σ ε ρ α) :=
  Run.limit fun n => s.firstCompleteFrom G n furthest st

section

variable (G : Grammar σ ε ρ)

theorem countUpTo_tends (limit : Nat) : ∀ (seen : Nat) (s : Outcomes σ ε ρ α) (st : Store σ ε),
    Run.Tends (fun n => s.countUpTo G n limit seen st) (s.counted G limit seen st) := by
  induction limit with
  | zero => intro seen s st; exact .const _
  | succ limit ih =>
      intro seen s st
      refine (s.pull_tends G st).bind fun pulled st => ?_
      rcases pulled with ⟨_ | o, s⟩
      · exact .const _
      · exact ih (seen + 1) s st

theorem resolved_unique (s : Outcomes σ ε ρ α) (st : Store σ ε) :
    Policy.unique.resolved G s st = (s.pulled G st).bind fun pulled st =>
      match pulled with
      | ⟨none, s⟩   => .done ⟨.error .noParse, s⟩ st
      | ⟨some o, s⟩ =>
          (s.pulled G st).bind fun pulled st =>
            match pulled with
            | ⟨none, s⟩   => .done ⟨.ok o, s⟩ st
            | ⟨some _, s⟩ =>
                (s.counted G (ambiguityProbe - 2) 2 st).bind fun (seen, s) st =>
                  .done ⟨.error (.ambiguous seen), s⟩ (st.record (.ambiguous seen)) := by
  refine Run.Tends.limit ((s.pull_tends G st).bind fun pulled st => ?_)
  rcases pulled with ⟨_ | o, s⟩
  · exact .const _
  · refine (s.pull_tends G st).bind fun pulled st => ?_
    rcases pulled with ⟨_ | o', s⟩
    · exact .const _
    · exact (s.countUpTo_tends G _ 2 st).bind fun _ _ => .const _

theorem firstCompleteFrom_within_succ (n : Nat) : ∀ (furthest : Option Nat)
    (s : Outcomes σ ε ρ α) (st : Store σ ε), (s.firstCompleteFrom G n furthest st).Within
      (s.firstCompleteFrom G (n + 1) furthest st) := by
  induction n with
  | zero => intro furthest s st; exact .unfinished _
  | succ n ih =>
      intro furthest s st
      rw [firstCompleteFrom, firstCompleteFrom]
      refine (s.pull_within_succ G n st).bind fun pulled st => ?_
      rcases pulled with ⟨_ | o, s⟩
      · exact .refl _
      · dsimp only
        split
        · exact .refl _
        · exact ih _ s st

theorem firstCompleted_eq (furthest : Option Nat) (s : Outcomes σ ε ρ α) (st : Store σ ε) :
    s.firstCompleted G furthest st = (s.pulled G st).bind fun pulled st =>
      match pulled with
      | ⟨none, s⟩   => .done ⟨.error (furthest.elim .noParse .incomplete), s⟩ st
      | ⟨some o, s⟩ =>
          if o.cursor.isExhausted then
            .done ⟨.ok o, s⟩ st
          else
            let reached := o.cursor.position
            s.firstCompleted G (some (furthest.elim reached (max · reached))) st := by
  have hrising : ∀ (furthest : Option Nat) (s : Outcomes σ ε ρ α) (st : Store σ ε),
      Run.Rising fun n => s.firstCompleteFrom G n furthest st :=
    fun furthest s st n => s.firstCompleteFrom_within_succ G n furthest st
  refine (hrising furthest s st).limit_succ.symm.trans (Run.Tends.limit ?_)
  refine (s.pull_tends G st).bind fun pulled st => ?_
  rcases pulled with ⟨_ | o, s⟩
  · exact .const _
  · dsimp only
    split
    · exact .const _
    · exact ⟨hrising _ s st, rfl⟩

theorem pulled_complete (s : Outcomes σ ε ρ α) (st : Store σ ε) :
    s.complete.pulled G st = (s.pulled G st).bind fun pulled st =>
      match pulled with
      | ⟨none, s⟩   => .done ⟨none, s.complete⟩ st
      | ⟨some o, s⟩ =>
          if o.cursor.isExhausted then .done ⟨some o, s.complete⟩ st
          else s.complete.pulled G st :=
  pulled_filtered G st _ s

end

/-! ## Harvests -/

/-- How many pulls a harvest took: one for each outcome, and one that answered nothing if the end
    has been seen. -/
def Harvest.pulls (h : Harvest σ ε ρ α) : Nat :=
  h.outcomes.length + if h.ended then 1 else 0

/-- Some pulls in a row, up to the first that answers nothing, have come to this harvest and left
    this store. -/
inductive Gathers (G : Grammar σ ε ρ) (s : Outcomes σ ε ρ α) (st : Store σ ε) :
    Harvest σ ε ρ α → Store σ ε → Prop where
  | going {os : List (Outcome σ α)} {s' : Outcomes σ ε ρ α} {st' : Store σ ε}
      (h : s.Yields G st os s' st') : Gathers G s st ⟨os, false, s'⟩ st'
  | ended {os : List (Outcome σ α)} {s' rest : Outcomes σ ε ρ α} {st₁ st' : Store σ ε}
      (h : s.Yields G st os s' st₁) (hend : s'.pulled G st₁ = .done ⟨none, rest⟩ st') :
      Gathers G s st ⟨os, true, rest⟩ st'

/-- How many outcomes the sequence has, if every pull returns: as many as there are before a pull
    answers nothing, or without end. -/
inductive Counts (G : Grammar σ ε ρ) (s : Outcomes σ ε ρ α) (st : Store σ ε) : ℕ∞ → Prop where
  | finite {os : List (Outcome σ α)} {rest : Outcomes σ ε ρ α} {st' : Store σ ε}
      (h : s.Gathers G st ⟨os, true, rest⟩ st') : Counts G s st os.length
  | infinite (h : ∀ k, ∃ os s' st', s.Yields G st os s' st' ∧ os.length = k) : Counts G s st ⊤

/-- The harvest has as many outcomes as the limit allows, or else the end has been seen. -/
def Harvest.Fills (limit : Nat) (h : Harvest σ ε ρ α) : Prop :=
  if h.ended then h.outcomes.length < limit else h.outcomes.length = limit

variable {G : Grammar σ ε ρ} {s s' : Outcomes σ ε ρ α} {st st' : Store σ ε}
  {os : List (Outcome σ α)}

/-- Outcomes in two parts are yielded one part after the other. -/
theorem Yields.split {os' : List (Outcome σ α)} (h : s.Yields G st (os ++ os') s' st') :
    ∃ s₁ st₁, s.Yields G st os s₁ st₁ ∧ s₁.Yields G st₁ os' s' st' := by
  induction os generalizing s st with
  | nil => exact ⟨s, st, .nil s st, h⟩
  | cons o os ih =>
      obtain _ | ⟨first, rest⟩ := h
      obtain ⟨s₁, st₁, h₁, h₂⟩ := ih rest
      exact ⟨s₁, st₁, .cons first h₁, h₂⟩

/-- As many pulls leave the same sequence and the same store. -/
theorem Yields.functional {s'' : Outcomes σ ε ρ α} {st'' : Store σ ε}
    (h : s.Yields G st os s' st') (h' : s.Yields G st os s'' st'') : s' = s'' ∧ st' = st'' := by
  induction h with
  | nil =>
      cases h'
      exact ⟨rfl, rfl⟩
  | cons first _ ih =>
      obtain _ | ⟨first', rest'⟩ := h'
      rw [first] at first'
      cases first'
      exact ih rest'

/-- What is yielded further on belongs to the harvest. -/
theorem Yields.gathers {s₁ : Outcomes σ ε ρ α} {st₁ : Store σ ε} {h : Harvest σ ε ρ α}
    (hos : s.Yields G st os s₁ st₁) (hs : s₁.Gathers G st₁ h st') :
    s.Gathers G st { h with outcomes := os ++ h.outcomes } st' := by
  cases hs with
  | going hyields => exact .going (hos.append hyields)
  | ended hyields hend => exact .ended (hos.append hyields) hend

/-- A sequence that answers like another one has the harvests of that one. -/
theorem Gathers.of_pulled_eq {t : Outcomes σ ε ρ α} {st₁ : Store σ ε} {h : Harvest σ ε ρ α}
    (hpulled : s.pulled G st = t.pulled G st₁) (ht : t.Gathers G st₁ h st') (hpulls : 0 < h.pulls) :
    s.Gathers G st h st' := by
  cases ht with
  | going hyields =>
      refine .going (hyields.of_pulled_eq hpulled ?_)
      exact List.length_pos_iff.mp hpulls
  | ended hyields hend =>
      cases hyields with
      | nil => exact .ended (.nil s st) (hpulled.trans hend)
      | cons first rest => exact .ended (.cons (hpulled.trans first) rest) hend

/-- Whatever its number of outcomes, the sequence has a harvest that fills the limit. -/
theorem Counts.exists_gathers {n : ℕ∞} (h : s.Counts G st n) (limit : Nat) :
    ∃ harvest st', s.Gathers G st harvest st' ∧ harvest.Fills limit ∧
      (harvest.outcomes.length : ℕ∞) = min n limit ∧ (harvest.pulls : ℕ∞) = min (n + 1) limit := by
  have going {os : List (Outcome σ α)} {s' : Outcomes σ ε ρ α} {st' : Store σ ε}
      (hyields : s.Yields G st os s' st') (hos : os.length = limit) (hn : (limit : ℕ∞) ≤ n) :
      ∃ harvest st', s.Gathers G st harvest st' ∧ harvest.Fills limit ∧
        (harvest.outcomes.length : ℕ∞) = min n limit ∧
        (harvest.pulls : ℕ∞) = min (n + 1) limit := by
    refine ⟨_, st', .going hyields, hos, ?_, ?_⟩
    · rw [min_eq_right hn, hos]
    · rw [min_eq_right (hn.trans le_self_add)]
      exact congrArg _ hos
  cases h with
  | @finite os rest st' hs =>
      by_cases hlt : os.length < limit
      · refine ⟨_, st', hs, hlt, ?_, ?_⟩
        · rw [min_eq_left (Nat.cast_le.mpr hlt.le)]
        · have hle : ((os.length + 1 : Nat) : ℕ∞) ≤ limit := Nat.cast_le.mpr hlt
          exact (min_eq_left hle).symm
      · cases hs with
        | ended hyields =>
            rw [← List.take_append_drop limit os] at hyields
            obtain ⟨s₁, st₁, htake, -⟩ := hyields.split
            refine going htake ?_ (Nat.cast_le.mpr (Nat.le_of_not_lt hlt))
            rw [List.length_take, Nat.min_eq_left (Nat.le_of_not_lt hlt)]
  | infinite hs =>
      obtain ⟨os, s', st', hyields, hos⟩ := hs limit
      exact going hyields hos le_top

/-! ## The only outcome -/

theorem counted_of_gathers {limit : Nat} {h : Harvest σ ε ρ α} (hs : s.Gathers G st h st')
    (hfills : h.Fills limit) (seen : Nat) :
    s.counted G limit seen st = .done (seen + h.outcomes.length, h.rest) st' := by
  induction limit generalizing s st h seen with
  | zero =>
      cases hs with
      | going hyields =>
          obtain rfl := List.length_eq_zero_iff.mp hfills
          cases hyields
          rfl
      | ended => exact absurd hfills (Nat.not_lt_zero _)
  | succ limit ih =>
      have more (o : Outcome σ α) (os : List (Outcome σ α)) :
          seen + 1 + os.length = seen + (o :: os).length := by
        rw [List.length_cons]
        omega
      cases hs with
      | going hyields =>
          cases hyields with
          | nil => exact absurd hfills (Nat.succ_ne_zero limit).symm
          | cons first rest =>
              rw [counted, first]
              dsimp only [Run.bind]
              rw [ih (.going rest) (Nat.succ.inj hfills), more]
      | ended hyields hend =>
          cases hyields with
          | nil =>
              rw [counted, hend]
              rfl
          | cons first rest =>
              rw [counted, first]
              dsimp only [Run.bind]
              rw [ih (.ended rest hend) (Nat.lt_of_succ_lt_succ hfills), more]

/-- The judgement of a caller who wants one outcome. -/
def uniqueVerdict : List (Outcome σ α) → Except ResolveError (Outcome σ α)
  | []  => .error .noParse
  | [o] => .ok o
  | os  => .error (.ambiguous os.length)

/-- The judgement is made on the harvest, and nothing else is done but to remark an ambiguity. -/
theorem unique_of_gathers {h : Harvest σ ε ρ α} (hs : s.Gathers G st h st')
    (hfills : h.Fills ambiguityProbe) :
    Policy.unique.resolved G s st = .done ⟨uniqueVerdict h.outcomes, h.rest⟩
      (if 2 ≤ h.outcomes.length then st'.record (.ambiguous h.outcomes.length) else st') := by
  obtain ⟨os, ended, rest⟩ := h
  rw [resolved_unique]
  match os with
  | [] =>
      cases hs with
      | going => exact absurd (show 0 = ambiguityProbe from hfills) (by decide)
      | ended hyields hend =>
          cases hyields
          rw [hend]
          rfl
  | [o] =>
      cases hs with
      | going => exact absurd (show 1 = ambiguityProbe from hfills) (by decide)
      | ended hyields hend =>
          cases hyields with
          | cons first hrest =>
              cases hrest
              rw [first]
              dsimp only [Run.bind]
              rw [hend]
              rfl
  | o :: o' :: os =>
      -- two outcomes are certain to be several, and it remains to count the others
      obtain ⟨s₁, st₁, s₂, st₂, hfirst, hsecond, hothers⟩ : ∃ s₁ st₁ s₂ st₂,
          s.pulled G st = .done ⟨some o, s₁⟩ st₁ ∧ s₁.pulled G st₁ = .done ⟨some o', s₂⟩ st₂ ∧
          s₂.Gathers G st₂ ⟨os, ended, rest⟩ st' := by
        cases hs with
        | going hyields =>
            obtain _ | ⟨hfirst, _ | ⟨hsecond, hothers⟩⟩ := hyields
            exact ⟨_, _, _, _, hfirst, hsecond, .going hothers⟩
        | ended hyields hend =>
            obtain _ | ⟨hfirst, _ | ⟨hsecond, hothers⟩⟩ := hyields
            exact ⟨_, _, _, _, hfirst, hsecond, .ended hothers hend⟩
      have hcounted :
          s₂.counted G (ambiguityProbe - 2) 2 st₂ = .done (2 + os.length, rest) st' := by
        refine counted_of_gathers hothers ?_ 2
        cases ended with
        | true => exact Nat.lt_sub_of_add_lt hfills
        | false => exact Nat.eq_sub_of_add_eq hfills
      have hlength : 2 + os.length = (o :: o' :: os).length := by
        rw [List.length_cons, List.length_cons]
        omega
      rw [hfirst]
      dsimp only [Run.bind]
      rw [hsecond]
      dsimp only
      rw [hcounted, hlength, if_pos (by omega)]
      rfl

/-! ## The first complete outcome -/

theorem firstCompleteFrom_follows (n : Nat) : ∀ (furthest : Option Nat) (s : Outcomes σ ε ρ α)
    (st : Store σ ε), Run.Follows Resolution.HeadOf (s.firstCompleteFrom G n furthest st)
      (s.complete.pulled G st) := by
  induction n with
  | zero => intro furthest s st; exact .unfinished _
  | succ n ih =>
      intro furthest s st
      rw [firstCompleteFrom, pulled_complete]
      refine (Run.Follows.of_within ((s.pull_tends G st).rising.within_limit n)).bind ?_
      rintro ⟨_ | o, s⟩ _ st rfl
      · exact .done st ⟨rfl, rfl⟩
      · dsimp only
        split
        · exact .done st ⟨rfl, rfl⟩
        · exact ih _ s st

theorem complete_follows (n : Nat) : ∀ (furthest : Option Nat) (s : Outcomes σ ε ρ α)
    (st : Store σ ε), Run.Follows (fun x r => Resolution.HeadOf r x) (s.complete.pull G n st)
      (s.firstCompleted G furthest st) := by
  induction n with
  | zero => intro furthest s st; exact .unfinished _
  | succ n ih =>
      intro furthest s st
      rw [complete, pull, firstCompleted_eq]
      refine (Run.Follows.of_within ((s.pull_tends G st).rising.within_limit n)).bind ?_
      rintro ⟨_ | o, s⟩ _ st rfl
      · exact .done st ⟨rfl, rfl⟩
      · dsimp only [Call.run_pure, Run.bind]
        split
        · exact .done st ⟨rfl, rfl⟩
        · exact ih _ s st

theorem firstCompleted_agrees (furthest : Option Nat) (s : Outcomes σ ε ρ α) (st : Store σ ε) :
    Run.Agrees Resolution.HeadOf (s.firstCompleted G furthest st) (s.complete.pulled G st) := by
  have hthere : Run.Follows Resolution.HeadOf (s.firstCompleted G furthest st)
      (s.complete.pulled G st) := .limit fun n => firstCompleteFrom_follows n furthest s st
  refine hthere.agrees fun hnever => ?_
  have hback : Run.Follows (fun x r => Resolution.HeadOf r x) (s.complete.pulled G st)
      (s.firstCompleted G furthest st) := .limit fun n => complete_follows n furthest s st
  rw [hnever] at hback
  generalize s.complete.pulled G st = r at hback
  cases hback
  rfl

/-- Incomplete outcomes are passed over; only how far they reach is kept. -/
theorem Yields.firstCompleted_eq (h : s.Yields G st os s' st')
    (hos : ∀ o ∈ os, o.cursor.isExhausted = false) (reached : List Nat) :
    s.firstCompleted G reached.max? st =
      s'.firstCompleted G (reached ++ os.map fun o => o.cursor.position).max? st' := by
  induction h generalizing reached with
  | nil => rw [List.map_nil, List.append_nil]
  | @cons _ _ _ _ _ _ o os first _ ih =>
      have hmax : some (reached.max?.elim o.cursor.position (max · o.cursor.position)) =
          (reached ++ [o.cursor.position]).max? := by
        cases reached with
        | nil => rfl
        | cons p reached =>
            rw [List.cons_append, List.max?_cons', List.max?_cons', List.foldl_append]
            rfl
      rw [Outcomes.firstCompleted_eq, first]
      dsimp only [Run.bind]
      rw [hos o (List.mem_cons_self ..), if_neg Bool.false_ne_true, hmax,
        ih (fun x hx => hos x (List.mem_cons_of_mem _ hx)), List.append_assoc]
      rfl

/-- The first complete outcome is found behind the incomplete ones. -/
theorem Yields.firstCompleted_ok {o : Outcome σ α} (h : s.Yields G st (os ++ [o]) s' st')
    (hos : ∀ x ∈ os, x.cursor.isExhausted = false) (ho : o.cursor.isExhausted = true) :
    s.firstCompleted G none st = .done ⟨.ok o, s'⟩ st' := by
  obtain ⟨s₁, st₁, hbefore, hlast⟩ := h.split
  obtain _ | ⟨first, _ | _⟩ := hlast
  have hpassed := hbefore.firstCompleted_eq hos []
  rw [Outcomes.firstCompleted_eq G _ s₁, first] at hpassed
  dsimp only [Run.bind] at hpassed
  rw [if_pos ho] at hpassed
  exact hpassed

/-- Without a complete outcome the caller learns how far the outcomes reach. -/
theorem Gathers.firstCompleted_error {rest : Outcomes σ ε ρ α}
    (h : s.Gathers G st ⟨os, true, rest⟩ st') (hos : ∀ x ∈ os, x.cursor.isExhausted = false) :
    s.firstCompleted G none st = .done ⟨.error ((os.map fun o => o.cursor.position).max?.elim
      .noParse .incomplete), rest⟩ st' := by
  cases h with
  | @ended _ s₁ _ st₁ _ hyields hend =>
      have hpassed := hyields.firstCompleted_eq hos []
      rw [Outcomes.firstCompleted_eq G _ s₁, hend] at hpassed
      exact hpassed

/-! ## The complete outcomes -/

/-- The complete outcomes of a harvest, and what is left of the narrowed sequence. -/
def Harvest.complete (h : Harvest σ ε ρ α) : Harvest σ ε ρ α :=
  ⟨h.outcomes.filter fun o => o.cursor.isExhausted, h.ended, h.rest.complete⟩

/-- The last pull was needed to find the complete outcomes of the harvest, or their end: it gave one
    of them, or answered nothing. -/
def Harvest.Needed (h : Harvest σ ε ρ α) : Prop :=
  h.ended = false → ∀ o ∈ h.outcomes.getLast?, o.cursor.isExhausted = true

/-- An incomplete outcome is passed over. -/
theorem pulled_complete_of_incomplete {o : Outcome σ α}
    (hpulled : s.pulled G st = .done ⟨some o, s'⟩ st') (ho : o.cursor.isExhausted = false) :
    s.complete.pulled G st = s'.complete.pulled G st' := by
  rw [pulled_complete, hpulled]
  dsimp only [Run.bind]
  rw [ho, if_neg Bool.false_ne_true]

/-- A pull of the narrowed sequence passes over incomplete outcomes up to a complete one, or up to
    the end. -/
theorem exists_yields_of_complete {answer : Option (Outcome σ α)} {t : Outcomes σ ε ρ α}
    (h : s.complete.pulled G st = .done ⟨answer, t⟩ st') :
    ∃ os s₁ st₁ rest, s.Yields G st os s₁ st₁ ∧ (∀ x ∈ os, x.cursor.isExhausted = false) ∧
      s₁.pulled G st₁ = .done ⟨answer, rest⟩ st' ∧ t = rest.complete ∧
      ∀ o ∈ answer, o.cursor.isExhausted = true := by
  obtain ⟨n, hn⟩ := (pulled_eq_done_iff G st).mp h
  clear h
  induction n generalizing s st with
  | zero => exact nomatch hn
  | succ n ih =>
      obtain ⟨⟨_ | o, s₁⟩, st₁, hpull, hdone⟩ := Run.bind_eq_done_iff.mp hn
      · cases hdone
        have hpulled := (pulled_eq_done_iff G st).mpr ⟨n, hpull⟩
        exact ⟨[], s, st, s₁, .nil s st, List.forall_mem_nil _, hpulled, rfl, nofun⟩
      · have hpulled := (pulled_eq_done_iff G st).mpr ⟨n, hpull⟩
        dsimp only [Call.run_pure, Run.bind] at hdone
        split at hdone
        · next ho =>
          cases hdone
          refine ⟨[], s, st, s₁, .nil s st, List.forall_mem_nil _, hpulled, rfl, fun x hx => ?_⟩
          obtain rfl := Option.some.inj hx
          exact ho
        · next ho =>
          obtain ⟨os, s₂, st₂, rest, hyields, hos, hrest⟩ := ih hdone
          refine ⟨o :: os, s₂, st₂, rest, .cons hpulled hyields, fun x hx => ?_, hrest⟩
          rcases List.mem_cons.mp hx with rfl | hx
          · exact Bool.eq_false_iff.mpr ho
          · exact hos x hx

/-- What the narrowed sequence yields are the complete outcomes of a harvest that was needed. -/
theorem exists_gathers_of_complete {os' : List (Outcome σ α)} {t : Outcomes σ ε ρ α}
    (h : s.complete.Yields G st os' t st') :
    ∃ os s', s.Yields G st os s' st' ∧ Harvest.Needed ⟨os, false, s'⟩ ∧
      os' = os.filter (fun o => o.cursor.isExhausted) ∧ t = s'.complete := by
  induction os' generalizing s st with
  | nil =>
      cases h
      exact ⟨[], s, .nil s _, fun _ => nofun, rfl, rfl⟩
  | cons o os' ih =>
      obtain _ | ⟨first, rest⟩ := h
      obtain ⟨before, s₁, st₁, s₂, hbefore, hpassed, hpulled, rfl, ho⟩ :=
        exists_yields_of_complete first
      obtain ⟨os, s', hyields, hneeded, rfl, rfl⟩ := ih rest
      refine ⟨before ++ o :: os, s', hbefore.append (.cons hpulled hyields), fun _ x hx => ?_, ?_,
        rfl⟩
      · rw [List.getLast?_append, List.getLast?_cons] at hx
        obtain rfl := Option.some.inj hx
        cases hlast : os.getLast? with
        | none => exact ho o rfl
        | some y => exact hneeded rfl y hlast
      · have hnone : before.filter (fun o => o.cursor.isExhausted) = [] :=
          List.filter_eq_nil_iff.mpr fun x hx => Bool.eq_false_iff.mp (hpassed x hx)
        rw [List.filter_append, hnone, List.nil_append,
          List.filter_cons_of_pos (p := fun o : Outcome σ α => o.cursor.isExhausted) (ho o rfl)]

/-- The complete outcomes of a harvest that was needed are what the narrowed sequence gives. -/
theorem Gathers.complete {h : Harvest σ ε ρ α} (hs : s.Gathers G st h st') (hneeded : h.Needed) :
    s.complete.Gathers G st h.complete st' := by
  obtain ⟨os, ended, rest⟩ := h
  induction os generalizing s st with
  | nil =>
      cases hs with
      | going hyields =>
          cases hyields
          exact .going (.nil _ _)
      | ended hyields hend =>
          cases hyields
          refine .ended (.nil _ _) ?_
          rw [pulled_complete, hend]
          rfl
  | cons o os ih =>
      obtain ⟨s₁, st₁, first, hrest⟩ : ∃ s₁ st₁, s.pulled G st = .done ⟨some o, s₁⟩ st₁ ∧
          s₁.Gathers G st₁ ⟨os, ended, rest⟩ st' := by
        cases hs with
        | going hyields =>
            obtain _ | ⟨first, hyields⟩ := hyields
            exact ⟨_, _, first, .going hyields⟩
        | ended hyields hend =>
            obtain _ | ⟨first, hyields⟩ := hyields
            exact ⟨_, _, first, .ended hyields hend⟩
      have hneeded' : Harvest.Needed ⟨os, ended, rest⟩ := fun hended x hx =>
        hneeded hended x (List.mem_getLast?_cons hx)
      have hcomplete := ih hrest hneeded'
      cases ho : o.cursor.isExhausted with
      | true =>
          have hgiven : s.complete.pulled G st = .done ⟨some o, s₁.complete⟩ st₁ := by
            rw [pulled_complete, first]
            dsimp only [Run.bind]
            rw [if_pos ho]
          have hfilter := List.filter_cons_of_pos (l := os)
            (p := fun o : Outcome σ α => o.cursor.isExhausted) ho
          rw [Harvest.complete, hfilter]
          exact Yields.gathers (.cons hgiven (.nil _ _)) hcomplete
      | false =>
          have hfilter := List.filter_cons_of_neg (l := os)
            (p := fun o : Outcome σ α => o.cursor.isExhausted) (Bool.eq_false_iff.mp ho)
          rw [Harvest.complete, hfilter]
          refine .of_pulled_eq (pulled_complete_of_incomplete first ho) hcomplete ?_
          -- the last pull was needed, and it was not the one that gave `o`
          cases ended with
          | true => exact Nat.succ_pos _
          | false =>
              cases hlast : os.getLast? with
              | none =>
                  obtain rfl := List.getLast?_eq_none_iff.mp hlast
                  rw [hneeded rfl o rfl] at ho
                  cases ho
              | some x =>
                  exact List.length_pos_of_mem (List.mem_filter.mpr
                    ⟨List.mem_of_getLast? hlast, hneeded' rfl x hlast⟩)

theorem gathers_complete_iff {h' : Harvest σ ε ρ α} :
    s.complete.Gathers G st h' st' ↔ ∃ h, s.Gathers G st h st' ∧ h.Needed ∧ h' = h.complete := by
  constructor
  · intro hs
    cases hs with
    | going hyields =>
        obtain ⟨os, s', hos, hneeded, rfl, rfl⟩ := exists_gathers_of_complete hyields
        exact ⟨_, .going hos, hneeded, rfl⟩
    | ended hyields hend =>
        obtain ⟨os, s₁, hos, -, rfl, rfl⟩ := exists_gathers_of_complete hyields
        obtain ⟨after, s₂, st₂, rest, hafter, hpassed, hpulled, rfl, -⟩ :=
          exists_yields_of_complete hend
        refine ⟨⟨os ++ after, true, rest⟩, .ended (hos.append hafter) hpulled, nofun, ?_⟩
        have hnone : after.filter (fun o => o.cursor.isExhausted) = [] :=
          List.filter_eq_nil_iff.mpr fun x hx => Bool.eq_false_iff.mp (hpassed x hx)
        rw [Harvest.complete, List.filter_append, hnone, List.append_nil]
  · rintro ⟨h, hs, hneeded, rfl⟩
    exact hs.complete hneeded

end Outcomes

/-! ## The verdicts -/

/-- **THE FIRST COMPLETE OUTCOME.** A caller who asks for the first complete outcome of any sequence
    does what a first pull of the narrowed sequence does: it comes to an end if and only if that
    does, with the same fault, or with the same outcome or none, in the same store, and the narrowed
    sequence of what is left is what is left of the narrowed sequence. If outcomes come up to one
    that is complete, then this is the verdict, and the sequence is left right behind it. If a
    sequence comes to its end without one, then it is pulled up to there; the verdict is that there
    is no parse if there was no outcome at all, and else the greatest position of an outcome. The
    narrowed sequence itself gives the complete outcomes, all of them and in their order: its
    harvests are those of the whole sequence whose last pull was needed, with the incomplete
    outcomes left out. -/
theorem Outcomes.firstComplete_and_complete (G : Grammar σ ε ρ) (s : Outcomes σ ε ρ α)
    (st : Store σ ε) :
    Run.Agrees Resolution.HeadOf (Policy.firstComplete.resolved G s st) (s.complete.pulled G st) ∧
      (∀ os o s' st', s.Yields G st (os ++ [o]) s' st' →
        (∀ x ∈ os, x.cursor.isExhausted = false) → o.cursor.isExhausted = true →
        Policy.firstComplete.resolved G s st = .done ⟨.ok o, s'⟩ st') ∧
      (∀ os rest st', s.Gathers G st ⟨os, true, rest⟩ st' →
        (∀ x ∈ os, x.cursor.isExhausted = false) →
        ∃ cause, Policy.firstComplete.resolved G s st = .done ⟨.error cause, rest⟩ st' ∧
          (cause = .noParse ↔ os = []) ∧
          (os ≠ [] → ∃ position, cause = .incomplete position ∧
            (∀ x ∈ os, x.cursor.position ≤ position) ∧ ∃ x ∈ os, x.cursor.position = position)) ∧
      ∀ h' st', s.complete.Gathers G st h' st' ↔
        ∃ h, s.Gathers G st h st' ∧ h.Needed ∧ h' = h.complete := by
  refine ⟨firstCompleted_agrees none s st, fun os o s' st' h hos ho => h.firstCompleted_ok hos ho,
    fun os rest st' h hos => ⟨_, h.firstCompleted_error hos, ?_⟩,
    fun h' st' => gathers_complete_iff⟩
  cases hmax : (os.map fun o => o.cursor.position).max? with
  | none =>
      have hnil : os = [] := List.map_eq_nil_iff.mp (List.max?_eq_none_iff.mp hmax)
      exact ⟨⟨fun _ => hnil, fun _ => rfl⟩, fun hne => absurd hnil hne⟩
  | some position =>
      obtain ⟨hmem, hle⟩ := List.max?_eq_some_iff.mp hmax
      obtain ⟨x, hx, hposition⟩ := List.mem_map.mp hmem
      refine ⟨⟨nofun, fun hnil => ?_⟩, fun _ => ⟨position, rfl, fun y hy => ?_, x, hx, hposition⟩⟩
      · rw [hnil] at hx
        exact absurd hx List.not_mem_nil
      · exact hle _ (List.mem_map_of_mem hy)

/-- Three outcomes, of which the second is complete, and what is left behind it; and the same
    without it, where the third reaches further than the first. -/
theorem Outcomes.ready_firstComplete_and_complete :
    let at0 : Outcome Nat Nat := ⟨10, ⟨0, 0, 0, some 7⟩⟩
    let at1 : Outcome Nat Nat := ⟨11, ⟨0, 1, 1, some 8⟩⟩
    let at2 : Outcome Nat Nat := ⟨12, ⟨0, 2, 2, none⟩⟩
    let st := World.pair.store
    let s : List (Outcome Nat Nat) → Outcomes Nat Unit (fun _ => Empty) Nat := .ready
    Policy.firstComplete.resolved .empty (s [at0, at2, at1]) st = .done ⟨.ok at2, s [at1]⟩ st ∧
      Policy.firstComplete.resolved .empty (s [at0, at1]) st =
        .done ⟨.error (.incomplete 1), s []⟩ st := by
  intro at0 at1 at2 st s
  have cons (o : Outcome Nat Nat) (os : List (Outcome Nat Nat)) :
      (s (o :: os)).pulled .empty st = .done ⟨some o, s os⟩ st :=
    pulled_ready_cons .empty st o os
  have hfound : (s [at0, at2, at1]).Yields .empty st ([at0] ++ [at2]) (s [at1]) st :=
    .cons (cons ..) (.cons (cons ..) (.nil _ _))
  have hnone : (s [at0, at1]).Gathers .empty st ⟨[at0, at1], true, s []⟩ st :=
    .ended (.cons (cons ..) (.cons (cons ..) (.nil _ _))) (pulled_ready_nil .empty st)
  obtain ⟨-, hok, -, -⟩ := firstComplete_and_complete .empty (s [at0, at2, at1]) st
  obtain ⟨-, -, herror, -⟩ := firstComplete_and_complete .empty (s [at0, at1]) st
  refine ⟨hok _ _ _ _ hfound (by decide) rfl, ?_⟩
  obtain ⟨cause, hresolved, -, hreach⟩ := herror _ _ _ hnone (by decide)
  obtain ⟨position, rfl, hle, x, hx, rfl⟩ := hreach (List.cons_ne_nil _ _)
  have hone : 1 ≤ x.cursor.position := hle at1 (by decide)
  rcases List.mem_pair.mp hx with rfl | rfl
  · exact absurd hone (by decide)
  · exact hresolved

/-- **A BOUNDED PROBE.** Let a sequence have `n` outcomes, or outcomes without end. A caller who
    asks for the only outcome makes as many pulls as it takes to see the end or 16 outcomes, and
    nothing else happens. Without outcomes the verdict is that there is no parse, with one outcome it
    is this one, and with more it is that there are as many as have been seen, which is all that is
    added to the log. What is left is what those pulls leave: where they have not come to the end,
    the sequence goes on with the outcomes behind the 16. -/
theorem Outcomes.Counts.unique_probes {G : Grammar σ ε ρ} {s : Outcomes σ ε ρ α} {st : Store σ ε}
    {n : ℕ∞} (h : s.Counts G st n) :
    ∃ harvest st', s.Gathers G st harvest st' ∧ (harvest.pulls : ℕ∞) = min (n + 1) 16 ∧
      (harvest.outcomes.length : ℕ∞) = min n 16 ∧
      (16 ≤ n → ∀ os s'' st'', harvest.rest.Yields G st' os s'' st'' ↔
        s.Yields G st (harvest.outcomes ++ os) s'' st'') ∧
      ∃ verdict, Policy.unique.resolved G s st = .done ⟨verdict, harvest.rest⟩
          (if 2 ≤ n then st'.record (.ambiguous harvest.outcomes.length) else st') ∧
        (n = 0 → verdict = .error .noParse) ∧
        (n = 1 → ∃ o, harvest.outcomes = [o] ∧ verdict = .ok o) ∧
        (2 ≤ n → verdict = .error (.ambiguous harvest.outcomes.length)) := by
  obtain ⟨harvest, st', hs, hfills, hlength, hpulls⟩ := h.exists_gathers ambiguityProbe
  have hseveral : 2 ≤ n ↔ 2 ≤ harvest.outcomes.length := by
    have hcast : (2 : ℕ∞) ≤ harvest.outcomes.length ↔ 2 ≤ harvest.outcomes.length := Nat.cast_le
    have hprobe : (2 : ℕ∞) ≤ ambiguityProbe := Nat.cast_le.mpr (by decide)
    rw [← hcast, hlength, le_min_iff, and_iff_left hprobe]
  have hunique := unique_of_gathers hs hfills
  simp only [← hseveral] at hunique
  refine ⟨harvest, st', hs, hpulls, hlength, fun hmany os s'' st'' => ?_, _, hunique, ?_, ?_, ?_⟩
  · rw [show (16 : ℕ∞) = ambiguityProbe from rfl] at hmany
    rw [min_eq_right hmany] at hlength
    cases hs with
    | ended => exact absurd (Nat.cast_inj.mp hlength) (Nat.ne_of_lt hfills)
    | going hyields =>
        refine ⟨fun hos => hyields.append hos, fun hos => ?_⟩
        obtain ⟨s₁, st₁, hfirst, hothers⟩ := hos.split
        obtain ⟨rfl, rfl⟩ := hyields.functional hfirst
        exact hothers
  · rintro rfl
    rw [min_eq_left zero_le, Nat.cast_eq_zero, List.length_eq_zero_iff] at hlength
    rw [hlength]
    rfl
  · rintro rfl
    have hone : (1 : ℕ∞) ≤ ambiguityProbe := Nat.one_le_cast.mpr (by decide)
    rw [min_eq_left hone, Nat.cast_eq_one] at hlength
    obtain ⟨o, ho⟩ := List.length_eq_one_iff.mp hlength
    exact ⟨o, ho, by rw [ho]; rfl⟩
  · intro hmany
    match hos : harvest.outcomes, hseveral.mp hmany with
    | _ :: _ :: _, _ => rfl

/-- A sequence that never ends is pulled 16 times. -/
theorem Outcomes.endless_unique_probes :
    let c : Cursor Nat := ⟨0, 0, 0, some 7⟩
    let s : Outcomes Nat Unit (fun _ => Empty) Nat := .scripted (fun n => .arrive (some ⟨n, c⟩)) 0
    let st := World.pair.store
    s.Counts .empty st ⊤ ∧ ∃ harvest st', s.Gathers .empty st harvest st' ∧ harvest.pulls = 16 ∧
      Policy.unique.resolved .empty s st =
        .done ⟨.error (.ambiguous 16), harvest.rest⟩ (st'.record (.ambiguous 16)) := by
  intro c s st
  have hyields (k : Nat) : ∀ n, ∃ os s', (scripted (fun n => .arrive (some ⟨n, c⟩)) n :
      Outcomes Nat Unit (fun _ => Empty) Nat).Yields .empty st os s' st ∧ os.length = k := by
    induction k with
    | zero => exact fun n => ⟨[], _, .nil _ _, rfl⟩
    | succ k ih =>
        intro n
        obtain ⟨os, s', hos, hlength⟩ := ih (n + 1)
        have hpulled : (scripted (fun n => .arrive (some ⟨n, c⟩)) n :
            Outcomes Nat Unit (fun _ => Empty) Nat).pulled .empty st =
              .done ⟨some ⟨n, c⟩, .scripted _ (n + 1)⟩ st := pulled_eq _ st (.const _)
        exact ⟨_, s', .cons hpulled hos, congrArg Nat.succ hlength⟩
  have hcounts : s.Counts .empty st ⊤ := .infinite fun k => by
    obtain ⟨os, s', hos, hlength⟩ := hyields k 0
    exact ⟨os, s', st, hos, hlength⟩
  refine ⟨hcounts, ?_⟩
  obtain ⟨harvest, st', hs, hpulls, hlength, -, verdict, hunique, -, -, hmany⟩ :=
    hcounts.unique_probes
  rw [top_add, min_eq_right le_top] at hpulls
  rw [min_eq_right le_top] at hlength
  have hsixteen : harvest.outcomes.length = 16 := Nat.cast_inj.mp hlength
  rw [hmany le_top, if_pos le_top, hsixteen] at hunique
  exact ⟨harvest, st', hs, Nat.cast_inj.mp hpulls, hunique⟩

end Backtrack
