import Backtrack.Proofs.World

/-!
# Demand — what has been done when an outcome is delivered

A choice runs its second parser only when the first is spent. A sequence pulls an outcome of its
first parser, starts the continuation there, and comes back for the next outcome only when that
continuation has answered nothing. This file says so exactly: what has been done, down to the last
event, when the `k`-th outcome is delivered.

What has been done is written out as a chain of starts and pulls, each from the store that the one
before it has left. Since the last store is the store of the sequence, nothing else has happened.
`bound` and `paired` hand over in the same way, so the argument is made once for both: `Relaying`
lists what it needs to know of them.
-/

namespace Backtrack

variable {σ ε : Type} {ρ : Type → Type} {α β γ : Type}

/-- Pulling the first sequence, from the first store, gives these outcomes, one with each pull, and
    leaves the second sequence and the second store. -/
inductive Outcomes.Yields (G : Grammar σ ε ρ) : Outcomes σ ε ρ α → Store σ ε →
    List (Outcome σ α) → Outcomes σ ε ρ α → Store σ ε → Prop where
  | nil (s : Outcomes σ ε ρ α) (st : Store σ ε) : Yields G s st [] s st
  | cons {s s' s'' : Outcomes σ ε ρ α} {st st' st'' : Store σ ε} {o : Outcome σ α}
      {os : List (Outcome σ α)} (first : s.pulled G st = .done ⟨some o, s'⟩ st')
      (rest : Yields G s' st' os s'' st'') : Yields G s st (o :: os) s'' st''

/-- The next pull answers nothing and leaves the second store. -/
def Outcomes.Ends (G : Grammar σ ε ρ) (s : Outcomes σ ε ρ α) (st st' : Store σ ε) : Prop :=
  ∃ rest, s.pulled G st = .done ⟨none, rest⟩ st'

/-- Started at a cursor and pulled as often as there are outcomes in the list, the parser gives
    these outcomes and leaves that sequence and store. -/
def Parser.Delivers (G : Grammar σ ε ρ) (p : Parser σ ε ρ α) (c : Cursor σ) (st : Store σ ε)
    (os : List (Outcome σ α)) (s : Outcomes σ ε ρ α) (st' : Store σ ε) : Prop :=
  ∃ s₀ st₀, p.started G c st = .done s₀ st₀ ∧ s₀.Yields G st₀ os s st'

/-- The work done on the way to an outcome, leg by leg: an outcome of the outer sequence is pulled,
    its continuation is started there, and gives some outcomes. On all legs but the last it has then
    answered nothing, and on the last it has given at least one outcome and is not pulled further.
    Left are the outer sequence, the value on which the last continuation was called, and what is
    left of this continuation. -/
inductive Relay (G : Grammar σ ε ρ) (next : α → Parser σ ε ρ β) : Outcomes σ ε ρ α → Store σ ε →
    List (Outcome σ α × List (Outcome σ β)) → Outcomes σ ε ρ α → α → Outcomes σ ε ρ β →
    Store σ ε → Prop where
  | last {outer outer' : Outcomes σ ε ρ α} {inner : Outcomes σ ε ρ β} {o : Outcome σ α}
      {found : List (Outcome σ β)} {st st₁ st' : Store σ ε}
      (pull : outer.pulled G st = .done ⟨some o, outer'⟩ st₁)
      (run : (next o.value).Delivers G o.cursor st₁ found inner st') (hfound : found ≠ []) :
      Relay G next outer st [(o, found)] outer' o.value inner st'
  | more {outer outer' outer'' : Outcomes σ ε ρ α} {inner inner' : Outcomes σ ε ρ β}
      {o : Outcome σ α} {a : α} {found : List (Outcome σ β)}
      {legs : List (Outcome σ α × List (Outcome σ β))} {st st₁ st₂ st₃ st' : Store σ ε}
      (pull : outer.pulled G st = .done ⟨some o, outer'⟩ st₁)
      (run : (next o.value).Delivers G o.cursor st₁ found inner st₂)
      (spent : inner.Ends G st₂ st₃) (rest : Relay G next outer' st₃ legs outer'' a inner' st') :
      Relay G next outer st ((o, found) :: legs) outer'' a inner' st'

/-- What the legs give: the outcomes of each continuation, combined with the value it was called
    on. -/
def delivered (combine : α → Outcome σ β → Outcome σ γ)
    (legs : List (Outcome σ α × List (Outcome σ β))) : List (Outcome σ γ) :=
  legs.flatMap fun leg => leg.2.map (combine leg.1.value)

section

variable {G : Grammar σ ε ρ}

/-! ## Pull after pull -/

namespace Outcomes

variable {s s' s'' t : Outcomes σ ε ρ α} {st st' st'' : Store σ ε} {os os' : List (Outcome σ α)}

theorem Yields.append (h : s.Yields G st os s' st') (h' : s'.Yields G st' os' s'' st'') :
    s.Yields G st (os ++ os') s'' st'' := by
  induction h with
  | nil => exact h'
  | cons first _ ih => exact .cons first (ih h')

/-- A sequence that answers like another one yields what that one yields. -/
theorem Yields.of_pulled_eq (hpulled : s.pulled G st = t.pulled G st') (hos : os ≠ [])
    (h : t.Yields G st' os s' st'') : s.Yields G st os s' st'' := by
  cases h with
  | nil => exact absurd rfl hos
  | cons first rest => exact .cons (hpulled.trans first) rest

theorem yields_empty (h : (empty : Outcomes σ ε ρ α).Yields G st os s st') : os = [] := by
  cases h with
  | nil => rfl
  | cons first _ =>
      rw [show (empty : Outcomes σ ε ρ α) = .ready [] from rfl, pulled_ready_nil] at first
      cases first

theorem ends_empty (st : Store σ ε) : (empty : Outcomes σ ε ρ α).Ends G st st :=
  ⟨_, pulled_ready_nil G st⟩

/-! ## Parsers that wait -/

/-- A sequence with parsers waiting behind it passes on what it gives. -/
theorem Yields.chained (waiting : List (Parser σ ε ρ α × Cursor σ)) (h : s.Yields G st os s' st') :
    (chained s waiting).Yields G st os (.chained s' waiting) st' := by
  induction h with
  | nil => exact .nil _ _
  | cons first _ ih =>
      refine .cons ?_ ih
      rw [pulled_chained, first]
      rfl

theorem pulled_chained_of_ends {q : Parser σ ε ρ α} {c : Cursor σ}
    {waiting : List (Parser σ ε ρ α × Cursor σ)} (h : s.Ends G st st')
    (hq : q.started G c st' = .done t st'') :
    (chained s ((q, c) :: waiting)).pulled G st = (chained t waiting).pulled G st'' := by
  obtain ⟨rest, hrest⟩ := h
  rw [pulled_chained, hrest]
  show (q.started G c st').bind _ = _
  rw [hq]
  rfl

/-- Where nothing waits, there is nothing else to pass on. -/
theorem yields_chained_nil : (Outcomes.chained s []).Yields G st os s' st' ↔
    ∃ r, s.Yields G st os r st' ∧ s' = .chained r [] := by
  constructor
  · intro h
    generalize hs : Outcomes.chained s [] = t at h
    induction h generalizing s with
    | nil => exact ⟨s, .nil _ _, hs.symm⟩
    | cons first _ ih =>
        subst hs
        rw [pulled_chained] at first
        obtain ⟨⟨_ | x, r⟩, st₁, hpulled, hdone⟩ := Run.bind_eq_done_iff.mp first
        · cases hdone
        · cases hdone
          obtain ⟨r', hyields, hr'⟩ := ih rfl
          exact ⟨r', .cons hpulled hyields, hr'⟩
  · rintro ⟨r, h, rfl⟩
    exact h.chained []

/-- A waiting parser is started as soon as a pull finds the sequence in front of it spent. -/
theorem yields_chained_cons {q : Parser σ ε ρ α} {c : Cursor σ}
    {waiting : List (Parser σ ε ρ α × Cursor σ)} :
    (Outcomes.chained s ((q, c) :: waiting)).Yields G st os s' st' ↔
      (∃ r, s.Yields G st os r st' ∧ s' = .chained r ((q, c) :: waiting)) ∨
      ∃ before r st₁ st₂ t st₃ after, s.Yields G st before r st₁ ∧ r.Ends G st₁ st₂ ∧
        q.started G c st₂ = .done t st₃ ∧ (chained t waiting).Yields G st₃ after s' st' ∧
        after ≠ [] ∧ os = before ++ after := by
  constructor
  · intro h
    generalize hs : Outcomes.chained s ((q, c) :: waiting) = t at h
    induction h generalizing s with
    | nil => exact Or.inl ⟨s, .nil _ _, hs.symm⟩
    | cons first rest ih =>
        subst hs
        rw [pulled_chained] at first
        obtain ⟨⟨_ | o, r⟩, st₁, hpulled, hdone⟩ := Run.bind_eq_done_iff.mp first
        · -- this is the pull that finds the sequence spent
          obtain ⟨t, st₂, hstarted, hfirst⟩ := Run.bind_eq_done_iff.mp hdone
          exact Or.inr ⟨[], s, _, st₁, t, st₂, _, .nil _ _, ⟨r, hpulled⟩, hstarted,
            .cons hfirst rest, List.cons_ne_nil _ _, rfl⟩
        · cases hdone
          rcases ih rfl with ⟨r', hyields, hr'⟩ | ⟨before, r', st₁, st₂, t, st₃, after, hbefore,
            hends, hstarted, hafter, hne, rfl⟩
          · exact Or.inl ⟨r', .cons hpulled hyields, hr'⟩
          · exact Or.inr ⟨_ :: before, r', st₁, st₂, t, st₃, after, .cons hpulled hbefore, hends,
              hstarted, hafter, hne, rfl⟩
  · rintro (⟨r, h, rfl⟩ | ⟨before, r, st₁, st₂, t, st₃, after, hbefore, hends, hstarted, hafter,
      hne, rfl⟩)
    · exact h.chained _
    · refine (hbefore.chained _).append (.of_pulled_eq ?_ hne hafter)
      exact pulled_chained_of_ends hends hstarted

end Outcomes

/-! ## Handing over -/

section

variable {next : α → Parser σ ε ρ β} {combine : α → Outcome σ β → Outcome σ γ}
  {outer outer' outer'' : Outcomes σ ε ρ α} {a a' : α} {inner inner' : Outcomes σ ε ρ β}
  {st st' st'' st₁ : Store σ ε} {legs legs' : List (Outcome σ α × List (Outcome σ β))}

theorem delivered_cons (combine : α → Outcome σ β → Outcome σ γ) (o : Outcome σ α)
    (found : List (Outcome σ β)) (legs : List (Outcome σ α × List (Outcome σ β))) :
    delivered combine ((o, found) :: legs) =
      found.map (combine o.value) ++ delivered combine legs :=
  List.flatMap_cons

theorem Relay.delivered_ne_nil (combine : α → Outcome σ β → Outcome σ γ)
    (h : Relay G next outer st legs outer' a inner st') :
    delivered combine legs ≠ [] := by
  induction h with
  | last _ _ hfound =>
      rw [delivered_cons]
      exact List.append_ne_nil_of_left_ne_nil (mt List.map_eq_nil_iff.mp hfound) _
  | more _ _ _ _ ih =>
      rw [delivered_cons]
      exact List.append_ne_nil_of_right_ne_nil _ ih

/-- The legs before the last do not give all: the last one was needed. -/
theorem Relay.length_take_lt (h : Relay G next outer st legs outer' a inner st') :
    ∀ i < legs.length,
      (delivered combine (legs.take i)).length < (delivered combine legs).length := by
  induction h with
  | last _ _ hfound =>
      intro i hi
      obtain rfl : i = 0 := Nat.lt_one_iff.mp hi
      rw [delivered_cons, List.length_append, List.length_map]
      have hpos := List.length_pos_iff.mpr hfound
      exact Nat.lt_add_right _ hpos
  | more _ _ _ hrest ih =>
      intro i hi
      cases i with
      | zero => exact List.length_pos_iff.mpr (Relay.delivered_ne_nil _ (.more ‹_› ‹_› ‹_› hrest))
      | succ i =>
          rw [List.take_succ_cons, delivered_cons, delivered_cons, List.length_append,
            List.length_append]
          exact Nat.add_lt_add_left (ih i (Nat.lt_of_succ_lt_succ hi)) _

/-- Pulling the last continuation further belongs to the last leg. -/
theorem Relay.yields (combine : α → Outcome σ β → Outcome σ γ)
    (h : Relay G next outer st legs outer' a inner st') {os : List (Outcome σ β)}
    (hos : inner.Yields G st' os inner' st'') :
    ∃ legs', Relay G next outer st legs' outer' a inner' st'' ∧
      delivered combine legs' = delivered combine legs ++ os.map (combine a) := by
  induction h with
  | @last _ _ _ o found _ _ _ pull run hfound =>
      obtain ⟨s₀, st₀, hstarted, hfound'⟩ := run
      refine ⟨[(o, found ++ os)], .last pull ⟨s₀, st₀, hstarted, hfound'.append hos⟩ ?_, ?_⟩
      · exact List.append_ne_nil_of_left_ne_nil hfound _
      · simp [delivered]
  | @more _ _ _ _ _ o _ found _ _ _ _ _ _ pull run spent _ ih =>
      obtain ⟨legs', hrelay, hlegs'⟩ := ih hos
      refine ⟨(o, found) :: legs', .more pull run spent hrelay, ?_⟩
      rw [delivered_cons, delivered_cons, hlegs', List.append_assoc]

/-- When the last continuation is spent, the work goes on with the next leg. -/
theorem Relay.trans (h : Relay G next outer st legs outer' a inner st')
    (hends : inner.Ends G st' st₁) (h' : Relay G next outer' st₁ legs' outer'' a' inner' st'') :
    Relay G next outer st (legs ++ legs') outer'' a' inner' st'' := by
  induction h with
  | last pull run _ => exact .more pull run hends h'
  | more pull run spent _ ih => exact .more pull run spent (ih hends h')

/-- What pulls of a sequence that is busy with `inner` have come to: either the continuation has
    given all the outcomes, or it has been spent, and legs of work have followed. -/
inductive GoesOn (G : Grammar σ ε ρ) (next : α → Parser σ ε ρ β)
    (combine : α → Outcome σ β → Outcome σ γ)
    (busy : Outcomes σ ε ρ α → α → Outcomes σ ε ρ β → Outcomes σ ε ρ γ) (outer : Outcomes σ ε ρ α)
    (a : α) (inner : Outcomes σ ε ρ β) (st : Store σ ε) :
    List (Outcome σ γ) → Outcomes σ ε ρ γ → Store σ ε → Prop where
  | within {found : List (Outcome σ β)} {inner' : Outcomes σ ε ρ β} {st' : Store σ ε}
      (hfound : inner.Yields G st found inner' st') :
      GoesOn G next combine busy outer a inner st (found.map (combine a)) (busy outer a inner') st'
  | beyond {found : List (Outcome σ β)} {inner' inner'' : Outcomes σ ε ρ β}
      {st₁ st₂ st' : Store σ ε} {legs : List (Outcome σ α × List (Outcome σ β))}
      {outer' : Outcomes σ ε ρ α} {a' : α} (hfound : inner.Yields G st found inner' st₁)
      (spent : inner'.Ends G st₁ st₂) (rest : Relay G next outer st₂ legs outer' a' inner'' st') :
      GoesOn G next combine busy outer a inner st
        (found.map (combine a) ++ delivered combine legs) (busy outer' a' inner'') st'

/-- The continuation was spent before. -/
theorem GoesOn.at_once (combine : α → Outcome σ β → Outcome σ γ)
    (busy : Outcomes σ ε ρ α → α → Outcomes σ ε ρ β → Outcomes σ ε ρ γ) (a : α)
    (spent : inner.Ends G st st₁) (rest : Relay G next outer st₁ legs outer' a' inner' st') :
    GoesOn G next combine busy outer a inner st (delivered combine legs) (busy outer' a' inner')
      st' := by
  have h : GoesOn G next combine busy outer a inner st
      ([].map (combine a) ++ delivered combine legs) (busy outer' a' inner') st' :=
    .beyond (.nil _ _) spent rest
  exact h

/-- Work that goes on behind the last leg is work of the same kind. -/
theorem Relay.goOn {busy : Outcomes σ ε ρ α → α → Outcomes σ ε ρ β → Outcomes σ ε ρ γ}
    {os : List (Outcome σ γ)} {s : Outcomes σ ε ρ γ}
    (h : Relay G next outer st legs outer' a inner st')
    (hon : GoesOn G next combine busy outer' a inner st' os s st'') :
    ∃ legs' outer'' a' inner', Relay G next outer st legs' outer'' a' inner' st'' ∧
      delivered combine legs' = delivered combine legs ++ os ∧ s = busy outer'' a' inner' := by
  cases hon with
  | within hfound =>
      obtain ⟨legs', hrelay, hlegs⟩ := h.yields combine hfound
      exact ⟨legs', _, _, _, hrelay, hlegs, rfl⟩
  | @beyond _ _ _ _ _ _ legs₂ _ _ hfound spent rest =>
      obtain ⟨legs', hrelay, hlegs⟩ := h.yields combine hfound
      refine ⟨legs' ++ legs₂, _, _, _, hrelay.trans spent rest, ?_, rfl⟩
      rw [delivered, List.flatMap_append, ← delivered, hlegs, List.append_assoc]
      rfl

/-- Work that begins with a pull of the outer sequence and the start of a continuation. -/
theorem Relay.begin (next : α → Parser σ ε ρ β)
    {busy : Outcomes σ ε ρ α → α → Outcomes σ ε ρ β → Outcomes σ ε ρ γ}
    {os : List (Outcome σ γ)} {s : Outcomes σ ε ρ γ} {o : Outcome σ α} {st₂ : Store σ ε}
    (pull : outer.pulled G st = .done ⟨some o, outer'⟩ st₁)
    (start : (next o.value).started G o.cursor st₁ = .done inner st₂) (hos : os ≠ [])
    (hon : GoesOn G next combine busy outer' o.value inner st₂ os s st') :
    ∃ legs outer'' a inner', Relay G next outer st legs outer'' a inner' st' ∧
      s = busy outer'' a inner' ∧ delivered combine legs = os := by
  cases hon with
  | within hfound =>
      refine ⟨_, _, _, _, .last pull ⟨_, _, start, hfound⟩ ?_, rfl, List.append_nil _⟩
      rintro rfl
      exact hos rfl
  | beyond hfound spent rest =>
      exact ⟨_, _, _, _, .more pull ⟨_, _, start, hfound⟩ spent rest, rfl, delivered_cons ..⟩

/-- What the work of a sequence with continuations rests on. It is *idle* when no continuation is
    under way, and *busy* with the continuation called on `a`. A pull of a busy sequence goes to the
    continuation, and if that is spent the sequence is idle; a pull of an idle sequence goes to the
    outer one, and makes it busy with the continuation of the outcome found there. A busy sequence
    that answers has got there in finitely many such steps. -/
structure Relaying (G : Grammar σ ε ρ) (next : α → Parser σ ε ρ β)
    (combine : α → Outcome σ β → Outcome σ γ) (idle : Outcomes σ ε ρ α → Outcomes σ ε ρ γ)
    (busy : Outcomes σ ε ρ α → α → Outcomes σ ε ρ β → Outcomes σ ε ρ γ) : Prop where
  pulled_busy : ∀ outer a inner st, (busy outer a inner).pulled G st =
    (inner.pulled G st).bind fun pulled st =>
      match pulled with
      | ⟨some o, inner⟩ => .done ⟨some (combine a o), busy outer a inner⟩ st
      | ⟨none, _⟩       => (idle outer).pulled G st
  pulled_idle : ∀ outer st, (idle outer).pulled G st =
    (outer.pulled G st).bind fun pulled st =>
      match pulled with
      | ⟨none, _⟩       => .done ⟨none, .empty⟩ st
      | ⟨some o, outer⟩ => ((next o.value).started G o.cursor st).bind fun inner st =>
          (busy outer o.value inner).pulled G st
  goesOn : ∀ outer a inner st o s st', (busy outer a inner).pulled G st = .done ⟨some o, s⟩ st' →
    GoesOn G next combine busy outer a inner st [o] s st'

namespace Relaying

variable {idle : Outcomes σ ε ρ α → Outcomes σ ε ρ γ}
  {busy : Outcomes σ ε ρ α → α → Outcomes σ ε ρ β → Outcomes σ ε ρ γ}
  {os : List (Outcome σ γ)} {s : Outcomes σ ε ρ γ}

theorem yields_busy (hr : Relaying G next combine idle busy) {found : List (Outcome σ β)}
    (h : inner.Yields G st found inner' st') :
    (busy outer a inner).Yields G st (found.map (combine a)) (busy outer a inner') st' := by
  induction h with
  | nil => exact .nil _ _
  | cons first _ ih =>
      refine .cons ?_ ih
      rw [hr.pulled_busy, first]
      rfl

theorem pulled_busy_of_ends (hr : Relaying G next combine idle busy) (h : inner.Ends G st st') :
    (busy outer a inner).pulled G st = (idle outer).pulled G st' := by
  obtain ⟨rest, hrest⟩ := h
  rw [hr.pulled_busy, hrest]
  rfl

/-- Once the work has been done, the outcomes are delivered. -/
theorem yields_of_relay (hr : Relaying G next combine idle busy)
    (h : Relay G next outer st legs outer' a inner st') :
    (idle outer).Yields G st (delivered combine legs) (busy outer' a inner) st' := by
  -- an idle sequence answers like the busy one that it becomes
  have wakes : ∀ {outer outer' : Outcomes σ ε ρ α} {o : Outcome σ α} {s₀ : Outcomes σ ε ρ β}
      {st st₁ st₂ : Store σ ε}, outer.pulled G st = .done ⟨some o, outer'⟩ st₁ →
      (next o.value).started G o.cursor st₁ = .done s₀ st₂ →
      (idle outer).pulled G st = (busy outer' o.value s₀).pulled G st₂ := by
    intro outer outer' o s₀ st st₁ st₂ hpull hstarted
    rw [hr.pulled_idle, hpull]
    show ((next o.value).started G o.cursor st₁).bind _ = _
    rw [hstarted]
    rfl
  induction h with
  | last pull run hfound =>
      obtain ⟨s₀, st₀, hstarted, hyields⟩ := run
      rw [delivered_cons, delivered, List.flatMap_nil, List.append_nil]
      exact .of_pulled_eq (wakes pull hstarted) (mt List.map_eq_nil_iff.mp hfound)
        (hr.yields_busy hyields)
  | more pull run spent hrest ih =>
      obtain ⟨s₀, st₀, hstarted, hyields⟩ := run
      have hne := hrest.delivered_ne_nil combine
      rw [delivered_cons]
      refine .of_pulled_eq (wakes pull hstarted) (List.append_ne_nil_of_right_ne_nil _ hne) ?_
      exact (hr.yields_busy hyields).append (.of_pulled_eq (hr.pulled_busy_of_ends spent) hne ih)

/-- An idle sequence that answers has done one leg of work or several. -/
theorem relay_of_pulled (hr : Relaying G next combine idle busy) {o : Outcome σ γ}
    (h : (idle outer).pulled G st = .done ⟨some o, s⟩ st') :
    ∃ legs outer' a inner, Relay G next outer st legs outer' a inner st' ∧
      s = busy outer' a inner ∧ delivered combine legs = [o] := by
  rw [hr.pulled_idle] at h
  obtain ⟨⟨_ | v, outer₁⟩, st₁, houter, hdone⟩ := Run.bind_eq_done_iff.mp h
  · cases hdone
  · obtain ⟨inner₁, st₂, hstarted, hrest⟩ := Run.bind_eq_done_iff.mp hdone
    exact Relay.begin next houter hstarted (List.cons_ne_nil _ _) (hr.goesOn _ _ _ _ _ _ _ hrest)

/-- The outcomes that a busy sequence delivers are those of its continuation; or this continuation
    has been spent on the way, and legs of work have followed. -/
theorem goesOn_of_yields (hr : Relaying G next combine idle busy)
    (h : (busy outer a inner).Yields G st os s st') :
    GoesOn G next combine busy outer a inner st os s st' := by
  generalize hs : busy outer a inner = t at h
  induction h generalizing outer a inner with
  | nil =>
      subst hs
      exact .within (.nil _ _)
  | cons first rest ih =>
      subst hs
      rw [hr.pulled_busy] at first
      obtain ⟨⟨_ | x, inner₁⟩, st₁, hpulled, hdone⟩ := Run.bind_eq_done_iff.mp first
      · -- the continuation is spent: there is a first leg, and what follows goes on from it
        obtain ⟨legs, outer₁, a₁, inner₂, hrelay, rfl, hlegs⟩ := hr.relay_of_pulled hdone
        obtain ⟨legs', outer₂, a₂, inner₃, hrelay', hlegs', rfl⟩ := hrelay.goOn (ih rfl)
        rw [hlegs] at hlegs'
        have hbeyond := GoesOn.at_once combine busy a ⟨inner₁, hpulled⟩ hrelay'
        rw [hlegs'] at hbeyond
        exact hbeyond
      · cases hdone
        cases ih rfl with
        | within hyields => exact .within (.cons hpulled hyields)
        | beyond hyields hspent hrelay => exact .beyond (.cons hpulled hyields) hspent hrelay

/-- **HANDING OVER.** An idle sequence delivers outcomes exactly by doing the work for them. -/
theorem yields_idle_iff (hr : Relaying G next combine idle busy) (hos : os ≠ []) :
    (idle outer).Yields G st os s st' ↔ ∃ legs outer' a inner,
      Relay G next outer st legs outer' a inner st' ∧ os = delivered combine legs ∧
      s = busy outer' a inner := by
  constructor
  · intro h
    cases h with
    | nil => exact absurd rfl hos
    | cons first rest =>
        obtain ⟨legs, outer', a, inner, hrelay, rfl, hlegs⟩ := hr.relay_of_pulled first
        obtain ⟨legs', outer'', a', inner', hrelay', hlegs', rfl⟩ :=
          hrelay.goOn (hr.goesOn_of_yields rest)
        rw [hlegs] at hlegs'
        exact ⟨legs', outer'', a', inner', hrelay', hlegs'.symm, rfl⟩
  · rintro ⟨legs, outer', a, inner, hrelay, rfl, rfl⟩
    exact hr.yields_of_relay hrelay

end Relaying

/-! ## The two sequences that hand over -/

/-- As far as an allowance carries it, `bound` works leg by leg. -/
theorem Outcomes.goesOn_pull_bound (n : Nat) : ∀ {outer : Outcomes σ ε ρ α} {a : α}
    {inner : Outcomes σ ε ρ β} {st st' : Store σ ε} {o : Outcome σ β} {s : Outcomes σ ε ρ β},
    (bound next outer inner).pull G n st = .done ⟨some o, s⟩ st' →
    GoesOn G next (fun _ x => x) (fun outer _ inner => bound next outer inner) outer a inner st
      [o] s st' := by
  induction n with
  | zero =>
      intro outer a inner st st' o s h
      exact nomatch h
  | succ n ih =>
      intro outer a inner st st' o s h
      obtain ⟨⟨_ | x, inner₁⟩, st₁, hinner, hdone⟩ := Run.bind_eq_done_iff.mp h
      · have hspent : inner.Ends G st st₁ := ⟨_, (pulled_eq_done_iff G st).mpr ⟨n, hinner⟩⟩
        obtain ⟨⟨_ | v, outer₁⟩, st₂, houter, hdone⟩ := Run.bind_eq_done_iff.mp hdone
        · cases hdone
        · obtain ⟨inner₂, st₃, hstart, hrest⟩ := Run.bind_eq_done_iff.mp hdone
          obtain ⟨legs, outer₂, a₂, inner₃, hrelay, rfl, hlegs⟩ := Relay.begin next
            ((pulled_eq_done_iff G st₁).mpr ⟨n, houter⟩)
            ((Parser.started_eq_done_iff G _ st₂).mpr ⟨n, hstart⟩) (List.cons_ne_nil _ _) (ih hrest)
          rw [← hlegs]
          exact GoesOn.at_once _ _ a hspent hrelay
      · cases hdone
        have hpulled := (pulled_eq_done_iff G st).mpr ⟨n, hinner⟩
        exact GoesOn.within (.cons hpulled (.nil _ _))

/-- Going on behind each outcome with the parser that its value chooses. -/
theorem Outcomes.relaying_bound (G : Grammar σ ε ρ) (next : α → Parser σ ε ρ β) :
    Relaying G next (fun _ x => x) (fun outer => bound next outer .empty)
      (fun outer _ inner => bound next outer inner) where
  pulled_busy outer a inner st := by
    rw [pulled_bound]
    refine congrArg (Run.bind _) (funext fun pulled => funext fun st => ?_)
    rcases pulled with ⟨_ | o, inner⟩
    · show _ = (bound next outer (.ready [])).pulled G st
      rw [pulled_bound, pulled_ready_nil]
      rfl
    · rfl
  pulled_idle outer st := by
    show (bound next outer (.ready [])).pulled G st = _
    rw [pulled_bound, pulled_ready_nil]
    rfl
  goesOn outer a inner st o s st' h := by
    obtain ⟨n, hn⟩ := (pulled_eq_done_iff G st).mp h
    exact goesOn_pull_bound n hn

/-- As far as an allowance carries it, `paired` works leg by leg. -/
theorem Outcomes.goesOn_pull_paired {f : α → β → γ} {q : Parser σ ε ρ β} (n : Nat) :
    ∀ {outer : Outcomes σ ε ρ α} {a : α} {inner : Outcomes σ ε ρ β} {st st' : Store σ ε}
      {o : Outcome σ γ} {s : Outcomes σ ε ρ γ},
      (paired f q outer (some a) inner).pull G n st = .done ⟨some o, s⟩ st' →
      GoesOn G (fun _ => q) (fun a x => x.withValue (f a x.value))
        (fun outer a inner => paired f q outer (some a) inner) outer a inner st [o] s st' := by
  -- a hand-over takes two steps, so the induction is over all smaller allowances
  induction n using Nat.strongRecOn with
  | ind n ih =>
      intro outer a inner st st' o s h
      match n with
      | 0     => exact nomatch h
      | m + 1 =>
          obtain ⟨⟨_ | x, inner₁⟩, st₁, hinner, hdone⟩ := Run.bind_eq_done_iff.mp h
          · have hspent : inner.Ends G st st₁ := ⟨_, (pulled_eq_done_iff G st).mpr ⟨m, hinner⟩⟩
            match m with
            | 0     => exact nomatch hdone
            | k + 1 =>
                obtain ⟨⟨_ | v, outer₁⟩, st₂, houter, hdone⟩ := Run.bind_eq_done_iff.mp hdone
                · cases hdone
                · obtain ⟨inner₂, st₃, hstart, hrest⟩ := Run.bind_eq_done_iff.mp hdone
                  obtain ⟨legs, outer₂, a₂, inner₃, hrelay, rfl, hlegs⟩ := Relay.begin
                    (fun _ => q) ((pulled_eq_done_iff G st₁).mpr ⟨k, houter⟩)
                    ((Parser.started_eq_done_iff G _ st₂).mpr ⟨k, hstart⟩) (List.cons_ne_nil _ _)
                    (ih k (by omega) hrest)
                  rw [← hlegs]
                  exact GoesOn.at_once _ _ a hspent hrelay
          · cases hdone
            have hpulled := (pulled_eq_done_iff G st).mpr ⟨m, hinner⟩
            exact GoesOn.within (.cons hpulled (.nil _ _))

/-- Going on behind each outcome with `q`, and combining the two values. -/
theorem Outcomes.relaying_paired (G : Grammar σ ε ρ) (f : α → β → γ) (q : Parser σ ε ρ β) :
    Relaying G (fun _ => q) (fun a x => x.withValue (f a x.value))
      (fun outer => paired f q outer none .empty)
      (fun outer a inner => paired f q outer (some a) inner) where
  pulled_busy outer a inner st := pulled_paired_some G st f q outer a inner
  pulled_idle outer st := pulled_paired_none G st f q outer .empty
  goesOn outer a inner st o s st' h := by
    obtain ⟨n, hn⟩ := (pulled_eq_done_iff G st).mp h
    exact goesOn_pull_paired n hn

/-! ## From the start -/

theorem Relay.of_pulled_eq (hpulled : outer.pulled G st = outer'.pulled G st₁)
    (h : Relay G next outer' st₁ legs outer'' a inner st') :
    Relay G next outer st legs outer'' a inner st' := by
  cases h with
  | last pull run hfound => exact .last (hpulled.trans pull) run hfound
  | more pull run spent rest => exact .more (hpulled.trans pull) run spent rest

/-- Where nothing waits behind the outer sequence, the work is the same. -/
theorem relay_chained_nil : Relay G next (.chained outer []) st legs outer' a inner st' ↔
    ∃ r, Relay G next outer st legs r a inner st' ∧ outer' = .chained r [] := by
  have pulled_iff : ∀ {s t : Outcomes σ ε ρ α} {st st' : Store σ ε} {o : Outcome σ α},
      (Outcomes.chained s []).pulled G st = .done ⟨some o, t⟩ st' ↔
        ∃ r, s.pulled G st = .done ⟨some o, r⟩ st' ∧ t = .chained r [] := by
    intro s t st st' o
    rw [Outcomes.pulled_chained]
    constructor
    · intro h
      obtain ⟨⟨_ | x, r⟩, st₁, hpulled, hdone⟩ := Run.bind_eq_done_iff.mp h
      · cases hdone
      · cases hdone
        exact ⟨r, hpulled, rfl⟩
    · rintro ⟨r, hpulled, rfl⟩
      rw [hpulled]
      rfl
  constructor
  · intro h
    generalize hs : Outcomes.chained outer [] = t at h
    induction h generalizing outer with
    | last pull run hfound =>
        subst hs
        obtain ⟨r, hpull, rfl⟩ := pulled_iff.mp pull
        exact ⟨r, .last hpull run hfound, rfl⟩
    | more pull run spent _ ih =>
        subst hs
        obtain ⟨r, hpull, rfl⟩ := pulled_iff.mp pull
        obtain ⟨r', hrest, hr'⟩ := ih rfl
        exact ⟨r', .more hpull run spent hrest, hr'⟩
  · rintro ⟨r, h, rfl⟩
    induction h with
    | last pull run hfound => exact .last (pulled_iff.mpr ⟨_, pull, rfl⟩) run hfound
    | more pull run spent _ ih => exact .more (pulled_iff.mpr ⟨_, pull, rfl⟩) run spent ih

/-- The outer sequence of a parser that has not been started: the first pull starts it. -/
theorem relay_deferred {p : Parser σ ε ρ α} {c : Cursor σ} :
    Relay G next (.deferred p c) st legs outer' a inner st' ↔ ∃ outer st₀ r,
      p.started G c st = .done outer st₀ ∧ Relay G next outer st₀ legs r a inner st' ∧
      outer' = .chained r [] := by
  have hpulled : (Outcomes.deferred p c).pulled G st =
      (p.started G c st).bind fun s st => (Outcomes.chained s []).pulled G st := by
    show (Outcomes.chained (.ready []) [(p, c)]).pulled G st = _
    rw [Outcomes.pulled_chained, Outcomes.pulled_ready_nil]
    rfl
  constructor
  · intro h
    have hfirst : ∃ x st₁, (Outcomes.deferred p c).pulled G st = .done x st₁ := by
      cases h with
      | last pull _ _ => exact ⟨_, _, pull⟩
      | more pull _ _ _ => exact ⟨_, _, pull⟩
    obtain ⟨x, st₁, hx⟩ := hfirst
    rw [hpulled] at hx
    obtain ⟨outer, st₀, hstarted, -⟩ := Run.bind_eq_done_iff.mp hx
    rw [hstarted] at hpulled
    obtain ⟨r, hr, rfl⟩ := relay_chained_nil.mp (.of_pulled_eq hpulled.symm h)
    exact ⟨outer, st₀, r, hstarted, hr, rfl⟩
  · rintro ⟨outer, st₀, r, hstarted, h, rfl⟩
    rw [hstarted] at hpulled
    exact .of_pulled_eq hpulled (relay_chained_nil.mpr ⟨r, h, rfl⟩)

/-- A parser that is started as an idle sequence over a deferred parser delivers outcomes exactly by
    doing the work for them, and no leg of it could have been left out. -/
theorem Relaying.delivers_iff {idle : Outcomes σ ε ρ α → Outcomes σ ε ρ γ}
    {busy : Outcomes σ ε ρ α → α → Outcomes σ ε ρ β → Outcomes σ ε ρ γ}
    (hr : Relaying G next combine idle busy) {p : Parser σ ε ρ α} {q : Parser σ ε ρ γ}
    {c : Cursor σ} {os : List (Outcome σ γ)} {s : Outcomes σ ε ρ γ}
    (hq : q.started G c st = .done (idle (.deferred p c)) st) (hos : os ≠ []) :
    q.Delivers G c st os s st' ↔ ∃ outer st₀ legs outer' a inner,
      p.started G c st = .done outer st₀ ∧ Relay G next outer st₀ legs outer' a inner st' ∧
      os = delivered combine legs ∧
      (∀ i < legs.length, (delivered combine (legs.take i)).length < os.length) ∧
      s = busy (.chained outer' []) a inner := by
  constructor
  · rintro ⟨s₀, st₁, hstarted, h⟩
    rw [hq] at hstarted
    cases hstarted
    obtain ⟨legs, outer', a, inner, hrelay, rfl, rfl⟩ := (hr.yields_idle_iff hos).mp h
    obtain ⟨outer, st₀, r, hp, hrelay', rfl⟩ := relay_deferred.mp hrelay
    exact ⟨outer, st₀, legs, r, a, inner, hp, hrelay', rfl, hrelay'.length_take_lt, rfl⟩
  · rintro ⟨outer, st₀, legs, outer', a, inner, hp, hrelay, rfl, -, rfl⟩
    refine ⟨_, st, hq, (hr.yields_idle_iff hos).mpr ⟨legs, _, a, inner, ?_, rfl, rfl⟩⟩
    exact relay_deferred.mpr ⟨outer, st₀, outer', hp, hrelay, rfl⟩

/-- A choice delivers the outcomes of its first parser, and behind the last of them those of its
    second parser, which is started when a pull finds the first one spent. -/
theorem Parser.delivers_or_iff {p q : Parser σ ε ρ α} {c : Cursor σ} {os : List (Outcome σ α)}
    {s : Outcomes σ ε ρ α} (hos : os ≠ []) :
    (p.or q).Delivers G c st os s st' ↔
      (∃ s₁, p.Delivers G c st os s₁ st' ∧ s = .chained s₁ [(q, c)]) ∨
      ∃ before s₁ st₁ st₂ after s₂, p.Delivers G c st before s₁ st₁ ∧ s₁.Ends G st₁ st₂ ∧
        q.Delivers G c st₂ after s₂ st' ∧ after ≠ [] ∧ os = before ++ after ∧
        s = .chained s₂ [] := by
  constructor
  · rintro ⟨s₀, st₀, hstarted, h⟩
    rw [started_or] at hstarted
    cases hstarted
    rcases Outcomes.yields_chained_cons.mp h with ⟨r, hyields, -⟩ |
      ⟨before, r, st₁, st₂, t, st₃, after, hbefore, hends, hp, hafter, -, rfl⟩
    · exact absurd (Outcomes.yields_empty hyields) hos
    -- nothing stands in front of the first parser
    obtain rfl := Outcomes.yields_empty hbefore
    cases hbefore
    obtain ⟨rest, hrest⟩ := hends
    rw [show (Outcomes.empty : Outcomes σ ε ρ α) = .ready [] from rfl,
      Outcomes.pulled_ready_nil] at hrest
    cases hrest
    rcases Outcomes.yields_chained_cons.mp hafter with ⟨r, hyields, rfl⟩ |
      ⟨before, r, st₁, st₂, u, st₄, after', hbefore, hends, hq, hafter', hne, rfl⟩
    · exact Or.inl ⟨r, ⟨t, st₃, hp, hyields⟩, rfl⟩
    · obtain ⟨r', hyields, rfl⟩ := Outcomes.yields_chained_nil.mp hafter'
      exact Or.inr ⟨before, r, st₁, st₂, after', r', ⟨t, st₃, hp, hbefore⟩, hends,
        ⟨u, st₄, hq, hyields⟩, hne, rfl, rfl⟩
  · -- from the first parser on, the choice is its sequence with the second parser waiting
    have hfirst : ∀ {t : Outcomes σ ε ρ α} {st₀ : Store σ ε}, p.started G c st = .done t st₀ →
        (Outcomes.chained t [(q, c)]).Yields G st₀ os s st' → (p.or q).Delivers G c st os s st' :=
      fun hp h => ⟨_, st, started_or .., .of_pulled_eq
        (Outcomes.pulled_chained_of_ends (Outcomes.ends_empty st) hp) hos h⟩
    rintro (⟨s₁, ⟨t, st₀, hp, h⟩, rfl⟩ | ⟨before, s₁, st₁, st₂, after, s₂, ⟨t, st₀, hp, hbefore⟩,
      hends, ⟨u, st₃, hq, hafter⟩, hne, rfl, rfl⟩)
    · exact hfirst hp (h.chained _)
    · refine hfirst hp (Outcomes.yields_chained_cons.mpr (Or.inr ?_))
      exact ⟨before, s₁, st₁, st₂, u, st₃, after, hbefore, hends, hq, hafter.chained [], hne, rfl⟩

end

/-- **DEMAND IS EXACT.** When `bind` has delivered its `k`-th outcome, `p` has been started, and
    then there have been legs of work: on each leg an outcome of `p` has been pulled and the
    continuation started there, and on each leg but the last the continuation has been pulled until
    it answered nothing. The legs before any given one have delivered fewer than `k` outcomes, so
    none could have been left out. The same holds of `seq`, with `q` for all continuations. When a
    choice has delivered its `k`-th outcome, either the first parser has delivered `k` outcomes, and
    nothing else has been done; or it has delivered fewer and then answered nothing, and the second
    parser has been started, at the cursor of the choice, and has delivered the others. In each
    case the stores are the same to the last event, and what is described leads to the delivery. -/
theorem Parser.demand_exact (G : Grammar σ ε ρ) (c : Cursor σ) (st st' : Store σ ε) :
    (∀ (p : Parser σ ε ρ α) (next : α → Parser σ ε ρ β) (os : List (Outcome σ β))
      (s : Outcomes σ ε ρ β), os ≠ [] →
      ((p.bind next).Delivers G c st os s st' ↔ ∃ outer st₀ legs outer' a inner,
        p.started G c st = .done outer st₀ ∧ Relay G next outer st₀ legs outer' a inner st' ∧
        os = legs.flatMap Prod.snd ∧
        (∀ i < legs.length, ((legs.take i).flatMap Prod.snd).length < os.length) ∧
        s = .bound next (.chained outer' []) inner)) ∧
    (∀ (f : α → β → γ) (p : Parser σ ε ρ α) (q : Parser σ ε ρ β) (os : List (Outcome σ γ))
      (s : Outcomes σ ε ρ γ), os ≠ [] →
      ((seq f p q).Delivers G c st os s st' ↔ ∃ outer st₀ legs outer' a inner,
        p.started G c st = .done outer st₀ ∧
        Relay G (fun _ => q) outer st₀ legs outer' a inner st' ∧
        os = delivered (fun a o => o.withValue (f a o.value)) legs ∧
        (∀ i < legs.length, ((legs.take i).flatMap Prod.snd).length < os.length) ∧
        s = .paired f q (.chained outer' []) (some a) inner)) ∧
    ∀ (p q : Parser σ ε ρ α) (os : List (Outcome σ α)) (s : Outcomes σ ε ρ α), os ≠ [] →
      ((p.or q).Delivers G c st os s st' ↔
        (∃ s₁, p.Delivers G c st os s₁ st' ∧ s = .chained s₁ [(q, c)]) ∨
        ∃ before s₁ st₁ st₂ after s₂, p.Delivers G c st before s₁ st₁ ∧ s₁.Ends G st₁ st₂ ∧
          q.Delivers G c st₂ after s₂ st' ∧ after ≠ [] ∧ os = before ++ after ∧
          s = .chained s₂ []) := by
  have hplain : ∀ legs : List (Outcome σ α × List (Outcome σ β)),
      delivered (fun _ x => x) legs = legs.flatMap Prod.snd := by
    intro legs
    simp only [delivered, List.map_id']
  have hlength : ∀ (f : α → β → γ) (legs : List (Outcome σ α × List (Outcome σ β))),
      (delivered (fun a o => o.withValue (f a o.value)) legs).length
        = (legs.flatMap Prod.snd).length := by
    intro f legs
    simp only [delivered, List.length_flatMap, List.length_map]
  refine ⟨fun p next os s hos => ?_, fun f p q os s hos => ?_, fun p q os s hos => ?_⟩
  · simp only [← hplain]
    exact (Outcomes.relaying_bound G next).delivers_iff (started_bind ..) hos
  · simp only [← hlength f]
    exact (Outcomes.relaying_paired G f q).delivers_iff (started_seq ..) hos
  · exact delivers_or_iff hos

end

/-- A choice of two numbers, and behind the first of them nothing: for its two outcomes the choice
    goes on to its second parser, and for one outcome the sequence passes over the first number and
    reads a symbol behind the second. -/
theorem skipped_number_delivers :
    let c : Cursor Nat := ⟨0, 0, 0, some 7⟩
    let p : Parser Nat Unit (fun _ => Empty) Nat := .or (.unit 1) (.unit 2)
    let next : Nat → Parser Nat Unit (fun _ => Empty) Nat := fun a =>
      if a = 1 then .finish a else .anySymbol (a + ·)
    let st := World.pair.store
    p.Delivers .empty c st [⟨1, c⟩, ⟨2, c⟩] (.chained (.ready []) []) st ∧
    (p.bind next).Delivers .empty c st [⟨9, 0, 1, 1, some 8⟩]
      (.bound next (.chained (.chained (.ready []) []) []) .empty) (st.advance c).2 := by
  intro c p next st
  have hspent : (Outcomes.ready [] : Outcomes Nat Unit (fun _ => Empty) Nat).Ends .empty st st :=
    ⟨_, Outcomes.pulled_ready_nil ..⟩
  constructor
  · have hunit : ∀ a, (Parser.unit a : Parser Nat Unit (fun _ => Empty) Nat).Delivers .empty c st
        [⟨a, c⟩] (.ready []) st := fun a =>
      ⟨_, _, Parser.started_unit .., .cons (Outcomes.pulled_ready_cons ..) (.nil _ _)⟩
    obtain ⟨-, -, hor⟩ :=
      Parser.demand_exact (α := Nat) (β := Nat) (γ := Nat) Grammar.empty c st st
    exact (hor _ _ _ _ (List.cons_ne_nil _ _)).mpr (Or.inr ⟨_, _, _, _, _, _, hunit 1, hspent,
      hunit 2, List.cons_ne_nil _ _, rfl, rfl⟩)
  · have hnumber : ∀ {s : Outcomes Nat Unit (fun _ => Empty) Nat} a waiting,
        s.Ends .empty st st → (Outcomes.chained s ((.unit a, c) :: waiting)).pulled .empty st =
          .done ⟨some ⟨a, c⟩, .chained (.ready []) waiting⟩ st := by
      intro s a waiting hs
      rw [Outcomes.pulled_chained_of_ends hs (Parser.started_unit ..), Outcomes.pulled_chained,
        Outcomes.pulled_ready_cons]
      rfl
    have hnothing : (next 1).Delivers .empty c st [] .empty st :=
      ⟨_, _, Parser.started_finish .., .nil _ _⟩
    have hsymbol : (next 2).Delivers .empty c st [⟨9, 0, 1, 1, some 8⟩] .empty (st.advance c).2 :=
      ⟨_, _, Parser.started_anySymbol .., .cons (Outcomes.pulled_consuming ..) (.nil _ _)⟩
    obtain ⟨hbind, -, -⟩ :=
      Parser.demand_exact (α := Nat) (β := Nat) (γ := Nat) Grammar.empty c st (st.advance c).2
    refine (hbind p next _ _ (List.cons_ne_nil _ _)).mpr ⟨_, _,
      [(⟨1, c⟩, []), (⟨2, c⟩, [⟨9, 0, 1, 1, some 8⟩])], _, 2, _, Parser.started_or .., ?_, rfl,
      by decide, rfl⟩
    exact .more (hnumber 1 _ (Outcomes.ends_empty st)) hnothing (Outcomes.ends_empty st)
      (.last (hnumber 2 _ hspent) hsymbol (List.cons_ne_nil _ _))

end Backtrack
