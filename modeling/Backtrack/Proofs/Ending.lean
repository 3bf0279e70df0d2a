import Backtrack.Proofs.Lifetime
import Backtrack.Proofs.Starting

/-!
# Ending — a sequence that has ended stays ended

A choice, a sequence of parsers or a repetition is put away when it has answered nothing, and there
is nothing left that could be asked again. `map` and `filter` are not: they keep the sequence inside
and ask it again at every pull. So whether an end is final is a matter of the sequence inside, down
to a parser of the caller's own making, of which it has to be assumed.

What is left after the end is *over*: nothing but functions around a sequence that is over, which
are not called since there is no outcome to call them on. To see that nothing is called, a fault is
put in the place of every function and of every parser; the hollow of a sequence that is over
answers as the sequence does, under any grammar.
-/

namespace Backtrack

open Store

variable {σ ε : Type} {ρ : Type → Type} {α : Type}

/-- Once the script has answered nothing it answers nothing ever after, in whatever has become of
    the store, and then it goes nowhere and leaves no remark. The script is in use from `st` on. -/
def Script.Final (script : Script σ ε α) (st : Store σ ε) : Prop :=
  ∀ st₁, st.Later st₁ → ∀ n st₂, (script n).run st₁ = (none, st₂) →
    ∀ m > n, ∀ st₃, st₂.Later st₃ → (script m).run st₃ = (none, st₃)

/-- The parsers of the caller's own making that are started with the parser give final ends,
    wherever they are started in a store that holds the cursors in `K`. Of what waits for a pull
    under a choice, a sequence or a repetition nothing is asked. -/
def Parser.Final : {α : Type} → Parser σ ε ρ α → Set (Cursor σ) → Prop
  | _, .map _ p,       K => p.Final K
  | _, .filter _ p,    K => p.Final K
  | _, .spanning _ p,  K => p.Final K
  | _, .remark _ p,    K => p.Final K
  | _, .lookahead p,   K => p.Final K
  | _, .custom start,  K => ∀ st : Store σ ε, st.Intact → K ⊆ st.held → ∀ c, st.Holds c →
      ((start c).run st).1.Final ((start c).run st).2
  | _, _,              _ => True

/-- The same for all rules of a grammar. -/
def Grammar.Final (G : Grammar σ ε ρ) (K : Set (Cursor σ)) : Prop :=
  ∀ (α : Type) (r : ρ α), (G.body r).Final K

/-- When the sequence ends, it will end for good. -/
def Outcomes.Final : {α : Type} → Outcomes σ ε ρ α → Store σ ε → Prop
  | _, .scripted script _, st => script.Final st
  | _, .mapped _ s,        st => s.Final st
  | _, .filtered _ s,      st => s.Final st
  | _, _,                  _  => True

/-- The sequence has ended for good. -/
inductive Outcomes.Over (st : Store σ ε) : {α : Type} → Outcomes σ ε ρ α → Prop where
  | ready {α : Type} : Over st (.ready [] : Outcomes σ ε ρ α)
  | scripted {α : Type} {script : Script σ ε α} {n : Nat}
      (h : ∀ m ≥ n, ∀ st', st.Later st' → (script m).run st' = (none, st')) :
      Over st (.scripted script n : Outcomes σ ε ρ α)
  | mapped {α β : Type} (f : Outcome σ α → Call ε (Outcome σ β)) {s : Outcomes σ ε ρ α}
      (h : Over st s) : Over st (.mapped f s)
  | filtered {α : Type} (test : Outcome σ α → Call ε Bool) {s : Outcomes σ ε ρ α}
      (h : Over st s) : Over st (.filtered test s)
  | repeating {α β : Type} (least : Nat) (f : List α → β) (p : Parser σ ε ρ α) :
      Over st (.repeating least f p none .bottom)

mutual

/-- The sequence with a fault in the place of every function, test and continuation, and of every
    parser that is to be started. -/
def Outcomes.hollow (x : Fault) : {α : Type} → Outcomes σ ε ρ α → Outcomes σ ε ρ α
  | _, .ready os                     => .ready os
  | _, .consuming f c                => .consuming f c
  | _, .scripted script n            => .scripted script n
  | _, .mapped _ s                   => .mapped (fun _ => .failing x) (s.hollow x)
  | _, .filtered _ s                 => .filtered (fun _ => .failing x) (s.hollow x)
  | _, .chained s waiting            => .chained (s.hollow x) (waiting.map fun w => (.abort x, w.2))
  | _, .bound _ outer inner          => .bound (fun _ => .abort x) (outer.hollow x) (inner.hollow x)
  | _, .paired f _ outer held inner  =>
      .paired f (.abort x) (outer.hollow x) held (inner.hollow x)
  | _, .repeating least f _ root row => .repeating least f (.abort x) root (row.hollow x)

/-- The same for a row of occurrences. -/
def Frames.hollow (x : Fault) : {α : Type} → Frames σ ε ρ α → Frames σ ε ρ α
  | _, .bottom               => .bottom
  | _, .push s c value below => .push (s.hollow x) c value (below.hollow x)

end

/-! ## After the end -/

section

variable {st st' : Store σ ε} {s s' : Outcomes σ ε ρ α}

theorem Parser.started_custom (G : Grammar σ ε ρ) (walk : Cursor σ → Walk σ ε (Script σ ε α))
    (c : Cursor σ) (st : Store σ ε) :
    (custom walk : Parser σ ε ρ α).started G c st =
      .done (.scripted ((walk c).run st).1 0) ((walk c).run st).2 :=
  started_eq G c st (.const _)

theorem Outcomes.pulled_scripted (G : Grammar σ ε ρ) (script : Script σ ε α) (n : Nat)
    (st : Store σ ε) :
    (scripted script n : Outcomes σ ε ρ α).pulled G st =
      .done ⟨((script n).run st).1, .scripted script (n + 1)⟩ ((script n).run st).2 :=
  pulled_eq G st (.const _)

namespace Outcomes.Over

theorem later (h : s.Over st) (hlater : st.Later st') : s.Over st' := by
  induction h with
  | ready => exact .ready
  | scripted h => exact .scripted fun m hm st₁ hst₁ => h m hm st₁ (hlater.trans hst₁)
  | mapped f _ ih => exact .mapped f ih
  | filtered test _ ih => exact .filtered test ih
  | repeating least f p => exact .repeating least f p

/-- A sequence that is over answers nothing and leaves the store as it is, whatever the grammar. -/
theorem pulled (h : s.Over st) (hst : st.Intact) (G : Grammar σ ε ρ) :
    ∃ rest, s.pulled G st = .done ⟨none, rest⟩ st ∧ rest.Over st := by
  induction h with
  | ready => exact ⟨_, pulled_ready_nil G st, .ready⟩
  | @scripted _ script n h =>
      have hrun := h n (Nat.le_refl n) st (.refl hst)
      refine ⟨.scripted script (n + 1), ?_, .scripted fun m hm => h m (Nat.le_of_succ_le hm)⟩
      rw [pulled_scripted, hrun]
  | mapped f _ ih =>
      obtain ⟨rest, hrest, hover⟩ := ih
      refine ⟨.mapped f rest, ?_, .mapped f hover⟩
      rw [pulled_mapped, hrest]
      rfl
  | filtered test _ ih =>
      obtain ⟨rest, hrest, hover⟩ := ih
      refine ⟨.filtered test rest, ?_, .filtered test hover⟩
      rw [pulled_filtered, hrest]
      rfl
  | repeating least f p => exact ⟨_, pulled_repeating_bottom G st least f p, .repeating least f p⟩

/-- Nothing of what the hollow lacks is needed any more. -/
theorem hollow (h : s.Over st) (x : Fault) : (s.hollow x).Over st := by
  induction h with
  | ready => exact .ready
  | scripted h => exact .scripted h
  | mapped f _ ih => exact .mapped _ ih
  | filtered test _ ih => exact .filtered _ ih
  | repeating least f p => exact .repeating least f _

/-- What is over stays over, whatever happens. -/
theorem becomes {G : Grammar σ ε ρ} (h : s.Over st) (hst : st.Intact)
    (hlife : s.Becomes G st s' st') : s'.Over st' ∧ st'.Intact := by
  induction hlife with
  | unchanged => exact ⟨h, hst⟩
  | wait _ later ih => exact ⟨ih.1.later later, later.intact⟩
  | pull _ pulled ih =>
      obtain ⟨rest, hrest, hover⟩ := ih.1.pulled ih.2 G
      rw [hrest] at pulled
      cases pulled
      exact ⟨hover, ih.2⟩
  | complete _ ih => exact ⟨.filtered _ ih.1, ih.2⟩

end Outcomes.Over

/-! ## The end -/

theorem Outcomes.Final.later (hlater : st.Later st') :
    {α : Type} → {s : Outcomes σ ε ρ α} → s.Final st → s.Final st'
  | _, .ready _,             _ => trivial
  | _, .consuming _ _,       _ => trivial
  | _, .scripted _ _,        h => fun st₁ hst₁ => h st₁ (hlater.trans hst₁)
  | _, .mapped _ s,          h => Outcomes.Final.later hlater (s := s) h
  | _, .filtered _ s,        h => Outcomes.Final.later hlater (s := s) h
  | _, .chained _ _,         _ => trivial
  | _, .bound _ _ _,         _ => trivial
  | _, .paired _ _ _ _ _,    _ => trivial
  | _, .repeating _ _ _ _ _, _ => trivial

/-- What a pull leaves will end for good, and if the pull has answered nothing it is over. -/
def Pull.Final (pulled : Pull σ ε ρ α) (st : Store σ ε) : Prop :=
  pulled.rest.Final st ∧ (pulled.answer = none → pulled.rest.Over st)

theorem Pull.final_none (hs : s.Final st) (h : s.Over st) : Pull.Final ⟨none, s⟩ st :=
  ⟨hs, fun _ => h⟩

theorem Pull.final_some {o : Outcome σ α} (hs : s.Final st) : Pull.Final ⟨some o, s⟩ st :=
  ⟨hs, fun h => (Option.some_ne_none o h).elim⟩

/-- A sequence that is put away at its end. -/
def Outcomes.Compound : Outcomes σ ε ρ α → Prop
  | .chained _ _         => True
  | .bound _ _ _         => True
  | .paired _ _ _ _ _    => True
  | .repeating _ _ _ _ _ => True
  | _                    => False

/-- Choices, sequences of parsers and repetitions end for good, whatever they are made of. -/
theorem Outcomes.pull_final_of_compound {G : Grammar σ ε ρ} (n : Nat) :
    ∀ {α : Type} {s : Outcomes σ ε ρ α} {st st' : Store σ ε} {x : Pull σ ε ρ α},
      s.pull G n st = .done x st' → s.Compound → x.Final st' := by
  induction n with
  | zero =>
      intro α s st st' x h _
      cases h
  | succ n ih =>
      intro α s st st' x h hs
      cases s with
      | chained s waiting =>
          obtain ⟨⟨_ | o, s₁⟩, st₁, -, hdone⟩ := Run.bind_eq_done_iff.mp h
          · rcases waiting with _ | ⟨⟨p, c⟩, waiting⟩
            · cases hdone
              exact Pull.final_none trivial .ready
            · obtain ⟨t, st₂, -, hrest⟩ := Run.bind_eq_done_iff.mp hdone
              exact ih hrest trivial
          · cases hdone
            exact Pull.final_some trivial
      | bound next outer inner =>
          obtain ⟨⟨_ | o, inner₁⟩, st₁, -, hdone⟩ := Run.bind_eq_done_iff.mp h
          · obtain ⟨⟨_ | v, outer₁⟩, st₂, -, hdone⟩ := Run.bind_eq_done_iff.mp hdone
            · cases hdone
              exact Pull.final_none trivial .ready
            · obtain ⟨t, st₃, -, hrest⟩ := Run.bind_eq_done_iff.mp hdone
              exact ih hrest trivial
          · cases hdone
            exact Pull.final_some trivial
      | paired f q outer held inner =>
          cases held with
          | none =>
              obtain ⟨⟨_ | v, outer₁⟩, st₁, -, hdone⟩ := Run.bind_eq_done_iff.mp h
              · cases hdone
                exact Pull.final_none trivial .ready
              · obtain ⟨t, st₂, -, hrest⟩ := Run.bind_eq_done_iff.mp hdone
                exact ih hrest trivial
          | some a =>
              obtain ⟨⟨_ | o, inner₁⟩, st₁, -, hdone⟩ := Run.bind_eq_done_iff.mp h
              · exact ih hdone trivial
              · cases hdone
                exact Pull.final_some trivial
      | repeating least f p root frames =>
          cases root with
          | some c =>
              obtain ⟨t, st₁, -, hrest⟩ := Run.bind_eq_done_iff.mp h
              exact ih hrest trivial
          | none =>
              cases frames with
              | bottom =>
                  cases h
                  exact Pull.final_none trivial (.repeating least f p)
              | push s c value below =>
                  rw [pull] at h
                  obtain ⟨⟨_ | o, s₁⟩, st₁, -, hdone⟩ := Run.bind_eq_done_iff.mp h
                  · dsimp only at hdone
                    split at hdone
                    · cases hdone
                      exact Pull.final_some trivial
                    · exact ih hdone trivial
                  · dsimp only at hdone
                    split at hdone
                    · cases hdone
                      exact Pull.final_some trivial
                    · obtain ⟨t, st₂, -, hrest⟩ := Run.bind_eq_done_iff.mp hdone
                      exact ih hrest trivial
      | _ => exact hs.elim

variable {G : Grammar σ ε ρ}

/-- A parser that is started gives a sequence that will end for good. -/
theorem Parser.final_of_start {K : Set (Cursor σ)} (hG : G.Final K) {c : Cursor σ} (n : Nat) :
    ∀ {α : Type} (p : Parser σ ε ρ α) {s : Outcomes σ ε ρ α} {st st' : Store σ ε}, st.Intact →
      K ⊆ st.held → st.Holds c → p.Final K → p.start G n c st = .done s st' → s.Final st' := by
  induction n with
  | zero =>
      intro α p s st st' _ _ _ _ h
      cases h
  | succ n ih =>
      intro α p s st st' hst hK hc hp h
      -- `map`, `filter`, `spanning` and `lookahead` start the parser inside where they are started
      -- and put something around its sequence, which is final if the sequence is
      have inside : ∀ {β : Type} (q : Parser σ ε ρ β) {wrap : Outcomes σ ε ρ β → Outcomes σ ε ρ α},
          q.Final K → (q.start G n c st).bind (fun t => .done (wrap t)) = .done s st' →
          (∀ {t : Outcomes σ ε ρ β}, t.Final st' → (wrap t).Final st') → s.Final st' := by
        intro β q wrap hq h hwrap
        obtain ⟨t, st₁, hstart, hdone⟩ := Run.bind_eq_done_iff.mp h
        cases hdone
        exact hwrap (ih q hst hK hc hq hstart)
      cases p with
      | unit a => cases h; trivial
      | fail => cases h; trivial
      | anySymbol f => cases h; trivial
      | testSymbol test f =>
          rw [start] at h
          split at h
          · cases h; trivial
          · obtain ⟨ok, st₁, -, hdone⟩ := Run.bind_eq_done_iff.mp h
            cases ok <;> cases hdone <;> trivial
      | finish a =>
          rw [start] at h
          cases hend : c.isExhausted <;> rw [hend] at h <;> cases h <;> trivial
      | map f p => exact inside p hp h fun hs => hs
      | filter test p => exact inside p hp h fun hs => hs
      | bind p next => cases h; trivial
      | seq f p q => cases h; trivial
      | or p q => cases h; trivial
      | repetition least f p => cases h; trivial
      | spanning f p => exact inside p hp h fun hs => hs
      | rule r => exact ih (G.body r) hst hK hc (hG _ r) h
      | remark notes p =>
          have hlater := Later.remark hst (notes c)
          have hheld := hlater.held_subset hst
          exact ih p hlater.intact (fun _ hd => hheld (hK hd))
            (mem_held.mp (hheld (mem_held.mpr hc))) hp h
      | abort x => cases h
      | lookahead p => exact inside p hp h fun hs => hs
      | custom walk =>
          cases h
          exact hp st hst hK c hc

variable [Carrier σ]

/-- **ONE PULL** of a sequence that will end for good: if this is the end, then it is over. -/
theorem Outcomes.Sound.pull_final (n : Nat) : ∀ {α : Type} (s : Outcomes σ ε ρ α)
    {st st' : Store σ ε} {x : Pull σ ε ρ α}, s.Sound G st → s.Final st →
      s.pull G n st = .done x st' → x.Final st' := by
  induction n with
  | zero =>
      intro α s st st' x _ _ h
      cases h
  | succ n ih =>
      intro α s st st' x hs hfinal h
      cases s with
      | ready os =>
          cases os with
          | nil => cases h; exact Pull.final_none trivial .ready
          | cons o os => cases h; exact Pull.final_some trivial
      | consuming f c =>
          rw [Outcomes.pull] at h
          split at h <;> cases h <;> exact ⟨trivial, fun _ => .ready⟩
      | scripted script k =>
          obtain ⟨-, hlater, -⟩ := hs.pull h
          cases h
          refine ⟨Outcomes.Final.later hlater (s := .scripted script k) hfinal, fun hnone => ?_⟩
          exact .scripted (hfinal st (.refl hs.intact) k _ (Prod.ext hnone rfl))
      | mapped f s =>
          have hinner : s.Sound G st := ⟨hs.intact, hs.grammar, hs.held.1⟩
          obtain ⟨⟨answer, s₁⟩, st₁, hpull, hdone⟩ := Run.bind_eq_done_iff.mp h
          obtain ⟨hrest, hover⟩ := ih s hinner hfinal hpull
          cases answer with
          | none =>
              cases hdone
              exact Pull.final_none (s := .mapped f s₁) hrest (.mapped f (hover rfl))
          | some o =>
              obtain ⟨o', st₂, hcall, hdone⟩ := Run.bind_eq_done_iff.mp hdone
              cases hdone
              have hlater := Call.later_of_run (hinner.pull hpull).1.intact hcall
              exact Pull.final_some (s := .mapped f s₁) (Final.later hlater (s := s₁) hrest)
      | filtered test s =>
          have hinner : s.Sound G st := ⟨hs.intact, hs.grammar, hs.held⟩
          obtain ⟨⟨answer, s₁⟩, st₁, hpull, hdone⟩ := Run.bind_eq_done_iff.mp h
          obtain ⟨hrest, hover⟩ := ih s hinner hfinal hpull
          cases answer with
          | none =>
              cases hdone
              exact Pull.final_none (s := .filtered test s₁) hrest (.filtered test (hover rfl))
          | some o =>
              obtain ⟨ok, st₂, hcall, hdone⟩ := Run.bind_eq_done_iff.mp hdone
              have hsound₁ := (hinner.pull hpull).1
              have hlater := Call.later_of_run hsound₁.intact hcall
              have hrest₂ : s₁.Final st₂ := Final.later hlater hrest
              cases ok with
              | true =>
                  cases hdone
                  exact Pull.final_some hrest₂
              | false =>
                  have hsound₂ := hsound₁.later hlater
                  exact ih (.filtered test s₁) ⟨hsound₂.intact, hsound₂.grammar, hsound₂.held⟩
                    hrest₂ hdone
      | _ => exact pull_final_of_compound _ h trivial

/-- All its life the sequence will end for good. -/
theorem Outcomes.Sound.becomes_final (hs : s.Sound G st) (hfinal : s.Final st)
    (hlife : s.Becomes G st s' st') : s'.Final st' := by
  induction hlife with
  | unchanged => exact hfinal
  | wait _ later ih => exact ih.later later
  | @pull s₁ s₂ st₁ st₂ answer hbefore pulled ih =>
      obtain ⟨n, hn⟩ := (pulled_eq_done_iff G _).mp pulled
      exact (pull_final n s₁ (hs.becomes hbefore).1 ih hn).1
  | complete _ ih => exact ih

/-- The sequence of a parser that callers start will end for good. -/
theorem World.Sound.started_final {w : World σ ε} (hw : w.Sound) (hG : G.Final w.known)
    {p : Parser σ ε ρ α} (hp : p.Final w.known) {c : Cursor σ} (hc : c ∈ w.cursors)
    (h : p.started G c w.store = .done s st) : s.Final st := by
  obtain ⟨n, hn⟩ := (Parser.started_eq_done_iff G c w.store).mp h
  exact Parser.final_of_start hG n p hw.intact hw.known_subset (hw.cursors c hc) hp hn

end

/-- **AN END IS FINAL.** Callers who have got to a world by whatever steps start a parser at one of
    their cursors. They pull the sequence, others work on the store, it is narrowed to its complete
    outcomes, in any order; and then a pull answers nothing. From then on, whatever happens, every
    pull answers nothing and leaves the store as it is, so that nothing has been read and no remark
    made. The hollow of the sequence does the same under any grammar: no function, no test, no
    continuation and no parser has been called. Of parsers of the caller's own making it is assumed
    that their own sequences end for good. -/
theorem Parser.end_is_final [Carrier σ] {w : World σ ε} (hw : w.Reachable) {G : Grammar σ ε ρ}
    (hG : G.Honest w.known) (hGfinal : G.Final w.known) {p : Parser σ ε ρ α}
    (hp : p.Honest w.known) (hpfinal : p.Final w.known) {c : Cursor σ} (hc : c ∈ w.cursors)
    {s s₁ s₂ s₃ : Outcomes σ ε ρ α} {st st₁ st₂ st₃ : Store σ ε}
    (hstart : p.started G c w.store = .done s st) (hlife : s.Becomes G st s₁ st₁)
    (hend : s₁.pulled G st₁ = .done ⟨none, s₂⟩ st₂) (hafter : s₂.Becomes G st₂ s₃ st₃) :
    (∃ rest, s₃.pulled G st₃ = .done ⟨none, rest⟩ st₃) ∧
      ∀ x G', ∃ rest, (s₃.hollow x).pulled G' st₃ = .done ⟨none, rest⟩ st₃ := by
  have hsound := hw.sound
  have hs := (hsound.started hG hp hc hstart).1
  have hfinal := hsound.started_final hGfinal hpfinal hc hstart
  have hs₁ := (hs.becomes hlife).1
  have hover : s₂.Over st₂ := by
    obtain ⟨n, hn⟩ := (Outcomes.pulled_eq_done_iff G st₁).mp hend
    exact (Outcomes.Sound.pull_final n s₁ hs₁ (hs.becomes_final hfinal hlife) hn).2 rfl
  obtain ⟨hover₃, hintact⟩ := hover.becomes (hs₁.pulled hend).1.intact hafter
  refine ⟨?_, fun x G' => ?_⟩
  · obtain ⟨rest, hrest, -⟩ := hover₃.pulled hintact G
    exact ⟨rest, hrest⟩
  · obtain ⟨rest, hrest, -⟩ := (hover₃.hollow x).pulled hintact G'
    exact ⟨rest, hrest⟩

/-- A parser of the caller's own making that succeeds once, where it is started. -/
def Parser.single (a : α) : Parser σ ε ρ α :=
  .custom fun c => .arrive fun n => .arrive (if n = 0 then some ⟨a, c⟩ else none)

/-- It hands out no cursor but the one that it is given. -/
theorem Parser.honest_single (a : α) (K : Set (Cursor σ)) :
    @Parser.Honest σ ε ρ Carrier.none α (.single a) K := by
  intro K' _ c hc n
  cases n with
  | zero =>
      rintro o ⟨⟩
      exact ⟨hc, nofun⟩
  | succ n => exact forall_mem_none

theorem Parser.final_single (a : α) (K : Set (Cursor σ)) :
    (single a : Parser σ ε ρ α).Final K := by
  intro st _ _ c _ st₁ _ n st₂ _ m hm st₃ _
  show (if m = 0 then _ else none, st₃) = (none, st₃)
  rw [if_neg (Nat.ne_of_gt (Nat.zero_lt_of_lt hm))]

/-- It is pulled to its end, somebody else reads the source, the sequence is narrowed to its
    complete outcomes, and it still answers nothing. -/
theorem Parser.single_end_is_final :
    let c : Cursor Nat := ⟨0, 0, 0, some 7⟩
    let p : Parser Nat Unit (fun _ => Empty) Nat := .filter (fun _ => .pure true) (.single 5)
    let s : Nat → Outcomes Nat Unit (fun _ => Empty) Nat := fun n =>
      .filtered (fun _ => .pure true)
        (.scripted (fun n => .arrive (if n = 0 then some ⟨5, c⟩ else none)) n)
    let st := World.pair.store
    let st' := (st.advance c).2
    p.started .empty c st = .done (s 0) st ∧
      (s 0).pulled .empty st = .done ⟨some ⟨5, c⟩, s 1⟩ st ∧
      (s 1).pulled .empty st = .done ⟨none, s 2⟩ st ∧
      st'.readsOf 0 = 2 ∧
      ∃ rest, (s 2).complete.pulled .empty st' = .done ⟨none, rest⟩ st' := by
  intro c p s st st'
  let _ : Carrier Nat := .none
  have hc : c ∈ World.pair.cursors := List.mem_singleton.mpr rfl
  have hstart : p.started .empty c st = .done (s 0) st := by
    rw [started_filter, single, started_custom]
    rfl
  have hfirst : (s 0).pulled .empty st = .done ⟨some ⟨5, c⟩, s 1⟩ st := by
    rw [Outcomes.pulled_filtered, Outcomes.pulled_scripted]
    rfl
  have hend : (s 1).pulled .empty st = .done ⟨none, s 2⟩ st := by
    rw [Outcomes.pulled_filtered, Outcomes.pulled_scripted]
    rfl
  have hhonest : p.Honest World.pair.known := honest_single 5 _
  have hfinal : p.Final World.pair.known := final_single 5 World.pair.known
  have hlater : st.Later st' :=
    World.Steps.later (.single (.advance hc)) World.reachable_pair.sound
  have hafter : (s 2).Becomes .empty st (s 2).complete st' := .complete (.wait .unchanged hlater)
  exact ⟨hstart, hfirst, hend, rfl,
    (end_is_final World.reachable_pair (fun _ r => r.elim) (fun _ r => r.elim) hhonest hfinal hc
      hstart (.pull .unchanged hfirst) hend hafter).1⟩

end Backtrack
