import Backtrack.Proofs.World

/-!
# Starting — what happens before the first pull

Starting a parser looks at the current symbol, goes through `map`, `filter`, `spanning`, `lookahead`
and rule names to the parsers inside, and stops at the first choice, sequence or repetition. No
cursor is advanced on the way, so nothing is read; all that can come of it are remarks.

What lies under a choice, a sequence or a repetition waits for the first pull. To see this, take all
of it away: in the hollow of a parser a fault stands in its place, and in the place of the functions
that change or test outcomes. The hollow starts exactly as the parser does. Had any of those parts
been run, the hollow would have come upon a fault.
-/

namespace Backtrack

open Store

variable {σ ε : Type} {ρ : Type → Type} {α : Type}

/-- All rules of a grammar are put together without walks of the caller's own. -/
def Grammar.Plain (G : Grammar σ ε ρ) : Prop :=
  ∀ (α : Type) (r : ρ α), (G.body r).Plain

/-- The call that does nothing but have a fault. -/
def Call.failing {β : Type} (x : Fault) : Call ε β :=
  ⟨[], .error x⟩

/-- The parser with a fault in the place of everything that lies under a choice, a sequence or a
    repetition, and of every function on outcomes. Left are the tests on the current symbol, the
    remarks and the rule names that can be reached without passing one of these. -/
def Parser.hollow (x : Fault) : {α : Type} → Parser σ ε ρ α → Parser σ ε ρ α
  | _, .unit a              => .unit a
  | _, .fail                => .fail
  | _, .anySymbol f         => .anySymbol f
  | _, .testSymbol test f   => .testSymbol test f
  | _, .finish a            => .finish a
  | _, .map _ p             => .map (fun _ => .failing x) (p.hollow x)
  | _, .filter _ p          => .filter (fun _ => .failing x) (p.hollow x)
  | _, .bind (α := α) _ _   => .bind (.abort x : Parser σ ε ρ α) fun _ => .abort x
  | _, .seq f _ _           => .seq f (.abort x) (.abort x)
  | _, .or _ _              => .or (.abort x) (.abort x)
  | _, .repetition k f _    => .repetition k f (.abort x)
  | _, .spanning f p        => .spanning f (p.hollow x)
  | _, .rule r              => .rule r
  | _, .remark notes p      => .remark notes (p.hollow x)
  | _, .abort y             => .abort y
  | _, .lookahead p         => .lookahead (p.hollow x)
  | _, .custom start        => .custom start

/-- The grammar of the hollow rules. -/
def Grammar.hollow (x : Fault) (G : Grammar σ ε ρ) : Grammar σ ε ρ where
  body r := (G.body r).hollow x

/-! ## Remarks only -/

theorem Store.remark_remark (st : Store σ ε) (notes notes' : List ε) :
    (st.remark notes).remark notes' = st.remark (notes ++ notes') :=
  (List.foldl_append ..).symm

/-- A start that returns has left remarks, and nothing else has changed. -/
theorem Parser.start_eq_remark {G : Grammar σ ε ρ} (hG : G.Plain) (n : Nat) :
    ∀ {α : Type} {p : Parser σ ε ρ α} {c : Cursor σ} {st st' : Store σ ε}
      {s : Outcomes σ ε ρ α}, p.Plain → p.start G n c st = .done s st' →
      ∃ notes, st' = st.remark notes := by
  induction n with
  | zero =>
      intro α p c st st' s _ h
      cases h
  | succ n ih =>
      intro α p c st st' s hp h
      -- a parser inside that is started at once, whatever is then made of its sequence
      have inside : ∀ {β : Type} {q : Parser σ ε ρ β} {k : Outcomes σ ε ρ β → Outcomes σ ε ρ α},
          q.Plain → ((q.start G n c st).bind fun t st => .done (k t) st) = .done s st' →
          ∃ notes, st' = st.remark notes := by
        intro β q k hq hrun
        obtain ⟨t, st₁, hstart, hdone⟩ := Run.bind_eq_done_iff.mp hrun
        cases hdone
        exact ih hq hstart
      cases p with
      | testSymbol test f =>
          simp only [start] at h
          cases hx : c.current with
          | none =>
              rw [hx] at h
              cases h
              exact ⟨[], rfl⟩
          | some x =>
              rw [hx] at h
              obtain ⟨ok, st₁, hcall, hdone⟩ := Run.bind_eq_done_iff.mp h
              cases hdone
              rw [Call.run] at hcall
              cases hresult : (test x).result with
              | ok b =>
                  rw [hresult] at hcall
                  cases hcall
                  exact ⟨_, rfl⟩
              | error y =>
                  rw [hresult] at hcall
                  cases hcall
      | map f p => exact inside (q := p) hp h
      | filter test p => exact inside (q := p) hp h
      | spanning f p => exact inside (q := p) hp h
      | lookahead p => exact inside (q := p) hp h
      | rule r => exact ih (hG _ r) h
      | remark notes p =>
          obtain ⟨notes', rfl⟩ := ih (p := p) hp h
          exact ⟨notes c ++ notes', remark_remark ..⟩
      | abort x => cases h
      | custom start => exact hp.elim
      | _ =>
          cases h
          exact ⟨[], rfl⟩

/-! ## The hollow starts in the same way -/

/-- Under any allowance the hollow of a parser starts as the parser does: with a sequence, with the
    same fault or not at all, and with the same store in the end. -/
theorem Parser.start_hollow_agrees (x : Fault) (G : Grammar σ ε ρ) (n : Nat) :
    ∀ {α : Type} (p : Parser σ ε ρ α) (c : Cursor σ) (st : Store σ ε),
      Run.Agrees (fun _ _ => True) (p.start G n c st)
        ((p.hollow x).start (G.hollow x) n c st) := by
  induction n with
  | zero =>
      intro α p c st
      exact .unfinished
  | succ n ih =>
      intro α p c st
      cases p with
      | testSymbol test f =>
          rw [hollow, start, start]
          cases c.current with
          | none => exact .done st trivial
          | some y =>
              dsimp only
              cases (test y).run st with
              | done ok st => exact .done st trivial
              | fault z st => exact .fault z st
              | unfinished => exact .unfinished
      | map f p => exact (ih p c st).bind fun _ _ st _ => .done st trivial
      | filter test p => exact (ih p c st).bind fun _ _ st _ => .done st trivial
      | spanning f p => exact (ih p c st).bind fun _ _ st _ => .done st trivial
      | lookahead p => exact (ih p c st).bind fun _ _ st _ => .done st trivial
      | rule r => exact ih (G.body r) c st
      | remark notes p => exact ih p c _
      | abort y => exact .fault y st
      | _ => exact .done _ trivial

/-- **BUILDING A SEQUENCE TOUCHES NOTHING.** When a parser put together without walks of the
    caller's own has been started, all chains are as before, with their nodes, memo cells and counts
    of reads, and the log has got nothing but remarks. The hollow of the parser comes to the same
    store: no function on outcomes has been called, and under a choice, a sequence or a repetition
    no test, no function, no continuation, no rule and no parser has been run. -/
theorem Parser.start_touches_nothing {G : Grammar σ ε ρ} (hG : G.Plain) {p : Parser σ ε ρ α}
    (hp : p.Plain) {c : Cursor σ} {st st' : Store σ ε} {s : Outcomes σ ε ρ α}
    (h : p.started G c st = .done s st') :
    st'.chains = st.chains ∧
      (∃ notes : List ε, st'.log.toList = st.log.toList ++ notes.map Event.note) ∧
      ∀ x, ∃ s', (p.hollow x).started (G.hollow x) c st = .done s' st' := by
  obtain ⟨n, hn⟩ := (started_eq_done_iff G c st).mp h
  obtain ⟨notes, rfl⟩ := start_eq_remark hG n hp hn
  refine ⟨chains_remark .., ⟨notes, log_remark ..⟩, fun x => ?_⟩
  have hagrees := start_hollow_agrees x G n p c st
  rw [hn] at hagrees
  -- the allowance that was enough for the parser is enough for its hollow
  have hex : ∃ s', (p.hollow x).start (G.hollow x) n c st = .done s' (st.remark notes) := by
    generalize (p.hollow x).start (G.hollow x) n c st = r at hagrees
    cases hagrees with
    | @done _ s' => exact ⟨s', rfl⟩
  obtain ⟨s', hs'⟩ := hex
  exact ⟨s', (started_eq_done_iff _ c st).mpr ⟨n, hs'⟩⟩

/-- The remark in front of a choice is made, and the one under it is not. -/
theorem remarked_choice_untouched :
    let st := World.pair.store
    let p : Parser Nat Unit (fun _ => Empty) Nat :=
      .remark (fun _ => [()]) (.map .pure (.or (.remark (fun _ => [()]) .item) .item))
    ∃ s st', p.started .empty ⟨0, 0, 0, some 7⟩ st = .done s st' ∧ st'.chains = st.chains ∧
      st'.notes = [()] := by
  intro st p
  have hstarted : ∃ s, p.started .empty ⟨0, 0, 0, some 7⟩ st = .done s (st.remark [()]) := by
    rw [Parser.started_remark, Parser.started_map, Parser.started_or]
    exact ⟨_, rfl⟩
  obtain ⟨s, hs⟩ := hstarted
  have hplain : p.Plain := ⟨trivial, trivial⟩
  obtain ⟨hchains, -, -⟩ := Parser.start_touches_nothing (fun α r => r.elim) hplain hs
  exact ⟨s, _, hs, hchains, rfl⟩

end Backtrack
