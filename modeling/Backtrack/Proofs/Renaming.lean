import Backtrack.Proofs.RepetitionLaws

/-!
# Renaming — a parser in a larger grammar

A parser refers to rules by their names. With other names for the rules, in a grammar where the new
names stand for the renamed parsers, it does the same in every respect: it is started and pulled
with the same allowances, gives the same answers, meets the same faults and leaves the same stores.

So a grammar may be extended by rules of one's own, and what has been said about the parsers of the
old grammar stays true of them in the new one.
-/

namespace Backtrack

universe u v

variable {σ ε : Type} {ρ ρ' : Type → Type} {α β : Type}

/-- The parser with another name for each rule. -/
def Parser.rename (f : (α : Type) → ρ α → ρ' α) : {α : Type} → Parser σ ε ρ α → Parser σ ε ρ' α
  | _, .unit a               => .unit a
  | _, .fail                 => .fail
  | _, .anySymbol g          => .anySymbol g
  | _, .testSymbol test g    => .testSymbol test g
  | _, .finish a             => .finish a
  | _, .map g p              => .map g (p.rename f)
  | _, .filter test p        => .filter test (p.rename f)
  | _, .bind p next          => .bind (p.rename f) fun a => (next a).rename f
  | _, .seq g p q            => .seq g (p.rename f) (q.rename f)
  | _, .or p q               => .or (p.rename f) (q.rename f)
  | _, .repetition least g p => .repetition least g (p.rename f)
  | _, .spanning g p         => .spanning g (p.rename f)
  | α, .rule r               => .rule (f α r)
  | _, .remark notes p       => .remark notes (p.rename f)
  | _, .abort x              => .abort x
  | _, .lookahead p          => .lookahead (p.rename f)
  | _, .custom start         => .custom start

mutual

/-- The sequence with all parsers in it renamed. -/
def Outcomes.rename (f : (α : Type) → ρ α → ρ' α) :
    {α : Type} → Outcomes σ ε ρ α → Outcomes σ ε ρ' α
  | _, .ready os                      => .ready os
  | _, .consuming g c                 => .consuming g c
  | _, .scripted script n             => .scripted script n
  | _, .mapped g s                    => .mapped g (s.rename f)
  | _, .filtered test s               => .filtered test (s.rename f)
  | _, .chained s waiting             =>
      .chained (s.rename f) (waiting.map fun (p, c) => (p.rename f, c))
  | _, .bound next outer inner        =>
      .bound (fun a => (next a).rename f) (outer.rename f) (inner.rename f)
  | _, .paired g q outer held inner   =>
      .paired g (q.rename f) (outer.rename f) held (inner.rename f)
  | _, .repeating least g p root frames =>
      .repeating least g (p.rename f) root (frames.rename f)

/-- The row with all parsers in it renamed. -/
def Frames.rename (f : (α : Type) → ρ α → ρ' α) : {α : Type} → Frames σ ε ρ α → Frames σ ε ρ' α
  | _, .bottom               => .bottom
  | _, .push s c value below => .push (s.rename f) c value (below.rename f)

end

/-- The same answer, and what is left of the sequence renamed. -/
def Pull.rename (f : (α : Type) → ρ α → ρ' α) (x : Pull σ ε ρ α) : Pull σ ε ρ' α :=
  ⟨x.answer, x.rest.rename f⟩

/-- In the second grammar the new names stand for the renamed parsers. -/
def Grammar.Renames (f : (α : Type) → ρ α → ρ' α) (G : Grammar σ ε ρ) (G' : Grammar σ ε ρ') :
    Prop :=
  ∀ (α : Type) (r : ρ α), G'.body (f α r) = (G.body r).rename f

/-- Runs whose results are got from each other by a function. -/
theorem Run.Agrees.eq_bind {δ : Type u} {η : Type v} {g : δ → η} {r : Run σ ε δ} {r' : Run σ ε η}
    (h : Agrees (fun a b => b = g a) r r') : r' = r.bind fun a st => .done (g a) st := by
  cases h with
  | done st h => rw [h]; rfl
  | fault x st => rfl
  | unfinished => rfl

theorem Frames.values_rename (f : (α : Type) → ρ α → ρ' α) : (frames : Frames σ ε ρ α) →
    (tail : List α) → (frames.rename f).values tail = frames.values tail
  | .bottom,                  _    => rfl
  | .push _ _ none below,     tail => values_rename f below tail
  | .push _ _ (some a) below, tail => values_rename f below (a :: tail)

section

variable {f : (α : Type) → ρ α → ρ' α} {G : Grammar σ ε ρ} {G' : Grammar σ ε ρ'}
  (hG : G.Renames f G')
include hG

/-! ## Under an allowance -/

theorem Parser.start_renamed (n : Nat) : ∀ {α : Type} (p : Parser σ ε ρ α) (c : Cursor σ)
    (st : Store σ ε), Run.Agrees (fun s t => t = s.rename f) (p.start G n c st)
      ((p.rename f).start G' n c st) := by
  induction n with
  | zero => intro α p c st; exact .unfinished
  | succ n ih =>
      intro α p c st
      cases p with
      | unit a => exact .done st rfl
      | fail => exact .done st rfl
      | anySymbol g => exact .done st rfl
      | testSymbol test g =>
          rw [rename, start, start]
          cases c.current with
          | none => exact .done st rfl
          | some x =>
              refine (Run.Agrees.refl ((test x).run st)).bind ?_
              rintro ok _ st rfl
              cases ok with
              | true => exact .done st rfl
              | false => exact .done st rfl
      | finish a =>
          rw [rename, start, start]
          refine .done st ?_
          split <;> rfl
      | map g p => exact (ih p c st).bind fun s _ st h => .done st (h ▸ rfl)
      | filter test p => exact (ih p c st).bind fun s _ st h => .done st (h ▸ rfl)
      | bind p next => exact .done st rfl
      | seq g p q => exact .done st rfl
      | or p q => exact .done st rfl
      | repetition least g p => exact .done st rfl
      | spanning g p => exact (ih p c st).bind fun s _ st h => .done st (h ▸ rfl)
      | rule r =>
          rw [rename, start, start, hG]
          exact ih (G.body r) c st
      | remark notes p => exact ih p c (st.remark (notes c))
      | abort x => exact .fault x st
      | lookahead p => exact (ih p c st).bind fun s _ st h => .done st (h ▸ rfl)
      | custom walk => exact .done _ rfl

theorem Outcomes.pull_renamed (n : Nat) : ∀ {α : Type} (s : Outcomes σ ε ρ α) (st : Store σ ε),
    Run.Agrees (fun x y => y = x.rename f) (s.pull G n st) ((s.rename f).pull G' n st) := by
  induction n with
  | zero => intro α s st; exact .unfinished
  | succ n ih =>
      intro α s st
      cases s with
      | ready os => cases os <;> exact .done st rfl
      | consuming g c =>
          rw [rename, pull, pull]
          cases c.current with
          | none => exact .done st rfl
          | some x => exact .done _ rfl
      | scripted script m => exact .done _ rfl
      | mapped g s =>
          refine (ih s st).bind ?_
          rintro ⟨_ | o, s⟩ _ st rfl
          · exact .done st rfl
          · refine (Run.Agrees.refl ((g o).run st)).bind ?_
            rintro o' _ st rfl
            exact .done st rfl
      | filtered test s =>
          refine (ih s st).bind ?_
          rintro ⟨_ | o, s⟩ _ st rfl
          · exact .done st rfl
          · refine (Run.Agrees.refl ((test o).run st)).bind ?_
            rintro ok _ st rfl
            cases ok with
            | true => exact .done st rfl
            | false => exact ih (.filtered test s) st
      | chained s waiting =>
          refine (ih s st).bind ?_
          rintro ⟨_ | o, s⟩ _ st rfl
          · cases waiting with
            | nil => exact .done st rfl
            | cons w waiting =>
                refine (w.1.start_renamed hG n w.2 st).bind ?_
                rintro t _ st rfl
                exact ih (.chained t waiting) st
          · exact .done st rfl
      | bound next outer inner =>
          refine (ih inner st).bind ?_
          rintro ⟨_ | o, inner⟩ _ st rfl
          · refine (ih outer st).bind ?_
            rintro ⟨_ | o, outer⟩ _ st rfl
            · exact .done st rfl
            · refine ((next o.value).start_renamed hG n o.cursor st).bind ?_
              rintro inner _ st rfl
              exact ih (.bound next outer inner) st
          · exact .done st rfl
      | paired g q outer held inner =>
          cases held with
          | none =>
              refine (ih outer st).bind ?_
              rintro ⟨_ | o, outer⟩ _ st rfl
              · exact .done st rfl
              · refine (q.start_renamed hG n o.cursor st).bind ?_
                rintro inner _ st rfl
                exact ih (.paired g q outer (some o.value) inner) st
          | some a =>
              refine (ih inner st).bind ?_
              rintro ⟨_ | o, inner⟩ _ st rfl
              · exact ih (.paired g q outer none .empty) st
              · exact .done st rfl
      | repeating least g p root frames =>
          cases root with
          | some c =>
              refine (p.start_renamed hG n c st).bind ?_
              rintro s _ st rfl
              exact ih (.repeating least g p none (.push s c none frames)) st
          | none =>
              cases frames with
              | bottom => exact .done st rfl
              | push s c value below =>
                  refine (ih s st).bind ?_
                  rintro ⟨_ | o, s⟩ _ st rfl
                  · have hvalues := Frames.values_rename f (.push s c value below) []
                    rw [Frames.rename] at hvalues
                    dsimp only [Pull.rename]
                    rw [hvalues]
                    split
                    · exact .done st rfl
                    · exact ih (.repeating least g p none below) st
                  · have hvalues := Frames.values_rename f (.push s c value below) [o.value]
                    rw [Frames.rename] at hvalues
                    dsimp only [Pull.rename]
                    rw [hvalues]
                    split
                    · exact .done st rfl
                    · refine (p.start_renamed hG n o.cursor st).bind ?_
                      rintro t _ st rfl
                      exact ih (.repeating least g p none
                        (.push t o.cursor (some o.value) (.push s c value below))) st

/-! ## Without an allowance -/

/-- **A RENAMED PARSER** is started like the parser, and leaves the same store. -/
theorem Parser.started_rename (p : Parser σ ε ρ α) (c : Cursor σ) (st : Store σ ε) :
    (p.rename f).started G' c st = (p.started G c st).bind fun s st => .done (s.rename f) st :=
  (Run.limit_rel (p.start_tends G c st).rising ((p.rename f).start_tends G' c st).rising
    (fun n => p.start_renamed hG n c st) Run.Agrees.unfinished_iff).eq_bind

/-- **A RENAMED SEQUENCE** is pulled like the sequence: it gives the same answer and leaves the same
    store. -/
theorem Outcomes.pulled_rename (s : Outcomes σ ε ρ α) (st : Store σ ε) :
    (s.rename f).pulled G' st = (s.pulled G st).bind fun x st => .done (x.rename f) st :=
  (Run.limit_rel (s.pull_tends G st).rising ((s.rename f).pull_tends G' st).rising
    (fun n => s.pull_renamed hG n st) Run.Agrees.unfinished_iff).eq_bind

end

end Backtrack
