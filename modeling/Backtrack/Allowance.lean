import Backtrack.Resolve

/-!
# Raising the allowance

The allowance bounds the depth of nested steps and has no other effect: a run that was finished
under one allowance is the same run under every greater one. So the result of a run is a matter of
the parser, the cursor and the store alone.
-/

namespace Backtrack

universe u v

variable {σ ε : Type} {ρ : Type → Type} {α : Type}

/-- A run agrees with another as far as it got: it is the same, or it is unfinished. -/
def Run.Within {β : Type u} (r r' : Run σ ε β) : Prop :=
  r = .unfinished ∨ r = r'

namespace Run.Within

variable {β : Type u} {γ : Type v}

theorem refl (r : Run σ ε β) : r.Within r :=
  Or.inr rfl

theorem unfinished (r : Run σ ε β) : (Run.unfinished : Run σ ε β).Within r :=
  Or.inl rfl

theorem trans {r r' r'' : Run σ ε β} (h : r.Within r') (h' : r'.Within r'') : r.Within r'' := by
  rcases h with h | rfl
  · exact Or.inl h
  · exact h'

theorem bind {r r' : Run σ ε β} {k k' : β → Store σ ε → Run σ ε γ} (h : r.Within r')
    (hk : ∀ b st, (k b st).Within (k' b st)) : (r.bind k).Within (r'.bind k') := by
  rcases h with rfl | rfl
  · exact unfinished _
  · cases r with
    | done b st  => exact hk b st
    | fault x st => exact refl _
    | unfinished => exact refl _

/-- A finished run is the run under a greater allowance. -/
theorem eq_of_finished {r r' : Run σ ε β} (h : r.Within r') (hr : r ≠ .unfinished) : r' = r := by
  rcases h with h | h
  · exact absurd h hr
  · exact h.symm

end Run.Within

theorem Parser.start_within_succ (G : Grammar σ ε ρ) (n : Nat) :
    ∀ {α : Type} (p : Parser σ ε ρ α) (c : Cursor σ) (st : Store σ ε),
      (p.start G n c st).Within (p.start G (n + 1) c st) := by
  induction n with
  | zero => intro α p c st; exact Run.Within.unfinished _
  | succ n ih =>
      intro α p c st
      cases p with
      | map f p => exact (ih p c st).bind fun _ _ => .refl _
      | filter test p => exact (ih p c st).bind fun _ _ => .refl _
      | spanning f p => exact (ih p c st).bind fun _ _ => .refl _
      | lookahead p => exact (ih p c st).bind fun _ _ => .refl _
      | rule r => exact ih (G.body r) c st
      | remark notes p => exact ih p c _
      | _ => exact .refl _

theorem Outcomes.pull_within_succ (G : Grammar σ ε ρ) (n : Nat) :
    ∀ {α : Type} (s : Outcomes σ ε ρ α) (st : Store σ ε),
      (s.pull G n st).Within (s.pull G (n + 1) st) := by
  induction n with
  | zero => intro α s st; exact Run.Within.unfinished _
  | succ n ih =>
      intro α s st
      have begins {α : Type} (p : Parser σ ε ρ α) (c : Cursor σ) (st : Store σ ε) :=
        p.start_within_succ G n c st
      cases s with
      | ready os => cases os <;> exact .refl _
      | consuming f c => exact .refl _
      | scripted script k => exact .refl _
      | mapped f s =>
          simp only [pull]
          refine (ih s st).bind fun pulled st => ?_
          rcases pulled with ⟨_ | o, s⟩ <;> exact .refl _
      | filtered test s =>
          simp only [pull]
          refine (ih s st).bind fun pulled st => ?_
          rcases pulled with ⟨_ | o, s⟩
          · exact .refl _
          · refine (Run.Within.refl _).bind fun ok st => ?_
            cases ok
            · exact ih _ st
            · exact .refl _
      | chained s waiting =>
          simp only [pull]
          refine (ih s st).bind fun pulled st => ?_
          rcases pulled with ⟨_ | o, s⟩
          · rcases waiting with _ | ⟨⟨p, c⟩, waiting⟩
            · exact .refl _
            · exact (begins p c st).bind fun s st => ih _ st
          · exact .refl _
      | bound next outer inner =>
          simp only [pull]
          refine (ih inner st).bind fun pulled st => ?_
          rcases pulled with ⟨_ | o, inner⟩
          · refine (ih outer st).bind fun pulled st => ?_
            rcases pulled with ⟨_ | o, outer⟩
            · exact .refl _
            · exact (begins _ _ st).bind fun inner st => ih _ st
          · exact .refl _
      | paired f q outer held inner =>
          cases held with
          | none =>
              simp only [pull]
              refine (ih outer st).bind fun pulled st => ?_
              rcases pulled with ⟨_ | o, outer⟩
              · exact .refl _
              · exact (begins _ _ st).bind fun inner st => ih _ st
          | some a =>
              simp only [pull]
              refine (ih inner st).bind fun pulled st => ?_
              rcases pulled with ⟨_ | o, inner⟩
              · exact ih _ st
              · exact .refl _
      | repeating least f p root frames =>
          cases root with
          | some c =>
              simp only [pull]
              exact (begins p c st).bind fun s st => ih _ st
          | none =>
              cases frames with
              | bottom => exact .refl _
              | push s c value below =>
                  rw [pull, pull]
                  refine (ih s st).bind fun pulled st => ?_
                  rcases pulled with ⟨_ | o, s⟩ <;> dsimp only <;> split
                  · exact .refl _
                  · exact ih _ st
                  · exact .refl _
                  · exact (begins p _ st).bind fun t st => ih _ st

/-- A parser that started under an allowance starts the same way under a greater one. -/
theorem Parser.start_eq_of_le (G : Grammar σ ε ρ) {n m : Nat} (h : n ≤ m) (p : Parser σ ε ρ α)
    (c : Cursor σ) (st : Store σ ε) (finished : p.start G n c st ≠ .unfinished) :
    p.start G m c st = p.start G n c st := by
  refine Run.Within.eq_of_finished ?_ finished
  induction h with
  | refl => exact .refl _
  | step _ ih => exact ih.trans (p.start_within_succ G _ c st)

/-- A pull that was answered under an allowance is answered the same way under a greater one. -/
theorem Outcomes.pull_eq_of_le (G : Grammar σ ε ρ) {n m : Nat} (h : n ≤ m)
    (s : Outcomes σ ε ρ α) (st : Store σ ε) (finished : s.pull G n st ≠ .unfinished) :
    s.pull G m st = s.pull G n st := by
  refine Run.Within.eq_of_finished ?_ finished
  induction h with
  | refl => exact .refl _
  | step _ ih => exact ih.trans (s.pull_within_succ G _ st)

end Backtrack
