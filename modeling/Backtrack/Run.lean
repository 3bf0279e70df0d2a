import Backtrack.Span
import Backtrack.Store

/-!
# Runs — what an action on the store comes to

An action on the store ends with a result, stops at a fault of one of the caller's functions, or is
not finished when its allowance of steps is used up. The caller's own code enters in two shapes: a
*call* is one application of a function to a value, and a *walk* is a small program that advances
cursors. Both may leave remarks in the log.
-/

namespace Backtrack

universe u v

variable {σ ε : Type}

/-- How an action on the store ends. -/
inductive Run (σ ε : Type) (β : Type u) where
  /-- It gave a result and left this store. -/
  | done (result : β) (store : Store σ ε)
  /-- A function of the caller had a fault. -/
  | fault (cause : Fault) (store : Store σ ε)
  /-- The allowance of steps was used up first. -/
  | unfinished

namespace Run

variable {β : Type u} {γ : Type v}

/-- Go on with the result, if there is one. -/
@[inline]
def bind (run : Run σ ε β) (next : β → Store σ ε → Run σ ε γ) : Run σ ε γ :=
  match run with
  | .done b st  => next b st
  | .fault x st => .fault x st
  | .unfinished => .unfinished

theorem bind_eq_done_iff {run : Run σ ε β} {next : β → Store σ ε → Run σ ε γ} {c : γ}
    {st' : Store σ ε} :
    run.bind next = .done c st' ↔ ∃ b st, run = .done b st ∧ next b st = .done c st' := by
  cases run with
  | done b st =>
      constructor
      · intro h; exact ⟨b, st, rfl, h⟩
      · rintro ⟨_, _, ⟨⟩, h⟩; exact h
  | fault x st => simp [bind]
  | unfinished => simp [bind]

end Run

/-- One application of a function supplied by the caller: the remarks it leaves in the log, and
    what it returns. -/
structure Call (ε β : Type) where
  notes  : List ε
  result : Except Fault β

namespace Call

variable {β γ : Type}

/-- A call that only returns a value. -/
def pure (b : β) : Call ε β :=
  ⟨[], .ok b⟩

/-- The same call with its value changed. -/
def map (f : β → γ) (call : Call ε β) : Call ε γ :=
  ⟨call.notes, call.result.map f⟩

/-- Make the call: its remarks go to the log, and its value is the result. -/
@[inline]
def run (call : Call ε β) (st : Store σ ε) : Run σ ε β :=
  match call.result with
  | .ok b    => .done b (st.remark call.notes)
  | .error x => .fault x (st.remark call.notes)

@[simp]
theorem run_pure (b : β) (st : Store σ ε) : (pure b : Call ε β).run st = .done b st := rfl

end Call

/-- A small program that can advance cursors and leave remarks. -/
inductive Walk (σ ε β : Type) where
  /-- The end of the walk. -/
  | arrive (b : β)
  /-- Advance a cursor and go on from what is found there. -/
  | advance (c : Cursor σ) (next : Option (Cursor σ) → Walk σ ε β)
  /-- Leave a remark and go on. -/
  | remark (e : ε) (next : Walk σ ε β)

/-- Carry out a walk on the store. -/
def Walk.run {β : Type} : Walk σ ε β → Store σ ε → β × Store σ ε
  | .arrive b,       st => (b, st)
  | .advance c next, st =>
      let (found, st) := st.advance c
      (next found).run st
  | .remark e next,  st => next.run (st.remark [e])

end Backtrack
