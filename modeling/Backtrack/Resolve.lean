import Backtrack.Outcomes
import Backtrack.Text.Layout

/-!
# Resolving a sequence — choosing among outcomes

A sequence of outcomes is worked through in place: each function here gives its verdict together
with the sequence as it stands afterwards, so that pulling can go on behind it.
-/

namespace Backtrack

/-- Why no outcome was chosen. -/
inductive ResolveError where
  /-- There is no outcome at all. -/
  | noParse
  /-- There is more than one outcome, at least this many. -/
  | ambiguous (atLeast : Nat)
  /-- There are outcomes, but input is left behind each; the furthest ends at this position. -/
  | incomplete (position : Nat)
  deriving DecidableEq, Repr

/-- The report of a failed choice. -/
def ResolveError.message : ResolveError → String
  | .noParse             => "input did not match"
  | .ambiguous atLeast   => s!"ambiguous parse: at least {atLeast} outcomes"
  | .incomplete position => s!"unexpected input at position {position}"

/-- How a failed choice is inspected. -/
def ResolveError.layout : ResolveError → Text.Layout
  | .noParse             => .atom "NoParse"
  | .ambiguous atLeast   => .record "Ambiguous" [("at_least", .atom (toString atLeast))]
  | .incomplete position => .record "Incomplete" [("position", .atom (toString position))]

/-- A verdict on a sequence, and the sequence as it stands afterwards. -/
structure Resolution (σ ε : Type) (ρ : Type → Type) (α : Type) where
  verdict : Except ResolveError (Outcome σ α)
  rest    : Outcomes σ ε ρ α

/-- The most outcomes that are looked at to report an ambiguity. -/
def ambiguityProbe : Nat := 16

variable {σ ε : Type} {ρ : Type → Type} {α : Type}

namespace Outcomes

/-- The first outcome. -/
def first (G : Grammar σ ε ρ) (n : Nat) (s : Outcomes σ ε ρ α) (st : Store σ ε) :
    Run σ ε (Resolution σ ε ρ α) :=
  (s.pull G n st).bind fun pulled st =>
    match pulled with
    | ⟨none, s⟩   => .done ⟨.error .noParse, s⟩ st
    | ⟨some o, s⟩ => .done ⟨.ok o, s⟩ st

/-- Count the outcomes, up to `limit` of them, on from `seen`. -/
def countUpTo (G : Grammar σ ε ρ) (n : Nat) (limit seen : Nat) (s : Outcomes σ ε ρ α)
    (st : Store σ ε) : Run σ ε (Nat × Outcomes σ ε ρ α) :=
  match limit with
  | 0         => .done (seen, s) st
  | limit + 1 =>
      (s.pull G n st).bind fun pulled st =>
        match pulled with
        | ⟨none, s⟩   => .done (seen, s) st
        | ⟨some _, s⟩ => s.countUpTo G n limit (seen + 1) st

/-- The only outcome. If there are more, they are counted up to a limit and the log says so. -/
def unique (G : Grammar σ ε ρ) (n : Nat) (s : Outcomes σ ε ρ α) (st : Store σ ε) :
    Run σ ε (Resolution σ ε ρ α) :=
  (s.pull G n st).bind fun pulled st =>
    match pulled with
    | ⟨none, s⟩   => .done ⟨.error .noParse, s⟩ st
    | ⟨some o, s⟩ =>
        (s.pull G n st).bind fun pulled st =>
          match pulled with
          | ⟨none, s⟩   => .done ⟨.ok o, s⟩ st
          | ⟨some _, s⟩ =>
              (s.countUpTo G n (ambiguityProbe - 2) 2 st).bind fun (seen, s) st =>
                .done ⟨.error (.ambiguous seen), s⟩ (st.record (.ambiguous seen))

/-- The outcomes with no input left behind them, pulled only as they are asked for. -/
def complete (s : Outcomes σ ε ρ α) : Outcomes σ ε ρ α :=
  .filtered (fun o => .pure o.cursor.isExhausted) s

/-- The first outcome with no input left behind it. `furthest` is the greatest position reached by
    the outcomes passed over so far. -/
def firstCompleteFrom (G : Grammar σ ε ρ) (n : Nat) (furthest : Option Nat)
    (s : Outcomes σ ε ρ α) (st : Store σ ε) : Run σ ε (Resolution σ ε ρ α) :=
  match n with
  | 0     => .unfinished
  | n + 1 =>
      (s.pull G n st).bind fun pulled st =>
        match pulled with
        | ⟨none, s⟩   => .done ⟨.error (furthest.elim .noParse .incomplete), s⟩ st
        | ⟨some o, s⟩ =>
            if o.cursor.isExhausted then
              .done ⟨.ok o, s⟩ st
            else
              let reached := o.cursor.position
              s.firstCompleteFrom G n (some (furthest.elim reached (max · reached))) st

/-- The first outcome with no input left behind it; without one, how far the outcomes reach. -/
def firstComplete (G : Grammar σ ε ρ) (n : Nat) (s : Outcomes σ ε ρ α) (st : Store σ ε) :
    Run σ ε (Resolution σ ε ρ α) :=
  s.firstCompleteFrom G n none st

/-- Several pulls in a row: the outcomes, whether the end was seen, and what is left. -/
structure Harvest (σ ε : Type) (ρ : Type → Type) (α : Type) where
  outcomes : List (Outcome σ α)
  ended    : Bool
  rest     : Outcomes σ ε ρ α

/-- Pull until there are `limit` outcomes or the end is seen. The outcomes taken before stand in
    `taken`, the latest first. -/
def collect (G : Grammar σ ε ρ) (n : Nat) (limit : Nat) (taken : List (Outcome σ α))
    (s : Outcomes σ ε ρ α) (st : Store σ ε) : Run σ ε (Harvest σ ε ρ α) :=
  match limit with
  | 0         => .done ⟨taken.reverse, false, s⟩ st
  | limit + 1 =>
      (s.pull G n st).bind fun pulled st =>
        match pulled with
        | ⟨none, s⟩   => .done ⟨taken.reverse, true, s⟩ st
        | ⟨some o, s⟩ => s.collect G n limit (o :: taken) st

/-- Pull to the end and count, on from `seen`. -/
def count (G : Grammar σ ε ρ) (n : Nat) (seen : Nat) (s : Outcomes σ ε ρ α) (st : Store σ ε) :
    Run σ ε Nat :=
  match n with
  | 0     => .unfinished
  | n + 1 =>
      (s.pull G n st).bind fun pulled st =>
        match pulled with
        | ⟨none, _⟩   => .done seen st
        | ⟨some _, s⟩ => s.count G n (seen + 1) st

end Outcomes

/-- Start a parser on a new source. -/
def Parser.startOn (G : Grammar σ ε ρ) (n : Nat) (p : Parser σ ε ρ α) (source : Source σ)
    (st : Store σ ε) : Run σ ε (Outcomes σ ε ρ α) :=
  let (c, st) := st.attach source
  p.start G n c st

end Backtrack
