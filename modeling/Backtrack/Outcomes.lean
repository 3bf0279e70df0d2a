import Backtrack.Parser

/-!
# Outcome sequences — pulling one outcome at a time

Starting a parser at a cursor gives a suspended sequence of outcomes. Nothing more of the input is
looked at than the outcomes pulled so far make necessary: sequencing, choice and repetition do
nothing at all before the first pull, and each further stage is started only when the one before it
is spent.

`Parser.start` starts a parser and `Outcomes.pull` pulls the next outcome. A grammar may go round in
circles without consuming anything, so both take an allowance: the depth of nested steps that may
be made. An allowance that was enough stays enough when it is raised.
-/

namespace Backtrack

mutual

/-- A suspended sequence of outcomes. -/
inductive Outcomes (σ ε : Type) (ρ : Type → Type) : Type → Type 1 where
  /-- These outcomes, which need no more work. -/
  | ready {α : Type} (outcomes : List (Outcome σ α)) : Outcomes σ ε ρ α
  /-- The symbol at the cursor, which is stepped over when the outcome is pulled. -/
  | consuming {α : Type} (f : σ → α) (c : Cursor σ) : Outcomes σ ε ρ α
  /-- What a parser of the caller's own making answers from pull `n` on. -/
  | scripted {α : Type} (script : Script σ ε α) (n : Nat) : Outcomes σ ε ρ α
  /-- Another sequence with each outcome changed. -/
  | mapped {α β : Type} (f : Outcome σ α → Call ε (Outcome σ β)) (s : Outcomes σ ε ρ α) :
      Outcomes σ ε ρ β
  /-- The outcomes of another sequence that pass a test. -/
  | filtered {α : Type} (test : Outcome σ α → Call ε Bool) (s : Outcomes σ ε ρ α) :
      Outcomes σ ε ρ α
  /-- A sequence, and the parsers to be started one after the other when it is spent. -/
  | chained {α : Type} (s : Outcomes σ ε ρ α) (waiting : List (Parser σ ε ρ α × Cursor σ)) :
      Outcomes σ ε ρ α
  /-- What is left of the continuation of one outcome, then the continuations of the others. -/
  | bound {α β : Type} (next : α → Parser σ ε ρ β) (outer : Outcomes σ ε ρ α)
      (inner : Outcomes σ ε ρ β) : Outcomes σ ε ρ β
  /-- What is left of `q` behind the outcome with the value `held`, then `q` behind the others. -/
  | paired {α β γ : Type} (f : α → β → γ) (q : Parser σ ε ρ β) (outer : Outcomes σ ε ρ α)
      (held : Option α) (inner : Outcomes σ ε ρ β) : Outcomes σ ε ρ γ
  /-- A walk over the rows of occurrences: `root` is where they begin, until the first pull, and
      the frames are the row being looked at. -/
  | repeating {α β : Type} (least : Nat) (f : List α → β) (p : Parser σ ε ρ α)
      (root : Option (Cursor σ)) (frames : Frames σ ε ρ α) : Outcomes σ ε ρ β

/-- A row of occurrences, the latest on top. Each frame has the occurrences not yet tried at its
    cursor, and the value of the occurrence that led to that cursor. -/
inductive Frames (σ ε : Type) (ρ : Type → Type) : Type → Type 1 where
  /-- No frame at all. -/
  | bottom {α : Type} : Frames σ ε ρ α
  /-- One frame on top of others. -/
  | push {α : Type} (alternatives : Outcomes σ ε ρ α) (cursor : Cursor σ) (value : Option α)
      (below : Frames σ ε ρ α) : Frames σ ε ρ α

end

variable {σ ε : Type} {ρ : Type → Type} {α β : Type}

/-- The values along a row, the earliest first, in front of `tail`. -/
def Frames.values : Frames σ ε ρ α → List α → List α
  | .bottom,                  tail => tail
  | .push _ _ (some a) below, tail => below.values (a :: tail)
  | .push _ _ none below,     tail => below.values tail

namespace Outcomes

/-- The sequence with nothing in it. -/
def empty : Outcomes σ ε ρ α :=
  .ready []

/-- A parser to be started at the first pull. -/
def deferred (p : Parser σ ε ρ α) (c : Cursor σ) : Outcomes σ ε ρ α :=
  .chained empty [(p, c)]

end Outcomes

/-- Start a parser at a cursor. Tests on the current symbol are made at once, and so are the starts
    of parsers inside `map`, `filter`, `spanning`, `lookahead`, `remark` and behind rule names; all
    else waits for the first pull. -/
def Parser.start (G : Grammar σ ε ρ) : Nat → {α : Type} → Parser σ ε ρ α → Cursor σ →
    Store σ ε → Run σ ε (Outcomes σ ε ρ α)
  | 0,     _, _,                   _, _  => .unfinished
  | _ + 1, _, .unit a,             c, st => .done (.ready [⟨a, c⟩]) st
  | _ + 1, _, .fail,               _, st => .done .empty st
  | _ + 1, _, .anySymbol f,        c, st => .done (.consuming f c) st
  | _ + 1, _, .testSymbol test f,  c, st =>
      match c.current with
      | none   => .done .empty st
      | some x => ((test x).run st).bind fun ok st =>
          .done (if ok then .consuming f c else .empty) st
  | _ + 1, _, .finish a,           c, st =>
      .done (if c.isExhausted then .ready [⟨a, c⟩] else .empty) st
  | n + 1, _, .map f p,            c, st =>
      (p.start G n c st).bind fun s st =>
        .done (.mapped (fun o => (f o.value).map o.withValue) s) st
  | n + 1, _, .filter test p,      c, st =>
      (p.start G n c st).bind fun s st => .done (.filtered (fun o => test o.value) s) st
  | _ + 1, _, .bind p next,        c, st => .done (.bound next (.deferred p c) .empty) st
  | _ + 1, _, .seq f p q,          c, st => .done (.paired f q (.deferred p c) none .empty) st
  | _ + 1, _, .or p q,             c, st => .done (.chained .empty [(p, c), (q, c)]) st
  | _ + 1, _, .repetition k f p,   c, st => .done (.repeating k f p (some c) .bottom) st
  | n + 1, _, .spanning f p,       c, st =>
      (p.start G n c st).bind fun s st =>
        .done (.mapped (fun o =>
          .pure (o.withValue (f o.value ⟨c.position, o.cursor.position⟩))) s) st
  | n + 1, _, .rule r,             c, st => (G.body r).start G n c st
  | n + 1, _, .remark notes p,     c, st => p.start G n c (st.remark (notes c))
  | _ + 1, _, .abort x,            _, st => .fault x st
  | n + 1, _, .lookahead p,        c, st =>
      (p.start G n c st).bind fun s st => .done (.mapped (fun o => .pure ⟨o.value, c⟩) s) st
  | _ + 1, _, .custom walk,        c, st =>
      let (script, st) := (walk c).run st
      .done (.scripted script 0) st

/-- The answer to a pull, and the sequence as it stands afterwards. -/
structure Pull (σ ε : Type) (ρ : Type → Type) (α : Type) where
  answer : Option (Outcome σ α)
  rest   : Outcomes σ ε ρ α

/-- Pull the next outcome. -/
def Outcomes.pull (G : Grammar σ ε ρ) : Nat → {α : Type} → Outcomes σ ε ρ α → Store σ ε →
    Run σ ε (Pull σ ε ρ α)
  | 0,     _, _,                _  => .unfinished
  | _ + 1, _, .ready [],        st => .done ⟨none, .empty⟩ st
  | _ + 1, _, .ready (o :: os), st => .done ⟨some o, .ready os⟩ st
  | _ + 1, _, .consuming f c,   st =>
      match c.current with
      | none   => .done ⟨none, .empty⟩ st
      | some x =>
          let (found, st) := st.advance c
          .done ⟨found.map fun rest => ⟨f x, rest⟩, .empty⟩ st
  | _ + 1, _, .scripted script n, st =>
      let (answer, st) := (script n).run st
      .done ⟨answer, .scripted script (n + 1)⟩ st
  | n + 1, _, .mapped f s, st =>
      (s.pull G n st).bind fun pulled st =>
        match pulled with
        | ⟨none, s⟩   => .done ⟨none, .mapped f s⟩ st
        | ⟨some o, s⟩ => ((f o).run st).bind fun o st => .done ⟨some o, .mapped f s⟩ st
  | n + 1, _, .filtered test s, st =>
      (s.pull G n st).bind fun pulled st =>
        match pulled with
        | ⟨none, s⟩   => .done ⟨none, .filtered test s⟩ st
        | ⟨some o, s⟩ => ((test o).run st).bind fun ok st =>
            if ok then .done ⟨some o, .filtered test s⟩ st else (filtered test s).pull G n st
  | n + 1, _, .chained s waiting, st =>
      (s.pull G n st).bind fun pulled st =>
        match pulled, waiting with
        | ⟨some o, s⟩, _                 => .done ⟨some o, .chained s waiting⟩ st
        | ⟨none, _⟩,   []                => .done ⟨none, .empty⟩ st
        | ⟨none, _⟩,   (p, c) :: waiting =>
            (p.start G n c st).bind fun s st => (chained s waiting).pull G n st
  | n + 1, _, .bound next outer inner, st =>
      (inner.pull G n st).bind fun pulled st =>
        match pulled with
        | ⟨some o, inner⟩ => .done ⟨some o, .bound next outer inner⟩ st
        | ⟨none, _⟩       =>
            (outer.pull G n st).bind fun pulled st =>
              match pulled with
              | ⟨none, _⟩       => .done ⟨none, .empty⟩ st
              | ⟨some o, outer⟩ =>
                  ((next o.value).start G n o.cursor st).bind fun inner st =>
                    (bound next outer inner).pull G n st
  | n + 1, _, .paired f q outer none _, st =>
      (outer.pull G n st).bind fun pulled st =>
        match pulled with
        | ⟨none, _⟩       => .done ⟨none, .empty⟩ st
        | ⟨some o, outer⟩ =>
            (q.start G n o.cursor st).bind fun inner st =>
              (paired f q outer (some o.value) inner).pull G n st
  | n + 1, _, .paired f q outer (some a) inner, st =>
      (inner.pull G n st).bind fun pulled st =>
        match pulled with
        | ⟨some o, inner⟩ =>
            .done ⟨some (o.withValue (f a o.value)), .paired f q outer (some a) inner⟩ st
        | ⟨none, _⟩       => (paired f q outer none .empty).pull G n st
  | n + 1, _, .repeating least f p (some c) frames, st =>
      (p.start G n c st).bind fun s st =>
        (repeating least f p none (.push s c none frames)).pull G n st
  | _ + 1, _, .repeating least f p none .bottom, st =>
      .done ⟨none, .repeating least f p none .bottom⟩ st
  | n + 1, _, .repeating least f p none (.push s c value below), st =>
      (s.pull G n st).bind fun pulled st =>
        match pulled with
        | ⟨some o, s⟩ =>
            let frames := .push s c value below
            if o.cursor.position = c.position then
              .done ⟨some ⟨f (frames.values [o.value]), o.cursor⟩,
                .repeating least f p none frames⟩ st
            else
              (p.start G n o.cursor st).bind fun t st =>
                (repeating least f p none (.push t o.cursor (some o.value) frames)).pull G n st
        | ⟨none, s⟩   =>
            let row := (Frames.push s c value below).values []
            if least ≤ row.length then
              .done ⟨some ⟨f row, c⟩, .repeating least f p none below⟩ st
            else
              (repeating least f p none below).pull G n st

end Backtrack
