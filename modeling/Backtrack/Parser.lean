import Backtrack.Run

/-!
# Parsers — what to look for

A parser describes, for every cursor, a sequence of outcomes: all the ways to succeed there, in the
order in which they are tried. This file holds the descriptions only; `Backtrack.Outcomes` says how
a sequence is pulled, one outcome at a time, and `Backtrack.Enumeration` what the whole list is.

A parser over symbols `σ` leaves remarks of type `ε` in the log and refers to the rules of a grammar
by names in `ρ α`, where `α` is the type of the rule's value. Recursion goes through these names.
-/

namespace Backtrack

/-- What a parser of the caller's own making answers: `script n` gives the answer to pull `n`. -/
abbrev Script (σ ε α : Type) : Type :=
  Nat → Walk σ ε (Option (Outcome σ α))

/-- A parser of values of type `α`. -/
inductive Parser (σ ε : Type) (ρ : Type → Type) : Type → Type 1 where
  /-- Succeed once, consuming nothing. -/
  | unit {α : Type} (a : α) : Parser σ ε ρ α
  /-- Never succeed. -/
  | fail {α : Type} : Parser σ ε ρ α
  /-- Consume one symbol, whichever it is. -/
  | anySymbol {α : Type} (f : σ → α) : Parser σ ε ρ α
  /-- Consume one symbol that passes a test. The test is made before anything is pulled. -/
  | testSymbol {α : Type} (test : σ → Call ε Bool) (f : σ → α) : Parser σ ε ρ α
  /-- Succeed, consuming nothing, at an exhausted cursor only. -/
  | finish {α : Type} (a : α) : Parser σ ε ρ α
  /-- Change the value of each outcome. -/
  | map {α β : Type} (f : α → Call ε β) (p : Parser σ ε ρ α) : Parser σ ε ρ β
  /-- Keep the outcomes whose value passes a test. -/
  | filter {α : Type} (test : α → Call ε Bool) (p : Parser σ ε ρ α) : Parser σ ε ρ α
  /-- Go on behind each outcome with the parser chosen by its value. -/
  | bind {α β : Type} (p : Parser σ ε ρ α) (next : α → Parser σ ε ρ β) : Parser σ ε ρ β
  /-- Go on behind each outcome of `p` with `q`, and combine the two values. -/
  | seq {α β γ : Type} (f : α → β → γ) (p : Parser σ ε ρ α) (q : Parser σ ε ρ β) : Parser σ ε ρ γ
  /-- All outcomes of `p`, then all outcomes of `q` from the same place. -/
  | or {α : Type} (p q : Parser σ ε ρ α) : Parser σ ε ρ α
  /-- At least `least` occurrences of `p` in a row, the longest rows first. An occurrence that
      consumes nothing ends its row. -/
  | repetition {α β : Type} (least : Nat) (f : List α → β) (p : Parser σ ε ρ α) : Parser σ ε ρ β
  /-- Join each value with the stretch of input it was read from. -/
  | spanning {α β : Type} (f : α → Span → β) (p : Parser σ ε ρ α) : Parser σ ε ρ β
  /-- The parser that a rule of the grammar stands for. -/
  | rule {α : Type} (r : ρ α) : Parser σ ε ρ α
  /-- Leave remarks in the log whenever the parser is started. -/
  | remark {α : Type} (notes : Cursor σ → List ε) (p : Parser σ ε ρ α) : Parser σ ε ρ α
  /-- Stop with a fault as soon as the parser is started. -/
  | abort {α : Type} (cause : Fault) : Parser σ ε ρ α
  /-- The outcomes of `p`, all of them back at the place where it was started. -/
  | lookahead {α : Type} (p : Parser σ ε ρ α) : Parser σ ε ρ α
  /-- A parser of the caller's own making: the walk is made when it is started. -/
  | custom {α : Type} (start : Cursor σ → Walk σ ε (Script σ ε α)) : Parser σ ε ρ α

/-- The parsers that the rules stand for. -/
structure Grammar (σ ε : Type) (ρ : Type → Type) where
  body : {α : Type} → ρ α → Parser σ ε ρ α

namespace Parser

variable {σ ε : Type} {ρ : Type → Type} {α β : Type}

/-- One symbol, whichever it is. -/
def item : Parser σ ε ρ σ :=
  anySymbol id

/-- One symbol that passes a test. -/
def satisfy (test : σ → Bool) : Parser σ ε ρ σ :=
  testSymbol (fun x => .pure (test x)) id

/-- The given symbol. -/
def symbol [DecidableEq σ] (x : σ) : Parser σ ε ρ σ :=
  satisfy fun y => decide (y = x)

/-- Both parsers in a row, with both values. -/
def and (p : Parser σ ε ρ α) (q : Parser σ ε ρ β) : Parser σ ε ρ (α × β) :=
  seq Prod.mk p q

/-- Both parsers in a row, with the value of the second. -/
def andRight (p : Parser σ ε ρ α) (q : Parser σ ε ρ β) : Parser σ ε ρ β :=
  seq (fun _ b => b) p q

/-- Both parsers in a row, with the value of the first. -/
def andLeft (p : Parser σ ε ρ α) (q : Parser σ ε ρ β) : Parser σ ε ρ α :=
  seq (fun a _ => a) p q

/-- Any number of occurrences in a row. -/
def many (p : Parser σ ε ρ α) : Parser σ ε ρ (List α) :=
  repetition 0 id p

/-- At least one occurrence, any number in a row. -/
def many1 (p : Parser σ ε ρ α) : Parser σ ε ρ (List α) :=
  repetition 1 id p

/-- Each value with the stretch of input it was read from. -/
def spanned (p : Parser σ ε ρ α) : Parser σ ε ρ (α × Span) :=
  spanning Prod.mk p

/-- Change each value by a function that leaves no remarks. -/
def mapPure (f : α → β) (p : Parser σ ε ρ α) : Parser σ ε ρ β :=
  map (fun a => .pure (f a)) p

/-- Operands with an operator between them, combined from left to right. -/
def chainLeft [DecidableEq σ] (operand : Parser σ ε ρ α) (operator : σ) (combine : α → α → α) :
    Parser σ ε ρ α :=
  mapPure (fun (first, rest) => rest.foldl combine first)
    (operand.and ((symbol operator).andRight operand).many)

instance : OrElse (Parser σ ε ρ α) where
  orElse p q := p.or (q ())

instance : SeqRight (Parser σ ε ρ) where
  seqRight p q := p.andRight (q ())

instance : SeqLeft (Parser σ ε ρ) where
  seqLeft p q := p.andLeft (q ())

instance : Functor (Parser σ ε ρ) where
  map f p := p.mapPure f

end Parser

end Backtrack
