/-!
# Cursors — places in a source

A source answers reads one after the other; its n-th read gives a symbol or nothing. A cursor is
a handle on one node of the chain that grows over a source, together with what the node shows: the
number of symbols before it and the answer of the read that made it. What a node shows never
changes, so two cursors are the same place exactly when they are handles on the same node.
-/

namespace Backtrack

variable {σ : Type}

/-- A producer of symbols, by its answers: `answer n` is what the n-th read returns. After an
    empty answer it may well have more to say, and it need never end. -/
structure Source (σ : Type) where
  answer : Nat → Option σ

namespace Source

/-- The source that reads the given answers and then nothing any more. -/
def ofArray (answers : Array (Option σ)) : Source σ :=
  ⟨fun n => (answers[n]?).join⟩

/-- The source that delivers the given symbols. -/
def ofList (symbols : List σ) : Source σ :=
  ofArray (symbols.map some).toArray

/-- The source that reads the given answers over and over. -/
def cycle (answers : Array (Option σ)) : Source σ :=
  ⟨fun n => (answers[n % answers.size]?).join⟩

/-- The source that answers `x` for `n` reads and then goes on with `tail`. -/
def replicate (n : Nat) (x : Option σ) (tail : Source σ) : Source σ :=
  ⟨fun i => if i < n then x else tail.answer (i - n)⟩

theorem answer_ofList (symbols : List σ) (n : Nat) :
    (ofList symbols).answer n = symbols[n]? := by
  simp only [ofList, ofArray, List.getElem?_toArray, List.getElem?_map]
  cases symbols[n]? <;> rfl

end Source

/-- A place in a source: which source and which node of its chain, how many symbols lie before it,
    and the symbol there, if the source had one. -/
structure Cursor (σ : Type) where
  source   : Nat
  node     : Nat
  position : Nat
  current  : Option σ
  deriving DecidableEq, Repr

namespace Cursor

/-- A cursor is exhausted when the read at its place gave nothing. -/
def isExhausted (c : Cursor σ) : Bool :=
  c.current.isNone

/-- Whether two cursors are one place: the same node of the same source. -/
def same (a b : Cursor σ) : Bool :=
  a.source == b.source && a.node == b.node

theorem same_iff (a b : Cursor σ) :
    a.same b = true ↔ a.source = b.source ∧ a.node = b.node := by
  simp [same]

end Cursor

/-- One way a parser succeeds: the value and the place behind what it consumed. -/
structure Outcome (σ α : Type) where
  value  : α
  cursor : Cursor σ
  deriving DecidableEq, Repr

namespace Outcome

/-- Outcomes agree when their values are equal and their cursors are one place. -/
def same {α : Type} [BEq α] (a b : Outcome σ α) : Bool :=
  a.value == b.value && a.cursor.same b.cursor

/-- The outcome with another value at the same place. -/
def withValue {α β : Type} (o : Outcome σ α) (b : β) : Outcome σ β :=
  ⟨b, o.cursor⟩

end Outcome

end Backtrack
