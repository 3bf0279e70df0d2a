import Backtrack.Cursor

/-!
# The store — shared chains of cursors

Over each source grows a chain of nodes, one for each read. Whoever first goes on from a node makes
the next read, and the node made from the answer is kept in the memo cell of the one before. So any
number of parsers can walk over one source that can itself be walked only once: what one of them
has read, the others find. Everything that happens is written to one log, in the order in which it
happens.
-/

namespace Backtrack

variable {σ ε : Type}

/-- What the log records. -/
inductive Event (σ ε : Type) where
  /-- A read of a source gave a symbol. -/
  | pulled (source position : Nat) (symbol : σ)
  /-- A read of a source gave nothing. -/
  | exhausted (source position : Nat)
  /-- A caller that wanted one outcome found several. -/
  | ambiguous (atLeast : Nat)
  /-- A remark by one of the caller's own functions. -/
  | note (remark : ε)
  deriving DecidableEq, Repr

/-- A node of a chain: its position, the answer of the read that made it, and its memo cell, which
    has the number of the node behind it as soon as somebody has gone there. -/
structure Node (σ : Type) where
  position : Nat
  current  : Option σ
  next     : Option Nat

/-- A source, how often it has been read, and the nodes made from the answers. -/
structure Chain (σ : Type) where
  source : Source σ
  reads  : Nat
  nodes  : Array (Node σ)

/-- All sources in use and the log. -/
structure Store (σ ε : Type) where
  chains : Array (Chain σ)
  log    : Array (Event σ ε)

/-- The event that records a read. -/
def Event.ofRead (source position : Nat) : Option σ → Event σ ε
  | some x => .pulled source position x
  | none   => .exhausted source position

namespace Chain

/-- Read the source once more and make a node for the answer, at the given position. -/
def read (position : Nat) (chain : Chain σ) : Chain σ :=
  { chain with
    reads := chain.reads + 1
    nodes := chain.nodes.push ⟨position, chain.source.answer chain.reads, none⟩ }

/-- Fill the memo cell of the node `k` with the number of the node behind it. -/
def link (k next : Nat) (chain : Chain σ) : Chain σ :=
  { chain with nodes := chain.nodes.modify k fun node => { node with next := some next } }

end Chain

namespace Store

/-- The store in which nothing has happened. -/
def empty : Store σ ε :=
  ⟨#[], #[]⟩

/-- Write one event. -/
def record (st : Store σ ε) (e : Event σ ε) : Store σ ε :=
  { st with log := st.log.push e }

/-- Write down the remarks of the caller's functions. -/
def remark (st : Store σ ε) (notes : List ε) : Store σ ε :=
  notes.foldl (fun st e => st.record (.note e)) st

/-- Remarks go to the log only. -/
@[simp]
theorem chains_remark (st : Store σ ε) (notes : List ε) :
    (st.remark notes).chains = st.chains := by
  induction notes generalizing st with
  | nil => rfl
  | cons e notes ih => exact ih (st.record (.note e))

/-- How many reads have been made in all. -/
def reads (st : Store σ ε) : Nat :=
  st.chains.foldl (fun n chain => n + chain.reads) 0

/-- Take up a new source: its first read is made at once. -/
def attach (st : Store σ ε) (source : Source σ) : Cursor σ × Store σ ε :=
  let id := st.chains.size
  let first := source.answer 0
  (⟨id, 0, 0, first⟩,
    ⟨st.chains.push ⟨source, 1, #[⟨0, first, none⟩]⟩, st.log.push (.ofRead id 0 first)⟩)

/-- The cursor for a node of a chain, if there is such a node. -/
def cursor? (st : Store σ ε) (source node : Nat) : Option (Cursor σ) :=
  st.chains[source]?.bind fun chain =>
    chain.nodes[node]?.map fun shown => ⟨source, node, shown.position, shown.current⟩

/-- The number in the memo cell of a cursor's node, if the cell is filled. -/
def next? (st : Store σ ε) (c : Cursor σ) : Option Nat :=
  st.chains[c.source]?.bind fun chain => chain.nodes[c.node]?.bind Node.next

/-- The cursor in the memo cell of a cursor, if the cell is filled. -/
def memo? (st : Store σ ε) (c : Cursor σ) : Option (Cursor σ) :=
  (st.next? c).bind (st.cursor? c.source)

/-- The next read of a source, and the cursor for its answer, which gets the given position. -/
def readNext (st : Store σ ε) (source position : Nat) : Cursor σ × Store σ ε :=
  let answer := st.chains[source]?.bind fun chain => chain.source.answer chain.reads
  let node := st.chains[source]?.elim 0 fun chain => chain.nodes.size
  (⟨source, node, position, answer⟩,
    ⟨st.chains.modify source (Chain.read position), st.log.push (.ofRead source position answer)⟩)

/-- Fill the memo cell of `c` with `d`. -/
def link (st : Store σ ε) (c d : Cursor σ) : Store σ ε :=
  { st with chains := st.chains.modify c.source (Chain.link c.node d.node) }

/-- The place behind a cursor. An exhausted cursor has none, and nothing is read for it; else it is
    the one in the memo cell, or is read now and kept there if nobody asked before. -/
def advance (st : Store σ ε) (c : Cursor σ) : Option (Cursor σ) × Store σ ε :=
  match c.current with
  | none   => (none, st)
  | some _ =>
      match st.memo? c with
      | some d => (some d, st)
      | none   =>
          let (d, st) := st.readNext c.source (c.position + 1)
          (some d, st.link c d)

/-- There is nothing behind an exhausted cursor, and nothing is read. -/
theorem advance_eq_of_isExhausted (st : Store σ ε) {c : Cursor σ} (h : c.isExhausted = true) :
    st.advance c = (none, st) := by
  rw [Cursor.isExhausted, Option.isNone_iff_eq_none] at h
  rw [advance, h]

/-- Advance up to `n` times, stopping at an exhausted cursor; gives the last place and the number
    of moves made, counted on from `moved`. -/
def advanceBy (st : Store σ ε) (c : Cursor σ) (moved : Nat) : Nat → Cursor σ × Nat × Store σ ε
  | 0     => (c, moved, st)
  | n + 1 =>
      match st.advance c with
      | (none, st)   => (c, moved, st)
      | (some c, st) => st.advanceBy c (moved + 1) n

end Store

end Backtrack
