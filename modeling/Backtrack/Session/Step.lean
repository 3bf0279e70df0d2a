import Backtrack.Session.Description

/-!
# Steps — what a session can be told to do

A session holds cursors, sequences and outcomes, each kind numbered from zero in order of creation.
A step works on things by their numbers and gives a reply. A step that cannot be done, because a
number is unknown or its thing is gone, leaves the session as it was.
-/

namespace Backtrack.Session

universe u

/-- A source, written down. A missing item is a read that gives nothing. -/
inductive Origin where
  | text (s : String)
  | items (items : List (Option Value))
  | cycle (items : List (Option Value))
  /-- One item many times, and then others. -/
  | replicate (item : Option Value) (n : Nat) (tail : List (Option Value))

/-- One thing a session is told to do. -/
inductive Step where
  | new (origin : Origin)
  | info (c : Nat)
  | clone (c : Nat)
  | advance (c : Nat)
  | walk (c n : Nat)
  | drop (c : Nat)
  | same (a b : Nat)
  | inspect (c : Nat)
  | reads
  | parse (p c : Nat)
  | parseInput (p : Nat) (origin : Origin)
  | given (outcomes : List Nat)
  | next (s : Nat)
  | collect (s limit : Nat)
  | first (s : Nat)
  | unique (s : Nat)
  | firstComplete (s : Nat)
  | complete (s : Nat)
  | count (s : Nat)
  | abandon (s : Nat)
  | outcome (v : Value) (c : Nat)
  | cloneOutcome (o : Nat)
  | rest (o : Nat)
  | intoCursor (o : Nat)
  | intoValue (o : Nat)
  | intoParts (o : Nat)
  | mapValue (o : Nat) (f : Function)
  | sameOutcome (a b : Nat)
  | inspectOutcome (o : Nat)
  /-- Something that is no step. -/
  | unknown

/-- The reply to a step. -/
inductive Reply where
  /-- The step cannot be done. -/
  | invalid
  /-- A function had a fault. -/
  | fault (cause : Fault)
  /-- The step did not come to an end. -/
  | unfinished
  | nothing
  | flag (b : Bool)
  | number (n : Nat)
  | value (v : Value)
  | cursor (c : Cursor Symbol)
  /-- A cursor under a new number. -/
  | newCursor (id : Nat) (c : Cursor Symbol)
  /-- A cursor under a new number, and how far it was moved. -/
  | moved (id : Nat) (c : Cursor Symbol) (times : Nat)
  /-- A cursor under a new number, and the value that went with it. -/
  | parts (id : Nat) (c : Cursor Symbol) (v : Value)
  | outcome (id : Nat) (o : Outcome Symbol Value)
  | sequence (id : Nat)
  /-- Outcomes under new numbers, and whether the end was seen. -/
  | outcomes (ended : Bool) (numbered : List (Nat × Outcome Symbol Value))
  | failure (cause : ResolveError)
  /-- Whether two cursors are one place. -/
  | identity (same : Bool)
  | inspected (layout : Text.Layout)

/-- The sequences of a session. -/
abbrev Sequence := Outcomes Symbol Note Name Value

/-- What does not change during a session. -/
structure Program where
  kind    : Kind
  rules   : List (String × Reader)
  parsers : Array Reader

/-- What a session holds. A thing that is gone leaves its number empty. -/
structure State where
  store     : Store Symbol Note
  cursors   : Array (Option (Cursor Symbol))
  sequences : Array (Option Sequence)
  outcomes  : Array (Option (Outcome Symbol Value))

/-- The allowance for one step: more nested steps than can be made. -/
def allowance : Nat := 4611686018427387904

/-- The symbols of a list of items; a value that is no symbol of the kind spoils it. -/
def symbolsOf? (kind : Kind) : List (Option Value) → Option (List (Option Symbol))
  | []              => some []
  | none :: rest    => (symbolsOf? kind rest).map (none :: ·)
  | some v :: rest  => do
      let x ← Symbol.ofValue? kind v
      let xs ← symbolsOf? kind rest
      some (some x :: xs)

/-- The source that is written down. A text is a source of characters or of bytes only. -/
def Origin.source? (kind : Kind) : Origin → Option (Source Symbol)
  | text s => match kind with
      | .char => some (.ofList (s.toList.map Symbol.char))
      | .byte => some (.ofList (s.toUTF8.toList.map Symbol.byte))
      | _     => none
  | items xs => do
      let xs ← symbolsOf? kind xs
      some (.ofArray xs.toArray)
  | cycle xs => do
      let xs ← symbolsOf? kind xs
      some (.cycle xs.toArray)
  | replicate x n tail => do
      let xs ← symbolsOf? kind [x]
      let tail ← symbolsOf? kind tail
      some (.replicate n xs.head?.join (.ofArray tail.toArray))

/-- The parsers behind the names: a rule of the program, or a jump to a cursor that is held now. -/
def Program.grammar (program : Program) (cursors : Array (Option (Cursor Symbol))) :
    Grammar Symbol Note Name where
  body
    | .rule name => .remark (fun _ => [.lazy name]) ((program.rules.lookup name).getD .fail)
    | .place k   => (cursors[k]?.join).elim .fail Reader.jumpTo

namespace State

/-- The session in which nothing has happened. -/
def empty : State :=
  ⟨.empty, #[], #[], #[]⟩

/-- The cursor under a number. -/
def cursor? (s : State) (k : Nat) : Option (Cursor Symbol) :=
  s.cursors[k]?.join

/-- The sequence under a number. -/
def sequence? (s : State) (k : Nat) : Option Sequence :=
  s.sequences[k]?.join

/-- The outcome under a number. -/
def outcome? (s : State) (k : Nat) : Option (Outcome Symbol Value) :=
  s.outcomes[k]?.join

/-- Put the sequence under a number in its new state, or remove it. -/
def setSequence (s : State) (k : Nat) (seq : Option Sequence) : State :=
  { s with sequences := s.sequences.setIfInBounds k seq }

/-- Remove a cursor. -/
def dropCursor (s : State) (k : Nat) : State :=
  { s with cursors := s.cursors.setIfInBounds k none }

/-- Remove an outcome. -/
def dropOutcome (s : State) (k : Nat) : State :=
  { s with outcomes := s.outcomes.setIfInBounds k none }

/-- Hold a cursor under a new number, and reply with both. -/
def addCursor (s : State) (c : Cursor Symbol) (reply : Nat → Cursor Symbol → Reply) :
    Reply × State :=
  (reply s.cursors.size c, { s with cursors := s.cursors.push (some c) })

/-- Hold a sequence under a new number. -/
def addSequence (s : State) (seq : Sequence) : Reply × State :=
  (.sequence s.sequences.size, { s with sequences := s.sequences.push (some seq) })

/-- Hold an outcome under a new number. -/
def addOutcome (s : State) (o : Outcome Symbol Value) : Reply × State :=
  (.outcome s.outcomes.size o, { s with outcomes := s.outcomes.push (some o) })

/-- Hold outcomes under new numbers, in order. -/
def addOutcomes (s : State) (os : List (Outcome Symbol Value)) (ended : Bool) : Reply × State :=
  let start := s.outcomes.size
  (.outcomes ended (os.mapIdx fun i o => (start + i, o)),
    { s with outcomes := s.outcomes ++ os.map some })

/-- Go on with a thing if it is there; without it the step cannot be done. -/
@[inline]
def need {β : Type u} (s : State) (thing : Option β) (next : β → Reply × State) :
    Reply × State :=
  match thing with
  | some b => next b
  | none   => (.invalid, s)

/-- Run something on the store, and go on with its result. -/
@[inline]
def run {β : Type u} (s : State) (action : Store Symbol Note → Run Symbol Note β)
    (next : β → State → Reply × State) : Reply × State :=
  let store := s.store
  let s := { s with store := .empty }
  match action store with
  | .done b store  => next b { s with store := store }
  | .fault x store => (.fault x, { s with store := store })
  | .unfinished    => (.unfinished, s)

/-- Take up a source, and hold its first cursor. -/
def newCursor (s : State) (source : Source Symbol) : Reply × State :=
  let store := s.store
  let s := { s with store := .empty }
  let (c, store) := store.attach source
  { s with store := store }.addCursor c .newCursor

/-- The cursor behind a cursor. -/
def advanceCursor (s : State) (c : Cursor Symbol) : Reply × State :=
  let store := s.store
  let s := { s with store := .empty }
  let (found, store) := store.advance c
  let s := { s with store := store }
  match found with
  | none   => (.nothing, s)
  | some d => s.addCursor d .newCursor

/-- The cursor up to `n` moves behind a cursor. -/
def walkCursor (s : State) (c : Cursor Symbol) (n : Nat) : Reply × State :=
  let store := s.store
  let s := { s with store := .empty }
  let (c, times, store) := store.advanceBy c 0 n
  { s with store := store }.addCursor c fun id c => .moved id c times

/-- The verdict on a sequence, which stays held in its new state. -/
def resolve (s : State) (k : Nat)
    (action : Store Symbol Note → Run Symbol Note (Resolution Symbol Note Name Value)) :
    Reply × State :=
  s.run action fun resolution s =>
    let s := s.setSequence k (some resolution.rest)
    match resolution.verdict with
    | .ok o    => s.addOutcome o
    | .error e => (.failure e, s)

end State

/-- Do one step. -/
def Program.step (program : Program) (s : State) (step : Step) : Reply × State :=
  let G := program.grammar s.cursors
  match step with
  | .new origin => s.need (origin.source? program.kind) s.newCursor
  | .info k     => s.need (s.cursor? k) fun c => (.cursor c, s)
  | .clone k    => s.need (s.cursor? k) fun c => s.addCursor c .newCursor
  | .advance k  => s.need (s.cursor? k) s.advanceCursor
  | .walk k n   => s.need (s.cursor? k) fun c => s.walkCursor c n
  | .drop k     => s.need (s.cursor? k) fun _ => (.nothing, s.dropCursor k)
  | .same j k   =>
      s.need (s.cursor? j) fun c => s.need (s.cursor? k) fun d => (.identity (c.same d), s)
  | .inspect k  => s.need (s.cursor? k) fun c => (.inspected (cursorLayout c), s)
  | .reads      => (.number s.store.reads, s)
  | .parse i k  =>
      s.need program.parsers[i]? fun p => s.need (s.cursor? k) fun c =>
        s.run (p.start G allowance c) fun seq s => s.addSequence seq
  | .parseInput i origin =>
      s.need program.parsers[i]? fun p => s.need (origin.source? program.kind) fun source =>
        s.run (p.startOn G allowance source) fun seq s => s.addSequence seq
  | .given ks   => s.need (ks.mapM s.outcome?) fun os => s.addSequence (.ready os)
  | .next k     =>
      s.need (s.sequence? k) fun seq =>
        s.run (seq.pull G allowance) fun pulled s =>
          let s := s.setSequence k (some pulled.rest)
          match pulled.answer with
          | none   => (.nothing, s)
          | some o => s.addOutcome o
  | .collect k limit =>
      s.need (s.sequence? k) fun seq =>
        s.run (seq.collect G allowance limit []) fun harvest s =>
          (s.setSequence k (some harvest.rest)).addOutcomes harvest.outcomes harvest.ended
  | .first k    => s.need (s.sequence? k) fun seq => s.resolve k (seq.first G allowance)
  | .unique k   => s.need (s.sequence? k) fun seq => s.resolve k (seq.unique G allowance)
  | .firstComplete k =>
      s.need (s.sequence? k) fun seq => s.resolve k (seq.firstComplete G allowance)
  | .complete k =>
      s.need (s.sequence? k) fun seq => (s.setSequence k none).addSequence seq.complete
  | .count k    =>
      s.need (s.sequence? k) fun seq =>
        (s.setSequence k none).run (seq.count G allowance 0) fun n s => (.number n, s)
  | .abandon k  => s.need (s.sequence? k) fun _ => (.nothing, s.setSequence k none)
  | .outcome v k     => s.need (s.cursor? k) fun c => s.addOutcome ⟨v, c⟩
  | .cloneOutcome k  => s.need (s.outcome? k) s.addOutcome
  | .rest k          => s.need (s.outcome? k) fun o => s.addCursor o.cursor .newCursor
  | .intoCursor k    =>
      s.need (s.outcome? k) fun o => (s.dropOutcome k).addCursor o.cursor .newCursor
  | .intoValue k     => s.need (s.outcome? k) fun o => (.value o.value, s.dropOutcome k)
  | .intoParts k     =>
      s.need (s.outcome? k) fun o =>
        (s.dropOutcome k).addCursor o.cursor fun id c => .parts id c o.value
  | .mapValue k f    =>
      s.need (s.outcome? k) fun o =>
        match f.apply o.value with
        | .ok v    => (s.dropOutcome k).addOutcome (o.withValue v)
        | .error x => (.fault x, s.dropOutcome k)
  | .sameOutcome j k =>
      s.need (s.outcome? j) fun o => s.need (s.outcome? k) fun p => (.flag (o.same p), s)
  | .inspectOutcome k => s.need (s.outcome? k) fun o => (.inspected (outcomeLayout o), s)
  | .unknown         => (.invalid, s)

end Backtrack.Session
