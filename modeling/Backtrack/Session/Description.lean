import Backtrack.Resolve
import Backtrack.Session.Function

/-!
# Descriptions — parsers of a session as data

A description is a parser written down as a value. Building it gives the parser itself, with the
remarks that let the log show each call of a test, a function, a continuation, a rule or a probe.
Descriptions may refer to definitions, which are built before, and to rules, which are looked up
when they are run.
-/

namespace Backtrack.Session

/-- What a called function is for. -/
inductive Role where
  | map
  | test
  | continuation

/-- The remarks that the parsers of a session leave. -/
inductive Note where
  /-- A test, a function or a continuation was called. -/
  | call (role : Role) (name : String) (argument : Value)
  /-- A rule was looked up. -/
  | lazy (name : String)
  /-- A probe was started. -/
  | probe (id : String) (position : Nat)

/-- The names a session's parsers can refer to. -/
inductive Name : Type → Type where
  /-- A rule of the session. -/
  | rule (name : String) : Name Value
  /-- The cursor that the session holds under a number. -/
  | place (k : Nat) : Name Value

/-- The parsers of a session. -/
abbrev Reader := Parser Symbol Note Name Value

mutual

/-- A parser, written down. -/
inductive Description where
  | unit (v : Value)
  | fail
  | item
  | finish (v : Value)
  | satisfy (test : Predicate)
  | symbol (x : Symbol)
  | map (p : Description) (f : Function)
  | filter (p : Description) (test : Predicate)
  | bind (p : Description) (next : Continuation)
  | and (p q : Description)
  | andRight (p q : Description)
  | andLeft (p q : Description)
  | or (p q : Description)
  | many (p : Description)
  | many1 (p : Description)
  | spanned (p : Description)
  /-- The same parser behind a handle. -/
  | boxed (p : Description)
  /-- A rule of the session. -/
  | lazy (name : String)
  /-- A definition of the session. -/
  | ref (name : String)
  /-- A parser whose every start is logged. -/
  | probe (id : String) (p : Description)
  /-- The symbol at the cursor, which stays. -/
  | peek
  /-- One step forward, and two steps; the steps are taken at the start. -/
  | oneOrTwo
  | lookahead (p : Description)
  /-- On to a cursor that the session holds. -/
  | jump (k : Nat)
  /-- The same value at the same place, without end. -/
  | forever (v : Value)

/-- A choice of the next parser by a value, written down. -/
inductive Continuation where
  | const (p : Description)
  | unit
  | unitMap (f : Function)
  /-- The values of `p`, each behind the given value. -/
  | pair (p : Description)
  /-- The given value as a symbol. -/
  | same
  /-- As many occurrences of `p` as the given value says. -/
  | times (p : Description)
  | choose (test : Predicate) (yes no : Continuation)
  | or (first second : Continuation)
  | bind (first second : Continuation)

end

/-- The name under which the log shows a continuation. -/
def Continuation.name : Continuation → String
  | const _      => "const"
  | unit         => "unit"
  | unitMap _    => "unit_map"
  | pair _       => "pair"
  | same         => "same"
  | times _      => "times"
  | choose _ _ _ => "if"
  | or _ _       => "or"
  | bind _ _     => "bind"

namespace Reader

/-- The script that answers with the given outcomes and then with nothing. -/
def listed (outcomes : List (Outcome Symbol Value)) : Script Symbol Note Value :=
  fun n => .arrive outcomes[n]?

/-- The given symbol, as a value. -/
def symbol (x : Symbol) : Reader :=
  .testSymbol (fun y => .pure (decide (y = x))) Symbol.toValue

/-- A symbol that passes a test, which is logged. -/
def satisfy (test : Predicate) : Reader :=
  .testSymbol (fun x => ⟨[.call .test test.name x.toValue], .ok (test.holds x.toValue)⟩)
    Symbol.toValue

/-- Each value changed by a function, which is logged. -/
def mapBy (f : Function) (p : Reader) : Reader :=
  .map (fun v => ⟨[.call .map f.name v], f.apply v⟩) p

/-- The values that pass a test, which is logged. -/
def filterBy (test : Predicate) (p : Reader) : Reader :=
  .filter (fun v => ⟨[.call .test test.name v], .ok (test.holds v)⟩) p

/-- The parser that was chosen, or the fault of choosing it. -/
def ofChoice : Except Fault Reader → Reader
  | .ok p    => p
  | .error x => .abort x

/-- Go on with a continuation, which is logged under a name. -/
def bindBy (name : String) (next : Value → Except Fault Reader) (p : Reader) : Reader :=
  .bind p fun v => .remark (fun _ => [.call .continuation name v]) (ofChoice (next v))

/-- The symbol at the cursor, which stays. -/
def peek : Reader :=
  .custom fun c => .arrive (listed (c.current.toList.map fun x => ⟨x.toValue, c⟩))

/-- One step forward and two steps, as far as there are any; both are taken at the start. -/
def oneOrTwo : Reader :=
  .custom fun c => .advance c fun
    | none   => .arrive (listed [])
    | some d => .advance d fun
        | none   => .arrive (listed [⟨.int 1, d⟩])
        | some e => .arrive (listed [⟨.int 1, d⟩, ⟨.int 2, e⟩])

/-- The same value at the same place, without end. -/
def forever (v : Value) : Reader :=
  .custom fun c => .arrive fun _ => .arrive (some ⟨v, c⟩)

/-- The given place, without a look at where it is started. -/
def jumpTo (c : Cursor Symbol) : Reader :=
  .custom fun _ => .arrive (listed [⟨.str "jump", c⟩])

/-- Exactly `n` occurrences in a row, as a list. -/
def times (p : Reader) : Nat → Reader
  | 0     => .unit (.list [])
  | n + 1 => .bind (times p n) fun seen => p.mapPure seen.snoc

/-- How many occurrences a value asks for: a number up to a hundred, or a digit. -/
def timesOf : Value → Nat
  | .int i => min i.toNat 100
  | v      => v.digit?.getD 0

end Reader

/-- What descriptions are built against. -/
structure Scope where
  /-- The kind of symbols. -/
  kind  : Kind
  /-- The names of the rules. -/
  rules : List String
  /-- The definitions built so far, the latest first. -/
  defs  : List (String × Reader)

mutual

/-- Build a parser; gives nothing if a name is unknown. -/
def Description.build (scope : Scope) : Description → Option Reader
  | .unit v       => some (.unit v)
  | .fail         => some .fail
  | .item         => some (.anySymbol Symbol.toValue)
  | .finish v     => some (.finish v)
  | .satisfy test => some (Reader.satisfy test)
  | .symbol x     => some (Reader.symbol x)
  | .map p f      => (p.build scope).map (Reader.mapBy f)
  | .filter p t   => (p.build scope).map (Reader.filterBy t)
  | .bind p next  => do
      let p ← p.build scope
      let choose ← next.build scope
      some (Reader.bindBy next.name choose p)
  | .and p q      => do some (.seq .pair (← p.build scope) (← q.build scope))
  | .andRight p q => do some (.andRight (← p.build scope) (← q.build scope))
  | .andLeft p q  => do some (.andLeft (← p.build scope) (← q.build scope))
  | .or p q       => do some (.or (← p.build scope) (← q.build scope))
  | .many p       => (p.build scope).map (.repetition 0 .list ·)
  | .many1 p      => (p.build scope).map (.repetition 1 .list ·)
  | .spanned p    => (p.build scope).map (.spanning (fun v s => .pair v (.span s)) ·)
  | .boxed p      => p.build scope
  | .lazy name    => if scope.rules.contains name then some (.rule (.rule name)) else none
  | .ref name     => scope.defs.lookup name
  | .probe id p   => (p.build scope).map (.remark (fun c => [.probe id c.position]) ·)
  | .peek         => some Reader.peek
  | .oneOrTwo     => some Reader.oneOrTwo
  | .lookahead p  => (p.build scope).map .lookahead
  | .jump k       => some (.rule (.place k))
  | .forever v    => some (Reader.forever v)

/-- Build a continuation. What it calls itself is not logged. -/
def Continuation.build (scope : Scope) : Continuation → Option (Value → Except Fault Reader)
  | .const p           => (p.build scope).map fun p _ => .ok p
  | .unit              => some fun v => .ok (.unit v)
  | .unitMap f         => some fun v =>
      match f.apply v with
      | .ok w    => .ok (.unit w)
      | .error x => .error x
  | .pair p            => (p.build scope).map fun p v => .ok (p.mapPure (.pair v))
  | .same              => some fun v =>
      .ok ((Symbol.ofValue? scope.kind v).elim .fail Reader.symbol)
  | .times p           => (p.build scope).map fun p v => .ok (Reader.times p (Reader.timesOf v))
  | .choose test c d   => do
      let yes ← c.build scope
      let no ← d.build scope
      some fun v => if test.holds v then yes v else no v
  | .or c d            => do
      let first ← c.build scope
      let second ← d.build scope
      some fun v => do
        let p ← first v
        let q ← second v
        .ok (.or p q)
  | .bind c d          => do
      let first ← c.build scope
      let second ← d.build scope
      some fun v => (first v).map fun p => .bind p fun w => Reader.ofChoice (second w)

end

/-- Build definitions in order; each may refer to those before it. -/
def Scope.define (scope : Scope) : List (String × Description) → Option Scope
  | []                     => some scope
  | (name, p) :: remaining => do
      let p ← p.build scope
      Scope.define { scope with defs := (name, p) :: scope.defs } remaining

/-- Build named parsers that do not refer to each other. -/
def Scope.buildRules (scope : Scope) : List (String × Description) →
    Option (List (String × Reader))
  | []                     => some []
  | (name, p) :: remaining => do
      let p ← p.build scope
      let built ← scope.buildRules remaining
      some ((name, p) :: built)

end Backtrack.Session
