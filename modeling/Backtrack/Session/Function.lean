import Backtrack.Session.Value

/-!
# Predicates and functions of a session

The tests and functions that the parsers of a session are built with, as data. A function applied
to a value of the wrong shape gives the unit value; only measuring a reversed span is a fault.
-/

namespace Backtrack.Session

/-- A test on values. -/
inductive Predicate where
  | any
  | none
  /-- Equal to the given value. -/
  | eq (v : Value)
  /-- Equal to one of the given values. -/
  | oneOf (vs : List Value)
  /-- The number of the value lies in a range, ends included. -/
  | range (lo hi : Int)
  /-- A single decimal digit. -/
  | digit
  /-- A single letter, of the first 128 characters only. -/
  | alpha
  /-- The number of the value is even. -/
  | even
  /-- A text or list of at least this length. -/
  | lengthAtLeast (n : Int)
  | not (p : Predicate)

namespace Predicate

/-- Whether a value passes the test. -/
def holds : Predicate → Value → Bool
  | any,             _ => true
  | none,            _ => false
  | eq u,            v => v == u
  | oneOf us,        v => us.any (v == ·)
  | range lo hi,     v => v.number?.any fun i => lo ≤ i && i ≤ hi
  | digit,           v => v.digit?.isSome
  | alpha,           v => v.char?.any Char.isAlpha
  | even,            v => v.number?.any fun i => i % 2 == 0
  | lengthAtLeast n, v => v.length?.any fun k => n ≤ (k : Int)
  | not p,           v => !p.holds v

/-- The name under which the log shows a test. -/
def name : Predicate → String
  | any             => "any"
  | none            => "none"
  | eq _            => "eq"
  | oneOf _         => "in"
  | range _ _       => "range"
  | digit           => "digit"
  | alpha           => "alpha"
  | even            => "even"
  | lengthAtLeast _ => "len_ge"
  | not _           => "not"

end Predicate

/-- The operations that a list of numbers can be folded with. -/
inductive Operation where
  | add
  | mul
  | sub

/-- The saturating operation. -/
def Operation.apply : Operation → Int → Int → Int
  | add => Saturating.add
  | mul => Saturating.mul
  | sub => Saturating.sub

/-- A function on values. -/
inductive Function where
  | id
  | const (v : Value)
  /-- The value of a single decimal digit, or zero. -/
  | digit
  /-- The number of the value. -/
  | code
  | add (n : Int)
  | mul (n : Int)
  /-- Upper case, of the first 128 characters only. -/
  | upper
  /-- The texts of a list, one behind the other. -/
  | join
  | length
  /-- The digits of a list, read as a decimal number. -/
  | decimal
  | last
  | fst
  | snd
  | swap
  /-- A list of a fixed value and the given one. -/
  | tag (t : Value)
  | cons
  /-- Fold the numbers of a list, from the left, onto the number it is paired with. -/
  | foldl (op : Operation)
  | spanLength
  | spanEmpty
  /-- One function after the other. -/
  | compose (f g : Function)

namespace Function

/-- A text in upper case; only the first 128 characters have one. -/
def upperText (s : String) : String :=
  String.ofList (s.toList.map Char.toUpper)

/-- The texts of a list, one behind the other; other items are passed over. -/
def joinTexts (items : List Value) : String :=
  String.join (items.filterMap fun
    | .str s => some s
    | _      => none)

/-- Apply a function to a value. -/
def apply : Function → Value → Except Fault Value
  | id,          v                        => .ok v
  | const u,     _                        => .ok u
  | digit,       v                        => .ok (.int (v.digit?.getD 0))
  | code,        v                        => .ok (v.number?.elim .unit .int)
  | add n,       v                        =>
      .ok (v.number?.elim .unit fun i => .int (Saturating.add i n))
  | mul n,       v                        =>
      .ok (v.number?.elim .unit fun i => .int (Saturating.mul i n))
  | upper,       .str s                   => .ok (.str (upperText s))
  | join,        .list items              => .ok (.str (joinTexts items))
  | length,      v                        => .ok (v.length?.elim .unit fun n => .int n)
  | decimal,     .list items              =>
      .ok (.int (items.foldl (fun acc v => Saturating.snoc acc (v.digit?.getD 0)) 0))
  | last,        .list items              => .ok (items.getLast?.getD .unit)
  | fst,         .pair a _                => .ok a
  | snd,         .pair _ b                => .ok b
  | swap,        .pair a b                => .ok (.pair b a)
  | tag t,       v                        => .ok (.list [t, v])
  | cons,        .pair a (.list items)    => .ok (.list (a :: items))
  | foldl op,    .pair (.int i) (.list items) =>
      .ok (.int ((items.filterMap Value.number?).foldl op.apply i))
  | spanLength,  .pair _ (.span s)        => s.length.map fun n => .int n
  | spanEmpty,   .pair _ (.span s)        => .ok (.bool s.isEmpty)
  | compose f g, v                        => (f.apply v).bind g.apply
  | _,           _                        => .ok .unit

/-- The name under which the log shows a function. -/
def name : Function → String
  | id          => "id"
  | const _     => "const"
  | digit       => "digit"
  | code        => "code"
  | add _       => "add"
  | mul _       => "mul"
  | upper       => "upper"
  | join        => "join"
  | length      => "len"
  | decimal     => "num"
  | last        => "last"
  | fst         => "fst"
  | snd         => "snd"
  | swap        => "swap"
  | tag _       => "tag"
  | cons        => "cons"
  | foldl _     => "foldl"
  | spanLength  => "span_len"
  | spanEmpty   => "span_empty"
  | compose _ _ => "seq"

end Function

end Backtrack.Session
