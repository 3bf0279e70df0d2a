import Backtrack.Cursor
import Backtrack.Span
import Backtrack.Saturating
import Backtrack.Text.Escape
import Backtrack.Text.Layout

/-!
# Values and symbols of a session

A session works on four kinds of symbols and on one type of values, so that its parsers can be
written down as data. A symbol is also a value: characters and tokens are texts, bytes and numbers
are numbers.
-/

namespace Backtrack.Session

/-- What a parser of a session yields. -/
inductive Value where
  | unit
  | bool (b : Bool)
  | int (i : Int)
  | str (s : String)
  | list (items : List Value)
  | pair (fst snd : Value)
  | span (s : Span)

/-- What a source of a session delivers. -/
inductive Symbol where
  | char (c : Char)
  | byte (b : UInt8)
  | int (i : Int)
  | token (s : String)
  deriving DecidableEq

/-- The kinds of symbols; a session has one kind only. -/
inductive Kind where
  | char
  | byte
  | int
  | token
  deriving DecidableEq

namespace Value

mutual

/-- Equality; values of different kinds are never equal. -/
def beq : Value → Value → Bool
  | unit,     unit     => true
  | bool a,   bool b   => a == b
  | int a,    int b    => a == b
  | str a,    str b    => a == b
  | list a,   list b   => beqList a b
  | pair a b, pair c d => beq a c && beq b d
  | span a,   span b   => decide (a = b)
  | _,        _        => false

/-- Equality of lists, item by item. -/
def beqList : List Value → List Value → Bool
  | [],      []      => true
  | a :: as, b :: bs => beq a b && beqList as bs
  | _,       _       => false

end

instance : BEq Value := ⟨beq⟩

mutual

theorem eq_of_beq : {a b : Value} → beq a b = true → a = b
  | unit,     unit,     _ => rfl
  | bool a,   bool b,   h => by simp only [beq, beq_iff_eq] at h; rw [h]
  | int a,    int b,    h => by simp only [beq, beq_iff_eq] at h; rw [h]
  | str a,    str b,    h => by simp only [beq, beq_iff_eq] at h; rw [h]
  | list a,   list b,   h => by simp only [beq] at h; rw [eq_of_beqList h]
  | pair a b, pair c d, h => by
      simp only [beq, Bool.and_eq_true] at h
      rw [eq_of_beq h.1, eq_of_beq h.2]
  | span a,   span b,   h => by simp only [beq, decide_eq_true_eq] at h; rw [h]

theorem eq_of_beqList : {a b : List Value} → beqList a b = true → a = b
  | [],      [],      _ => rfl
  | a :: as, b :: bs, h => by
      simp only [beqList, Bool.and_eq_true] at h
      rw [eq_of_beq h.1, eq_of_beqList h.2]

end

mutual

theorem beq_self : (a : Value) → beq a a = true
  | unit     => rfl
  | bool _   => by simp [beq]
  | int _    => by simp [beq]
  | str _    => by simp [beq]
  | list a   => by simp only [beq]; exact beqList_self a
  | pair a b => by simp only [beq, Bool.and_eq_true]; exact ⟨beq_self a, beq_self b⟩
  | span _   => by simp [beq]

theorem beqList_self : (a : List Value) → beqList a a = true
  | []      => rfl
  | a :: as => by simp only [beqList, Bool.and_eq_true]; exact ⟨beq_self a, beqList_self as⟩

end

instance : LawfulBEq Value where
  eq_of_beq := eq_of_beq
  rfl := beq_self _

/-- The only character of a text of length one. -/
def char? : Value → Option Char
  | str s =>
      match s.toList with
      | [c] => some c
      | _   => none
  | _     => none

/-- The number of a value: an integer itself, or the code point of a single character. -/
def number? : Value → Option Int
  | int i => some i
  | v     => v.char?.map fun c => (c.toNat : Int)

/-- The value of a single decimal digit. -/
def digit? (v : Value) : Option Nat :=
  v.char?.bind fun c => if c.isDigit then some (c.toNat - '0'.toNat) else none

/-- The number of characters of a text, or of items of a list. -/
def length? : Value → Option Nat
  | str s      => some s.length
  | list items => some items.length
  | _          => none

/-- A list with one more item at its end. -/
def snoc : Value → Value → Value
  | list items, v => list (items ++ [v])
  | other,      _ => other

mutual

/-- The value as compact data text. -/
def dataText : Value → String
  | unit          => "null"
  | bool b        => if b then "true" else "false"
  | int i         => toString i
  | str s         => Text.dataText s
  | list []       => "[]"
  | list (v :: vs) => "[" ++ v.dataText ++ dataRest vs ++ "]"
  | pair a b      => "\x7b\"pair\":[" ++ a.dataText ++ "," ++ b.dataText ++ "]\x7d"
  | span s        => "\x7b\"span\":[" ++ toString s.start ++ "," ++ toString s.stop ++ "]\x7d"

/-- The items behind the first one, each with a comma in front. -/
def dataRest : List Value → String
  | []      => ""
  | v :: vs => "," ++ v.dataText ++ dataRest vs

end

/-- How a span is inspected. -/
def spanLayout (s : Span) : Text.Layout :=
  .record "Span" [("start", .atom (toString s.start)), ("end", .atom (toString s.stop))]

mutual

/-- How a value is inspected. -/
def layout : Value → Text.Layout
  | unit       => .atom "()"
  | bool b     => .atom (if b then "true" else "false")
  | int i      => .atom (toString i)
  | str s      => .atom (Text.inspectText s)
  | list items => .list (layouts items)
  | pair a b   => .apply "" [a.layout, b.layout]
  | span s     => spanLayout s

/-- How the items of a list are inspected. -/
def layouts : List Value → List Text.Layout
  | []      => []
  | v :: vs => v.layout :: layouts vs

end

end Value

namespace Symbol

/-- A symbol as a value. -/
def toValue : Symbol → Value
  | char c  => .str c.toString
  | byte b  => .int b.toNat
  | int i   => .int i
  | token s => .str s

/-- The symbol of the given kind that a value stands for. -/
def ofValue? (kind : Kind) (v : Value) : Option Symbol :=
  match kind, v with
  | .char,  v      => v.char?.map char
  | .byte,  .int i => if 0 ≤ i ∧ i < 256 then some (byte (UInt8.ofNat i.toNat)) else none
  | .int,   .int i => some (int i)
  | .token, .str s => some (token s)
  | _,      _      => none

/-- How a symbol is inspected. -/
def layout : Symbol → Text.Layout
  | char c  => .atom (Text.inspectSymbol c)
  | byte b  => .atom (toString b.toNat)
  | int i   => .atom (toString i)
  | token s => .atom (Text.inspectText s)

end Symbol

/-- How a cursor is inspected: its position and the symbol there. -/
def cursorLayout (c : Cursor Symbol) : Text.Layout :=
  .record "Cursor"
    [("position", .atom (toString c.position)),
     ("current", match c.current with
        | some x => .apply "Some" [x.layout]
        | none   => .atom "None")]

/-- How an outcome is inspected. -/
def outcomeLayout (o : Outcome Symbol Value) : Text.Layout :=
  .record "Outcome" [("value", o.value.layout), ("cursor", cursorLayout o.cursor)]

end Backtrack.Session
