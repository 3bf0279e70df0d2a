import Backtrack.Resolve
import Backtrack.Saturating

/-!
# Arithmetic — sums and products with parentheses

An expression is a sum of products of factors; a factor is a row of digits or an expression in
parentheses. Values are 64-bit numbers, and every operation saturates. The grammar is recursive
through one rule, the expression itself.
-/

namespace Backtrack.Arith

/-- The one rule of the grammar, with the type of its value. -/
inductive Rule : Type → Type where
  | expr : Rule Int

/-- Parsers of arithmetic, over characters and without remarks. -/
abbrev Reader (α : Type) := Parser Char Empty Rule α

/-- The value of a decimal digit; other characters count nothing. -/
def digitValue (c : Char) : Int :=
  if c.isDigit then c.toNat - '0'.toNat else 0

/-- A row of digits, read as a decimal number. -/
def number : Reader Int :=
  (fun digits => digits.foldl (fun value c => Saturating.snoc value (digitValue c)) 0) <$>
    (Parser.satisfy Char.isDigit).many1

/-- A number, or an expression in parentheses. -/
def factor : Reader Int :=
  number <|> (Parser.symbol '(' *> Parser.rule .expr <* Parser.symbol ')')

/-- A product of factors. -/
def term : Reader Int :=
  factor.chainLeft '*' Saturating.mul

/-- A sum of terms. -/
def expr : Reader Int :=
  term.chainLeft '+' Saturating.add

/-- The grammar: its rule is the sum. -/
def grammar : Grammar Char Empty Rule where
  body | .expr => expr

/-- An allowance that suffices for an input of `n` characters. -/
def allowance (n : Nat) : Nat :=
  64 * (n + 2) * (n + 2)

/-- Read a whole text as an expression; gives its value, or why there is none. -/
def evaluate (text : String) : Option (Except ResolveError Int) :=
  let symbols := text.toList
  let fuel := allowance symbols.length
  let run := (expr.startOn grammar fuel (.ofList symbols) .empty).bind fun s st =>
    s.firstComplete grammar fuel st
  match run with
  | .done resolution _ => some (resolution.verdict.map Outcome.value)
  | .fault _ _         => none
  | .unfinished        => none

/-- The line that is printed for a text. -/
def line (text : String) : String :=
  match evaluate text with
  | some (.ok value)    => s!"{text} = {value}"
  | some (.error cause) => text ++ ": " ++ cause.message
  | none                => text ++ ": no answer"

/-- The texts used when none are given. -/
def samples : List String :=
  ["1+2", "2*3", "2-3", "2+3*4", "(2+3)*4"]

/-- The report on a list of texts, one line for each. -/
def report (texts : List String) : String :=
  let texts := if texts.isEmpty then samples else texts
  String.join (texts.map fun text => line text ++ "\n")

end Backtrack.Arith
