import Backtrack.Parser

/-!
# Enumeration — all outcomes at once

What a parser means on a finite input, without pulling: the list of all its values and end
positions, in order. Choice is concatenation, sequencing is concatenation over the outcomes of the
first part, and a repetition lists the rows of occurrences, each row after all its extensions.

The list need not exist. A grammar may go round in circles, a function may have a fault, and parsers
of the caller's own making have no meaning here. So `Parser.enumerate` takes a depth and gives
nothing if the depth does not suffice.
-/

namespace Backtrack

variable {σ ε : Type} {ρ : Type → Type} {α β : Type}

/-- The lists that a partial function gives for each item, one behind the other, if it gives all. -/
def concatMap? (f : α → Option (List β)) : List α → Option (List β)
  | []      => some []
  | a :: as => (f a).bind fun bs => (concatMap? f as).map (bs ++ ·)

/-- The rows of occurrences that go on from `row` at position `i`, where `occurrences` lists the
    single occurrences at a position: first the rows that extend it, then `row` itself, unless it is
    too short. An occurrence that stays at its position ends the row. -/
def rows? (occurrences : Nat → Option (List (α × Nat))) (least : Nat) :
    Nat → List α → Nat → Option (List (List α × Nat))
  | 0,     _,   _ => none
  | n + 1, row, i =>
      (occurrences i).bind fun found =>
        (concatMap? (fun (a, j) =>
            if j = i then some [(row ++ [a], j)]
            else rows? occurrences least n (row ++ [a]) j) found).map fun longer =>
          longer ++ if least ≤ row.length then [(row, i)] else []

/-- All outcomes of a parser at position `i` of an input: values and end positions, in order. -/
def Parser.enumerate (G : Grammar σ ε ρ) (input : List σ) : Nat → {α : Type} → Parser σ ε ρ α →
    Nat → Option (List (α × Nat))
  | 0,     _, _,                  _ => none
  | _ + 1, _, .unit a,            i => some [(a, i)]
  | _ + 1, _, .fail,              _ => some []
  | _ + 1, _, .anySymbol f,       i => some (input[i]?.elim [] fun x => [(f x, i + 1)])
  | _ + 1, _, .testSymbol test f, i =>
      match input[i]? with
      | none   => some []
      | some x => (test x).result.toOption.map fun ok => if ok then [(f x, i + 1)] else []
  | _ + 1, _, .finish a,          i => some (if input[i]?.isNone then [(a, i)] else [])
  | n + 1, _, .map f p,           i =>
      (p.enumerate G input n i).bind (concatMap? fun (a, j) =>
        (f a).result.toOption.map fun b => [(b, j)])
  | n + 1, _, .filter test p,     i =>
      (p.enumerate G input n i).bind (concatMap? fun (a, j) =>
        (test a).result.toOption.map fun ok => if ok then [(a, j)] else [])
  | n + 1, _, .bind p next,       i =>
      (p.enumerate G input n i).bind (concatMap? fun (a, j) => (next a).enumerate G input n j)
  | n + 1, _, .seq f p q,         i =>
      (p.enumerate G input n i).bind (concatMap? fun (a, j) =>
        (q.enumerate G input n j).map (List.map fun (b, k) => (f a b, k)))
  | n + 1, _, .or p q,            i =>
      (p.enumerate G input n i).bind fun first =>
        (q.enumerate G input n i).map fun second => first ++ second
  | n + 1, _, .repetition k f p,  i =>
      (rows? (p.enumerate G input n) k n [] i).map (List.map fun (row, j) => (f row, j))
  | n + 1, _, .spanning f p,      i =>
      (p.enumerate G input n i).map (List.map fun (a, j) => (f a ⟨i, j⟩, j))
  | n + 1, _, .rule r,            i => (G.body r).enumerate G input n i
  | n + 1, _, .remark _ p,        i => p.enumerate G input n i
  | _ + 1, _, .abort _,           _ => none
  | n + 1, _, .lookahead p,       i =>
      (p.enumerate G input n i).map (List.map fun (a, _) => (a, i))
  | _ + 1, _, .custom _,          _ => none

end Backtrack
