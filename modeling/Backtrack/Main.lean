import Backtrack.Arith

/-!
# The command line

Each argument is read as an arithmetic expression, and one line says what came of it.
-/

/-- Print the report on the arguments. -/
def main (args : List String) : IO Unit :=
  IO.print (Backtrack.Arith.report args)
