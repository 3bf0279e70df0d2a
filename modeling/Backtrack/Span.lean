/-!
# Spans — stretches of the input

A span is a pair of positions. It is whatever the two cursors were: nothing forces the end to
lie behind the start, and measuring a reversed span is the one fault this library knows.
-/

namespace Backtrack

/-- What stops a run: the caller asked for a number that does not exist. -/
inductive Fault where
  /-- The length of a span whose end lies before its start. -/
  | reversedSpan
  deriving DecidableEq, Repr

/-- The report of a fault. -/
def Fault.message : Fault → String
  | .reversedSpan => "attempt to subtract with overflow"

/-- A stretch of the input, from the position `start` up to, not including, `stop`. -/
structure Span where
  start : Nat
  stop  : Nat
  deriving DecidableEq, Repr

namespace Span

/-- The number of positions covered; a reversed span has none to give. -/
def length (s : Span) : Except Fault Nat :=
  if s.stop < s.start then .error .reversedSpan else .ok (s.stop - s.start)

/-- A span is empty when it ends where it starts. -/
def isEmpty (s : Span) : Bool :=
  s.start == s.stop

theorem length_eq_ok_iff (s : Span) (n : Nat) :
    s.length = .ok n ↔ s.start + n = s.stop := by
  unfold length
  split
  · simp only [reduceCtorEq, false_iff]; omega
  · simp only [Except.ok.injEq]; omega

theorem length_eq_error_iff (s : Span) (x : Fault) :
    s.length = .error x ↔ s.stop < s.start := by
  cases x
  unfold length
  split <;> simp_all

theorem isEmpty_iff (s : Span) : s.isEmpty = true ↔ s.start = s.stop := by
  simp [isEmpty]

end Span

end Backtrack
