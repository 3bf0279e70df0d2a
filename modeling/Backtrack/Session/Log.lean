import Backtrack.Session.Description

/-!
# The log of a session as text

Each event gives one or two lines, and each line belongs to a category. A session shows the lines
of the categories that were asked for.
-/

namespace Backtrack.Session

/-- The categories of log lines. -/
inductive Category where
  | read
  | trace
  | function
  | lazy
  | probe
  deriving DecidableEq

/-- The word that stands for the role of a called function. -/
def Role.word : Role → String
  | map          => "map"
  | test         => "pred"
  | continuation => "cont"

/-- The line for a remark. -/
def Note.line : Note → Category × String
  | call role name argument =>
      (.function, role.word ++ " " ++ name ++ " " ++ argument.dataText)
  | lazy name         => (.lazy, "lazy " ++ name)
  | probe id position => (.probe, s!"probe {id} {position}")

/-- The lines for an event, in order. -/
def eventLines : Event Symbol Note → List (Category × String)
  | .pulled _ position x =>
      [(.read, "read " ++ x.toValue.dataText),
       (.trace, s!"TRACE pulled symbol from source position={position}")]
  | .exhausted _ position =>
      [(.read, "read null"), (.trace, s!"TRACE source exhausted position={position}")]
  | .ambiguous atLeast => [(.trace, s!"DEBUG ambiguous parse at_least={atLeast}")]
  | .note remark       => [remark.line]

/-- The lines of the wanted categories for the events from number `start` on. -/
def logLines (wanted : List Category) (log : Array (Event Symbol Note)) (start : Nat) :
    List String :=
  if wanted.isEmpty then []
  else (log.toList.drop start).flatMap fun event =>
    (eventLines event).filterMap fun (category, text) =>
      if wanted.contains category then some text else none

end Backtrack.Session
