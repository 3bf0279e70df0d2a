import Backtrack.Session.Log
import Backtrack.Session.Step

/-!
# Requests — whole sessions

A request says which definitions, rules and parsers a session has and which steps it is to do. The
answer has one reply for each step, with the log lines of that step. After a fault no further step
is done.
-/

namespace Backtrack.Session

/-- A session to be run. -/
structure Request where
  kind    : Kind
  log     : List Category
  defs    : List (String × Description)
  rules   : List (String × Description)
  parsers : List Description
  steps   : List Step

/-- The reply to one step, with the lines it logged. -/
structure Answer where
  lines : List String
  reply : Reply

/-- Build all parsers of a request: definitions first, in order, then the rules and the parsers,
    which may refer to all definitions. Gives nothing if a name is unknown. -/
def Request.program? (request : Request) : Option Program := do
  let scope : Scope := ⟨request.kind, request.rules.map Prod.fst, []⟩
  let scope ← scope.define request.defs
  let rules ← scope.buildRules request.rules
  let parsers ← scope.buildRules (request.parsers.map fun p => ("", p))
  some ⟨request.kind, rules, (parsers.map Prod.snd).toArray⟩

/-- Whether a session goes on after a reply. -/
def Reply.goesOn : Reply → Bool
  | .fault _    => false
  | .unfinished => false
  | _           => true

/-- Do steps in order, up to the first fault. -/
def Program.steps (program : Program) (wanted : List Category) (s : State) :
    List Step → List Answer
  | []            => []
  | step :: steps =>
      let before := s.store.log.size
      let (reply, s) := program.step s step
      ⟨logLines wanted s.store.log before, reply⟩ ::
        (if reply.goesOn then program.steps wanted s steps else [])

/-- Run a session; gives nothing if a name is unknown. -/
def Request.run (request : Request) : Option (List Answer) :=
  request.program?.map fun program => program.steps request.log .empty request.steps

end Backtrack.Session
