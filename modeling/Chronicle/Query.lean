import Chronicle.Run

namespace Chronicle

/-- Whether a formula is asked of every history, or of at least one. -/
inductive Mode where
  | necessary
  | possible
  deriving DecidableEq

namespace Mode

def ofWord : String → Except ParseError Mode
  | "necessary" => .ok necessary
  | "necessarily" => .ok necessary
  | "possible" => .ok possible
  | "possibly" => .ok possible
  | word => .error (.unknownMode word)

def render : Mode → String
  | necessary => "necessary"
  | possible => "possibly"

end Mode

inductive Query where
  | formula (F : Formula) (t : Time) (mode : Mode)
  | action (action : Action) (agent : Option Agent) (t : Time)
  | agent (agent : Agent)
  deriving DecidableEq

def Query.render : Query → String
  | formula F t mode => mode.render ++ " " ++ F.render ++ " at " ++ toString t
  | action a (some g) t => a.name ++ " by " ++ g.name ++ " at " ++ toString t
  | action a none t => a.name ++ " at " ++ toString t
  | agent g => g.name ++ " active"

/-- A query about a time that the run did not reach is indeterminate. -/
inductive Answer where
  | yes
  | no
  | indeterminate
  deriving DecidableEq

namespace Answer

def ofBool (b : Bool) : Answer := if b then yes else no

def render : Answer → String
  | yes => "true"
  | no => "false"
  | indeterminate => "indeterminate"

end Answer

namespace Run

/-- Whether all and whether any of the histories are in one of the worlds at a time, or nothing if
one of them begins later. -/
def survey (r : Run) (worlds : List Valuation) (t : Time) (all any : Bool) :
    List NodeId → Except LogicError (Option (Bool × Bool))
  | [] => .ok (some (all, any))
  | k :: rest =>
    match r.forest.latestAt k t with
    | none => .ok none
    | some e =>
      match e.observation.compatible worlds with
      | .error err => .error err
      | .ok b => r.survey worlds t (all && b) (any || b) rest

def formulaHolds (r : Run) (F : Formula) (t : Time) (mode : Mode) : Except Error Answer := do
  if t > r.horizon then
    return .indeterminate
  let worlds ← F.models r.atomLimit
  match ← (r.survey worlds t true false r.leaves.toList).mapError .logic with
  | none => return .indeterminate
  | some (all, any) =>
    return .ofBool <| match mode with
      | .necessary => all
      | .possible => any

/-- Whether an action, by the agent if one is given, fired at a time in some history. A firing is
recorded on the entry that it led to, at the next time. -/
def actionPerformed (r : Run) (a : Action) (agent : Option Agent) (t : Time) : Answer :=
  if t > r.horizon then .indeterminate
  else
    match Time.next? t with
    | none => .no
    | some next =>
      .ofBool <| r.leaves.any fun k => (r.forest.ancestry k).any fun e =>
        e.time == next && e.firing.any fun firing =>
          firing.action == a && (agent.isNone || firing.agent == agent)

/-- Whether a firing by the agent changed the world, among entries from the latest back. -/
def changedBy (agent : Agent) : List Entry → Bool
  | e :: before :: rest =>
    (e.firing.any (·.agent == some agent) &&
      !(before.observation.differences e.observation).isEmpty) ||
    changedBy agent (before :: rest)
  | _ => false

/-- Whether the agent changed the world in every history. -/
def agentActive (r : Run) (agent : Agent) : Bool :=
  r.leaves.all fun k => changedBy agent (r.forest.ancestry k)

def answer (r : Run) : Query → Except Error Answer
  | .formula F t mode => r.formulaHolds F t mode
  | .action a agent t => .ok (r.actionPerformed a agent t)
  | .agent agent => .ok (.ofBool (r.agentActive agent))

end Run

/-- Answers to queries, all from one run. -/
def Scenario.answer (s : Scenario) (limits : Limits) (horizon : Time) (qs : List Query) :
    Except Error (List Answer) := do
  let r ← s.run limits horizon
  qs.mapM r.answer

end Chronicle
