import Chronicle.Literal
import Chronicle.Query

/-!
Problems as they are handed in, section by section, and the scenario and queries that they state.
-/

namespace Chronicle

structure StatementEntry where
  action : Option String
  agent : Option String
  kind : Option String
  effects : Option Tree
  condition : Option Tree

structure EventEntry where
  action : Option String
  agent : Option String
  time : Option Time

structure ObservationEntry where
  formula : Option Tree
  time : Option Time

/-- The parts of a query, of which each kind of query uses some. -/
structure QueryDetails where
  mode : Option String
  condition : Option Tree
  time : Option Time
  action : Option String
  agent : Option String

structure QueryEntry where
  kind : Option String
  details : Option QueryDetails

/-- The fields of a problem, any of which may have been left out. -/
structure Problem where
  termination : Option Time
  states : Option (List String)
  agents : Option (List String)
  actions : Option (List String)
  statements : List StatementEntry
  events : List EventEntry
  observations : List ObservationEntry
  queries : List QueryEntry

/-- What a problem states: a scenario, and queries to answer from a run to the horizon. -/
structure Batch where
  scenario : Scenario
  queries : List Query
  horizon : Time

/-- A field that must be there. -/
def require {α : Type} (field : String) : Option α → Except ParseError α
  | some a => .ok a
  | none => .error (.missingField field)

namespace Problem

/-- If actions are declared, an action must be among them. -/
def action (p : Problem) (name : String) : Except ParseError Action :=
  if p.actions.any (!·.contains name) then .error (.undeclared .action name) else .ok ⟨name⟩

/-- If agents are declared, an agent must be among them. -/
def agent (p : Problem) (name : String) : Except ParseError Agent :=
  if p.agents.any (!·.contains name) then .error (.undeclared .agent name) else .ok ⟨name⟩

def agent? (p : Problem) : Option String → Except ParseError (Option Agent)
  | none => .ok none
  | some name => do return some (← p.agent name)

def event (p : Problem) (field : String) (action agent : Option String) :
    Except ParseError Event := do
  let name ← require field action
  let action ← p.action name
  let agent ← p.agent? agent
  return ⟨action, agent⟩

def effects : Option Tree → Except ParseError (List Literal)
  | none => .ok []
  | some tree => Literal.ofTree tree

/-- The effect of a statement that causes is the conjunction of its literals. The fluent of one
that releases is that of its first literal. -/
def consequence (kind : String) (literals : List Literal) : Except ParseError Consequence :=
  if kind = "causes" then .ok (.causes (Formula.conjunction (literals.map Literal.toFormula)))
  else if kind = "releases" then
    match literals with
    | (f, _) :: _ => .ok (.releases f)
    | [] => .error (.missingField "STATEMENT.effects")
  else .error (.unknownStatementType kind)

def statement (p : Problem) (entry : StatementEntry) : Except ParseError Statement := do
  let event ← p.event "STATEMENT.action" entry.action entry.agent
  let condition ← Formula.ofTree? entry.condition
  let literals ← effects entry.effects
  let kind ← require "STATEMENT.statement_type" entry.kind
  let consequence ← consequence kind literals
  return ⟨event, condition, consequence⟩

def query (p : Problem) (entry : QueryEntry) : Except ParseError Query := do
  let kind ← require "QUERY.query_type" entry.kind
  let details ← require "QUERY.concrete_query" entry.details
  if kind = "fluent" then
    let word ← require "QUERY.concrete_query.kind" details.mode
    let mode ← Mode.ofWord word
    let time ← require "QUERY.concrete_query.time" details.time
    let F ← Formula.ofTree? details.condition
    return .formula F time mode
  else if kind = "action" then
    let event ← p.event "QUERY.concrete_query.action" details.action details.agent
    let time ← require "QUERY.concrete_query.time" details.time
    return .action event.action event.agent time
  else if kind = "agent" then
    let name ← require "QUERY.concrete_query.agent" details.agent
    return .agent (← p.agent name)
  else throw (.unknownQueryType kind)

/-- Two events at one time are refused. -/
def addEvents (p : Problem) (line : Timeline) : List EventEntry → Except Error Timeline
  | [] => .ok line
  | entry :: rest => do
    let t ← (require "ACS.time" entry.time).mapError .parse
    let event ← (p.event "ACS.action" entry.action entry.agent).mapError .parse
    if t ∈ line then
      throw (.logic (.duplicateTime t))
    p.addEvents (line.insert t ⟨some event, none⟩) rest

/-- Observations at one time are conjoined, and constrain the moment of the event then, if any. -/
def addObservations (line : Timeline) : List ObservationEntry → Except ParseError Timeline
  | [] => .ok line
  | entry :: rest => do
    let t ← require "OBS.time" entry.time
    let F ← Formula.ofTree? entry.formula
    addObservations (line.insert t (((line.get? t).getD .empty).constrain F)) rest

/-- Sections are read in their order, and the first fault is the one reported. -/
def toBatch (p : Problem) : Except Error Batch := do
  let horizon ← (require "TIME.termination" p.termination).mapError .parse
  let states ← (require "STATE" p.states).mapError .parse
  let fluents ← (states.mapM Fluent.ofWord).mapError .parse
  let statements ← (p.statements.mapM p.statement).mapError .parse
  let line ← p.addEvents ∅ p.events
  let line ← (addObservations line p.observations).mapError .parse
  let queries ← (p.queries.mapM p.query).mapError .parse
  let scenario ← (Scenario.ofDistinct fluents line.entries statements).mapError .logic
  return ⟨scenario, queries, horizon⟩

end Problem

end Chronicle
