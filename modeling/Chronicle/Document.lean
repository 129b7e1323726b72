import Chronicle.Json.Reader
import Chronicle.Problem
import Chronicle.Text.Integer

/-!
Problems in JSON. Each part of a problem is an object of named fields, or else an array of the
fields in a fixed order. In an object, a known field is given at most once and an unknown one is
passed over. A field that is null counts as left out, save the four lists of entries.
-/

namespace Chronicle.Document

/-- The deepest that arrays and objects may be nested. Unknown fields are not bound by it. -/
def nestingLimit : Nat := 127

/-- The values of a field among members whose names are all texts. -/
def valuesOf (field : String) : List (Option String × Json) → Option (List Json)
  | [] => some []
  | (none, _) :: _ => none
  | (some name, v) :: rest => do
    let more ← valuesOf field rest
    return if name = field then v :: more else more

def atMostOne : List Json → Option (Option Json)
  | [] => some none
  | [v] => some (some v)
  | _ => none

/-- Each field's value if it is given. An array may leave off its last fields, but not one of the
first `needed`. -/
def fields (names : List String) (needed : Nat) : Json → Option (List (Option Json))
  | .object members => names.mapM fun name => do atMostOne (← valuesOf name members)
  | .array items =>
    if needed ≤ items.length ∧ items.length ≤ names.length then
      some (items.map some ++ List.replicate (names.length - items.length) none)
    else none
  | _ => none

def optional {α : Type} (read : Json → Option α) : Option Json → Option (Option α)
  | none => some none
  | some .null => some none
  | some v => (read v).map some

def text : Json → Option String
  | .string text => text
  | _ => none

def list {α : Type} (read : Json → Option α) : Json → Option (List α)
  | .array items => items.mapM read
  | _ => none

def entries {α : Type} (read : Json → Option α) : Option Json → Option (List α)
  | none => some []
  | some v => list read v

/-- A time is written as an integer, and zero without a minus sign. -/
def time : Json → Option Time
  | .number spelling => do
    if spelling = "-0" then none
    let t ← Text.parseSigned spelling
    if Time.first ≤ t ∧ t ≤ Time.last then some t else none
  | _ => none

/-- Words in arrays nested no deeper than `levels`. -/
def tree : Nat → Json → Option Tree
  | _, .string text => text.map .name
  | 0, _ => none
  | levels + 1, .array items => do return .list (← items.mapM (tree levels))
  | _ + 1, _ => none

def termination (v : Json) : Option (Option Time) := do
  let [t] ← fields ["termination"] 1 v | none
  optional time t

def statement (v : Json) : Option StatementEntry := do
  let [action, agent, kind, effects, condition] ←
    fields ["action", "agent", "statement_type", "effects", "condition"] 5 v | none
  return {
    action := ← optional text action
    agent := ← optional text agent
    kind := ← optional text kind
    effects := ← optional (tree (nestingLimit - 3)) effects
    condition := ← optional (tree (nestingLimit - 3)) condition }

def event (v : Json) : Option EventEntry := do
  let [action, agent, t] ← fields ["action", "agent", "time"] 3 v | none
  return {
    action := ← optional text action
    agent := ← optional text agent
    time := ← optional time t }

def observation (v : Json) : Option ObservationEntry := do
  let [formula, t] ← fields ["parsed_expression", "time"] 2 v | none
  return {
    formula := ← optional (tree (nestingLimit - 3)) formula
    time := ← optional time t }

def queryDetails (v : Json) : Option QueryDetails := do
  let [mode, condition, t, action, agent] ←
    fields ["kind", "condition", "time", "action", "agent"] 5 v | none
  return {
    mode := ← optional text mode
    condition := ← optional (tree (nestingLimit - 4)) condition
    time := ← optional time t
    action := ← optional text action
    agent := ← optional text agent }

def query (v : Json) : Option QueryEntry := do
  let [kind, details] ← fields ["query_type", "concrete_query"] 2 v | none
  return {
    kind := ← optional text kind
    details := ← optional queryDetails details }

def problem (v : Json) : Option Problem := do
  let [t, states, agents, actions, statements, events, observations, queries] ←
    fields ["TIME", "STATE", "AGENT", "ACTION", "STATEMENT", "ACS", "OBS", "QUERY"] 4 v | none
  return {
    termination := (← optional termination t).join
    states := ← optional (list text) states
    agents := ← optional (list text) agents
    actions := ← optional (list text) actions
    statements := ← entries statement statements
    events := ← entries event events
    observations := ← entries observation observations
    queries := ← entries query queries }

end Chronicle.Document

namespace Chronicle

/-- The problem that a JSON text holds. -/
def Problem.ofText (s : String) : Except ParseError Problem :=
  match (Json.read s).bind Document.problem with
  | some p => .ok p
  | none => .error .unreadable

end Chronicle
