import Chronicle.Forest
import Chronicle.Limits
import Chronicle.Scenario
import Chronicle.Successor

/-!
The histories of a scenario up to a horizon. Each initial observation begins a history. The moments
of the timeline are then read in order: a constraint cuts off the histories that it excludes, and
after it an event extends each history by every observation that may follow.
-/

namespace Chronicle

/-- Histories in a forest, by their last entries. -/
structure Search where
  forest : Forest
  leaves : Array NodeId

/-- The histories that are left at the horizon. A run keeps the atom limit it was made with. -/
structure Run where
  forest : Forest
  leaves : Array NodeId
  horizon : Time
  atomLimit : Nat

namespace Search

def begin (t : Time) : Search → Valuation → Search
  | ⟨forest, leaves⟩, o =>
    let (forest, k) := forest.root t o
    ⟨forest, leaves.push k⟩

def seed (t : Time) (os : List Valuation) : Search := os.foldl (begin t) ⟨.empty, #[]⟩

/-- Keeps the histories whose last observation is compatible with one of the worlds. -/
def sift (worlds : List Valuation) (forest : Forest) (kept : Array NodeId) :
    List NodeId → Except LogicError Search
  | [] => .ok ⟨forest, kept⟩
  | k :: rest =>
    match forest.latest k with
    | none => sift worlds forest kept rest
    | some e =>
      match e.observation.compatible worlds with
      | .error err => .error err
      | .ok true => sift worlds forest (kept.push k) rest
      | .ok false => sift worlds (forest.prune k) kept rest

def constrain (atomLimit : Nat) (t : Time) (F : Formula) (s : Search) : Except Error Search := do
  let worlds ← F.models atomLimit
  let kept ← (sift worlds s.forest #[] s.leaves.toList).mapError .logic
  if kept.leaves.isEmpty then
    throw (.logic (.unrealizable t))
  return kept

/-- One history for each observation that follows the last of `k`. -/
def extendBy (k : NodeId) (t : Time) (e : Event) : Search → Valuation → Search
  | ⟨forest, leaves⟩, o =>
    let (forest, k') := forest.extend k t o e
    ⟨forest, leaves.push k'⟩

/-- Fires an event on each history in turn. The number of histories is checked against the limit
after each one that is extended. -/
def fireAll (e : Event) (statements : List Statement) (next : Time) (atomLimit modelLimit : Nat) :
    Search → List NodeId → Except Error Search
  | s, [] => .ok s
  | ⟨forest, leaves⟩, k :: rest =>
    match forest.latest k with
    | none => fireAll e statements next atomLimit modelLimit ⟨forest, leaves⟩ rest
    | some last =>
      match Successor.successors last.observation statements atomLimit with
      | .error err => .error err
      | .ok [] => fireAll e statements next atomLimit modelLimit ⟨forest, leaves.push k⟩ rest
      | .ok (o :: os) =>
        let grown := (o :: os).foldl (extendBy k next e) ⟨forest, leaves⟩
        if grown.leaves.size > modelLimit then
          .error (.limit (.models grown.leaves.size modelLimit))
        else fireAll e statements next atomLimit modelLimit grown rest

def fire (scenario : Scenario) (atomLimit modelLimit : Nat) (t : Time) (e : Event) (s : Search) :
    Except Error Search :=
  match Time.next? t with
  | none => .error (.logic (.timeOverflow t))
  | some next =>
    fireAll e (scenario.statementsFor e) next atomLimit modelLimit ⟨s.forest, #[]⟩ s.leaves.toList

/-- Reads one moment, its constraint before its event. -/
def step (scenario : Scenario) (atomLimit modelLimit : Nat) (s : Search) :
    Time × Moment → Except Error Search
  | (t, m) => do
    let s ← match m.constraint with
      | some F => s.constrain atomLimit t F
      | none => pure s
    match m.event with
    | some e => s.fire scenario atomLimit modelLimit t e
    | none => return s

end Search

namespace Scenario

/-- The moments up to the horizon, in order. -/
def momentsUntil (s : Scenario) (horizon : Time) : List (Time × Moment) :=
  s.timeline.entries.takeWhile (·.1 ≤ horizon)

/-- The time limit of a run is not part of its meaning, and is left to whoever starts it. -/
def run (s : Scenario) (limits : Limits) (horizon : Time) : Except Error Run := do
  let os ← s.initialCandidates limits.atoms.value limits.models.value
  if os.isEmpty then
    throw (.logic (.unrealizable s.startTime))
  let search ← (s.momentsUntil horizon).foldlM
    (Search.step s limits.atoms.value limits.models.value) (Search.seed s.startTime os)
  return ⟨search.forest, search.leaves, horizon, limits.atoms.value⟩

end Scenario

namespace Run

def modelCount (r : Run) : Nat := r.leaves.size

/-- The histories, each from its first entry. -/
def histories (r : Run) : List (List Entry) := r.leaves.toList.map r.forest.path

end Run

end Chronicle
