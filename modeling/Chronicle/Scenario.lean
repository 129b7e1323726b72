import Chronicle.Statement

namespace Chronicle

/-- What is given at one time: a constraint on the world then, and an event that fires after it. -/
structure Moment where
  event : Option Event
  constraint : Option Formula
  deriving DecidableEq

namespace Moment

def empty : Moment := ⟨none, none⟩

/-- A further constraint is conjoined with the one present. -/
def constrain (m : Moment) (F : Formula) : Moment :=
  match m.constraint with
  | some G => { m with constraint := some (G.conjoin F) }
  | none => { m with constraint := some F }

def isEmpty (m : Moment) : Bool := m.event.isNone && m.constraint.isNone

def render (t : Time) (m : Moment) : String :=
  let constraint := match m.constraint with
    | some F => " [" ++ F.render ++ "]"
    | none => ""
  let event := match m.event with
    | some e => " " ++ e.render
    | none => ""
  "t" ++ toString t ++ constraint ++ event

end Moment

abbrev Timeline := SortedMap Time Moment

namespace Timeline

/-- The moments in order of time, no two at the same time. -/
def ofDistinct (ms : List (Time × Moment)) : Except LogicError Timeline :=
  SortedMap.addDistinct .duplicateTime ∅ ms

end Timeline

/-- Fluents, what is given of them over time, and the causal rules. -/
structure Scenario where
  fluents : FluentSet
  timeline : Timeline
  statements : List Statement
  deriving DecidableEq

/-- Counts are given up to this one, the greatest of 64 bits. -/
def countLimit : Nat := 18446744073709551615

/-- The most observations that room can be made for. One takes 24 bytes, and a list has no more bytes
than a signed number of 64 bits can count. Short of that, memory is taken to last. -/
def capacityLimit : Nat := 9223372036854775807 / 24

namespace Scenario

def ofDistinct (fs : List Fluent) (ms : List (Time × Moment)) (statements : List Statement) :
    Except LogicError Scenario := do
  let line ← Timeline.ofDistinct ms
  return ⟨.ofList fs, line, statements⟩

/-- The first time of the timeline, or zero if that is empty. -/
def startTime (s : Scenario) : Time := s.timeline.keys.head?.getD 0

def endTime (s : Scenario) : Time := s.timeline.keys.getLast?.getD 0

def constraintAt (s : Scenario) (t : Time) : Option Formula :=
  (s.timeline.get? t).bind Moment.constraint

def statementsFor (s : Scenario) (e : Event) : List Statement :=
  s.statements.filter (·.appliesTo e)

/-- The observations of all the fluents that satisfy the constraint at the start. They are counted
before any is built, and room is made for all of them at once. -/
def initialCandidates (s : Scenario) (atomLimit modelLimit : Nat) :
    Except Error (List Valuation) := do
  let constraint := (s.constraintAt s.startTime).getD .top
  let models ← constraint.models atomLimit
  if let f :: _ := (constraint.atoms.diff s.fluents).keys then
    throw (.logic (.undefinedFluent f))
  let free := s.fluents.diff constraint.atoms
  if free.size > effectiveLimit atomLimit then
    throw (.limit (.atoms free.size (effectiveLimit atomLimit)))
  let count := min (Nat.pow 2 free.size * models.length) countLimit
  if count > modelLimit then
    throw (.limit (.models count modelLimit))
  if count > capacityLimit then
    throw .capacityOverflow
  let candidates ← (models.mapM fun v : Valuation => v.extensions free).mapError .logic
  return candidates.flatten

end Scenario

end Chronicle
