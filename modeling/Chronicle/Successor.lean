import Chronicle.Statement

/-!
What an event leads to. The triggered effects are conjoined, each released fluent takes both
values, and every other fluent keeps its value.
-/

namespace Chronicle.Successor

/-- The statements whose conditions hold on an observation. -/
def triggered (o : Valuation) : List Statement → Except LogicError (List Statement)
  | [] => .ok []
  | s :: rest => do
    let holds ← o.eval s.condition
    let more ← triggered o rest
    return if holds then s :: more else more

/-- Branches each candidate on the released fluents, of which none may be fixed by the effects.
A fluent already branched on is passed over. -/
def branch (fixed : FluentSet) (limit : Nat) :
    List Fluent → List Fluent → List Valuation → Except Error (List Valuation)
  | _, [], candidates => .ok candidates
  | branched, f :: rest, candidates =>
    if f ∈ fixed then .error (.logic (.effectReleaseConflict f))
    else if f ∈ branched then branch fixed limit branched rest candidates
    else if fixed.size + (branched.length + 1) > limit then
      .error (.limit (.atoms (fixed.size + (branched.length + 1)) limit))
    else
      branch fixed limit (f :: branched) rest
        (candidates.flatMap fun c => [c.insert f true, c.insert f false])

/-- The observations that may follow one when the event of these statements fires. There are none
if nothing is triggered. -/
def successors (o : Valuation) (statements : List Statement) (atomLimit : Nat) :
    Except Error (List Valuation) := do
  let fired ← (triggered o statements).mapError .logic
  if fired.isEmpty then
    return []
  let effect := Formula.conjunction (fired.filterMap Statement.effect?)
  let candidates ← effect.models atomLimit
  if candidates.isEmpty then
    throw (.logic .contradictoryEffects)
  let candidates ←
    branch effect.atoms (effectiveLimit atomLimit) [] (fired.filterMap Statement.released?) candidates
  (candidates.mapM fun c => o.merge c.entries).mapError .logic

end Chronicle.Successor
