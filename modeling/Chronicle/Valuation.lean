import Chronicle.Error

namespace Chronicle

/-- Truth values of finitely many fluents. -/
abbrev Valuation := SortedMap Fluent Bool

namespace Valuation

/-- Fluents in name order, the false ones after a minus sign. -/
def render (v : Valuation) : String :=
  String.intercalate " " (v.entries.map fun (f, b) => if b then f.name else "-" ++ f.name)

def allFalse (fs : List Fluent) : Valuation := SortedMap.ofList (fs.map fun f => (f, false))

/-- The valuation with exactly these pairs, no fluent being given twice. -/
def ofDistinct (ps : List (Fluent × Bool)) : Except LogicError Valuation :=
  SortedMap.addDistinct .duplicateAssignment ∅ ps

def mergeAfter (seen : List Fluent) (v : Valuation) :
    List (Fluent × Bool) → Except LogicError Valuation
  | [] => .ok v
  | (f, b) :: rest =>
    if f ∈ v then
      if f ∈ seen then .error (.duplicateAssignment f)
      else mergeAfter (f :: seen) (v.insert f b) rest
    else .error (.undefinedFluent f)

/-- New values for some of the fluents, each given once. No fluent is added. -/
def merge (v : Valuation) (update : List (Fluent × Bool)) : Except LogicError Valuation :=
  mergeAfter [] v update

/-- The value of a fluent that ought to have one. -/
def get (v : Valuation) (f : Fluent) : Except LogicError Bool :=
  match v.get? f with
  | some b => .ok b
  | none => .error (.lookup f)

def eval (v : Valuation) (F : Formula) : Except LogicError Bool :=
  (F.eval v.get?).mapError .lookup

/-- Whether all pairs hold, read up to the first that does not. -/
def includes (v : Valuation) : List (Fluent × Bool) → Except LogicError Bool
  | [] => .ok true
  | (f, b) :: rest => do
    if (← v.get f) == b then v.includes rest else return false

/-- Whether the valuation includes one of the worlds, read up to the first that it includes. -/
def compatible (v : Valuation) : List Valuation → Except LogicError Bool
  | [] => .ok false
  | w :: rest => do
    if ← v.includes w.entries then return true else v.compatible rest

/-- The fluents to which both give values, and different ones. -/
def differences (v w : Valuation) : List Fluent :=
  (v.entries.filter fun (f, b) => (w.get? f).any (· != b)).map Prod.fst

end Valuation

end Chronicle
