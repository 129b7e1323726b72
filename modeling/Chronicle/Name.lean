import Chronicle.SortedMap
import Chronicle.Text.Quoted

namespace Chronicle

/-- A property of the world that is true or false at each time. -/
structure Fluent where
  name : String
  deriving DecidableEq

/-- Someone who may perform an action. -/
structure Agent where
  name : String
  deriving DecidableEq

structure Action where
  name : String
  deriving DecidableEq

namespace Fluent

instance : LT Fluent := ⟨fun f g => f.name < g.name⟩

instance : DecidableLT Fluent := fun f g => inferInstanceAs (Decidable (f.name < g.name))

instance : StrictOrder Fluent where
  irrefl f := String.lt_irrefl f.name
  trans := String.lt_trans
  connected f g := by
    by_cases h : f.name < g.name
    · exact .inl h
    · by_cases h' : g.name < f.name
      · exact .inr (.inr h')
      · have he : f.name = g.name := String.le_antisymm (String.not_lt.1 h') (String.not_lt.1 h)
        exact .inr (.inl (congrArg Fluent.mk he))

/-- The kind and the quoted name, for diagnostics. -/
def inspect (f : Fluent) : String := "Fluent(" ++ Text.quoted f.name ++ ")"

end Fluent

namespace Agent

instance : LT Agent := ⟨fun a b => a.name < b.name⟩

instance : DecidableLT Agent := fun a b => inferInstanceAs (Decidable (a.name < b.name))

def inspect (a : Agent) : String := "Agent(" ++ Text.quoted a.name ++ ")"

end Agent

namespace Action

instance : LT Action := ⟨fun a b => a.name < b.name⟩

instance : DecidableLT Action := fun a b => inferInstanceAs (Decidable (a.name < b.name))

def inspect (a : Action) : String := "Action(" ++ Text.quoted a.name ++ ")"

end Action

/-- A finite set of fluents, in name order. -/
abbrev FluentSet := SortedMap Fluent Unit

namespace FluentSet

def ofList (fs : List Fluent) : FluentSet := SortedMap.ofList (fs.map fun f => (f, ()))

def diff (s t : FluentSet) : FluentSet := s.filterKeys fun f => decide (f ∉ t)

end FluentSet

end Chronicle
