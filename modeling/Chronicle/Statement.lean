import Chronicle.Formula.Models

namespace Chronicle

/-- An action, perhaps with the agent who performs it. -/
structure Event where
  action : Action
  agent : Option Agent
  deriving DecidableEq

def Event.render (e : Event) : String :=
  match e.agent with
  | some a => e.action.name ++ "(" ++ a.name ++ ")"
  | none => e.action.name

inductive Consequence where
  | causes (effect : Formula)
  | releases (f : Fluent)
  deriving DecidableEq

/-- A causal rule. When its event fires where its condition holds, the rule is triggered: an
effect becomes true, or a released fluent takes either value. -/
structure Statement where
  event : Event
  condition : Formula
  consequence : Consequence
  deriving DecidableEq

namespace Statement

def effect? (s : Statement) : Option Formula :=
  match s.consequence with
  | .causes F => some F
  | .releases _ => none

def released? (s : Statement) : Option Fluent :=
  match s.consequence with
  | .causes _ => none
  | .releases f => some f

def appliesTo (s : Statement) (e : Event) : Bool := s.event == e

/-- The condition is left out if it is empty. -/
def render (s : Statement) : String :=
  let rule := match s.consequence with
    | .causes F => s.event.render ++ " causes " ++ F.render
    | .releases f => s.event.render ++ " releases " ++ f.name
  if s.condition.isTop then rule else rule ++ " if " ++ s.condition.render

end Statement

end Chronicle
