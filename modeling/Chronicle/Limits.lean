namespace Chronicle

/-- A value that may be set between two bounds. -/
structure Setting (α : Type) where
  name : String
  least : α
  most : α
  value : α

/-- The name of the setting that a value lies outside the bounds of. -/
structure OutOfRange where
  setting : String
  deriving DecidableEq

def OutOfRange.message (e : OutOfRange) : String := "value out of range for " ++ e.setting

def Setting.set {α : Type} [LT α] [DecidableLT α] (s : Setting α) (value : α) :
    Except OutOfRange (Setting α) :=
  if value < s.least ∨ s.most < value then .error ⟨s.name⟩ else .ok { s with value := value }

/-- A span of time, in nanoseconds. -/
abbrev Span := Nat

def Span.ofSeconds (seconds nanoseconds : Nat) : Span := seconds * 1000000000 + nanoseconds

/-- Bounds on the work of a run: on the atoms of a formula that is enumerated, on the histories
held at once, and on the time taken, where no time at all stands for no bound. -/
structure Limits where
  atoms : Setting Nat
  models : Setting Nat
  time : Setting Span

namespace Limits

/-- Enough for a handful of fluents and a short run. -/
def standard : Limits where
  atoms := ⟨"atom_limit", 0, 30, 20⟩
  models := ⟨"model_limit", 1, 16777216, 65536⟩
  time := ⟨"time_limit", 0, Span.ofSeconds 18446744073709551615 999999999, 0⟩

def timeLimit (l : Limits) : Option Span := if l.time.value == 0 then none else some l.time.value

def setAtoms (l : Limits) (value : Nat) : Except OutOfRange Limits := do
  return { l with atoms := ← l.atoms.set value }

def setModels (l : Limits) (value : Nat) : Except OutOfRange Limits := do
  return { l with models := ← l.models.set value }

def setTime (l : Limits) (value : Span) : Except OutOfRange Limits := do
  return { l with time := ← l.time.set value }

end Limits

end Chronicle
