namespace Chronicle

/-- A binary connective. -/
inductive Operator where
  | and
  | or
  | implies
  | iff
  deriving DecidableEq

namespace Operator

def apply : Operator → Bool → Bool → Bool
  | and, l, r => l && r
  | or, l, r => l || r
  | implies, l, r => !l || r
  | iff, l, r => l == r

def keyword : Operator → String
  | and => "and"
  | or => "or"
  | implies => "implies"
  | iff => "iff"

/-- Every operator is read from its keyword, and `iff` from a longer form too. -/
def ofKeyword? : String → Option Operator
  | "and" => some and
  | "or" => some or
  | "implies" => some implies
  | "iff" => some iff
  | "if and only if" => some iff
  | _ => none

/-- The higher, the tighter the operator binds. -/
def precedence : Operator → Nat
  | and => 4
  | or => 3
  | implies => 2
  | iff => 1

end Operator

/-- The keyword of negation, which binds tighter than every operator. -/
def negationKeyword : String := "not"

/-- Keywords name no fluent. -/
def isReserved (name : String) : Bool :=
  name == negationKeyword || (Operator.ofKeyword? name).isSome

end Chronicle
