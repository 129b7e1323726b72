import Chronicle.Error

/-!
Formulas from trees of words. A list is read from left to right: operands wait, with the operators
after them, until an operator that binds no tighter comes, or the list ends. So operators of one
precedence associate to the left.
-/

namespace Chronicle

/-- Keywords are refused. -/
def Fluent.ofWord (word : String) : Except ParseError Fluent :=
  if isReserved word then .error (.reservedName word) else .ok ⟨word⟩

/-- A formula that has been read, with its depth. -/
structure Operand where
  formula : Formula
  depth : Nat

namespace Operand

def negate (x : Operand) : Except ParseError Operand :=
  if x.depth < depthLimit then .ok ⟨.neg x.formula, x.depth + 1⟩
  else .error (.malformedFormula .tooDeep)

def negateTimes (x : Operand) : Nat → Except ParseError Operand
  | 0 => .ok x
  | n + 1 => do (← x.negate).negateTimes n

def apply (op : Operator) (x y : Operand) : Except ParseError Operand :=
  if max x.depth y.depth < depthLimit then
    .ok ⟨.binary op x.formula y.formula, max x.depth y.depth + 1⟩
  else .error (.malformedFormula .tooDeep)

end Operand

/-- Left operands that wait for their right ones, the latest first. -/
abbrev Waiting := List (Operand × Operator)

namespace Waiting

/-- Applies the waiting operators that bind at least as tightly as `floor`. -/
def reduce (floor : Nat) : Waiting → Operand → Except ParseError (Waiting × Operand)
  | [], x => .ok ([], x)
  | (l, op) :: rest, x =>
    if floor ≤ op.precedence then do reduce floor rest (← Operand.apply op l x)
    else .ok ((l, op) :: rest, x)

/-- Applies all waiting operators. -/
def finish (w : Waiting) (x : Operand) : Except ParseError Operand := do
  return (← w.reduce 0 x).2

end Waiting

namespace Tree

def operator? : Tree → Option Operator
  | name word => Operator.ofKeyword? word
  | list _ => none

def isNegation : Tree → Bool
  | name word => word == negationKeyword
  | list _ => false

mutual

/-- Reads an operand that stands for itself, without negations. -/
def readItem : Tree → Except ParseError Operand
  | name word =>
    if (Operator.ofKeyword? word).isSome then
      .error (.malformedFormula (.operatorAsOperand word))
    else do return ⟨.atom (← Fluent.ofWord word), 1⟩
  | list items =>
    if items.isEmpty then .error (.malformedFormula .emptySubformula) else readOperand [] 0 items
termination_by structural tree => tree

/-- Reads on where an operand must come, after some negations. -/
def readOperand (w : Waiting) (negations : Nat) : List Tree → Except ParseError Operand
  | [] => .error (.malformedFormula .missingOperand)
  | item :: rest =>
    if item.isNegation then readOperand w (negations + 1) rest
    else do
      let x ← item.readItem
      let x ← x.negateTimes negations
      readOperator w x rest
termination_by structural items => items

/-- Reads on after an operand, where an operator must come if anything does. -/
def readOperator (w : Waiting) (x : Operand) : List Tree → Except ParseError Operand
  | [] => w.finish x
  | item :: rest =>
    match item.operator? with
    | some op => do
      let (w, l) ← w.reduce op.precedence x
      readOperand ((l, op) :: w) 0 rest
    | none => do
      let x ← w.finish x
      .error (.malformedFormula (.leftover item x.formula))
termination_by structural items => items

end

end Tree

namespace Formula

/-- The empty list, unlike an empty list within another, is the empty formula. -/
def ofTree : Tree → Except ParseError Formula
  | .name word => do return .atom (← Fluent.ofWord word)
  | .list [] => .ok .top
  | .list items => do return (← Tree.readOperand [] 0 items).formula

def ofTree? : Option Tree → Except ParseError Formula
  | none => .ok .top
  | some tree => ofTree tree

end Formula

end Chronicle
