import Chronicle.Formula
import Chronicle.Time
import Chronicle.Tree

/-!
What can go wrong, by cause, and the wording of each cause.
-/

namespace Chronicle

/-- The deepest formula that is read. -/
def depthLimit : Nat := 1024

/-- Why a tree is no formula, or no list of literals. -/
inductive Malformation where
  | missingOperand
  | operatorAsOperand (word : String)
  | emptySubformula
  | leftover (item : Tree) (after : Formula)
  | tooDeep
  | negatedConjunction
  | trailingNegation

def Malformation.message : Malformation → String
  | missingOperand => "an operator is missing an operand"
  | operatorAsOperand word => "'" ++ word ++ "' where an operand was expected"
  | emptySubformula => "empty sub-formula"
  | leftover item after => "unexpected " ++ item.inspect ++ " after " ++ after.render
  | tooDeep => "operators nested deeper than " ++ toString depthLimit
  | negatedConjunction => "'not' before 'and'"
  | trailingNegation => "trailing 'not' in effects"

/-- The kinds of name that a document may declare. -/
inductive Declared where
  | action
  | agent

def Declared.word : Declared → String
  | action => "action"
  | agent => "agent"

inductive ParseError where
  | missingField (field : String)
  | reservedName (name : String)
  | malformedFormula (why : Malformation)
  | unknownStatementType (word : String)
  | unknownQueryType (word : String)
  | unknownMode (word : String)
  | undeclared (kind : Declared) (name : String)
  | unreadable

def ParseError.message : ParseError → String
  | missingField field => "missing field '" ++ field ++ "'"
  | reservedName name => "'" ++ name ++ "' is reserved and cannot name a fluent"
  | malformedFormula why => "malformed formula (" ++ why.message ++ ")"
  | unknownStatementType word => "unknown statement type '" ++ word ++ "'"
  | unknownQueryType word => "unknown query type '" ++ word ++ "'"
  | unknownMode word => "unknown query mode '" ++ word ++ "'"
  | undeclared kind name => kind.word ++ " '" ++ name ++ "' was not declared"
  | unreadable => "unreadable document (not a problem in JSON form)"

inductive LogicError where
  | lookup (f : Fluent)
  | duplicateTime (t : Time)
  | effectReleaseConflict (f : Fluent)
  | contradictoryEffects
  | undefinedFluent (f : Fluent)
  | duplicateAssignment (f : Fluent)
  | unrealizable (t : Time)
  | timeOverflow (t : Time)
  deriving DecidableEq

def LogicError.message : LogicError → String
  | lookup f => "fluent '" ++ f.name ++ "' was not found in the observation"
  | duplicateTime t => "only one definition for timepoint " ++ toString t ++ " can exist"
  | effectReleaseConflict f =>
    "effect and release statements cannot jointly determine '" ++ f.name ++ "' in one firing"
  | contradictoryEffects => "the effects of a firing contradict each other"
  | undefinedFluent f => "not all fluents were defined ('" ++ f.name ++ "' is missing)"
  | duplicateAssignment f => "duplicate assignment to '" ++ f.name ++ "' in a single update"
  | unrealizable t => "scenario is not realizable (no model survives time " ++ toString t ++ ")"
  | timeOverflow t => "no time follows the event at " ++ toString t

inductive LimitError where
  | atoms (count limit : Nat)
  | models (count limit : Nat)
  deriving DecidableEq

def LimitError.message : LimitError → String
  | atoms count limit =>
    toString count ++ " distinct atoms exceeds the atom limit of " ++ toString limit
  | models count limit =>
    toString count ++ " quasi-models exceeds the model limit of " ++ toString limit

/-- How a call ends that gives no result. A capacity overflow is not reported like the others: more
room is asked for than any memory has, and the program stops there. -/
inductive Error where
  | parse (e : ParseError)
  | logic (e : LogicError)
  | limit (e : LimitError)
  | capacityOverflow

def Error.message : Error → String
  | parse e => "Parsing error: " ++ e.message
  | logic e => "Logic error: " ++ e.message
  | limit e => "Limit error: " ++ e.message
  | capacityOverflow => "capacity overflow"

end Chronicle
