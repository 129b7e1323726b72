import Chronicle.Formula.OfTree

namespace Chronicle

/-- A fluent and the value that it is to have. -/
abbrev Literal := Fluent × Bool

namespace Literal

def toFormula (l : Literal) : Formula := .literal l.1 l.2

/-- Reads words of which `and` only separates, and `not` reverses what comes next. -/
def ofWords (negated : Bool) : List String → Except ParseError (List Literal)
  | [] => if negated then .error (.malformedFormula .trailingNegation) else .ok []
  | word :: rest =>
    if word = Operator.keyword .and then
      if negated then .error (.malformedFormula .negatedConjunction) else ofWords false rest
    else if word = negationKeyword then ofWords (!negated) rest
    else do
      let f ← Fluent.ofWord word
      let more ← ofWords false rest
      return (f, !negated) :: more

/-- The nesting of the tree is passed over. -/
def ofTree (tree : Tree) : Except ParseError (List Literal) := ofWords false tree.words

end Literal

end Chronicle
