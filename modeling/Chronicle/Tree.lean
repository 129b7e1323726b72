import Chronicle.Text.Quoted

namespace Chronicle

/-- A nested list of words, as formulas and effects are handed in. -/
inductive Tree where
  | name (word : String)
  | list (items : List Tree)

namespace Tree

mutual

/-- The tree with its kinds spelt out and its words quoted, for diagnostics. -/
def inspect : Tree → String
  | name word => "Name(" ++ Text.quoted word ++ ")"
  | list items => "List([" ++ String.intercalate ", " (inspectAll items) ++ "])"

def inspectAll : List Tree → List String
  | [] => []
  | item :: rest => item.inspect :: inspectAll rest

end

mutual

/-- The words of a tree from left to right. -/
def words : Tree → List String
  | name word => [word]
  | list items => wordsAll items

def wordsAll : List Tree → List String
  | [] => []
  | item :: rest => item.words ++ wordsAll rest

end

end Tree

end Chronicle
