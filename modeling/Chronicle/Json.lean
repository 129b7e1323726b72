namespace Chronicle

/-- A JSON value as it is written. Numbers keep their spelling. The text of a string is missing if
an escape in it stands for half of a surrogate pair without the other half. -/
inductive Json where
  | null
  | bool (b : Bool)
  | number (spelling : String)
  | string (text : Option String)
  | array (items : List Json)
  | object (members : List (Option String × Json))
  deriving Inhabited

end Chronicle
