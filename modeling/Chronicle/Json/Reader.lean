import Chronicle.Json
import Chronicle.Json.Token

/-!
Values from tokens. Arrays and objects that have been opened are kept on a stack, so values may be
nested to any depth.
-/

namespace Chronicle.Json

/-- An array or object around the value being read, with what has been read of it, latest first. -/
inductive Frame where
  | array (items : List Json)
  | object (members : List (Option String × Json)) (key : Option String)

/-- What must come next. -/
inductive Reading where
  | value (stack : List Frame)
  | firstItem (stack : List Frame)
  | afterItem (items : List Json) (stack : List Frame)
  | firstKey (stack : List Frame)
  | key (members : List (Option String × Json)) (stack : List Frame)
  | colon (members : List (Option String × Json)) (key : Option String) (stack : List Frame)
  | afterMember (members : List (Option String × Json)) (stack : List Frame)
  | nothing (v : Json)

namespace Reading

/-- A value has been read in full. -/
def complete (v : Json) : List Frame → Reading
  | [] => nothing v
  | .array items :: stack => afterItem (v :: items) stack
  | .object members k :: stack => afterMember ((k, v) :: members) stack

def begin (stack : List Frame) : Token → Option Reading
  | .openArray => some (firstItem stack)
  | .openObject => some (firstKey stack)
  | .null => some (complete .null stack)
  | .bool b => some (complete (.bool b) stack)
  | .number spelling => some (complete (.number spelling) stack)
  | .string text => some (complete (.string text) stack)
  | _ => none

def step : Reading → Token → Option Reading
  | value stack, t => begin stack t
  | firstItem stack, .closeArray => some (complete (.array []) stack)
  | firstItem stack, t => begin (.array [] :: stack) t
  | afterItem items stack, .comma => some (value (.array items :: stack))
  | afterItem items stack, .closeArray => some (complete (.array items.reverse) stack)
  | firstKey stack, .closeObject => some (complete (.object []) stack)
  | firstKey stack, .string text => some (colon [] text stack)
  | key members stack, .string text => some (colon members text stack)
  | colon members k stack, .colon => some (value (.object members k :: stack))
  | afterMember members stack, .comma => some (key members stack)
  | afterMember members stack, .closeObject => some (complete (.object members.reverse) stack)
  | _, _ => none

end Reading

/-- The value of a text that holds exactly one. -/
def read (text : String) : Option Json := do
  let tokens ← Token.all text
  match ← tokens.foldlM Reading.step (.value []) with
  | .nothing v => some v
  | _ => none

end Chronicle.Json
