/-!
The lines of a text. A line ends with a line feed, and a carriage return right before the line feed
is part of the end.
-/

namespace Chronicle.Text

def dropReturn (line : List Char) : List Char :=
  match line.reverse with
  | '\r' :: cs => cs.reverse
  | _ => line

/-- Puts a character before lines, of which the first is the one it stands in. -/
def putBefore (c : Char) : List (List Char) → List (List Char)
  | [] => [[c]]
  | line :: lines => if c = '\n' then [] :: line :: lines else (c :: line) :: lines

/-- The lines of a text that stands before a line feed. -/
def lines (s : String) : List String :=
  (s.toList.foldr putBefore [[]]).map fun line => String.ofList (dropReturn line)

end Chronicle.Text
