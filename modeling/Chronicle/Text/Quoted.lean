import Chronicle.Text.Unprintable

namespace Chronicle.Text

/-- The code point of a character in lower-case hexadecimal. -/
def hex (c : Char) : String := String.ofList (Nat.toDigits 16 c.toNat)

def escaped (c : Char) : String :=
  match c with
  | '"' => "\\\""
  | '\\' => "\\\\"
  | '\t' => "\\t"
  | '\n' => "\\n"
  | '\r' => "\\r"
  | '\x00' => "\\0"
  | c => if isUnprintable c then "\\u\x7b" ++ hex c ++ "\x7d" else c.toString

/-- A text in double quotes, with every character visible. -/
def quoted (s : String) : String :=
  "\"" ++ String.join (s.toList.map escaped) ++ "\""

end Chronicle.Text
