/-!
The tokens of a JSON text, read one character at a time.
-/

namespace Chronicle.Json

inductive Token where
  | openArray
  | closeArray
  | openObject
  | closeObject
  | comma
  | colon
  | null
  | bool (b : Bool)
  | number (spelling : String)
  | string (text : Option String)

namespace Token

def isHighSurrogate (n : Nat) : Bool := 0xD800 ≤ n && n < 0xDC00

def isLowSurrogate (n : Nat) : Bool := 0xDC00 ≤ n && n < 0xE000

/-- The characters of a string whose surrogates all come in pairs. -/
def pairUp : List Nat → Option (List Char)
  | [] => some []
  | n :: rest =>
    if isHighSurrogate n then
      match rest with
      | low :: rest =>
        if isLowSurrogate low then
          let c := Char.ofNat (0x10000 + (n - 0xD800) * 0x400 + (low - 0xDC00))
          (pairUp rest).map (c :: ·)
        else none
      | [] => none
    else if isLowSurrogate n then none
    else (pairUp rest).map (Char.ofNat n :: ·)

def dropDigits (cs : List Char) : List Char := cs.dropWhile Char.isDigit

/-- One digit or more, and then what `rest` allows. -/
def digitsThen (rest : List Char → Bool) (cs : List Char) : Bool :=
  match cs with
  | c :: cs => c.isDigit && rest (dropDigits cs)
  | [] => false

def isExponent : List Char → Bool
  | [] => true
  | c :: cs =>
    (c == 'e' || c == 'E') &&
      match cs with
      | '+' :: cs => digitsThen List.isEmpty cs
      | '-' :: cs => digitsThen List.isEmpty cs
      | cs => digitsThen List.isEmpty cs

def isFraction : List Char → Bool
  | '.' :: cs => digitsThen isExponent cs
  | cs => isExponent cs

/-- No digit follows a leading zero. -/
def isUnsigned : List Char → Bool
  | '0' :: cs => isFraction cs
  | cs => digitsThen isFraction cs

def isNumber : List Char → Bool
  | '-' :: cs => isUnsigned cs
  | cs => isUnsigned cs

def ofWord : String → Option Token
  | "null" => some null
  | "true" => some (bool true)
  | "false" => some (bool false)
  | _ => none

def ofSign : Char → Option Token
  | '[' => some openArray
  | ']' => some closeArray
  | '{' => some openObject
  | '}' => some closeObject
  | ',' => some comma
  | ':' => some colon
  | _ => none

/-- The character that a letter stands for after a backslash. -/
def ofEscape : Char → Option Char
  | '"' => some '"'
  | '\\' => some '\\'
  | '/' => some '/'
  | 'b' => some '\x08'
  | 'f' => some '\x0c'
  | 'n' => some '\n'
  | 'r' => some '\r'
  | 't' => some '\t'
  | _ => none

def hexDigit? (c : Char) : Option Nat :=
  if c.isDigit then some (c.toNat - '0'.toNat)
  else if 'a' ≤ c && c ≤ 'f' then some (c.toNat - 'a'.toNat + 10)
  else if 'A' ≤ c && c ≤ 'F' then some (c.toNat - 'A'.toNat + 10)
  else none

/-- What has been read of a token. Characters and code points are held latest first. -/
inductive Begun where
  | nothing
  | word (letters : List Char)
  | number (chars : List Char)
  | text (codes : List Nat)
  | escape (codes : List Nat)
  | hex (codes : List Nat) (left value : Nat)

/-- A word or a number ends where another character follows. -/
def finish : Begun → Option (List Token)
  | .nothing => some []
  | .word letters => (ofWord (String.ofList letters.reverse)).map ([·])
  | .number chars =>
    if isNumber chars.reverse then some [number (String.ofList chars.reverse)] else none
  | _ => none

def start (c : Char) (tokens : List Token) : Option (Begun × List Token) :=
  if c == ' ' || c == '\t' || c == '\n' || c == '\r' then some (.nothing, tokens)
  else if c == '"' then some (.text [], tokens)
  else if c == '-' || c.isDigit then some (.number [c], tokens)
  else if c.isLower then some (.word [c], tokens)
  else (ofSign c).map fun t => (.nothing, t :: tokens)

/-- The next character, with the tokens so far held latest first. -/
def step : Begun × List Token → Char → Option (Begun × List Token)
  | (.text codes, tokens), c =>
    if c == '"' then
      some (.nothing, string ((pairUp codes.reverse).map String.ofList) :: tokens)
    else if c == '\\' then some (.escape codes, tokens)
    else if c.toNat < 0x20 then none
    else some (.text (c.toNat :: codes), tokens)
  | (.escape codes, tokens), c =>
    if c == 'u' then some (.hex codes 4 0, tokens)
    else (ofEscape c).map fun d => (.text (d.toNat :: codes), tokens)
  | (.hex codes left value, tokens), c => do
    let digit ← hexDigit? c
    let value := value * 16 + digit
    if left ≤ 1 then return (.text (value :: codes), tokens)
    else return (.hex codes (left - 1) value, tokens)
  | (.word letters, tokens), c =>
    if c.isLower then some (.word (c :: letters), tokens)
    else do
      let ended ← finish (.word letters)
      start c (ended ++ tokens)
  | (.number chars, tokens), c =>
    if c.isDigit || c == '.' || c == 'e' || c == 'E' || c == '+' || c == '-' then
      some (.number (c :: chars), tokens)
    else do
      let ended ← finish (.number chars)
      start c (ended ++ tokens)
  | (.nothing, tokens), c => start c tokens

/-- All tokens of a text, or nothing if it is not made of tokens and blanks. -/
def all (text : String) : Option (List Token) := do
  let (begun, tokens) ← text.toList.foldlM step (.nothing, [])
  let ended ← finish begun
  return (ended ++ tokens).reverse

end Token

end Chronicle.Json
