namespace Chronicle.Text

/-- The value of one decimal digit or more. -/
def natOfDigits (cs : List Char) : Option Nat :=
  if cs.isEmpty || !cs.all Char.isDigit then none
  else some (cs.foldl (fun n c => n * 10 + (c.toNat - '0'.toNat)) 0)

/-- A count of at most 64 bits, perhaps after a plus sign. -/
def parseCount (s : String) : Option Nat := do
  let n ← match s.toList with
    | '+' :: cs => natOfDigits cs
    | cs => natOfDigits cs
  if n ≤ 0xFFFFFFFFFFFFFFFF then some n else none

/-- An integer after any sign or none. -/
def parseSigned (s : String) : Option Int :=
  match s.toList with
  | '+' :: cs => (natOfDigits cs).map Int.ofNat
  | '-' :: cs => (natOfDigits cs).map fun n => -Int.ofNat n
  | cs => (natOfDigits cs).map Int.ofNat

end Chronicle.Text
