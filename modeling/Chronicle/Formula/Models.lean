import Chronicle.Valuation

namespace Chronicle

/-- No more fluents than this are enumerated, whatever limit is set. -/
def enumerationLimit : Nat := 63

/-- The limit on fluents to enumerate that a set limit amounts to. -/
def effectiveLimit (atomLimit : Nat) : Nat := min atomLimit enumerationLimit

/-- What the enumeration counts in. -/
abbrev Word := UInt64

namespace Word

/-- The word of which this bit alone is set. Shifts count modulo the 64 bits of a word. -/
def single (i : Nat) : Word := 1 <<< i.toUInt64

def test (w : Word) (i : Nat) : Bool := w &&& single i != 0

end Word

namespace Valuation

/-- Pairs each fluent with a bit of a word, the first with the lowest. -/
def pairBits (fs : List Fluent) (w : Word) : List (Fluent × Bool) :=
  fs.zipIdx.map fun (f, i) => (f, w.test i)

theorem keys_pairBits (fs : List Fluent) (w : Word) : (pairBits fs w).map Prod.fst = fs := by
  rw [pairBits, List.map_map]
  exact List.zipIdx_map_fst 0 fs

/-- The valuation of exactly these fluents that the bits of a word say. -/
def ofBits (s : FluentSet) (w : Word) : Valuation where
  entries := pairBits s.keys w
  ordered := by
    rw [keys_pairBits]
    exact s.ordered

/-- The valuations of exactly these fluents, counting up in binary. -/
def all (s : FluentSet) : List Valuation :=
  (List.range (Word.single s.size).toNat).map fun n => ofBits s n.toUInt64

/-- A valuation with all values for some fluents, which it does not value itself. -/
def extensions (v : Valuation) (s : FluentSet) : Except LogicError (List Valuation) :=
  (all s).mapM fun w => ofDistinct (v.entries ++ w.entries)

end Valuation

namespace Formula

/-- The valuations of the atoms of a formula on which it is true. -/
def models (F : Formula) (atomLimit : Nat) : Except Error (List Valuation) :=
  if F.atoms.size > effectiveLimit atomLimit then
    .error (.limit (.atoms F.atoms.size (effectiveLimit atomLimit)))
  else
    ((Valuation.all F.atoms).filterM fun v : Valuation => v.eval F).mapError .logic

end Formula

end Chronicle
