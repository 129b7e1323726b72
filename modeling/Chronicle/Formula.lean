import Chronicle.Name
import Chronicle.Operator

namespace Chronicle

/-- A propositional formula over fluents. The empty formula `top` is always true. -/
inductive Formula where
  | top
  | atom (f : Fluent)
  | neg (F : Formula)
  | binary (op : Operator) (F G : Formula)
  deriving DecidableEq

namespace Formula

/-- The value of a formula, or the first fluent met that has none. Both sides of an operator are
read, whatever the value of the left one. -/
def eval (value : Fluent → Option Bool) : Formula → Except Fluent Bool
  | top => .ok true
  | atom f =>
    match value f with
    | some b => .ok b
    | none => .error f
  | neg F => do
    let b ← F.eval value
    return !b
  | binary op F G => do
    let l ← F.eval value
    let r ← G.eval value
    return op.apply l r

def atoms : Formula → FluentSet
  | top => ∅
  | atom f => (∅ : FluentSet).insert f ()
  | neg F => F.atoms
  | binary _ F G => F.atoms.union G.atoms

/-- The most operators on a branch, where a leaf counts as one. -/
def depth : Formula → Nat
  | top => 1
  | atom _ => 1
  | neg F => F.depth + 1
  | binary _ F G => max F.depth G.depth + 1

def isTop : Formula → Bool
  | top => true
  | _ => false

/-- Conjunction, of which `top` is the identity on either side. -/
def conjoin (F G : Formula) : Formula :=
  if F.isTop then G else if G.isTop then F else binary .and F G

def conjunction (Fs : List Formula) : Formula := Fs.foldl conjoin top

/-- An atom, or its negation where `value` is false. -/
def literal (f : Fluent) (value : Bool) : Formula :=
  if value then atom f else neg (atom f)

/-- The pieces of the written form, in order, before `rest`. -/
def pieces : Formula → List String → List String
  | top, rest => "⊤" :: rest
  | atom f, rest => f.name :: rest
  | neg F, rest => "not " :: F.pieces rest
  | binary op F G, rest =>
    "(" :: F.pieces (" " :: op.keyword :: " " :: G.pieces (")" :: rest))

def render (F : Formula) : String := String.join (F.pieces [])

end Formula

end Chronicle
