import Chronicle.Statement

/-!
Histories that share their beginnings. Each node of the forest is one entry of a history, and the
history of a node runs from its root down to it. A node knows its parent and counts its children,
so that cutting one history off leaves what others share.
-/

namespace Chronicle

/-- What a history records at one time: an observation, and the event that led to it. The first
entry of a history has no event. -/
structure Entry where
  time : Time
  observation : Valuation
  firing : Option Event
  deriving DecidableEq

/-- A place in the forest. No place is used twice. -/
abbrev NodeId := Nat

structure Node where
  parent : Option NodeId
  children : Nat
  entry : Entry

/-- The nodes by their keys. The slot of a node that has been cut off stays empty. -/
structure Forest where
  slots : Array (Option Node)

namespace Forest

def empty : Forest := ⟨#[]⟩

def node? (f : Forest) (k : NodeId) : Option Node := f.slots[k]?.join

/-- The number of nodes that have not been cut off. -/
def size (f : Forest) : Nat := f.slots.countP Option.isSome

def isEmpty (f : Forest) : Bool := f.size == 0

/-- A new history of a single entry. -/
def root (f : Forest) (t : Time) (o : Valuation) : Forest × NodeId :=
  let k := f.slots.size
  (⟨f.slots.push (some ⟨none, 0, ⟨t, o, none⟩⟩)⟩, k)

def adjustChildren (f : Forest) (k : NodeId) (change : Nat → Nat) : Forest :=
  ⟨f.slots.modify k (Option.map fun n => { n with children := change n.children })⟩

/-- The history of `k` with one more entry. -/
def extend (f : Forest) (k : NodeId) (t : Time) (o : Valuation) (firing : Event) :
    Forest × NodeId :=
  let k' := f.slots.size
  (⟨(f.adjustChildren k (· + 1)).slots.push (some ⟨some k, 0, ⟨t, o, some firing⟩⟩)⟩, k')

def remove (f : Forest) (k : NodeId) : Forest := ⟨f.slots.setIfInBounds k none⟩

/-!
The slots stand for a map that gives out its keys itself, and what follows are the laws of such a
map that histories rely on. The next key is the number of slots, which no operation takes back: a
key is fresh when it is given out, and what is removed is not found again by the same key.
-/

section Laws

variable {f : Forest}

/-- A key that has not been given out leads nowhere. -/
theorem node?_of_size_le {k : NodeId} (h : f.slots.size ≤ k) : f.node? k = none := by
  simp [node?, Array.getElem?_eq_none h]

theorem lt_of_node? {k : NodeId} {n : Node} (h : f.node? k = some n) : k < f.slots.size := by
  refine Nat.lt_of_not_le fun hle => ?_
  rw [node?_of_size_le hle] at h
  cases h

theorem node?_empty (k : NodeId) : empty.node? k = none := node?_of_size_le (Nat.zero_le k)

variable (f)

theorem key_root (t : Time) (o : Valuation) : (f.root t o).2 = f.slots.size := rfl

theorem key_extend (k : NodeId) (t : Time) (o : Valuation) (e : Event) :
    (f.extend k t o e).2 = f.slots.size := rfl

theorem size_slots_root (t : Time) (o : Valuation) :
    (f.root t o).1.slots.size = f.slots.size + 1 := by
  simp [root]

theorem size_slots_adjustChildren (k : NodeId) (change : Nat → Nat) :
    (f.adjustChildren k change).slots.size = f.slots.size := by
  simp [adjustChildren]

theorem size_slots_extend (k : NodeId) (t : Time) (o : Valuation) (e : Event) :
    (f.extend k t o e).1.slots.size = f.slots.size + 1 := by
  simp [extend, size_slots_adjustChildren]

theorem size_slots_remove (k : NodeId) : (f.remove k).slots.size = f.slots.size := by
  simp [remove]

theorem node?_root (t : Time) (o : Valuation) (j : NodeId) :
    (f.root t o).1.node? j =
      if j = f.slots.size then some ⟨none, 0, ⟨t, o, none⟩⟩ else f.node? j := by
  simp only [node?, root, Array.getElem?_push]
  split <;> rfl

theorem node?_adjustChildren (k : NodeId) (change : Nat → Nat) (j : NodeId) :
    (f.adjustChildren k change).node? j =
      if j = k then (f.node? j).map fun n => { n with children := change n.children }
      else f.node? j := by
  simp only [node?, adjustChildren, Array.getElem?_modify, eq_comm (a := k)]
  split
  · cases f.slots[j]? <;> simp
  · rfl

theorem node?_extend (k : NodeId) (t : Time) (o : Valuation) (e : Event) (j : NodeId) :
    (f.extend k t o e).1.node? j =
      if j = f.slots.size then some ⟨some k, 0, ⟨t, o, some e⟩⟩
      else if j = k then (f.node? j).map fun n => { n with children := n.children + 1 }
      else f.node? j := by
  rw [← node?_adjustChildren f k (· + 1)]
  simp only [node?, extend, Array.getElem?_push, size_slots_adjustChildren]
  split <;> rfl

theorem node?_remove (k j : NodeId) :
    (f.remove k).node? j = if j = k then none else f.node? j := by
  simp only [node?, remove, Array.getElem?_setIfInBounds, eq_comm (a := k)]
  by_cases h : j = k
  · subst h
    by_cases hj : j < f.slots.size <;> simp [hj]
  · simp [h]

/-- The forest is as large as there are keys that a node is found by. -/
theorem size_eq : f.size =
    ((List.range f.slots.size).filter fun k => (f.node? k).isSome).length := by
  have hlist : f.slots.toList = (List.range f.slots.size).map f.node? := by
    refine List.ext_getElem (by simp) fun k hk hk' => ?_
    have hlt : k < f.slots.size := hk
    simp [node?, hlt]
  rw [size, ← Array.countP_toList, hlist, List.countP_map, List.countP_eq_length_filter]
  rfl

variable {f}

/-- A key that was given out and leads nowhere leads nowhere afterwards. -/
theorem live_of_root {t : Time} {o : Valuation} {j : NodeId} (hj : j < f.slots.size)
    (h : ((f.root t o).1.node? j).isSome) : (f.node? j).isSome := by
  rwa [node?_root, if_neg (Nat.ne_of_lt hj)] at h

theorem live_of_extend {k : NodeId} {t : Time} {o : Valuation} {e : Event} {j : NodeId}
    (hj : j < f.slots.size) (h : ((f.extend k t o e).1.node? j).isSome) : (f.node? j).isSome := by
  rw [node?_extend, if_neg (Nat.ne_of_lt hj)] at h
  split at h
  · simpa using h
  · exact h

end Laws

/-- Cuts off a node without children, and each ancestor that this leaves without children. Parents
come before their children, so the walk ends. -/
def prune (f : Forest) (k : NodeId) : Forest :=
  match f.node? k with
  | none => f
  | some n =>
    if n.children > 0 then f
    else
      match n.parent with
      | none => f.remove k
      | some p =>
        let rest := (f.remove k).adjustChildren p (· - 1)
        if p < k then rest.prune p else rest
termination_by k

def latest (f : Forest) (k : NodeId) : Option Entry := (f.node? k).map Node.entry

/-- The entries of a history, from the latest back to the first. -/
def ancestry (f : Forest) (k : NodeId) : List Entry :=
  match f.node? k with
  | none => []
  | some n =>
    n.entry ::
      match n.parent with
      | none => []
      | some p => if p < k then f.ancestry p else []
termination_by k

def path (f : Forest) (k : NodeId) : List Entry := (f.ancestry k).reverse

/-- The latest entry at a time or before it. -/
def latestAt (f : Forest) (k : NodeId) (t : Time) : Option Entry :=
  (f.ancestry k).find? (·.time ≤ t)

def predecessor (f : Forest) (k : NodeId) : Option Entry :=
  (f.node? k).bind Node.parent |>.bind f.latest

end Forest

end Chronicle
