/-!
Finite maps kept in key order. The order is part of the type, so maps that give the same values are
equal, and listing one needs no sorting.
-/

namespace Chronicle

/-- A strict order in which any two different elements are comparable. -/
class StrictOrder (κ : Type) [LT κ] : Prop where
  irrefl (a : κ) : ¬ a < a
  trans {a b c : κ} : a < b → b < c → a < c
  connected (a b : κ) : a < b ∨ a = b ∨ b < a

instance : StrictOrder Int where
  irrefl := Int.lt_irrefl
  trans := Int.lt_trans
  connected a b := by omega

namespace SortedMap

section Lookup

variable {κ α : Type} [DecidableEq κ]

def lookup (k : κ) : List (κ × α) → Option α
  | [] => none
  | (k', a) :: rest => if k = k' then some a else lookup k rest

theorem lookup_isSome {k : κ} {es : List (κ × α)} :
    (lookup k es).isSome ↔ k ∈ es.map Prod.fst := by
  induction es with
  | nil => simp [lookup]
  | cons e rest ih =>
    by_cases h : k = e.1
    · simp [lookup, h]
    · simp [lookup, h, ih]

end Lookup

end SortedMap

/-- Entries in strictly increasing order of their keys. -/
structure SortedMap (κ α : Type) [LT κ] where
  entries : List (κ × α)
  ordered : (entries.map Prod.fst).Pairwise (· < ·)
  deriving DecidableEq

namespace SortedMap

variable {κ α : Type} [LT κ]

instance : EmptyCollection (SortedMap κ α) := ⟨⟨[], .nil⟩⟩

instance : Inhabited (SortedMap κ α) := ⟨∅⟩

def keys (m : SortedMap κ α) : List κ := m.entries.map Prod.fst

def size (m : SortedMap κ α) : Nat := m.entries.length

instance : Membership κ (SortedMap κ α) := ⟨fun m k => k ∈ m.keys⟩

theorem mem_iff {m : SortedMap κ α} {k : κ} : k ∈ m ↔ k ∈ m.keys := Iff.rfl

/-- The entries whose keys pass a test. -/
def filterKeys (keep : κ → Bool) (m : SortedMap κ α) : SortedMap κ α where
  entries := m.entries.filter fun e => keep e.1
  ordered := m.ordered.sublist (List.filter_sublist.map Prod.fst)

variable [DecidableEq κ]

instance (m : SortedMap κ α) (k : κ) : Decidable (k ∈ m) :=
  inferInstanceAs (Decidable (k ∈ m.keys))

def get? (m : SortedMap κ α) (k : κ) : Option α := lookup k m.entries

theorem get?_isSome {m : SortedMap κ α} {k : κ} : (m.get? k).isSome ↔ k ∈ m := lookup_isSome

theorem get?_eq_none {m : SortedMap κ α} {k : κ} : m.get? k = none ↔ k ∉ m := by
  rw [← get?_isSome]
  cases m.get? k <;> simp

@[simp] theorem get?_empty (k : κ) : (∅ : SortedMap κ α).get? k = none := rfl

section Insert

variable [DecidableLT κ]

/-- Puts an entry before the first greater key, and in place of an equal one. -/
def place (k : κ) (a : α) : List (κ × α) → List (κ × α)
  | [] => [(k, a)]
  | (k', a') :: rest =>
    if k < k' then (k, a) :: (k', a') :: rest
    else if k = k' then (k, a) :: rest
    else (k', a') :: place k a rest

theorem mem_keys_place {k k' : κ} {a : α} {es : List (κ × α)}
    (h : k' ∈ (place k a es).map Prod.fst) : k' = k ∨ k' ∈ es.map Prod.fst := by
  induction es with
  | nil => simpa [place] using h
  | cons e rest ih =>
    unfold place at h
    split at h
    · simpa using h
    · split at h
      · simp only [List.map_cons, List.mem_cons] at h ⊢
        exact h.imp_right .inr
      · simp only [List.map_cons, List.mem_cons] at h ⊢
        exact h.elim (fun h => .inr (.inl h)) fun h => (ih h).imp_right .inr

theorem lookup_place (k k' : κ) (a : α) (es : List (κ × α)) :
    lookup k' (place k a es) = if k' = k then some a else lookup k' es := by
  induction es with
  | nil => rfl
  | cons e rest ih =>
    unfold place
    split
    · rfl
    · split
      case isTrue he => by_cases h : k' = k <;> simp [lookup, h, ← he]
      case isFalse he =>
        by_cases h : k' = e.1
        · have hne : ¬ k' = k := fun h' => he (h' ▸ h)
          rw [if_neg hne]
          simp [lookup, h]
        · simp [lookup, h, ih]

variable [StrictOrder κ]

theorem place_ordered (k : κ) (a : α) {es : List (κ × α)}
    (h : (es.map Prod.fst).Pairwise (· < ·)) :
    ((place k a es).map Prod.fst).Pairwise (· < ·) := by
  induction es with
  | nil => simp [place]
  | cons e rest ih =>
    have hr := List.pairwise_cons.1 h
    unfold place
    split
    case isTrue hlt =>
      refine List.pairwise_cons.2 ⟨fun k' hk' => ?_, h⟩
      rcases List.mem_cons.1 hk' with rfl | hk'
      · exact hlt
      · exact StrictOrder.trans hlt (hr.1 _ hk')
    case isFalse hlt =>
      split
      case isTrue he => exact he ▸ h
      case isFalse he =>
        refine List.pairwise_cons.2 ⟨fun k' hk' => ?_, ih hr.2⟩
        rcases mem_keys_place hk' with rfl | hk'
        · exact (StrictOrder.connected k' e.1).resolve_left hlt |>.resolve_left he
        · exact hr.1 _ hk'

def insert (m : SortedMap κ α) (k : κ) (a : α) : SortedMap κ α :=
  ⟨place k a m.entries, place_ordered k a m.ordered⟩

theorem get?_insert (m : SortedMap κ α) (k k' : κ) (a : α) :
    (m.insert k a).get? k' = if k' = k then some a else m.get? k' :=
  lookup_place k k' a m.entries

/-- Later entries replace earlier ones of the same key. -/
def ofList (es : List (κ × α)) : SortedMap κ α :=
  es.foldl (fun m e => m.insert e.1 e.2) ∅

/-- Adds entries one by one. A key that is there already is refused. -/
def addDistinct {ε : Type} (refuse : κ → ε) (m : SortedMap κ α) :
    List (κ × α) → Except ε (SortedMap κ α)
  | [] => .ok m
  | (k, a) :: rest => if k ∈ m then .error (refuse k) else addDistinct refuse (m.insert k a) rest

/-- The entries of both maps, those of the first where they share a key. -/
def union (m n : SortedMap κ α) : SortedMap κ α :=
  m.entries.foldr (fun e u => u.insert e.1 e.2) n

theorem get?_union (m n : SortedMap κ α) (k : κ) :
    (m.union n).get? k = (m.get? k).or (n.get? k) := by
  obtain ⟨es, _⟩ := m
  have h (es : List (κ × α)) :
      (es.foldr (fun e u => insert u e.1 e.2) n).get? k = (lookup k es).or (n.get? k) := by
    induction es with
    | nil => rfl
    | cons e rest ih =>
      rw [List.foldr_cons, get?_insert, ih]
      by_cases hk : k = e.1 <;> simp [lookup, hk]
  exact h es

end Insert

variable [StrictOrder κ]

/-- Maps that give the same values are equal. -/
theorem ext_get? {m n : SortedMap κ α} (h : ∀ k, m.get? k = n.get? k) : m = n := by
  obtain ⟨es, ho⟩ := m
  obtain ⟨fs, hp⟩ := n
  have same : es = fs := by
    change ∀ k, lookup k es = lookup k fs at h
    induction es generalizing fs with
    | nil =>
      cases fs with
      | nil => rfl
      | cons f fs => simpa [lookup] using h f.1
    | cons e es ih =>
      cases fs with
      | nil => simpa [lookup] using h e.1
      | cons f fs =>
        have he := List.pairwise_cons.1 ho
        have hf := List.pairwise_cons.1 hp
        have heads : e.1 = f.1 := by
          have above {g : κ × α} {gs : List (κ × α)} (k : κ)
              (hg : ∀ k' ∈ gs.map Prod.fst, g.1 < k') (hs : (lookup k (g :: gs)).isSome) :
              k = g.1 ∨ g.1 < k :=
            (List.mem_cons.1 (lookup_isSome.1 hs)).imp_right (hg k)
          have h1 := above e.1 hf.1 (by rw [← h]; simp [lookup])
          have h2 := above f.1 he.1 (by rw [h]; simp [lookup])
          rcases h1 with h1 | h1
          · exact h1
          · rcases h2 with h2 | h2
            · exact h2.symm
            · exact absurd (StrictOrder.trans h1 h2) (StrictOrder.irrefl _)
        have values : e.2 = f.2 := by
          have hv := h e.1
          simpa [lookup, heads] using hv
        have tails : es = fs := by
          refine ih he.2 fs hf.2 fun k => ?_
          by_cases hk : k = e.1
          · have out {g : κ} {gs : List (κ × α)} (hg : ∀ k' ∈ gs.map Prod.fst, g < k') :
                lookup g gs = none := by
              cases hl : lookup g gs with
              | none => rfl
              | some a =>
                exact absurd (hg g (lookup_isSome.1 (by simp [hl]))) (StrictOrder.irrefl g)
            rw [hk, out he.1, heads, out hf.1]
          · have hv := h k
            rwa [lookup, lookup, if_neg hk, if_neg (heads ▸ hk)] at hv
        rw [tails, Prod.ext heads values]
  subst same
  rfl

end SortedMap

end Chronicle
