import Chronicle.Proofs.Formula.Grammar

/-!
Brackets around a single tree. They change nothing about the formula that is read, neither around
the whole nor anywhere within it, but for the empty list: by itself it is the empty formula, and in
brackets it is refused.
-/

namespace Chronicle

namespace Tree

open Result

/-- A tree with a place left open. -/
inductive Context where
  | hole
  | within (before : List Tree) (inner : Context) (after : List Tree)

def Context.fill : Context → Tree → Tree
  | hole, tree => tree
  | within before inner after, tree => .list (before ++ inner.fill tree :: after)

/-- Lists, and words that are no keywords. -/
def Bracketable : Tree → Prop
  | name word => ¬ IsKeyword word
  | list _ => True

/-- Trees that are read alike in the same list. -/
structure Interchangeable (s t : Tree) : Prop where
  item : SameOutcome s.readItem t.readItem
  negation : s.isNegation = t.isNegation
  operator : s.operator? = t.operator?

variable {s t tree : Tree}

theorem Interchangeable.refl (tree : Tree) : Interchangeable tree tree := ⟨.refl _, rfl, rfl⟩

/-- A word that stands for no operand stands for none in brackets either. -/
theorem readItem_singleton (tree : Tree) :
    SameOutcome (Tree.list [tree]).readItem tree.readItem := by
  rw [readItem, if_neg (by simp), readOperand]
  split
  case isTrue hnot =>
    cases tree with
    | name word =>
      obtain rfl : word = negationKeyword := eq_of_beq hnot
      exact .inr ⟨_, _, rfl, rfl⟩
    | list items => cases hnot
  case isFalse =>
    cases tree.readItem with
    | error e => exact .inr ⟨e, e, rfl, rfl⟩
    | ok x => exact .inl ⟨x, rfl, rfl⟩

theorem interchangeable_singleton (h : tree.Bracketable) : Interchangeable (.list [tree]) tree := by
  refine ⟨readItem_singleton tree, ?_, ?_⟩
  · cases tree with
    | name word => exact (beq_eq_false_iff_ne.mpr fun hword => h (.inl hword)).symm
    | list items => rfl
  · cases tree with
    | name word => exact (Operator.ofKeyword?_eq_none h).symm
    | list items => rfl

/-- Items may be interchanged one by one. -/
theorem read_congr {items items' : List Tree} (h : List.Forall₂ Interchangeable items items') :
    (∀ w negations, SameOutcome (readOperand w negations items) (readOperand w negations items')) ∧
    ∀ w x, SameOutcome (readOperator w x items) (readOperator w x items') := by
  -- Both states of the reader at once, since each goes on in the other.
  induction h with
  | nil => exact ⟨fun _ _ => .refl _, fun _ _ => .refl _⟩
  | @cons s t _ _ hitem _ ih =>
    obtain ⟨ihOperand, ihOperator⟩ := ih
    constructor
    · intro w negations
      rw [readOperand, readOperand, hitem.negation]
      split
      case isTrue => exact ihOperand w (negations + 1)
      case isFalse =>
        exact hitem.item.bind fun x => (SameOutcome.refl _).bind fun y => ihOperator w y
    · intro w x
      rw [readOperator, readOperator, hitem.operator]
      cases t.operator? with
      | some op => exact (SameOutcome.refl _).bind fun l => ihOperand _ 0
      | none =>
        -- The failures name different items.
        exact (SameOutcome.refl _).bind fun y => .inr ⟨_, _, rfl, rfl⟩

theorem Interchangeable.within (h : Interchangeable s t) (before after : List Tree) :
    Interchangeable (.list (before ++ s :: after)) (.list (before ++ t :: after)) := by
  have hbefore : List.Forall₂ Interchangeable before before :=
    List.forall₂_same.mpr fun item _ => .refl item
  have hafter : List.Forall₂ Interchangeable after after :=
    List.forall₂_same.mpr fun item _ => .refl item
  refine ⟨?_, rfl, rfl⟩
  rw [readItem, readItem, if_neg (by simp), if_neg (by simp)]
  exact (read_congr (List.rel_append hbefore (.cons h hafter))).1 [] 0

theorem Interchangeable.fill (h : Interchangeable s t) (c : Context) :
    Interchangeable (c.fill s) (c.fill t) := by
  induction c with
  | hole => exact h
  | within before inner after ih => exact ih.within before after

theorem Context.fill_ne_nil {c : Context} (hc : c ≠ .hole) (tree : Tree) :
    c.fill tree ≠ .list [] := by
  cases c with
  | hole => exact absurd rfl hc
  | within before inner after => simp [Context.fill]

theorem ofTree_congr (h : SameOutcome s.readItem t.readItem) (hs : s ≠ .list [])
    (ht : t ≠ .list []) : SameOutcome (Formula.ofTree s) (Formula.ofTree t) :=
  (Formula.ofTree_sameOutcome hs).trans
    ((h.map Operand.formula).trans (Formula.ofTree_sameOutcome ht).symm)

end Tree

/-- Brackets make no difference around a tree that is not the empty list. Within a larger tree they
make none around a name or any list. -/
theorem Formula.ofTree_singleton :
    (∀ tree : Tree, tree ≠ .list [] → Result.SameOutcome (ofTree (.list [tree])) (ofTree tree)) ∧
    (∀ (c : Tree.Context) (tree : Tree), c ≠ .hole → tree.Bracketable →
      Result.SameOutcome (ofTree (c.fill (.list [tree]))) (ofTree (c.fill tree))) := by
  constructor
  · intro tree htree
    exact Tree.ofTree_congr (Tree.readItem_singleton tree) (by simp) htree
  · intro c tree hc htree
    have hfill := (Tree.interchangeable_singleton htree).fill c
    exact Tree.ofTree_congr hfill.item (Tree.Context.fill_ne_nil hc _) (Tree.Context.fill_ne_nil hc _)

/-- A place after a negation, two lists deep. -/
def afterNegation : Tree.Context :=
  .within [.name "hot", .name "or"] (.within [.name "not"] .hole [.name "and", .name "wet"])
    [.name "implies", .name "dry"]

def litOrDim : Tree := .list [.name "lit", .name "or", .name "dim"]

theorem litOrDim_bracketed : litOrDim ≠ .list [] ∧ litOrDim.Bracketable ∧ afterNegation ≠ .hole ∧
    (∃ F, Formula.ofTree litOrDim = .ok F ∧ Formula.ofTree (.list [litOrDim]) = .ok F) ∧
    ∃ F, Formula.ofTree (afterNegation.fill litOrDim) = .ok F ∧
      Formula.ofTree (afterNegation.fill (.list [litOrDim])) = .ok F := by
  have hne : litOrDim ≠ .list [] := by simp [litOrDim]
  have hhole : afterNegation ≠ .hole := by simp [afterNegation]
  have hwhole := Formula.ofTree_singleton.1 litOrDim hne
  have hpart := Formula.ofTree_singleton.2 afterNegation litOrDim hhole trivial
  exact ⟨hne, trivial, hhole, ⟨_, rfl, (Result.sameOutcome_iff.mp hwhole _).mpr rfl⟩,
    ⟨_, rfl, (Result.sameOutcome_iff.mp hpart _).mpr rfl⟩⟩

/-- By itself the empty list is the empty formula. As the one element of a list it is refused. -/
theorem emptyList_bracketed : Formula.ofTree (.list []) = .ok .top ∧
    Formula.ofTree (.list [.list []]) = .error (.malformedFormula .emptySubformula) ∧
    ¬ Result.SameOutcome (Formula.ofTree (.list [.list []])) (Formula.ofTree (.list [])) := by
  have htop : Formula.ofTree (.list []) = .ok .top := rfl
  have hfails : Formula.ofTree (.list [.list []]) = .error (.malformedFormula .emptySubformula) :=
    rfl
  refine ⟨htop, hfails, ?_⟩
  rw [htop, hfails, Result.sameOutcome_iff]
  exact fun h => absurd ((h .top).mpr rfl) (by simp)

end Chronicle
