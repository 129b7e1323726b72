import Chronicle.Proofs.Formula.Grammar

/-!
Where the limit on depth falls. What the grammar derives is read as it is or refused as too deep,
and for no other cause. A leaf counts as a level, and so a branch with as many operators as the
limit is too deep already.
-/

namespace Chronicle

namespace Formula

/-- The branches of a formula, each by the operators on the way to its leaf. -/
inductive Branch : Formula → Nat → Prop
  | top : Branch top 0
  | atom {f : Fluent} : Branch (atom f) 0
  | neg {F : Formula} {n : Nat} (h : Branch F n) : Branch (neg F) (n + 1)
  | left {op : Operator} {F G : Formula} {n : Nat} (h : Branch F n) :
      Branch (binary op F G) (n + 1)
  | right {op : Operator} {F G : Formula} {n : Nat} (h : Branch G n) :
      Branch (binary op F G) (n + 1)

variable {tree : Tree} {F : Formula} {n : Nat}

theorem Branch.le_nesting (h : F.Branch n) : n ≤ F.nesting := by
  induction h with
  | top => exact Nat.le_refl 0
  | atom => exact Nat.le_refl 0
  | neg _ ih => exact Nat.succ_le_succ ih
  | left _ ih => exact Nat.succ_le_succ (Nat.le_trans ih (Nat.le_max_left _ _))
  | right _ ih => exact Nat.succ_le_succ (Nat.le_trans ih (Nat.le_max_right _ _))

theorem branch_nesting (F : Formula) : F.Branch F.nesting := by
  induction F with
  | top => exact .top
  | atom => exact .atom
  | neg F ih => exact ih.neg
  | binary op F G ihF ihG =>
    rw [nesting]
    rcases Nat.le_total F.nesting G.nesting with hle | hle
    · rw [Nat.max_eq_right hle]
      exact ihG.right
    · rw [Nat.max_eq_left hle]
      exact ihF.left

theorem exists_branch_iff : (∃ m, F.Branch m ∧ n ≤ m) ↔ n ≤ F.nesting := by
  constructor
  · intro h
    obtain ⟨m, hbranch, hle⟩ := h
    exact Nat.le_trans hle hbranch.le_nesting
  · intro h
    exact ⟨F.nesting, F.branch_nesting, h⟩

theorem forall_branch_lt_iff : (∀ m, F.Branch m → m < n) ↔ F.nesting < n := by
  constructor
  · intro h
    exact h F.nesting F.branch_nesting
  · intro h m hbranch
    exact Nat.lt_of_le_of_lt hbranch.le_nesting h

theorem ofTree_of_isOperand (h : tree.IsOperand F) :
    ofTree tree = (Operand.ofFormula? F).map Operand.formula := by
  rw [← h.readItem_eq]
  cases h with
  | name hword => exact ofTree_name (Operator.ofKeyword?_eq_none hword)
  | list hphrase => exact ofTree_list hphrase.ne_nil

theorem ofTree_eq_of_derives (h : tree.Derives F) :
    ofTree tree = if F.nesting < depthLimit then .ok F
      else .error (.malformedFormula .tooDeep) := by
  cases h with
  | top => rfl
  | operand h =>
    have hdepth : F.depth ≤ depthLimit ↔ F.nesting < depthLimit := by
      rw [F.depth_eq]
      exact Nat.succ_le_iff
    rw [ofTree_of_isOperand h, Operand.ofFormula?]
    simp only [hdepth]
    split
    case isTrue => rfl
    case isFalse => rfl

/-- A tree that derives a formula is read as that formula if every branch has fewer operators than
the limit. It is refused as too deep exactly if some branch has at least as many, and never for
another cause. -/
theorem ofTree_of_derives (h : tree.Derives F) :
    ((∀ n, F.Branch n → n < depthLimit) → ofTree tree = .ok F) ∧
    (ofTree tree = .error (.malformedFormula .tooDeep) ↔ ∃ n, F.Branch n ∧ depthLimit ≤ n) ∧
    (∀ e, ofTree tree = .error e → e = .malformedFormula .tooDeep) ∧
    Malformation.tooDeep.message = "operators nested deeper than 1024" := by
  rw [forall_branch_lt_iff, exists_branch_iff, ofTree_eq_of_derives h, ← Nat.not_lt]
  refine ⟨fun hlt => if_pos hlt, ?_, ?_, by decide⟩
  · by_cases hlt : F.nesting < depthLimit
    · simp [hlt]
    · simp [hlt]
  · intro e he
    split at he
    case isTrue => cases he
    case isFalse => exact (Except.error.inj he).symm

end Formula

/-- A name after some number of negations. -/
def negatedTree (n : Nat) : Tree := .list (List.replicate n (.name "not") ++ [.name "lit"])

def negatedFormula : Nat → Formula
  | 0 => .atom ⟨"lit"⟩
  | n + 1 => .neg (negatedFormula n)

theorem nesting_negatedFormula (n : Nat) : (negatedFormula n).nesting = n := by
  induction n with
  | zero => rfl
  | succ n ih => rw [negatedFormula, Formula.nesting, ih]

theorem negatedTree_derives (n : Nat) : (negatedTree n).Derives (negatedFormula n) := by
  have hlit : ¬ IsKeyword "lit" := by
    rw [isKeyword_iff]
    decide
  have h : Tree.Negated (List.replicate n (.name "not") ++ [.name "lit"]) (negatedFormula n) := by
    induction n with
    | zero => exact .operand (.name hlit)
    | succ n ih => exact .not ih
  exact .operand (.list (.mono (.negated h) (Nat.zero_le _)))

/-- With one operator fewer than the limit the formula is read. -/
theorem negatedTree_read : (negatedTree 1023).Derives (negatedFormula 1023) ∧
    Formula.ofTree (negatedTree 1023) = .ok (negatedFormula 1023) := by
  have hderives := negatedTree_derives 1023
  refine ⟨hderives, (Formula.ofTree_of_derives hderives).1 ?_⟩
  rw [Formula.forall_branch_lt_iff, nesting_negatedFormula]
  decide

/-- With as many operators as the limit the formula is refused, though no branch has more. -/
theorem negatedTree_refused : (negatedTree 1024).Derives (negatedFormula 1024) ∧
    (∀ n, (negatedFormula 1024).Branch n → n ≤ depthLimit) ∧
    Formula.ofTree (negatedTree 1024) = .error (.malformedFormula .tooDeep) := by
  have hderives := negatedTree_derives 1024
  refine ⟨hderives, ?_, ?_⟩
  · intro n hbranch
    have hle := hbranch.le_nesting
    rwa [nesting_negatedFormula] at hle
  · rw [Formula.ofTree_eq_of_derives hderives, nesting_negatedFormula]
    rfl

end Chronicle
