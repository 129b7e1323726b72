import Chronicle.Proofs.Depth

/-!
The grammar of formulas, level by level, and the reader that accepts just what it derives within the
limit on depth. The operands that wait in the reader are the left sides of operators whose right
sides are still to come.
-/

namespace Chronicle

/-- Words for operators, with the levels at which they bind. The higher the level, the tighter. -/
inductive Operator.Binds : String → Operator → Nat → Prop
  | and : Binds "and" and 4
  | or : Binds "or" or 3
  | implies : Binds "implies" implies 2
  | iff : Binds "iff" iff 1
  | ifAndOnlyIf : Binds "if and only if" iff 1

/-- Negation binds tighter than every operator. -/
def negationPrecedence : Nat := 5

/-- Words that stand for negation or an operator. -/
def IsKeyword (word : String) : Prop := word = "not" ∨ ∃ op level, Operator.Binds word op level

theorem Operator.precedence_lt (op : Operator) : op.precedence < negationPrecedence := by
  cases op <;> decide

theorem Operator.binds_iff {word : String} {op : Operator} {level : Nat} :
    Binds word op level ↔ ofKeyword? word = some op ∧ level = op.precedence := by
  constructor
  · intro h
    cases h <;> exact ⟨rfl, rfl⟩
  · intro h
    obtain ⟨hop, rfl⟩ := h
    unfold ofKeyword? at hop
    split at hop
    · exact Option.some.inj hop ▸ .and
    · exact Option.some.inj hop ▸ .or
    · exact Option.some.inj hop ▸ .implies
    · exact Option.some.inj hop ▸ .iff
    · exact Option.some.inj hop ▸ .ifAndOnlyIf
    · cases hop

theorem isKeyword_iff (word : String) : IsKeyword word ↔ isReserved word = true := by
  simp [IsKeyword, isReserved, negationKeyword, Operator.binds_iff, Option.isSome_iff_exists]

theorem Fluent.ofWord_eq_ok {word : String} {f : Fluent} :
    Fluent.ofWord word = .ok f ↔ ¬ IsKeyword word ∧ f = ⟨word⟩ := by
  rw [Fluent.ofWord, isKeyword_iff]
  cases isReserved word <;> simp [eq_comm]

theorem Operator.ofKeyword?_eq_none {word : String} (h : ¬ IsKeyword word) :
    ofKeyword? word = none := by
  rw [Option.eq_none_iff_forall_ne_some]
  intro op hop
  exact h (.inr ⟨op, op.precedence, binds_iff.mpr ⟨hop, rfl⟩⟩)

section Operands

variable {F G : Formula} {op : Operator} {x y z : Operand}

theorem Operand.formula_negate (h : x.negate = .ok y) : y.formula = .neg x.formula := by
  rw [negate] at h
  split at h
  case isTrue => rw [← Except.ok.inj h]
  case isFalse => cases h

theorem Operand.formula_apply (h : Operand.apply op x y = .ok z) :
    z.formula = .binary op x.formula y.formula := by
  rw [apply] at h
  split at h
  case isTrue => rw [← Except.ok.inj h]
  case isFalse => cases h

/-- A formula as the reader keeps it. -/
def Operand.ofFormula (F : Formula) : Operand := ⟨F, F.depth⟩

/-- A formula as the reader keeps it, or its refusal where the formula is too deep. -/
def Operand.ofFormula? (F : Formula) : Except ParseError Operand :=
  if F.depth ≤ depthLimit then .ok (ofFormula F) else .error (.malformedFormula .tooDeep)

theorem Operand.ofFormula?_of_le (h : F.depth ≤ depthLimit) :
    ofFormula? F = .ok (ofFormula F) :=
  if_pos h

theorem Operand.ofFormula?_neg (F : Formula) : ofFormula? F.neg = ofFormula? F >>= negate := by
  by_cases hF : F.depth ≤ depthLimit
  · rw [ofFormula?_of_le hF]
    rfl
  · have hneg : ¬ F.neg.depth ≤ depthLimit := fun h => hF (Nat.le_of_succ_le h)
    rw [ofFormula?, ofFormula?, if_neg hF, if_neg hneg]
    rfl

theorem Operand.ofFormula?_binary (op : Operator) (F G : Formula) :
    ofFormula? (.binary op F G) =
      ofFormula? F >>= fun x => ofFormula? G >>= fun y => apply op x y := by
  by_cases hboth : max F.depth G.depth ≤ depthLimit
  · obtain ⟨hF, hG⟩ := Nat.max_le.mp hboth
    rw [ofFormula?_of_le hF, ofFormula?_of_le hG]
    rfl
  · have hbinary : ¬ (Formula.binary op F G).depth ≤ depthLimit :=
      fun h => hboth (Nat.le_of_succ_le h)
    have hside : ¬ F.depth ≤ depthLimit ∨ ¬ G.depth ≤ depthLimit :=
      Decidable.not_and_iff_not_or_not.mp fun h => hboth (Nat.max_le.mpr h)
    rw [ofFormula?, if_neg hbinary]
    by_cases hF : F.depth ≤ depthLimit
    · rw [ofFormula?_of_le hF, ofFormula?, if_neg (hside.resolve_left (not_not_intro hF))]
      rfl
    · rw [ofFormula?, if_neg hF]
      rfl

theorem Waiting.reduce_of_lt {w : Waiting} {floor : Nat} (h : ∀ l ∈ w, l.2.precedence < floor)
    (x : Operand) : w.reduce floor x = .ok (w, x) := by
  cases w with
  | nil => rfl
  | cons l rest =>
    have hlt : ¬ floor ≤ l.2.precedence := Nat.not_le.mpr (h l List.mem_cons_self)
    rw [reduce, if_neg hlt]

theorem Waiting.reduce_cons {w : Waiting} {floor : Nat} (hfloor : floor ≤ op.precedence) :
    reduce floor ((x, op) :: w) y = Operand.apply op x y >>= w.reduce floor := by
  rw [reduce, if_pos hfloor]

end Operands

namespace Tree

mutual

/-- What stands between operators: a word that is no keyword, or a list that is read by itself. -/
inductive IsOperand : Tree → Formula → Prop
  | name {word : String} (h : ¬ IsKeyword word) : IsOperand (name word) (.atom ⟨word⟩)
  | list {items : List Tree} {F : Formula} (h : Phrase 0 items F) : IsOperand (list items) F

/-- An operand after any number of negations. -/
inductive Negated : List Tree → Formula → Prop
  | operand {item : Tree} {F : Formula} (h : IsOperand item F) : Negated [item] F
  | not {items : List Tree} {F : Formula} (h : Negated items F) :
      Negated (name "not" :: items) (.neg F)

/-- Items whose operators, but for those in brackets, bind at least as tightly as the level. What
stands to the right of an operator binds tighter than it, so that operators of one precedence
associate to the left. -/
inductive Phrase : Nat → List Tree → Formula → Prop
  | negated {items : List Tree} {F : Formula} (h : Negated items F) :
      Phrase negationPrecedence items F
  | tighter {level : Nat} {items : List Tree} {F : Formula} (h : Phrase (level + 1) items F) :
      Phrase level items F
  | binary {word : String} {op : Operator} {level : Nat} {left right : List Tree} {F G : Formula}
      (hop : Operator.Binds word op level) (hl : Phrase level left F)
      (hr : Phrase (level + 1) right G) : Phrase level (left ++ name word :: right) (.binary op F G)

end

/-- The formula of a tree by the grammar. An empty list stands for a formula only by itself. -/
inductive Derives : Tree → Formula → Prop
  | top : Derives (list []) .top
  | operand {tree : Tree} {F : Formula} (h : IsOperand tree F) : Derives tree F

theorem Phrase.mono {floor level : Nat} {items : List Tree} {F : Formula}
    (h : Phrase level items F) (hle : floor ≤ level) : Phrase floor items F := by
  induction hle with
  | refl => exact h
  | step _ ih => exact ih h.tighter

mutual

theorem IsOperand.not_keyword {f : Fluent} :
    ∀ {tree : Tree} {F : Formula}, IsOperand tree F → f ∈ F.atoms → ¬ IsKeyword f.name
  | _, _, .name h, hf => by
    obtain rfl := (Formula.mem_atoms_atom _ _).mp hf
    exact h
  | _, _, .list h, hf => h.not_keyword hf

theorem Negated.not_keyword {f : Fluent} :
    ∀ {items : List Tree} {F : Formula}, Negated items F → f ∈ F.atoms → ¬ IsKeyword f.name
  | _, _, .operand h, hf => h.not_keyword hf
  | _, _, .not h, hf => h.not_keyword hf

theorem Phrase.not_keyword {f : Fluent} :
    ∀ {level : Nat} {items : List Tree} {F : Formula},
      Phrase level items F → f ∈ F.atoms → ¬ IsKeyword f.name
  | _, _, _, .negated h, hf => h.not_keyword hf
  | _, _, _, .tighter h, hf => h.not_keyword hf
  | _, _, _, .binary _ hl hr, hf =>
    ((Formula.mem_atoms_binary _ _ _ _).mp hf).elim hl.not_keyword hr.not_keyword

end

theorem Derives.not_keyword {tree : Tree} {F : Formula} (h : tree.Derives F) {f : Fluent}
    (hf : f ∈ F.atoms) : ¬ IsKeyword f.name := by
  cases h with
  | top => exact absurd hf (Formula.not_mem_atoms_top f)
  | operand h => exact h.not_keyword hf

section Sound

variable {x y z : Operand} {w w' : Waiting} {op : Operator} {items right : List Tree}

/-- The items before an operand, by what waits there. The operators that wait bind less tightly than
the level, and each less tightly than those after it. -/
inductive Awaiting : Nat → List Tree → Waiting → Prop
  | nil {level : Nat} : Awaiting level [] []
  | cons {level : Nat} {word : String} {op : Operator} {items left : List Tree} {w : Waiting}
      {l : Operand} (h : Awaiting op.precedence items w) (hlt : op.precedence < level)
      (hop : Operator.ofKeyword? word = some op) (hl : Phrase op.precedence left l.formula) :
      Awaiting level (items ++ (left ++ [name word])) ((l, op) :: w)

theorem Negated.negateTimes {n : Nat} (hx : Negated items x.formula)
    (h : x.negateTimes n = .ok y) :
    Negated (List.replicate n (name negationKeyword) ++ items) y.formula := by
  induction n generalizing items x with
  | zero => exact Except.ok.inj h ▸ hx
  | succ n ih =>
    obtain ⟨z, hz, h⟩ := (Result.bind_eq_ok _ _ _).mp h
    have hmore := ih (Operand.formula_negate hz ▸ hx.not) h
    rwa [List.replicate_succ', List.append_assoc]

/-- Applying operators that wait takes their left sides into the phrase on the right. -/
theorem Awaiting.reduce {floor level : Nat} (hw : Awaiting level items w)
    (hx : Phrase level right x.formula) (hle : floor ≤ level)
    (h : w.reduce floor x = .ok (w', y)) :
    ∃ items' right', items ++ right = items' ++ right' ∧ Awaiting floor items' w' ∧
      Phrase floor right' y.formula := by
  induction hw generalizing right x with
  | nil =>
    obtain ⟨rfl, rfl⟩ := Prod.mk.inj (Except.ok.inj h)
    exact ⟨[], right, rfl, .nil, hx.mono hle⟩
  | @cons level word op items left w l hw hlt hop hl ih =>
    rw [Waiting.reduce] at h
    split at h
    case isTrue hfloor =>
      obtain ⟨z, hz, h⟩ := (Result.bind_eq_ok _ _ _).mp h
      have hphrase : Phrase op.precedence (left ++ name word :: right) z.formula := by
        rw [Operand.formula_apply hz]
        exact .binary (Operator.binds_iff.mpr ⟨hop, rfl⟩) hl (hx.mono hlt)
      obtain ⟨items', right', hitems, hout⟩ := ih hphrase hfloor h
      exact ⟨items', right', by simpa using hitems, hout⟩
    case isFalse hfloor =>
      obtain ⟨rfl, rfl⟩ := Prod.mk.inj (Except.ok.inj h)
      exact ⟨_, right, rfl, .cons hw (Nat.lt_of_not_le hfloor) hop hl, hx.mono hle⟩

theorem Awaiting.finish (hw : Awaiting negationPrecedence items w)
    (hx : Phrase negationPrecedence right x.formula) (h : w.finish x = .ok y) :
    Phrase 0 (items ++ right) y.formula := by
  obtain ⟨⟨w', z⟩, hz, h⟩ := (Result.bind_eq_ok _ _ _).mp h
  obtain rfl := Except.ok.inj h
  obtain ⟨items', right', hitems, hw', hphrase⟩ := hw.reduce hx (Nat.zero_le _) hz
  -- No operator binds less tightly than at level zero, so nothing waits any more.
  cases hw' with
  | nil => exact hitems ▸ hphrase
  | cons _ hlt => exact absurd hlt (Nat.not_lt_zero _)

-- By induction on the tree, along with what waits on the way through a list.
mutual

theorem readItem_sound {x : Operand} :
    ∀ {tree : Tree}, tree.readItem = .ok x → IsOperand tree x.formula
  | name word, h => by
    rw [readItem] at h
    split at h
    case isTrue => cases h
    case isFalse =>
      obtain ⟨f, hf, h⟩ := (Result.bind_eq_ok _ _ _).mp h
      obtain rfl := Except.ok.inj h
      obtain ⟨hword, rfl⟩ := Fluent.ofWord_eq_ok.mp hf
      exact .name hword
  | list items, h => by
    rw [readItem] at h
    split at h
    case isTrue => cases h
    case isFalse => exact .list (readOperand_sound .nil h)

theorem readOperand_sound {x : Operand} :
    ∀ {before : List Tree} {w : Waiting} {negations : Nat} {items : List Tree},
      Awaiting negationPrecedence before w → readOperand w negations items = .ok x →
        Phrase 0 (before ++ (List.replicate negations (name negationKeyword) ++ items)) x.formula
  | _, _, _, [], _, h => by cases h
  | before, w, negations, item :: rest, hw, h => by
    rw [readOperand] at h
    split at h
    case isTrue hitem =>
      have hkeyword : item = name negationKeyword := by
        cases item with
        | name word => exact congrArg name (eq_of_beq hitem)
        | list => cases hitem
      have hmore := readOperand_sound hw h
      rw [List.replicate_succ', List.append_assoc] at hmore
      exact hkeyword ▸ hmore
    case isFalse =>
      obtain ⟨y, hy, h⟩ := (Result.bind_eq_ok _ _ _).mp h
      obtain ⟨z, hz, h⟩ := (Result.bind_eq_ok _ _ _).mp h
      have hnegated := (Negated.operand (readItem_sound hy)).negateTimes hz
      simpa using readOperator_sound hw (.negated hnegated) h

theorem readOperator_sound {x : Operand} :
    ∀ {before right : List Tree} {w : Waiting} {y : Operand} {items : List Tree},
      Awaiting negationPrecedence before w → Phrase negationPrecedence right y.formula →
        readOperator w y items = .ok x → Phrase 0 (before ++ (right ++ items)) x.formula
  | _, right, _, _, [], hw, hy, h => by
    rw [List.append_nil]
    exact hw.finish hy h
  | before, right, w, y, item :: rest, hw, hy, h => by
    rw [readOperator] at h
    cases hop : item.operator? with
    | none =>
      rw [hop] at h
      obtain ⟨_, _, h⟩ := (Result.bind_eq_ok _ _ _).mp h
      cases h
    | some op =>
      rw [hop] at h
      obtain ⟨⟨w', l⟩, hreduce, hrest⟩ := (Result.bind_eq_ok _ _ _).mp h
      obtain ⟨before', right', hitems, hw', hl⟩ :=
        hw.reduce hy (Nat.le_of_lt op.precedence_lt) hreduce
      cases item with
      | list => cases hop
      | name word =>
        have hwait :
            Awaiting negationPrecedence (before' ++ (right' ++ [name word])) ((l, op) :: w') :=
          .cons hw' op.precedence_lt hop hl
        have hmore := readOperand_sound hwait hrest
        rw [← List.append_assoc, hitems]
        simpa using hmore

end

end Sound

section Complete

variable {F : Formula}

theorem IsOperand.not_negation {item : Tree} (h : IsOperand item F) : item.isNegation = false := by
  cases h with
  | name h => exact beq_eq_false_iff_ne.mpr fun hword => h (.inl hword)
  | list => rfl

theorem Negated.ne_nil {items : List Tree} (h : Negated items F) : items ≠ [] := by
  cases h with
  | operand => exact List.cons_ne_nil _ _
  | not => exact List.cons_ne_nil _ _

theorem Phrase.ne_nil :
    ∀ {level : Nat} {items : List Tree} {F : Formula}, Phrase level items F → items ≠ []
  | _, _, _, .negated h => h.ne_nil
  | _, _, _, .tighter h => h.ne_nil
  | _, _, _, .binary _ _ _ => List.append_ne_nil_of_right_ne_nil _ (List.cons_ne_nil _ _)

mutual

theorem IsOperand.readItem_eq :
    ∀ {tree : Tree} {F : Formula}, IsOperand tree F → tree.readItem = Operand.ofFormula? F
  | .name word, _, .name h => by
    rw [Tree.readItem, Operator.ofKeyword?_eq_none h, if_neg (by simp),
      Fluent.ofWord_eq_ok.mpr ⟨h, rfl⟩]
    rfl
  | .list items, F, .list h => by
    have hne : ¬ items.isEmpty = true := by simpa using h.ne_nil
    obtain ⟨m, hread, hreduce⟩ := h.readOperand [] (by simp)
    have hall := hreduce 0 (Nat.le_refl 0)
    calc Tree.readItem (.list items)
        = Tree.readOperand [] 0 (items ++ []) := by rw [Tree.readItem, if_neg hne, List.append_nil]
      _ = (m >>= fun l => l.1.reduce 0 l.2) >>= fun l => .ok l.2 := by rw [hread, bind_assoc]; rfl
      _ = Operand.ofFormula? F := by rw [hall, bind_assoc]; exact bind_pure _

theorem Negated.readOperand :
    ∀ {items : List Tree} {F : Formula}, Negated items F →
      ∀ (w : Waiting) (negations : Nat) (rest : List Tree),
        Tree.readOperand w negations (items ++ rest) =
          Operand.ofFormula? F >>= fun x =>
            x.negateTimes negations >>= fun y => readOperator w y rest
  | _, _, .operand h, w, negations, rest => by
    rw [List.singleton_append, Tree.readOperand, if_neg (Bool.eq_false_iff.mp h.not_negation),
      h.readItem_eq]
  | _, _, .not h, w, negations, rest => by
    have hinner := h.readOperand w (negations + 1) rest
    rw [Operand.ofFormula?_neg, bind_assoc]
    simp only [Operand.negateTimes, bind_assoc] at hinner
    exact hinner

/-- A phrase is read into what waits, from where it comes out as its formula once the operators at
its level or above it are applied. If the formula is too deep, that shows by then. -/
theorem Phrase.readOperand :
    ∀ {level : Nat} {items : List Tree} {F : Formula}, Phrase level items F →
      ∀ w : Waiting, (∀ l ∈ w, l.2.precedence < level) →
        ∃ m : Except ParseError (Waiting × Operand),
          (∀ rest, Tree.readOperand w 0 (items ++ rest) =
            m >>= fun l => readOperator l.1 l.2 rest) ∧
          ∀ floor ≤ level,
            (m >>= fun l => l.1.reduce floor l.2) = Operand.ofFormula? F >>= w.reduce floor
  | _, _, F, .negated h, w, _ => by
    refine ⟨Operand.ofFormula? F >>= fun x => .ok (w, x), ?_, ?_⟩
    · intro rest
      rw [h.readOperand, bind_assoc]
      rfl
    · intro floor _
      rw [bind_assoc]
      rfl
  | _, _, _, .tighter h, w, hw => by
    obtain ⟨m, hread, hreduce⟩ := h.readOperand w fun l hl => Nat.lt_succ_of_lt (hw l hl)
    exact ⟨m, hread, fun floor hfloor => hreduce floor (Nat.le_succ_of_le hfloor)⟩
  | _, _, _, @Phrase.binary word op level left right F G hop hl hr, w, hw => by
    obtain ⟨hop, hlevel⟩ := Operator.binds_iff.mp hop
    obtain ⟨m, hread, hreduce⟩ := hl.readOperand w hw
    -- The operator finds what waited before its left side, and the left side as a whole.
    have hleft : (m >>= fun l => l.1.reduce op.precedence l.2) =
        Operand.ofFormula? F >>= fun x => .ok (w, x) := by
      rw [← hlevel, hreduce _ (Nat.le_refl _)]
      exact congrArg _ (funext (Waiting.reduce_of_lt hw))
    have hoperator (rest : List Tree) :
        Tree.readOperand w 0 ((left ++ .name word :: right) ++ rest) =
          Operand.ofFormula? F >>= fun x => Tree.readOperand ((x, op) :: w) 0 (right ++ rest) := by
      have hstep (l : Waiting × Operand) : readOperator l.1 l.2 (.name word :: (right ++ rest)) =
          l.1.reduce op.precedence l.2 >>= fun l =>
            Tree.readOperand ((l.2, op) :: l.1) 0 (right ++ rest) := by
        rw [readOperator]
        simp only [operator?, hop]
      rw [List.append_assoc, List.cons_append, hread]
      simp only [hstep]
      rw [← bind_assoc, hleft, bind_assoc]
      rfl
    cases hF : Operand.ofFormula? F with
    | error e =>
      refine ⟨.error e, ?_, ?_⟩
      · intro rest
        rw [hoperator, hF]
        rfl
      · intro floor _
        rw [Operand.ofFormula?_binary, hF]
        rfl
    | ok x =>
      have hwait : ∀ l ∈ (x, op) :: w, l.2.precedence < level + 1 :=
        List.forall_mem_cons.mpr
          ⟨hlevel ▸ Nat.lt_succ_self _, fun l h => Nat.lt_succ_of_lt (hw l h)⟩
      obtain ⟨m', hread', hreduce'⟩ := hr.readOperand _ hwait
      refine ⟨m', ?_, ?_⟩
      · intro rest
        rw [hoperator, hF]
        exact hread' rest
      · intro floor hfloor
        have happly : Waiting.reduce floor ((x, op) :: w) =
            fun y => Operand.apply op x y >>= w.reduce floor :=
          funext fun _ => Waiting.reduce_cons (hlevel ▸ hfloor)
        rw [hreduce' floor (Nat.le_succ_of_le hfloor), happly, Operand.ofFormula?_binary, hF,
          ← bind_assoc]
        rfl

end

theorem IsOperand.readItem {tree : Tree} (h : IsOperand tree F) (hdepth : F.depth ≤ depthLimit) :
    tree.readItem = .ok (.ofFormula F) :=
  h.readItem_eq.trans (Operand.ofFormula?_of_le hdepth)

end Complete

end Tree

namespace Formula

variable {tree : Tree} {F : Formula}

theorem ofTree_of_readItem {x : Operand} (h : tree.readItem = .ok x) :
    ofTree tree = .ok x.formula := by
  have hne : tree ≠ .list [] := by
    rintro rfl
    cases h
  exact (ofTree_eq_ok hne).mpr ⟨x, h, rfl⟩

theorem derives_of_ofTree (h : ofTree tree = .ok F) : tree.Derives F := by
  by_cases hne : tree = .list []
  · subst hne
    obtain rfl := Except.ok.inj h
    exact .top
  · obtain ⟨x, hx, rfl⟩ := (ofTree_eq_ok hne).mp h
    exact .operand (Tree.readItem_sound hx)

/-- A tree is read as a formula exactly if the grammar derives the formula from it and the formula
is no deeper than 1024. -/
theorem ofTree_iff_derives (tree : Tree) (F : Formula) :
    ofTree tree = .ok F ↔ tree.Derives F ∧ F.depth ≤ 1024 := by
  have hlimit : depthLimit = 1024 := rfl
  rw [← hlimit]
  constructor
  · intro h
    have hdepth := nesting_ofTree h
    exact ⟨derives_of_ofTree h, F.depth_eq ▸ hdepth⟩
  · intro h
    obtain ⟨hderives, hdepth⟩ := h
    cases hderives with
    | top => rfl
    | operand h => exact ofTree_of_readItem (h.readItem hdepth)

end Formula

end Chronicle
