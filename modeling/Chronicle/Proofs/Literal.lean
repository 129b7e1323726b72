import Chronicle.Literal
import Chronicle.Proofs.Formula.Grammar
import Chronicle.Proofs.Valuation

/-!
Literals read from a tree, beside the formula read from it. The reader of literals passes over the
nesting of the tree. So a negation before a bracket reverses the first literal in it, where to the
formula it is the negation of all that is in the bracket.
-/

namespace Chronicle

namespace Formula

/-- Negations that do not cancel out stand before atoms alone, where `negated` tells whether an odd
number of negations stands before the formula itself. -/
def NegatesAtoms (negated : Bool) : Formula → Prop
  | top => True
  | atom _ => True
  | neg F => F.NegatesAtoms (!negated)
  | binary _ F G => negated = false ∧ F.NegatesAtoms false ∧ G.NegatesAtoms false

/-- The atoms of a formula from left to right, as literals. A negation before a bracket is taken for
one of the first atom in it. -/
def literals (negated : Bool) : Formula → List Literal
  | top => []
  | atom f => [(f, !negated)]
  | neg F => F.literals (!negated)
  | binary _ F G => F.literals negated ++ G.literals false

/-- The formula is made of atoms by negation and conjunction. -/
def IsConjunctive : Formula → Prop
  | top => False
  | atom _ => True
  | neg F => F.IsConjunctive
  | binary op F G => op = .and ∧ F.IsConjunctive ∧ G.IsConjunctive

theorem eval_atom_eq_ok (f : Fluent) (v : Fluent → Option Bool) (b : Bool) :
    (atom f).eval v = .ok b ↔ v f = some b := by
  rw [eval]
  cases v f <;> simp

theorem eval_and_eq_true (F G : Formula) (v : Fluent → Option Bool) :
    (binary .and F G).eval v = .ok true ↔ F.eval v = .ok true ∧ G.eval v = .ok true := by
  rw [eval_binary_eq_ok]
  simp [Operator.apply]

theorem eval_literal (f : Fluent) (value : Bool) (v : Fluent → Option Bool) :
    (literal f value).eval v = .ok true ↔ v f = some value := by
  cases value with
  | true => exact eval_atom_eq_ok f v true
  | false => exact (eval_neg_eq_ok _ v true).trans (eval_atom_eq_ok f v false)

theorem mem_atoms_literal (f g : Fluent) (value : Bool) :
    g ∈ (literal f value).atoms ↔ g = f := by
  cases value <;> exact mem_atoms_atom g f

section Literals

variable {F : Formula} {negated : Bool}

theorem mem_atoms_iff_literals (F : Formula) (negated : Bool) (f : Fluent) :
    f ∈ F.atoms ↔ f ∈ (F.literals negated).map Prod.fst := by
  induction F generalizing negated with
  | top => simp [literals]
  | atom g => simp [literals]
  | neg F ih => exact ih (!negated)
  | binary op F G ihF ihG =>
    rw [mem_atoms_binary, ihF negated, ihG false, literals, List.map_append, List.mem_append]

/-- One negation more reverses the first literal. -/
theorem IsConjunctive.literals_not (h : F.IsConjunctive) (negated : Bool) :
    ∃ l more, F.literals negated = l :: more ∧ F.literals (!negated) = (l.1, !l.2) :: more := by
  induction F generalizing negated with
  | top => exact h.elim
  | atom f => exact ⟨_, [], rfl, rfl⟩
  | neg F ih => exact ih h (!negated)
  | binary op F G ihF _ =>
    obtain ⟨l, more, hl, hnot⟩ := ihF h.2.1 negated
    exact ⟨l, more ++ G.literals false, by rw [literals, hl]; rfl, by rw [literals, hnot]; rfl⟩

theorem IsConjunctive.negatesAtoms_of_single (h : F.IsConjunctive)
    (hone : (F.literals negated).length = 1) (odd : Bool) : F.NegatesAtoms odd := by
  induction F generalizing negated odd with
  | top => trivial
  | atom f => trivial
  | neg F ih => exact ih h hone (!odd)
  | binary op F G _ _ =>
    obtain ⟨_, _, hF, _⟩ := h.2.1.literals_not negated
    obtain ⟨_, _, hG, _⟩ := h.2.2.literals_not false
    rw [literals, hF, hG] at hone
    simp at hone

/-- A formula that negates atoms alone is true where its literals are. -/
theorem IsConjunctive.eval_iff_literals (h : F.IsConjunctive) (hn : F.NegatesAtoms negated)
    (v : Fluent → Option Bool) :
    F.eval v = .ok (!negated) ↔ ∀ l ∈ F.literals negated, v l.1 = some l.2 := by
  induction F generalizing negated with
  | top => exact h.elim
  | atom f =>
    rw [eval_atom_eq_ok]
    simp [literals]
  | neg F ih => exact (eval_neg_eq_ok F v _).trans (ih h hn)
  | binary op F G ihF ihG =>
    obtain ⟨rfl, hF, hG⟩ := h
    obtain ⟨rfl, hnF, hnG⟩ := hn
    have hleft := ihF hF hnF
    have hright := ihG hG hnG
    rw [Bool.not_false] at hleft hright ⊢
    rw [eval_and_eq_true, hleft, hright, literals, List.forall_mem_append]

end Literals

end Formula

@[simp]
theorem isKeyword_keyword (op : Operator) : IsKeyword op.keyword := by
  cases op
  · exact .inr ⟨_, _, .and⟩
  · exact .inr ⟨_, _, .or⟩
  · exact .inr ⟨_, _, .implies⟩
  · exact .inr ⟨_, _, .iff⟩

@[simp]
theorem isKeyword_negation : IsKeyword negationKeyword := .inl rfl

@[simp]
theorem Operator.keyword_ne_negation (op : Operator) : op.keyword ≠ negationKeyword := by
  cases op <;> decide

namespace Literal

/-- The formula of literals in conjunction. -/
def conjunction (ls : List Literal) : Formula := .conjunction (ls.map toFormula)

theorem eval_conjunction (ls : List Literal) (v : Fluent → Option Bool) :
    (conjunction ls).eval v = .ok true ↔ ∀ l ∈ ls, v l.1 = some l.2 := by
  rw [conjunction, Formula.eval_conjunction, List.forall_mem_map]
  simp only [toFormula, Formula.eval_literal]

theorem mem_atoms_conjunction (ls : List Literal) (f : Fluent) :
    f ∈ (conjunction ls).atoms ↔ f ∈ ls.map Prod.fst := by
  rw [conjunction, Formula.mem_atoms_conjunction, List.mem_map]
  constructor
  · intro h
    obtain ⟨F, hF, hf⟩ := h
    obtain ⟨l, hl, rfl⟩ := List.mem_map.mp hF
    exact ⟨l, hl, ((Formula.mem_atoms_literal _ _ _).mp hf).symm⟩
  · intro h
    obtain ⟨l, hl, rfl⟩ := h
    exact ⟨_, List.mem_map_of_mem hl, (Formula.mem_atoms_literal _ _ _).mpr rfl⟩

section Words

variable {ls : List Literal} {negated : Bool} {word : String} {ws ws' : List String}

theorem ofWords_nil_eq_ok : ofWords negated [] = .ok ls ↔ negated = false ∧ ls = [] := by
  cases negated <;> simp [ofWords, eq_comm]

theorem ofWords_cons_eq_ok : ofWords negated (word :: ws) = .ok ls ↔
    word = Operator.keyword .and ∧ negated = false ∧ ofWords false ws = .ok ls ∨
    word = negationKeyword ∧ ofWords (!negated) ws = .ok ls ∨
    ¬ IsKeyword word ∧
      ∃ more, ofWords false ws = .ok more ∧ ls = (⟨word⟩, !negated) :: more := by
  rw [ofWords]
  by_cases h₁ : word = Operator.keyword .and
  · subst h₁
    cases negated <;> simp
  · by_cases h₂ : word = negationKeyword
    · subst h₂
      simp [(Operator.keyword_ne_negation .and).symm]
    · simp only [h₁, h₂, if_false, false_and, false_or, Result.bind_eq_ok, Fluent.ofWord_eq_ok]
      constructor
      · intro h
        obtain ⟨_, ⟨hword, rfl⟩, more, hmore, h⟩ := h
        exact ⟨hword, more, hmore, (Except.ok.inj h).symm⟩
      · intro h
        obtain ⟨hword, more, hmore, rfl⟩ := h
        exact ⟨_, ⟨hword, rfl⟩, more, hmore, rfl⟩

theorem ofWords_not : ofWords negated (negationKeyword :: ws) = ofWords (!negated) ws := by
  rw [ofWords, if_neg (by decide), if_pos rfl]

theorem ofWords_singleton (hword : ¬ IsKeyword word) :
    ofWords negated [word] = .ok ls ↔ ls = [(⟨word⟩, !negated)] := by
  have hand : word ≠ Operator.keyword .and := fun h => hword (h ▸ isKeyword_keyword .and)
  have hnot : word ≠ negationKeyword := fun h => hword (h ▸ isKeyword_negation)
  simp [ofWords_cons_eq_ok, ofWords_nil_eq_ok, hword, hand, hnot]

/-- No negation is pending where words are separated. -/
theorem ofWords_append_and : ofWords negated (ws ++ Operator.keyword .and :: ws') = .ok ls ↔
    ∃ left right, ofWords negated ws = .ok left ∧ ofWords false ws' = .ok right ∧
      ls = left ++ right := by
  induction ws generalizing negated ls with
  | nil => simp [ofWords_cons_eq_ok, ofWords_nil_eq_ok]
  | cons word ws ih =>
    simp only [List.cons_append, ofWords_cons_eq_ok, ih]
    constructor
    · rintro (⟨hword, hneg, left, right, hl, hr, rfl⟩ | ⟨hword, left, right, hl, hr, rfl⟩ |
        ⟨hword, _, ⟨left, right, hl, hr, rfl⟩, rfl⟩)
      · exact ⟨left, right, .inl ⟨hword, hneg, hl⟩, hr, rfl⟩
      · exact ⟨left, right, .inr (.inl ⟨hword, hl⟩), hr, rfl⟩
      · exact ⟨_ :: left, right, .inr (.inr ⟨hword, left, hl, rfl⟩), hr, rfl⟩
    · rintro ⟨left, right, ⟨hword, hneg, hl⟩ | ⟨hword, hl⟩ | ⟨hword, more, hl, rfl⟩, hr, rfl⟩
      · exact .inl ⟨hword, hneg, left, right, hl, hr, rfl⟩
      · exact .inr (.inl ⟨hword, left, right, hl, hr, rfl⟩)
      · exact .inr (.inr ⟨hword, _, ⟨more, right, hl, hr, rfl⟩, rfl⟩)

/-- No other keyword may stand among literals. -/
theorem keyword_of_ofWords (h : ofWords negated ws = .ok ls) (hword : word ∈ ws)
    (hkeyword : IsKeyword word) :
    word = Operator.keyword .and ∨ word = negationKeyword := by
  induction ws generalizing negated ls with
  | nil => cases hword
  | cons first ws ih =>
    rcases ofWords_cons_eq_ok.mp h with ⟨hfirst, _, h⟩ | ⟨hfirst, h⟩ | ⟨hfirst, more, h, _⟩
    · rcases List.mem_cons.mp hword with rfl | hword
      · exact .inl hfirst
      · exact ih h hword
    · rcases List.mem_cons.mp hword with rfl | hword
      · exact .inr hfirst
      · exact ih h hword
    · rcases List.mem_cons.mp hword with rfl | hword
      · exact absurd hkeyword hfirst
      · exact ih h hword

end Words

end Literal

namespace Tree

theorem wordsAll_append (items rest : List Tree) :
    wordsAll (items ++ rest) = wordsAll items ++ wordsAll rest := by
  induction items with
  | nil => rfl
  | cons item items ih => rw [List.cons_append, wordsAll, ih, wordsAll, List.append_assoc]

theorem eq_and_of_ofWords {word : String} {op : Operator} {level : Nat} {negated : Bool}
    {ls : List Literal} {ws ws' : List String} (hop : Operator.Binds word op level)
    (h : Literal.ofWords negated (ws ++ word :: ws') = .ok ls) :
    word = Operator.keyword .and ∧ op = .and := by
  have hkeyword : IsKeyword word := .inr ⟨op, level, hop⟩
  obtain ⟨hop, _⟩ := Operator.binds_iff.mp hop
  rcases Literal.keyword_of_ofWords h (by simp) hkeyword with rfl | rfl
  · exact ⟨rfl, (Option.some.inj hop).symm⟩
  · cases hop

mutual

theorem IsOperand.ofWords :
    ∀ {tree : Tree} {F : Formula}, IsOperand tree F → ∀ {negated : Bool} {ls : List Literal},
      Literal.ofWords negated tree.words = .ok ls → F.IsConjunctive ∧ ls = F.literals negated
  | _, _, .name hword, _, _, h => ⟨trivial, (Literal.ofWords_singleton hword).mp h⟩
  | _, _, .list hitems, _, _, h => hitems.ofWords h

theorem Negated.ofWords :
    ∀ {items : List Tree} {F : Formula}, Negated items F →
      ∀ {negated : Bool} {ls : List Literal}, Literal.ofWords negated (wordsAll items) = .ok ls →
        F.IsConjunctive ∧ ls = F.literals negated
  | _, _, .operand hitem, _, _, h => by
    rw [wordsAll, wordsAll, List.append_nil] at h
    exact hitem.ofWords h
  | _, _, .not hitems, _, _, h => by
    rw [wordsAll, words, List.singleton_append] at h
    exact hitems.ofWords (Literal.ofWords_not.symm.trans h)

/-- Where a phrase is read as literals as well, these are the literals of its formula. -/
theorem Phrase.ofWords :
    ∀ {level : Nat} {items : List Tree} {F : Formula}, Phrase level items F →
      ∀ {negated : Bool} {ls : List Literal}, Literal.ofWords negated (wordsAll items) = .ok ls →
        F.IsConjunctive ∧ ls = F.literals negated
  | _, _, _, .negated hitems, _, _, h => hitems.ofWords h
  | _, _, _, .tighter hitems, _, _, h => hitems.ofWords h
  | _, _, _, .binary hop hl hr, _, _, h => by
    rw [wordsAll_append, wordsAll, words, List.singleton_append] at h
    obtain ⟨hword, hand⟩ := eq_and_of_ofWords hop h
    rw [hword, Literal.ofWords_append_and] at h
    obtain ⟨left, right, hleft, hright, hls⟩ := h
    obtain ⟨hF, hleft⟩ := hl.ofWords hleft
    obtain ⟨hG, hright⟩ := hr.ofWords hright
    exact ⟨⟨hand, hF, hG⟩, by rw [hls, hleft, hright]; rfl⟩

end

end Tree

namespace Valuation

theorem exists_keys_eq (s : FluentSet) : ∃ v : Valuation, v.keys = s.keys :=
  ⟨ofBits s 0, keys_ofBits s 0⟩

theorem eval_eq_of_ne {v : Valuation} {F : Formula} {b : Bool} (hv : ∀ f ∈ F.atoms, f ∈ v)
    (h : v.eval F ≠ .ok (!b)) : v.eval F = .ok b := by
  obtain ⟨c, hc⟩ := (v.eval_isOk F).mpr hv
  have hne : c ≠ !b := fun he => h (he ▸ hc)
  rw [hc, Bool.eq_not.mpr hne, Bool.not_not]

/-- Formulas whose fluents all have values have one and the same if they are true together. -/
theorem eval_eq_of_iff {v : Valuation} {F G : Formula} (hF : ∀ f ∈ F.atoms, f ∈ v)
    (hG : ∀ f ∈ G.atoms, f ∈ v) (h : v.eval F = .ok true ↔ v.eval G = .ok true) :
    v.eval F = v.eval G := by
  by_cases ht : v.eval F = .ok true
  · rw [ht, h.mp ht]
  · have hfalse := eval_eq_of_ne (b := false) hF ht
    rw [hfalse, eval_eq_of_ne (b := false) hG (mt h.mpr ht)]

end Valuation

namespace Literal

variable {tree : Tree} {F : Formula} {ls : List Literal}

/-- A tree that is read in both ways is empty, or is read as the literals of its formula. -/
theorem ofTree_eq_literals (hF : Formula.ofTree tree = .ok F) (hls : ofTree tree = .ok ls) :
    F = .top ∧ ls = [] ∨ F.IsConjunctive ∧ ls = F.literals false := by
  cases Formula.derives_of_ofTree hF with
  | top => exact .inl ⟨rfl, (Except.ok.inj hls).symm⟩
  | operand h => exact .inr (h.ofWords hls)

theorem mem_atoms_iff (hF : Formula.ofTree tree = .ok F) (hls : ofTree tree = .ok ls) (f : Fluent) :
    f ∈ F.atoms ↔ f ∈ (conjunction ls).atoms := by
  rw [mem_atoms_conjunction]
  rcases ofTree_eq_literals hF hls with ⟨rfl, rfl⟩ | ⟨_, rfl⟩
  · simp
  · exact F.mem_atoms_iff_literals false f

/-- Where a literal after the first is false, the literals in conjunction are false, and the
negation of the conjunction that they are taken from is true. -/
theorem exists_parting (hF : F.IsConjunctive) (hodd : F.NegatesAtoms true)
    (heven : ¬ F.NegatesAtoms false) :
    ∃ v : Valuation, (∀ f ∈ F.atoms, f ∈ v) ∧ v.eval F = .ok true ∧
      v.eval (conjunction (F.literals false)) = .ok false := by
  obtain ⟨l, more, hliterals, hnot⟩ := hF.literals_not false
  rw [Bool.not_false] at hnot
  obtain ⟨m, hm⟩ : ∃ m, m ∈ more := by
    apply List.exists_mem_of_ne_nil
    rintro rfl
    exact heven (hF.negatesAtoms_of_single (congrArg List.length hliterals) false)
  obtain ⟨u, hu⟩ := Valuation.exists_keys_eq F.atoms
  let v : Valuation := u.insert m.1 (!m.2)
  have hfalse : v.get? m.1 ≠ some m.2 := by
    rw [SortedMap.get?_insert, if_pos rfl]
    simp
  have hv : ∀ f ∈ F.atoms, f ∈ v := by
    intro f hf
    exact (SortedMap.mem_insert _ _ _ _).mpr (.inr ((Valuation.mem_iff_of_keys_eq hu f).mpr hf))
  have hconj : ∀ f ∈ (conjunction (F.literals false)).atoms, f ∈ v := by
    intro f hf
    rw [mem_atoms_conjunction, ← F.mem_atoms_iff_literals] at hf
    exact hv f hf
  refine ⟨v, hv, Valuation.eval_eq_of_ne hv ?_, Valuation.eval_eq_of_ne hconj ?_⟩
  · rw [Ne, v.eval_eq_ok, hF.eval_iff_literals hodd v.get?, hnot]
    exact fun hall => hfalse (hall m (List.mem_cons_of_mem _ hm))
  · rw [Ne, v.eval_eq_ok, Bool.not_false, eval_conjunction, hliterals]
    exact fun hall => hfalse (hall m (List.mem_cons_of_mem _ hm))

/-- A tree that is read in both ways is empty, or is read as the literals of its formula. It has one
value as a formula and as literals in conjunction, if negations that do not cancel out stand before
names alone. If only the outermost negation stands before more, there are two values somewhere. -/
theorem ofTree_agrees (hF : Formula.ofTree tree = .ok F) (hls : ofTree tree = .ok ls) :
    (F = .top ∧ ls = [] ∨ F.IsConjunctive ∧ ls = F.literals false) ∧
    (∀ f, f ∈ F.atoms ↔ f ∈ (conjunction ls).atoms) ∧
    (F.NegatesAtoms false → ∀ v : Valuation, (∀ f ∈ F.atoms, f ∈ v) →
      v.eval F = v.eval (conjunction ls)) ∧
    (F.NegatesAtoms true → ¬ F.NegatesAtoms false → ∃ v : Valuation, (∀ f ∈ F.atoms, f ∈ v) ∧
      v.eval F = .ok true ∧ v.eval (conjunction ls) = .ok false) := by
  have hatoms := mem_atoms_iff hF hls
  have hread := ofTree_eq_literals hF hls
  refine ⟨hread, hatoms, ?_, ?_⟩
  · intro hn v hv
    apply Valuation.eval_eq_of_iff hv fun f hf => hv f ((hatoms f).mpr hf)
    rw [Valuation.eval_eq_ok, Valuation.eval_eq_ok, eval_conjunction]
    rcases hread with ⟨rfl, rfl⟩ | ⟨h, rfl⟩
    · simp [Formula.eval]
    · exact h.eval_iff_literals hn v.get?
  · intro hodd heven
    rcases hread with ⟨rfl, rfl⟩ | ⟨h, rfl⟩
    · exact absurd trivial heven
    · exact exists_parting h hodd heven

/-- Two negations before a bracket, and one before a name. -/
def bothButNot : Tree :=
  .list [.name "not", .list [.name "not", .list [.name "lit", .name "and", .name "hot"]],
    .name "and", .list [.name "not", .name "lost"]]

theorem bothButNot_agrees : ∃ F ls, Formula.ofTree bothButNot = .ok F ∧
    ofTree bothButNot = .ok ls ∧ F.NegatesAtoms false ∧
    ∀ v : Valuation, (∀ f ∈ F.atoms, f ∈ v) → v.eval F = v.eval (conjunction ls) := by
  have hF : Formula.ofTree bothButNot = .ok (.binary .and
      (.neg (.neg (.binary .and (.atom ⟨"lit"⟩) (.atom ⟨"hot"⟩)))) (.neg (.atom ⟨"lost"⟩))) := rfl
  have hls : ofTree bothButNot = .ok [(⟨"lit"⟩, true), (⟨"hot"⟩, true), (⟨"lost"⟩, false)] := rfl
  have hn : Formula.NegatesAtoms false (.binary .and
      (.neg (.neg (.binary .and (.atom ⟨"lit"⟩) (.atom ⟨"hot"⟩)))) (.neg (.atom ⟨"lost"⟩))) := by
    simp [Formula.NegatesAtoms]
  exact ⟨_, _, hF, hls, hn, (ofTree_agrees hF hls).2.2.1 hn⟩

/-- One negation before a bracket. -/
def notBoth : Tree := .list [.name "not", .list [.name "lit", .name "and", .name "hot"]]

/-- With neither true, the formula is true. As literals, these are that the first is false and the
second is true. -/
theorem notBoth_parts : ∃ F ls, Formula.ofTree notBoth = .ok F ∧ ofTree notBoth = .ok ls ∧
    ∃ v : Valuation, (∀ f ∈ F.atoms, f ∈ v) ∧ (∀ f ∈ (conjunction ls).atoms, f ∈ v) ∧
      v.eval F = .ok true ∧ v.eval (conjunction ls) = .ok false := by
  refine ⟨.neg (.binary .and (.atom ⟨"lit"⟩) (.atom ⟨"hot"⟩)), [(⟨"lit"⟩, false), (⟨"hot"⟩, true)],
    rfl, rfl, .allFalse [⟨"lit"⟩, ⟨"hot"⟩], ?_, ?_, ?_, ?_⟩
  · change ∀ f ∈ SortedMap.keys _, f ∈ _
    decide +kernel
  · change ∀ f ∈ SortedMap.keys _, f ∈ _
    decide +kernel
  · rfl
  · rfl

end Literal

end Chronicle
