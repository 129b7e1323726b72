import Chronicle.Proofs.Literal
import Mathlib.Algebra.Group.Nat.Even
import Mathlib.Data.List.DropRight

/-!
The ways to spell a list of literals as a tree, all of which are read as that list, and what is read
from trees in general: a literal for each name, or nothing where a keyword is out of place.
-/

namespace Chronicle

namespace Literal

/-- The ways to write a literal: a name, after any number of negations, with brackets around it at
any point. -/
inductive Written : List Tree → Literal → Prop
  | name {word : String} (h : ¬ IsKeyword word) : Written [.name word] (⟨word⟩, true)
  | not {items : List Tree} {f : Fluent} {value : Bool} (h : Written items (f, value)) :
      Written (.name negationKeyword :: items) (f, !value)
  | bracket {items : List Tree} {l : Literal} (h : Written items l) : Written [.list items] l

/-- The ways to write a list of literals: one after another, with any number of separators between
them, in any groups that leave each literal whole. -/
inductive Listed : List Tree → List Literal → Prop
  | nil : Listed [] []
  | separator {rest : List Tree} {ls : List Literal} (h : Listed rest ls) :
      Listed (.name (Operator.keyword .and) :: rest) ls
  | literal {items rest : List Tree} {l : Literal} {ls : List Literal} (hl : Written items l)
      (h : Listed rest ls) : Listed (items ++ rest) (l :: ls)
  | group {items rest : List Tree} {ls ls' : List Literal} (h : Listed items ls)
      (hrest : Listed rest ls') : Listed (.list items :: rest) (ls ++ ls')

/-- Words that are read as names where literals are expected. -/
def IsName (word : String) : Prop := word ≠ Operator.keyword .and ∧ word ≠ negationKeyword

instance : DecidablePred IsName :=
  fun word => inferInstanceAs (Decidable (word ≠ Operator.keyword .and ∧ word ≠ negationKeyword))

def names (words : List String) : List String := words.filter fun word => IsName word

/-- Keywords that join formulas but not literals. -/
def IsStray (word : String) : Prop :=
  word ≠ Operator.keyword .and ∧ ∃ op level, Operator.Binds word op level

/-- The words end in an odd run of negations. -/
def Pending (words : List String) : Prop :=
  Odd (words.rtakeWhile fun word => word = negationKeyword).length

/-- After what came before, an odd run of negations stands at a separator or at the end. -/
def Dangles (before words : List String) : Prop :=
  ∃ left right, words = left ++ right ∧ (right = [] ∨ right.head? = some (Operator.keyword .and)) ∧
    Pending (before ++ left)

section Written

variable {items : List Tree} {l : Literal} {ls more : List Literal} {negated : Bool}
  {ws : List String}

theorem Written.ofWords (h : Written items l) (hmore : ofWords false ws = .ok more) :
    ofWords negated (Tree.wordsAll items ++ ws) = .ok ((l.1, l.2 != negated) :: more) := by
  induction h generalizing negated with
  | name hword =>
    rw [Tree.wordsAll, Tree.words, Tree.wordsAll, List.append_nil, List.singleton_append,
      ofWords_cons_eq_ok]
    exact .inr (.inr ⟨hword, more, hmore, by simp⟩)
  | @not items f value _ ih =>
    have hvalue : (value != !negated) = ((!value) != negated) := by
      cases value <;> cases negated <;> rfl
    rw [Tree.wordsAll, Tree.words, List.singleton_append, List.cons_append, ofWords_not, ih]
    simp only [hvalue]
  | bracket _ ih =>
    rw [Tree.wordsAll, Tree.words, Tree.wordsAll, List.append_nil]
    exact ih

theorem Listed.ofWords (h : Listed items ls) (hmore : ofWords false ws = .ok more) :
    ofWords false (Tree.wordsAll items ++ ws) = .ok (ls ++ more) := by
  induction h generalizing ws more with
  | nil => exact hmore
  | separator _ ih =>
    rw [Tree.wordsAll, Tree.words, List.singleton_append, List.cons_append, ofWords_cons_eq_ok]
    exact .inl ⟨rfl, rfl, ih hmore⟩
  | literal hl _ ih =>
    rw [Tree.wordsAll_append, List.append_assoc, hl.ofWords (ih hmore), Bool.bne_false]
    rfl
  | group _ _ ih ihrest =>
    rw [Tree.wordsAll, Tree.words, List.append_assoc, List.append_assoc]
    exact ih (ihrest hmore)

end Written

section Pending

variable {before words : List String} {word : String}

theorem not_pending_nil : ¬ Pending [] := by
  simp [Pending]

theorem pending_concat :
    Pending (before ++ [word]) ↔ word = negationKeyword ∧ ¬ Pending before := by
  by_cases hword : word = negationKeyword
  · simp [Pending, hword, Nat.odd_add_one]
  · simp [Pending, hword]

theorem dangles_nil : Dangles before [] ↔ Pending before := by
  simp [Dangles]

theorem dangles_cons : Dangles before (word :: words) ↔
    word = Operator.keyword .and ∧ Pending before ∨ Dangles (before ++ [word]) words := by
  constructor
  · intro h
    obtain ⟨left, right, hwords, hright, hpending⟩ := h
    rcases List.cons_eq_append_iff.mp hwords with ⟨rfl, rfl⟩ | ⟨left, rfl, rfl⟩
    · rw [List.append_nil] at hpending
      exact .inl ⟨by simpa using hright, hpending⟩
    · exact .inr ⟨left, right, rfl, hright, by simpa using hpending⟩
  · intro h
    rcases h with ⟨rfl, hpending⟩ | ⟨left, right, rfl, hright, hpending⟩
    · exact ⟨[], _, rfl, .inr rfl, by simpa using hpending⟩
    · exact ⟨word :: left, right, rfl, hright, by simpa using hpending⟩

end Pending

section Words

variable {before left right words : List String} {word : String} {negated : Bool}
  {ls : List Literal}

theorem names_cons (word : String) (words : List String) :
    names (word :: words) = if IsName word then word :: names words else names words := by
  simp [names, List.filter_cons]

theorem isName_of_not_keyword (h : ¬ IsKeyword word) : IsName word :=
  ⟨fun hword => h (hword ▸ isKeyword_keyword .and), fun hword => h (hword ▸ isKeyword_negation)⟩

theorem not_isName_and : ¬ IsName (Operator.keyword .and) := fun h => h.1 rfl

theorem not_isName_negation : ¬ IsName negationKeyword := fun h => h.2 rfl

theorem isKeyword_iff_isStray (h : IsName word) : IsKeyword word ↔ IsStray word := by
  have hnot : word ≠ "not" := h.2
  rw [IsKeyword, IsStray, or_iff_right hnot, and_iff_right h.1]

theorem map_name_of_ofWords (h : ofWords negated words = .ok ls) :
    ls.map (·.1.name) = names words := by
  induction words generalizing negated ls with
  | nil =>
    obtain ⟨_, rfl⟩ := ofWords_nil_eq_ok.mp h
    rfl
  | cons word words ih =>
    rw [names_cons]
    rcases ofWords_cons_eq_ok.mp h with ⟨rfl, _, hls⟩ | ⟨rfl, hls⟩ | ⟨hword, more, hmore, rfl⟩
    · rw [if_neg not_isName_and, ih hls]
    · rw [if_neg not_isName_negation, ih hls]
    · rw [if_pos (isName_of_not_keyword hword), List.map_cons, ih hmore]

/-- Each name is read as a literal at its place, which is negative after an odd run of negations. -/
theorem getElem?_of_ofWords (h : ofWords negated (left ++ word :: right) = .ok ls)
    (hnegated : negated = true ↔ Pending before) (hword : IsName word) :
    ∃ value, ls[(names left).length]? = some (⟨word⟩, value) ∧
      (value = false ↔ Pending (before ++ left)) := by
  -- As words are read they go over to those before, and what is pending with them.
  induction left generalizing negated before ls with
  | nil =>
    rw [List.nil_append] at h
    rcases ofWords_cons_eq_ok.mp h with ⟨rfl, _⟩ | ⟨rfl, _⟩ | ⟨_, more, _, rfl⟩
    · exact absurd hword not_isName_and
    · exact absurd hword not_isName_negation
    · exact ⟨!negated, rfl, by simp [hnegated]⟩
  | cons first left ih =>
    rw [List.cons_append] at h
    rw [← List.singleton_append, ← List.append_assoc, List.singleton_append, names_cons]
    rcases ofWords_cons_eq_ok.mp h with ⟨rfl, _, hls⟩ | ⟨rfl, hls⟩ | ⟨hfirst, more, hmore, rfl⟩
    · rw [if_neg not_isName_and]
      exact ih hls (by simp [pending_concat])
    · rw [if_neg not_isName_negation]
      exact ih hls (by simp [pending_concat, ← hnegated])
    · have hname := isName_of_not_keyword hfirst
      rw [if_pos hname]
      exact ih hmore (by simp [pending_concat, hname.2])

theorem ofWords_cons_fails : (∃ e, ofWords negated (word :: words) = .error e) ↔
    IsStray word ∨ word = Operator.keyword .and ∧ negated = true ∨
      ∃ e, ofWords (word == negationKeyword && !negated) words = .error e := by
  by_cases hand : word = Operator.keyword .and
  · subst hand
    have hstray : ¬ IsStray (Operator.keyword .and) := fun h => h.1 rfl
    have hnot : (Operator.keyword .and == negationKeyword) = false := by decide
    rw [ofWords, if_pos rfl, hnot]
    cases negated <;> simp [hstray]
  · by_cases hnot : word = negationKeyword
    · subst hnot
      have hstray : ¬ IsStray negationKeyword := by
        intro h
        obtain ⟨_, op, level, hop⟩ := h
        cases (Operator.binds_iff.mp hop).1
      simp [ofWords_not, hstray, hand]
    · have hstray : isReserved word = true ↔ IsStray word :=
        (isKeyword_iff word).symm.trans (isKeyword_iff_isStray ⟨hand, hnot⟩)
      rw [ofWords, if_neg hand, if_neg hnot, Fluent.ofWord, beq_eq_false_iff_ne.mpr hnot, ← hstray]
      cases isReserved word <;>
        simp [-bind_pure_comp, Result.bind_eq_error, hand, pure, Except.pure]

/-- Words are refused exactly if a keyword strays among them or a negation is left with nothing to
negate. -/
theorem ofWords_fails_iff (hnegated : negated = true ↔ Pending before) :
    (∃ e, ofWords negated words = .error e) ↔
      (∃ word ∈ words, IsStray word) ∨ Dangles before words := by
  induction words generalizing negated before with
  | nil =>
    rw [dangles_nil, ← hnegated]
    cases negated <;> simp [ofWords]
  | cons word words ih =>
    have hnext : (word == negationKeyword && !negated) = true ↔ Pending (before ++ [word]) := by
      simp [pending_concat, ← hnegated]
    rw [ofWords_cons_fails, ih hnext, dangles_cons, hnegated, List.exists_mem_cons_iff]
    exact (or_congr_right or_left_comm).trans or_assoc.symm

end Words

/-- However a list of literals is spelt, it is read as that list. From any tree that is read, each
name gives one literal, in the order of the names, and one that is negative after an odd run of
negations. A tree is refused exactly if a keyword for another operator strays into it, or an odd run
of negations ends at a separator or at the end. -/
theorem ofTree_spelling (tree : Tree) :
    (∀ ls, Listed [tree] ls → ofTree tree = .ok ls) ∧
    (∀ ls, ofTree tree = .ok ls → ls.map (·.1.name) = names tree.words ∧
      ∀ left word right, tree.words = left ++ word :: right → IsName word →
        ∃ value, ls[(names left).length]? = some (⟨word⟩, value) ∧
          (value = false ↔ Pending left)) ∧
    ((∃ e, ofTree tree = .error e) ↔
      (∃ word ∈ tree.words, IsStray word) ∨
        ∃ left right, tree.words = left ++ right ∧
          (right = [] ∨ right.head? = some (Operator.keyword .and)) ∧ Pending left) := by
  have hnone : false = true ↔ Pending [] := by simp [not_pending_nil]
  refine ⟨?_, ?_, ?_⟩
  · intro ls h
    have hnil : ofWords false [] = .ok [] := rfl
    have hwords := h.ofWords hnil
    rwa [Tree.wordsAll, Tree.wordsAll, List.append_nil, List.append_nil, List.append_nil] at hwords
  · intro ls h
    refine ⟨map_name_of_ofWords h, ?_⟩
    intro left word right hwords hword
    rw [ofTree, hwords] at h
    exact getElem?_of_ofWords h hnone hword
  · exact ofWords_fails_iff hnone

/-- Separators, brackets and negations in excess. -/
def crowded : Tree :=
  .list [.list [.name "not", .list [.name "lit"]], .name "and",
    .list [.name "and", .name "not", .name "not", .name "hot"], .list []]

theorem crowded_read : Listed [crowded] [(⟨"lit"⟩, false), (⟨"hot"⟩, true)] ∧
    ofTree crowded = .ok [(⟨"lit"⟩, false), (⟨"hot"⟩, true)] := by
  have hlit : Written [.list [.name "not", .list [.name "lit"]]] (⟨"lit"⟩, !true) :=
    .bracket (.not (.bracket (.name (by rw [isKeyword_iff]; decide))))
  have hhot : Written [.name "not", .name "not", .name "hot"] (⟨"hot"⟩, !!true) :=
    .not (.not (.name (by rw [isKeyword_iff]; decide)))
  have hgroup : Listed [.name "and", .name "not", .name "not", .name "hot"] [(⟨"hot"⟩, true)] :=
    .separator (.literal hhot .nil)
  have hlisted : Listed [crowded] [(⟨"lit"⟩, false), (⟨"hot"⟩, true)] :=
    .group (.literal hlit (.separator (.group hgroup (.group .nil .nil)))) .nil
  exact ⟨hlisted, (ofTree_spelling crowded).1 _ hlisted⟩

end Literal

end Chronicle
