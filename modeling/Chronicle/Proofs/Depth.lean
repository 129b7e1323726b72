import Chronicle.Proofs.Batch
import Chronicle.Proofs.Formula.Evaluation

/-!
How deep formulas are nested. The limit binds every formula that is read from one tree. It does not
bind the conjunctions that are made of several: effects of their literals, and constraints of all
that is observed at one time.
-/

namespace Chronicle

/-- The most operators on a branch. -/
def Formula.nesting : Formula → Nat
  | top => 0
  | atom _ => 0
  | neg F => F.nesting + 1
  | binary _ F G => max F.nesting G.nesting + 1

theorem Formula.depth_eq (F : Formula) : F.depth = F.nesting + 1 := by
  induction F with
  | top => rfl
  | atom => rfl
  | neg F ih => rw [depth, nesting, ih]
  | binary op F G ihF ihG => rw [depth, nesting, ihF, ihG, Nat.add_max_add_right]

section Reader

/-- The depth that is kept of a formula is its own, and within the limit. -/
structure Operand.Measured (x : Operand) : Prop where
  depth : x.depth = x.formula.depth
  within : x.depth ≤ depthLimit

def Waiting.Measured (w : Waiting) : Prop := ∀ l ∈ w, l.1.Measured

variable {x y z : Operand} {w w' : Waiting} {op : Operator}

theorem Operand.Measured.negate (hx : x.Measured) (h : x.negate = .ok y) : y.Measured := by
  rw [Operand.negate] at h
  split at h
  case isTrue hlt =>
    obtain rfl := Except.ok.inj h
    exact ⟨congrArg (· + 1) hx.depth, hlt⟩
  case isFalse => cases h

theorem Operand.Measured.negateTimes {n : Nat} (hx : x.Measured) (h : x.negateTimes n = .ok y) :
    y.Measured := by
  induction n generalizing x with
  | zero => exact Except.ok.inj h ▸ hx
  | succ n ih =>
    obtain ⟨z, hz, h⟩ := (Result.bind_eq_ok _ _ _).mp h
    exact ih (hx.negate hz) h

theorem Operand.Measured.apply (hx : x.Measured) (hy : y.Measured)
    (h : Operand.apply op x y = .ok z) : z.Measured := by
  rw [Operand.apply] at h
  split at h
  case isTrue hlt =>
    obtain rfl := Except.ok.inj h
    refine ⟨?_, hlt⟩
    simp only [Formula.depth, hx.depth, hy.depth]
  case isFalse => cases h

theorem Waiting.Measured.reduce {floor : Nat} (hw : w.Measured) (hx : x.Measured)
    (h : w.reduce floor x = .ok (w', y)) : w'.Measured ∧ y.Measured := by
  induction w generalizing x with
  | nil =>
    obtain ⟨rfl, rfl⟩ := Prod.mk.inj (Except.ok.inj h)
    exact ⟨hw, hx⟩
  | cons l rest ih =>
    obtain ⟨l, op⟩ := l
    obtain ⟨hl, hrest⟩ := List.forall_mem_cons.mp hw
    rw [Waiting.reduce] at h
    split at h
    case isTrue =>
      obtain ⟨z, hz, h⟩ := (Result.bind_eq_ok _ _ _).mp h
      exact ih hrest (hl.apply hx hz) h
    case isFalse =>
      obtain ⟨rfl, rfl⟩ := Prod.mk.inj (Except.ok.inj h)
      exact ⟨hw, hx⟩

theorem Waiting.Measured.finish (hw : w.Measured) (hx : x.Measured) (h : w.finish x = .ok y) :
    y.Measured := by
  obtain ⟨⟨w', z⟩, hz, h⟩ := (Result.bind_eq_ok _ _ _).mp h
  obtain rfl := Except.ok.inj h
  exact (hw.reduce hx hz).2

end Reader

namespace Tree

-- By induction on the tree, along with the operands that wait on the way through a list.
mutual

theorem readItem_measured {x : Operand} :
    ∀ {tree : Tree}, tree.readItem = .ok x → x.Measured
  | name word, h => by
    rw [readItem] at h
    split at h
    case isTrue => cases h
    case isFalse =>
      obtain ⟨f, _, h⟩ := (Result.bind_eq_ok _ _ _).mp h
      obtain rfl := Except.ok.inj h
      have hone : 1 ≤ depthLimit := by decide
      exact ⟨rfl, hone⟩
  | list items, h => by
    rw [readItem] at h
    split at h
    case isTrue => cases h
    case isFalse => exact readOperand_measured (by simp [Waiting.Measured]) h

theorem readOperand_measured {x : Operand} :
    ∀ {w : Waiting} {negations : Nat} {items : List Tree}, w.Measured →
      readOperand w negations items = .ok x → x.Measured
  | _, _, [], _, h => by cases h
  | w, negations, item :: rest, hw, h => by
    rw [readOperand] at h
    split at h
    case isTrue => exact readOperand_measured hw h
    case isFalse =>
      obtain ⟨y, hy, h⟩ := (Result.bind_eq_ok _ _ _).mp h
      obtain ⟨z, hz, h⟩ := (Result.bind_eq_ok _ _ _).mp h
      exact readOperator_measured hw ((readItem_measured hy).negateTimes hz) h

theorem readOperator_measured {x : Operand} :
    ∀ {w : Waiting} {y : Operand} {items : List Tree}, w.Measured → y.Measured →
      readOperator w y items = .ok x → x.Measured
  | _, _, [], hw, hy, h => hw.finish hy h
  | w, y, item :: rest, hw, hy, h => by
    rw [readOperator] at h
    cases hop : item.operator? with
    | some op =>
      rw [hop] at h
      obtain ⟨⟨w', l⟩, hl, h⟩ := (Result.bind_eq_ok _ _ _).mp h
      obtain ⟨hw', hl⟩ := hw.reduce hy hl
      exact readOperand_measured (List.forall_mem_cons.mpr ⟨hl, hw'⟩) h
    | none =>
      rw [hop] at h
      obtain ⟨_, _, h⟩ := (Result.bind_eq_ok _ _ _).mp h
      cases h

end

end Tree

namespace Formula

section Whole

variable {tree : Tree} {F : Formula}

theorem ofTree_name {word : String} (h : Operator.ofKeyword? word = none) :
    ofTree (.name word) = (Tree.name word).readItem.map Operand.formula := by
  rw [ofTree, Tree.readItem, h, if_neg (by simp)]
  cases Fluent.ofWord word with
  | error e => rfl
  | ok f => rfl

theorem ofTree_list {items : List Tree} (h : items ≠ []) :
    ofTree (.list items) = (Tree.list items).readItem.map Operand.formula := by
  rw [ofTree, Tree.readItem, if_neg (by simpa using h)]
  · cases Tree.readOperand [] 0 items with
    | error e => rfl
    | ok x => rfl
  · exact h

/-- Only the empty list is a formula by itself and not an operand. -/
theorem ofTree_sameOutcome (h : tree ≠ .list []) :
    Result.SameOutcome (ofTree tree) (tree.readItem.map Operand.formula) := by
  cases tree with
  | name word =>
    by_cases hop : (Operator.ofKeyword? word).isSome = true
    · have hreserved : isReserved word = true := by simp [isReserved, hop]
      rw [ofTree, Fluent.ofWord, if_pos hreserved, Tree.readItem, if_pos hop]
      exact .inr ⟨_, _, rfl, rfl⟩
    · rw [ofTree_name (Option.not_isSome_iff_eq_none.mp hop)]
      exact .refl _
  | list items =>
    rw [ofTree_list fun hnil => h (congrArg Tree.list hnil)]
    exact .refl _

theorem ofTree_eq_ok (h : tree ≠ .list []) :
    ofTree tree = .ok F ↔ ∃ x, tree.readItem = .ok x ∧ x.formula = F :=
  (Result.sameOutcome_iff.mp (ofTree_sameOutcome h) F).trans (Result.map_eq_ok _ _ _)

/-- A leaf counts towards the depth, so that the operators of a formula that is read stay below the
limit. -/
theorem nesting_ofTree (h : ofTree tree = .ok F) : F.nesting < depthLimit := by
  by_cases hne : tree = .list []
  · subst hne
    obtain rfl := Except.ok.inj h
    decide
  · obtain ⟨x, hx, rfl⟩ := (ofTree_eq_ok hne).mp h
    have hm := Tree.readItem_measured hx
    have hdepth := hm.depth
    have hwithin := hm.within
    rw [x.formula.depth_eq] at hdepth
    omega

end Whole

theorem nesting_ofTree? {tree : Option Tree} {F : Formula} (h : ofTree? tree = .ok F) :
    F.nesting < depthLimit := by
  cases tree with
  | none =>
    obtain rfl := Except.ok.inj h
    decide
  | some tree => exact nesting_ofTree h

section Conjunction

variable {F G : Formula} {Fs : List Formula} {n : Nat}

theorem conjunction_filter (Fs : List Formula) :
    conjunction (Fs.filter fun F => !F.isTop) = conjunction Fs := by
  have h (G : Formula) : (Fs.filter fun F => !F.isTop).foldl conjoin G = Fs.foldl conjoin G := by
    induction Fs generalizing G with
    | nil => rfl
    | cons F Fs ih =>
      cases hF : F.isTop with
      | true =>
        have hG : G.conjoin F = G := by
          rw [conjoin]
          split
          case isTrue hG => rw [(isTop_iff F).mp hF, (isTop_iff G).mp hG]
          case isFalse => rfl
        simp [hF, ih, hG]
      | false => simp [hF, ih]
  exact h top

theorem conjunction_cons (hF : F.isTop = false) (hFs : ∀ G ∈ Fs, G.isTop = false) :
    conjunction (F :: Fs) = Fs.foldl (binary .and) F := by
  have h (F : Formula) (hF : F.isTop = false) : Fs.foldl conjoin F = Fs.foldl (binary .and) F := by
    induction Fs generalizing F with
    | nil => rfl
    | cons G Fs ih =>
      obtain ⟨hG, hrest⟩ := List.forall_mem_cons.mp hFs
      have hjoin : F.conjoin G = binary .and F G := by simp [conjoin, hF, hG]
      rw [List.foldl_cons, List.foldl_cons, hjoin]
      exact ih hrest _ rfl
  exact h F hF

theorem forall_getElem?_cons {α : Type} {P : Nat → α → Prop} (x : α) (xs : List α) :
    (∀ i a, (x :: xs)[i]? = some a → P i a) ↔ P 0 x ∧ ∀ i a, xs[i]? = some a → P (i + 1) a := by
  rw [← Nat.and_forall_add_one]
  simp

theorem nesting_foldl_le (F : Formula) (Fs : List Formula) (n : Nat) :
    (Fs.foldl (binary .and) F).nesting ≤ n ↔ F.nesting + Fs.length ≤ n ∧
      ∀ i G, Fs[i]? = some G → G.nesting + (Fs.length - i) ≤ n := by
  induction Fs generalizing F with
  | nil => simp
  | cons G Fs ih =>
    have hbinary : (binary .and F G).nesting + Fs.length ≤ n ↔
        F.nesting + (Fs.length + 1) ≤ n ∧ G.nesting + (Fs.length + 1) ≤ n := by
      rw [nesting]
      omega
    rw [List.foldl_cons, ih, hbinary, and_assoc, forall_getElem?_cons]
    simp

/-- The first member of a conjunction stands under all its operators, and each other under one more
than there are members after it. -/
theorem nesting_conjunction_le (hFs : ∀ F ∈ Fs, F.isTop = false) (n : Nat) :
    (conjunction Fs).nesting ≤ n ↔
      ∀ i F, Fs[i]? = some F → F.nesting + (Fs.length - max i 1) ≤ n := by
  cases Fs with
  | nil => simp [conjunction, nesting]
  | cons F Fs =>
    obtain ⟨hF, hrest⟩ := List.forall_mem_cons.mp hFs
    rw [conjunction_cons hF hrest, nesting_foldl_le, forall_getElem?_cons]
    simp

end Conjunction

end Formula

namespace Literal

theorem isTop_toFormula (l : Literal) : l.toFormula.isTop = false := by
  rw [toFormula, Formula.literal]
  split <;> rfl

theorem nesting_toFormula (l : Literal) : l.toFormula.nesting = if l.2 then 0 else 1 := by
  rw [toFormula, Formula.literal]
  split <;> rfl

/-- The operators nested in the conjunction of some literals: one less than there are literals, or
one more than that if the first or the second is negative. -/
def nesting (ls : List Literal) : Nat :=
  ls.length + (if (ls.take 2).all Prod.snd then 0 else 1) - 1

theorem nesting_foldl (F : Formula) (hF : 1 ≤ F.nesting) (ls : List Literal) :
    ((ls.map toFormula).foldl (.binary .and) F).nesting = F.nesting + ls.length := by
  induction ls generalizing F with
  | nil => rfl
  | cons l ls ih =>
    have hl : l.toFormula.nesting ≤ F.nesting := by
      rw [nesting_toFormula]
      split <;> omega
    have hbinary : (Formula.binary .and F l.toFormula).nesting = F.nesting + 1 := by
      rw [Formula.nesting, Nat.max_eq_left hl]
    rw [List.map_cons, List.foldl_cons, ih _ (by omega), hbinary, List.length_cons]
    omega

theorem nesting_conjunction (ls : List Literal) :
    (Formula.conjunction (ls.map toFormula)).nesting = nesting ls := by
  have htop : ∀ F ∈ ls.map toFormula, F.isTop = false :=
    List.forall_mem_map.mpr fun l _ => l.isTop_toFormula
  rcases ls with _ | ⟨l, _ | ⟨l', ls⟩⟩
  · rfl
  · have hone : Formula.conjunction [l.toFormula] = l.toFormula := rfl
    rw [List.map_singleton, hone, nesting_toFormula]
    simp [nesting]
  -- After the first two literals the conjunction is no less deep than any literal to come.
  · obtain ⟨hl, htop⟩ := List.forall_mem_cons.mp htop
    have hbinary : (Formula.binary .and l.toFormula l'.toFormula).nesting =
        (if l.2 && l'.2 then 0 else 1) + 1 := by
      rw [Formula.nesting, nesting_toFormula, nesting_toFormula]
      cases l.2 <;> cases l'.2 <;> rfl
    rw [List.map_cons, Formula.conjunction_cons hl htop, List.map_cons, List.foldl_cons,
      nesting_foldl _ (by omega), hbinary, nesting]
    simp only [List.length_cons, List.take_succ_cons, List.take_zero, List.all_cons, List.all_nil,
      Bool.and_true]
    omega

end Literal

def Query.formula? : Query → Option Formula
  | formula F _ _ => some F
  | action _ _ _ => none
  | agent _ => none

/-- The conditions, effects and constraints of a batch, and what its queries ask about. -/
def Batch.formulas (b : Batch) : List Formula :=
  b.scenario.statements.map Statement.condition ++
    b.scenario.statements.filterMap Statement.effect? ++
    b.scenario.timeline.entries.filterMap (fun m => m.2.constraint) ++
    b.queries.filterMap Query.formula?

namespace Problem

variable {p : Problem} {b : Batch} {os : List (Time × Formula)} {t : Time}

/-- What is observed at a time, save for what is observed to no effect. -/
def observedAt (p : Problem) (t : Time) : List Formula :=
  p.observations.filterMap fun entry =>
    match timedFormula entry with
    | .ok (t', F) => if t' = t ∧ F.isTop = false then some F else none
    | .error _ => none

theorem observedAt_eq (h : p.observations.mapM timedFormula = .ok os) (t : Time) :
    p.observedAt t = (formulasAt t os).filter fun F => !F.isTop := by
  rw [Result.mapM_eq_ok] at h
  rw [observedAt, formulasAt]
  generalize p.observations = entries at h ⊢
  induction h with
  | nil => rfl
  | @cons entry o entries os ho _ ih =>
    obtain ⟨t', F⟩ := o
    rw [List.filterMap_cons, List.filterMap_cons, ho, ih]
    by_cases ht : t' = t
    · cases hF : F.isTop <;> simp [ht, hF]
    · simp [ht]

theorem consequence_effect {kind : String} {ls : List Literal} {c : Consequence}
    (h : consequence kind ls = .ok c) (F : Formula) : c = .causes F ↔
      kind = "causes" ∧ Formula.conjunction (ls.map Literal.toFormula) = F := by
  rcases consequence_eq_ok.mp h with ⟨rfl, rfl⟩ | ⟨rfl, _, _, _, _, rfl⟩
  · simp
  · simp

theorem statement_eq_ok {entry : StatementEntry} {s : Statement} (h : p.statement entry = .ok s) :
    Formula.ofTree? entry.condition = .ok s.condition ∧ ∀ F, s.effect? = some F ↔
      entry.kind = some "causes" ∧ ∃ ls, effects entry.effects = .ok ls ∧
        Formula.conjunction (ls.map Literal.toFormula) = F := by
  obtain ⟨_, hcondition, ls, kind, hls, hkind, hc⟩ := (statement_iff entry s).mp h
  refine ⟨hcondition, ?_⟩
  intro F
  have heffect : s.effect? = some F ↔ s.consequence = .causes F := by
    rw [Statement.effect?]
    cases s.consequence <;> simp
  rw [heffect, consequence_effect hc, hkind, hls]
  simp

theorem query_formula {entry : QueryEntry} {q : Query} {F : Formula} (h : p.query entry = .ok q)
    (hF : q.formula? = some F) : ∃ tree, Formula.ofTree? tree = .ok F := by
  obtain ⟨d, _, h⟩ := (query_iff entry q).mp h
  rcases h with ⟨_, _, _, _, G, _, _, _, hG, rfl⟩ | ⟨_, _, _, _, _, rfl⟩ | ⟨_, _, _, _, _, rfl⟩
  · obtain rfl := Option.some.inj hF
    exact ⟨d.condition, hG⟩
  · cases hF
  · cases hF

theorem Reading.mem_effects (r : Reading p) (F : Formula) :
    F ∈ r.statements.filterMap Statement.effect? ↔ ∃ entry ∈ p.statements,
      entry.kind = some "causes" ∧ ∃ ls, effects entry.effects = .ok ls ∧
        Formula.conjunction (ls.map Literal.toFormula) = F := by
  rw [List.mem_filterMap]
  constructor
  · intro h
    obtain ⟨s, hs, hF⟩ := h
    obtain ⟨entry, hentry, hread⟩ := (Result.mem_mapM r.statements_eq s).mp hs
    exact ⟨entry, hentry, ((statement_eq_ok hread).2 F).mp hF⟩
  · intro h
    obtain ⟨entry, hentry, hF⟩ := h
    obtain ⟨s, hread⟩ := Result.mapM_isOk r.statements_eq entry hentry
    exact ⟨s, (Result.mem_mapM r.statements_eq s).mpr ⟨entry, hentry, hread⟩,
      ((statement_eq_ok hread).2 F).mpr hF⟩

theorem Reading.mem_constraints (r : Reading p) (F : Formula) :
    F ∈ (Timeline.gather r.events r.observations).entries.filterMap (fun m => m.2.constraint) ↔
      ∃ t, formulasAt t r.observations ≠ [] ∧
        Formula.conjunction (formulasAt t r.observations) = F := by
  simp only [List.mem_filterMap, Prod.exists, ← SortedMap.get?_eq_some]
  refine exists_congr fun t => ?_
  constructor
  · intro h
    obtain ⟨m, hm, hF⟩ := h
    rw [Timeline.eq_gather r.distinct hm, Moment.gather] at hF
    exact Option.ite_none_left_eq_some.mp hF |>.imp_right Option.some.inj
  · intro h
    obtain ⟨hne, hF⟩ := h
    have ht : t ∈ r.observations.map Prod.fst := by
      by_contra hnone
      exact hne ((formulasAt_eq_nil t _).mpr hnone)
    refine ⟨Moment.gather t r.events r.observations, ?_, ?_⟩
    · rw [Timeline.get?_gather r.distinct, if_pos (.inr ht)]
    · rw [Moment.gather, if_neg hne, hF]

theorem Reading.nesting_constraints (r : Reading p) (n : Nat) :
    (∀ F ∈ (Timeline.gather r.events r.observations).entries.filterMap (fun m => m.2.constraint),
      F.nesting ≤ n) ↔ ∀ t i F, (p.observedAt t)[i]? = some F →
        F.nesting + ((p.observedAt t).length - max i 1) ≤ n := by
  simp only [r.mem_constraints]
  have hconj (t : Time) : (Formula.conjunction (formulasAt t r.observations)).nesting ≤ n ↔
      ∀ i F, (p.observedAt t)[i]? = some F →
        F.nesting + ((p.observedAt t).length - max i 1) ≤ n := by
    rw [← Formula.conjunction_filter, ← observedAt_eq r.observations_eq]
    apply Formula.nesting_conjunction_le
    intro F hF
    rw [observedAt_eq r.observations_eq] at hF
    simpa using (List.mem_filter.mp hF).2
  constructor
  · intro h t
    by_cases hnil : formulasAt t r.observations = []
    · simp [observedAt_eq r.observations_eq, hnil]
    · exact (hconj t).mp (h _ ⟨t, hnil, rfl⟩)
  · intro h F hF
    obtain ⟨t, _, rfl⟩ := hF
    exact (hconj t).mpr (h t)

/-- Conditions and queries are nested less deeply than the limit. So are effects and constraints up
to the limit exactly where no effect has too many literals, and where at no time is too much
observed. -/
theorem nesting_toBatch (h : p.toBatch = .ok b) :
    (∀ s ∈ b.scenario.statements, s.condition.nesting < depthLimit) ∧
    (∀ q ∈ b.queries, ∀ F, q.formula? = some F → F.nesting < depthLimit) ∧
    ((∀ F ∈ b.formulas, F.nesting ≤ depthLimit) ↔
      (∀ entry ∈ p.statements, entry.kind = some "causes" →
        ∀ ls, effects entry.effects = .ok ls → Literal.nesting ls ≤ depthLimit) ∧
      ∀ t i F, (p.observedAt t)[i]? = some F →
        F.nesting + ((p.observedAt t).length - max i 1) ≤ depthLimit) := by
  obtain ⟨r, rfl⟩ := toBatch_eq_ok.mp h
  have hconditions : ∀ s ∈ r.statements, s.condition.nesting < depthLimit := by
    intro s hs
    obtain ⟨entry, _, hread⟩ := (Result.mem_mapM r.statements_eq s).mp hs
    exact Formula.nesting_ofTree? (statement_eq_ok hread).1
  have hqueries : ∀ q ∈ r.queries, ∀ F, q.formula? = some F → F.nesting < depthLimit := by
    intro q hq F hF
    obtain ⟨entry, _, hread⟩ := (Result.mem_mapM r.queries_eq q).mp hq
    obtain ⟨tree, htree⟩ := query_formula hread hF
    exact Formula.nesting_ofTree? htree
  have heffects : (∀ F ∈ r.statements.filterMap Statement.effect?, F.nesting ≤ depthLimit) ↔
      ∀ entry ∈ p.statements, entry.kind = some "causes" →
        ∀ ls, effects entry.effects = .ok ls → Literal.nesting ls ≤ depthLimit := by
    simp only [r.mem_effects, ← Literal.nesting_conjunction]
    constructor
    · intro h entry hentry hkind ls hls
      exact h _ ⟨entry, hentry, hkind, ls, hls, rfl⟩
    · intro h F hF
      obtain ⟨entry, hentry, hkind, ls, hls, rfl⟩ := hF
      exact h entry hentry hkind ls hls
  refine ⟨hconditions, hqueries, ?_⟩
  rw [← heffects, ← r.nesting_constraints]
  simp only [Batch.formulas, Reading.batch, List.forall_mem_append, List.forall_mem_map]
  constructor
  · intro h
    exact ⟨h.1.1.2, h.1.2⟩
  · intro h
    refine ⟨⟨⟨fun s hs => Nat.le_of_lt (hconditions s hs), h.1⟩, h.2⟩, ?_⟩
    intro F hF
    obtain ⟨q, hq, hqF⟩ := List.mem_filterMap.mp hF
    exact Nat.le_of_lt (hqueries q hq F hqF)

end Problem

/-- A rule with the same effect some number of times. -/
def repeating (n : Nat) : Problem where
  termination := some 0
  states := some ["lit"]
  agents := none
  actions := none
  statements := [⟨some "switch", none, some "causes",
    some (.list (List.replicate n (.name "lit"))), none⟩]
  events := []
  observations := []
  queries := []

theorem wordsAll_replicate (n : Nat) (word : String) :
    Tree.wordsAll (List.replicate n (.name word)) = List.replicate n word := by
  induction n with
  | zero => rfl
  | succ n ih =>
    rw [List.replicate_succ, Tree.wordsAll, ih]
    rfl

theorem ofWords_replicate (n : Nat) : Literal.ofWords false (List.replicate n "lit") =
    .ok (List.replicate n (⟨"lit"⟩, true)) := by
  induction n with
  | zero => rfl
  | succ n ih =>
    rw [List.replicate_succ, Literal.ofWords, if_neg (by decide), if_neg (by decide), ih]
    rfl

theorem effects_repeating (n : Nat) :
    Problem.effects (some (.list (List.replicate n (.name "lit")))) =
      .ok (List.replicate n (⟨"lit"⟩, true)) := by
  rw [Problem.effects, Literal.ofTree, Tree.words, wordsAll_replicate, ofWords_replicate]

/-- What the rule is read to cause. -/
def repeatedEffect (n : Nat) : Formula :=
  Formula.conjunction ((List.replicate n (⟨"lit"⟩, true)).map Literal.toFormula)

def repeatedStatement (n : Nat) : Statement :=
  ⟨⟨⟨"switch"⟩, none⟩, .top, .causes (repeatedEffect n)⟩

theorem repeating_accepted (n : Nat) : (repeating n).toBatch =
    .ok ⟨⟨.ofList [⟨"lit"⟩], ∅, [repeatedStatement n]⟩, [], 0⟩ := by
  have hstatements : (repeating n).statements.mapM (repeating n).statement =
      .ok [repeatedStatement n] := by
    rw [Result.mapM_eq_ok]
    refine .cons ?_ .nil
    simp only [Problem.statement, effects_repeating]
    rfl
  exact Problem.toBatch_eq_ok.mpr
    ⟨⟨0, ["lit"], [⟨"lit"⟩], _, [], [], [], rfl, rfl, rfl, hstatements, rfl, .nil, rfl, rfl⟩, rfl⟩

theorem repeating_nesting : ∃ b, (repeating 3).toBatch = .ok b ∧
    ∀ F ∈ b.formulas, F.nesting ≤ depthLimit := by
  have hb := repeating_accepted 3
  refine ⟨_, hb, (Problem.nesting_toBatch hb).2.2.mpr ⟨?_, ?_⟩⟩
  · intro entry hentry _ ls hls
    obtain rfl := List.mem_singleton.mp hentry
    obtain rfl := Except.ok.inj ((effects_repeating 3).symm.trans hls)
    decide
  · intro t i F hF
    simp [Problem.observedAt, repeating] at hF

/-- The conjunction of so many effects is nested more deeply than the limit. -/
theorem repeating_exceeds_limit : ∃ b, (repeating 1026).toBatch = .ok b ∧
    ∃ F ∈ b.formulas, depthLimit < F.nesting := by
  refine ⟨_, repeating_accepted 1026, repeatedEffect 1026, ?_, ?_⟩
  · simp [Batch.formulas, Statement.effect?, repeatedStatement]
  · rw [repeatedEffect, Literal.nesting_conjunction, Literal.nesting, List.length_replicate,
      List.take_replicate]
    decide

end Chronicle
