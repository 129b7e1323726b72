import Chronicle.Scenario
import Chronicle.Proofs.Result
import Chronicle.Proofs.Valuation

namespace Chronicle

namespace Valuation

theorem ofDistinct_append {v w : Valuation} (h : ∀ f ∈ w, f ∉ v) :
    ofDistinct (v.entries ++ w.entries) = .ok (v.union w) := by
  rw [ofDistinct, SortedMap.addDistinct_append, SortedMap.addDistinct_entries_empty]
  exact SortedMap.addDistinct_entries _ h

/-- No fluent is given twice where the further fluents are not valued yet. -/
theorem extensions_eq {s : FluentSet} (hs : s.size ≤ enumerationLimit) {v : Valuation}
    (h : ∀ f ∈ s, f ∉ v) : v.extensions s = .ok ((all s).map v.union) := by
  apply Result.mapM_eq_map
  intro w hw
  apply ofDistinct_append
  intro f hf
  have hkeys := (SortedMap.keys_eq_iff w s).mp ((mem_all hs w).mp hw)
  exact h f ((hkeys f).mp hf)

/-- A valuation is the union of what it says of some fluents and of all others it values. -/
theorem union_restrict {v : Valuation} {s t : FluentSet} (h : ∀ f ∈ v, f ∈ s ∨ f ∈ t) :
    (v.restrict s).union (v.restrict t) = v := by
  apply SortedMap.ext_get?
  intro f
  rw [SortedMap.get?_union, get?_restrict, get?_restrict]
  by_cases hs : f ∈ s
  · rw [if_pos hs]
    cases hv : v.get? f <;> simp
  · rw [if_neg hs, Option.none_or]
    by_cases ht : f ∈ t
    · rw [if_pos ht]
    · rw [if_neg ht, eq_comm, SortedMap.get?_eq_none]
      exact fun hv => (h f hv).elim hs ht

theorem union_inj {v v' w w' : Valuation} (hv : v.keys = v'.keys) (hw : w.keys = w'.keys)
    (hd : ∀ f ∈ w, f ∉ v) (h : v.union w = v'.union w') : v = v' ∧ w = w' := by
  have hg (f : Fluent) := congrArg (·.get? f) h
  simp only [SortedMap.get?_union] at hg
  have hmem (f : Fluent) : f ∈ v ↔ f ∈ v' := by rw [SortedMap.mem_iff, hv, SortedMap.mem_iff]
  have hmem' (f : Fluent) : f ∈ w ↔ f ∈ w' := by rw [SortedMap.mem_iff, hw, SortedMap.mem_iff]
  constructor
  · apply SortedMap.ext_get?
    intro f
    by_cases hf : f ∈ v
    · obtain ⟨b, hb⟩ := SortedMap.exists_get? hf
      obtain ⟨c, hc⟩ := SortedMap.exists_get? ((hmem f).mp hf)
      simpa [hb, hc] using hg f
    · rw [SortedMap.get?_eq_none.mpr hf, SortedMap.get?_eq_none.mpr fun h' => hf ((hmem f).mpr h')]
  · apply SortedMap.ext_get?
    intro f
    by_cases hf : f ∈ w
    · have hn := hd f hf
      have hn' : f ∉ v' := fun h' => hn ((hmem f).mpr h')
      simpa [SortedMap.get?_eq_none.mpr hn, SortedMap.get?_eq_none.mpr hn'] using hg f
    · rw [SortedMap.get?_eq_none.mpr hf, SortedMap.get?_eq_none.mpr fun h' => hf ((hmem' f).mpr h')]

end Valuation

namespace Scenario

/-- The constraint that the first observation is to satisfy. -/
def startConstraint (s : Scenario) : Formula := (s.constraintAt s.startTime).getD .top

/-- The fluents that the constraint at the start leaves open. -/
def freeFluents (s : Scenario) : FluentSet := s.fluents.diff s.startConstraint.atoms

theorem eval_startConstraint (s : Scenario) (o : Valuation) :
    o.eval s.startConstraint = .ok true ↔
      ∀ F, s.constraintAt s.startTime = some F → o.eval F = .ok true := by
  rw [startConstraint]
  cases s.constraintAt s.startTime with
  | none => simp [Valuation.eval_eq_ok, Formula.eval]
  | some F => simp

theorem mem_freeFluents (s : Scenario) (f : Fluent) :
    f ∈ s.freeFluents ↔ f ∈ s.fluents ∧ f ∉ s.startConstraint.atoms :=
  FluentSet.mem_diff _ _ f

/-- Each world of the constraint is extended without a failure. -/
theorem mapM_extensions {s : Scenario} {atomLimit : Nat} {ws : List Valuation}
    (hw : s.startConstraint.models atomLimit = .ok ws)
    (hsize : s.freeFluents.size ≤ effectiveLimit atomLimit) :
    ws.mapM (fun v => v.extensions s.freeFluents) =
      .ok (ws.map fun v => (Valuation.all s.freeFluents).map v.union) := by
  apply Result.mapM_eq_map
  intro v hv
  apply Valuation.extensions_eq (le_enumerationLimit hsize)
  intro f hf hfv
  have hatoms := (SortedMap.keys_eq_iff _ _).mp ((Formula.mem_models hw v).mp hv).1
  exact ((mem_freeFluents s f).mp hf).2 ((hatoms f).mp hfv)

theorem undeclared_eq_nil (s : Scenario) : (s.startConstraint.atoms.diff s.fluents).keys = [] ↔
    ∀ f ∈ s.startConstraint.atoms, f ∈ s.fluents := by
  simp only [List.eq_nil_iff_forall_not_mem, ← SortedMap.mem_iff, FluentSet.mem_diff, not_and,
    not_not]

/-- Seeding, once the worlds of the constraint are enumerated: the checks in their order, and what
is built after them. -/
theorem initialCandidates_eq {s : Scenario} {atomLimit : Nat} {ws : List Valuation}
    (hw : s.startConstraint.models atomLimit = .ok ws) (modelLimit : Nat) :
    s.initialCandidates atomLimit modelLimit =
      match (s.startConstraint.atoms.diff s.fluents).keys with
      | f :: _ => .error (.logic (.undefinedFluent f))
      | [] =>
        if s.freeFluents.size > effectiveLimit atomLimit then
          .error (.limit (.atoms s.freeFluents.size (effectiveLimit atomLimit)))
        else if min (Nat.pow 2 s.freeFluents.size * ws.length) countLimit > modelLimit then
          .error (.limit (.models (min (Nat.pow 2 s.freeFluents.size * ws.length) countLimit)
            modelLimit))
        else if min (Nat.pow 2 s.freeFluents.size * ws.length) countLimit > capacityLimit then
          .error .capacityOverflow
        else .ok (ws.flatMap fun v => (Valuation.all s.freeFluents).map v.union) := by
  rw [initialCandidates, ← startConstraint, hw, ← freeFluents, List.flatMap_def]
  dsimp only [bind, Except.bind]
  cases (s.startConstraint.atoms.diff s.fluents).keys with
  | cons f fs => rfl
  | nil =>
    by_cases hfree : s.freeFluents.size > effectiveLimit atomLimit
    · simp only [if_pos hfree]
      rfl
    · simp only [if_neg hfree, mapM_extensions hw (Nat.le_of_not_gt hfree)]
      rfl

/-- All that seeding can do when it succeeds. -/
theorem initialCandidates_eq_ok {s : Scenario} {atomLimit modelLimit : Nat} {os : List Valuation}
    (h : s.initialCandidates atomLimit modelLimit = .ok os) :
    ∃ ws, s.startConstraint.models atomLimit = .ok ws ∧
      (∀ f ∈ s.startConstraint.atoms, f ∈ s.fluents) ∧
      s.freeFluents.size ≤ effectiveLimit atomLimit ∧
      min (Nat.pow 2 s.freeFluents.size * ws.length) countLimit ≤ modelLimit ∧
      min (Nat.pow 2 s.freeFluents.size * ws.length) countLimit ≤ capacityLimit ∧
      os = ws.flatMap fun v => (Valuation.all s.freeFluents).map v.union := by
  obtain ⟨ws, hw, _⟩ := (Result.bind_eq_ok _ _ _).mp h
  rw [initialCandidates_eq hw] at h
  refine ⟨ws, hw, ?_⟩
  split at h
  case h_1 => cases h
  case h_2 hnil =>
    refine ⟨(undeclared_eq_nil s).mp hnil, ?_⟩
    split at h
    case isTrue => cases h
    case isFalse hfree =>
      split at h
      case isTrue => cases h
      case isFalse hcount =>
        split at h
        case isTrue => cases h
        case isFalse hroom =>
          exact ⟨Nat.le_of_not_gt hfree, Nat.le_of_not_gt hcount, Nat.le_of_not_gt hroom,
            (Except.ok.inj h).symm⟩

/-- All that seeding can fail with. -/
theorem initialCandidates_eq_error {s : Scenario} {atomLimit modelLimit : Nat} {e : Error}
    (h : s.initialCandidates atomLimit modelLimit = .error e) :
    (∃ why, e = .limit why) ∨ (∃ f, e = .logic (.undefinedFluent f)) ∨ e = .capacityOverflow := by
  cases hw : s.startConstraint.models atomLimit with
  | error err =>
    obtain ⟨_, rfl⟩ := (s.startConstraint.models_eq_error atomLimit err).mp hw
    rw [initialCandidates, ← startConstraint, hw] at h
    exact .inl ⟨_, (Except.error.inj h).symm⟩
  | ok ws =>
    rw [initialCandidates_eq hw] at h
    split at h
    case h_1 => exact .inr (.inl ⟨_, (Except.error.inj h).symm⟩)
    case h_2 =>
      split at h
      case isTrue => exact .inl ⟨_, (Except.error.inj h).symm⟩
      case isFalse =>
        split at h
        case isTrue => exact .inl ⟨_, (Except.error.inj h).symm⟩
        case isFalse =>
          split at h
          case isTrue => exact .inr (.inr (Except.error.inj h).symm)
          case isFalse => cases h

section Candidates

variable {s : Scenario} {atomLimit modelLimit : Nat} {os : List Valuation}

/-- A run is seeded with every observation of the fluents that satisfies the first constraint. -/
theorem mem_initialCandidates (h : s.initialCandidates atomLimit modelLimit = .ok os)
    (o : Valuation) :
    o ∈ os ↔ o.keys = s.fluents.keys ∧ o.eval s.startConstraint = .ok true := by
  obtain ⟨ws, hw, hsub, hsize, _, _, rfl⟩ := initialCandidates_eq_ok h
  have hcover (f : Fluent) : f ∈ s.fluents ↔ f ∈ s.startConstraint.atoms ∨ f ∈ s.freeFluents := by
    rw [mem_freeFluents]
    by_cases hf : f ∈ s.startConstraint.atoms
    · simp [hf, hsub f hf]
    · simp [hf]
  simp only [List.mem_flatMap, List.mem_map, Valuation.mem_all (le_enumerationLimit hsize),
    Formula.mem_models hw]
  constructor
  · intro ho
    obtain ⟨v, ⟨hk, ht⟩, w, hk', rfl⟩ := ho
    have hv (f : Fluent) := Valuation.mem_iff_of_keys_eq hk f
    have hw' (f : Fluent) := Valuation.mem_iff_of_keys_eq hk' f
    constructor
    · apply SortedMap.keys_eq_of_mem_iff
      intro f
      rw [SortedMap.mem_union, hv, hw', hcover]
    · rw [← ht]
      apply Valuation.eval_congr
      intro f hf
      obtain ⟨b, hb⟩ := SortedMap.exists_get? ((hv f).mpr hf)
      rw [SortedMap.get?_union, hb]
      rfl
  · intro ho
    obtain ⟨hk, ht⟩ := ho
    have hmem (f : Fluent) := Valuation.mem_iff_of_keys_eq hk f
    have hatoms : ∀ f ∈ s.startConstraint.atoms, f ∈ o := fun f hf => (hmem f).mpr (hsub f hf)
    have hfree : ∀ f ∈ s.freeFluents, f ∈ o :=
      fun f hf => (hmem f).mpr ((mem_freeFluents s f).mp hf).1
    refine ⟨o.restrict s.startConstraint.atoms, ⟨Valuation.keys_restrict hatoms, ?_⟩,
      o.restrict s.freeFluents, Valuation.keys_restrict hfree, ?_⟩
    · rw [← ht]
      apply Valuation.eval_congr
      intro f hf
      rw [Valuation.get?_restrict, if_pos hf]
    · apply Valuation.union_restrict
      intro f hf
      exact (hcover f).mp ((hmem f).mp hf)

theorem initialCandidates_nodup (h : s.initialCandidates atomLimit modelLimit = .ok os) :
    os.Nodup := by
  obtain ⟨ws, hw, _, hsize, _, _, rfl⟩ := initialCandidates_eq_ok h
  have hall := Valuation.mem_all (le_enumerationLimit hsize)
  have hkeys : ∀ v ∈ ws, v.keys = s.startConstraint.atoms.keys :=
    fun v hv => ((Formula.mem_models hw v).mp hv).1
  have hapart : ∀ v ∈ ws, ∀ w ∈ Valuation.all s.freeFluents, ∀ f ∈ w, f ∉ v := by
    intro v hv w hw f hf hf'
    have hfree := (Valuation.mem_iff_of_keys_eq ((hall w).mp hw) f).mp hf
    exact ((mem_freeFluents s f).mp hfree).2 ((Valuation.mem_iff_of_keys_eq (hkeys v hv) f).mp hf')
  have hinj : ∀ v ∈ ws, ∀ v' ∈ ws, ∀ w ∈ Valuation.all s.freeFluents,
      ∀ w' ∈ Valuation.all s.freeFluents, v.union w = v'.union w' → v = v' ∧ w = w' := by
    intro v hv v' hv' w hw w' hw' he
    refine Valuation.union_inj ((hkeys v hv).trans (hkeys v' hv').symm) ?_ (hapart v hv w hw) he
    exact ((hall w).mp hw).trans ((hall w').mp hw').symm
  rw [List.nodup_flatMap]
  constructor
  · intro v hv
    apply List.Nodup.map_on _ (Valuation.all_nodup (le_enumerationLimit hsize))
    intro w hw w' hw' he
    exact (hinj v hv v hv w hw w' hw' he).2
  · apply (Formula.models_nodup hw).imp_of_mem
    intro v v' hv hv' hne
    apply List.disjoint_left.mpr
    intro o ho ho'
    obtain ⟨w, hw, rfl⟩ := List.mem_map.mp ho
    obtain ⟨w', hw', he⟩ := List.mem_map.mp ho'
    exact hne (hinj v hv v' hv' w hw w' hw' he.symm).1

theorem length_candidates (hsize : s.freeFluents.size ≤ effectiveLimit atomLimit)
    (ws : List Valuation) :
    (ws.flatMap fun v => (Valuation.all s.freeFluents).map v.union).length =
      Nat.pow 2 s.freeFluents.size * ws.length := by
  simp [List.length_flatMap, Valuation.length_all (le_enumerationLimit hsize), Nat.mul_comm]

theorem length_initialCandidates (h : s.initialCandidates atomLimit modelLimit = .ok os) :
    min os.length countLimit ≤ modelLimit := by
  obtain ⟨ws, _, _, hsize, hcount, _, rfl⟩ := initialCandidates_eq_ok h
  rw [length_candidates hsize]
  exact hcount

end Candidates

end Scenario

end Chronicle
