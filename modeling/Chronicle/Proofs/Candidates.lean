import Chronicle.Proofs.Outcomes
import Chronicle.Proofs.Seeding

/-!
How many observations a run may begin with. The number is known before any of them is built: there
is one for each world of the constraint at the start and each way to value the fluents that it
leaves open. It is compared with the limit first, and then with the room there is.
-/

namespace Chronicle

namespace Scenario

/-- The constraint at the start is on fluents of the scenario, and neither its atoms nor the fluents
that it leaves open are too many to enumerate. -/
structure Seedable (s : Scenario) (atomLimit : Nat) : Prop where
  declared : ∀ f ∈ s.startConstraint.atoms, f ∈ s.fluents
  constrained : s.startConstraint.atoms.size ≤ min atomLimit 63
  free : s.freeFluents.size ≤ min atomLimit 63

/-- The worlds of the constraint at the start, times the ways to value the fluents that it leaves
open. -/
noncomputable def candidateCount (s : Scenario) : Nat :=
  s.startConstraint.worlds.ncard * Nat.pow 2 s.freeFluents.size

section Candidates

variable {s : Scenario} {atomLimit modelLimit : Nat} {ws : List Valuation}

theorem candidateCount_eq (hw : s.startConstraint.models atomLimit = .ok ws) :
    Nat.pow 2 s.freeFluents.size * ws.length = s.candidateCount := by
  rw [candidateCount, Formula.ncard_worlds hw, Nat.mul_comm]

theorem Seedable.exists_models (h : s.Seedable atomLimit) :
    ∃ ws, s.startConstraint.models atomLimit = .ok ws :=
  ⟨_, (s.startConstraint.models_eq_ok atomLimit _).mpr ⟨h.constrained, rfl⟩⟩

/-- If the constraint can be enumerated, the one question left is that of the number. -/
theorem Seedable.initialCandidates_eq (h : s.Seedable atomLimit)
    (hw : s.startConstraint.models atomLimit = .ok ws) (modelLimit : Nat) :
    s.initialCandidates atomLimit modelLimit =
      if min s.candidateCount countLimit > modelLimit then
        .error (.limit (.models (min s.candidateCount countLimit) modelLimit))
      else if min s.candidateCount countLimit > capacityLimit then .error .capacityOverflow
      else .ok (ws.flatMap fun v => (Valuation.all s.freeFluents).map v.union) := by
  have hfree : ¬ s.freeFluents.size > effectiveLimit atomLimit := Nat.not_lt.mpr h.free
  rw [Scenario.initialCandidates_eq hw, (undeclared_eq_nil s).mpr h.declared, candidateCount_eq hw]
  exact if_neg hfree

/-- Otherwise seeding is refused for the number of atoms, or for a fluent that is not declared. -/
theorem initialCandidates_of_not_seedable (h : ¬ s.Seedable atomLimit) (modelLimit : Nat) :
    ∃ err, s.initialCandidates atomLimit modelLimit = .error err ∧
      ((∃ count > min atomLimit 63, err = .limit (.atoms count (min atomLimit 63))) ∨
        ∃ f ∈ s.startConstraint.atoms, f ∉ s.fluents ∧ err = .logic (.undefinedFluent f)) := by
  by_cases hatoms : s.startConstraint.atoms.size ≤ effectiveLimit atomLimit
  · have hw := (s.startConstraint.models_eq_ok atomLimit _).mpr ⟨hatoms, rfl⟩
    rw [Scenario.initialCandidates_eq hw]
    cases hk : (s.startConstraint.atoms.diff s.fluents).keys with
    | cons f fs =>
      have hf : f ∈ s.startConstraint.atoms.diff s.fluents := by simp [SortedMap.mem_iff, hk]
      obtain ⟨hin, hout⟩ := (FluentSet.mem_diff _ _ f).mp hf
      exact ⟨_, rfl, .inr ⟨f, hin, hout, rfl⟩⟩
    | nil =>
      have hfree : s.freeFluents.size > effectiveLimit atomLimit := by
        by_contra hle
        exact h ⟨(undeclared_eq_nil s).mp hk, hatoms, Nat.le_of_not_gt hle⟩
      exact ⟨_, if_pos hfree, .inl ⟨_, hfree, rfl⟩⟩
  · have hmany : effectiveLimit atomLimit < s.startConstraint.atoms.size := Nat.lt_of_not_le hatoms
    have hfail := (s.startConstraint.models_eq_error atomLimit _).mpr ⟨hmany, rfl⟩
    rw [initialCandidates, ← startConstraint, hfail]
    exact ⟨_, rfl, .inl ⟨_, hmany, rfl⟩⟩

theorem capacityLimit_lt_countLimit : capacityLimit < countLimit := by decide

/-- Seeding comes to its end without a result exactly if the observations are within the limit, and
yet are more than there is room for. -/
theorem initialCandidates_eq_capacityOverflow :
    s.initialCandidates atomLimit modelLimit = .error .capacityOverflow ↔
      s.Seedable atomLimit ∧ min s.candidateCount countLimit ≤ modelLimit ∧
        capacityLimit < s.candidateCount := by
  by_cases h : s.Seedable atomLimit
  · obtain ⟨ws, hw⟩ := h.exists_models
    have hroom : capacityLimit < s.candidateCount ↔
        min s.candidateCount countLimit > capacityLimit := by
      rw [gt_iff_lt, lt_min_iff, and_iff_left capacityLimit_lt_countLimit]
    rw [h.initialCandidates_eq hw, hroom, ← Nat.not_lt, ← gt_iff_lt, and_iff_right h]
    split
    case isTrue hmany => simp [hmany]
    case isFalse hmany =>
      rw [and_iff_right hmany]
      split
      case isTrue hfull => simp [hfull]
      case isFalse hfull => simp [hfull]
  · obtain ⟨err, herr, hwhy⟩ := initialCandidates_of_not_seedable h modelLimit
    rw [herr]
    rcases hwhy with ⟨_, _, rfl⟩ | ⟨_, _, _, rfl⟩
    · simp [h]
    · simp [h]

/-- The fluents that the constraint leaves open are none of those that it mentions. -/
theorem initialCandidates_ne_duplicateAssignment (s : Scenario) (atomLimit modelLimit : Nat)
    (f : Fluent) :
    s.initialCandidates atomLimit modelLimit ≠ .error (.logic (.duplicateAssignment f)) := by
  intro h
  rcases initialCandidates_eq_error h with ⟨_, he⟩ | ⟨_, he⟩ | he
  · cases he
  · cases he
  · cases he

/-- Seeding gives each observation of the fluents on which the constraint at the start is true, and
gives it once, unless they are more than the limit, or more than there is room for. It counts them
beforehand, up to the greatest number of 64 bits. No fluent is given twice on the way. -/
theorem initialCandidates_spec (s : Scenario) (atomLimit : Nat) {modelLimit : Nat}
    (hm : modelLimit < 18446744073709551615) :
    (s.Seedable atomLimit →
      (modelLimit < s.candidateCount → s.initialCandidates atomLimit modelLimit =
        .error (.limit (.models (min s.candidateCount 18446744073709551615) modelLimit))) ∧
      (s.candidateCount ≤ modelLimit → s.candidateCount ≤ 384307168202282325 →
        ∃ os, s.initialCandidates atomLimit modelLimit = .ok os ∧
          os.Nodup ∧ os.length = s.candidateCount ∧
          ∀ o, o ∈ os ↔ (∀ f, f ∈ o ↔ f ∈ s.fluents) ∧ o.eval s.startConstraint = .ok true) ∧
      (s.candidateCount ≤ modelLimit → 384307168202282325 < s.candidateCount →
        s.initialCandidates atomLimit modelLimit = .error .capacityOverflow)) ∧
    (¬ s.Seedable atomLimit → ∃ err, s.initialCandidates atomLimit modelLimit = .error err ∧
      ((∃ count > min atomLimit 63, err = .limit (.atoms count (min atomLimit 63))) ∨
        ∃ f ∈ s.startConstraint.atoms, f ∉ s.fluents ∧ err = .logic (.undefinedFluent f))) ∧
    ∀ f, s.initialCandidates atomLimit modelLimit ≠ .error (.logic (.duplicateAssignment f)) := by
  have hbound : modelLimit < countLimit := hm
  refine ⟨?_, fun h => initialCandidates_of_not_seedable h modelLimit,
    initialCandidates_ne_duplicateAssignment s atomLimit modelLimit⟩
  intro h
  obtain ⟨ws, hw⟩ := h.exists_models
  have hseed := h.initialCandidates_eq hw modelLimit
  refine ⟨?_, ?_, ?_⟩
  · intro hmany
    rw [hseed, if_pos (lt_min hmany hbound)]
    rfl
  · intro hfew hroom
    have hfit : s.candidateCount ≤ capacityLimit := hroom
    rw [if_neg (Nat.not_lt.mpr (min_le_of_left_le hfew)),
      if_neg (Nat.not_lt.mpr (min_le_of_left_le hfit))] at hseed
    refine ⟨_, hseed, initialCandidates_nodup hseed, ?_, ?_⟩
    · rw [length_candidates h.free, candidateCount_eq hw]
    · intro o
      rw [mem_initialCandidates hseed, SortedMap.keys_eq_iff]
  · intro hfew hfull
    exact initialCandidates_eq_capacityOverflow.mpr ⟨h, min_le_of_left_le hfew, hfull⟩

end Candidates

end Scenario

/-- A lamp is lit or hot at first, and nothing is known of whether it is loose. -/
def lampSeen : Scenario where
  fluents := .ofList [⟨"lit"⟩, ⟨"hot"⟩, ⟨"loose"⟩]
  timeline := (∅ : Timeline).insert 3 ⟨none, some (.binary .or (.atom ⟨"lit"⟩) (.atom ⟨"hot"⟩))⟩
  statements := []

/-- There are six observations to begin with, and one less is not enough to allow. -/
theorem lampSeen_candidates : lampSeen.Seedable 2 ∧ lampSeen.candidateCount = 6 ∧
    (∃ os, lampSeen.initialCandidates 2 6 = .ok os ∧ os.Nodup ∧ os.length = 6) ∧
    lampSeen.initialCandidates 2 5 = .error (.limit (.models 6 5)) := by
  have hatoms : lampSeen.startConstraint.atoms.size = 2 := by decide +kernel
  have hfree : lampSeen.freeFluents.size = 1 := by decide +kernel
  have hdeclared : ∀ f ∈ lampSeen.startConstraint.atoms.keys, f ∈ lampSeen.fluents := by
    decide +kernel
  have hseedable : lampSeen.Seedable 2 := ⟨hdeclared, by rw [hatoms]; decide, by rw [hfree]; decide⟩
  obtain ⟨ws, hws, hthree⟩ : ∃ ws, lampSeen.startConstraint.models 2 = .ok ws ∧ ws.length = 3 :=
    Result.ok_of_toOption_map (by decide +kernel)
  have hsix : lampSeen.candidateCount = 6 := by
    rw [← Scenario.candidateCount_eq hws, hfree, hthree]
  have hsmall : 6 < 18446744073709551615 := by decide
  have hsmaller : 5 < 18446744073709551615 := by decide
  obtain ⟨_, hfew, _⟩ := (lampSeen.initialCandidates_spec 2 hsmall).1 hseedable
  obtain ⟨hmany, _⟩ := (lampSeen.initialCandidates_spec 2 hsmaller).1 hseedable
  rw [hsix] at hfew hmany
  obtain ⟨os, hos, hnodup, hlength, _⟩ := hfew (Nat.le_refl 6) (by decide)
  exact ⟨hseedable, hsix, ⟨os, hos, hnodup, hlength⟩, hmany (Nat.lt_succ_self 5)⟩

/-- Sixty things of which nothing is known. -/
def unknowns : Scenario where
  fluents := .ofList ((List.range 60).map fun n => ⟨toString n⟩)
  timeline := ∅
  statements := []

/-- As many observations are allowed as there are to begin with, and yet none is given. -/
theorem unknowns_no_room : unknowns.Seedable 63 ∧ unknowns.candidateCount = 1152921504606846976 ∧
    1152921504606846976 < 18446744073709551615 ∧
    unknowns.initialCandidates 63 1152921504606846976 = .error .capacityOverflow ∧
    ¬ ∃ os, unknowns.initialCandidates 63 1152921504606846976 = .ok os := by
  have hatoms : unknowns.startConstraint.atoms.size = 0 := by decide +kernel
  have hfree : unknowns.freeFluents.size = 60 := by decide +kernel
  have hdeclared : ∀ f ∈ unknowns.startConstraint.atoms.keys, f ∈ unknowns.fluents := by
    decide +kernel
  have hseedable : unknowns.Seedable 63 :=
    ⟨hdeclared, by rw [hatoms]; decide, by rw [hfree]; decide⟩
  obtain ⟨ws, hws, hone⟩ : ∃ ws, unknowns.startConstraint.models 63 = .ok ws ∧ ws.length = 1 :=
    Result.ok_of_toOption_map (by decide +kernel)
  have hcount : unknowns.candidateCount = 1152921504606846976 := by
    rw [← Scenario.candidateCount_eq hws, hfree, hone]
  have hover : unknowns.initialCandidates 63 1152921504606846976 = .error .capacityOverflow := by
    rw [Scenario.initialCandidates_eq_capacityOverflow, hcount]
    exact ⟨hseedable, by decide, by decide⟩
  refine ⟨hseedable, hcount, by decide, hover, ?_⟩
  rintro ⟨os, hos⟩
  rw [hover] at hos
  cases hos

end Chronicle
