import Chronicle.CommandLine
import Chronicle.Proofs.Candidates
import Chronicle.Proofs.Realizable

/-!
Room to begin with. Only seeding asks for room by a number that it has worked out, and it asks for
more than there is under no limit that can be set.
-/

namespace Chronicle

open Result

theorem Setting.value_le {n n' : Setting Nat} {value : Nat} (h : n.set value = .ok n') :
    n'.value ≤ n.most := by
  rw [set] at h
  split at h
  case isTrue => cases h
  case isFalse hwithin =>
    rw [← Except.ok.inj h]
    exact Nat.le_of_not_lt fun hlt => hwithin (.inr hlt)

namespace Limits

variable {l l' : Limits} {value : Nat}

theorem models_setAtoms (h : l.setAtoms value = .ok l') : l'.models = l.models := by
  obtain ⟨n, _, hn⟩ := (bind_eq_ok _ _ _).mp h
  rw [← Except.ok.inj hn]

theorem models_setTime {span : Span} (h : l.setTime span = .ok l') : l'.models = l.models := by
  obtain ⟨n, _, hn⟩ := (bind_eq_ok _ _ _).mp h
  rw [← Except.ok.inj hn]

theorem models_le_of_setModels (h : l.setModels value = .ok l') :
    l'.models.value ≤ l.models.most := by
  obtain ⟨n, hset, hn⟩ := (bind_eq_ok _ _ _).mp h
  rw [← Except.ok.inj hn]
  exact Setting.value_le hset

end Limits

theorem avoids_overflow {α : Type} {x : Except Error α} (h : Avoids Error.OfRun x) :
    Avoids Error.IsOverflow x :=
  h.mono fun _ => .inr

theorem avoids_overflow_logic {α : Type} (x : Except LogicError α) :
    Avoids Error.IsOverflow (x.mapError .logic) :=
  .mapError Error.logic (by simp [Avoids, Error.IsOverflow])

theorem Search.accept_avoids (atomLimit : Nat) (t : Time) (m : Moment) (x : Search) :
    Avoids Error.IsOverflow (x.accept atomLimit t m) := by
  rw [accept]
  cases m.constraint with
  | none => exact .ok x
  | some F =>
    dsimp only
    rw [constrain]
    refine (avoids_overflow (F.models_avoids atomLimit)).bind fun worlds => ?_
    refine (avoids_overflow_logic _).bind fun kept => ?_
    split
    · exact .error (by simp [Error.IsOverflow])
    · exact .ok kept

theorem Search.step_avoids (s : Scenario) (atomLimit modelLimit : Nat) (m : Time × Moment)
    (x : Search) : Avoids Error.IsOverflow (x.step s atomLimit modelLimit m) := by
  obtain ⟨t, m⟩ := m
  rw [step_eq]
  refine (x.accept_avoids atomLimit t m).bind fun kept => ?_
  exact avoids_overflow (follow_avoids s atomLimit modelLimit t m kept)

theorem Run.formulaHolds_avoids (r : Run) (F : Formula) (t : Time) (mode : Mode) :
    Avoids Error.IsOverflow (r.formulaHolds F t mode) := by
  rw [formulaHolds]
  split
  · exact .ok Answer.indeterminate
  · refine (avoids_overflow (F.models_avoids r.atomLimit)).bind fun worlds => ?_
    refine (avoids_overflow_logic _).bind fun found => ?_
    cases found with
    | none => exact .ok Answer.indeterminate
    | some found => exact .ok _

theorem Run.answer_avoids (r : Run) (q : Query) : Avoids Error.IsOverflow (r.answer q) := by
  cases q with
  | formula F t mode => exact r.formulaHolds_avoids F t mode
  | action a agent t => exact .ok _
  | agent agent => exact .ok _

namespace Scenario

variable {limits : Limits}

/-- Under a limit that there is room for, seeding finds the room that it asks for. -/
theorem initialCandidates_ne_capacityOverflow {modelLimit : Nat} (hroom : modelLimit ≤ capacityLimit)
    (s : Scenario) (atomLimit : Nat) :
    s.initialCandidates atomLimit modelLimit ≠ .error .capacityOverflow := by
  intro h
  obtain ⟨_, hfew, hmany⟩ := initialCandidates_eq_capacityOverflow.mp h
  have hcount : capacityLimit < min s.candidateCount countLimit :=
    lt_min hmany capacityLimit_lt_countLimit
  omega

theorem run_avoids (hroom : limits.models.value ≤ capacityLimit) (s : Scenario) (horizon : Time) :
    Avoids Error.IsOverflow (s.run limits horizon) := by
  rintro _ rfl h
  rcases run_eq_error h with ho | ⟨_, he⟩ | ⟨x, m, _, _, hstep⟩
  · exact s.initialCandidates_ne_capacityOverflow hroom _ ho
  · cases he
  · exact x.step_avoids s _ _ m _ rfl hstep

theorem answer_ne_capacityOverflow (hroom : limits.models.value ≤ capacityLimit) (s : Scenario)
    (horizon : Time) (qs : List Query) :
    s.answer limits horizon qs ≠ .error .capacityOverflow := by
  have hanswers := (s.run_avoids hroom horizon).bind fun r => .mapM r.answer_avoids qs
  exact hanswers _ rfl

end Scenario

namespace CommandLine

theorem Options.models_le {o : Options} {limits : Limits} (h : o.limits = .ok limits) :
    limits.models.value ≤ Limits.standard.models.most := by
  obtain ⟨l, hatoms, h⟩ := (bind_eq_ok _ _ _).mp h
  obtain ⟨l', hmodels, h⟩ := (bind_eq_ok _ _ _).mp h
  have hsame : limits.models = l'.models := by
    cases ht : o.timeLimit with
    | none =>
      rw [ht] at h
      rw [Except.ok.inj h]
    | some span =>
      rw [ht] at h
      exact Limits.models_setTime h
  rw [hsame, ← Limits.models_setAtoms hatoms]
  exact Limits.models_le_of_setModels hmodels

/-- Whatever the options are, there is room for what a problem begins with. -/
theorem answer_ne_capacityOverflow {o : Options} {limits : Limits} (h : o.limits = .ok limits)
    (s : Scenario) (horizon : Time) (qs : List Query) :
    s.answer limits horizon qs ≠ .error .capacityOverflow :=
  s.answer_ne_capacityOverflow ((Options.models_le h).trans (by decide)) horizon qs

end CommandLine

end Chronicle
