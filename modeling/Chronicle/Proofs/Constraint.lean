import Chronicle.Proofs.Course

/-!
The search and the queries agree on constraints: what a run has checked at a moment is the answer
to whoever asks for it afterwards.
-/

namespace Chronicle

namespace Search

variable {s : Scenario} {atomLimit modelLimit : Nat} {x x' : Search}

theorem step_enumerates {m : Time × Moment} (h : x.step s atomLimit modelLimit m = .ok x')
    {F : Formula} (hF : m.2.constraint = some F) : ∃ worlds, F.models atomLimit = .ok worlds := by
  obtain ⟨y, hy, _⟩ := step_eq_ok.mp h
  simp only [accept, hF] at hy
  obtain ⟨worlds, hw, _⟩ := (Result.bind_eq_ok _ _ _).mp hy
  exact ⟨worlds, hw⟩

/-- The constraints of all moments that have been read were within the limit on atoms. -/
theorem foldlM_enumerates {ms : List (Time × Moment)}
    (h : ms.foldlM (step s atomLimit modelLimit) x = .ok x') {m : Time × Moment} (hm : m ∈ ms)
    {F : Formula} (hF : m.2.constraint = some F) : ∃ worlds, F.models atomLimit = .ok worlds := by
  obtain ⟨y, y', hstep⟩ := Result.exists_of_foldlM_eq_ok h hm
  exact step_enumerates hstep hF

end Search

section Constraint

variable {s : Scenario} {limits : Limits} {horizon t : Time} {r : Run} {F : Formula} {p : History}

namespace Scenario

theorem exists_moment (hF : s.constraintAt t = some F) :
    ∃ m, s.timeline.get? t = some m ∧ m.constraint = some F := Option.bind_eq_some_iff.mp hF

theorem startTime_le_of_constraintAt (hF : s.constraintAt t = some F) : s.startTime ≤ t := by
  obtain ⟨m, hm, _⟩ := exists_moment hF
  exact s.startTime_le ((s.timeline.get?_eq_some t m).mp hm)

theorem run_enumerates (h : s.run limits horizon = .ok r) (hF : s.constraintAt t = some F)
    (ht : t ≤ horizon) : ∃ worlds, F.models r.atomLimit = .ok worlds := by
  obtain ⟨m, hm, hmF⟩ := exists_moment hF
  obtain ⟨os, x, _, _, hx, rfl⟩ := run_eq_ok h
  refine Search.foldlM_enumerates hx (m := (t, m)) ?_ hmF
  rw [s.momentsUntil_eq]
  exact (s.mem_filter_timeline horizon (t, m)).mpr ⟨hm, ht⟩

/-- No entry that comes after a moment is the latest at its time, so the constraint stays true. -/
theorem Legal.trueAt (h : s.Legal horizon p) (hF : s.constraintAt t = some F) (ht : t ≤ horizon) :
    TrueAt F t p := by
  obtain ⟨m, hm, hmF⟩ := exists_moment hF
  obtain ⟨before, after, later, x, hx, hlatest, hnext, _⟩ := h.passes hm ht
  obtain ⟨x', _, hx', hadmits, _⟩ := hnext.goesOn
  obtain rfl : x = x' := Option.some.inj (hx.symm.trans hx')
  exact ⟨x, hlatest, hadmits F hmF⟩

theorem Orderly.atoms_subset (h : s.Orderly p) (ht : TrueAt F t p) :
    ∀ f ∈ F.atoms, f ∈ s.fluents := by
  obtain ⟨e, hl, he⟩ := ht
  intro f hf
  exact (h.fluents e hl.mem f).mp ((e.observation.eval_isOk F).mp ⟨true, he⟩ f hf)

end Scenario

/-- A constraint within the horizon of a run is necessary at its time, whatever came after. -/
theorem Run.constraint_necessary (h : s.run limits horizon = .ok r)
    (hF : s.constraintAt t = some F) (ht : t ≤ horizon) :
    r.formulaHolds F t .necessary = .ok .yes := by
  have htrue : ∀ p ∈ r.histories, TrueAt F t p :=
    fun p hp => ((Scenario.mem_histories h p).mp hp).trueAt hF ht
  obtain ⟨p, hp⟩ := List.exists_mem_of_ne_nil _ (Scenario.run_ne_nil h)
  have hatoms := (Scenario.run_orderly h p hp).atoms_subset (htrue p hp)
  obtain ⟨worlds, hw⟩ := Scenario.run_enumerates h hF ht
  obtain ⟨b, hb, hiff⟩ :=
    formulaHolds_from h ht (Scenario.startTime_le_of_constraintAt hF) hatoms hw .necessary
  rw [hb, hiff.mpr htrue]
  rfl

end Constraint

theorem coin_shows_heads : ∃ r, coin.run .standard 1 = .ok r ∧ r.modelCount = 2 ∧
    coin.constraintAt 0 = some (.atom ⟨"heads"⟩) ∧ (0 : Time) ≤ 1 ∧
    r.formulaHolds (.atom ⟨"heads"⟩) 0 .necessary = .ok .yes := by
  obtain ⟨r, hr, htwo⟩ := coin_run
  have hc : coin.constraintAt 0 = some (.atom ⟨"heads"⟩) := by decide +kernel
  exact ⟨r, hr, htwo, hc, by decide, Run.constraint_necessary hr hc (by decide)⟩

end Chronicle
