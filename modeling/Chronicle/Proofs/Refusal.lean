import Chronicle.Proofs.Query

/-!
Limits decide whether a result is computed, and nothing else. Wherever a bound is looked at, what is
within it is within a greater one, and then both computations go on alike.
-/

namespace Chronicle

open Result

namespace Error

/-- The failure is the refusal to go beyond a limit. -/
def IsLimit (e : Error) : Prop := ∃ why, e = .limit why

/-- The failure is the refusal to enumerate so many atoms. -/
def IsAtomLimit (e : Error) : Prop := ∃ count limit, e = .limit (.atoms count limit)

theorem IsAtomLimit.isLimit (e : Error) (h : e.IsAtomLimit) : e.IsLimit := by
  obtain ⟨count, limit, rfl⟩ := h
  exact ⟨_, rfl⟩

end Error

section Limits

variable {a a' m m' : Nat}

theorem effectiveLimit_mono (ha : a ≤ a') : effectiveLimit a ≤ effectiveLimit a' :=
  min_le_min_right enumerationLimit ha

theorem Formula.models_unless (F : Formula) (ha : a ≤ a') :
    Unless Error.IsAtomLimit (F.models a) (F.models a') := by
  rw [models, models]
  exact .check (effectiveLimit_mono ha) ⟨_, _, rfl⟩ _ (.refl _)

namespace Successor

theorem branch_unless (fixed : FluentSet) {limit limit' : Nat} (hl : limit ≤ limit')
    (branched released : List Fluent) (cs : List Valuation) :
    Unless Error.IsAtomLimit (branch fixed limit branched released cs)
      (branch fixed limit' branched released cs) := by
  induction released generalizing branched cs with
  | nil => exact .refl _
  | cons f released ih =>
    rw [branch, branch]
    by_cases hf : f ∈ fixed
    · simp only [if_pos hf]
      exact .refl _
    · simp only [if_neg hf]
      by_cases hb : f ∈ branched
      · simp only [if_pos hb]
        exact ih branched cs
      · simp only [if_neg hb]
        exact .check hl ⟨_, _, rfl⟩ _ (ih _ _)

theorem successors_unless (o : Valuation) (rules : List Statement) (ha : a ≤ a') :
    Unless Error.IsAtomLimit (successors o rules a) (successors o rules a') := by
  rw [successors, successors]
  refine (Unless.refl _).bind fun fired => ?_
  cases fired.isEmpty with
  | true => exact .refl _
  | false =>
    refine (Formula.models_unless _ ha).bind fun cs => ?_
    cases cs.isEmpty with
    | true => exact .refl _
    | false =>
      exact (branch_unless _ (effectiveLimit_mono ha) _ _ cs).bind fun _ => .refl _

end Successor

theorem Scenario.initialCandidates_unless (s : Scenario) (ha : a ≤ a') (hm : m ≤ m') :
    Unless Error.IsLimit (s.initialCandidates a m) (s.initialCandidates a' m') := by
  rw [initialCandidates, initialCandidates]
  refine ((Formula.models_unless _ ha).mono Error.IsAtomLimit.isLimit).bind fun ws => ?_
  cases (((s.constraintAt s.startTime).getD .top).atoms.diff s.fluents).keys with
  | cons f fs => exact .refl _
  | nil => exact .check (effectiveLimit_mono ha) ⟨_, rfl⟩ _ (.check hm ⟨_, rfl⟩ _ (.refl _))

namespace Search

theorem accept_unless (ha : a ≤ a') (t : Time) (moment : Moment) (x : Search) :
    Unless Error.IsLimit (x.accept a t moment) (x.accept a' t moment) := by
  rw [accept, accept]
  cases moment.constraint with
  | none => exact .refl _
  | some F =>
    exact ((F.models_unless ha).mono Error.IsAtomLimit.isLimit).bind fun _ => .refl _

theorem fireAll_unless (ha : a ≤ a') (hm : m ≤ m') (e : Event) (rules : List Statement)
    (next : Time) (x : Search) (ks : List NodeId) :
    Unless Error.IsLimit (fireAll e rules next a m x ks) (fireAll e rules next a' m' x ks) := by
  induction ks generalizing x with
  | nil => exact .refl _
  | cons k ks ih =>
    rw [fireAll, fireAll]
    cases x.forest.latest k with
    | none => exact ih _
    | some last =>
      dsimp only
      rcases Successor.successors_unless last.observation rules ha with ⟨err, hs, herr⟩ | hs
      · rw [hs]
        exact .inl ⟨err, rfl, herr.isLimit⟩
      · rw [hs]
        cases Successor.successors last.observation rules a' with
        | error err => exact .refl _
        | ok os =>
          cases os with
          | nil => exact ih _
          | cons o os => exact .check hm ⟨_, rfl⟩ _ (ih _)

theorem follow_unless (s : Scenario) (ha : a ≤ a') (hm : m ≤ m') (t : Time) (moment : Moment)
    (x : Search) :
    Unless Error.IsLimit (x.follow s a m t moment) (x.follow s a' m' t moment) := by
  rw [follow, follow]
  cases moment.event with
  | none => exact .refl _
  | some e =>
    dsimp only
    rw [fire, fire]
    cases Time.next? t with
    | none => exact .refl _
    | some next => exact fireAll_unless ha hm e _ next _ _

theorem step_unless (s : Scenario) (ha : a ≤ a') (hm : m ≤ m') (x : Search)
    (moment : Time × Moment) :
    Unless Error.IsLimit (x.step s a m moment) (x.step s a' m' moment) := by
  obtain ⟨t, moment⟩ := moment
  rw [step_eq, step_eq]
  exact (accept_unless ha t moment x).bind fun kept => follow_unless s ha hm t moment kept

end Search

end Limits

namespace Run

/-- The same histories, with another limit on the atoms of formulas that are asked about. -/
def allowing (atomLimit : Nat) (r : Run) : Run := { r with atomLimit }

theorem survey_allowing (r : Run) (atomLimit : Nat) (worlds : List Valuation) (t : Time)
    (all any : Bool) (ks : List NodeId) :
    (r.allowing atomLimit).survey worlds t all any ks = r.survey worlds t all any ks := by
  induction ks generalizing all any with
  | nil => rfl
  | cons k ks ih =>
    have hforest : (r.allowing atomLimit).forest = r.forest := rfl
    rw [survey, survey, hforest]
    cases r.forest.latestAt k t with
    | none => rfl
    | some e =>
      dsimp only
      cases e.observation.compatible worlds with
      | error err => rfl
      | ok b => exact ih _ _

/-- Only a query about a formula looks at the limit on atoms. -/
theorem answer_unless (r : Run) {atomLimit : Nat} (ha : r.atomLimit ≤ atomLimit) (q : Query) :
    Unless Error.IsAtomLimit (r.answer q) ((r.allowing atomLimit).answer q) := by
  cases q with
  | action => exact .refl _
  | agent => exact .refl _
  | formula F t mode =>
    rw [answer, answer, formulaHolds, formulaHolds]
    by_cases ht : t > r.horizon
    · have ht' : t > (r.allowing atomLimit).horizon := ht
      rw [if_pos ht, if_pos ht']
      exact .refl _
    · have ht' : ¬ t > (r.allowing atomLimit).horizon := ht
      rw [if_neg ht, if_neg ht']
      refine (F.models_unless ha).bind fun worlds => ?_
      rw [survey_allowing]
      exact .refl _

end Run

namespace Scenario

variable {l l' : Limits}

/-- Up to the limit that it keeps, a run is the same under greater limits. -/
theorem run_unless (s : Scenario) (ha : l.atoms.value ≤ l'.atoms.value)
    (hm : l.models.value ≤ l'.models.value) (horizon : Time) :
    Unless Error.IsLimit ((s.run l horizon).map (Run.allowing l'.atoms.value))
      (s.run l' horizon) := by
  rcases s.initialCandidates_unless ha hm with ⟨e, ho, he⟩ | ho
  · refine .inl ⟨e, ?_, he⟩
    rw [run, ho]
    rfl
  · cases ho' : s.initialCandidates l'.atoms.value l'.models.value with
    | error e =>
      rw [run, run, ho, ho']
      exact .refl _
    | ok os =>
      by_cases hne : os = []
      · rw [run, run, ho, ho', hne]
        exact .refl _
      · rw [run_eq hne (ho.trans ho'), run_eq hne ho']
        have hfold := Unless.foldlM (fun x moment => Search.step_unless s ha hm x moment)
          (s.momentsUntil horizon) (Search.seed s.startTime os)
        rcases hfold with ⟨e, hx, he⟩ | hx
        · exact .inl ⟨e, by rw [hx]; rfl, he⟩
        · rw [hx]
          cases (s.momentsUntil horizon).foldlM
            (Search.step s l'.atoms.value l'.models.value) (Search.seed s.startTime os) with
          | error e => exact .refl _
          | ok x => exact .refl _

/-- With greater limits a run comes to the same, unless it is refused for the lesser ones. It fails
in the same way, or it ends in the same histories, in the same order, and answers alike, unless an
answer is refused for the lesser number of atoms. -/
theorem run_limits (s : Scenario) (ha : l.atoms.value ≤ l'.atoms.value)
    (hm : l.models.value ≤ l'.models.value) (horizon : Time) :
    Unless Error.IsLimit ((s.run l horizon).map Run.histories)
      ((s.run l' horizon).map Run.histories) ∧
    ∀ r r', s.run l horizon = .ok r → s.run l' horizon = .ok r' →
      ∀ q, Unless Error.IsAtomLimit (r.answer q) (r'.answer q) := by
  have hrun := s.run_unless ha hm horizon
  constructor
  · have hsame : ((s.run l horizon).map (Run.allowing l'.atoms.value)).map Run.histories =
        (s.run l horizon).map Run.histories := by
      cases s.run l horizon <;> rfl
    rw [← hsame]
    exact hrun.map Run.histories
  · intro r r' h h' q
    rw [h, h'] at hrun
    rcases hrun with ⟨e, he, _⟩ | he
    · cases he
    · obtain rfl : r.allowing l'.atoms.value = r' := Except.ok.inj he
      exact r.answer_unless (Run.atomLimit_eq h ▸ ha) q

end Scenario

/-- Just enough for a coin to be tossed once. -/
def Limits.tight : Limits :=
  { Limits.standard with
    atoms := ⟨"atom_limit", 0, 30, 1⟩
    models := ⟨"model_limit", 1, 16777216, 2⟩ }

theorem coin_tight : ∃ r r', coin.run .tight 1 = .ok r ∧ coin.run .standard 1 = .ok r' ∧
    r.modelCount = 2 ∧ r'.modelCount = 2 ∧
    Limits.tight.atoms.value ≤ Limits.standard.atoms.value ∧
    Limits.tight.models.value ≤ Limits.standard.models.value ∧
    Unless Error.IsLimit ((coin.run .tight 1).map Run.histories)
      ((coin.run .standard 1).map Run.histories) ∧
    ∀ q, Unless Error.IsAtomLimit (r.answer q) (r'.answer q) := by
  obtain ⟨r, hr, htwo⟩ : ∃ r, coin.run .tight 1 = .ok r ∧ r.modelCount = 2 :=
    Result.ok_of_toOption_map (by decide +kernel)
  obtain ⟨r', hr', htwo'⟩ := coin_run
  have ha : Limits.tight.atoms.value ≤ Limits.standard.atoms.value := by decide
  have hm : Limits.tight.models.value ≤ Limits.standard.models.value := by decide
  obtain ⟨hrun, hanswers⟩ := Scenario.run_limits coin ha hm 1
  exact ⟨r, r', hr, hr', htwo, htwo', ha, hm, hrun, hanswers r r' hr hr'⟩

end Chronicle
