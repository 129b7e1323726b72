import Chronicle.Proofs.Activity

/-!
Runs that no query tells apart. It is enough that each history of one has a like history in the
other, whatever their number and order.
-/

namespace Chronicle

/-- Two histories look alike to a query, which does not look beyond the horizon. -/
def Query.Alike (horizon : Time) : Query → History → History → Prop
  | .formula F t _, p, p' => t ≤ horizon → ∀ e e', IsLatest p t e → IsLatest p' t e' →
      ∀ f ∈ F.atoms, e.observation.get? f = e'.observation.get? f
  | .action a g t, p, p' => t ≤ horizon → (Performed a g t p ↔ Performed a g t p')
  | .agent g, p, p' => Active g p ↔ Active g p'

/-- A formula is asked of fluents that both scenarios have or neither, at a time that both have come
to or neither. -/
def Query.Common (s s' : Scenario) (q : Query) : Prop :=
  ∀ F t mode, q = .formula F t mode →
    (s.startTime ≤ t ↔ s'.startTime ≤ t) ∧ ∀ f ∈ F.atoms, f ∈ s.fluents ↔ f ∈ s'.fluents

theorem Query.alike_refl {p : History} (hord : p.Pairwise (·.time < ·.time)) (horizon : Time)
    (q : Query) : q.Alike horizon p p := by
  cases q with
  | formula F t mode =>
    intro _ e e' he he' f _
    rw [he.unique hord he']
  | action a agent t => exact fun _ => Iff.rfl
  | agent g => exact Iff.rfl

/-- Each of some histories is related to one of others, and the other way round. -/
structure Paired (R : History → History → Prop) (ps ps' : List History) : Prop where
  forth : ∀ p ∈ ps, ∃ p' ∈ ps', R p p'
  back : ∀ p' ∈ ps', ∃ p ∈ ps, R p p'

namespace Paired

variable {R : History → History → Prop} {ps ps' : List History} {P P' : History → Prop}

theorem forall_iff (h : Paired R ps ps')
    (hP : ∀ p ∈ ps, ∀ p' ∈ ps', R p p' → (P p ↔ P' p')) :
    (∀ p ∈ ps, P p) ↔ ∀ p' ∈ ps', P' p' := by
  constructor
  · intro hall p' hp'
    obtain ⟨p, hp, hR⟩ := h.back p' hp'
    exact (hP p hp p' hp' hR).mp (hall p hp)
  · intro hall p hp
    obtain ⟨p', hp', hR⟩ := h.forth p hp
    exact (hP p hp p' hp' hR).mpr (hall p' hp')

theorem exists_iff (h : Paired R ps ps')
    (hP : ∀ p ∈ ps, ∀ p' ∈ ps', R p p' → (P p ↔ P' p')) :
    (∃ p ∈ ps, P p) ↔ ∃ p' ∈ ps', P' p' := by
  constructor
  · intro hsome
    obtain ⟨p, hp, hPp⟩ := hsome
    obtain ⟨p', hp', hR⟩ := h.forth p hp
    exact ⟨p', hp', (hP p hp p' hp' hR).mp hPp⟩
  · intro hsome
    obtain ⟨p', hp', hPp'⟩ := hsome
    obtain ⟨p, hp, hR⟩ := h.back p' hp'
    exact ⟨p, hp, (hP p hp p' hp' hR).mpr hPp'⟩

theorem holds_iff (h : Paired R ps ps')
    (hP : ∀ p ∈ ps, ∀ p' ∈ ps', R p p' → (P p ↔ P' p')) (mode : Mode) :
    mode.Holds P ps ↔ mode.Holds P' ps' := by
  cases mode with
  | necessary => exact h.forall_iff hP
  | possible => exact h.exists_iff hP

end Paired

namespace Run

section Formula

variable {s s' : Scenario} {limits : Limits} {horizon t : Time} {r r' : Run} {F : Formula}
  {mode : Mode}

/-- A property of what the formula says of the latest entry is had by both of two like histories, or
by neither. -/
theorem latest_iff (h : s.run limits horizon = .ok r) (h' : s'.run limits horizon = .ok r')
    (ht : t ≤ horizon) (hstart : s.startTime ≤ t) (hstart' : s'.startTime ≤ t) (mode : Mode)
    {Q : Valuation → Prop}
    (hQ : ∀ v w : Valuation, (∀ f ∈ F.atoms, v.get? f = w.get? f) → (Q v ↔ Q w)) :
    ∀ p ∈ r.histories, ∀ p' ∈ r'.histories, (Query.formula F t mode).Alike horizon p p' →
      ((∃ e, IsLatest p t e ∧ Q e.observation) ↔ ∃ e, IsLatest p' t e ∧ Q e.observation) := by
  intro p hp p' hp' halike
  obtain ⟨e, he, huniq⟩ := (Scenario.run_orderly h p hp).existsUnique_latest hstart
  obtain ⟨e', he', huniq'⟩ := (Scenario.run_orderly h' p' hp').existsUnique_latest hstart'
  have hiff := hQ _ _ (halike ht e e' he he')
  constructor
  · intro hx
    obtain ⟨x, hx, hQx⟩ := hx
    exact ⟨e', he', hiff.mp (huniq x hx ▸ hQx)⟩
  · intro hx
    obtain ⟨x, hx, hQx⟩ := hx
    exact ⟨e, he, hiff.mpr (huniq' x hx ▸ hQx)⟩

theorem formulaHolds_congr_of_known (h : s.run limits horizon = .ok r)
    (h' : s'.run limits horizon = .ok r') (ht : t ≤ horizon) (hstart : s.startTime ≤ t)
    (hstart' : s'.startTime ≤ t) (hatoms : ∀ f ∈ F.atoms, f ∈ s.fluents)
    (hatoms' : ∀ f ∈ F.atoms, f ∈ s'.fluents) {worlds : List Valuation}
    (hw : F.models limits.atoms.value = .ok worlds)
    (hp : Paired ((Query.formula F t mode).Alike horizon) r.histories r'.histories) :
    r.formulaHolds F t mode = r'.formulaHolds F t mode := by
  obtain ⟨b, hb, hiff⟩ := formulaHolds_from h ht hstart hatoms (atomLimit_eq h ▸ hw) mode
  obtain ⟨b', hb', hiff'⟩ := formulaHolds_from h' ht hstart' hatoms' (atomLimit_eq h' ▸ hw) mode
  have hlatest := latest_iff (Q := fun v => v.eval F = .ok true) h h' ht hstart hstart' mode
    fun v w hvw => by rw [Valuation.eval_congr v w F hvw]
  have htrue : mode.Holds (TrueAt F t) r.histories ↔ mode.Holds (TrueAt F t) r'.histories :=
    hp.holds_iff hlatest mode
  rw [hb, hb', Bool.eq_iff_iff.mpr (hiff.trans (htrue.trans hiff'.symm))]

theorem formulaHolds_congr_of_unknown (h : s.run limits horizon = .ok r)
    (h' : s'.run limits horizon = .ok r') (ht : t ≤ horizon) (hstart : s.startTime ≤ t)
    (hstart' : s'.startTime ≤ t) {f : Fluent} (hf : s.FirstUnknown F f)
    (hf' : s'.FirstUnknown F f) {worlds : List Valuation}
    (hw : F.models limits.atoms.value = .ok worlds)
    (hp : Paired ((Query.formula F t mode).Alike horizon) r.histories r'.histories) :
    r.formulaHolds F t mode = r'.formulaHolds F t mode := by
  have hwr : F.models r.atomLimit = .ok worlds := atomLimit_eq h ▸ hw
  have hwr' : F.models r'.atomLimit = .ok worlds := atomLimit_eq h' ▸ hw
  have hlatest := latest_iff (Q := fun v => v.AgreesBefore F f) h h' ht hstart hstart' mode
    fun _ _ hvw => Valuation.agreesBefore_congr hvw f
  have hcomes : r.ComesTo F t f ↔ r'.ComesTo F t f := hp.exists_iff hlatest
  by_cases hc : r.ComesTo F t f
  · rw [formulaHolds_of_comesTo h ht hstart hwr hf hc,
      formulaHolds_of_comesTo h' ht hstart' hwr' hf' (hcomes.mp hc)]
  · have hc' : ¬ r'.ComesTo F t f := fun hc' => hc (hcomes.mpr hc')
    rw [formulaHolds_of_not_comesTo h ht hstart hwr hf hc,
      formulaHolds_of_not_comesTo h' ht hstart' hwr' hf' hc']

/-- Within the times that both runs cover it matters whether all fluents of the formula are known. -/
theorem formulaHolds_congr_from (h : s.run limits horizon = .ok r)
    (h' : s'.run limits horizon = .ok r') (ht : t ≤ horizon) (hstart : s.startTime ≤ t)
    (hstart' : s'.startTime ≤ t) (hfluents : ∀ f ∈ F.atoms, f ∈ s.fluents ↔ f ∈ s'.fluents)
    {worlds : List Valuation} (hw : F.models limits.atoms.value = .ok worlds)
    (hp : Paired ((Query.formula F t mode).Alike horizon) r.histories r'.histories) :
    r.formulaHolds F t mode = r'.formulaHolds F t mode := by
  by_cases hatoms : ∀ f ∈ F.atoms, f ∈ s.fluents
  · have hatoms' : ∀ f ∈ F.atoms, f ∈ s'.fluents := fun f hf => (hfluents f hf).mp (hatoms f hf)
    exact formulaHolds_congr_of_known h h' ht hstart hstart' hatoms hatoms' hw hp
  · push Not at hatoms
    obtain ⟨f, hf, hunknown, hbefore⟩ := FluentSet.exists_first_not_mem hatoms
    have hunknown' : f ∉ s'.fluents := fun hmem => hunknown ((hfluents f hf).mpr hmem)
    have hbefore' : ∀ g ∈ F.atoms, g < f → g ∈ s'.fluents :=
      fun g hg hgf => (hfluents g hg).mp (hbefore g hg hgf)
    exact formulaHolds_congr_of_unknown h h' ht hstart hstart' ⟨hf, hunknown, hbefore⟩
      ⟨hf, hunknown', hbefore'⟩ hw hp

theorem formulaHolds_congr (h : s.run limits horizon = .ok r)
    (h' : s'.run limits horizon = .ok r') (hq : (Query.formula F t mode).Common s s')
    (hp : Paired ((Query.formula F t mode).Alike horizon) r.histories r'.histories) :
    r.formulaHolds F t mode = r'.formulaHolds F t mode := by
  obtain ⟨hcome, hfluents⟩ := hq F t mode rfl
  by_cases ht : t ≤ horizon
  · cases hw : F.models limits.atoms.value with
    | error err =>
      rw [formulaHolds_of_models_error h ht hw, formulaHolds_of_models_error h' ht hw]
    | ok worlds =>
      by_cases hstart : s.startTime ≤ t
      · exact formulaHolds_congr_from h h' ht hstart (hcome.mp hstart) hfluents hw hp
      · have hbefore := not_le.mp hstart
        have hbefore' := not_le.mp fun hs => hstart (hcome.mpr hs)
        rw [formulaHolds_before h ht hbefore (atomLimit_eq h ▸ hw),
          formulaHolds_before h' ht hbefore' (atomLimit_eq h' ▸ hw)]
  · have hlate := not_le.mp ht
    rw [formulaHolds_after (by rwa [horizon_eq h]), formulaHolds_after (by rwa [horizon_eq h'])]

end Formula

section Congruence

variable {s s' : Scenario} {limits : Limits} {horizon t : Time} {r r' : Run}

theorem actionPerformed_congr (h : s.run limits horizon = .ok r)
    (h' : s'.run limits horizon = .ok r') {a : Action} {agent : Option Agent}
    (hp : Paired ((Query.action a agent t).Alike horizon) r.histories r'.histories) :
    r.actionPerformed a agent t = r'.actionPerformed a agent t := by
  by_cases ht : t ≤ horizon
  · obtain ⟨b, hb, hiff⟩ := actionPerformed_within (horizon_eq h ▸ ht) a agent
    obtain ⟨b', hb', hiff'⟩ := actionPerformed_within (horizon_eq h' ▸ ht) a agent
    have hsome : (∃ p ∈ r.histories, Performed a agent t p) ↔
        ∃ p ∈ r'.histories, Performed a agent t p := hp.exists_iff fun p _ p' _ halike => halike ht
    have hsame : b = true ↔ b' = true := by rw [hiff, hiff', hsome]
    rw [hb, hb', Bool.eq_iff_iff.mpr hsame]
  · have hlate := horizon_eq h ▸ not_le.mp ht
    have hlate' := horizon_eq h' ▸ not_le.mp ht
    rw [actionPerformed_after hlate, actionPerformed_after hlate']

/-- Queries are answered alike where histories look alike to them. -/
theorem answer_congr (h : s.run limits horizon = .ok r) (h' : s'.run limits horizon = .ok r')
    {q : Query} (hq : q.Common s s')
    (hp : Paired (q.Alike horizon) r.histories r'.histories) :
    r.answer q = r'.answer q := by
  cases q with
  | formula F t mode => exact formulaHolds_congr h h' hq hp
  | action a agent t =>
    rw [answer, answer, actionPerformed_congr h h' hp]
  | agent g =>
    have hall : (∀ p ∈ r.histories, Active g p) ↔ ∀ p ∈ r'.histories, Active g p :=
      hp.forall_iff fun p _ p' _ halike => halike
    have hsame : r.agentActive g = true ↔ r'.agentActive g = true := by
      rw [agentActive_iff, agentActive_iff, hall]
    rw [answer, answer, Bool.eq_iff_iff.mpr hsame]

/-- It matters neither how often a history occurs nor where. -/
theorem answer_eq_of_mem_iff (h : s.run limits horizon = .ok r)
    (h' : s'.run limits horizon = .ok r') {q : Query} (hq : q.Common s s')
    (hsame : ∀ p, p ∈ r.histories ↔ p ∈ r'.histories) : r.answer q = r'.answer q := by
  refine answer_congr h h' hq ⟨?_, ?_⟩
  · intro p hp
    exact ⟨p, (hsame p).mp hp, q.alike_refl (Scenario.run_orderly h p hp).increasing horizon⟩
  · intro p hp
    exact ⟨p, (hsame p).mpr hp, q.alike_refl (Scenario.run_orderly h' p hp).increasing horizon⟩

end Congruence

end Run

end Chronicle
