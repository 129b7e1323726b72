import Chronicle.Proofs.Batch
import Chronicle.Proofs.Beyond

/-!
The order in which the fluents, the events and the observations of a problem are given makes no
difference. Observations at one time are conjoined in another order then, but a run looks at no more
of a constraint than its atoms and its worlds.
-/

namespace Chronicle

namespace Formula

/-- Both have the same atoms and are true on the same valuations. -/
structure Equivalent (F G : Formula) : Prop where
  atoms : F.atoms = G.atoms
  truth : ∀ v : Valuation, v.eval F = .ok true ↔ v.eval G = .ok true

theorem Equivalent.refl (F : Formula) : F.Equivalent F := ⟨rfl, fun _ => Iff.rfl⟩

theorem Equivalent.models {F G : Formula} (h : F.Equivalent G) (atomLimit : Nat) :
    F.models atomLimit = G.models atomLimit := by
  have htrue : F.isTrueOn = G.isTrueOn := by
    funext v
    rw [Bool.eq_iff_iff, isTrueOn_iff, isTrueOn_iff, h.truth v]
  by_cases hsize : F.atoms.size ≤ effectiveLimit atomLimit
  · have hF := (F.models_eq_ok atomLimit _).mpr ⟨hsize, rfl⟩
    have hG := (G.models_eq_ok atomLimit _).mpr ⟨h.atoms ▸ hsize, rfl⟩
    rw [hF, hG, h.atoms, htrue]
  · have hF := (F.models_eq_error atomLimit _).mpr ⟨Nat.lt_of_not_le hsize, rfl⟩
    have hG := (G.models_eq_error atomLimit _).mpr ⟨h.atoms ▸ Nat.lt_of_not_le hsize, rfl⟩
    rw [hF, hG, h.atoms]

theorem conjunction_equivalent {Fs Gs : List Formula} (h : Fs.Perm Gs) :
    (conjunction Fs).Equivalent (conjunction Gs) := by
  constructor
  · apply FluentSet.ext_mem
    intro f
    simp only [mem_atoms_conjunction, h.mem_iff]
  · intro v
    simp only [Valuation.eval_eq_ok, eval_conjunction, h.mem_iff]

end Formula

/-- Moments that differ in no more than the form of their constraints. -/
structure Moment.Equivalent (m m' : Moment) : Prop where
  event : m.event = m'.event
  constraint : Option.Rel Formula.Equivalent m.constraint m'.constraint

/-- Scenarios that differ in no more than the form of their constraints. -/
structure Scenario.Equivalent (s s' : Scenario) : Prop where
  fluents : s.fluents = s'.fluents
  statements : s.statements = s'.statements
  times : s.timeline.keys = s'.timeline.keys
  moments : ∀ t m m', s.timeline.get? t = some m → s'.timeline.get? t = some m' → m.Equivalent m'

namespace Search

variable {s s' : Scenario} {m m' : Moment}

theorem accept_congr (h : m.Equivalent m') (atomLimit : Nat) (t : Time) (x : Search) :
    x.accept atomLimit t m = x.accept atomLimit t m' := by
  obtain ⟨event, constraint⟩ := m
  obtain ⟨event', constraint'⟩ := m'
  obtain ⟨_, hc⟩ := h
  cases hc with
  | none => rfl
  | some hF => simp only [accept, constrain, hF.models]

theorem step_equivalent (hs : s.statements = s'.statements) (h : m.Equivalent m')
    (atomLimit modelLimit : Nat) (t : Time) (x : Search) :
    x.step s atomLimit modelLimit (t, m) = x.step s' atomLimit modelLimit (t, m') := by
  have hfollow : follow s' atomLimit modelLimit t m = follow s' atomLimit modelLimit t m' := by
    funext y
    rw [follow, follow, h.event]
  rw [step_congr hs, step_eq, step_eq, accept_congr h, hfollow]

end Search

namespace Scenario.Equivalent

variable {s s' : Scenario}

theorem startTime (h : s.Equivalent s') : s.startTime = s'.startTime := by
  rw [Scenario.startTime, Scenario.startTime, h.times]

theorem constraintAt (h : s.Equivalent s') (t : Time) :
    Option.Rel Formula.Equivalent (s.constraintAt t) (s'.constraintAt t) := by
  have hmem : t ∈ s.timeline ↔ t ∈ s'.timeline := by
    rw [SortedMap.mem_iff, SortedMap.mem_iff, h.times]
  rw [Scenario.constraintAt, Scenario.constraintAt]
  by_cases ht : t ∈ s.timeline
  · obtain ⟨m, hm⟩ := SortedMap.exists_get? ht
    obtain ⟨m', hm'⟩ := SortedMap.exists_get? (hmem.mp ht)
    rw [hm, hm']
    exact (h.moments t m m' hm hm').constraint
  · rw [SortedMap.get?_eq_none.mpr ht, SortedMap.get?_eq_none.mpr (mt hmem.mpr ht)]
    exact .none

theorem startConstraint (h : s.Equivalent s') :
    s.startConstraint.Equivalent s'.startConstraint := by
  have hc := h.constraintAt s.startTime
  rw [Scenario.startConstraint, Scenario.startConstraint, ← h.startTime]
  generalize s.constraintAt s.startTime = c at hc ⊢
  generalize s'.constraintAt s.startTime = c' at hc ⊢
  cases hc with
  | none => exact .refl .top
  | some hF => exact hF

/-- Seeding looks at the atoms and the worlds of the constraint at the start. -/
theorem initialCandidates (h : s.Equivalent s') (atomLimit modelLimit : Nat) :
    s.initialCandidates atomLimit modelLimit = s'.initialCandidates atomLimit modelLimit := by
  have hc := h.startConstraint
  rw [Scenario.startConstraint, Scenario.startConstraint] at hc
  simp only [Scenario.initialCandidates, hc.models, hc.atoms, h.fluents]

theorem momentsUntil (h : s.Equivalent s') (horizon : Time) :
    List.Forall₂ (fun x y => x.1 = y.1 ∧ x.2.Equivalent y.2) (s.momentsUntil horizon)
      (s'.momentsUntil horizon) := by
  rw [momentsUntil_eq, momentsUntil_eq]
  have hkeys : (s.timeline.filterKeys (· ≤ horizon)).keys =
      (s'.timeline.filterKeys (· ≤ horizon)).keys := by
    apply SortedMap.keys_eq_of_mem_iff
    intro t
    rw [SortedMap.mem_filterKeys, SortedMap.mem_filterKeys, SortedMap.mem_iff, SortedMap.mem_iff,
      h.times]
  refine SortedMap.forall₂_entries hkeys ?_
  intro t m m' hm hm'
  rw [SortedMap.get?_filterKeys] at hm hm'
  split at hm
  case isTrue ht =>
    rw [if_pos ht] at hm'
    exact h.moments t m m' hm hm'
  case isFalse => cases hm

/-- The form of constraints makes no difference to a run. -/
theorem run (h : s.Equivalent s') (limits : Limits) (horizon : Time) :
    s.run limits horizon = s'.run limits horizon := by
  have hstep (x : Search) (m m' : Time × Moment) (hm : m.1 = m'.1 ∧ m.2.Equivalent m'.2) :
      x.step s limits.atoms.value limits.models.value m =
        x.step s' limits.atoms.value limits.models.value m' := by
    obtain ⟨t, m⟩ := m
    obtain ⟨t', m'⟩ := m'
    obtain ⟨rfl, hm⟩ := hm
    exact Search.step_equivalent h.statements hm _ _ t x
  have hfold := Result.foldlM_congr hstep (h.momentsUntil horizon)
  simp only [Scenario.run, h.initialCandidates, h.startTime, hfold]

theorem answer (h : s.Equivalent s') (limits : Limits) (horizon : Time) (qs : List Query) :
    s.answer limits horizon qs = s'.answer limits horizon qs := by
  rw [Scenario.answer, Scenario.answer, h.run]

end Scenario.Equivalent

section Gather

variable {es es' : List (Time × Event)} {os os' : List (Time × Formula)}

theorem Moment.gather_equivalent (hes : (es.map Prod.fst).Nodup) (he : es.Perm es')
    (ho : os.Perm os') (t : Time) : (gather t es os).Equivalent (gather t es' os') := by
  have hes' : (es'.map Prod.fst).Nodup := (he.map Prod.fst).nodup_iff.mp hes
  constructor
  · apply Option.ext
    intro e
    rw [gather, gather, SortedMap.lookup_eq_some t e es hes, SortedMap.lookup_eq_some t e es' hes',
      he.mem_iff]
  · have hperm : (formulasAt t os).Perm (formulasAt t os') := ho.filterMap _
    have hnil : formulasAt t os = [] ↔ formulasAt t os' = [] := by
      rw [← List.perm_nil, ← List.perm_nil]
      exact ⟨hperm.symm.trans, hperm.trans⟩
    rw [gather, gather]
    by_cases h : formulasAt t os = []
    · rw [if_pos h, if_pos (hnil.mp h)]
      exact .none
    · rw [if_neg h, if_neg (mt hnil.mpr h)]
      exact .some (Formula.conjunction_equivalent hperm)

/-- Events at different times and observations may be gathered in any order. -/
theorem Scenario.equivalent_of_perm {fs fs' : List Fluent} (hf : fs.Perm fs')
    (hes : (es.map Prod.fst).Nodup) (he : es.Perm es') (ho : os.Perm os')
    (statements : List Statement) :
    Equivalent ⟨.ofList fs, .gather es os, statements⟩
      ⟨.ofList fs', .gather es' os', statements⟩ := by
  have hes' : (es'.map Prod.fst).Nodup := (he.map Prod.fst).nodup_iff.mp hes
  constructor
  · apply FluentSet.ext_mem
    intro f
    rw [FluentSet.mem_ofList, FluentSet.mem_ofList, hf.mem_iff]
  · rfl
  · apply SortedMap.keys_eq_of_mem_iff
    intro t
    rw [Timeline.mem_gather hes, Timeline.mem_gather hes', (he.map Prod.fst).mem_iff,
      (ho.map Prod.fst).mem_iff]
  · intro t m m' hm hm'
    rw [Timeline.eq_gather hes hm, Timeline.eq_gather hes' hm']
    exact Moment.gather_equivalent hes he ho t

end Gather

namespace Problem

/-- The second problem gives fluents, events and observations in another order. -/
structure Reordered (p p' : Problem) : Prop where
  termination : p.termination = p'.termination
  states : Option.Rel List.Perm p.states p'.states
  agents : p.agents = p'.agents
  actions : p.actions = p'.actions
  statements : p.statements = p'.statements
  events : p.events.Perm p'.events
  observations : p.observations.Perm p'.observations
  queries : p.queries = p'.queries

/-- A problem in another order is read as the same, in another order. -/
theorem Reordered.exists_reading {p p' : Problem} (h : p.Reordered p') (r : Reading p) :
    ∃ r' : Reading p', r'.horizon = r.horizon ∧ r.fluents.Perm r'.fluents ∧
      r'.statements = r.statements ∧ r.events.Perm r'.events ∧
      r.observations.Perm r'.observations ∧ r'.queries = r.queries := by
  obtain ⟨horizon, states, fluents, statements, events, observations, queries, hhorizon, hstates,
    hfluents, hstatements, hevents, hdistinct, hobservations, hqueries⟩ := r
  obtain ⟨_, _, _, _, _, _, _, _⟩ := p
  obtain ⟨_, _, _, _, _, _, _, _⟩ := p'
  obtain ⟨rfl, hst, rfl, rfl, rfl, he, ho, rfl⟩ := h
  cases hst with
  | none => cases hstates
  | @some _ states' hst =>
    obtain rfl := Option.some.inj hstates
    obtain ⟨fluents', hf, hfperm⟩ := Result.mapM_perm hst hfluents
    obtain ⟨events', he', heperm⟩ := Result.mapM_perm he hevents
    obtain ⟨observations', ho', hoperm⟩ := Result.mapM_perm ho hobservations
    have hdistinct' : (events'.map Prod.fst).Nodup := (heperm.map Prod.fst).nodup_iff.mp hdistinct
    exact ⟨⟨horizon, states', fluents', statements, events', observations', queries, hhorizon, rfl,
      hf, hstatements, he', hdistinct', ho', hqueries⟩, rfl, hfperm, rfl, heperm, hoperm, rfl⟩

/-- A problem in another order is accepted as well, and every batch of queries gets the same
answers or the same error. -/
theorem toBatch_reordered {p p' : Problem} {b : Batch} (h : p.Reordered p')
    (hb : p.toBatch = .ok b) : ∃ b', p'.toBatch = .ok b' ∧ b'.queries = b.queries ∧
      b'.horizon = b.horizon ∧ ∀ limits horizon qs,
        b'.scenario.answer limits horizon qs = b.scenario.answer limits horizon qs := by
  obtain ⟨r, rfl⟩ := toBatch_eq_ok.mp hb
  obtain ⟨r', hhorizon, hf, hs, he, ho, hq⟩ := h.exists_reading r
  refine ⟨r'.batch, toBatch_eq_ok.mpr ⟨r', rfl⟩, hq, hhorizon, ?_⟩
  intro limits horizon qs
  have heq := Scenario.equivalent_of_perm hf r.distinct he ho r.statements
  rw [Reading.batch, Reading.batch, hs]
  exact (heq.answer limits horizon qs).symm

end Problem

/-- A coin is tossed twice. It may show heads at first, and shows tails in the end. -/
def tosses : Problem where
  termination := some 2
  states := some ["heads", "lost"]
  agents := none
  actions := none
  statements := [⟨some "toss", none, some "releases", some (.name "heads"), none⟩]
  events := [⟨some "toss", none, some 0⟩, ⟨some "toss", none, some 1⟩]
  observations := [⟨some (.list [.name "heads", .name "or", .name "lost"]), some 2⟩,
    ⟨some (.list [.name "not", .name "heads"]), some 2⟩]
  queries := [⟨some "fluent", some ⟨some "necessary", some (.name "lost"), some 0, none, none⟩⟩]

/-- The same with each section the other way round. -/
def tossesReversed : Problem :=
  { tosses with
    states := some ["lost", "heads"]
    events := tosses.events.reverse
    observations := tosses.observations.reverse }

theorem tosses_reordered : tosses.Reordered tossesReversed ∧
    ∃ b b', tosses.toBatch = .ok b ∧ tossesReversed.toBatch = .ok b' ∧ b'.queries = b.queries ∧
      b'.horizon = b.horizon ∧ ∀ limits horizon qs,
        b'.scenario.answer limits horizon qs = b.scenario.answer limits horizon qs := by
  have h : tosses.Reordered tossesReversed :=
    ⟨rfl, .some (.swap _ _ _), rfl, rfl, rfl, .swap _ _ _, .swap _ _ _, rfl⟩
  obtain ⟨b, hb, _⟩ : ∃ b, tosses.toBatch = .ok b ∧ b.queries.length = 1 :=
    Result.ok_of_toOption_map (by decide +kernel)
  obtain ⟨b', hb', hrest⟩ := Problem.toBatch_reordered h hb
  exact ⟨h, b, b', hb, hb', hrest⟩

end Chronicle
