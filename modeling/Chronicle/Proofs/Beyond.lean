import Chronicle.Proofs.Activity
import Mathlib.Data.Set.Image

/-!
What lies beyond the horizon. A run reads none of it, unless the timeline begins there: the first
observations are to satisfy the constraint at the start even then. Queries do not tell what it is,
unless the run fails for it.
-/

namespace Chronicle

/-- Both have the same times, and at those within the horizon the same moments. -/
structure Scenario.AgreesUntil (s s' : Scenario) (horizon : Time) : Prop where
  fluents : s.fluents = s'.fluents
  statements : s.statements = s'.statements
  times : s.timeline.keys = s'.timeline.keys
  moments : ∀ t ≤ horizon, s.timeline.get? t = s'.timeline.get? t

theorem Search.step_congr {s s' : Scenario} (h : s.statements = s'.statements)
    (atomLimit modelLimit : Nat) : step s atomLimit modelLimit = step s' atomLimit modelLimit := by
  funext x m
  simp only [step, fire, Scenario.statementsFor, h]

namespace Scenario

/-- The error of a run, or the histories that it finds in whatever order. -/
def outcome (s : Scenario) (limits : Limits) (horizon : Time) : Except Error (Set History) :=
  (s.run limits horizon).map fun r => {p | p ∈ r.histories}

/-- The first observations of a run. There has to be one. -/
def seeds (s : Scenario) (limits : Limits) : Except Error (Set Valuation) := do
  let os ← s.initialCandidates limits.atoms.value limits.models.value
  if os.isEmpty then
    throw (.logic (.unrealizable s.startTime))
  return {o | o ∈ os}

/-- The scenario with a moment given at a time, in place of any that was. -/
def given (s : Scenario) (t : Time) (m : Moment) : Scenario :=
  { s with timeline := s.timeline.insert t m }

namespace AgreesUntil

variable {s s' : Scenario} {limits : Limits} {horizon : Time}

theorem given (s : Scenario) {t : Time} (ht : horizon < t) (m m' : Moment) :
    (s.given t m).AgreesUntil (s.given t m') horizon := by
  refine ⟨rfl, rfl, ?_, ?_⟩
  · apply SortedMap.keys_eq_of_mem_iff
    intro k
    rw [Scenario.given, Scenario.given, SortedMap.mem_insert, SortedMap.mem_insert]
  · intro k hk
    have hne : k ≠ t := ne_of_lt (lt_of_le_of_lt hk ht)
    simp [Scenario.given, SortedMap.get?_insert, hne]

theorem startTime (h : s.AgreesUntil s' horizon) : s.startTime = s'.startTime := by
  rw [Scenario.startTime, Scenario.startTime, h.times]

theorem momentsUntil (h : s.AgreesUntil s' horizon) :
    s.momentsUntil horizon = s'.momentsUntil horizon := by
  have hmap : s.timeline.filterKeys (· ≤ horizon) = s'.timeline.filterKeys (· ≤ horizon) := by
    apply SortedMap.ext_get?
    intro t
    rw [SortedMap.get?_filterKeys, SortedMap.get?_filterKeys]
    by_cases ht : t ≤ horizon
    · rw [h.moments t ht]
    · simp [ht]
  rw [momentsUntil_eq, momentsUntil_eq]
  exact congrArg SortedMap.entries hmap

/-- Seeding looks at the start, so it agrees if that is within the horizon. -/
theorem initialCandidates (h : s.AgreesUntil s' horizon) (hstart : s.startTime ≤ horizon)
    (atomLimit modelLimit : Nat) :
    s.initialCandidates atomLimit modelLimit = s'.initialCandidates atomLimit modelLimit := by
  have hc : s.constraintAt s.startTime = s'.constraintAt s'.startTime := by
    rw [constraintAt, constraintAt, h.moments _ hstart, h.startTime]
  rw [Scenario.initialCandidates, Scenario.initialCandidates, hc, h.fluents]

theorem run (h : s.AgreesUntil s' horizon) (hstart : s.startTime ≤ horizon) (limits : Limits) :
    s.run limits horizon = s'.run limits horizon := by
  rw [Scenario.run, Scenario.run, h.initialCandidates hstart, h.startTime, h.momentsUntil,
    Search.step_congr h.statements]

end AgreesUntil

section Before

variable {s : Scenario} {limits : Limits} {horizon : Time} {r : Run} {p : History}

theorem momentsUntil_before (hstart : horizon < s.startTime) : s.momentsUntil horizon = [] := by
  rw [momentsUntil_eq, List.filter_eq_nil_iff]
  intro m hm
  simpa using lt_of_lt_of_le hstart (s.startTime_le hm)

/-- Up to a horizon before the start, nothing is added to a first observation. -/
theorem legal_before (hstart : horizon < s.startTime) :
    s.Legal horizon p ↔ ∃ o, s.Initial o ∧ [⟨s.startTime, o, none⟩] = p := by
  rw [Legal, ← momentsUntil_eq, momentsUntil_before hstart]
  constructor
  · intro h
    obtain ⟨o, hi, hread⟩ := h
    cases hread with
    | done => exact ⟨o, hi, rfl⟩
  · intro h
    obtain ⟨o, hi, rfl⟩ := h
    exact ⟨o, hi, .done _⟩

theorem outcome_before (hstart : horizon < s.startTime) (limits : Limits) :
    s.outcome limits horizon =
      (s.seeds limits).map (Set.image fun o => [⟨s.startTime, o, none⟩]) := by
  cases ho : s.initialCandidates limits.atoms.value limits.models.value with
  | error e => simp [outcome, seeds, run, ho, bind, Except.bind, Except.map]
  | ok os =>
    by_cases hne : os = []
    · simp [outcome, seeds, run, ho, hne, bind, Except.bind, Except.map, throw, throwThe,
        MonadExceptOf.throw]
    · obtain ⟨r, hr⟩ : ∃ r, s.run limits horizon = .ok r :=
        ⟨_, by rw [run_eq hne ho, momentsUntil_before hstart]; rfl⟩
      have hseeds : s.seeds limits = .ok {o | o ∈ os} := by
        simp [seeds, ho, hne, bind, Except.bind, pure, Except.pure]
      rw [outcome, hr, hseeds]
      refine congrArg Except.ok (Set.ext fun p => ?_)
      simp only [Set.mem_ofPred_eq, Set.mem_image, mem_histories hr, legal_before hstart,
        mem_initialCandidates ho, ← initial_iff]

end Before

end Scenario

/-- What a run answers that ends before the start. -/
def Query.early (atomLimit : Nat) (horizon : Time) : Query → Except Error Answer
  | formula F t _ =>
    if t > horizon then .ok .indeterminate
    else (F.models atomLimit).map fun _ => .indeterminate
  | action _ _ t => .ok (if t > horizon then .indeterminate else .no)
  | agent _ => .ok .no

namespace Run

variable {s : Scenario} {limits : Limits} {horizon : Time} {r : Run}

theorem not_performed_first (a : Action) (agent : Option Agent) (t t₀ : Time) (o : Valuation) :
    ¬ Performed a agent t [⟨t₀, o, none⟩] := by
  intro h
  obtain ⟨x, hx, _, e, hfiring, _⟩ := h
  obtain rfl := List.mem_singleton.mp hx
  cases hfiring

theorem not_active_first (agent : Agent) (x : Entry) : ¬ Active agent [x] := by
  intro h
  obtain ⟨xs, a, b, ys, he, _⟩ := h
  have hlen := congrArg List.length he
  simp at hlen
  omega

/-- No query has to do with the histories of a run that ends before the start. -/
theorem answer_early (h : s.run limits horizon = .ok r) (hstart : horizon < s.startTime)
    (q : Query) : r.answer q = q.early limits.atoms.value horizon := by
  have hfirst : ∀ p ∈ r.histories, ∃ o, [⟨s.startTime, o, none⟩] = p := by
    intro p hp
    obtain ⟨o, _, he⟩ := (Scenario.legal_before hstart).mp ((Scenario.mem_histories h p).mp hp)
    exact ⟨o, he⟩
  have hhorizon := horizon_eq h
  cases q with
  | formula F t mode =>
    rw [answer, Query.early]
    by_cases ht : t > horizon
    · rw [if_pos ht]
      exact formulaHolds_after (hhorizon ▸ ht) F mode
    · rw [if_neg ht]
      have hle : t ≤ horizon := not_lt.mp ht
      cases hw : F.models limits.atoms.value with
      | error e => exact formulaHolds_of_models_error h hle hw mode
      | ok worlds =>
        exact formulaHolds_before h hle (lt_of_le_of_lt hle hstart) (atomLimit_eq h ▸ hw) mode
  | action a agent t =>
    rw [answer, Query.early]
    by_cases ht : t > horizon
    · rw [if_pos ht, actionPerformed_after (hhorizon ▸ ht)]
    · rw [if_neg ht]
      obtain ⟨b, hb, hiff⟩ := actionPerformed_within (hhorizon ▸ not_lt.mp ht) a agent
      have hno : b ≠ true := by
        rw [Ne, hiff]
        intro hyes
        obtain ⟨_, p, hp, hperf⟩ := hyes
        obtain ⟨o, rfl⟩ := hfirst p hp
        exact not_performed_first a agent t s.startTime o hperf
      rw [hb, Bool.eq_false_of_not_eq_true hno]
      rfl
  | agent agent =>
    have hidle : r.agentActive agent = false := by
      rw [← Bool.not_eq_true, agentActive_iff]
      intro hactive
      obtain ⟨p, hp⟩ := List.exists_mem_of_ne_nil _ (Scenario.run_ne_nil h)
      obtain ⟨o, rfl⟩ := hfirst p hp
      exact not_active_first agent _ (hactive _ hp)
    rw [answer, hidle]
    rfl

end Run

namespace Scenario

section Beyond

variable {s s' : Scenario} {horizon : Time}

theorem AgreesUntil.outcome_iff (h : s.AgreesUntil s' horizon) (limits : Limits) :
    s.outcome limits horizon = s'.outcome limits horizon ↔ s.seeds limits = s'.seeds limits := by
  by_cases hstart : s.startTime ≤ horizon
  · have hrun := h.run hstart limits
    have hseed := h.initialCandidates hstart limits.atoms.value limits.models.value
    simp only [outcome, seeds, hrun, hseed, h.startTime]
  · have hbefore := not_le.mp hstart
    rw [outcome_before hbefore, outcome_before (h.startTime ▸ hbefore), h.startTime]
    have hinj : Function.Injective
        (Set.image fun o : Valuation => [(⟨s'.startTime, o, none⟩ : Entry)]) := by
      apply Set.image_injective.mpr
      intro o o' he
      simpa using he
    exact (Result.map_injective hinj).eq_iff

theorem AgreesUntil.answer_eq {r r' : Run} {limits : Limits} (h : s.AgreesUntil s' horizon)
    (hr : s.run limits horizon = .ok r) (hr' : s'.run limits horizon = .ok r') :
    r.answer = r'.answer := by
  by_cases hstart : s.startTime ≤ horizon
  · rw [h.run hstart, hr'] at hr
    rw [Except.ok.inj hr]
  · have hbefore := not_le.mp hstart
    funext q
    rw [Run.answer_early hr hbefore, Run.answer_early hr' (h.startTime ▸ hbefore)]

theorem AgreesUntil.answers_iff (h : s.AgreesUntil s' horizon) (limits : Limits) :
    (∀ qs, s.answer limits horizon qs = s'.answer limits horizon qs) ↔
      ∀ e, s.run limits horizon = .error e ↔ s'.run limits horizon = .error e := by
  constructor
  · intro hall e
    have hnil (s : Scenario) :
        s.answer limits horizon [] = (s.run limits horizon).map fun _ => [] := by
      rw [answer]
      cases s.run limits horizon <;> rfl
    rw [← Result.map_eq_error (fun _ => ([] : List Answer)), ← hnil, hall, hnil,
      Result.map_eq_error]
  · intro herr qs
    rw [answer, answer]
    cases hr : s.run limits horizon with
    | error e => rw [(herr e).mp hr]
    | ok r =>
      cases hr' : s'.run limits horizon with
      | error e =>
        rw [(herr e).mpr hr'] at hr
        cases hr
      | ok r' =>
        change qs.mapM r.answer = qs.mapM r'.answer
        rw [h.answer_eq hr hr']

/-- What is given after the horizon makes no difference if the timeline begins within it. If not, it
makes one through the first observations alone, and one to queries only by the error of a run. -/
theorem run_beyond (h : s.AgreesUntil s' horizon) (limits : Limits) :
    (s.startTime ≤ horizon → s.run limits horizon = s'.run limits horizon) ∧
    (s.outcome limits horizon = s'.outcome limits horizon ↔ s.seeds limits = s'.seeds limits) ∧
    ((∀ qs, s.answer limits horizon qs = s'.answer limits horizon qs) ↔
      ∀ e, s.run limits horizon = .error e ↔ s'.run limits horizon = .error e) :=
  ⟨fun hstart => h.run hstart limits, h.outcome_iff limits, h.answers_iff limits⟩

end Beyond

end Scenario

/-- The coin when nothing more is given at time 2. -/
def coinOnce : Scenario := coin.given 2 .empty

/-- The coin when it is to show tails at time 2. -/
def coinTails : Scenario := coin.given 2 ⟨none, some (.neg (.atom ⟨"heads"⟩))⟩

/-- Both runs end in the two histories of the coin, before anything is seen at time 2. -/
theorem coin_beyond : coinOnce.AgreesUntil coinTails 1 ∧ coinOnce.startTime ≤ 1 ∧
    (∃ r, coinOnce.run .standard 1 = .ok r ∧ coinTails.run .standard 1 = .ok r ∧
      r.modelCount = 2) ∧
    (coinOnce.startTime ≤ 1 → coinOnce.run .standard 1 = coinTails.run .standard 1) ∧
    (coinOnce.outcome .standard 1 = coinTails.outcome .standard 1 ↔
      coinOnce.seeds .standard = coinTails.seeds .standard) ∧
    ((∀ qs, coinOnce.answer .standard 1 qs = coinTails.answer .standard 1 qs) ↔
      ∀ e, coinOnce.run .standard 1 = .error e ↔ coinTails.run .standard 1 = .error e) := by
  have hlate : (1 : Time) < 2 := by decide
  have h : coinOnce.AgreesUntil coinTails 1 := .given coin hlate _ _
  have hstart : coinOnce.startTime ≤ 1 := by decide
  obtain ⟨r, hr, htwo⟩ : ∃ r, coinOnce.run .standard 1 = .ok r ∧ r.modelCount = 2 :=
    Result.ok_of_toOption_map (by decide +kernel)
  obtain ⟨hrun, hrest⟩ := Scenario.run_beyond h .standard
  exact ⟨h, hstart, ⟨r, hr, (hrun hstart).symm.trans hr, htwo⟩, hrun, hrest⟩

/-- A coin of which nothing is given but a constraint at time 2. -/
def coinSeen (F : Formula) : Scenario :=
  { coin with timeline := (∅ : Timeline).insert 2 ⟨none, some F⟩ }

/-- Heads, and not heads. -/
def bothSides : Formula := .binary .and (.atom ⟨"heads"⟩) (.neg (.atom ⟨"heads"⟩))

/-- A run that ends before the coin is seen fails for what is then to be seen. -/
theorem coinSeen_beyond : (coinSeen .top).AgreesUntil (coinSeen bothSides) 0 ∧
    (∃ r, (coinSeen .top).run .standard 0 = .ok r ∧ r.modelCount = 2) ∧
    (coinSeen bothSides).run .standard 0 = .error (.logic (.unrealizable 2)) := by
  have hlate : (0 : Time) < 2 := by decide
  refine ⟨.given { coin with timeline := ∅ } hlate _ _, ?_, rfl⟩
  exact Result.ok_of_toOption_map (by decide +kernel)

end Chronicle
