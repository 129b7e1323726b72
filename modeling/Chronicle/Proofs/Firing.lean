import Chronicle.Proofs.Activity
import Chronicle.Proofs.Course

/-!
Actions and agents in terms of the timeline. An entry is recorded at the time after an event exactly
if the event is triggered on what the history holds at its time, so what queries read off the
entries is what has fired.
-/

namespace Chronicle

/-- The event is of the action, and by the agent if one is given. -/
def Event.Matches (e : Event) (a : Action) (agent : Option Agent) : Prop :=
  e.action = a ∧ (agent = none ∨ e.agent = agent)

namespace Scenario

/-- The event given at a time is triggered on what a history holds then. -/
structure FiresAt (s : Scenario) (t : Time) (e : Event) (p : History) : Prop where
  event : s.eventAt t = some e
  triggered : ∃ x, IsLatest p t x ∧ s.Triggers e x.observation

/-- The event given at a time has led a history to an entry on which some fluent has another value
than on the entry right before. -/
structure Alters (s : Scenario) (t : Time) (e : Event) (p : History) : Prop where
  event : s.eventAt t = some e
  change : ∃ xs a b ys, p = xs ++ a :: b :: ys ∧ b.time = t + 1 ∧ b.firing = some e ∧
    ∃ f ∈ s.fluents, a.observation.get? f ≠ b.observation.get? f

section Recorded

variable {s : Scenario} {horizon t : Time} {e : Event} {p : History} {b : Entry}

/-- An entry that records an event is not the first, and the one before has led to it. -/
theorem Legal.exists_fires (h : s.Legal horizon p) (hb : b ∈ p) (he : b.firing = some e) :
    ∃ xs a ys t, p = xs ++ a :: b :: ys ∧ t ≤ horizon ∧ s.Fires t e a b := by
  obtain ⟨before, ys, rfl⟩ := List.append_of_mem hb
  rcases List.eq_nil_or_concat before with rfl | ⟨xs, a, rfl⟩
  · obtain ⟨o, hfirst⟩ := h.orderly.first
    have hhead : b = ⟨s.startTime, o, none⟩ := by simpa using hfirst
    rw [hhead] at he
    cases he
  · have hsplit : xs.concat a ++ b :: ys = xs ++ a :: b :: ys := by simp
    have hchain := h.isChain
    rw [hsplit] at hchain
    obtain ⟨t, e', ht, hfires⟩ := (List.isChain_append_cons_cons.mp hchain).2.1
    have hsame : e' = e := Option.some.inj (hfires.firing.symm.trans he)
    exact ⟨xs, a, ys, t, hsplit, ht, hsame ▸ hfires⟩

/-- What is recorded is what fires. -/
theorem Legal.recorded_iff (h : s.Legal horizon p) (ht : t ≤ horizon) (e : Event) :
    (∃ b ∈ p, b.time = t + 1 ∧ b.firing = some e) ↔ s.FiresAt t e p := by
  have hord := h.orderly.increasing
  constructor
  · intro hrec
    obtain ⟨b, hb, htime, he⟩ := hrec
    obtain ⟨xs, a, ys, t', rfl, _, hfires⟩ := h.exists_fires hb he
    have hsame : t' = t := (Int.add_left_inj 1).mp (hfires.time.symm.trans htime)
    rw [hsame] at hfires
    have hlater : t < b.time := htime ▸ Int.lt_succ t
    have hlast := isLatest_of_between hord hfires.before hlater
    exact ⟨hfires.event, a, hlast, hfires.triggered⟩
  · intro hfires
    obtain ⟨x, hx, htrig⟩ := hfires.triggered
    obtain ⟨m, hm, hme⟩ := Option.bind_eq_some_iff.mp hfires.event
    obtain ⟨before, after, later, y, hy, hlatest, hnext, rfl, _⟩ := h.passes hm ht
    have hsame : x = y := hx.unique hord hlatest
    cases hnext with
    | rests last hlast _ quiet =>
      have hlast' : y = last := Option.some.inj (hy.symm.trans hlast)
      rw [hsame, hlast'] at htrig
      exact absurd htrig (quiet e hme)
    | fires last hlast _ e' he' _ o _ =>
      have hevent : e' = e := Option.some.inj (he'.symm.trans hme)
      exact ⟨⟨t + 1, o, some e'⟩, by simp, rfl, by rw [hevent]⟩

theorem Legal.performed_iff (h : s.Legal horizon p) (ht : t ≤ horizon) (a : Action)
    (agent : Option Agent) :
    Performed a agent t p ↔ ∃ e, e.Matches a agent ∧ s.FiresAt t e p := by
  constructor
  · intro hperf
    obtain ⟨b, hb, htime, e, he, hmatch⟩ := hperf
    exact ⟨e, hmatch, (h.recorded_iff ht e).mp ⟨b, hb, htime, he⟩⟩
  · intro hfires
    obtain ⟨e, hmatch, hfires⟩ := hfires
    obtain ⟨b, hb, htime, he⟩ := (h.recorded_iff ht e).mpr hfires
    exact ⟨b, hb, htime, e, he, hmatch⟩

/-- Entries in a row value the same fluents, so that a difference is one between two values. -/
theorem Legal.active_iff (h : s.Legal horizon p) (g : Agent) :
    Active g p ↔ ∃ t e, t ≤ horizon ∧ e.agent = some g ∧ s.Alters t e p := by
  have hfluents := h.orderly.fluents
  constructor
  · intro hactive
    obtain ⟨xs, a, b, ys, rfl, ⟨e, he, hg⟩, f, v, w, hv, hw, hne⟩ := hactive
    obtain ⟨t, e', ht, hfires⟩ := (List.isChain_append_cons_cons.mp h.isChain).2.1
    have hsame : e' = e := Option.some.inj (hfires.firing.symm.trans he)
    have hf : f ∈ s.fluents := (hfluents a (by simp) f).mp (SortedMap.mem_of_get? hv)
    have hdiff : a.observation.get? f ≠ b.observation.get? f := by simpa [hv, hw] using hne
    refine ⟨t, e, ht, hg, hsame ▸ hfires.event, ?_⟩
    exact ⟨xs, a, b, ys, rfl, hfires.time, he, f, hf, hdiff⟩
  · intro halters
    obtain ⟨t, e, _, hg, _, xs, a, b, ys, rfl, _, he, f, hf, hdiff⟩ := halters
    obtain ⟨v, hv⟩ := SortedMap.exists_get? ((hfluents a (by simp) f).mpr hf)
    obtain ⟨w, hw⟩ := SortedMap.exists_get? ((hfluents b (by simp) f).mpr hf)
    have hne : v ≠ w := by simpa [hv, hw] using hdiff
    exact ⟨xs, a, b, ys, rfl, ⟨e, he, hg⟩, f, v, w, hv, hw, hne⟩

end Recorded

end Scenario

namespace Search

variable {s : Scenario} {atomLimit modelLimit : Nat} {x x' : Search} {t : Time} {e : Event}

/-- Where an event has been read there is a time after it. -/
theorem step_before_last {m : Moment} (h : x.step s atomLimit modelLimit (t, m) = .ok x')
    (he : m.event = some e) : t < Time.last := by
  obtain ⟨y, _, hfire⟩ := step_eq_ok.mp h
  simp only [follow, he] at hfire
  by_contra hlast
  have hnone : Time.next? t = none := if_neg hlast
  simp [fire, hnone] at hfire

end Search

section Queries

variable {s : Scenario} {limits : Limits} {horizon t : Time} {r : Run}

theorem Scenario.before_last_of_eventAt (h : s.run limits horizon = .ok r) (ht : t ≤ horizon)
    {e : Event} (he : s.eventAt t = some e) : t < Time.last := by
  obtain ⟨os, x, _, _, hx, _⟩ := run_eq_ok h
  obtain ⟨m, hm, hme⟩ := Option.bind_eq_some_iff.mp he
  have hmem : (t, m) ∈ s.momentsUntil horizon := by
    rw [s.momentsUntil_eq]
    exact (s.mem_filter_timeline horizon (t, m)).mpr ⟨hm, ht⟩
  obtain ⟨y, y', hstep⟩ := Result.exists_of_foldlM_eq_ok hx hmem
  exact Search.step_before_last hstep hme

/-- An action is indeterminate after the horizon. Up to it, the horizon included, it is performed at
a time exactly if the event given then is one of it and fires in at least one history. -/
theorem Run.actionPerformed_spec (h : s.run limits horizon = .ok r) (a : Action)
    (agent : Option Agent) (t : Time) :
    (r.actionPerformed a agent t = .indeterminate ↔ horizon < t) ∧
    (t ≤ horizon → (r.actionPerformed a agent t = .yes ↔
      ∃ e, s.eventAt t = some e ∧ e.Matches a agent ∧
        ∃ p ∈ r.histories, ∃ x, IsLatest p t x ∧ s.Triggers e x.observation)) := by
  have hfires (p : History) (hp : p ∈ r.histories) (ht : t ≤ horizon) :=
    ((Scenario.mem_histories h p).mp hp).performed_iff ht a agent
  rw [actionPerformed_eq_indeterminate, actionPerformed_eq_yes, horizon_eq h]
  refine ⟨Iff.rfl, ?_⟩
  intro ht
  constructor
  · intro hyes
    obtain ⟨_, _, p, hp, hperf⟩ := hyes
    obtain ⟨e, hmatch, hfire⟩ := (hfires p hp ht).mp hperf
    exact ⟨e, hfire.event, hmatch, p, hp, hfire.triggered⟩
  · intro hyes
    obtain ⟨e, he, hmatch, p, hp, htrig⟩ := hyes
    have hlast := Scenario.before_last_of_eventAt h ht he
    have hperf := (hfires p hp ht).mpr ⟨e, hmatch, he, htrig⟩
    exact ⟨ht, hlast, p, hp, hperf⟩

/-- An agent is active exactly if in every history some event of the agent, at a time within the
horizon, alters what the history holds. -/
theorem Run.agentActive_spec (h : s.run limits horizon = .ok r) (g : Agent) :
    r.agentActive g = true ↔
      ∀ p ∈ r.histories, ∃ t e, t ≤ horizon ∧ e.agent = some g ∧ s.Alters t e p := by
  rw [agentActive_iff]
  apply forall₂_congr
  intro p hp
  exact ((Scenario.mem_histories h p).mp hp).active_iff g

end Queries

/-- Ann rings a bell at time 3 that has not been rung by then. -/
def bell : Scenario where
  fluents := .ofList [⟨"rung"⟩]
  timeline := (∅ : Timeline).insert 3 ⟨some ⟨⟨"ring"⟩, some ⟨"Ann"⟩⟩, some (.neg (.atom ⟨"rung"⟩))⟩
  statements := [⟨⟨⟨"ring"⟩, some ⟨"Ann"⟩⟩, .top, .causes (.atom ⟨"rung"⟩)⟩]

theorem bell_run : ∃ r, bell.run .standard 3 = .ok r ∧
    (r.modelCount, r.actionPerformed ⟨"ring"⟩ (some ⟨"Ann"⟩) 3, r.agentActive ⟨"Ann"⟩) =
      (1, .yes, true) :=
  Result.ok_of_toOption_map (by decide +kernel)

/-- The horizon is no obstacle: what fires there is performed, though it shows only afterwards. -/
theorem bell_performed_at_horizon : ∃ r, bell.run .standard 3 = .ok r ∧ r.modelCount = 1 ∧
    r.actionPerformed ⟨"ring"⟩ (some ⟨"Ann"⟩) 3 = .yes ∧
    (r.actionPerformed ⟨"ring"⟩ (some ⟨"Ann"⟩) 3 = .yes ↔
      ∃ e, bell.eventAt 3 = some e ∧ e.Matches ⟨"ring"⟩ (some ⟨"Ann"⟩) ∧
        ∃ p ∈ r.histories, ∃ x, IsLatest p 3 x ∧ bell.Triggers e x.observation) := by
  obtain ⟨r, hr, hanswers⟩ := bell_run
  obtain ⟨hcount, hanswers⟩ := Prod.mk.inj hanswers
  obtain ⟨hyes, _⟩ := Prod.mk.inj hanswers
  have hspec := (Run.actionPerformed_spec hr ⟨"ring"⟩ (some ⟨"Ann"⟩) 3).2 (by decide)
  exact ⟨r, hr, hcount, hyes, hspec⟩

theorem bell_rung_by_ann : ∃ r, bell.run .standard 3 = .ok r ∧ r.modelCount = 1 ∧
    r.agentActive ⟨"Ann"⟩ = true ∧
    ∀ p ∈ r.histories, ∃ t e, t ≤ 3 ∧ e.agent = some ⟨"Ann"⟩ ∧ bell.Alters t e p := by
  obtain ⟨r, hr, hanswers⟩ := bell_run
  obtain ⟨hcount, hanswers⟩ := Prod.mk.inj hanswers
  obtain ⟨_, hactive⟩ := Prod.mk.inj hanswers
  exact ⟨r, hr, hcount, hactive, (Run.agentActive_spec hr ⟨"Ann"⟩).mp hactive⟩

end Chronicle
