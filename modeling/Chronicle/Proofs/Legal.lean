import Chronicle.Proofs.Histories
import Chronicle.Proofs.Successor

/-!
Which histories a scenario allows, said without searching for them, and what they have in common.
-/

namespace Chronicle

/-- An observation is admitted if it satisfies the constraint, should there be one. -/
def Moment.Admits (m : Moment) (o : Valuation) : Prop :=
  ∀ F, m.constraint = some F → o.eval F = .ok true

namespace Scenario

/-- Some statement about the event has its condition met. -/
def Triggers (s : Scenario) (e : Event) (o : Valuation) : Prop :=
  ∃ r ∈ s.statementsFor e, r.TriggeredOn o

/-- The last observation of a history triggers the event. -/
def Extends (s : Scenario) (e : Event) (p : History) : Prop :=
  ∃ last, p.getLast? = some last ∧ s.Triggers e last.observation

/-- What a history may become when the moment at a time is read. -/
inductive Next (s : Scenario) (t : Time) (m : Moment) (p : History) : History → Prop where
  | rests (last : Entry) (hlast : p.getLast? = some last) (admitted : m.Admits last.observation)
      (quiet : ∀ e, m.event = some e → ¬ s.Triggers e last.observation) : Next s t m p p
  | fires (last : Entry) (hlast : p.getLast? = some last) (admitted : m.Admits last.observation)
      (e : Event) (event : m.event = some e) (triggered : s.Triggers e last.observation)
      (o : Valuation) (outcome : Outcome (s.statementsFor e) last.observation o) :
      Next s t m p (p ++ [⟨t + 1, o, some e⟩])

/-- What a history may become when moments are read in turn. -/
inductive Reads (s : Scenario) : List (Time × Moment) → History → History → Prop where
  | done (p : History) : Reads s [] p p
  | read {t : Time} {m : Moment} {ms : List (Time × Moment)} {p p' q : History}
      (first : s.Next t m p p') (rest : Reads s ms p' q) : Reads s ((t, m) :: ms) p q

/-- An observation that a history may begin with. -/
structure Initial (s : Scenario) (o : Valuation) : Prop where
  fluents : ∀ f, f ∈ o ↔ f ∈ s.fluents
  constraint : ∀ F, s.constraintAt s.startTime = some F → o.eval F = .ok true

/-- A legal history begins at the start and reads every moment up to the horizon. -/
def Legal (s : Scenario) (horizon : Time) (p : History) : Prop :=
  ∃ o, s.Initial o ∧
    s.Reads (s.timeline.entries.filter (·.1 ≤ horizon)) [⟨s.startTime, o, none⟩] p

theorem startTime_le (s : Scenario) {t : Time} {m : Moment} (h : (t, m) ∈ s.timeline.entries) :
    s.startTime ≤ t := by
  have hord := s.timeline.ordered
  rw [startTime, SortedMap.keys]
  cases he : s.timeline.entries with
  | nil => simp [he] at h
  | cons e es =>
    rw [he] at h hord
    obtain ⟨hfirst, _⟩ := List.pairwise_cons.mp hord
    rcases List.mem_cons.mp h with rfl | h
    · simp
    · have hlt := hfirst t (List.mem_map.mpr ⟨(t, m), h, rfl⟩)
      exact le_of_lt hlt

theorem moments_ordered (s : Scenario) (horizon : Time) :
    ((s.timeline.entries.filter (·.1 ≤ horizon)).map Prod.fst).Pairwise (· < ·) :=
  s.timeline.ordered.sublist (List.filter_sublist.map _)

/-- What holds of every legal history: it begins at the start, moves on in time, and values the
fluents of the scenario throughout. -/
structure Orderly (s : Scenario) (p : History) : Prop where
  first : ∃ o, p.head? = some ⟨s.startTime, o, none⟩
  increasing : p.Pairwise (·.time < ·.time)
  fluents : ∀ e ∈ p, ∀ f, f ∈ e.observation ↔ f ∈ s.fluents

end Scenario

/-- A history that has begun, and has not gone beyond a time. -/
def EndsBy (t : Time) (p : History) : Prop := p ≠ [] ∧ ∀ e ∈ p, e.time ≤ t

theorem EndsBy.mono {t t' : Time} {p : History} (h : EndsBy t p) (ht : t ≤ t') : EndsBy t' p :=
  ⟨h.1, fun e he => le_trans (h.2 e he) ht⟩

theorem EndsBy.start {t t' : Time} (o : Valuation) (h : t ≤ t') : EndsBy t' [⟨t, o, none⟩] := by
  refine ⟨by simp, ?_⟩
  intro e he
  rw [List.mem_singleton.mp he]
  exact h

/-- A step beyond the first of some moments is not beyond any of the others. -/
theorem EndsBy.before_rest {t : Time} {m : Moment} {ms : List (Time × Moment)} {p : History}
    (h : EndsBy (t + 1) p) (hord : (((t, m) :: ms).map Prod.fst).Pairwise (· < ·)) :
    ∀ m' ∈ ms, EndsBy m'.1 p := by
  intro m' hm'
  have hlt := (List.pairwise_cons.mp hord).1 m'.1 (List.mem_map.mpr ⟨m', hm', rfl⟩)
  exact h.mono (Int.add_one_le_iff.mpr hlt)

namespace Scenario

section Facts

variable {s : Scenario} {t : Time} {m : Moment} {p q : History}

theorem Next.endsBy (h : s.Next t m p q) (hp : EndsBy t p) : EndsBy (t + 1) q := by
  have hlater := hp.mono (le_of_lt (Int.lt_succ t))
  cases h with
  | rests => exact hlater
  | fires =>
    refine ⟨by simp, ?_⟩
    intro e he
    rcases List.mem_append.mp he with he | he
    · exact hlater.2 e he
    · rw [List.mem_singleton.mp he]

theorem Next.orderly (h : s.Next t m p q) (hp : EndsBy t p) (ho : s.Orderly p) : s.Orderly q := by
  cases h with
  | rests => exact ho
  | fires last hl _ e _ _ o outcome =>
    obtain ⟨o', hfirst⟩ := ho.first
    refine ⟨⟨o', by simp [hfirst]⟩, ?_, ?_⟩
    · rw [List.pairwise_append]
      refine ⟨ho.increasing, List.pairwise_singleton .., ?_⟩
      intro x hx y hy
      rw [List.mem_singleton.mp hy]
      exact Int.lt_add_one_iff.mpr (hp.2 x hx)
    · intro x hx f
      rcases List.mem_append.mp hx with hx | hx
      · exact ho.fluents x hx f
      · rw [List.mem_singleton.mp hx, outcome.fluents f]
        exact ho.fluents last (List.mem_of_getLast? hl) f

theorem Reads.orderly {ms : List (Time × Moment)} (h : s.Reads ms p q)
    (hord : (ms.map Prod.fst).Pairwise (· < ·)) (hp : ∀ m ∈ ms, EndsBy m.1 p)
    (ho : s.Orderly p) : s.Orderly q := by
  induction h with
  | done => exact ho
  | read first _ ih =>
    have hnow := hp _ List.mem_cons_self
    exact ih hord.of_cons ((first.endsBy hnow).before_rest hord) (first.orderly hnow ho)

theorem Legal.orderly {horizon : Time} (h : s.Legal horizon p) : s.Orderly p := by
  obtain ⟨o, hi, hread⟩ := h
  apply hread.orderly
  · exact s.moments_ordered horizon
  · intro m hm
    exact EndsBy.start o (s.startTime_le (List.mem_of_mem_filter hm))
  · refine ⟨⟨o, rfl⟩, List.pairwise_singleton .., ?_⟩
    intro e he
    rw [List.mem_singleton.mp he]
    exact hi.fluents

end Facts

end Scenario

end Chronicle
