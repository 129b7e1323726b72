import Chronicle.Proofs.Legal
import Chronicle.Proofs.Seeding

/-!
A run finds every legal history up to its horizon, each of them once, and no others.
-/

namespace Chronicle

namespace Scenario

theorem momentsUntil_eq (s : Scenario) (horizon : Time) :
    s.momentsUntil horizon = s.timeline.entries.filter (·.1 ≤ horizon) := by
  have h (es : List (Time × Moment)) (hes : (es.map Prod.fst).Pairwise (· < ·)) :
      es.takeWhile (·.1 ≤ horizon) = es.filter (·.1 ≤ horizon) := by
    induction es with
    | nil => rfl
    | cons e es ih =>
      obtain ⟨hfirst, hrest⟩ := List.pairwise_cons.mp hes
      by_cases he : e.1 ≤ horizon
      · simp [he, ih hrest]
      · have hnone : ∀ e' ∈ es, ¬ e'.1 ≤ horizon := by
          intro e' he'
          have hlt := hfirst e'.1 (List.mem_map.mpr ⟨e', he', rfl⟩)
          exact not_le_of_gt (lt_trans (lt_of_not_ge he) hlt)
        simpa [he] using hnone
  exact h s.timeline.entries s.timeline.ordered

theorem momentsUntil_ordered (s : Scenario) (horizon : Time) :
    ((s.momentsUntil horizon).map Prod.fst).Pairwise (· < ·) :=
  s.timeline.ordered.sublist ((List.takeWhile_sublist _).map _)

theorem initial_iff (s : Scenario) (o : Valuation) :
    s.Initial o ↔ o.keys = s.fluents.keys ∧ o.eval s.startConstraint = .ok true := by
  rw [eval_startConstraint]
  constructor
  · intro h
    exact ⟨SortedMap.keys_eq_of_mem_iff _ _ h.fluents, h.constraint⟩
  · intro h
    exact ⟨Valuation.mem_iff_of_keys_eq h.1, h.2⟩

end Scenario

namespace Histories

/-- Every history has begun, and none has gone beyond a time. -/
def UpTo (t : Time) (ps : List History) : Prop := ∀ p ∈ ps, EndsBy t p

theorem UpTo.subset {t : Time} {ps qs : List History} (h : UpTo t ps) (hs : qs ⊆ ps) : UpTo t qs :=
  fun p hp => h p (hs hp)

section Constrain

variable {atomLimit : Nat} {ps qs : List History}

/-- The last observation of a history is compatible with one of the worlds. -/
def Fits (worlds : List Valuation) (p : History) : Prop :=
  ∃ last, p.getLast? = some last ∧ last.observation.compatible worlds = .ok true

theorem sift_cons_of_fits {worlds : List Valuation} {p : History} (h : Fits worlds p)
    (ps : List History) : sift worlds (p :: ps) = (sift worlds ps).map (p :: ·) := by
  obtain ⟨last, hl, hc⟩ := h
  simp [sift, hl, hc]

theorem sift_cons_of_not_fits {worlds : List Valuation} {p : History} (h : ¬ Fits worlds p)
    (hok : sift worlds (p :: ps) = .ok qs) : sift worlds ps = .ok qs := by
  rw [sift] at hok
  cases hl : p.getLast? with
  | none => simpa [hl] using hok
  | some last =>
    rw [hl] at hok
    cases hc : last.observation.compatible worlds with
    | error e => simp [hc] at hok
    | ok b =>
      cases b with
      | true => exact absurd ⟨last, hl, hc⟩ h
      | false => simpa [hc] using hok

theorem sift_eq_ok {worlds : List Valuation} (h : sift worlds ps = .ok qs) :
    qs.Sublist ps ∧ ∀ p, p ∈ qs ↔ p ∈ ps ∧ Fits worlds p := by
  induction ps generalizing qs with
  | nil =>
    have he : qs = [] := (Except.ok.inj h).symm
    simp [he]
  | cons p ps ih =>
    by_cases hp : Fits worlds p
    · rw [sift_cons_of_fits hp] at h
      cases hr : sift worlds ps with
      | error e => simp [hr, Except.map] at h
      | ok rest =>
        have he : p :: rest = qs := by simpa [hr, Except.map] using h
        obtain ⟨hs, hm⟩ := ih hr
        subst he
        refine ⟨hs.cons_cons p, ?_⟩
        intro q
        rw [List.mem_cons, List.mem_cons, hm, or_and_right]
        exact or_congr_left (and_iff_left_of_imp fun he => he ▸ hp).symm
    · obtain ⟨hs, hm⟩ := ih (sift_cons_of_not_fits hp h)
      refine ⟨hs.cons p, ?_⟩
      intro q
      have hout : ¬ (q = p ∧ Fits worlds q) := fun hq => hp (hq.1 ▸ hq.2)
      rw [List.mem_cons, hm, or_and_right, or_iff_right hout]

/-- A constraint keeps the histories whose last observations satisfy it, and some are left. -/
theorem constrain_eq_ok {t : Time} {F : Formula} (h : constrain atomLimit t F ps = .ok qs) :
    qs.Sublist ps ∧ qs ≠ [] ∧ ∀ p, p ∈ qs ↔
      p ∈ ps ∧ ∃ last, p.getLast? = some last ∧ last.observation.eval F = .ok true := by
  obtain ⟨worlds, hw, h⟩ := (Result.bind_eq_ok _ _ _).mp h
  obtain ⟨kept, hk, h⟩ := (Result.bind_eq_ok _ _ _).mp h
  obtain ⟨hs, hm⟩ := sift_eq_ok ((Result.mapError_eq_ok _ _ _).mp hk)
  have hne : kept ≠ [] ∧ kept = qs := by
    cases kept with
    | nil => simp [bind, Except.bind, throw, throwThe, MonadExceptOf.throw] at h
    | cons p kept => exact ⟨by simp, Except.ok.inj h⟩
  obtain ⟨hne, rfl⟩ := hne
  refine ⟨hs, hne, ?_⟩
  intro p
  simp only [hm, Fits, Valuation.compatible_models_eq_true hw]

end Constrain

section Fire

variable {s : Scenario} {e : Event} {next t : Time} {atomLimit modelLimit : Nat}
  {ps qs : List History}

/-- What an event makes of one history: a continuation for each observation that follows, or the
history as it is if nothing is triggered. -/
def grown (e : Event) (statements : List Statement) (next : Time) (atomLimit : Nat) (p : History) :
    List History :=
  match p.getLast? with
  | none => []
  | some last =>
    match Successor.successors last.observation statements atomLimit with
    | .error _ => []
    | .ok [] => [p]
    | .ok (o :: os) => (o :: os).map fun o => p ++ [⟨next, o, some e⟩]

/-- The observations that follow the last of a history have been found. -/
def Grows (statements : List Statement) (atomLimit : Nat) (p : History) : Prop :=
  ∀ last, p.getLast? = some last →
    ∃ os, Successor.successors last.observation statements atomLimit = .ok os

/-- Firing on the first of some histories. The limit is checked only if the event extends it. -/
theorem fireAll_cons_eq_ok {done : List History} {p : History}
    (h : fireAll e (s.statementsFor e) next atomLimit modelLimit done (p :: ps) = .ok qs) :
    Grows (s.statementsFor e) atomLimit p ∧
    (s.Extends e p →
      (done ++ grown e (s.statementsFor e) next atomLimit p).length ≤ modelLimit) ∧
    fireAll e (s.statementsFor e) next atomLimit modelLimit
      (done ++ grown e (s.statementsFor e) next atomLimit p) ps = .ok qs := by
  rw [fireAll] at h
  rw [grown]
  cases hl : p.getLast? with
  | none =>
    rw [hl] at h
    exact ⟨by simp [Grows, hl], by simp [Scenario.Extends, hl], by simpa using h⟩
  | some last =>
    rw [hl] at h
    dsimp only at h ⊢
    cases hs : Successor.successors last.observation (s.statementsFor e) atomLimit with
    | error err => simp [hs] at h
    | ok os =>
      rw [hs] at h
      have hgrows : Grows (s.statementsFor e) atomLimit p := by
        intro last' hl'
        rw [hl] at hl'
        exact ⟨os, Option.some.inj hl' ▸ hs⟩
      cases os with
      | nil =>
        have hquiet : ¬ s.Extends e p := by
          intro hp
          obtain ⟨last', hl', r, hr, ht⟩ := hp
          obtain rfl : last = last' := Option.some.inj (hl.symm.trans hl')
          exact (Successor.successors_eq_nil hs).mp rfl r hr ht
        exact ⟨hgrows, fun hp => absurd hp hquiet, h⟩
      | cons o os =>
        dsimp only at h
        split at h
        case isTrue => cases h
        case isFalse hle => exact ⟨hgrows, fun _ => Nat.le_of_not_gt hle, h⟩

theorem fireAll_eq_ok {done : List History}
    (h : fireAll e (s.statementsFor e) next atomLimit modelLimit done ps = .ok qs) :
    qs = done ++ ps.flatMap (grown e (s.statementsFor e) next atomLimit) ∧
    ∀ p ∈ ps, Grows (s.statementsFor e) atomLimit p := by
  induction ps generalizing done with
  | nil => simpa [fireAll, eq_comm] using h
  | cons p ps ih =>
    obtain ⟨hp, _, h⟩ := fireAll_cons_eq_ok h
    obtain ⟨hq, hps⟩ := ih h
    exact ⟨by rw [hq, List.flatMap_cons, List.append_assoc], List.forall_mem_cons.mpr ⟨hp, hps⟩⟩

theorem grown_ne_nil {p : History} (hp : p ≠ []) {statements : List Statement}
    (h : Grows statements atomLimit p) : grown e statements next atomLimit p ≠ [] := by
  have hl := List.getLast?_eq_some_getLast hp
  obtain ⟨os, hs⟩ := h _ hl
  cases os with
  | nil => simp [grown, hl, hs]
  | cons o os => simp [grown, hl, hs]

theorem fire_eq_ok (h : fire s atomLimit modelLimit t e ps = .ok qs) :
    qs = ps.flatMap (grown e (s.statementsFor e) (t + 1) atomLimit) ∧
    ∀ p ∈ ps, Grows (s.statementsFor e) atomLimit p := by
  rw [fire, Time.next?] at h
  by_cases ht : t < Time.last
  · rw [if_pos ht] at h
    simpa using fireAll_eq_ok h
  · simp [ht] at h

theorem mem_grown {p : History} (h : Grows (s.statementsFor e) atomLimit p) (q : History) :
    q ∈ grown e (s.statementsFor e) next atomLimit p ↔
      ∃ last, p.getLast? = some last ∧
        (¬ s.Triggers e last.observation ∧ q = p ∨
          s.Triggers e last.observation ∧ ∃ o, Outcome (s.statementsFor e) last.observation o ∧
            q = p ++ [⟨next, o, some e⟩]) := by
  rw [grown]
  cases hl : p.getLast? with
  | none => simp
  | some last =>
    obtain ⟨os, hs⟩ := h last hl
    have hnil : os = [] ↔ ¬ s.Triggers e last.observation := by
      rw [Successor.successors_eq_nil hs, Scenario.Triggers]
      simp
    dsimp only
    rw [hs]
    cases os with
    | nil => simp [hnil.mp rfl]
    | cons o os =>
      have ht : s.Triggers e last.observation := by
        by_contra hn
        simpa using hnil.mpr hn
      have hm := Successor.mem_successors hs ht
      simp only [Option.some.injEq, exists_eq_left', ht, not_true_eq_false, false_and, false_or,
        true_and, List.mem_map, hm]
      simp only [eq_comm]

theorem grown_nodup (e : Event) (statements : List Statement) (next : Time) (atomLimit : Nat)
    (p : History) : (grown e statements next atomLimit p).Nodup := by
  rw [grown]
  cases p.getLast? with
  | none => exact List.nodup_nil
  | some last =>
    dsimp only
    cases hs : Successor.successors last.observation statements atomLimit with
    | error err => exact List.nodup_nil
    | ok os =>
      have hn := Successor.successors_nodup hs
      cases os with
      | nil => exact List.nodup_singleton p
      | cons o os =>
        apply hn.map
        intro o o' he
        simpa using he

/-- Histories that were different stay so: none that ends at a time is the continuation of another
beyond it. -/
theorem fire_nodup (hup : UpTo t ps) (hn : ps.Nodup)
    (h : fire s atomLimit modelLimit t e ps = .ok qs) : qs.Nodup := by
  obtain ⟨rfl, hg⟩ := fire_eq_ok h
  have hlong (p p' : History) (hp : p ∈ ps) (o : Valuation) : p ≠ p' ++ [⟨t + 1, o, some e⟩] := by
    intro he
    have hle := (hup p hp).2 ⟨t + 1, o, some e⟩ (by simp [he])
    exact absurd hle (not_le_of_gt (Int.lt_succ t))
  rw [List.nodup_flatMap]
  refine ⟨fun p _ => grown_nodup e _ _ _ p, ?_⟩
  apply hn.imp_of_mem
  intro p p' hp hp' hne
  apply List.disjoint_left.mpr
  intro q hq hq'
  obtain ⟨_, _, hq⟩ := (mem_grown (hg p hp) q).mp hq
  obtain ⟨_, _, hq'⟩ := (mem_grown (hg p' hp') q).mp hq'
  rcases hq with ⟨_, rfl⟩ | ⟨_, o, _, rfl⟩
  · rcases hq' with ⟨_, rfl⟩ | ⟨_, o', _, he⟩
    · exact hne rfl
    · exact hlong q p' hp o' he
  · rcases hq' with ⟨_, he⟩ | ⟨_, o', _, he⟩
    · exact hlong p' p hp' o he.symm
    · exact hne (List.append_inj_left' he rfl)

end Fire

section Run

variable {s : Scenario} {atomLimit modelLimit : Nat} {t : Time} {m : Moment} {ps qs : List History}

/-- The histories whose last observations the moment admits. -/
structure Admitted (m : Moment) (ps qs : List History) : Prop where
  sublist : qs.Sublist ps
  mem_iff : ∀ p, p ∈ qs ↔ p ∈ ps ∧ ∃ last, p.getLast? = some last ∧ m.Admits last.observation

theorem accept_eq_ok (hup : UpTo t ps) (h : accept atomLimit t m ps = .ok qs) :
    Admitted m ps qs ∧ (ps ≠ [] → qs ≠ []) := by
  rw [accept] at h
  cases hF : m.constraint with
  | none =>
    rw [hF] at h
    obtain rfl : ps = qs := Except.ok.inj h
    refine ⟨⟨.refl ps, fun p => ⟨fun hp => ⟨hp, ?_⟩, And.left⟩⟩, id⟩
    exact ⟨p.getLast (hup p hp).1, List.getLast?_eq_some_getLast _, by simp [Moment.Admits, hF]⟩
  | some F =>
    rw [hF] at h
    obtain ⟨hs, hne, hm⟩ := constrain_eq_ok h
    exact ⟨⟨hs, by simpa [Moment.Admits, hF] using hm⟩, fun _ => hne⟩

/-- All that one step can do when it succeeds. -/
theorem step_eq_ok (hup : UpTo t ps) (h : step s atomLimit modelLimit ps (t, m) = .ok qs) :
    ∃ rs, Admitted m ps rs ∧ (ps ≠ [] → rs ≠ []) ∧ (m.event = none ∧ qs = rs ∨
      ∃ e, m.event = some e ∧ fire s atomLimit modelLimit t e rs = .ok qs) := by
  rw [step_eq] at h
  obtain ⟨rs, hr, h⟩ := (Result.bind_eq_ok _ _ _).mp h
  obtain ⟨hadm, hne⟩ := accept_eq_ok hup hr
  refine ⟨rs, hadm, hne, ?_⟩
  rw [follow] at h
  cases he : m.event with
  | none =>
    rw [he] at h
    exact .inl ⟨rfl, (Except.ok.inj h).symm⟩
  | some e =>
    rw [he] at h
    exact .inr ⟨e, rfl, h⟩

/-- A step leads to exactly what the moment lets the histories become. -/
theorem mem_step (hup : UpTo t ps) (h : step s atomLimit modelLimit ps (t, m) = .ok qs)
    (q : History) : q ∈ qs ↔ ∃ p ∈ ps, s.Next t m p q := by
  obtain ⟨rs, hr, _, hq⟩ := step_eq_ok hup h
  rcases hq with ⟨he, rfl⟩ | ⟨e, he, hf⟩
  · rw [hr.mem_iff]
    constructor
    · intro hq
      obtain ⟨hp, last, hl, ha⟩ := hq
      exact ⟨q, hp, .rests last hl ha (by simp [he])⟩
    · intro hq
      obtain ⟨p, hp, hnext⟩ := hq
      cases hnext with
      | rests last hl ha _ => exact ⟨hp, last, hl, ha⟩
      | fires last hl ha e he' => simp [he] at he'
  · obtain ⟨rfl, hg⟩ := fire_eq_ok hf
    rw [List.mem_flatMap]
    constructor
    · intro hq
      obtain ⟨p, hp, hq⟩ := hq
      obtain ⟨hin, last, hl, ha⟩ := (hr.mem_iff p).mp hp
      obtain ⟨last', hl', hq⟩ := (mem_grown (hg p hp) q).mp hq
      obtain rfl : last = last' := Option.some.inj (hl.symm.trans hl')
      refine ⟨p, hin, ?_⟩
      rcases hq with ⟨hn, rfl⟩ | ⟨ht, o, ho, rfl⟩
      · refine .rests last hl ha ?_
        intro e' he'
        rw [he] at he'
        exact Option.some.inj he' ▸ hn
      · exact .fires last hl ha e he ht o ho
    · intro hq
      obtain ⟨p, hp, hnext⟩ := hq
      cases hnext with
      | rests last hl ha quiet =>
        have hin := (hr.mem_iff q).mpr ⟨hp, last, hl, ha⟩
        exact ⟨q, hin, (mem_grown (hg q hin) q).mpr ⟨last, hl, .inl ⟨quiet e he, rfl⟩⟩⟩
      | fires last hl ha e' he' ht o ho =>
        obtain rfl : e = e' := Option.some.inj (he.symm.trans he')
        have hin := (hr.mem_iff p).mpr ⟨hp, last, hl, ha⟩
        exact ⟨p, hin, (mem_grown (hg p hin) _).mpr ⟨last, hl, .inr ⟨ht, o, ho, rfl⟩⟩⟩

theorem upTo_step (hup : UpTo t ps) (h : step s atomLimit modelLimit ps (t, m) = .ok qs) :
    UpTo (t + 1) qs := by
  intro q hq
  obtain ⟨p, hp, hnext⟩ := (mem_step hup h q).mp hq
  exact hnext.endsBy (hup p hp)

theorem step_nodup (hup : UpTo t ps) (hn : ps.Nodup)
    (h : step s atomLimit modelLimit ps (t, m) = .ok qs) : qs.Nodup := by
  obtain ⟨rs, hr, _, hq⟩ := step_eq_ok hup h
  have hrn := hn.sublist hr.sublist
  rcases hq with ⟨_, rfl⟩ | ⟨e, _, hf⟩
  · exact hrn
  · exact fire_nodup (hup.subset hr.sublist.subset) hrn hf

theorem step_ne_nil (hup : UpTo t ps) (hne : ps ≠ [])
    (h : step s atomLimit modelLimit ps (t, m) = .ok qs) : qs ≠ [] := by
  obtain ⟨rs, hr, hrne, hq⟩ := step_eq_ok hup h
  rcases hq with ⟨_, rfl⟩ | ⟨e, _, hf⟩
  · exact hrne hne
  · obtain ⟨rfl, hg⟩ := fire_eq_ok hf
    obtain ⟨p, hp⟩ := List.exists_mem_of_ne_nil rs (hrne hne)
    intro hnil
    have hpne := (hup p (hr.sublist.subset hp)).1
    exact grown_ne_nil hpne (hg p hp) (List.flatMap_eq_nil_iff.mp hnil p hp)

/-- Reading moments in order of time, from histories that end before any of them. -/
theorem foldlM_step {ms : List (Time × Moment)} (hord : (ms.map Prod.fst).Pairwise (· < ·))
    (hup : ∀ m ∈ ms, UpTo m.1 ps) (hn : ps.Nodup)
    (h : ms.foldlM (step s atomLimit modelLimit) ps = .ok qs) :
    qs.Nodup ∧ (ps ≠ [] → qs ≠ []) ∧ ∀ q, q ∈ qs ↔ ∃ p ∈ ps, s.Reads ms p q := by
  induction ms generalizing ps with
  | nil =>
    obtain rfl : ps = qs := Except.ok.inj h
    refine ⟨hn, id, fun q => ⟨fun hq => ⟨q, hq, .done q⟩, ?_⟩⟩
    intro hq
    obtain ⟨p, hp, hr⟩ := hq
    cases hr with
    | done => exact hp
  | cons m ms ih =>
    obtain ⟨t, m⟩ := m
    have ht : UpTo t ps := hup (t, m) (by simp)
    rw [List.foldlM_cons] at h
    obtain ⟨rs, hr, h⟩ := (Result.bind_eq_ok _ _ _).mp h
    -- What the first moment adds lies one unit after it, so not after any later moment.
    have hup' : ∀ m' ∈ ms, UpTo m'.1 rs := fun m' hm' p hp =>
      (upTo_step ht hr p hp).before_rest hord m' hm'
    obtain ⟨hqn, hne, hq⟩ := ih hord.of_cons hup' (step_nodup ht hn hr) h
    refine ⟨hqn, fun hps => hne (step_ne_nil ht hps hr), ?_⟩
    intro q
    simp only [hq, mem_step ht hr]
    constructor
    · intro hq
      obtain ⟨p', ⟨p, hp, hnext⟩, hread⟩ := hq
      exact ⟨p, hp, .read hnext hread⟩
    · intro hq
      obtain ⟨p, hp, hread⟩ := hq
      cases hread with
      | read hnext hread => exact ⟨_, ⟨p, hp, hnext⟩, hread⟩

theorem seed_nodup {os : List Valuation} (h : s.initialCandidates atomLimit modelLimit = .ok os) :
    (seed t os).Nodup := by
  apply (Scenario.initialCandidates_nodup h).map
  intro o o' he
  simpa using he

/-- A run is seeded with one history for each observation that a history may begin with. -/
theorem mem_seed {os : List Valuation}
    (h : s.initialCandidates atomLimit modelLimit = .ok os) (p : History) :
    p ∈ seed s.startTime os ↔ ∃ o, s.Initial o ∧ [⟨s.startTime, o, none⟩] = p := by
  simp only [seed, List.mem_map, Scenario.mem_initialCandidates h, ← Scenario.initial_iff]

theorem upTo_seed (s : Scenario) (horizon : Time) (os : List Valuation) :
    ∀ m ∈ s.momentsUntil horizon, UpTo m.1 (seed s.startTime os) := by
  intro m hm p hp
  obtain ⟨o, _, rfl⟩ := List.mem_map.mp hp
  exact EndsBy.start o (s.startTime_le (List.takeWhile_subset _ hm))

theorem run_eq_ok {limits : Limits} {horizon : Time} (h : run s limits horizon = .ok qs) :
    qs.Nodup ∧ qs ≠ [] ∧ ∀ q, q ∈ qs ↔ s.Legal horizon q := by
  obtain ⟨os, ho, h⟩ := (Result.bind_eq_ok _ _ _).mp h
  have hfold : os ≠ [] ∧ (s.momentsUntil horizon).foldlM
      (step s limits.atoms.value limits.models.value) (seed s.startTime os) = .ok qs := by
    cases os with
    | nil => simp [bind, Except.bind, throw, throwThe, MonadExceptOf.throw] at h
    | cons o os => exact ⟨by simp, h⟩
  obtain ⟨hos, hfold⟩ := hfold
  obtain ⟨hn, hne, hq⟩ := foldlM_step (s.momentsUntil_ordered horizon) (upTo_seed s horizon os)
    (seed_nodup ho) hfold
  refine ⟨hn, hne (by simpa [seed] using hos), ?_⟩
  intro q
  rw [hq, Scenario.Legal, s.momentsUntil_eq]
  simp only [mem_seed ho]
  constructor
  · intro hq
    obtain ⟨p, ⟨o, hi, rfl⟩, hread⟩ := hq
    exact ⟨o, hi, hread⟩
  · intro hq
    obtain ⟨o, hi, hread⟩ := hq
    exact ⟨_, ⟨o, hi, rfl⟩, hread⟩

end Run

end Histories

namespace Scenario

variable {s : Scenario} {limits : Limits} {horizon : Time} {r : Run}

theorem histories_eq_ok (h : s.run limits horizon = .ok r) :
    Histories.run s limits horizon = .ok r.histories := by
  rw [← s.run_histories, h]
  rfl

/-- All that a run can do when it succeeds. -/
theorem run_eq_ok (h : s.run limits horizon = .ok r) :
    ∃ os x, os ≠ [] ∧ s.initialCandidates limits.atoms.value limits.models.value = .ok os ∧
      (s.momentsUntil horizon).foldlM (Search.step s limits.atoms.value limits.models.value)
        (Search.seed s.startTime os) = .ok x ∧
      r = ⟨x.forest, x.leaves, horizon, limits.atoms.value⟩ := by
  obtain ⟨os, ho, h⟩ := (Result.bind_eq_ok _ _ _).mp h
  cases os with
  | nil => simp [bind, Except.bind, throw, throwThe, MonadExceptOf.throw] at h
  | cons o os =>
    obtain ⟨x, hx, hr⟩ := (Result.bind_eq_ok _ _ _).mp h
    exact ⟨o :: os, x, by simp, ho, hx, (Except.ok.inj hr).symm⟩

/-- With some initial observation a run is what reading the moments makes of the seeds. -/
theorem run_eq {os : List Valuation} (hne : os ≠ [])
    (ho : s.initialCandidates limits.atoms.value limits.models.value = .ok os) (horizon : Time) :
    s.run limits horizon =
      ((s.momentsUntil horizon).foldlM (Search.step s limits.atoms.value limits.models.value)
        (Search.seed s.startTime os)).map fun x =>
          ⟨x.forest, x.leaves, horizon, limits.atoms.value⟩ := by
  cases os with
  | nil => exact absurd rfl hne
  | cons o os =>
    rw [run, ho]
    simp only [bind, Except.bind]
    cases (s.momentsUntil horizon).foldlM (Search.step s limits.atoms.value limits.models.value)
      (Search.seed s.startTime (o :: os)) <;> rfl

theorem mem_histories (h : s.run limits horizon = .ok r) (p : History) :
    p ∈ r.histories ↔ s.Legal horizon p :=
  (Histories.run_eq_ok (histories_eq_ok h)).2.2 p

theorem histories_nodup (h : s.run limits horizon = .ok r) : r.histories.Nodup :=
  (Histories.run_eq_ok (histories_eq_ok h)).1

theorem run_ne_nil (h : s.run limits horizon = .ok r) : r.histories ≠ [] :=
  (Histories.run_eq_ok (histories_eq_ok h)).2.1

theorem run_orderly (h : s.run limits horizon = .ok r) : ∀ p ∈ r.histories, s.Orderly p := by
  intro p hp
  exact ((mem_histories h p).mp hp).orderly

/-- The histories that a run ends with are the legal ones up to the horizon, each found once. -/
theorem run_finds_legal (h : s.run limits horizon = .ok r) :
    r.histories.Nodup ∧ ∀ p, p ∈ r.histories ↔ s.Legal horizon p := by
  obtain ⟨hn, _, hm⟩ := Histories.run_eq_ok (histories_eq_ok h)
  exact ⟨hn, hm⟩

end Scenario

/-- A coin shows heads, is tossed at time 0, and may then show either side. -/
def coin : Scenario where
  fluents := .ofList [⟨"heads"⟩]
  timeline := (∅ : Timeline).insert 0 ⟨some ⟨⟨"toss"⟩, none⟩, some (.atom ⟨"heads"⟩)⟩
  statements := [⟨⟨⟨"toss"⟩, none⟩, .top, .releases ⟨"heads"⟩⟩]

theorem coin_run : ∃ r, coin.run .standard 1 = .ok r ∧ r.modelCount = 2 :=
  Result.ok_of_toOption_map (by decide +kernel)

theorem coin_finds_legal : ∃ r, coin.run .standard 1 = .ok r ∧ r.modelCount = 2 ∧
    r.histories.Nodup ∧ ∀ p, p ∈ r.histories ↔ coin.Legal 1 p := by
  obtain ⟨r, hr, hc⟩ := coin_run
  exact ⟨r, hr, hc, Scenario.run_finds_legal hr⟩

end Chronicle
