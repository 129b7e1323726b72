import Chronicle.Proofs.Beyond
import Chronicle.Proofs.Constraint
import Chronicle.Proofs.Horizon
import Chronicle.Proofs.ModelLimit
import Mathlib.Algebra.Order.BigOperators.Group.List
import Mathlib.Algebra.Order.Group.Nat

/-!
When a run finds a scenario unrealizable. No other failure is taken for that one, and it is
reported for the first moment that no legal history survives.
-/

namespace Chronicle

/-- The failure says that no history is left. -/
def LogicError.Unrealizable (e : LogicError) : Prop := ∃ t, e = .unrealizable t

/-- The failure is one of logic that says that no history is left. -/
def Error.Unrealizable (e : Error) : Prop := ∃ t, e = .logic (.unrealizable t)

/-- The failure is for want of room. -/
def Error.IsOverflow (e : Error) : Prop := e = .capacityOverflow

/-- The failure is one of a whole run: no history is left, or there is no room to begin with. -/
def Error.OfRun (e : Error) : Prop := e.Unrealizable ∨ e.IsOverflow

section Elsewhere

open Result

theorem Error.not_ofRun_limit (e : LimitError) : ¬ (limit e).OfRun := by
  simp [OfRun, Unrealizable, IsOverflow]

theorem Error.ofRun_logic (e : LogicError) : (logic e).OfRun ↔ e.Unrealizable := by
  simp [OfRun, Unrealizable, IsOverflow, LogicError.Unrealizable]

theorem avoids_logic {α : Type} {x : Except LogicError α}
    (h : Avoids LogicError.Unrealizable x) : Avoids Error.OfRun (x.mapError .logic) :=
  .mapError Error.logic fun e he => h e ((Error.ofRun_logic e).mp he)

namespace Valuation

theorem includes_avoids (v : Valuation) (ps : List (Fluent × Bool)) :
    Avoids LogicError.Unrealizable (v.includes ps) := by
  induction ps with
  | nil => exact .ok true
  | cons p ps ih =>
    obtain ⟨f, b⟩ := p
    have hget : Avoids LogicError.Unrealizable (v.get f) := by
      rw [get]
      cases v.get? f with
      | none => exact .error (by simp [LogicError.Unrealizable])
      | some c => exact .ok c
    rw [includes]
    refine hget.bind fun c => ?_
    split
    · exact ih
    · exact .ok false

theorem compatible_avoids (v : Valuation) (ws : List Valuation) :
    Avoids LogicError.Unrealizable (v.compatible ws) := by
  induction ws with
  | nil => exact .ok false
  | cons w ws ih =>
    rw [compatible]
    refine (v.includes_avoids w.entries).bind fun b => ?_
    split
    · exact .ok true
    · exact ih

theorem eval_avoids (v : Valuation) (F : Formula) : Avoids LogicError.Unrealizable (v.eval F) :=
  .mapError LogicError.lookup (by simp [Avoids, LogicError.Unrealizable])

theorem merge_avoids (v : Valuation) (ps : List (Fluent × Bool)) :
    Avoids LogicError.Unrealizable (v.merge ps) := by
  intro e he h
  obtain ⟨t, rfl⟩ := he
  obtain ⟨before, p, after, _, _, hfault⟩ := merge_eq_error.mp h
  cases hfault

end Valuation

theorem Formula.models_avoids (F : Formula) (atomLimit : Nat) :
    Avoids Error.OfRun (F.models atomLimit) := by
  intro err herr hfail
  obtain ⟨_, rfl⟩ := (F.models_eq_error atomLimit err).mp hfail
  exact Error.not_ofRun_limit _ herr

namespace Successor

theorem triggered_avoids (o : Valuation) (rules : List Statement) :
    Avoids LogicError.Unrealizable (triggered o rules) := by
  induction rules with
  | nil => exact .ok []
  | cons r rules ih =>
    rw [triggered]
    exact (o.eval_avoids r.condition).bind fun _ => ih.bind fun _ => .ok _

theorem branch_avoids (fixed : FluentSet) (limit : Nat) (branched released : List Fluent)
    (cs : List Valuation) :
    Avoids Error.OfRun (branch fixed limit branched released cs) := by
  induction released generalizing branched cs with
  | nil => exact .ok cs
  | cons f released ih =>
    rw [branch]
    split
    · exact .error (by simp [Error.ofRun_logic, LogicError.Unrealizable])
    · split
      · exact ih _ _
      · split
        · exact .error (Error.not_ofRun_limit _)
        · exact ih _ _

theorem successors_avoids (o : Valuation) (rules : List Statement) (atomLimit : Nat) :
    Avoids Error.OfRun (successors o rules atomLimit) := by
  rw [successors]
  refine (avoids_logic (triggered_avoids o rules)).bind fun fired => ?_
  split
  · exact .ok []
  · refine (Formula.models_avoids _ atomLimit).bind fun cs => ?_
    split
    · exact .error (by simp [Error.ofRun_logic, LogicError.Unrealizable])
    · refine (branch_avoids _ _ _ _ cs).bind fun cs => ?_
      exact avoids_logic (.mapM (fun c => o.merge_avoids c.entries) cs)

end Successor

theorem Scenario.initialCandidates_avoids (s : Scenario) (atomLimit modelLimit : Nat) :
    Avoids Error.Unrealizable (s.initialCandidates atomLimit modelLimit) := by
  rintro _ ⟨t, rfl⟩ h
  rcases initialCandidates_eq_error h with ⟨_, he⟩ | ⟨_, he⟩ | he
  · cases he
  · cases he
  · cases he

theorem Histories.sift_avoids (worlds : List Valuation) (ps : List History) :
    Avoids LogicError.Unrealizable (sift worlds ps) := by
  induction ps with
  | nil => exact .ok []
  | cons p ps ih =>
    rw [sift]
    cases p.getLast? with
    | none => exact ih
    | some e =>
      have hcompat := e.observation.compatible_avoids worlds
      dsimp only
      cases hc : e.observation.compatible worlds with
      | error err => exact .error fun he => hcompat err he hc
      | ok b =>
        cases b with
        | true => exact ih.map _
        | false => exact ih

namespace Search

theorem fireAll_avoids (e : Event) (rules : List Statement) (next : Time)
    (atomLimit modelLimit : Nat) (x : Search) (ks : List NodeId) :
    Avoids Error.OfRun (fireAll e rules next atomLimit modelLimit x ks) := by
  induction ks generalizing x with
  | nil => exact .ok x
  | cons k ks ih =>
    rw [fireAll]
    cases x.forest.latest k with
    | none => exact ih _
    | some last =>
      have hnext := Successor.successors_avoids last.observation rules atomLimit
      dsimp only
      cases hs : Successor.successors last.observation rules atomLimit with
      | error err => exact .error fun he => hnext err he hs
      | ok os =>
        cases os with
        | nil => exact ih _
        | cons o os =>
          dsimp only
          split
          · exact .error (Error.not_ofRun_limit _)
          · exact ih _

theorem follow_avoids (s : Scenario) (atomLimit modelLimit : Nat) (t : Time) (m : Moment)
    (x : Search) : Avoids Error.OfRun (x.follow s atomLimit modelLimit t m) := by
  rw [follow]
  cases m.event with
  | none => exact .ok x
  | some e =>
    dsimp only
    rw [fire]
    cases Time.next? t with
    | none => exact .error (by simp [Error.ofRun_logic, LogicError.Unrealizable])
    | some next => exact fireAll_avoids e _ next atomLimit modelLimit _ _

end Search

end Elsewhere

/-- A constraint that leaves no history is one that none satisfies. -/
theorem Histories.constrain_unrealizable {atomLimit : Nat} {t : Time} {F : Formula}
    {ps : List History} {e : Error} (h : constrain atomLimit t F ps = .error e)
    (he : e.Unrealizable) : e = .logic (.unrealizable t) ∧ ∀ p ∈ ps,
      ¬ ∃ last, p.getLast? = some last ∧ last.observation.eval F = .ok true := by
  rcases (Result.bind_eq_error _ _ _).mp h with hw | ⟨worlds, hw, h⟩
  · exact absurd hw (F.models_avoids atomLimit e (.inl he))
  rcases (Result.bind_eq_error _ _ _).mp h with hk | ⟨kept, hk, h⟩
  · exact absurd hk (avoids_logic (sift_avoids worlds ps) e (.inl he))
  obtain ⟨_, hm⟩ := sift_eq_ok ((Result.mapError_eq_ok _ _ _).mp hk)
  cases kept with
  | cons => cases h
  | nil =>
    refine ⟨(Except.error.inj h).symm, ?_⟩
    intro p hp hlast
    have hfits : Fits worlds p := by
      simpa only [Fits, Valuation.compatible_models_eq_true hw] using hlast
    exact absurd ((hm p).mpr ⟨hp, hfits⟩) List.not_mem_nil

namespace Search

section Step

variable {s : Scenario} {atomLimit modelLimit : Nat} {t : Time} {m : Moment} {x x' : Search}
  {rest : List (Time × Moment)}

/-- Only the constraint of a moment can leave no history. -/
theorem step_unrealizable {e : Error} (hx : x.Ready)
    (h : x.step s atomLimit modelLimit (t, m) = .error e) (he : e.Unrealizable) :
    e = .logic (.unrealizable t) ∧ ∃ F, m.constraint = some F ∧ ∀ p ∈ x.histories,
      ¬ ∃ last, p.getLast? = some last ∧ last.observation.eval F = .ok true := by
  rw [step_eq] at h
  rcases (Result.bind_eq_error _ _ _).mp h with h | ⟨kept, _, h⟩
  · cases hF : m.constraint with
    | none => simp [accept, hF] at h
    | some F =>
      have hm := (constrain_mirrors atomLimit t F hx).histories
      simp only [accept, hF] at h
      rw [h] at hm
      obtain ⟨htime, hnone⟩ := Histories.constrain_unrealizable hm.symm he
      exact ⟨htime, F, rfl, hnone⟩
  · exact absurd h (follow_avoids s atomLimit modelLimit t m kept e (.inl he))

theorem Sound.accept (hx : x.Sound ((t, m) :: rest)) (h : x.accept atomLimit t m = .ok x') :
    x'.Ready ∧ Histories.UpTo t x'.histories := by
  have hm := accept_mirrors atomLimit t m hx.ready
  rw [h] at hm
  obtain ⟨hready, haccept⟩ := hm.of_ok
  have hup : Histories.UpTo t x.histories := hx.upTo (t, m) (by simp)
  exact ⟨hready, hup.subset (Histories.accept_eq_ok hup haccept).1.sublist.subset⟩

/-- An event makes at least one history of each. -/
theorem size_fire_le {e : Event} (hx : x.Ready) (hup : Histories.UpTo t x.histories)
    (h : x.fire s atomLimit modelLimit t e = .ok x') : x.leaves.size ≤ x'.leaves.size := by
  have hm := fire_mirrors s atomLimit modelLimit t e hx
  rw [h] at hm
  obtain ⟨hq, hg⟩ := Histories.fire_eq_ok hm.of_ok.2
  have hone : ∀ p ∈ x.histories,
      1 ≤ (Histories.grown e (s.statementsFor e) (t + 1) atomLimit p).length := fun p hp =>
    List.length_pos_of_ne_nil (Histories.grown_ne_nil (hup p hp).1 (hg p hp))
  rw [← length_histories, ← length_histories, hq, List.length_flatMap]
  calc x.histories.length = (x.histories.map fun _ => 1).sum := by simp
    _ ≤ _ := List.sum_le_sum hone

theorem size_follow_le (hx : x.Ready) (hup : Histories.UpTo t x.histories)
    (h : x.follow s atomLimit modelLimit t m = .ok x') : x.leaves.size ≤ x'.leaves.size := by
  rw [follow] at h
  cases he : m.event with
  | none =>
    rw [he] at h
    rw [Except.ok.inj h]
  | some e =>
    rw [he] at h
    exact size_fire_le hx hup h

end Step

section Seed

variable {s : Scenario} {atomLimit modelLimit : Nat} {t : Time} {m : Moment} {x : Search}

theorem sift_all {worlds : List Valuation} {forest : Forest} {ks : List NodeId}
    (h : ∀ k ∈ ks, ∃ e, forest.latest k = some e ∧ e.observation.compatible worlds = .ok true)
    (kept : Array NodeId) :
    sift worlds forest kept ks = .ok ⟨forest, (kept.toList ++ ks).toArray⟩ := by
  induction ks generalizing kept with
  | nil => simp [sift]
  | cons k ks ih =>
    obtain ⟨⟨e, he, hc⟩, hks⟩ := List.forall_mem_cons.mp h
    simp [sift, he, hc, ih hks]

/-- A constraint that all histories satisfy changes nothing. -/
theorem constrain_all {F : Formula} {worlds : List Valuation}
    (hw : F.models atomLimit = .ok worlds) (hne : x.histories ≠ [])
    (hall : ∀ p ∈ x.histories,
      ∃ last, p.getLast? = some last ∧ last.observation.eval F = .ok true) :
    x.constrain atomLimit t F = .ok x := by
  have hleaves : ∀ k ∈ x.leaves.toList,
      ∃ e, x.forest.latest k = some e ∧ e.observation.compatible worlds = .ok true := by
    intro k hk
    obtain ⟨e, he, htrue⟩ := hall _ (List.mem_map.mpr ⟨k, hk, rfl⟩)
    exact ⟨e, (x.forest.latest_eq k).trans he,
      (Valuation.compatible_models_eq_true hw e.observation).mpr htrue⟩
  have hsome : x.leaves.isEmpty = false := by simpa [histories] using hne
  rw [constrain, hw]
  simp [bind, Except.bind, pure, Except.pure, sift_all hleaves, Except.mapError, hsome]

/-- What a run is seeded with needs no second look at the start. -/
theorem accept_seed {os : List Valuation} (hne : os ≠ [])
    (ho : s.initialCandidates atomLimit modelLimit = .ok os)
    (hm : s.timeline.get? s.startTime = some m) :
    (seed s.startTime os).accept atomLimit s.startTime m = .ok (seed s.startTime os) := by
  rw [accept]
  cases hF : m.constraint with
  | none => rfl
  | some F =>
    have hstart : s.startConstraint = F := by
      rw [Scenario.startConstraint, Scenario.constraintAt, hm, Option.bind_some, hF]
      rfl
    obtain ⟨worlds, hw, _⟩ := Scenario.initialCandidates_eq_ok ho
    have hseed := (seed_histories s.startTime os).2
    apply constrain_all (hstart ▸ hw)
    · simpa [hseed, Histories.seed] using hne
    · rw [hseed]
      intro p hp
      obtain ⟨o, hmem, rfl⟩ := List.mem_map.mp hp
      exact ⟨_, rfl, hstart ▸ ((Scenario.mem_initialCandidates ho o).mp hmem).2⟩

end Seed

end Search

namespace Scenario

/-- A history that is legal up to before a time, and that satisfies what is given of the world
then. -/
structure Survives (s : Scenario) (t : Time) (p : History) : Prop where
  legal : s.Legal (t - 1) p
  constraint : ∀ F, s.constraintAt t = some F → TrueAt F t p

/-- No history survives a time, and that time is the first of its kind. -/
structure Unrealizable (s : Scenario) (horizon t : Time) : Prop where
  time : t = s.startTime ∨ t ≤ horizon ∧ ∃ F, s.constraintAt t = some F
  none : ∀ p, ¬ s.Survives t p
  earlier : ∀ t' ∈ s.timeline, t' < t → ∃ p, s.Survives t' p

section Unrealizable

variable {s : Scenario} {limits : Limits} {horizon t : Time} {m : Moment} {x : Search}
  {rest : List (Time × Moment)} {p : History}

theorem Legal.survives (h : s.Legal horizon p) (ht : t ≤ horizon) :
    s.Survives t (p.cut (t - 1)) := by
  have hle : t - 1 ≤ horizon := le_trans (Int.sub_le_self t Int.one_nonneg) ht
  obtain ⟨hcut, later, he, hlater⟩ := h.cut hle
  refine ⟨hcut, ?_⟩
  intro F hF
  have htrue := h.trueAt hF ht
  rw [he] at htrue
  refine (trueAt_append F _ ?_).mp htrue
  intro y hy
  simpa using hlater y hy

theorem reads_singleton (s : Scenario) (t : Time) (m : Moment) (p q : History) :
    s.Reads [(t, m)] p q ↔ s.Next t m p q := by
  constructor
  · intro h
    cases h with
    | read first rest =>
      cases rest with
      | done => exact first
  · intro h
    exact .read h (.done q)

/-- A search that a run passes through holds what comes of the moments read so far. -/
theorem Passes.reads (h : s.Passes limits horizon x rest) :
    ∃ before, s.momentsUntil horizon = before ++ rest ∧ x.histories ≠ [] ∧
      ∀ p, p ∈ x.histories ↔
        ∃ o, s.Initial o ∧ s.Reads before [⟨s.startTime, o, none⟩] p := by
  induction h with
  | @seeded os hne seeds =>
    have hseed := (Search.seed_histories s.startTime os).2
    refine ⟨[], rfl, by simpa [hseed, Histories.seed] using hne, ?_⟩
    intro p
    rw [hseed, Histories.mem_seed seeds]
    constructor
    · intro hp
      obtain ⟨o, hi, rfl⟩ := hp
      exact ⟨o, hi, .done _⟩
    · intro hp
      obtain ⟨o, hi, hread⟩ := hp
      cases hread with
      | done => exact ⟨o, hi, rfl⟩
  | @read x x' m rest passes step ih =>
    obtain ⟨t, m⟩ := m
    obtain ⟨before, hsplit, hne, hx⟩ := ih
    have hsound := passes.sound
    have hup := hsound.upTo (t, m) (by simp)
    have hstep := (hsound.step_histories step).2
    refine ⟨before ++ [(t, m)], by simp [hsplit], Histories.step_ne_nil hup hne hstep, ?_⟩
    intro q
    simp only [Histories.mem_step hup hstep, hx, reads_append, reads_singleton]
    constructor
    · intro hq
      obtain ⟨p, ⟨o, hi, hread⟩, hnext⟩ := hq
      exact ⟨o, hi, p, hread, hnext⟩
    · intro hq
      obtain ⟨o, hi, p, hread, hnext⟩ := hq
      exact ⟨p, ⟨o, hi, hread⟩, hnext⟩

theorem momentsUntil_filter (s : Scenario) {t horizon : Time} (hle : t ≤ horizon) :
    (s.momentsUntil horizon).filter (·.1 ≤ t) = s.momentsUntil t := by
  rw [momentsUntil_eq, momentsUntil_eq, List.filter_filter]
  apply List.filter_congr
  intro m _
  have himp : m.1 ≤ t → m.1 ≤ horizon := fun h => le_trans h hle
  simpa using himp

/-- The moments before one of those up to a horizon are the ones up to the time before it. -/
theorem momentsUntil_of_split (s : Scenario) {before : List (Time × Moment)} (ht : t ≤ horizon)
    (h : s.momentsUntil horizon = before ++ (t, m) :: rest) : s.momentsUntil (t - 1) = before := by
  have hord := s.momentsUntil_ordered horizon
  rw [h, List.map_append, List.map_cons, List.pairwise_append, List.pairwise_cons] at hord
  obtain ⟨_, ⟨hrest, _⟩, hbefore⟩ := hord
  have hearlier : ∀ m' ∈ before, m'.1 ≤ t - 1 := fun m' hm' =>
    Int.le_sub_one_of_lt (hbefore m'.1 (List.mem_map.mpr ⟨m', hm', rfl⟩) t List.mem_cons_self)
  have hlater : ∀ m' ∈ (t, m) :: rest, t - 1 < m'.1 := by
    have hself : t - 1 < t := Int.sub_lt_self t Int.one_pos
    refine List.forall_mem_cons.mpr ⟨hself, fun m' hm' => ?_⟩
    exact lt_trans hself (hrest m'.1 (List.mem_map.mpr ⟨m', hm', rfl⟩))
  have hle : t - 1 ≤ horizon := le_trans (Int.sub_le_self t Int.one_nonneg) ht
  rw [← s.momentsUntil_filter hle, h, List.filter_append,
    List.filter_eq_self.mpr (by simpa using hearlier),
    List.filter_eq_nil_iff.mpr (by simpa using hlater), List.append_nil]

/-- When a run comes to a moment it holds the histories that are legal up to before it. -/
theorem Passes.legal (h : s.Passes limits horizon x ((t, m) :: rest)) :
    s.timeline.get? t = some m ∧ t ≤ horizon ∧ x.histories ≠ [] ∧
      ∀ p, p ∈ x.histories ↔ s.Legal (t - 1) p := by
  obtain ⟨before, hsplit, hne, hx⟩ := h.reads
  have hmem : (t, m) ∈ s.momentsUntil horizon := by simp [hsplit]
  rw [momentsUntil_eq, mem_filter_timeline] at hmem
  refine ⟨hmem.1, hmem.2, hne, ?_⟩
  intro p
  rw [hx, Legal, ← momentsUntil_eq, s.momentsUntil_of_split hmem.2 hsplit]

theorem Passes.foldlM_eq_error {ms : List (Time × Moment)} {e : Error}
    (h : s.Passes limits horizon x ms)
    (hfold : ms.foldlM (Search.step s limits.atoms.value limits.models.value) x = .error e) :
    ∃ y m rest, s.Passes limits horizon y (m :: rest) ∧
      y.step s limits.atoms.value limits.models.value m = .error e := by
  induction ms generalizing x with
  | nil => cases hfold
  | cons m ms ih =>
    rw [List.foldlM_cons] at hfold
    rcases (Result.bind_eq_error _ _ _).mp hfold with hstep | ⟨y, hy, hfold⟩
    · exact ⟨x, m, ms, h, hstep⟩
    · exact ih (.read h hy) hfold

/-- A run fails when it is seeded or when a moment is read. -/
theorem run_eq_error {e : Error} (h : s.run limits horizon = .error e) :
    s.initialCandidates limits.atoms.value limits.models.value = .error e ∨
    s.initialCandidates limits.atoms.value limits.models.value = .ok [] ∧
      e = .logic (.unrealizable s.startTime) ∨
    ∃ x m rest, s.Passes limits horizon x (m :: rest) ∧
      x.step s limits.atoms.value limits.models.value m = .error e := by
  rcases (Result.bind_eq_error _ _ _).mp h with ho | ⟨os, ho, hrest⟩
  · exact .inl ho
  · right
    by_cases hne : os = []
    · rw [hne] at ho hrest
      exact .inl ⟨ho, (Except.error.inj hrest).symm⟩
    · right
      rw [run_eq hne ho, Result.map_eq_error] at h
      exact (Passes.seeded hne ho).foldlM_eq_error h

theorem Survives.initialCandidates_ne_nil {os : List Valuation}
    (h : s.Survives s.startTime p)
    (ho : s.initialCandidates limits.atoms.value limits.models.value = .ok os) : os ≠ [] := by
  have hbefore : s.startTime - 1 < s.startTime := Int.sub_lt_self s.startTime Int.one_pos
  have hseed := (Histories.mem_seed ho p).mpr ((legal_before hbefore).mp h.legal)
  obtain ⟨o, ho, _⟩ := List.mem_map.mp hseed
  exact List.ne_nil_of_mem ho

/-- With no observation to begin with, the start is the first time that no history survives. -/
theorem unrealizable_start
    (ho : s.initialCandidates limits.atoms.value limits.models.value = .ok []) (horizon : Time) :
    s.Unrealizable horizon s.startTime := by
  refine ⟨.inl rfl, fun p hp => hp.initialCandidates_ne_nil ho rfl, ?_⟩
  intro t' ht' hlt
  obtain ⟨m, hm⟩ := SortedMap.exists_get? ht'
  exact absurd hlt (not_lt_of_ge (s.startTime_le ((s.timeline.get?_eq_some t' m).mp hm)))

theorem Passes.unrealizable (h : s.Passes limits horizon x ((t, m) :: rest)) {F : Formula}
    (hF : m.constraint = some F) (hnone : ∀ p ∈ x.histories,
      ¬ ∃ last, p.getLast? = some last ∧ last.observation.eval F = .ok true) :
    s.Unrealizable horizon t := by
  obtain ⟨hm, ht, hne, hlegal⟩ := h.legal
  have hat : s.constraintAt t = some F := by rw [constraintAt, hm, Option.bind_some, hF]
  refine ⟨.inr ⟨ht, F, hat⟩, ?_, ?_⟩
  · intro p hp
    obtain ⟨e, he, htrue⟩ := hp.constraint F hat
    have hmem := (hlegal p).mpr hp.legal
    have hends : EndsBy t p := h.sound.upTo (t, m) (by simp) p hmem
    have hlast := List.getLast?_eq_some_getLast hends.1
    have hlatest := isLatest_getLast hp.legal.orderly.increasing hlast
      (hends.2 _ (List.getLast_mem hends.1))
    rw [he.unique hp.legal.orderly.increasing hlatest] at htrue
    exact hnone p hmem ⟨_, hlast, htrue⟩
  · intro t' _ hlt
    obtain ⟨p, hp⟩ := List.exists_mem_of_ne_nil _ hne
    exact ⟨_, ((hlegal p).mp hp).survives (Int.le_sub_one_of_lt hlt)⟩

/-- A run reports for a time that no history is left only if no legal history survives that time,
while some survive each moment before. A run that succeeds has a history left. An event leaves at
least as many as there were, and the constraint at the start cuts off none of the first ones. -/
theorem run_unrealizable (s : Scenario) (limits : Limits) (horizon : Time) :
    (∀ t, s.run limits horizon = .error (.logic (.unrealizable t)) → s.Unrealizable horizon t) ∧
    (∀ r, s.run limits horizon = .ok r → 0 < r.modelCount) ∧
    (∀ x t m rest kept x', s.Passes limits horizon x ((t, m) :: rest) →
      x.accept limits.atoms.value t m = .ok kept →
      kept.follow s limits.atoms.value limits.models.value t m = .ok x' →
      kept.leaves.size ≤ x'.leaves.size) ∧
    (∀ os m, s.initialCandidates limits.atoms.value limits.models.value = .ok os → os ≠ [] →
      s.timeline.get? s.startTime = some m →
      (Search.seed s.startTime os).accept limits.atoms.value s.startTime m =
        .ok (Search.seed s.startTime os)) := by
  refine ⟨?_, ?_, ?_, ?_⟩
  · intro t h
    have hverdict : (Error.logic (.unrealizable t)).Unrealizable := ⟨t, rfl⟩
    rcases run_eq_error h with ho | ⟨ho, he⟩ | ⟨x, ⟨t', m⟩, rest, hpass, hstep⟩
    · exact absurd ho (s.initialCandidates_avoids _ _ _ hverdict)
    · obtain rfl : t = s.startTime := LogicError.unrealizable.inj (Error.logic.inj he)
      exact unrealizable_start ho horizon
    · obtain ⟨he, F, hF, hnone⟩ := Search.step_unrealizable hpass.sound.ready hstep hverdict
      obtain rfl : t = t' := LogicError.unrealizable.inj (Error.logic.inj he)
      exact hpass.unrealizable hF hnone
  · intro r h
    rw [Run.modelCount, ← Array.length_toList]
    exact List.length_pos_of_ne_nil (Run.leaves_ne_nil h)
  · intro x t m rest kept x' hpass haccept hfollow
    obtain ⟨hready, hup⟩ := hpass.sound.accept haccept
    exact Search.size_follow_le hready hup hfollow
  · intro os m ho hne hm
    exact Search.accept_seed hne ho hm

end Unrealizable

end Scenario

/-- A coin that is not tossed, and yet is to show heads at time 0 and tails at time 1. -/
def coinUntossed : Scenario :=
  { coin with
    timeline := ((∅ : Timeline).insert 0 ⟨none, some (.atom ⟨"heads"⟩)⟩).insert 1
      ⟨none, some (.neg (.atom ⟨"heads"⟩))⟩ }

theorem coinUntossed_unrealizable :
    coinUntossed.run .standard 1 = .error (.logic (.unrealizable 1)) ∧
      coinUntossed.Unrealizable 1 1 := by
  have h : coinUntossed.run .standard 1 = .error (.logic (.unrealizable 1)) := rfl
  exact ⟨h, (Scenario.run_unrealizable coinUntossed .standard 1).1 1 h⟩

end Chronicle
