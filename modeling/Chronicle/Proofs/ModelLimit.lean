import Chronicle.Proofs.Search

/-!
The model limit over a whole run. Seeding respects it, and so does an event up to the last history
that it extends. The histories after that one are left as they are without a further check.
-/

namespace Chronicle

namespace Scenario

/-- The searches that a run up to a horizon passes through, each with the moments that are still
to be read. -/
inductive Passes (s : Scenario) (limits : Limits) (horizon : Time) :
    Search → List (Time × Moment) → Prop where
  | seeded {os : List Valuation} (some : os ≠ [])
      (seeds : s.initialCandidates limits.atoms.value limits.models.value = .ok os) :
      Passes s limits horizon (Search.seed s.startTime os) (s.momentsUntil horizon)
  | read {x x' : Search} {m : Time × Moment} {rest : List (Time × Moment)}
      (before : Passes s limits horizon x (m :: rest))
      (step : x.step s limits.atoms.value limits.models.value m = .ok x') :
      Passes s limits horizon x' rest

/-- A moment at which the number of histories goes past the limit unnoticed. It was within the limit
when the event had extended the last history that it extends, but some came after that one. -/
structure Overrun (s : Scenario) (limits : Limits) (horizon : Time) where
  before : Search
  after : Search
  t : Time
  m : Moment
  rest : List (Time × Moment)
  passes : s.Passes limits horizon before ((t, m) :: rest)
  step : before.step s limits.atoms.value limits.models.value (t, m) = .ok after
  e : Event
  event : m.event = some e
  extended : List History
  spared : List History
  admitted : Histories.Admitted m before.histories (extended ++ spared)
  last : ∃ p, extended.getLast? = some p ∧ s.Extends e p
  unextended : ∀ p ∈ spared, ¬ s.Extends e p
  checked : (extended.flatMap
    (Histories.grown e (s.statementsFor e) (t + 1) limits.atoms.value)).length ≤ limits.models.value
  unchecked : limits.models.value < (extended.flatMap
    (Histories.grown e (s.statementsFor e) (t + 1) limits.atoms.value)).length + spared.length

end Scenario

namespace Histories

section Checks

variable {s : Scenario} {e : Event} {next t : Time} {atomLimit modelLimit : Nat}
  {ps qs done : List History}

theorem grown_of_not_extends {p : History} (hne : p ≠ [])
    (hg : Grows (s.statementsFor e) atomLimit p) (h : ¬ s.Extends e p) :
    grown e (s.statementsFor e) next atomLimit p = [p] := by
  have hl := List.getLast?_eq_some_getLast hne
  obtain ⟨os, hs⟩ := hg _ hl
  have hnil : os = [] := by
    rw [Successor.successors_eq_nil hs]
    exact fun r hr ht => h ⟨_, hl, r, hr, ht⟩
  simp [grown, hl, hs, hnil]

theorem flatMap_grown_spared (hup : ∀ p ∈ ps, p ≠ [])
    (hg : ∀ p ∈ ps, Grows (s.statementsFor e) atomLimit p) (h : ∀ p ∈ ps, ¬ s.Extends e p) :
    ps.flatMap (grown e (s.statementsFor e) next atomLimit) = ps := by
  calc ps.flatMap (grown e (s.statementsFor e) next atomLimit)
      = ps.flatMap fun p => [p] :=
        List.flatMap_congr fun p hp => grown_of_not_extends (hup p hp) (hg p hp) (h p hp)
    _ = ps := by simp

/-- The number of histories is within the limit after each that is extended. -/
theorem fireAll_checked {p : History} (hlast : ps.getLast? = some p) (hp : s.Extends e p)
    (rest : List History)
    (h : fireAll e (s.statementsFor e) next atomLimit modelLimit done (ps ++ rest) = .ok qs) :
    (done ++ ps.flatMap (grown e (s.statementsFor e) next atomLimit)).length ≤ modelLimit := by
  induction ps generalizing done with
  | nil => simp at hlast
  | cons p' ps ih =>
    obtain ⟨_, hcheck, h⟩ := fireAll_cons_eq_ok h
    rw [List.flatMap_cons, ← List.append_assoc]
    cases ps with
    | nil =>
      obtain rfl : p' = p := by simpa using hlast
      simpa using hcheck hp
    | cons => exact ih (by simpa using hlast) h

theorem fire_checked {p : History} (hlast : ps.getLast? = some p) (hp : s.Extends e p)
    (rest : List History) (h : fire s atomLimit modelLimit t e (ps ++ rest) = .ok qs) :
    (ps.flatMap (grown e (s.statementsFor e) (t + 1) atomLimit)).length ≤ modelLimit := by
  rw [fire, Time.next?] at h
  by_cases ht : t < Time.last
  · rw [if_pos ht] at h
    simpa using fireAll_checked hlast hp rest h
  · simp [ht] at h

theorem Admitted.perm {m : Moment} {rs rs' : List History} (h : Admitted m ps rs)
    (h' : Admitted m ps rs') (hn : ps.Nodup) : rs.Perm rs' := by
  rw [List.perm_ext_iff_of_nodup (hn.sublist h.sublist) (hn.sublist h'.sublist)]
  intro p
  rw [h.mem_iff, h'.mem_iff]

/-- An event extends none of some histories, or there is a last one that it extends. -/
theorem last_extended (s : Scenario) (e : Event) (ps : List History) :
    (∀ p ∈ ps, ¬ s.Extends e p) ∨ ∃ xs zs, ps = xs ++ zs ∧
      (∃ p, xs.getLast? = some p ∧ s.Extends e p) ∧ ∀ p ∈ zs, ¬ s.Extends e p := by
  induction ps with
  | nil => simp
  | cons p ps ih =>
    rcases ih with hnone | ⟨xs, zs, rfl, ⟨y, hy, hext⟩, hzs⟩
    · by_cases hp : s.Extends e p
      · exact .inr ⟨[p], ps, rfl, ⟨p, rfl, hp⟩, hnone⟩
      · exact .inl (List.forall_mem_cons.mpr ⟨hp, hnone⟩)
    · refine .inr ⟨p :: xs, zs, rfl, ⟨y, ?_, hext⟩, hzs⟩
      rw [List.getLast?_cons, hy]
      rfl

end Checks

end Histories

namespace Search

/-- What holds of a search before further moments are read. -/
structure Sound (x : Search) (rest : List (Time × Moment)) : Prop where
  ready : x.Ready
  nodup : x.histories.Nodup
  ordered : (rest.map Prod.fst).Pairwise (· < ·)
  upTo : ∀ m ∈ rest, Histories.UpTo m.1 x.histories

theorem length_histories (x : Search) : x.histories.length = x.leaves.size := by simp [histories]

section Step

variable {s : Scenario} {atomLimit modelLimit : Nat} {t : Time} {m : Moment}
  {rest : List (Time × Moment)} {x x' : Search}

theorem Sound.step_histories (hx : x.Sound ((t, m) :: rest))
    (h : x.step s atomLimit modelLimit (t, m) = .ok x') :
    x'.Ready ∧ Histories.step s atomLimit modelLimit x.histories (t, m) = .ok x'.histories := by
  have hm := step_mirrors s atomLimit modelLimit (t, m) hx.ready
  rw [h] at hm
  exact hm.of_ok

theorem Sound.step (hx : x.Sound ((t, m) :: rest))
    (h : x.step s atomLimit modelLimit (t, m) = .ok x') : x'.Sound rest := by
  obtain ⟨hready, hstep⟩ := hx.step_histories h
  have ht : Histories.UpTo t x.histories := hx.upTo (t, m) (by simp)
  refine ⟨hready, Histories.step_nodup ht hx.nodup hstep, hx.ordered.of_cons, ?_⟩
  intro m' hm' p hp
  exact (Histories.upTo_step ht hstep p hp).before_rest hx.ordered m' hm'

/-- How many histories an event leads to, counted by those up to some point and those after it,
where it extends none of the latter. -/
theorem Sound.size_step (hx : x.Sound ((t, m) :: rest))
    (h : x.step s atomLimit modelLimit (t, m) = .ok x') {e : Event} (he : m.event = some e)
    {xs zs : List History} (hadm : Histories.Admitted m x.histories (xs ++ zs))
    (hzs : ∀ p ∈ zs, ¬ s.Extends e p) :
    x'.leaves.size =
      (xs.flatMap (Histories.grown e (s.statementsFor e) (t + 1) atomLimit)).length + zs.length := by
  have ht : Histories.UpTo t x.histories := hx.upTo (t, m) (by simp)
  obtain ⟨rs, hr, _, hq⟩ := Histories.step_eq_ok ht (hx.step_histories h).2
  rcases hq with ⟨hnone, _⟩ | ⟨e', he', hf⟩
  · simp [he] at hnone
  · obtain rfl : e = e' := Option.some.inj (he.symm.trans he')
    obtain ⟨hq, hg⟩ := Histories.fire_eq_ok hf
    have hperm : rs.Perm (xs ++ zs) := hr.perm hadm hx.nodup
    have hspared : zs.flatMap (Histories.grown e (s.statementsFor e) (t + 1) atomLimit) = zs := by
      apply Histories.flatMap_grown_spared _ _ hzs
      · intro p hp
        exact (ht p (hadm.sublist.subset (by simp [hp]))).1
      · intro p hp
        exact hg p (hperm.mem_iff.mpr (by simp [hp]))
    have hlen := (hperm.flatMap_right
      (Histories.grown e (s.statementsFor e) (t + 1) atomLimit)).length_eq
    rw [← length_histories, hq, hlen, List.flatMap_append, hspared, List.length_append]

/-- A step leads to no more histories, or else the event extends some, and their number was last
checked at the last of these. -/
theorem Sound.step_checked (hx : x.Sound ((t, m) :: rest))
    (h : x.step s atomLimit modelLimit (t, m) = .ok x') :
    x'.leaves.size ≤ x.leaves.size ∨ ∃ e xs zs, m.event = some e ∧
      Histories.Admitted m x.histories (xs ++ zs) ∧
      (∃ p, xs.getLast? = some p ∧ s.Extends e p) ∧ (∀ p ∈ zs, ¬ s.Extends e p) ∧
      (xs.flatMap (Histories.grown e (s.statementsFor e) (t + 1) atomLimit)).length
        ≤ modelLimit := by
  have ht : Histories.UpTo t x.histories := hx.upTo (t, m) (by simp)
  obtain ⟨rs, hr, _, hq⟩ := Histories.step_eq_ok ht (hx.step_histories h).2
  have hle : rs.length ≤ x.leaves.size := by
    rw [← length_histories]
    exact hr.sublist.length_le
  rcases hq with ⟨_, hq⟩ | ⟨e, he, hf⟩
  · left
    rw [← length_histories, hq]
    exact hle
  · rcases Histories.last_extended s e rs with hnone | ⟨xs, zs, rfl, hlast, hzs⟩
    · left
      have hall : Histories.Admitted m x.histories ([] ++ rs) := hr
      rw [hx.size_step h he hall hnone]
      simpa using hle
    · right
      obtain ⟨p, hp, hext⟩ := hlast
      refine ⟨e, xs, zs, he, hr, ⟨p, hp, hext⟩, hzs, ?_⟩
      exact Histories.fire_checked hp hext zs hf

end Step

end Search

namespace Scenario

section Limit

variable {s : Scenario} {limits : Limits} {horizon : Time} {x : Search}
  {rest : List (Time × Moment)}

theorem Passes.sound (h : s.Passes limits horizon x rest) : x.Sound rest := by
  induction h with
  | @seeded os _ seeds =>
    obtain ⟨hready, hseed⟩ := Search.seed_histories s.startTime os
    refine ⟨hready, ?_, s.momentsUntil_ordered horizon, ?_⟩
    · rw [hseed]
      exact Histories.seed_nodup seeds
    · rw [hseed]
      exact Histories.upTo_seed s horizon os
  | read _ step ih => exact ih.step step

theorem Passes.foldlM {ms : List (Time × Moment)} {x' : Search}
    (h : s.Passes limits horizon x (ms ++ rest))
    (hfold : ms.foldlM (Search.step s limits.atoms.value limits.models.value) x = .ok x') :
    s.Passes limits horizon x' rest := by
  induction ms generalizing x with
  | nil => exact Except.ok.inj hfold ▸ h
  | cons m ms ih =>
    rw [List.foldlM_cons] at hfold
    obtain ⟨y, hy, hfold⟩ := (Result.bind_eq_ok _ _ _).mp hfold
    exact ih (.read h hy) hfold

/-- What a run passes through is what some first moments make of the seeds. -/
theorem Passes.exists_foldlM (h : s.Passes limits horizon x rest) :
    ∃ os ms, s.initialCandidates limits.atoms.value limits.models.value = .ok os ∧
      s.momentsUntil horizon = ms ++ rest ∧
      ms.foldlM (Search.step s limits.atoms.value limits.models.value)
        (Search.seed s.startTime os) = .ok x := by
  induction h with
  | @seeded os _ seeds => exact ⟨os, [], seeds, rfl, rfl⟩
  | @read x x' m rest _ step ih =>
    obtain ⟨os, ms, ho, hms, hx⟩ := ih
    refine ⟨os, ms ++ [m], ho, by rw [hms, List.append_assoc, List.singleton_append], ?_⟩
    rw [List.foldlM_append, Result.bind_eq_ok]
    refine ⟨x, hx, ?_⟩
    rw [List.foldlM_cons, Result.bind_eq_ok]
    exact ⟨x', step, rfl⟩

/-- A run passes through the search that it ends with. -/
theorem passes_run {r : Run} (h : s.run limits horizon = .ok r) :
    s.Passes limits horizon ⟨r.forest, r.leaves⟩ [] := by
  obtain ⟨os, x, hne, ho, hx, rfl⟩ := run_eq_ok h
  have hseed : s.Passes limits horizon (Search.seed s.startTime os)
      (s.momentsUntil horizon ++ []) := by
    rw [List.append_nil]
    exact .seeded hne ho
  exact hseed.foldlM hx

theorem size_seed (t : Time) (os : List Valuation) :
    (Search.seed t os).leaves.size = os.length := by
  rw [← Search.length_histories, (Search.seed_histories t os).2]
  simp [Histories.seed]

theorem Overrun.size_after (o : s.Overrun limits horizon) :
    limits.models.value < o.after.leaves.size := by
  rw [o.passes.sound.size_step o.step o.event o.admitted o.unextended]
  exact o.unchecked

theorem Overrun.of_passes (hlimit : limits.models.value < countLimit)
    (hpass : s.Passes limits horizon x rest) (hover : limits.models.value < x.leaves.size) :
    Nonempty (s.Overrun limits horizon) := by
  induction hpass with
  | @seeded os _ seeds =>
    have hmin := length_initialCandidates seeds
    rw [size_seed] at hover
    omega
  | @read x x' m rest before step ih =>
    obtain ⟨t, m⟩ := m
    have hsound := before.sound
    rcases hsound.step_checked step with hle | ⟨e, xs, zs, he, hadm, hlast, hzs, hchecked⟩
    · exact ih (lt_of_lt_of_le hover hle)
    · rw [hsound.size_step step he hadm hzs] at hover
      exact ⟨⟨x, x', t, m, rest, before, step, e, he, xs, zs, hadm, hlast, hzs, hchecked, hover⟩⟩

/-- The number of histories is within the limit at every point of a run, and so at its end, unless
at some moment the histories that the event leaves as they are, after the last that it extends, take
up more than the room that is left. -/
theorem within_limit_iff (s : Scenario) (limits : Limits) (horizon : Time)
    (hlimit : limits.models.value < countLimit) :
    ((∀ x rest, s.Passes limits horizon x rest → x.leaves.size ≤ limits.models.value) ↔
      IsEmpty (s.Overrun limits horizon)) ∧
    (IsEmpty (s.Overrun limits horizon) →
      ∀ r, s.run limits horizon = .ok r → r.modelCount ≤ limits.models.value) := by
  have hbound (hno : IsEmpty (s.Overrun limits horizon)) (x : Search) (rest : List (Time × Moment))
      (hpass : s.Passes limits horizon x rest) : x.leaves.size ≤ limits.models.value := by
    by_contra hover
    obtain ⟨o⟩ := Overrun.of_passes hlimit hpass (Nat.lt_of_not_le hover)
    exact hno.false o
  refine ⟨⟨?_, hbound⟩, ?_⟩
  · intro h
    refine ⟨fun o => ?_⟩
    exact absurd (h o.after o.rest (o.passes.read o.step)) (Nat.not_le_of_gt o.size_after)
  · intro hno r hr
    exact hbound hno _ _ (passes_run hr)

end Limit

end Scenario

/-- A run of the coin passes from one history to two, so it is always within the limit, and no
moment lets the number grow unnoticed. -/
theorem coin_within_limit_iff :
    ((∀ x rest, coin.Passes .standard 1 x rest → x.leaves.size ≤ 65536) ↔
      IsEmpty (coin.Overrun .standard 1)) ∧
    (∀ x rest, coin.Passes .standard 1 x rest → x.leaves.size ≤ 65536) ∧
    IsEmpty (coin.Overrun .standard 1) ∧
    (∀ r, coin.run .standard 1 = .ok r → r.modelCount ≤ 65536) ∧
    ∃ r, coin.run .standard 1 = .ok r ∧ r.modelCount = 2 := by
  obtain ⟨hiff, hends⟩ := Scenario.within_limit_iff coin .standard 1 (by decide)
  obtain ⟨r, hr, htwo⟩ := coin_run
  obtain ⟨os, hos, hone⟩ : ∃ os, coin.initialCandidates 20 65536 = .ok os ∧ os.length = 1 :=
    Result.ok_of_toOption_map (by decide +kernel)
  have hmoment : (coin.momentsUntil 1).length = 1 := by decide +kernel
  have hbound : ∀ x rest, coin.Passes .standard 1 x rest → x.leaves.size ≤ 65536 := by
    intro x rest h
    obtain ⟨os', ms, hos', hms, hx⟩ := h.exists_foldlM
    obtain rfl : os = os' := Except.ok.inj (hos.symm.trans hos')
    cases ms with
    | nil =>
      rw [← Except.ok.inj hx, Scenario.size_seed, hone]
      decide
    | cons m ms =>
      obtain rfl : rest = [] := by
        rw [hms, List.length_append, List.length_cons] at hmoment
        exact List.eq_nil_of_length_eq_zero (by omega)
      have hne : os ≠ [] := List.ne_nil_of_length_pos (hone ▸ Nat.one_pos)
      have hrun := Scenario.run_eq hne hos' 1
      rw [hms, List.append_nil, hx, hr] at hrun
      have hsize : x.leaves.size = 2 := by rw [← htwo, Except.ok.inj hrun]; rfl
      rw [hsize]
      decide
  have hno := hiff.mp hbound
  exact ⟨hiff, hbound, hno, hends hno, r, hr, htwo⟩

/-- A lamp that may come on when it is switched at time 1, and that stays on. -/
def lamp : Scenario where
  fluents := .ofList [⟨"lit"⟩]
  timeline := (∅ : Timeline).insert 1 ⟨some ⟨⟨"switch"⟩, none⟩, none⟩
  statements := [⟨⟨⟨"switch"⟩, none⟩, .neg (.atom ⟨"lit"⟩), .releases ⟨"lit"⟩⟩]

/-- Where the lamp is off there are two histories for one, which is the limit. The history in which
it is on comes after them. -/
theorem lamp_exceeds_limit : ∃ limits r, Limits.standard.setModels 2 = .ok limits ∧
    lamp.run limits 1 = .ok r ∧ limits.models.value < r.modelCount := by
  have h : ((lamp.run { Limits.standard with models := ⟨"model_limit", 1, 16777216, 2⟩ } 1).map
      Run.modelCount).toOption = some 3 := by decide +kernel
  obtain ⟨r, hr, hthree⟩ := Result.ok_of_toOption_map h
  refine ⟨_, r, rfl, hr, ?_⟩
  rw [hthree]
  decide

end Chronicle
