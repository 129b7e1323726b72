import Chronicle.Proofs.Activity
import Chronicle.Proofs.Course

/-!
Runs to two horizons. The run to the nearer one succeeds if the other does, and it finds at least
the histories that the other goes on with.
-/

namespace Chronicle

/-- What the events up to a horizon have made of a history. -/
def History.cut (horizon : Time) (p : History) : History :=
  p.filter fun x => x.firing.isNone || decide (x.time ≤ horizon + 1)

section Append

variable {t : Time} {p xs : History}

theorem trueAt_append (F : Formula) (p : History) (h : ∀ x ∈ xs, t < x.time) :
    TrueAt F t (p ++ xs) ↔ TrueAt F t p := by
  simp only [TrueAt, isLatest_append p h]

theorem Performed.of_append {a : Action} {agent : Option Agent} (h : Performed a agent t (p ++ xs))
    (hxs : ∀ x ∈ xs, t + 1 < x.time) : Performed a agent t p := by
  obtain ⟨x, hx, htime, hperf⟩ := h
  rcases List.mem_append.mp hx with hx | hx
  · exact ⟨x, hx, htime, hperf⟩
  · exact absurd htime (ne_of_gt (hxs x hx))

theorem Active.append {agent : Agent} (h : Active agent p) (xs : History) :
    Active agent (p ++ xs) := by
  obtain ⟨before, a, b, after, rfl, hchange⟩ := h
  exact ⟨before, a, b, after ++ xs, by simp, hchange⟩

end Append

namespace Scenario

section Horizon

variable {s : Scenario} {limits : Limits} {h₁ h₂ : Time} {r₁ r₂ : Run} {p : History}

theorem momentsUntil_append (s : Scenario) (hle : h₁ ≤ h₂) :
    ∃ rest, s.momentsUntil h₂ = s.momentsUntil h₁ ++ rest ∧ ∀ m ∈ rest, h₁ < m.1 := by
  have h (es : List (Time × Moment)) (hes : (es.map Prod.fst).Pairwise (· < ·)) :
      ∃ rest, es.filter (·.1 ≤ h₂) = es.filter (·.1 ≤ h₁) ++ rest ∧ ∀ m ∈ rest, h₁ < m.1 := by
    induction es with
    | nil => exact ⟨[], rfl, by simp⟩
    | cons e es ih =>
      obtain ⟨hfirst, hes⟩ := List.pairwise_cons.mp hes
      by_cases he : e.1 ≤ h₁
      · obtain ⟨rest, hsplit, hlate⟩ := ih hes
        exact ⟨rest, by simp [he, le_trans he hle, hsplit], hlate⟩
      · have hall : ∀ m ∈ e :: es, h₁ < m.1 := by
          refine List.forall_mem_cons.mpr ⟨not_le.mp he, fun m hm => ?_⟩
          exact lt_trans (not_le.mp he) (hfirst m.1 (List.mem_map.mpr ⟨m, hm, rfl⟩))
        have hnone : (e :: es).filter (·.1 ≤ h₁) = [] := by
          rw [List.filter_eq_nil_iff]
          intro m hm
          simpa using hall m hm
        exact ⟨(e :: es).filter (·.1 ≤ h₂), by rw [hnone, List.nil_append],
          fun m hm => hall m (List.mem_of_mem_filter hm)⟩
  rw [momentsUntil_eq, momentsUntil_eq]
  exact h s.timeline.entries s.timeline.ordered

/-- Without the entries that later events have added, a legal history is legal up to the nearer
horizon. -/
theorem Legal.cut (h : s.Legal h₂ p) (hle : h₁ ≤ h₂) :
    s.Legal h₁ (p.cut h₁) ∧ ∃ later, p = p.cut h₁ ++ later ∧ ∀ x ∈ later, h₁ + 1 < x.time := by
  obtain ⟨o, hi, hread⟩ := h
  obtain ⟨rest, hsplit, hlate⟩ := s.momentsUntil_append hle
  rw [← momentsUntil_eq, hsplit, reads_append] at hread
  obtain ⟨q, hq, hrest⟩ := hread
  obtain ⟨xs, rfl, hold⟩ := hq.adds
  obtain ⟨later, rfl, hnew⟩ := hrest.adds
  have hfirst : ∀ x ∈ [⟨s.startTime, o, none⟩] ++ xs,
      x.firing.isNone || decide (x.time ≤ h₁ + 1) := by
    intro x hx
    rcases List.mem_cons.mp hx with rfl | hx
    · rfl
    · obtain ⟨t, m, e, hm, _, htime, _⟩ := hold x hx
      rw [momentsUntil_eq, mem_filter_timeline] at hm
      have hle : x.time ≤ h₁ + 1 := htime ▸ Int.add_le_add_right hm.2 1
      simp [hle]
  have hlater : ∀ x ∈ later, h₁ + 1 < x.time ∧ x.firing.isNone = false := by
    intro x hx
    obtain ⟨t, m, e, hm, _, htime, hfiring⟩ := hnew x hx
    exact ⟨htime ▸ Int.add_lt_add_right (hlate _ hm) 1, by simp [hfiring]⟩
  have hcut : History.cut h₁ ([⟨s.startTime, o, none⟩] ++ xs ++ later) =
      [⟨s.startTime, o, none⟩] ++ xs := by
    rw [History.cut, List.filter_append, List.filter_eq_self.mpr hfirst]
    rw [List.filter_eq_nil_iff.mpr, List.append_nil]
    intro x hx
    obtain ⟨hgt, hfiring⟩ := hlater x hx
    simp [hfiring, hgt]
  rw [hcut]
  refine ⟨⟨o, hi, ?_⟩, later, rfl, fun x hx => (hlater x hx).1⟩
  rw [← momentsUntil_eq]
  exact hq

theorem run_isOk_nearer (h : s.run limits h₂ = .ok r₂) (hle : h₁ ≤ h₂) :
    ∃ r₁, s.run limits h₁ = .ok r₁ := by
  obtain ⟨os, x, hne, ho, hx, _⟩ := run_eq_ok h
  obtain ⟨rest, hsplit, _⟩ := s.momentsUntil_append hle
  rw [hsplit, List.foldlM_append] at hx
  obtain ⟨y, hy, _⟩ := (Result.bind_eq_ok _ _ _).mp hx
  exact ⟨_, by rw [run_eq hne ho, hy]; rfl⟩

section Farther

variable {F : Formula} {t : Time} {a : Action} {agent : Option Agent}

/-- Each history of the farther run goes on from one of the nearer run. -/
theorem cut_mem_histories (h : s.run limits h₁ = .ok r₁) (h' : s.run limits h₂ = .ok r₂)
    (hle : h₁ ≤ h₂) (hp : p ∈ r₂.histories) : p.cut h₁ ∈ r₁.histories :=
  (mem_histories h _).mpr (((mem_histories h' p).mp hp).cut hle).1

theorem Legal.trueAt_cut (h : s.Legal h₂ p) (hle : h₁ ≤ h₂) (ht : t ≤ h₁) :
    TrueAt F t (p.cut h₁) ↔ TrueAt F t p := by
  obtain ⟨_, later, he, hlater⟩ := h.cut hle
  conv_rhs => rw [he]
  exact (trueAt_append F _ fun x hx =>
    lt_trans (lt_of_le_of_lt ht (Int.lt_succ h₁)) (hlater x hx)).symm

theorem Legal.performed_cut (h : s.Legal h₂ p) (hle : h₁ ≤ h₂) (ht : t ≤ h₁)
    (hperf : Performed a agent t p) : Performed a agent t (p.cut h₁) := by
  obtain ⟨_, later, he, hlater⟩ := h.cut hle
  rw [he] at hperf
  exact hperf.of_append fun x hx => lt_of_le_of_lt (Int.add_le_add_right ht 1) (hlater x hx)

theorem Legal.active_of_cut {agent : Agent} (h : s.Legal h₂ p) (hle : h₁ ≤ h₂)
    (hactive : Active agent (p.cut h₁)) : Active agent p := by
  obtain ⟨_, later, he, _⟩ := h.cut hle
  rw [he]
  exact hactive.append later

end Farther

end Horizon

end Scenario

/-- How a run goes on from one to a nearer horizon. It finds no history that does not begin as one
of the nearer run. Up to the nearer horizon what was necessary stays so, and nothing else becomes
possible, or performed. An active agent stays active. -/
structure Run.GoesOn (s : Scenario) (near far : Run) : Prop where
  histories : ∀ p ∈ far.histories, History.cut near.horizon p ∈ near.histories
  formula : ∀ F t, (∀ f ∈ F.atoms, f ∈ s.fluents) →
    F.atoms.size ≤ effectiveLimit near.atomLimit → t ≤ near.horizon →
    (near.formulaHolds F t .necessary = .ok .yes → far.formulaHolds F t .necessary = .ok .yes) ∧
    (far.formulaHolds F t .possible = .ok .yes → near.formulaHolds F t .possible = .ok .yes)
  action : ∀ a agent t, t ≤ near.horizon →
    far.actionPerformed a agent t = .yes → near.actionPerformed a agent t = .yes
  agent : ∀ agent, near.agentActive agent = true → far.agentActive agent = true

namespace Scenario

section GoesOn

variable {s : Scenario} {limits : Limits} {h₁ h₂ : Time} {r₁ r₂ : Run}

theorem formulaHolds_goesOn (h : s.run limits h₁ = .ok r₁) (h' : s.run limits h₂ = .ok r₂)
    (hle : h₁ ≤ h₂) {F : Formula} {t : Time} (hatoms : ∀ f ∈ F.atoms, f ∈ s.fluents)
    (hsize : F.atoms.size ≤ effectiveLimit limits.atoms.value) (ht : t ≤ h₁) :
    (r₁.formulaHolds F t .necessary = .ok .yes → r₂.formulaHolds F t .necessary = .ok .yes) ∧
    (r₂.formulaHolds F t .possible = .ok .yes → r₁.formulaHolds F t .possible = .ok .yes) := by
  have hw (r : Run) (hr : r.atomLimit = limits.atoms.value) :=
    (F.models_eq_ok r.atomLimit _).mpr ⟨hr ▸ hsize, rfl⟩
  have hnear := Run.formulaHolds_eq_yes h ht hatoms (hw r₁ (Run.atomLimit_eq h))
  have hfar := Run.formulaHolds_eq_yes h' (le_trans ht hle) hatoms (hw r₂ (Run.atomLimit_eq h'))
  have hsame : ∀ p ∈ r₂.histories, (TrueAt F t (History.cut h₁ p) ↔ TrueAt F t p) :=
    fun p hp => ((mem_histories h' p).mp hp).trueAt_cut hle ht
  have hcut : ∀ p ∈ r₂.histories, History.cut h₁ p ∈ r₁.histories :=
    fun p hp => cut_mem_histories h h' hle hp
  rw [hnear, hfar, hnear, hfar]
  constructor
  · intro hnec
    exact ⟨hnec.1, fun p hp => (hsame p hp).mp (hnec.2 _ (hcut p hp))⟩
  · intro hpos
    obtain ⟨hstart, p, hp, htrue⟩ := hpos
    exact ⟨hstart, _, hcut p hp, (hsame p hp).mpr htrue⟩

theorem goesOn (h : s.run limits h₁ = .ok r₁) (h' : s.run limits h₂ = .ok r₂) (hle : h₁ ≤ h₂) :
    Run.GoesOn s r₁ r₂ := by
  have hlegal (p : History) (hp : p ∈ r₂.histories) := (mem_histories h' p).mp hp
  have hcut (p : History) (hp : p ∈ r₂.histories) := cut_mem_histories h h' hle hp
  have hhorizon := Run.horizon_eq h
  constructor
  case histories =>
    rw [hhorizon]
    exact hcut
  case formula =>
    rw [hhorizon, Run.atomLimit_eq h]
    intro F t hatoms hsize ht
    exact formulaHolds_goesOn h h' hle hatoms hsize ht
  case action =>
    rw [hhorizon]
    intro a agent t ht hperf
    rw [Run.actionPerformed_eq_yes] at hperf ⊢
    obtain ⟨_, hlast, p, hp, hperf⟩ := hperf
    exact ⟨hhorizon ▸ ht, hlast, _, hcut p hp, (hlegal p hp).performed_cut hle ht hperf⟩
  case agent =>
    intro agent hactive
    rw [Run.agentActive_iff] at hactive ⊢
    exact fun p hp => (hlegal p hp).active_of_cut hle (hactive _ (hcut p hp))

/-- If a run succeeds, so does one to a nearer horizon, and it goes on from that. -/
theorem run_nearer (h : s.run limits h₂ = .ok r₂) (hle : h₁ ≤ h₂) :
    ∃ r₁, s.run limits h₁ = .ok r₁ ∧ Run.GoesOn s r₁ r₂ := by
  obtain ⟨r₁, h'⟩ := run_isOk_nearer h hle
  exact ⟨r₁, h', goesOn h' h hle⟩

end GoesOn

end Scenario

/-- A coin that is tossed once more, after it has shown heads again. -/
def coinAgain : Scenario :=
  { coin with
    timeline := coin.timeline.insert 2 ⟨some ⟨⟨"toss"⟩, none⟩, some (.atom ⟨"heads"⟩)⟩ }

theorem coinAgain_nearer : ∃ r₂, coinAgain.run .standard 2 = .ok r₂ ∧ r₂.modelCount = 2 ∧
    (1 : Time) ≤ 2 ∧
    ∃ r₁, coinAgain.run .standard 1 = .ok r₁ ∧ r₁.modelCount = 2 ∧ Run.GoesOn coinAgain r₁ r₂ := by
  obtain ⟨r₂, hr₂, htwo⟩ : ∃ r, coinAgain.run .standard 2 = .ok r ∧ r.modelCount = 2 :=
    Result.ok_of_toOption_map (by decide +kernel)
  obtain ⟨r, hr, htwo'⟩ : ∃ r, coinAgain.run .standard 1 = .ok r ∧ r.modelCount = 2 :=
    Result.ok_of_toOption_map (by decide +kernel)
  have hle : (1 : Time) ≤ 2 := by decide
  obtain ⟨r₁, hr₁, hgoes⟩ := Scenario.run_nearer hr₂ hle
  obtain rfl : r = r₁ := Except.ok.inj (hr.symm.trans hr₁)
  exact ⟨r₂, hr₂, htwo, hle, r, hr₁, htwo', hgoes⟩

end Chronicle
