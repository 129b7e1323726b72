import Chronicle.Proofs.Course

/-!
Inertia over a whole run: between two times of a history a fluent keeps its value, unless an event
between them triggers a statement that has to do with the fluent.
-/

namespace Chronicle

/-- The statement releases the fluent, or has it among the atoms of its effect. -/
def Statement.Governs (r : Statement) (f : Fluent) : Prop :=
  r.consequence = .releases f ∨ ∃ F, r.consequence = .causes F ∧ f ∈ F.atoms

/-- An event of the timeline at a time triggers a statement that governs the fluent, on what the
history holds then. -/
def Scenario.MayChange (s : Scenario) (p : History) (t : Time) (f : Fluent) : Prop :=
  ∃ e x, s.eventAt t = some e ∧ IsLatest p t x ∧
    ∃ r ∈ s.statementsFor e, r.TriggeredOn x.observation ∧ r.Governs f

theorem Outcome.exists_governs {rules : List Statement} {o o' : Valuation} {f : Fluent}
    (h : Outcome rules o o') (hne : o.get? f ≠ o'.get? f) :
    ∃ r ∈ rules, r.TriggeredOn o ∧ r.Governs f := by
  by_contra hnone
  apply hne
  apply Eq.symm
  apply h.inertia f
  intro r hr ht
  have hno : ¬ r.Governs f := fun hg => hnone ⟨r, hr, ht, hg⟩
  exact ⟨fun F hF hf => hno (.inr ⟨F, hF, hf⟩), fun hF => hno (.inl hF)⟩

/-- Between entries that differ in something there are two that do, one right after the other. -/
theorem exists_change {β : Type} (g : Entry → β) {p : History}
    (hord : p.Pairwise (·.time < ·.time)) {a b : Entry} (ha : a ∈ p) (hb : b ∈ p)
    (hab : a.time ≤ b.time) (hne : g a ≠ g b) :
    ∃ xs c d ys, p = xs ++ c :: d :: ys ∧ a.time ≤ c.time ∧ d.time ≤ b.time ∧ g c ≠ g d := by
  induction p generalizing a with
  | nil => simp at ha
  | cons x p ih =>
    obtain ⟨hx, hp⟩ := List.pairwise_cons.mp hord
    rcases List.mem_cons.mp ha with rfl | hap
    · have hbp : b ∈ p := (List.mem_cons.mp hb).resolve_left fun he => hne (by rw [he])
      cases p with
      | nil => simp at hbp
      | cons y p =>
        have hay : a.time < y.time := hx y List.mem_cons_self
        have hyb : y.time ≤ b.time := by
          rcases List.mem_cons.mp hbp with rfl | hbp
          · exact le_rfl
          · exact le_of_lt ((List.pairwise_cons.mp hp).1 b hbp)
        by_cases hy : g a = g y
        · obtain ⟨xs, c, d, ys, hsplit, hc, hd, hg⟩ :=
            ih hp List.mem_cons_self hbp hyb (hy ▸ hne)
          exact ⟨a :: xs, c, d, ys, by simp [hsplit], le_trans (le_of_lt hay) hc, hd, hg⟩
        · exact ⟨[], a, y, p, rfl, le_rfl, hyb, hy⟩
    · have hbp : b ∈ p := by
        refine (List.mem_cons.mp hb).resolve_left ?_
        intro he
        exact absurd hab (not_le_of_gt (he ▸ hx a hap))
      obtain ⟨xs, c, d, ys, hsplit, hc, hd, hg⟩ := ih hp hap hbp hab hne
      exact ⟨x :: xs, c, d, ys, by simp [hsplit], hc, hd, hg⟩

namespace Scenario

section Inertia

variable {s : Scenario} {horizon t₁ t₂ : Time} {p : History} {f : Fluent}

theorem Legal.mayChange (h : s.Legal horizon p) {a b : Entry} (ha : IsLatest p t₁ a)
    (hb : IsLatest p t₂ b) (hle : t₁ ≤ t₂) (hne : a.observation.get? f ≠ b.observation.get? f) :
    ∃ t, t₁ ≤ t ∧ t < t₂ ∧ t ≤ horizon ∧ s.MayChange p t f := by
  have hord := h.orderly.increasing
  have hab : a.time ≤ b.time := hb.greatest a ha.mem (le_trans ha.time_le hle)
  obtain ⟨xs, c, d, ys, rfl, hc, hd, hcd⟩ :=
    exists_change (·.observation.get? f) hord ha.mem hb.mem hab hne
  obtain ⟨_, ⟨t, e, ht, hfires⟩, _⟩ := List.isChain_append_cons_cons.mp h.isChain
  have htd : t < d.time := hfires.time ▸ Int.lt_succ t
  have hlatest := isLatest_of_between hord hfires.before htd
  refine ⟨t, ?_, ?_, ht, e, c, hfires.event, hlatest, hfires.outcome.exists_governs hcd⟩
  · -- The entry at `t₁` is the last by then, and it does not come after `c`.
    by_contra hlt
    have hdt : d.time ≤ t₁ := hfires.time ▸ Int.add_one_le_iff.mpr (not_le.mp hlt)
    have hcd' : c.time < d.time := lt_of_le_of_lt hfires.before htd
    exact absurd (ha.greatest d (by simp) hdt) (not_le_of_gt (lt_of_le_of_lt hc hcd'))
  · exact lt_of_lt_of_le htd (le_trans hd hb.time_le)

end Inertia

end Scenario

/-- From the start on a history holds a value of each fluent at each time. If the values at two
times differ, an event at some time from the first to before the second triggers a statement that
governs the fluent. -/
theorem Run.inertia {s : Scenario} {limits : Limits} {horizon : Time} {r : Run}
    (h : s.run limits horizon = .ok r) {p : History} (hp : p ∈ r.histories) {f : Fluent}
    (hf : f ∈ s.fluents) {t₁ t₂ : Time} (hstart : s.startTime ≤ t₁) (hle : t₁ ≤ t₂) :
    ∃ a b, IsLatest p t₁ a ∧ IsLatest p t₂ b ∧ f ∈ a.observation ∧ f ∈ b.observation ∧
      (a.observation.get? f ≠ b.observation.get? f →
        ∃ t, t₁ ≤ t ∧ t < t₂ ∧ t ≤ horizon ∧ s.MayChange p t f) := by
  have hlegal := (Scenario.mem_histories h p).mp hp
  have ho := hlegal.orderly
  obtain ⟨a, ha, _⟩ := ho.existsUnique_latest hstart
  obtain ⟨b, hb, _⟩ := ho.existsUnique_latest (le_trans hstart hle)
  refine ⟨a, b, ha, hb, (ho.fluents a ha.mem f).mpr hf, (ho.fluents b hb.mem f).mpr hf, ?_⟩
  exact hlegal.mayChange ha hb hle

/-- The coin shows heads and then tails. -/
def coinTurned : History :=
  [⟨0, .ofList [(⟨"heads"⟩, true)], none⟩,
    ⟨1, .ofList [(⟨"heads"⟩, false)], some ⟨⟨"toss"⟩, none⟩⟩]

theorem coin_inertia : ∃ r, coin.run .standard 1 = .ok r ∧ coinTurned ∈ r.histories ∧
    ⟨"heads"⟩ ∈ coin.fluents ∧ coin.startTime ≤ 0 ∧ (0 : Time) ≤ 1 ∧
    ∃ a b, IsLatest coinTurned 0 a ∧ IsLatest coinTurned 1 b ∧
      ⟨"heads"⟩ ∈ a.observation ∧ ⟨"heads"⟩ ∈ b.observation ∧
      (a.observation.get? ⟨"heads"⟩ ≠ b.observation.get? ⟨"heads"⟩ →
        ∃ t, (0 : Time) ≤ t ∧ t < 1 ∧ t ≤ 1 ∧ coin.MayChange coinTurned t ⟨"heads"⟩) := by
  obtain ⟨r, hr, hmem⟩ : ∃ r, coin.run .standard 1 = .ok r ∧
      decide (coinTurned ∈ r.histories) = true := Result.ok_of_toOption_map (by decide +kernel)
  have hp : coinTurned ∈ r.histories := of_decide_eq_true hmem
  have hf : ⟨"heads"⟩ ∈ coin.fluents := by decide
  have hstart : coin.startTime ≤ 0 := by decide
  exact ⟨r, hr, hp, hf, hstart, by decide, Run.inertia hr hp hf hstart (by decide)⟩

end Chronicle
