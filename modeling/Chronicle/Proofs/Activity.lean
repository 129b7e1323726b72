import Chronicle.Proofs.Query

/-!
What a query about an action or an agent answers, in terms of the histories alone.
-/

namespace Chronicle

theorem Valuation.mem_differences (v w : Valuation) (f : Fluent) :
    f ∈ v.differences w ↔ ∃ b c, v.get? f = some b ∧ w.get? f = some c ∧ b ≠ c := by
  simp only [differences, List.mem_map, List.mem_filter, Option.any_eq_true, bne_iff_ne,
    Prod.exists, exists_and_right, exists_eq_right, ← SortedMap.get?_eq_some]
  constructor
  · intro h
    obtain ⟨b, hb, c, hc, hne⟩ := h
    exact ⟨b, c, hb, hc, hne.symm⟩
  · intro h
    obtain ⟨b, c, hb, hc, hne⟩ := h
    exact ⟨b, hb, c, hc, hne.symm⟩

/-- The entry records the action, done by the agent if one is asked for. -/
def Entry.Performs (x : Entry) (a : Action) (agent : Option Agent) : Prop :=
  ∃ e, x.firing = some e ∧ e.action = a ∧ (agent = none ∨ e.agent = agent)

/-- An action at a time is recorded at the next. -/
def Performed (a : Action) (agent : Option Agent) (t : Time) (p : History) : Prop :=
  ∃ x ∈ p, x.time = t + 1 ∧ x.Performs a agent

/-- The entry `b`, right after `a`, records an event of the agent and differs from `a`. -/
def ChangedBy (agent : Agent) (a b : Entry) : Prop :=
  (∃ e, b.firing = some e ∧ e.agent = some agent) ∧
    ∃ f v w, a.observation.get? f = some v ∧ b.observation.get? f = some w ∧ v ≠ w

/-- At some point of a history the agent has changed the world. -/
def Active (agent : Agent) (p : History) : Prop :=
  ∃ xs a b ys, p = xs ++ a :: b :: ys ∧ ChangedBy agent a b

namespace Run

theorem changedBy_iff (agent : Agent) (es : List Entry) :
    changedBy agent es = true ↔ ∃ xs b a ys, es = xs ++ b :: a :: ys ∧ ChangedBy agent a b := by
  induction es with
  | nil => simp [changedBy]
  | cons b es ih =>
    cases es with
    | nil =>
      simp only [changedBy, Bool.false_eq_true, false_iff]
      rintro ⟨xs, c, d, ys, he, _⟩
      have hlen := congrArg List.length he
      simp at hlen
      omega
    | cons a es =>
      have hfirst : (b.firing.any (·.agent == some agent) &&
          !(a.observation.differences b.observation).isEmpty) = true ↔ ChangedBy agent a b := by
        simp only [Bool.and_eq_true, Option.any_eq_true, beq_iff_eq, Bool.not_eq_true',
          List.isEmpty_eq_false_iff_exists_mem, Valuation.mem_differences, ChangedBy]
      rw [changedBy, Bool.or_eq_true, hfirst, ih]
      constructor
      · intro h
        rcases h with h | ⟨xs, c, d, ys, he, h⟩
        · exact ⟨[], b, a, es, rfl, h⟩
        · exact ⟨b :: xs, c, d, ys, by rw [he]; rfl, h⟩
      · intro h
        obtain ⟨xs, c, d, ys, he, h⟩ := h
        cases xs with
        | nil =>
          obtain ⟨rfl, rfl, rfl⟩ : b = c ∧ a = d ∧ es = ys := by simpa using he
          exact .inl h
        | cons x xs => exact .inr ⟨xs, c, d, ys, (List.cons.inj he).2, h⟩

/-- The search for a change goes from the latest entry back. -/
theorem changedBy_reverse (agent : Agent) (p : History) :
    changedBy agent p.reverse = true ↔ Active agent p := by
  rw [changedBy_iff]
  constructor
  · intro h
    obtain ⟨xs, b, a, ys, he, h⟩ := h
    refine ⟨ys.reverse, a, b, xs.reverse, ?_, h⟩
    rw [← List.reverse_reverse p, he]
    simp
  · intro h
    obtain ⟨xs, a, b, ys, rfl, h⟩ := h
    exact ⟨ys.reverse, b, a, xs.reverse, by simp, h⟩

theorem ancestry_eq_reverse (r : Run) (k : NodeId) :
    r.forest.ancestry k = (r.forest.path k).reverse := (List.reverse_reverse _).symm

/-- An agent is active if there is a change by the agent in every history. -/
theorem agentActive_iff (r : Run) (agent : Agent) :
    r.agentActive agent = true ↔ ∀ p ∈ r.histories, Active agent p := by
  rw [agentActive, ← Array.all_toList, List.all_eq_true, ← (holds_leaves r (Active agent)).1]
  simp only [ancestry_eq_reverse, changedBy_reverse]

theorem any_performs (a : Action) (agent : Option Agent) (t : Time) (p : History) :
    (p.reverse.any fun x => x.time == t + 1 && x.firing.any fun e =>
      e.action == a && (agent.isNone || e.agent == agent)) = true ↔ Performed a agent t p := by
  simp only [List.any_reverse, List.any_eq_true, Option.any_eq_true, Bool.and_eq_true,
    Bool.or_eq_true, beq_iff_eq, Option.isNone_iff_eq_none, Performed, Entry.Performs]

theorem actionPerformed_after {r : Run} {t : Time} (h : r.horizon < t) (a : Action)
    (agent : Option Agent) : r.actionPerformed a agent t = .indeterminate := by
  rw [actionPerformed, if_pos h]

/-- Within the horizon the answer is whether the action is recorded in some history. At the last
time of all it cannot be. -/
theorem actionPerformed_within {r : Run} {t : Time} (ht : t ≤ r.horizon) (a : Action)
    (agent : Option Agent) : ∃ b, r.actionPerformed a agent t = .ofBool b ∧
      (b = true ↔ t < Time.last ∧ ∃ p ∈ r.histories, Performed a agent t p) := by
  rw [actionPerformed, if_neg (not_lt.mpr ht), Time.next?]
  by_cases hlast : t < Time.last
  · rw [if_pos hlast]
    refine ⟨_, rfl, ?_⟩
    rw [← Array.any_toList, List.any_eq_true, ← (holds_leaves r (Performed a agent t)).2]
    simp only [ancestry_eq_reverse, any_performs, hlast, true_and]
  · rw [if_neg hlast]
    exact ⟨false, rfl, by simp [hlast]⟩

theorem actionPerformed_eq_indeterminate (r : Run) (a : Action) (agent : Option Agent) (t : Time) :
    r.actionPerformed a agent t = .indeterminate ↔ r.horizon < t := by
  by_cases ht : t ≤ r.horizon
  · obtain ⟨b, hb, _⟩ := actionPerformed_within ht a agent
    rw [hb]
    cases b <;> simp [Answer.ofBool, ht]
  · have hlate := not_le.mp ht
    simp [actionPerformed_after hlate, hlate]

theorem actionPerformed_eq_yes (r : Run) (a : Action) (agent : Option Agent) (t : Time) :
    r.actionPerformed a agent t = .yes ↔
      t ≤ r.horizon ∧ t < Time.last ∧ ∃ p ∈ r.histories, Performed a agent t p := by
  by_cases ht : t ≤ r.horizon
  · obtain ⟨b, hb, hiff⟩ := actionPerformed_within ht a agent
    rw [hb, ← hiff]
    cases b <;> simp [Answer.ofBool, ht]
  · rw [actionPerformed_after (not_le.mp ht)]
    simp [ht]

end Run

end Chronicle
