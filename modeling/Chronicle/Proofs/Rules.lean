import Chronicle.Proofs.Likeness

/-!
The causal rules of a scenario are a set: in which order they come, and how often, makes no
difference to its histories.
-/

namespace Chronicle

theorem Outcome.congr {rules rules' : List Statement} (h : ∀ x, x ∈ rules ↔ x ∈ rules')
    {o o' : Valuation} (ho : Outcome rules o o') : Outcome rules' o o' := by
  refine ⟨ho.fluents, ?_, ?_⟩
  · intro x hx
    exact ho.effects x ((h x).mpr hx)
  · intro f hf
    exact ho.inertia f fun x hx => hf x ((h x).mp hx)

namespace Scenario

def SameRules (s s' : Scenario) : Prop := ∀ x, x ∈ s.statements ↔ x ∈ s'.statements

section SameRules

variable {s s' : Scenario} {rules : List Statement} {t : Time} {m : Moment}
  {ms : List (Time × Moment)} {p q : History}

theorem SameRules.symm (h : s.SameRules s') : s'.SameRules s := fun x => (h x).symm

theorem SameRules.mem_statementsFor (h : s.SameRules s') (e : Event) (x : Statement) :
    x ∈ s.statementsFor e ↔ x ∈ s'.statementsFor e := by
  rw [statementsFor, statementsFor, List.mem_filter, List.mem_filter, h x]

theorem SameRules.triggers_iff (h : s.SameRules s') (e : Event) (o : Valuation) :
    s.Triggers e o ↔ s'.Triggers e o := by
  simp only [Triggers, h.mem_statementsFor e]

theorem SameRules.next (h : s.SameRules s') (hn : s.Next t m p q) : s'.Next t m p q := by
  cases hn with
  | rests last hl admitted quiet =>
    refine .rests last hl admitted ?_
    intro e he ht
    exact quiet e he ((h.triggers_iff e _).mpr ht)
  | fires last hl admitted e he ht o ho =>
    exact .fires last hl admitted e he ((h.triggers_iff e _).mp ht) o
      (ho.congr (h.mem_statementsFor e))

theorem SameRules.reads (h : s.SameRules s') (hr : s.Reads ms p q) : s'.Reads ms p q := by
  induction hr with
  | done p => exact .done p
  | read first _ ih => exact .read (h.next first) ih

/-- The scenario with other causal rules. -/
def ruledBy (s : Scenario) (rules : List Statement) : Scenario := { s with statements := rules }

theorem legal_ruledBy (h : s.SameRules (s.ruledBy rules)) (horizon : Time) (p : History) :
    (s.ruledBy rules).Legal horizon p ↔ s.Legal horizon p := by
  constructor
  · intro hp
    obtain ⟨o, hi, hread⟩ := hp
    exact ⟨o, ⟨hi.fluents, hi.constraint⟩, h.symm.reads hread⟩
  · intro hp
    obtain ⟨o, hi, hread⟩ := hp
    exact ⟨o, ⟨hi.fluents, hi.constraint⟩, h.reads hread⟩

end SameRules

/-- Runs by the same rules, reordered and repeated in whatever way, find the same histories and
answer every query alike. -/
theorem run_ruledBy {s : Scenario} {rules : List Statement} {limits : Limits} {horizon : Time}
    {r r' : Run} (hrules : ∀ x, x ∈ rules ↔ x ∈ s.statements)
    (h : s.run limits horizon = .ok r) (h' : (s.ruledBy rules).run limits horizon = .ok r') :
    r.histories.Perm r'.histories ∧ ∀ q, r.answer q = r'.answer q := by
  have hsame : s.SameRules (s.ruledBy rules) := fun x => (hrules x).symm
  have hmem : ∀ p, p ∈ r.histories ↔ p ∈ r'.histories := by
    intro p
    rw [mem_histories h, mem_histories h', legal_ruledBy hsame]
  refine ⟨(List.perm_ext_iff_of_nodup (histories_nodup h) (histories_nodup h')).mpr hmem, ?_⟩
  intro q
  have hcommon : q.Common s (s.ruledBy rules) := fun _ _ _ _ => ⟨Iff.rfl, fun _ _ => Iff.rfl⟩
  exact Run.answer_eq_of_mem_iff h h' hcommon hmem

end Scenario

/-- A lamp comes on when it is switched, and its fuse may blow. -/
def fusedLamp : Scenario where
  fluents := .ofList [⟨"blown"⟩, ⟨"lit"⟩]
  timeline := (∅ : Timeline).insert 0 ⟨some ⟨⟨"switch"⟩, none⟩, none⟩
  statements := [⟨⟨⟨"switch"⟩, none⟩, .neg (.atom ⟨"blown"⟩), .causes (.atom ⟨"lit"⟩)⟩,
    ⟨⟨⟨"switch"⟩, none⟩, .top, .releases ⟨"blown"⟩⟩]

/-- The rules of the lamp, in the other order and each once more. -/
def fusedLampRules : List Statement := fusedLamp.statements.reverse ++ fusedLamp.statements

theorem fusedLamp_ruledBy :
    (∀ x, x ∈ fusedLampRules ↔ x ∈ fusedLamp.statements) ∧
      ∃ r r', fusedLamp.run .standard 0 = .ok r ∧
        (fusedLamp.ruledBy fusedLampRules).run .standard 0 = .ok r' ∧
        r.modelCount = 8 ∧ r'.modelCount = 8 ∧
        r.histories.Perm r'.histories ∧ ∀ q, r.answer q = r'.answer q := by
  have hrules : ∀ x, x ∈ fusedLampRules ↔ x ∈ fusedLamp.statements := by simp [fusedLampRules]
  obtain ⟨r, hr, hcount⟩ : ∃ r, fusedLamp.run .standard 0 = .ok r ∧ r.modelCount = 8 :=
    Result.ok_of_toOption_map (by decide +kernel)
  obtain ⟨r', hr', hcount'⟩ : ∃ r', (fusedLamp.ruledBy fusedLampRules).run .standard 0 = .ok r' ∧
      r'.modelCount = 8 := Result.ok_of_toOption_map (by decide +kernel)
  exact ⟨hrules, r, r', hr, hr', hcount, hcount', Scenario.run_ruledBy hrules hr hr'⟩

end Chronicle
