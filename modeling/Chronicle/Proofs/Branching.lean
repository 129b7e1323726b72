import Chronicle.Proofs.Acceptance
import Chronicle.Proofs.Outcomes

/-!
How many observations follow when an event fires in a scenario that a problem states. Effects are
conjunctions of literals there, of which there is no more than one world, so that only a release
leads to more than one observation.
-/

namespace Chronicle

namespace Successor

variable {o : Valuation} {rules fired : List Statement} {atomLimit : Nat} {os : List Valuation}

theorem length_successors (h : successors o rules atomLimit = .ok os)
    (ht : ∃ s ∈ rules, s.TriggeredOn o) :
    ∃ fired ws, (∀ s, s ∈ fired ↔ s ∈ rules ∧ s.TriggeredOn o) ∧
      (combined fired).models atomLimit = .ok ws ∧ ws ≠ [] ∧
      os.length = ws.length * Nat.pow 2 (releasedOn o rules).size := by
  obtain ⟨_, ws, hw, hne, hlength⟩ := resolved_of_successors h ht
  exact ⟨_, ws, mem_filter_triggered o rules, hw, hne, hlength⟩

end Successor

/-- The statement causes a conjunction of literals, of which one gives the fluent the value. -/
def Statement.Gives (s : Statement) (f : Fluent) (value : Bool) : Prop :=
  ∃ ls, s.consequence = .causes (Literal.conjunction ls) ∧ (f, value) ∈ ls

/-- What each of the statements causes is a conjunction of literals. -/
def Literal.InEffects (rules : List Statement) : Prop :=
  ∀ s ∈ rules, ∀ F, s.consequence = .causes F → ∃ ls, F = conjunction ls

namespace Successor

variable {o : Valuation} {rules fired : List Statement} {atomLimit : Nat} {os ws : List Valuation}

theorem get?_of_gives {s : Statement} {f : Fluent} {value : Bool} (hs : s ∈ fired)
    (hg : s.Gives f value) {w : Valuation} (hw : w.eval (combined fired) = .ok true) :
    w.get? f = some value := by
  obtain ⟨ls, hc, hl⟩ := hg
  have heval := (eval_combined fired w).mp hw s hs _ hc
  rw [Valuation.eval_eq_ok, Literal.eval_conjunction] at heval
  exact heval _ hl

/-- Literals leave no choice between worlds. -/
theorem eq_of_models (hrules : Literal.InEffects fired)
    (h : (combined fired).models atomLimit = .ok ws) {w w' : Valuation} (hw : w ∈ ws)
    (hw' : w' ∈ ws) : w = w' := by
  obtain ⟨hk, ht⟩ := (Formula.mem_models h w).mp hw
  obtain ⟨hk', ht'⟩ := (Formula.mem_models h w').mp hw'
  apply SortedMap.ext_get?
  intro f
  by_cases hf : f ∈ (combined fired).atoms
  · obtain ⟨s, hs, F, hF, hf⟩ := (mem_atoms_combined fired f).mp hf
    obtain ⟨ls, rfl⟩ := hrules s hs F hF
    obtain ⟨⟨_, value⟩, hl, rfl⟩ := List.mem_map.mp ((Literal.mem_atoms_conjunction ls f).mp hf)
    have hg : s.Gives _ value := ⟨ls, hF, hl⟩
    rw [get?_of_gives hs hg ht, get?_of_gives hs hg ht']
  · have hout {v : Valuation} (hk : v.keys = (combined fired).atoms.keys) : v.get? f = none :=
      SortedMap.get?_eq_none.mpr (mt (Valuation.mem_iff_of_keys_eq hk f).mp hf)
    rw [hout hk, hout hk']

theorem length_models (hrules : Literal.InEffects fired)
    (h : (combined fired).models atomLimit = .ok ws) (hne : ws ≠ []) : ws.length = 1 := by
  have hn := Formula.models_nodup h
  rcases ws with _ | ⟨w, _ | ⟨w', ws⟩⟩
  · exact absurd rfl hne
  · rfl
  · have hsame : w = w' := eq_of_models hrules h (by simp) (by simp)
    exact absurd (by simp [hsame]) (List.nodup_cons.mp hn).1

theorem successors_of_clash {s s' : Statement} {f : Fluent} (hs : s ∈ rules) (hs' : s' ∈ rules)
    (ht : s.TriggeredOn o) (ht' : s'.TriggeredOn o) (hg : s.Gives f true) (hg' : s'.Gives f false) :
    ∃ err, successors o rules atomLimit = .error err := by
  cases h : successors o rules atomLimit with
  | error err => exact ⟨err, rfl⟩
  | ok os =>
    obtain ⟨fired, ws, hm, hw, hne, _⟩ := length_successors h ⟨s, hs, ht⟩
    obtain ⟨w, hmem⟩ := List.exists_mem_of_ne_nil ws hne
    have htrue := ((Formula.mem_models hw w).mp hmem).2
    have hboth := get?_of_gives ((hm s).mpr ⟨hs, ht⟩) hg htrue
    rw [get?_of_gives ((hm s').mpr ⟨hs', ht'⟩) hg' htrue] at hboth
    cases hboth

end Successor

namespace Problem

variable {p : Problem} {b : Batch}

theorem literals_inEffects (h : p.toBatch = .ok b) : Literal.InEffects b.scenario.statements := by
  obtain ⟨r, rfl⟩ := toBatch_eq_ok.mp h
  intro s hs F hF
  have heffect : F ∈ r.statements.filterMap Statement.effect? :=
    (Successor.mem_effects _ F).mpr ⟨s, hs, hF⟩
  obtain ⟨_, _, _, ls, _, rfl⟩ := (r.mem_effects F).mp heffect
  exact ⟨ls, rfl⟩

/-- Only releases lead to more than one observation: a firing leads to one for each way to value the
fluents that triggered statements release, and to none if nothing is triggered. Where the literals
of triggered statements contradict each other it is refused. -/
theorem successors_of_toBatch (h : p.toBatch = .ok b) (e : Event) (atomLimit : Nat)
    (o : Valuation) :
    Literal.InEffects b.scenario.statements ∧
    (∀ os, Successor.successors o (b.scenario.statementsFor e) atomLimit = .ok os →
      ((¬ ∃ s ∈ b.scenario.statementsFor e, s.TriggeredOn o) → os = []) ∧
      ((∃ s ∈ b.scenario.statementsFor e, s.TriggeredOn o) → os.Nodup ∧
        os.length = Nat.pow 2 (Successor.releasedOn o (b.scenario.statementsFor e)).size)) ∧
    ∀ s ∈ b.scenario.statementsFor e, ∀ s' ∈ b.scenario.statementsFor e,
      s.TriggeredOn o → s'.TriggeredOn o → ∀ f, s.Gives f true → s'.Gives f false →
      ∃ err, Successor.successors o (b.scenario.statementsFor e) atomLimit = .error err := by
  have hliterals := literals_inEffects h
  refine ⟨hliterals, ?_, ?_⟩
  · intro os hos
    refine ⟨?_, ?_⟩
    · intro hnone
      exact (Successor.successors_eq_nil hos).mpr fun s hs ht => hnone ⟨s, hs, ht⟩
    · intro ht
      obtain ⟨fired, ws, hm, hw, hne, hlength⟩ := Successor.length_successors hos ht
      have hfired : Literal.InEffects fired := by
        intro s hs
        exact hliterals s (List.mem_of_mem_filter ((hm s).mp hs).1)
      rw [Successor.length_models hfired hw hne, Nat.one_mul] at hlength
      exact ⟨Successor.successors_nodup hos, hlength⟩
  · intro s hs s' hs' ht ht' f hg hg'
    exact Successor.successors_of_clash hs hs' ht ht' hg hg'

end Problem

namespace ShakenLamp

/-- A shake puts the lamp out and may loosen or lose it. A press is to light the lamp and to put it
out. -/
def problem : Problem where
  termination := some 2
  states := some ["lit", "loose", "lost"]
  agents := none
  actions := none
  statements := [
    ⟨some "shake", none, some "causes", some (.list [.name "not", .name "lit"]), none⟩,
    ⟨some "shake", none, some "releases", some (.name "loose"), none⟩,
    ⟨some "shake", none, some "releases", some (.name "lost"), none⟩,
    ⟨some "shake", none, some "releases", some (.name "loose"), some (.name "lit")⟩,
    ⟨some "press", none, some "causes", some (.name "lit"), none⟩,
    ⟨some "press", none, some "causes", some (.list [.name "not", .name "lit"]), none⟩]
  events := []
  observations := []
  queries := []

def shake : Event := ⟨⟨"shake"⟩, none⟩

def press : Event := ⟨⟨"press"⟩, none⟩

def lights : Statement := ⟨press, .top, .causes (Literal.conjunction [(⟨"lit"⟩, true)])⟩

def putsOut (e : Event) : Statement :=
  ⟨e, .top, .causes (Literal.conjunction [(⟨"lit"⟩, false)])⟩

def rules : List Statement :=
  [putsOut shake, ⟨shake, .top, .releases ⟨"loose"⟩⟩, ⟨shake, .top, .releases ⟨"lost"⟩⟩,
    ⟨shake, .atom ⟨"lit"⟩, .releases ⟨"loose"⟩⟩, lights, putsOut press]

/-- The lamp is lit and nothing else is true. -/
def observed : Valuation := (Valuation.allFalse [⟨"loose"⟩, ⟨"lost"⟩]).insert ⟨"lit"⟩ true

/-- After a shake it is open whether the lamp is loose and whether it is lost, but not whether it
is lit. -/
theorem successors_of_shake : ∃ b, problem.toBatch = .ok b ∧
    (∃ os, Successor.successors observed (b.scenario.statementsFor shake) 3 = .ok os ∧
      os.length = 4) ∧
    ∃ err, Successor.successors observed (b.scenario.statementsFor press) 3 = .error err := by
  obtain ⟨b, hb, hrules⟩ : ∃ b, problem.toBatch = .ok b ∧ b.scenario.statements = rules :=
    Result.ok_of_toOption_map (by decide +kernel)
  have hfor (e : Event) : b.scenario.statementsFor e = rules.filter (·.appliesTo e) := by
    rw [Scenario.statementsFor, hrules]
  have hshake := (Problem.successors_of_toBatch hb shake 3 observed).2.1
  have hpress := (Problem.successors_of_toBatch hb press 3 observed).2.2
  rw [hfor] at hshake hpress
  refine ⟨b, hb, ?_, ?_⟩
  · rw [hfor]
    obtain ⟨os, hos, _⟩ : ∃ os, Successor.successors observed
        (rules.filter (·.appliesTo shake)) 3 = .ok os ∧ os.isEmpty = false :=
      Result.ok_of_toOption_map (by decide +kernel)
    have hreleased :
        (Successor.releasedOn observed (rules.filter (·.appliesTo shake))).size = 2 := by
      decide +kernel
    have hlength := ((hshake os hos).2 ⟨putsOut shake, by decide, rfl⟩).2
    exact ⟨os, hos, by rw [hlength, hreleased]⟩
  · rw [hfor]
    exact hpress lights (by decide) (putsOut press) (by decide) rfl rfl ⟨"lit"⟩
      ⟨_, rfl, List.mem_singleton_self _⟩ ⟨_, rfl, List.mem_singleton_self _⟩

end ShakenLamp

end Chronicle
