import Chronicle.Proofs.Successor
import Mathlib.Data.Set.Card

/-!
What resolving comes to, said of the triggered statements as a whole: one effect to satisfy and one
set of fluents to leave open. Every way to do both is listed, and listed once.
-/

namespace Chronicle

namespace Formula

/-- The valuations of the atoms, and of nothing else, on which the formula is true. -/
def worlds (F : Formula) : Set Valuation :=
  {w | (∀ f, f ∈ w ↔ f ∈ F.atoms) ∧ w.eval F = .ok true}

theorem ncard_worlds {F : Formula} {atomLimit : Nat} {ws : List Valuation}
    (h : F.models atomLimit = .ok ws) : F.worlds.ncard = ws.length := by
  have hset : F.worlds = (ws.toFinset : Set Valuation) := by
    ext w
    rw [List.coe_toFinset, Set.mem_ofPred_eq, mem_models h, SortedMap.keys_eq_iff]
    exact Iff.rfl
  rw [hset, Set.ncard_coe_finset, List.toFinset_card_of_nodup (models_nodup h)]

end Formula

namespace Successor

/-- The conjunction of the effects of triggered statements. -/
def effectOn (o : Valuation) (rules : List Statement) : Formula :=
  combined (rules.filter fun s => s.condition.isTrueOn o)

/-- The fluents that triggered statements release. -/
def releasedOn (o : Valuation) (rules : List Statement) : FluentSet :=
  .ofList (released (rules.filter fun s => s.condition.isTrueOn o))

theorem mem_releasedOn_iff_released {o : Valuation} {rules : List Statement} {f : Fluent} :
    f ∈ releasedOn o rules ↔ f ∈ released (rules.filter fun s => s.condition.isTrueOn o) :=
  FluentSet.mem_ofList _ f

/-- The triggered statements can be followed together: their effect can be satisfied, it fixes no
fluent that is released, and what may change is not too much to enumerate and has a value. -/
structure Resolvable (o : Valuation) (rules : List Statement) (atomLimit : Nat) : Prop where
  satisfiable : ∃ w : Valuation, w.eval (effectOn o rules) = .ok true
  apart : ∀ f ∈ releasedOn o rules, f ∉ (effectOn o rules).atoms
  within : (effectOn o rules).atoms.size + (releasedOn o rules).size ≤ min atomLimit 63
  valued : ∀ f, f ∈ (effectOn o rules).atoms ∨ f ∈ releasedOn o rules → f ∈ o

section Resolved

variable {o : Valuation} {rules : List Statement} {atomLimit : Nat} {os : List Valuation}

theorem perm_releasedOn {new : List Fluent} (hn : new.Nodup)
    (hmem : ∀ f, f ∈ new ↔ f ∈ released (rules.filter fun s => s.condition.isTrueOn o)) :
    new.Perm (releasedOn o rules).keys := by
  rw [List.perm_ext_iff_of_nodup hn (SortedMap.keys_nodup _)]
  intro f
  rw [hmem, ← SortedMap.mem_iff, mem_releasedOn_iff_released]

/-- Where resolving succeeds and something is triggered, there is a successor for each world of the
effect and each way to value the fluents released. -/
theorem resolved_of_successors (h : successors o rules atomLimit = .ok os)
    (ht : ∃ s ∈ rules, s.TriggeredOn o) :
    Resolvable o rules atomLimit ∧ ∃ ws, (effectOn o rules).models atomLimit = .ok ws ∧ ws ≠ [] ∧
      os.length = ws.length * Nat.pow 2 (releasedOn o rules).size := by
  obtain ⟨fired, hfired, hout⟩ := successors_eq_ok h
  have hmem := triggered_eq_ok hfired
  obtain rfl := triggered_eq_filter hfired
  rcases hout with ⟨hnone, _⟩ | ⟨_, ws, cs, hw, hne, hbranch, hmerge⟩
  · obtain ⟨s, hs⟩ := ht
    have hin := (hmem s).mpr hs
    rw [hnone] at hin
    exact absurd hin List.not_mem_nil
  · rw [← effectOn] at hw hbranch
    obtain ⟨hapart, new, hn, hnew, hc, hl, hwithin⟩ := branch_eq_ok hbranch (candidates_models hw)
    obtain ⟨hvalued, _⟩ := merged_eq hmerge
    have hperm : new.Perm (releasedOn o rules).keys := perm_releasedOn hn (by simpa using hnew)
    have hlen : new.length = (releasedOn o rules).size := by
      rw [hperm.length_eq, SortedMap.length_keys]
    have hcs : cs ≠ [] := branch_ne_nil hbranch (candidates_models hw) hne
    refine ⟨⟨?_, ?_, ?_, ?_⟩, ws, hw, hne, by rw [← hmerge.length_eq, hl, hlen]⟩
    · obtain ⟨w, hw'⟩ := List.exists_mem_of_ne_nil ws hne
      exact ⟨w, ((Formula.mem_models hw w).mp hw').2⟩
    · intro f hf
      exact hapart f (mem_releasedOn_iff_released.mp hf)
    · have hsize := ((Formula.models_eq_ok _ _ _).mp hw).1
      have hsum := hwithin (by simpa using hsize)
      rwa [List.length_nil, Nat.zero_add, hlen] at hsum
    · -- Any candidate values all that may change, and it has been merged without a failure.
      intro f hf
      obtain ⟨c, hc'⟩ := List.exists_mem_of_ne_nil cs hcs
      refine hvalued c hc' f ((((hc.mem_iff c).mp hc').1 f).mpr (hf.imp_right fun hr => ?_))
      rw [List.append_nil]
      exact hperm.mem_iff.mpr hr

/-- Resolving gives nothing where nothing is triggered. Otherwise it lists, each once, the
observations of the same fluents on which the effect is true and which keep all that it does not
fix and that is not released. There is one for each world of the effect and each way to value the
fluents released. -/
theorem successors_spec (h : successors o rules atomLimit = .ok os) :
    ((∀ s ∈ rules, ¬ s.TriggeredOn o) → os = []) ∧
    ((∃ s ∈ rules, s.TriggeredOn o) → os.Nodup ∧
      (∀ o', o' ∈ os ↔ (∀ f, f ∈ o' ↔ f ∈ o) ∧ o'.eval (effectOn o rules) = .ok true ∧
        ∀ f, f ∉ (effectOn o rules).atoms → f ∉ releasedOn o rules → o'.get? f = o.get? f) ∧
      os.length = (effectOn o rules).worlds.ncard * Nat.pow 2 (releasedOn o rules).size ∧
      os.length ≤ Nat.pow 2 (min atomLimit 63)) := by
  refine ⟨(successors_eq_nil h).mpr, ?_⟩
  intro ht
  obtain ⟨hres, ws, hw, _, hlen⟩ := resolved_of_successors h ht
  refine ⟨successors_nodup h, ?_, ?_, ?_⟩
  · intro o'
    rw [mem_successors h ht, outcome_iff (mem_filter_triggered o rules), ← effectOn]
    simp only [mem_releasedOn_iff_released]
  · rw [hlen, Formula.ncard_worlds hw]
  · calc os.length
      _ = ws.length * Nat.pow 2 (releasedOn o rules).size := hlen
      _ ≤ Nat.pow 2 (effectOn o rules).atoms.size * Nat.pow 2 (releasedOn o rules).size :=
        Nat.mul_le_mul_right _ (Formula.length_models_le hw)
      _ = Nat.pow 2 ((effectOn o rules).atoms.size + (releasedOn o rules).size) :=
        (Nat.pow_add 2 _ _).symm
      _ ≤ Nat.pow 2 (min atomLimit 63) := Nat.pow_le_pow_right (by decide) hres.within

end Resolved

end Successor

namespace KickedLamp

def kick : Event := ⟨⟨"kick"⟩, none⟩

/-- A kick lights the lamp or heats it, and may loosen it. A lamp that is lit may be lost too. -/
def rules : List Statement :=
  [⟨kick, .top, .causes (.binary .or (.atom ⟨"lit"⟩) (.atom ⟨"hot"⟩))⟩,
    ⟨kick, .top, .releases ⟨"loose"⟩⟩,
    ⟨kick, .atom ⟨"lit"⟩, .releases ⟨"lost"⟩⟩,
    ⟨kick, .neg (.atom ⟨"lit"⟩), .releases ⟨"loose"⟩⟩]

def observed : Valuation := .allFalse [⟨"lit"⟩, ⟨"hot"⟩, ⟨"loose"⟩, ⟨"lost"⟩]

/-- The lamp may be lit, hot or both, and each time loose or not. -/
theorem successors_of_kick : ∃ os, Successor.successors observed rules 3 = .ok os ∧
    os.Nodup ∧ os.length = 6 ∧ (Successor.effectOn observed rules).worlds.ncard = 3 := by
  obtain ⟨os, hos, hsix⟩ : ∃ os, Successor.successors observed rules 3 = .ok os ∧ os.length = 6 :=
    Result.ok_of_toOption_map (by decide +kernel)
  have hreleased : (Successor.releasedOn observed rules).size = 1 := by decide +kernel
  obtain ⟨hnodup, _, hlength, _⟩ :=
    (Successor.successors_spec hos).2 ⟨_, List.mem_cons_self, rfl⟩
  have htwo : Nat.pow 2 1 = 2 := rfl
  rw [hreleased, htwo] at hlength
  exact ⟨os, hos, hnodup, hsix, by omega⟩

end KickedLamp

end Chronicle
