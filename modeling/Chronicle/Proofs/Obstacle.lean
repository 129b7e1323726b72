import Chronicle.Proofs.Outcomes

/-!
Why resolving fails. Whichever failure is met first, it tells of something that is in the way for
every order of the statements, and nothing is in the way where resolving succeeds.
-/

namespace Chronicle

namespace Successor

theorem triggered_eq_error {o : Valuation} {rules : List Statement} {err : LogicError}
    (h : triggered o rules = .error err) :
    ∃ s ∈ rules, ∃ f ∈ s.condition.atoms, f ∉ o ∧ err = .lookup f := by
  induction rules with
  | nil => cases h
  | cons r rest ih =>
    rcases (Result.bind_eq_error _ _ _).mp h with hr | ⟨_, _, h⟩
    · exact ⟨r, List.mem_cons_self, Valuation.eval_eq_error hr⟩
    · rcases (Result.bind_eq_error _ _ _).mp h with hrest | ⟨_, _, hpure⟩
      · obtain ⟨s, hs, hmissing⟩ := ih hrest
        exact ⟨s, List.mem_cons_of_mem r hs, hmissing⟩
      · cases hpure

theorem valued_of_triggered {o : Valuation} {rules fired : List Statement}
    (h : triggered o rules = .ok fired) : ∀ s ∈ rules, ∀ f ∈ s.condition.atoms, f ∈ o := by
  induction rules generalizing fired with
  | nil => simp
  | cons r rest ih =>
    obtain ⟨b, hb, h⟩ := (Result.bind_eq_ok _ _ _).mp h
    obtain ⟨more, hmore, _⟩ := (Result.bind_eq_ok _ _ _).mp h
    exact List.forall_mem_cons.mpr ⟨(o.eval_isOk r.condition).mp ⟨b, hb⟩, ih hmore⟩

/-- Branching fails at a fluent that is fixed, or where those branched on become too many. -/
theorem branch_eq_error {fixed : FluentSet} {limit : Nat} {branched released : List Fluent}
    {cs : List Valuation} {err : Error} (h : branch fixed limit branched released cs = .error err) :
    (∃ f ∈ released, f ∈ fixed ∧ err = .logic (.effectReleaseConflict f)) ∨
    ∃ new : List Fluent, new.Nodup ∧ (∀ f ∈ new, f ∈ released ∧ f ∉ branched) ∧
      limit < fixed.size + (branched.length + new.length) ∧
      err = .limit (.atoms (fixed.size + (branched.length + new.length)) limit) := by
  induction released generalizing branched cs with
  | nil => cases h
  | cons f rest ih =>
    rw [branch] at h
    split at h
    case isTrue hf => exact .inl ⟨f, List.mem_cons_self, hf, (Except.error.inj h).symm⟩
    case isFalse hf =>
      split at h
      case isTrue hb =>
        rcases ih h with ⟨g, hg, hclash⟩ | ⟨new, hn, hnew, hcount⟩
        · exact .inl ⟨g, List.mem_cons_of_mem f hg, hclash⟩
        · refine .inr ⟨new, hn, fun g hg => ?_, hcount⟩
          exact (hnew g hg).imp_left (List.mem_cons_of_mem f)
      case isFalse hb =>
        split at h
        case isTrue hcount =>
          exact .inr ⟨[f], List.nodup_singleton f, by simpa using hb, hcount,
            (Except.error.inj h).symm⟩
        case isFalse =>
          rcases ih h with ⟨g, hg, hclash⟩ | ⟨new, hn, hnew, hcount, rfl⟩
          · exact .inl ⟨g, List.mem_cons_of_mem f hg, hclash⟩
          · -- The fluents counted are those that the rest adds, and `f` before them.
            have hf : f ∉ new := fun hin => (hnew f hin).2 List.mem_cons_self
            have hlen : (f :: branched).length + new.length = branched.length + (f :: new).length := by
              simp only [List.length_cons]
              omega
            rw [hlen] at hcount ⊢
            refine .inr ⟨f :: new, List.nodup_cons.mpr ⟨hf, hn⟩, ?_, hcount, rfl⟩
            refine List.forall_mem_cons.mpr ⟨⟨List.mem_cons_self, hb⟩, fun g hg => ?_⟩
            obtain ⟨hrest, hout⟩ := hnew g hg
            exact ⟨List.mem_cons_of_mem f hrest, fun hin => hout (List.mem_cons_of_mem f hin)⟩

section Failed

variable {o : Valuation} {rules : List Statement} {atomLimit : Nat} {err : Error}

/-- All that resolving can do when it fails. -/
theorem successors_eq_error (h : successors o rules atomLimit = .error err) :
    (∃ e, triggered o rules = .error e ∧ .logic e = err) ∨
    ∃ fired, triggered o rules = .ok fired ∧ fired ≠ [] ∧
      ((combined fired).models atomLimit = .error err ∨
        ∃ ws, (combined fired).models atomLimit = .ok ws ∧
          (ws = [] ∧ err = .logic .contradictoryEffects ∨
            branch (combined fired).atoms (effectiveLimit atomLimit) [] (released fired) ws =
              .error err ∨
            ∃ cs, branch (combined fired).atoms (effectiveLimit atomLimit) [] (released fired) ws =
              .ok cs ∧ ∃ c ∈ cs, ∃ e, o.merge c.entries = .error e ∧ .logic e = err)) := by
  rcases (Result.bind_eq_error _ _ _).mp h with ht | ⟨fired, hfired, h⟩
  · exact .inl ((Result.mapError_eq_error _ _ _).mp ht)
  · refine .inr ⟨fired, (Result.mapError_eq_ok _ _ _).mp hfired, ?_⟩
    cases fired with
    | nil => cases h
    | cons s rest =>
      refine ⟨List.cons_ne_nil s rest, ?_⟩
      rcases (Result.bind_eq_error _ _ _).mp h with hw | ⟨ws, hw, h⟩
      · exact .inl hw
      · refine .inr ⟨ws, hw, ?_⟩
        cases ws with
        | nil => exact .inl ⟨rfl, (Except.error.inj h).symm⟩
        | cons w ws =>
          rcases (Result.bind_eq_error _ _ _).mp h with hb | ⟨cs, hb, h⟩
          · exact .inr (.inl hb)
          · obtain ⟨e, hmap, he⟩ := (Result.mapError_eq_error _ _ _).mp h
            obtain ⟨c, hc, hmerge⟩ := Result.exists_of_mapM_eq_error hmap
            exact .inr (.inr ⟨cs, hb, c, hc, e, hmerge, he⟩)

/-- What is in the way of resolving, and the failure that tells of it. -/
inductive Obstacle (o : Valuation) (rules : List Statement) (atomLimit : Nat) : Error → Prop
  | condition (s : Statement) (f : Fluent) (hs : s ∈ rules) (hf : f ∈ s.condition.atoms)
      (ho : f ∉ o) : Obstacle o rules atomLimit (.logic (.lookup f))
  | contradiction (ht : ∃ s ∈ rules, s.TriggeredOn o)
      (hE : ∀ w : Valuation, w.eval (effectOn o rules) ≠ .ok true) :
      Obstacle o rules atomLimit (.logic .contradictoryEffects)
  | conflict (f : Fluent) (ht : ∃ s ∈ rules, s.TriggeredOn o)
      (hE : f ∈ (effectOn o rules).atoms) (hR : f ∈ releasedOn o rules) :
      Obstacle o rules atomLimit (.logic (.effectReleaseConflict f))
  | excess (count : Nat) (ht : ∃ s ∈ rules, s.TriggeredOn o) (hlimit : min atomLimit 63 < count)
      (hcount : count ≤ (effectOn o rules).atoms.size + (releasedOn o rules).size) :
      Obstacle o rules atomLimit (.limit (.atoms count (min atomLimit 63)))
  | undefined (f : Fluent) (ht : ∃ s ∈ rules, s.TriggeredOn o)
      (hf : f ∈ (effectOn o rules).atoms ∨ f ∈ releasedOn o rules) (ho : f ∉ o) :
      Obstacle o rules atomLimit (.logic (.undefinedFluent f))

theorem length_le_releasedOn {new : List Fluent} (hn : new.Nodup)
    (hnew : ∀ f ∈ new, f ∈ released (rules.filter fun s => s.condition.isTrueOn o)) :
    new.length ≤ (releasedOn o rules).size := by
  rw [← SortedMap.length_keys]
  apply (List.subperm_of_subset hn _).length_le
  intro f hf
  rw [← SortedMap.mem_iff, mem_releasedOn_iff_released]
  exact hnew f hf

/-- Each failure tells the truth. -/
theorem obstacle_of_successors (h : successors o rules atomLimit = .error err) :
    Obstacle o rules atomLimit err := by
  rcases successors_eq_error h with ⟨e, htrig, rfl⟩ | ⟨fired, hfired, hne, hfail⟩
  · obtain ⟨s, hs, f, hf, ho, rfl⟩ := triggered_eq_error htrig
    exact .condition s f hs hf ho
  have ht : ∃ s ∈ rules, s.TriggeredOn o := by
    obtain ⟨s, hs⟩ := List.exists_mem_of_ne_nil fired hne
    exact ⟨s, (triggered_eq_ok hfired s).mp hs⟩
  obtain rfl := triggered_eq_filter hfired
  rw [← effectOn] at hfail
  rcases hfail with hmodels | ⟨ws, hw, ⟨rfl, rfl⟩ | hbranch | ⟨cs, hbranch, c, hc, e, hmerge, rfl⟩⟩
  · obtain ⟨hsize, rfl⟩ := (Formula.models_eq_error _ _ _).mp hmodels
    exact .excess _ ht hsize (Nat.le_add_right _ _)
  · -- A valuation that satisfies the effect would agree with one of its worlds.
    refine .contradiction ht fun w hw' => ?_
    obtain ⟨_, hmem, _⟩ := (Valuation.agrees_models hw w).mpr hw'
    exact List.not_mem_nil hmem
  · rcases branch_eq_error hbranch with ⟨f, hf, hE, rfl⟩ | ⟨new, hn, hnew, hcount, rfl⟩
    · exact .conflict f ht hE (mem_releasedOn_iff_released.mpr hf)
    · have hle := length_le_releasedOn hn fun f hf => (hnew f hf).1
      refine .excess _ ht hcount ?_
      rw [List.length_nil, Nat.zero_add]
      exact Nat.add_le_add_left hle _
  · obtain ⟨f, hf, ho, rfl⟩ := Valuation.merge_entries_eq_error hmerge
    obtain ⟨_, new, _, hnew, hcs, _⟩ := branch_eq_ok hbranch (candidates_models hw)
    refine .undefined f ht ?_ ho
    refine (((hcs.mem_iff c).mp hc).1 f).mp hf |>.imp_right fun hin => ?_
    rw [List.append_nil, hnew] at hin
    exact mem_releasedOn_iff_released.mpr hin.1

/-- Resolving fails exactly if a condition mentions a fluent that the observation does not value, or
something is triggered and the effect cannot be satisfied, fixes a fluent that is released, or leaves
with the fluents released too many or one without a value. Each failure tells of such an obstacle,
and no fluent is ever given two values. -/
theorem successors_fails_iff (o : Valuation) (rules : List Statement) (atomLimit : Nat) :
    ((∃ err, successors o rules atomLimit = .error err) ↔
      (∃ s ∈ rules, ∃ f ∈ s.condition.atoms, f ∉ o) ∨
      (∃ s ∈ rules, s.TriggeredOn o) ∧
        ((∀ w : Valuation, w.eval (effectOn o rules) ≠ .ok true) ∨
          (∃ f ∈ (effectOn o rules).atoms, f ∈ releasedOn o rules) ∨
          min atomLimit 63 < (effectOn o rules).atoms.size + (releasedOn o rules).size ∨
          ∃ f, (f ∈ (effectOn o rules).atoms ∨ f ∈ releasedOn o rules) ∧ f ∉ o)) ∧
    ∀ err, successors o rules atomLimit = .error err →
      Obstacle o rules atomLimit err ∧ ∀ f, err ≠ .logic (.duplicateAssignment f) := by
  refine ⟨⟨?_, ?_⟩, ?_⟩
  · intro h
    obtain ⟨err, h⟩ := h
    cases obstacle_of_successors h with
    | condition s f hs hf ho => exact .inl ⟨s, hs, f, hf, ho⟩
    | contradiction ht hE => exact .inr ⟨ht, .inl hE⟩
    | conflict f ht hE hR => exact .inr ⟨ht, .inr (.inl ⟨f, hE, hR⟩)⟩
    | excess count ht hlimit hcount =>
      exact .inr ⟨ht, .inr (.inr (.inl (Nat.lt_of_lt_of_le hlimit hcount)))⟩
    | undefined f ht hf ho => exact .inr ⟨ht, .inr (.inr (.inr ⟨f, hf, ho⟩))⟩
  · intro h
    cases hs : successors o rules atomLimit with
    | error err => exact ⟨err, rfl⟩
    | ok os =>
      exfalso
      rcases h with ⟨s, hs', f, hf, ho⟩ | ⟨ht, h⟩
      · obtain ⟨fired, hfired, _⟩ := successors_eq_ok hs
        exact ho (valued_of_triggered hfired s hs' f hf)
      · obtain ⟨hres, _⟩ := resolved_of_successors hs ht
        rcases h with hE | ⟨f, hE, hR⟩ | hcount | ⟨f, hf, ho⟩
        · obtain ⟨w, hw⟩ := hres.satisfiable
          exact hE w hw
        · exact hres.apart f hR hE
        · exact absurd hres.within (Nat.not_le_of_lt hcount)
        · exact ho (hres.valued f hf)
  · intro err h
    have hobstacle := obstacle_of_successors h
    refine ⟨hobstacle, ?_⟩
    rintro f rfl
    cases hobstacle

end Failed

end Successor

namespace PressedLamp

def press : Event := ⟨⟨"press"⟩, none⟩

/-- A press is to light the lamp, and to leave it open whether the lamp is lit. -/
def rules : List Statement :=
  [⟨press, .top, .causes (.atom ⟨"lit"⟩)⟩, ⟨press, .top, .releases ⟨"lit"⟩⟩]

def observed : Valuation := .allFalse [⟨"lit"⟩]

theorem press_fails : ∃ err, Successor.successors observed rules 20 = .error err ∧
    Successor.Obstacle observed rules 20 err := by
  have hboth : (⟨"lit"⟩ : Fluent) ∈ (Successor.effectOn observed rules).atoms ∧
      ⟨"lit"⟩ ∈ Successor.releasedOn observed rules := by decide +kernel
  obtain ⟨hfails, htruth⟩ := Successor.successors_fails_iff observed rules 20
  obtain ⟨err, herr⟩ :=
    hfails.mpr (.inr ⟨⟨_, List.mem_cons_self, rfl⟩, .inr (.inl ⟨_, hboth.1, hboth.2⟩)⟩)
  exact ⟨err, herr, (htruth err herr).1⟩

end PressedLamp

end Chronicle
