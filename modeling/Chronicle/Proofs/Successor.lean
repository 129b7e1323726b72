import Chronicle.Successor
import Chronicle.Proofs.Merge
import Chronicle.Proofs.Valuation

namespace Chronicle

/-- The condition of the statement holds. -/
def Statement.TriggeredOn (s : Statement) (o : Valuation) : Prop := o.eval s.condition = .ok true

/-- What may follow an observation when an event of these statements fires: the triggered effects
hold, and only their atoms and the fluents released may change. -/
structure Outcome (rules : List Statement) (o o' : Valuation) : Prop where
  fluents : ∀ f, f ∈ o' ↔ f ∈ o
  effects : ∀ s ∈ rules, s.TriggeredOn o → ∀ F, s.consequence = .causes F → o'.eval F = .ok true
  inertia : ∀ f, (∀ s ∈ rules, s.TriggeredOn o →
    (∀ F, s.consequence = .causes F → f ∉ F.atoms) ∧ s.consequence ≠ .releases f) →
    o'.get? f = o.get? f

namespace Successor

theorem triggered_eq_filter {o : Valuation} {rules fired : List Statement}
    (h : triggered o rules = .ok fired) :
    fired = rules.filter fun s => s.condition.isTrueOn o := by
  induction rules generalizing fired with
  | nil => exact (Except.ok.inj h).symm
  | cons r rest ih =>
    obtain ⟨b, hb, hr⟩ := (Result.bind_eq_ok _ _ _).mp h
    obtain ⟨more, hm, hp⟩ := (Result.bind_eq_ok _ _ _).mp hr
    have hholds : r.condition.isTrueOn o = b := Formula.isTrueOn_of_eval hb
    rw [List.filter_cons, hholds, ← ih hm]
    exact (Except.ok.inj hp).symm

theorem mem_filter_triggered (o : Valuation) (rules : List Statement) (s : Statement) :
    s ∈ rules.filter (fun s => s.condition.isTrueOn o) ↔ s ∈ rules ∧ s.TriggeredOn o := by
  rw [List.mem_filter, Formula.isTrueOn_iff, Statement.TriggeredOn]

theorem triggered_eq_ok {o : Valuation} {rules fired : List Statement}
    (h : triggered o rules = .ok fired) (s : Statement) :
    s ∈ fired ↔ s ∈ rules ∧ s.TriggeredOn o := by
  rw [triggered_eq_filter h, mem_filter_triggered]

/-- The candidates are the valuations of the atoms of an effect and of the fluents branched on
that make the effect true, each listed once. -/
structure Candidates (E : Formula) (branched : List Fluent) (cs : List Valuation) : Prop where
  nodup : cs.Nodup
  mem_iff : ∀ c, c ∈ cs ↔ (∀ f, f ∈ c ↔ f ∈ E.atoms ∨ f ∈ branched) ∧ c.eval E = .ok true

theorem candidates_models {E : Formula} {atomLimit : Nat} {ws : List Valuation}
    (h : E.models atomLimit = .ok ws) : Candidates E [] ws := by
  constructor
  · exact Formula.models_nodup h
  · intro c
    rw [Formula.mem_models h, SortedMap.keys_eq_iff]
    simp only [List.not_mem_nil, or_false]

theorem eval_insert (v : Valuation) (E : Formula) {f : Fluent} (hf : f ∉ E.atoms) (b : Bool) :
    Valuation.eval (v.insert f b) E = v.eval E := by
  apply Valuation.eval_congr
  intro g hg
  have hne : g ≠ f := fun he => hf (he ▸ hg)
  rw [SortedMap.get?_insert, if_neg hne]

theorem insert_inj {v w : Valuation} {f : Fluent} (hv : f ∉ v) (hw : f ∉ w) {b c : Bool}
    (h : v.insert f b = w.insert f c) : v = w ∧ b = c := by
  have hg (g : Fluent) := congrArg (·.get? g) h
  simp only [SortedMap.get?_insert] at hg
  constructor
  · apply SortedMap.ext_get?
    intro g
    by_cases hgf : g = f
    · rw [hgf, SortedMap.get?_eq_none.mpr hv, SortedMap.get?_eq_none.mpr hw]
    · simpa [hgf] using hg g
  · simpa using hg f

/-- Each candidate, once with a further fluent true and once with it false. -/
def forked (f : Fluent) (cs : List Valuation) : List Valuation :=
  cs.flatMap fun c => [c.insert f true, c.insert f false]

theorem mem_forked (f : Fluent) (cs : List Valuation) (c : Valuation) :
    c ∈ forked f cs ↔ ∃ d ∈ cs, ∃ b, c = d.insert f b := by
  simp [forked, List.mem_flatMap, or_comm]

theorem length_forked (f : Fluent) (cs : List Valuation) :
    (forked f cs).length = cs.length * 2 := by
  simp [forked, List.length_flatMap]

theorem forked_nodup {f : Fluent} {cs : List Valuation} (hn : cs.Nodup) (hout : ∀ c ∈ cs, f ∉ c) :
    (forked f cs).Nodup := by
  rw [forked, List.nodup_flatMap]
  constructor
  · intro c hc
    have hne : c.insert f true ≠ c.insert f false := fun he =>
      absurd (insert_inj (hout c hc) (hout c hc) he).2 (by decide)
    simp [hne]
  · apply hn.imp_of_mem
    intro c d hc hd hne
    have hins (x y : Bool) : c.insert f x ≠ d.insert f y := fun he =>
      hne (insert_inj (hout c hc) (hout d hd) he).1
    apply List.disjoint_left.mpr
    simp [hins]

theorem Candidates.branch {E : Formula} {branched : List Fluent} {cs : List Valuation}
    (h : Candidates E branched cs) {f : Fluent} (hE : f ∉ E.atoms) (hb : f ∉ branched) :
    Candidates E (f :: branched) (forked f cs) := by
  have hout : ∀ c ∈ cs, f ∉ c := by
    intro c hc hf
    exact ((((h.mem_iff c).mp hc).1 f).mp hf).elim hE hb
  refine ⟨forked_nodup h.nodup hout, ?_⟩
  intro c
  rw [mem_forked]
  constructor
  · intro hc
    obtain ⟨d, hd, b, rfl⟩ := hc
    obtain ⟨hk, ht⟩ := (h.mem_iff d).mp hd
    constructor
    · intro g
      simp only [SortedMap.mem_insert, hk, List.mem_cons]
      tauto
    · rw [eval_insert d E hE, ht]
  · intro hc
    obtain ⟨hk, ht⟩ := hc
    obtain ⟨b, hfb⟩ := SortedMap.exists_get? ((hk f).mpr (by simp))
    obtain ⟨d, rfl, hd⟩ := SortedMap.exists_eq_insert hfb
    refine ⟨d, (h.mem_iff d).mpr ⟨?_, ?_⟩, b, rfl⟩
    · intro g
      rw [hd, hk, List.mem_cons]
      by_cases hg : g = f
      · simp [hg, hE, hb]
      · simp [hg]
    · rw [← eval_insert d E hE b, ht]

/-- Branching on released fluents keeps the enumeration complete and without repetition. -/
theorem branch_eq_ok {E : Formula} {limit : Nat} {branched released : List Fluent}
    {cs out : List Valuation} (h : branch E.atoms limit branched released cs = .ok out)
    (hc : Candidates E branched cs) :
    (∀ f ∈ released, f ∉ E.atoms) ∧
    ∃ new, new.Nodup ∧ (∀ f, f ∈ new ↔ f ∈ released ∧ f ∉ branched) ∧
      Candidates E (new ++ branched) out ∧ out.length = cs.length * Nat.pow 2 new.length ∧
      (E.atoms.size + branched.length ≤ limit →
        E.atoms.size + (branched.length + new.length) ≤ limit) := by
  induction released generalizing branched cs with
  | nil =>
    have he : cs = out := Except.ok.inj h
    exact ⟨by simp, [], by simp, by simp, he ▸ hc, by simp [he], id⟩
  | cons f rest ih =>
    unfold branch at h
    split at h
    case isTrue => simp at h
    case isFalse hE =>
      split at h
      case isTrue hb =>
        obtain ⟨hr, new, hn, hm, hout⟩ := ih h hc
        refine ⟨List.forall_mem_cons.mpr ⟨hE, hr⟩, new, hn, ?_, hout⟩
        intro g
        rw [hm, List.mem_cons]
        by_cases hg : g = f
        · simp [hg, hb]
        · simp [hg]
      case isFalse hb =>
        split at h
        case isTrue => simp at h
        case isFalse hcount =>
          rw [← forked] at h
          obtain ⟨hr, new, hn, hm, hout, hl, hwithin⟩ := ih h (hc.branch hE hb)
          have hf : f ∉ new := fun hf => ((hm f).mp hf).2 (by simp)
          refine ⟨List.forall_mem_cons.mpr ⟨hE, hr⟩, new ++ [f], ?_, ?_, ?_, ?_, ?_⟩
          · simpa [List.nodup_append] using ⟨hn, fun g hg he => hf (he ▸ hg)⟩
          · intro g
            rw [List.mem_append, hm, List.mem_singleton, List.mem_cons, List.mem_cons]
            by_cases hg : g = f
            · simp [hg, hb]
            · simp [hg]
          · simpa using hout
          · rw [hl, length_forked, List.length_append, List.length_singleton, Nat.mul_assoc]
            exact congrArg _ Nat.pow_succ'.symm
          · intro _
            have hnext := hwithin (Nat.le_of_not_gt hcount)
            simp only [List.length_append, List.length_cons, List.length_nil] at hnext ⊢
            omega

theorem branch_ne_nil {E : Formula} {limit : Nat} {branched released : List Fluent}
    {cs out : List Valuation} (h : branch E.atoms limit branched released cs = .ok out)
    (hc : Candidates E branched cs) (hne : cs ≠ []) : out ≠ [] := by
  obtain ⟨_, new, _, _, _, hl, _⟩ := branch_eq_ok h hc
  have hpos : 0 < cs.length * Nat.pow 2 new.length :=
    Nat.mul_pos (List.length_pos_iff.mpr hne) (Nat.pow_pos (by decide))
  exact List.length_pos_iff.mp (hl ▸ hpos)

/-- The conjunction of the triggered effects. -/
def combined (fired : List Statement) : Formula := .conjunction (fired.filterMap Statement.effect?)

def released (fired : List Statement) : List Fluent := fired.filterMap Statement.released?

theorem mem_effects (fired : List Statement) (F : Formula) :
    F ∈ fired.filterMap Statement.effect? ↔ ∃ s ∈ fired, s.consequence = .causes F := by
  rw [List.mem_filterMap]
  apply exists_congr
  intro s
  apply and_congr_right
  intro _
  rw [Statement.effect?]
  cases s.consequence <;> simp

theorem mem_released (fired : List Statement) (f : Fluent) :
    f ∈ released fired ↔ ∃ s ∈ fired, s.consequence = .releases f := by
  rw [released, List.mem_filterMap]
  apply exists_congr
  intro s
  apply and_congr_right
  intro _
  rw [Statement.released?]
  cases s.consequence <;> simp

/-- All that resolving can do when it succeeds. -/
theorem successors_eq_ok {o : Valuation} {rules : List Statement} {atomLimit : Nat}
    {os : List Valuation} (h : successors o rules atomLimit = .ok os) :
    ∃ fired, triggered o rules = .ok fired ∧ (fired = [] ∧ os = [] ∨
      fired ≠ [] ∧ ∃ ws cs, (combined fired).models atomLimit = .ok ws ∧ ws ≠ [] ∧
        branch (combined fired).atoms (effectiveLimit atomLimit) [] (released fired) ws = .ok cs ∧
        List.Forall₂ (fun c o' => o.merge c.entries = .ok o') cs os) := by
  obtain ⟨fired, hf, h⟩ := (Result.bind_eq_ok _ _ _).mp h
  refine ⟨fired, (Result.mapError_eq_ok _ _ _).mp hf, ?_⟩
  cases fired with
  | nil =>
    left
    exact ⟨rfl, (Except.ok.inj h).symm⟩
  | cons s rest =>
    right
    refine ⟨List.cons_ne_nil s rest, ?_⟩
    obtain ⟨ws, hw, h⟩ := (Result.bind_eq_ok _ _ _).mp h
    cases ws with
    | nil => cases h
    | cons w ws =>
      obtain ⟨cs, hc, h⟩ := (Result.bind_eq_ok _ _ _).mp h
      have hm := (Result.mapM_eq_ok _ _ _).mp ((Result.mapError_eq_ok _ _ _).mp h)
      exact ⟨w :: ws, cs, hw, List.cons_ne_nil w ws, hc, hm⟩

theorem eval_combined (fired : List Statement) (o : Valuation) :
    o.eval (combined fired) = .ok true ↔
      ∀ s ∈ fired, ∀ F, s.consequence = .causes F → o.eval F = .ok true := by
  simp only [Valuation.eval_eq_ok, combined, Formula.eval_conjunction, mem_effects]
  constructor
  · intro h s hs F hF
    exact h F ⟨s, hs, hF⟩
  · intro h F hF
    obtain ⟨s, hs, hF⟩ := hF
    exact h s hs F hF

theorem mem_atoms_combined (fired : List Statement) (f : Fluent) :
    f ∈ (combined fired).atoms ↔ ∃ s ∈ fired, ∃ F, s.consequence = .causes F ∧ f ∈ F.atoms := by
  simp only [combined, Formula.mem_atoms_conjunction, mem_effects]
  constructor
  · intro h
    obtain ⟨F, ⟨s, hs, hF⟩, hf⟩ := h
    exact ⟨s, hs, F, hF, hf⟩
  · intro h
    obtain ⟨s, hs, F, hF, hf⟩ := h
    exact ⟨F, ⟨s, hs, hF⟩, hf⟩

/-- An outcome in terms of the combined effect and of the fluents that are fixed or released. -/
theorem outcome_iff {o : Valuation} {rules fired : List Statement}
    (h : ∀ s, s ∈ fired ↔ s ∈ rules ∧ s.TriggeredOn o) (o' : Valuation) :
    Outcome rules o o' ↔ (∀ f, f ∈ o' ↔ f ∈ o) ∧ o'.eval (combined fired) = .ok true ∧
      ∀ f, f ∉ (combined fired).atoms → f ∉ released fired → o'.get? f = o.get? f := by
  have hkept (f : Fluent) : (∀ s ∈ rules, s.TriggeredOn o →
      (∀ F, s.consequence = .causes F → f ∉ F.atoms) ∧ s.consequence ≠ .releases f) ↔
      f ∉ (combined fired).atoms ∧ f ∉ released fired := by
    rw [mem_atoms_combined, mem_released]
    constructor
    · intro hs
      constructor
      · intro hm
        obtain ⟨s, hs', F, hF, hf⟩ := hm
        exact (hs s ((h s).mp hs').1 ((h s).mp hs').2).1 F hF hf
      · intro hm
        obtain ⟨s, hs', hF⟩ := hm
        exact (hs s ((h s).mp hs').1 ((h s).mp hs').2).2 hF
    · intro hn s hs ht
      have hf := (h s).mpr ⟨hs, ht⟩
      exact ⟨fun F hF hm => hn.1 ⟨s, hf, F, hF, hm⟩, fun hF => hn.2 ⟨s, hf, hF⟩⟩
  rw [eval_combined]
  constructor
  · intro ho
    refine ⟨ho.fluents, ?_, fun f hE hr => ho.inertia f ((hkept f).mpr ⟨hE, hr⟩)⟩
    intro s hs F hF
    exact ho.effects s ((h s).mp hs).1 ((h s).mp hs).2 F hF
  · intro ho
    obtain ⟨hk, hE, hi⟩ := ho
    refine ⟨hk, ?_, fun f hf => hi f ((hkept f).mp hf).1 ((hkept f).mp hf).2⟩
    intro s hs ht F hF
    exact hE s ((h s).mpr ⟨hs, ht⟩) F hF

theorem merged_eq {o : Valuation} {cs os : List Valuation}
    (h : List.Forall₂ (fun c o' => o.merge c.entries = .ok o') cs os) :
    (∀ c ∈ cs, ∀ f ∈ c, f ∈ o) ∧ os = cs.map fun c => o.update c.entries := by
  induction h with
  | nil => simp
  | cons hm _ ih =>
    obtain ⟨hd, he⟩ := (Valuation.merge_entries_eq_ok _ _ _).mp hm
    exact ⟨List.forall_mem_cons.mpr ⟨hd, ih.1⟩, by rw [List.map_cons, ← he, ← ih.2]⟩

section Merged

variable {E : Formula} {branched : List Fluent} {cs : List Valuation} {o : Valuation}

/-- The candidates merged into an observation are all valuations of its fluents on which the
effect is true and which keep what is not up for change. -/
theorem Candidates.mem_merged (h : Candidates E branched cs) (hne : cs ≠ [])
    (hd : ∀ c ∈ cs, ∀ f ∈ c, f ∈ o) (o' : Valuation) :
    o' ∈ cs.map (fun c => o.update c.entries) ↔ (∀ f, f ∈ o' ↔ f ∈ o) ∧ o'.eval E = .ok true ∧
      ∀ f, f ∉ E.atoms → f ∉ branched → o'.get? f = o.get? f := by
  have hchanged : ∀ f, f ∈ E.atoms ∨ f ∈ branched → f ∈ o := by
    intro f hf
    obtain ⟨c, hc⟩ := List.exists_mem_of_ne_nil cs hne
    exact hd c hc f ((((h.mem_iff c).mp hc).1 f).mpr hf)
  rw [List.mem_map]
  constructor
  · intro ho
    obtain ⟨c, hc, rfl⟩ := ho
    obtain ⟨hk, ht⟩ := (h.mem_iff c).mp hc
    have hin : ∀ f ∈ c, (o.update c.entries).get? f = c.get? f := by
      intro f hf
      obtain ⟨b, hb⟩ := SortedMap.exists_get? hf
      rw [Valuation.get?_update, hb]
      rfl
    refine ⟨?_, ?_, ?_⟩
    · intro f
      rw [← SortedMap.get?_isSome, Valuation.get?_update, Option.isSome_or, Bool.or_eq_true,
        SortedMap.get?_isSome, SortedMap.get?_isSome]
      exact or_iff_right_of_imp (hd c hc f)
    · rw [Valuation.eval_congr _ c E fun f hf => hin f ((hk f).mpr (.inl hf)), ht]
    · intro f hE hb
      have hf : f ∉ c := fun hf => ((hk f).mp hf).elim hE hb
      rw [Valuation.get?_update, SortedMap.get?_eq_none.mpr hf]
      rfl
  · intro ho
    obtain ⟨hk, ht, hi⟩ := ho
    let c : Valuation := o'.filterKeys fun f => decide (f ∈ E.atoms ∨ f ∈ branched)
    have hget (f : Fluent) : c.get? f = if f ∈ E.atoms ∨ f ∈ branched then o'.get? f else none := by
      simp [c, SortedMap.get?_filterKeys]
    refine ⟨c, (h.mem_iff c).mpr ⟨?_, ?_⟩, ?_⟩
    · intro f
      rw [SortedMap.mem_filterKeys, decide_eq_true_iff]
      exact ⟨fun hf => hf.2, fun hf => ⟨(hk f).mpr (hchanged f hf), hf⟩⟩
    · rw [Valuation.eval_congr c o' E fun f hf => by rw [hget, if_pos (.inl hf)], ht]
    · apply SortedMap.ext_get?
      intro f
      rw [Valuation.get?_update, hget]
      by_cases hf : f ∈ E.atoms ∨ f ∈ branched
      · obtain ⟨b, hb⟩ := SortedMap.exists_get? ((hk f).mpr (hchanged f hf))
        rw [if_pos hf, hb]
        rfl
      · rw [if_neg hf, hi f (fun h' => hf (.inl h')) (fun h' => hf (.inr h'))]
        rfl

theorem Candidates.merged_nodup (h : Candidates E branched cs) :
    (cs.map fun c => o.update c.entries).Nodup := by
  apply List.Nodup.map_on _ h.nodup
  intro c hc d hd he
  have hk := ((h.mem_iff c).mp hc).1
  have hk' := ((h.mem_iff d).mp hd).1
  apply SortedMap.ext_get?
  intro f
  have hf := congrArg (·.get? f) he
  simp only [Valuation.get?_update] at hf
  by_cases hm : f ∈ c
  · obtain ⟨b, hb⟩ := SortedMap.exists_get? hm
    obtain ⟨b', hb'⟩ := SortedMap.exists_get? ((hk' f).mpr ((hk f).mp hm))
    rw [hb, hb'] at hf ⊢
    exact hf
  · have hm' : f ∉ d := fun h' => hm ((hk f).mpr ((hk' f).mp h'))
    rw [SortedMap.get?_eq_none.mpr hm, SortedMap.get?_eq_none.mpr hm']

end Merged

section Successors

variable {o : Valuation} {rules : List Statement} {atomLimit : Nat} {os : List Valuation}

/-- Resolving gives nothing where nothing is triggered. Otherwise it merges into the observation
candidates of which there is at least one. -/
theorem successors_eq_merged (h : successors o rules atomLimit = .ok os) :
    ∃ fired, (∀ s, s ∈ fired ↔ s ∈ rules ∧ s.TriggeredOn o) ∧ (fired = [] ∧ os = [] ∨
      fired ≠ [] ∧ ∃ branched cs, (∀ f, f ∈ branched ↔ f ∈ released fired) ∧
        Candidates (combined fired) branched cs ∧ cs ≠ [] ∧ (∀ c ∈ cs, ∀ f ∈ c, f ∈ o) ∧
        os = cs.map fun c => o.update c.entries) := by
  obtain ⟨fired, hf, hout⟩ := successors_eq_ok h
  refine ⟨fired, triggered_eq_ok hf, ?_⟩
  rcases hout with hnone | ⟨hne, ws, cs, hw, hwne, hb, hms⟩
  · exact .inl hnone
  · obtain ⟨_, new, _, hmem, hc, _⟩ := branch_eq_ok hb (candidates_models hw)
    have hcs : cs ≠ [] := branch_ne_nil hb (candidates_models hw) hwne
    obtain ⟨hd, hos⟩ := merged_eq hms
    exact .inr ⟨hne, new ++ [], cs, by simp [hmem], hc, hcs, hd, hos⟩

theorem successors_eq_nil (h : successors o rules atomLimit = .ok os) :
    os = [] ↔ ∀ s ∈ rules, ¬ s.TriggeredOn o := by
  obtain ⟨fired, hm, hout⟩ := successors_eq_merged h
  have hnil : fired = [] ↔ ∀ s ∈ rules, ¬ s.TriggeredOn o := by
    simp only [List.eq_nil_iff_forall_not_mem, hm, not_and]
  rw [← hnil]
  rcases hout with ⟨he, he'⟩ | ⟨hne, _, cs, _, _, hcs, _, rfl⟩
  · simp [he, he']
  · simp [hne, hcs]

/-- Resolving lists every outcome, and lists none twice. -/
theorem mem_successors (h : successors o rules atomLimit = .ok os)
    (ht : ∃ s ∈ rules, s.TriggeredOn o) (o' : Valuation) : o' ∈ os ↔ Outcome rules o o' := by
  obtain ⟨fired, hm, hout⟩ := successors_eq_merged h
  rw [outcome_iff hm]
  rcases hout with ⟨he, _⟩ | ⟨_, branched, cs, hb, hc, hcs, hd, rfl⟩
  · obtain ⟨s, hs, hs'⟩ := ht
    have hin := (hm s).mpr ⟨hs, hs'⟩
    simp [he] at hin
  · rw [hc.mem_merged hcs hd]
    simp only [hb]

theorem successors_nodup (h : successors o rules atomLimit = .ok os) : os.Nodup := by
  obtain ⟨fired, _, hout⟩ := successors_eq_merged h
  rcases hout with ⟨_, he⟩ | ⟨_, branched, cs, _, hc, _, _, rfl⟩
  · simp [he]
  · exact hc.merged_nodup

end Successors

end Successor

end Chronicle
