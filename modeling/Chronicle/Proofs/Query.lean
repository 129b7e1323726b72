import Chronicle.Query
import Chronicle.Proofs.Search

/-!
What a query about a formula answers, in terms of the histories alone.
-/

namespace Chronicle

/-- The latest entry of a history at a time or before it. -/
structure IsLatest (p : History) (t : Time) (e : Entry) : Prop where
  mem : e ∈ p
  time_le : e.time ≤ t
  greatest : ∀ e' ∈ p, e'.time ≤ t → e'.time ≤ e.time

section Latest

variable {s : Scenario} {p : History} {t : Time} {e : Entry}

/-- What a history holds at a time does not depend on the entries after that. -/
theorem isLatest_append (p : History) {xs : List Entry} (h : ∀ x ∈ xs, t < x.time) (e : Entry) :
    IsLatest (p ++ xs) t e ↔ IsLatest p t e := by
  have hold : ∀ x ∈ p ++ xs, x.time ≤ t → x ∈ p := by
    intro x hx hle
    rcases List.mem_append.mp hx with hx | hx
    · exact hx
    · exact absurd hle (not_le_of_gt (h x hx))
  constructor
  · intro hl
    exact ⟨hold e hl.mem hl.time_le, hl.time_le,
      fun x hx hle => hl.greatest x (List.mem_append_left _ hx) hle⟩
  · intro hl
    exact ⟨List.mem_append_left _ hl.mem, hl.time_le,
      fun x hx hle => hl.greatest x (hold x hx hle) hle⟩

theorem isLatest_getLast (hord : p.Pairwise (·.time < ·.time)) (hl : p.getLast? = some e)
    (hle : e.time ≤ t) : IsLatest p t e := by
  obtain ⟨q, rfl⟩ := List.getLast?_eq_some_iff.mp hl
  refine ⟨by simp, hle, ?_⟩
  intro x hx _
  rcases List.mem_append.mp hx with hx | hx
  · exact le_of_lt ((List.pairwise_append.mp hord).2.2 x hx e (by simp))
  · rw [List.mem_singleton.mp hx]

/-- Of two entries in a row the first is the latest at any time from it to before the second. -/
theorem isLatest_of_between {xs ys : List Entry} {a b : Entry}
    (hord : (xs ++ a :: b :: ys).Pairwise (·.time < ·.time)) (ha : a.time ≤ t) (hb : t < b.time) :
    IsLatest (xs ++ a :: b :: ys) t a := by
  rw [List.append_cons] at hord ⊢
  have hsplit := List.pairwise_append.mp hord
  have hlater : ∀ y ∈ b :: ys, t < y.time := by
    intro y hy
    rcases List.mem_cons.mp hy with rfl | hy
    · exact hb
    · exact lt_trans hb ((List.pairwise_cons.mp hsplit.2.1).1 y hy)
  rw [isLatest_append _ hlater]
  exact isLatest_getLast hsplit.1 (by simp) ha

theorem isLatest_of_find? (hord : p.Pairwise (·.time < ·.time))
    (h : p.reverse.find? (·.time ≤ t) = some e) : IsLatest p t e := by
  obtain ⟨hle, as, bs, hsplit, has⟩ := List.find?_eq_some_iff_append.mp h
  have hp : p = (bs.reverse ++ [e]) ++ as.reverse := by
    rw [← List.reverse_reverse p, hsplit]
    simp
  have hafter : ∀ x ∈ as.reverse, t < x.time := by
    intro x hx
    simpa using has x (List.mem_reverse.mp hx)
  rw [hp] at hord ⊢
  rw [isLatest_append _ hafter]
  exact isLatest_getLast (List.pairwise_append.mp hord).1 (by simp) (by simpa using hle)

theorem IsLatest.unique (hord : p.Pairwise (·.time < ·.time)) {e' : Entry} (h : IsLatest p t e)
    (h' : IsLatest p t e') : e = e' := by
  have htime : e.time = e'.time :=
    le_antisymm (h'.greatest e h.mem h.time_le) (h.greatest e' h'.mem h'.time_le)
  have hnodup : (p.map Entry.time).Nodup := List.pairwise_map.mpr (hord.imp ne_of_lt)
  exact List.inj_on_of_nodup_map hnodup h.mem h'.mem htime

namespace Scenario

theorem Orderly.startTime_le (h : s.Orderly p) (he : e ∈ p) : s.startTime ≤ e.time := by
  obtain ⟨o, hfirst⟩ := h.first
  have hord := h.increasing
  cases p with
  | nil => simp at hfirst
  | cons e' p =>
    obtain rfl : e' = ⟨s.startTime, o, none⟩ := by simpa using hfirst
    rcases List.mem_cons.mp he with rfl | he
    · exact le_rfl
    · exact le_of_lt ((List.pairwise_cons.mp hord).1 e he)

/-- Before the start a history has no entry. -/
theorem Orderly.find?_before (h : s.Orderly p) (ht : t < s.startTime) :
    p.reverse.find? (·.time ≤ t) = none := by
  rw [List.find?_eq_none]
  intro e he
  have hle := h.startTime_le (List.mem_reverse.mp he)
  simpa using lt_of_lt_of_le ht hle

/-- From the start on a history has a latest entry. -/
theorem Orderly.find?_from (h : s.Orderly p) (ht : s.startTime ≤ t) :
    ∃ e, p.reverse.find? (·.time ≤ t) = some e ∧ IsLatest p t e := by
  obtain ⟨o, hfirst⟩ := h.first
  have hmem : ⟨s.startTime, o, none⟩ ∈ p.reverse :=
    List.mem_reverse.mpr (List.mem_of_mem_head? hfirst)
  have hsome : (p.reverse.find? (·.time ≤ t)).isSome := by
    rw [List.find?_isSome]
    exact ⟨_, hmem, by simpa using ht⟩
  obtain ⟨e, he⟩ := Option.isSome_iff_exists.mp hsome
  exact ⟨e, he, isLatest_of_find? h.increasing he⟩

theorem Orderly.existsUnique_latest (h : s.Orderly p) (ht : s.startTime ≤ t) :
    ∃! e, IsLatest p t e := by
  obtain ⟨e, _, he⟩ := h.find?_from ht
  exact ⟨e, he, fun e' he' => he'.unique h.increasing he⟩

end Scenario

end Latest

/-- A formula is true on the latest entry at a time or before it. -/
def TrueAt (F : Formula) (t : Time) (p : History) : Prop :=
  ∃ e, IsLatest p t e ∧ e.observation.eval F = .ok true

/-- A property is had by every history, or by at least one. -/
def Mode.Holds (mode : Mode) (P : History → Prop) (ps : List History) : Prop :=
  match mode with
  | .necessary => ∀ p ∈ ps, P p
  | .possible => ∃ p ∈ ps, P p

namespace Run

section Survey

variable {r : Run} {worlds : List Valuation} {t : Time} {ks : List NodeId}

theorem survey_before (hne : ks ≠ [])
    (h : ∀ k ∈ ks, (r.forest.path k).reverse.find? (·.time ≤ t) = none) (all any : Bool) :
    r.survey worlds t all any ks = .ok none := by
  cases ks with
  | nil => exact absurd rfl hne
  | cons k ks =>
    have hk := h k List.mem_cons_self
    rw [← Forest.latestAt_eq] at hk
    simp [survey, hk]

/-- Where each history can be compared with the worlds, the survey counts those that fit. -/
theorem survey_of_compatible {P : History → Prop}
    (h : ∀ k ∈ ks, ∃ e b, (r.forest.path k).reverse.find? (·.time ≤ t) = some e ∧
      e.observation.compatible worlds = .ok b ∧ (b = true ↔ P (r.forest.path k)))
    (all any : Bool) : ∃ a b, r.survey worlds t all any ks = .ok (some (a, b)) ∧
      (a = true ↔ all = true ∧ ∀ k ∈ ks, P (r.forest.path k)) ∧
      (b = true ↔ any = true ∨ ∃ k ∈ ks, P (r.forest.path k)) := by
  induction ks generalizing all any with
  | nil => exact ⟨all, any, rfl, by simp, by simp⟩
  | cons k ks ih =>
    obtain ⟨⟨e, c, he, hc, hP⟩, hrest⟩ := List.forall_mem_cons.mp h
    rw [← Forest.latestAt_eq] at he
    obtain ⟨a, b, hs, ha, hb⟩ := ih hrest (all && c) (any || c)
    refine ⟨a, b, by simpa [survey, he, hc] using hs, ?_, ?_⟩
    · rw [ha, List.forall_mem_cons, Bool.and_eq_true, hP, and_assoc]
    · rw [hb, Bool.or_eq_true, hP, or_assoc]
      simp

/-- The survey fails at the first history that cannot be compared with the worlds. -/
theorem survey_of_error {err : LogicError}
    (h : ∀ k ∈ ks, ∃ e, (r.forest.path k).reverse.find? (·.time ≤ t) = some e ∧
      (e.observation.compatible worlds = .error err ∨ e.observation.compatible worlds = .ok false))
    (hsome : ∃ k ∈ ks, ∃ e, (r.forest.path k).reverse.find? (·.time ≤ t) = some e ∧
      e.observation.compatible worlds = .error err) (all any : Bool) :
    r.survey worlds t all any ks = .error err := by
  induction ks generalizing all any with
  | nil => simp at hsome
  | cons k ks ih =>
    obtain ⟨⟨e, he, hc⟩, hrest⟩ := List.forall_mem_cons.mp h
    have hlatest := he
    rw [← Forest.latestAt_eq] at hlatest
    rcases hc with hc | hc
    · simp [survey, hlatest, hc]
    · simp only [survey, hlatest, hc]
      apply ih hrest
      obtain ⟨k', hk', e', he', hc'⟩ := hsome
      rcases List.mem_cons.mp hk' with rfl | hk'
      · obtain rfl : e = e' := Option.some.inj (he.symm.trans he')
        simp [hc] at hc'
      · exact ⟨k', hk', e', he', hc'⟩

end Survey

theorem formulaHolds_after {r : Run} {t : Time} (h : r.horizon < t) (F : Formula) (mode : Mode) :
    r.formulaHolds F t mode = .ok .indeterminate := by
  simp [formulaHolds, h, pure, Except.pure]

/-- An answer about a time within the horizon is read off a survey of the histories. -/
theorem formulaHolds_eq {r : Run} {F : Formula} {t : Time} {worlds : List Valuation}
    (ht : t ≤ r.horizon) (hw : F.models r.atomLimit = .ok worlds) (mode : Mode) :
    r.formulaHolds F t mode =
      ((r.survey worlds t true false r.leaves.toList).mapError Error.logic).map fun found =>
        match found with
        | none => .indeterminate
        | some (all, any) => .ofBool (match mode with
          | .necessary => all
          | .possible => any) := by
  rw [formulaHolds, if_neg (not_lt_of_ge ht), hw]
  simp only [bind, Except.bind]
  cases r.survey worlds t true false r.leaves.toList with
  | error e => rfl
  | ok found => cases found <;> rfl

section Formula

variable {s : Scenario} {limits : Limits} {horizon : Time} {r : Run} {F : Formula} {t : Time}
  {worlds : List Valuation}

theorem horizon_eq (h : s.run limits horizon = .ok r) : r.horizon = horizon := by
  obtain ⟨_, _, _, _, _, rfl⟩ := Scenario.run_eq_ok h
  rfl

theorem atomLimit_eq (h : s.run limits horizon = .ok r) : r.atomLimit = limits.atoms.value := by
  obtain ⟨_, _, _, _, _, rfl⟩ := Scenario.run_eq_ok h
  rfl

theorem formulaHolds_of_models_error (h : s.run limits horizon = .ok r) (ht : t ≤ horizon)
    {err : Error} (hw : F.models limits.atoms.value = .error err) (mode : Mode) :
    r.formulaHolds F t mode = .error err := by
  rw [formulaHolds, horizon_eq h, if_neg (not_lt_of_ge ht), atomLimit_eq h, hw]
  rfl

theorem orderly_path (h : s.run limits horizon = .ok r) {k : NodeId} (hk : k ∈ r.leaves.toList) :
    s.Orderly (r.forest.path k) :=
  Scenario.run_orderly h _ (List.mem_map.mpr ⟨k, hk, rfl⟩)

theorem leaves_ne_nil (h : s.run limits horizon = .ok r) : r.leaves.toList ≠ [] := by
  intro hnil
  exact Scenario.run_ne_nil h (by rw [histories, hnil]; rfl)

theorem holds_leaves (r : Run) (P : History → Prop) :
    ((∀ k ∈ r.leaves.toList, P (r.forest.path k)) ↔ ∀ p ∈ r.histories, P p) ∧
    ((∃ k ∈ r.leaves.toList, P (r.forest.path k)) ↔ ∃ p ∈ r.histories, P p) := by
  simp [histories]

theorem formulaHolds_before (h : s.run limits horizon = .ok r) (ht : t ≤ horizon)
    (hstart : t < s.startTime) (hw : F.models r.atomLimit = .ok worlds) (mode : Mode) :
    r.formulaHolds F t mode = .ok .indeterminate := by
  have hsurvey : r.survey worlds t true false r.leaves.toList = .ok none :=
    survey_before (leaves_ne_nil h) (fun k hk => (orderly_path h hk).find?_before hstart) _ _
  rw [formulaHolds_eq (by rwa [horizon_eq h]) hw, hsurvey]
  rfl

/-- Comparing a history with the worlds of a formula over its fluents is evaluating the formula. -/
theorem compare_of_orderly {p : History} (ho : s.Orderly p) (hstart : s.startTime ≤ t)
    (hatoms : ∀ f ∈ F.atoms, f ∈ s.fluents) (hw : F.models r.atomLimit = .ok worlds) :
    ∃ e b, p.reverse.find? (·.time ≤ t) = some e ∧ e.observation.compatible worlds = .ok b ∧
      (b = true ↔ TrueAt F t p) := by
  obtain ⟨e, he, hl⟩ := ho.find?_from hstart
  have hvalued : ∀ f ∈ F.atoms, f ∈ e.observation :=
    fun f hf => (ho.fluents e hl.mem f).mpr (hatoms f hf)
  obtain ⟨b, hb⟩ := (e.observation.eval_isOk F).mpr hvalued
  refine ⟨e, b, he, by rw [Valuation.compatible_models hw hvalued, hb], ?_⟩
  constructor
  · intro ht
    exact ⟨e, hl, by rw [hb, ht]⟩
  · intro ht
    obtain ⟨e', hl', ht⟩ := ht
    obtain rfl : e = e' := hl.unique ho.increasing hl'
    exact Except.ok.inj (hb.symm.trans ht)

theorem formulaHolds_from (h : s.run limits horizon = .ok r) (ht : t ≤ horizon)
    (hstart : s.startTime ≤ t) (hatoms : ∀ f ∈ F.atoms, f ∈ s.fluents)
    (hw : F.models r.atomLimit = .ok worlds) (mode : Mode) :
    ∃ b, r.formulaHolds F t mode = .ok (.ofBool b) ∧
      (b = true ↔ mode.Holds (TrueAt F t) r.histories) := by
  obtain ⟨a, b, hs, ha, hb⟩ := survey_of_compatible
    (fun k hk => compare_of_orderly (orderly_path h hk) hstart hatoms hw) true false
  obtain ⟨hall, hany⟩ := holds_leaves r (TrueAt F t)
  rw [formulaHolds_eq (by rwa [horizon_eq h]) hw, hs]
  cases mode with
  | necessary => exact ⟨a, rfl, by simp [ha, Mode.Holds, ← hall]⟩
  | possible => exact ⟨b, rfl, by simp [hb, Mode.Holds, ← hany]⟩

/-- Within the horizon the answer is yes exactly from the start on and where the formula is true. -/
theorem formulaHolds_eq_yes (h : s.run limits horizon = .ok r) (ht : t ≤ horizon)
    (hatoms : ∀ f ∈ F.atoms, f ∈ s.fluents) (hw : F.models r.atomLimit = .ok worlds) (mode : Mode) :
    r.formulaHolds F t mode = .ok .yes ↔
      s.startTime ≤ t ∧ mode.Holds (TrueAt F t) r.histories := by
  by_cases hstart : s.startTime ≤ t
  · obtain ⟨b, hb, hiff⟩ := formulaHolds_from h ht hstart hatoms hw mode
    rw [hb, ← hiff]
    cases b <;> simp [Answer.ofBool, hstart]
  · rw [formulaHolds_before h ht (not_le.mp hstart) hw]
    simp [hstart]

/-- A formula over the fluents of the scenario is indeterminate outside the times that a run covers.
At any of them each history has one latest entry, and the answer is whether the formula is true on
it, in every history or in at least one. -/
theorem formulaHolds_spec (h : s.run limits horizon = .ok r)
    (hatoms : ∀ f ∈ F.atoms, f ∈ s.fluents) (hsize : F.atoms.size ≤ effectiveLimit r.atomLimit)
    (t : Time) (mode : Mode) :
    (r.formulaHolds F t mode = .ok .indeterminate ↔ horizon < t ∨ t < s.startTime) ∧
    (s.startTime ≤ t → t ≤ horizon → (∀ p ∈ r.histories, ∃! e, IsLatest p t e) ∧
      ∃ b, r.formulaHolds F t mode = .ok (.ofBool b) ∧
        (b = true ↔ mode.Holds (TrueAt F t) r.histories)) := by
  have hw := (F.models_eq_ok r.atomLimit _).mpr ⟨hsize, rfl⟩
  refine ⟨⟨?_, ?_⟩, ?_⟩
  · intro hi
    by_contra hin
    obtain ⟨hle, hstart⟩ := not_or.mp hin
    obtain ⟨b, hb, _⟩ :=
      formulaHolds_from h (not_lt.mp hle) (not_lt.mp hstart) hatoms hw mode
    rw [hb] at hi
    cases b <;> simp [Answer.ofBool] at hi
  · intro hout
    by_cases hlate : horizon < t
    · exact formulaHolds_after (by rwa [horizon_eq h]) F mode
    · exact formulaHolds_before h (not_lt.mp hlate) (hout.resolve_left hlate) hw mode
  · intro hstart ht
    refine ⟨?_, formulaHolds_from h ht hstart hatoms hw mode⟩
    intro p hp
    exact (Scenario.run_orderly h p hp).existsUnique_latest hstart

end Formula

end Run

theorem coin_heads_spec : ∃ r, coin.run .standard 1 = .ok r ∧ r.modelCount = 2 ∧
    r.formulaHolds (.atom ⟨"heads"⟩) 1 .possible = .ok .yes ∧
    (r.formulaHolds (.atom ⟨"heads"⟩) 1 .possible = .ok .indeterminate ↔
      (1 : Time) < 1 ∨ 1 < coin.startTime) ∧
    (coin.startTime ≤ 1 → (1 : Time) ≤ 1 → (∀ p ∈ r.histories, ∃! e, IsLatest p 1 e) ∧
      ∃ b, r.formulaHolds (.atom ⟨"heads"⟩) 1 .possible = .ok (.ofBool b) ∧
        (b = true ↔ Mode.possible.Holds (TrueAt (.atom ⟨"heads"⟩) 1) r.histories)) := by
  obtain ⟨r, hr, htwo⟩ := coin_run
  have hyes : (coin.run .standard 1 >>= fun r => r.formulaHolds (.atom ⟨"heads"⟩) 1 .possible) =
      .ok .yes := Result.eq_ok_of_toOption (by decide +kernel)
  rw [hr] at hyes
  refine ⟨r, hr, htwo, hyes, Run.formulaHolds_spec hr ?_ ?_ 1 .possible⟩
  · decide
  · rw [Run.atomLimit_eq hr]
    decide

/-- The first atom of a formula that is not a fluent of the scenario. -/
structure Scenario.FirstUnknown (s : Scenario) (F : Formula) (f : Fluent) : Prop where
  atom : f ∈ F.atoms
  unknown : f ∉ s.fluents
  before : ∀ g ∈ F.atoms, g < f → g ∈ s.fluents

namespace Run

section Missing

variable {s : Scenario} {limits : Limits} {horizon : Time} {r : Run} {F : Formula} {t : Time}
  {worlds : List Valuation} {f : Fluent}

/-- A history at a time agrees with some world of a formula on every fluent before `f`. -/
def ComesTo (r : Run) (F : Formula) (t : Time) (f : Fluent) : Prop :=
  ∃ p ∈ r.histories, ∃ e, IsLatest p t e ∧ e.observation.AgreesBefore F f

theorem compare_missing {p : History} (ho : s.Orderly p) (hstart : s.startTime ≤ t)
    (hw : F.models r.atomLimit = .ok worlds) (hf : s.FirstUnknown F f) :
    ∃ e, p.reverse.find? (·.time ≤ t) = some e ∧ IsLatest p t e ∧
      (e.observation.AgreesBefore F f → e.observation.compatible worlds = .error (.lookup f)) ∧
      (¬ e.observation.AgreesBefore F f → e.observation.compatible worlds = .ok false) := by
  obtain ⟨e, he, hl⟩ := ho.find?_from hstart
  refine ⟨e, he, hl, Valuation.compatible_of_missing hw hf.atom ?_ ?_⟩
  · rw [ho.fluents e hl.mem]
    exact hf.unknown
  · intro g hg hgf
    exact (ho.fluents e hl.mem g).mpr (hf.before g hg hgf)

theorem formulaHolds_of_comesTo (h : s.run limits horizon = .ok r) (ht : t ≤ horizon)
    (hstart : s.startTime ≤ t) (hw : F.models r.atomLimit = .ok worlds) (hf : s.FirstUnknown F f)
    (hcomes : r.ComesTo F t f) (mode : Mode) :
    r.formulaHolds F t mode = .error (.logic (.lookup f)) := by
  obtain ⟨p, hp, e, hl, ha⟩ := hcomes
  obtain ⟨k, hk, rfl⟩ := List.mem_map.mp hp
  have ho := orderly_path h hk
  obtain ⟨e', he, hl', herr, _⟩ := compare_missing ho hstart hw hf
  obtain rfl : e' = e := hl'.unique ho.increasing hl
  have hsurvey : r.survey worlds t true false r.leaves.toList = .error (.lookup f) := by
    refine survey_of_error ?_ ⟨k, hk, e', he, herr ha⟩ true false
    intro k hk
    obtain ⟨e, he, _, herr, hno⟩ := compare_missing (orderly_path h hk) hstart hw hf
    exact ⟨e, he, (em _).imp herr hno⟩
  rw [formulaHolds_eq (by rwa [horizon_eq h]) hw, hsurvey]
  rfl

theorem formulaHolds_of_not_comesTo (h : s.run limits horizon = .ok r) (ht : t ≤ horizon)
    (hstart : s.startTime ≤ t) (hw : F.models r.atomLimit = .ok worlds) (hf : s.FirstUnknown F f)
    (hnot : ¬ r.ComesTo F t f) (mode : Mode) : r.formulaHolds F t mode = .ok .no := by
  have hnone : ∀ k ∈ r.leaves.toList, ∃ e b,
      (r.forest.path k).reverse.find? (·.time ≤ t) = some e ∧
      e.observation.compatible worlds = .ok b ∧ (b = true ↔ False) := by
    intro k hk
    obtain ⟨e, he, hl, _, hno⟩ := compare_missing (orderly_path h hk) hstart hw hf
    have hp : r.forest.path k ∈ r.histories := List.mem_map.mpr ⟨k, hk, rfl⟩
    exact ⟨e, false, he, hno fun ha => hnot ⟨_, hp, e, hl, ha⟩, by simp⟩
  obtain ⟨a, b, hs, ha, hb⟩ := survey_of_compatible (P := fun _ => False) hnone true false
  have hall : a = false := by
    obtain ⟨k, hk⟩ := List.exists_mem_of_ne_nil _ (leaves_ne_nil h)
    rw [Bool.eq_false_iff]
    exact fun ht => (ha.mp ht).2 k hk
  have hany : b = false := by simpa using hb
  rw [formulaHolds_eq (by rwa [horizon_eq h]) hw, hs, hall, hany]
  cases mode <;> rfl

/-- A formula with a fluent that is not of the scenario is asked in vain if a history comes to the
first such fluent. Otherwise the answer is no. -/
theorem formulaHolds_missing (h : s.run limits horizon = .ok r)
    (hout : ∃ f ∈ F.atoms, f ∉ s.fluents) (hsize : F.atoms.size ≤ effectiveLimit r.atomLimit)
    (hstart : s.startTime ≤ t) (ht : t ≤ horizon) (mode : Mode) :
    ∃ f, s.FirstUnknown F f ∧
      (r.ComesTo F t f → r.formulaHolds F t mode = .error (.logic (.lookup f))) ∧
      (¬ r.ComesTo F t f → r.formulaHolds F t mode = .ok .no) := by
  obtain ⟨f, hf, hunknown, hbefore⟩ := FluentSet.exists_first_not_mem hout
  have hfirst : s.FirstUnknown F f := ⟨hf, hunknown, hbefore⟩
  have hw := (F.models_eq_ok r.atomLimit _).mpr ⟨hsize, rfl⟩
  refine ⟨f, hfirst, ?_, ?_⟩
  · intro hcomes
    exact formulaHolds_of_comesTo h ht hstart hw hfirst hcomes mode
  · intro hnot
    exact formulaHolds_of_not_comesTo h ht hstart hw hfirst hnot mode

end Missing

end Run

/-- Tails, and a fluent that is not of the scenario of the coin. -/
def tailsSpinning : Formula := .binary .and (.neg (.atom ⟨"heads"⟩)) (.atom ⟨"spins"⟩)

/-- At time 1 the coin may show tails, and then the unknown fluent is met. -/
theorem coin_missing : ∃ r, coin.run .standard 1 = .ok r ∧ r.modelCount = 2 ∧
    ∃ f, coin.FirstUnknown tailsSpinning f ∧ r.ComesTo tailsSpinning 1 f ∧
      (r.ComesTo tailsSpinning 1 f →
        r.formulaHolds tailsSpinning 1 .possible = .error (.logic (.lookup f))) ∧
      (¬ r.ComesTo tailsSpinning 1 f → r.formulaHolds tailsSpinning 1 .possible = .ok .no) := by
  obtain ⟨r, hr, htwo⟩ := coin_run
  have hfails : (coin.run .standard 1 >>=
      fun r => r.formulaHolds tailsSpinning 1 .possible).toOption = none := by decide +kernel
  rw [hr] at hfails
  have hsize : tailsSpinning.atoms.size ≤ effectiveLimit r.atomLimit := by
    rw [Run.atomLimit_eq hr]
    decide
  obtain ⟨f, hfirst, hmet, hunmet⟩ := Run.formulaHolds_missing hr
    ⟨⟨"spins"⟩, by decide, by decide⟩ hsize (t := 1) (by decide) (by decide) .possible
  refine ⟨r, hr, htwo, f, hfirst, ?_, hmet, hunmet⟩
  by_contra hnot
  have hno : (r.formulaHolds tailsSpinning 1 .possible).toOption = none := hfails
  rw [hunmet hnot] at hno
  cases hno

/-- At time 0 the coin shows heads, which rules tails out before the unknown fluent is met. -/
theorem coin_missing_unnoticed : ⟨"spins"⟩ ∈ tailsSpinning.atoms ∧ ⟨"spins"⟩ ∉ coin.fluents ∧
    ∃ r, coin.run .standard 1 = .ok r ∧ r.formulaHolds tailsSpinning 0 .necessary = .ok .no := by
  have hno : (coin.run .standard 1 >>= fun r => r.formulaHolds tailsSpinning 0 .necessary) =
      .ok .no := Result.eq_ok_of_toOption (by decide +kernel)
  exact ⟨by decide, by decide, (Result.bind_eq_ok _ _ _).mp hno⟩

end Chronicle
