import Chronicle.Proofs.Formula.Models

namespace Chronicle

namespace Valuation

/-- Every pair of the list is a pair of the valuation. -/
def Agrees (v : Valuation) (ps : List (Fluent × Bool)) : Prop := ∀ p ∈ ps, v.get? p.1 = some p.2

theorem get_eq_ok (v : Valuation) (f : Fluent) (b : Bool) :
    v.get f = .ok b ↔ v.get? f = some b := by
  rw [get]
  cases v.get? f <;> simp

theorem get_of_not_mem {v : Valuation} {f : Fluent} (h : f ∉ v) : v.get f = .error (.lookup f) := by
  rw [get, SortedMap.get?_eq_none.mpr h]

theorem includes_cons_of_get? {v : Valuation} {f : Fluent} {c : Bool} (h : v.get? f = some c)
    (b : Bool) (rest : List (Fluent × Bool)) :
    v.includes ((f, b) :: rest) = if c = b then v.includes rest else .ok false := by
  rw [includes, (v.get_eq_ok f c).mpr h]
  by_cases hc : c = b <;> simp [bind, Except.bind, pure, Except.pure, hc]

theorem includes_cons_of_not_mem {v : Valuation} {f : Fluent} (h : f ∉ v) (b : Bool)
    (rest : List (Fluent × Bool)) : v.includes ((f, b) :: rest) = .error (.lookup f) := by
  rw [includes, get_of_not_mem h]
  rfl

theorem includes_eq_true (v : Valuation) (ps : List (Fluent × Bool)) :
    v.includes ps = .ok true ↔ v.Agrees ps := by
  induction ps with
  | nil => simp [includes, Agrees]
  | cons p rest ih =>
    obtain ⟨f, b⟩ := p
    have hcons : v.Agrees ((f, b) :: rest) ↔ v.get? f = some b ∧ v.Agrees rest :=
      List.forall_mem_cons
    rw [hcons]
    by_cases hf : f ∈ v
    · obtain ⟨c, hc⟩ := SortedMap.exists_get? hf
      rw [includes_cons_of_get? hc, hc]
      by_cases hb : c = b <;> simp [hb, ih]
    · rw [includes_cons_of_not_mem hf, SortedMap.get?_eq_none.mpr hf]
      simp

/-- Pairs of which every fluent has a value are compared without a failure. -/
theorem includes_isOk {v : Valuation} {ps : List (Fluent × Bool)} (h : ∀ p ∈ ps, p.1 ∈ v) :
    ∃ b, v.includes ps = .ok b := by
  induction ps with
  | nil => exact ⟨true, rfl⟩
  | cons p rest ih =>
    obtain ⟨f, b⟩ := p
    obtain ⟨hf, hr⟩ := List.forall_mem_cons.mp h
    obtain ⟨c, hc⟩ := SortedMap.exists_get? hf
    rw [includes_cons_of_get? hc]
    split
    · exact ih hr
    · exact ⟨false, rfl⟩

/-- The first fluent without a value is met only if all pairs before it hold. -/
theorem includes_of_missing {v : Valuation} {ps : List (Fluent × Bool)} {f : Fluent}
    (h : ∀ p ∈ ps, p.1 ∈ v) (hf : f ∉ v) (b : Bool) (rest : List (Fluent × Bool)) :
    (v.Agrees ps → v.includes (ps ++ (f, b) :: rest) = .error (.lookup f)) ∧
    (¬ v.Agrees ps → v.includes (ps ++ (f, b) :: rest) = .ok false) := by
  induction ps with
  | nil =>
    have hnil : v.Agrees [] := by simp [Agrees]
    exact ⟨fun _ => includes_cons_of_not_mem hf b rest, fun hn => absurd hnil hn⟩
  | cons p ps ih =>
    obtain ⟨g, d⟩ := p
    obtain ⟨hg, hr⟩ := List.forall_mem_cons.mp h
    obtain ⟨c, hc⟩ := SortedMap.exists_get? hg
    have hcons : v.Agrees ((g, d) :: ps) ↔ c = d ∧ v.Agrees ps := by
      simp [Agrees, hc]
    rw [hcons, List.cons_append, includes_cons_of_get? hc]
    by_cases hd : c = d
    · simpa [hd] using ih hr
    · simp [hd]

theorem compatible_cons_of_ok {v w : Valuation} {b : Bool} (h : v.includes w.entries = .ok b)
    (rest : List Valuation) :
    v.compatible (w :: rest) = if b then .ok true else v.compatible rest := by
  rw [compatible, h]
  cases b <;> rfl

theorem compatible_cons_of_error {v w : Valuation} {e : LogicError}
    (h : v.includes w.entries = .error e) (rest : List Valuation) :
    v.compatible (w :: rest) = .error e := by
  rw [compatible, h]
  rfl

theorem agrees_of_compatible {v : Valuation} {ws : List Valuation}
    (h : v.compatible ws = .ok true) : ∃ w ∈ ws, v.Agrees w.entries := by
  induction ws with
  | nil => simp [compatible] at h
  | cons w rest ih =>
    cases hw : v.includes w.entries with
    | error e => rw [compatible_cons_of_error hw] at h; simp at h
    | ok b =>
      rw [compatible_cons_of_ok hw] at h
      cases b with
      | true => exact ⟨w, by simp, (v.includes_eq_true w.entries).mp hw⟩
      | false =>
        obtain ⟨u, hu, ha⟩ := ih (by simpa using h)
        exact ⟨u, by simp [hu], ha⟩

/-- Where the worlds speak of fluents with a value only, one of them is looked for in earnest. -/
theorem compatible_of_defined {v : Valuation} {ws : List Valuation}
    (h : ∀ w ∈ ws, ∀ f ∈ w, f ∈ v) :
    ∃ b, v.compatible ws = .ok b ∧ (b = true ↔ ∃ w ∈ ws, v.Agrees w.entries) := by
  induction ws with
  | nil => exact ⟨false, rfl, by simp⟩
  | cons w rest ih =>
    obtain ⟨hw, hr⟩ := List.forall_mem_cons.mp h
    have hd : ∀ p ∈ w.entries, p.1 ∈ v := fun p hp => hw p.1 (List.mem_map.mpr ⟨p, hp, rfl⟩)
    obtain ⟨c, hc⟩ := includes_isOk hd
    rw [compatible_cons_of_ok hc]
    cases c with
    | true => exact ⟨true, rfl, by simp [(v.includes_eq_true w.entries).mp hc]⟩
    | false =>
      have hn : ¬ v.Agrees w.entries := by
        rw [← includes_eq_true, hc]
        simp
      obtain ⟨b, hb, hi⟩ := ih hr
      exact ⟨b, by simpa using hb, by simp [hi, hn]⟩

theorem agrees_entries (v w : Valuation) :
    v.Agrees w.entries ↔ ∀ f ∈ w, v.get? f = w.get? f := by
  constructor
  · intro h f hf
    obtain ⟨b, hb⟩ := SortedMap.exists_get? hf
    rw [hb]
    exact h (f, b) ((w.get?_eq_some f b).mp hb)
  · intro h p hp
    have hv := (w.get?_eq_some p.1 p.2).mpr hp
    rw [h p.1 (SortedMap.mem_of_get? hv), hv]

/-- What a valuation says of some fluents. -/
def restrict (v : Valuation) (s : FluentSet) : Valuation := v.filterKeys fun f => decide (f ∈ s)

theorem get?_restrict (v : Valuation) (s : FluentSet) (f : Fluent) :
    (v.restrict s).get? f = if f ∈ s then v.get? f else none := by
  simp [restrict, SortedMap.get?_filterKeys]

theorem keys_restrict {v : Valuation} {s : FluentSet} (h : ∀ f ∈ s, f ∈ v) :
    (v.restrict s).keys = s.keys := by
  apply SortedMap.keys_eq_of_mem_iff
  intro f
  rw [restrict, SortedMap.mem_filterKeys, decide_eq_true_iff]
  exact ⟨fun hf => hf.2, fun hf => ⟨h f hf, hf⟩⟩

theorem mem_iff_of_keys_eq {v : Valuation} {s : FluentSet} (h : v.keys = s.keys) (f : Fluent) :
    f ∈ v ↔ f ∈ s := (SortedMap.keys_eq_iff v s).mp h f

/-- A valuation of all the atoms agrees with a world of a formula exactly where it makes the
formula true. -/
theorem agrees_models {F : Formula} {atomLimit : Nat} {ws : List Valuation}
    (h : F.models atomLimit = .ok ws) (v : Valuation) :
    (∃ w ∈ ws, v.Agrees w.entries) ↔ v.eval F = .ok true := by
  constructor
  · intro h
    obtain ⟨w, hw, ha⟩ := h
    obtain ⟨hk, ht⟩ := (Formula.mem_models h w).mp hw
    rw [← ht]
    apply eval_congr
    intro f hf
    exact (v.agrees_entries w).mp ha f ((mem_iff_of_keys_eq hk f).mpr hf)
  · intro ht
    have hv := (v.eval_isOk F).mp ⟨true, ht⟩
    have hsame : ∀ f ∈ F.atoms, (v.restrict F.atoms).get? f = v.get? f := by
      intro f hf
      rw [get?_restrict, if_pos hf]
    refine ⟨v.restrict F.atoms, (Formula.mem_models h _).mpr ⟨keys_restrict hv, ?_⟩, ?_⟩
    · rw [eval_congr _ v F hsame, ht]
    · rw [agrees_entries]
      intro f hf
      exact (hsame f ((mem_iff_of_keys_eq (keys_restrict hv) f).mp hf)).symm

/-- Looking for a world and evaluating come to the same, where every atom has a value. -/
theorem compatible_models {F : Formula} {atomLimit : Nat} {ws : List Valuation}
    (h : F.models atomLimit = .ok ws) {v : Valuation} (hv : ∀ f ∈ F.atoms, f ∈ v) :
    v.compatible ws = v.eval F := by
  have hd : ∀ w ∈ ws, ∀ f ∈ w, f ∈ v := by
    intro w hw f hf
    exact hv f ((mem_iff_of_keys_eq ((Formula.mem_models h w).mp hw).1 f).mp hf)
  obtain ⟨b, hb, hi⟩ := compatible_of_defined hd
  obtain ⟨c, hc⟩ := (v.eval_isOk F).mpr hv
  rw [agrees_models h, hc] at hi
  rw [hb, hc]
  cases b <;> cases c <;> simp_all

/-- A world is found exactly where the formula is true, whether or not every atom has a value. -/
theorem compatible_models_eq_true {F : Formula} {atomLimit : Nat} {ws : List Valuation}
    (h : F.models atomLimit = .ok ws) (v : Valuation) :
    v.compatible ws = .ok true ↔ v.eval F = .ok true := by
  constructor
  · intro hc
    exact (agrees_models h v).mp (agrees_of_compatible hc)
  · intro ht
    rw [compatible_models h ((v.eval_isOk F).mp ⟨true, ht⟩), ht]

/-- Where every atom has a value, a formula has one too, and it is found just as well by a look for
an agreeing world as by evaluation. -/
theorem compatible_iff_eval {F : Formula} {atomLimit : Nat} (hF : F.atoms.size ≤ min atomLimit 63)
    {o : Valuation} (ho : ∀ f ∈ F.atoms, f ∈ o) :
    ∃ ws, F.models atomLimit = .ok ws ∧ (∃ b, o.eval F = .ok b) ∧
      ∀ b, o.compatible ws = .ok b ↔ o.eval F = .ok b := by
  have hws := (F.models_eq_ok atomLimit _).mpr ⟨hF, rfl⟩
  refine ⟨_, hws, (o.eval_isOk F).mpr ho, ?_⟩
  intro b
  rw [compatible_models hws ho]

/-- It is cold and dry at night, so that it is not the case that it is wet whenever it is cold. -/
theorem dryNight_compatible :
    let F : Formula := .binary .implies (.atom ⟨"cold"⟩) (.atom ⟨"wet"⟩)
    let o : Valuation := (allFalse [⟨"wet"⟩]).insert ⟨"cold"⟩ true |>.insert ⟨"dark"⟩ true
    F.atoms.size ≤ min 2 63 ∧ (∀ f ∈ F.atoms, f ∈ o) ∧ o.eval F = .ok false ∧
      ∃ ws, F.models 2 = .ok ws ∧ o.compatible ws = .ok false := by
  intro F o
  have hsize : F.atoms.size ≤ min 2 63 := by decide +kernel
  have hvalued : ∀ f ∈ F.atoms.keys, f ∈ o := by decide +kernel
  have hfalse : o.eval F = .ok false := by decide +kernel
  obtain ⟨ws, hws, _, hiff⟩ := compatible_iff_eval hsize hvalued
  exact ⟨hsize, hvalued, hfalse, ws, hws, (hiff false).mpr hfalse⟩

/-- Some world of a formula agrees with the valuation on every fluent before `f`. -/
def AgreesBefore (v : Valuation) (F : Formula) (f : Fluent) : Prop :=
  ∃ w : Valuation, (∀ g, g ∈ w ↔ g ∈ F.atoms) ∧ w.eval F = .ok true ∧
    ∀ g ∈ F.atoms, g < f → v.get? g = w.get? g

theorem agreesBefore_congr {v w : Valuation} {F : Formula}
    (h : ∀ g ∈ F.atoms, v.get? g = w.get? g) (f : Fluent) :
    v.AgreesBefore F f ↔ w.AgreesBefore F f := by
  refine exists_congr fun u => and_congr_right fun _ => and_congr_right fun _ => ?_
  exact forall_congr' fun g => forall_congr' fun hg => by rw [h g hg]

theorem includes_entries_of_missing {v w : Valuation} {f : Fluent} (hf : f ∈ w) (hout : f ∉ v)
    (hbefore : ∀ g ∈ w, g < f → g ∈ v) :
    ((∀ g ∈ w, g < f → v.get? g = w.get? g) → v.includes w.entries = .error (.lookup f)) ∧
    (¬ (∀ g ∈ w, g < f → v.get? g = w.get? g) → v.includes w.entries = .ok false) := by
  obtain ⟨b, hb⟩ := SortedMap.exists_get? hf
  obtain ⟨before, after, hsplit, hmem⟩ := SortedMap.exists_split hb
  have hagrees : v.Agrees before ↔ ∀ g ∈ w, g < f → v.get? g = w.get? g := by
    constructor
    · intro ha g hg hgf
      obtain ⟨c, hc⟩ := SortedMap.exists_get? hg
      rw [ha (g, c) ((hmem g c).mpr ⟨hc, hgf⟩), hc]
    · intro ha p hp
      obtain ⟨hw, hpf⟩ := (hmem p.1 p.2).mp hp
      rw [ha p.1 (SortedMap.mem_of_get? hw) hpf, hw]
  have hv : ∀ p ∈ before, p.1 ∈ v := by
    intro p hp
    obtain ⟨hw, hpf⟩ := (hmem p.1 p.2).mp hp
    exact hbefore p.1 (SortedMap.mem_of_get? hw) hpf
  rw [← hagrees, hsplit]
  exact includes_of_missing hv hout b after

/-- Where an atom has no value, the look for a world fails only if some world agrees as far as that
atom, and otherwise finds none. -/
theorem compatible_of_missing {F : Formula} {atomLimit : Nat} {ws : List Valuation}
    (h : F.models atomLimit = .ok ws) {v : Valuation} {f : Fluent} (hf : f ∈ F.atoms) (hout : f ∉ v)
    (hbefore : ∀ g ∈ F.atoms, g < f → g ∈ v) :
    (v.AgreesBefore F f → v.compatible ws = .error (.lookup f)) ∧
    (¬ v.AgreesBefore F f → v.compatible ws = .ok false) := by
  have hkeys : ∀ w ∈ ws, ∀ g, g ∈ w ↔ g ∈ F.atoms := fun w hw =>
    mem_iff_of_keys_eq ((Formula.mem_models h w).mp hw).1
  have hworlds : v.AgreesBefore F f ↔ ∃ w ∈ ws, ∀ g ∈ w, g < f → v.get? g = w.get? g := by
    constructor
    · intro ha
      obtain ⟨w, hw, ht, hagree⟩ := ha
      refine ⟨w, (Formula.mem_models h w).mpr ⟨SortedMap.keys_eq_of_mem_iff _ _ hw, ht⟩, ?_⟩
      exact fun g hg => hagree g ((hw g).mp hg)
    · intro ha
      obtain ⟨w, hw, hagree⟩ := ha
      refine ⟨w, hkeys w hw, ((Formula.mem_models h w).mp hw).2, ?_⟩
      exact fun g hg => hagree g ((hkeys w hw g).mpr hg)
  rw [hworlds]
  clear hworlds h
  induction ws with
  | nil => simp [compatible]
  | cons w ws ih =>
    obtain ⟨hw, hws⟩ := List.forall_mem_cons.mp hkeys
    obtain ⟨herr, hno⟩ := includes_entries_of_missing ((hw f).mpr hf) hout
      fun g hg => hbefore g ((hw g).mp hg)
    obtain ⟨herr', hno'⟩ := ih hws
    by_cases ha : ∀ g ∈ w, g < f → v.get? g = w.get? g
    · exact ⟨fun _ => compatible_cons_of_error (herr ha) ws, fun hn => absurd ⟨w, by simp, ha⟩ hn⟩
    · have hskip := compatible_cons_of_ok (hno ha) ws
      rw [hskip]
      simp only [List.exists_mem_cons_iff, ha, false_or]
      exact ⟨herr', hno'⟩

end Valuation

end Chronicle
