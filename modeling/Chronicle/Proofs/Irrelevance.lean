import Chronicle.Proofs.Course
import Chronicle.Proofs.Likeness

/-!
A fluent that no rule and no constraint mentions. It takes either value at the start and keeps it,
and otherwise the histories are as they are without it.
-/

namespace Chronicle

/-- The entry with a value of one more fluent. -/
def Entry.valued (f : Fluent) (b : Bool) (e : Entry) : Entry :=
  { e with observation := e.observation.insert f b }

/-- The history with one value of one more fluent throughout. -/
def History.valued (f : Fluent) (b : Bool) (p : History) : History := p.map (Entry.valued f b)

/-- No entry of the history gives a value to the fluent. -/
def History.Omits (f : Fluent) (p : History) : Prop := ∀ e ∈ p, f ∉ e.observation

def Query.Mentions (f : Fluent) : Query → Prop
  | .formula F _ _ => f ∈ F.atoms
  | .action .. => False
  | .agent _ => False

/-- The statement does not mention the fluent. -/
structure Statement.Ignores (x : Statement) (f : Fluent) : Prop where
  condition : f ∉ x.condition.atoms
  effect : ∀ F, x.consequence = .causes F → f ∉ F.atoms
  release : x.consequence ≠ .releases f

namespace Scenario

/-- The fluent is not one of the scenario, and no rule or constraint mentions it. -/
structure Foreign (s : Scenario) (f : Fluent) : Prop where
  unknown : f ∉ s.fluents
  rules : ∀ x ∈ s.statements, x.Ignores f
  constraints : ∀ t F, s.constraintAt t = some F → f ∉ F.atoms

/-- The scenario with one more fluent. -/
def adding (s : Scenario) (f : Fluent) : Scenario := { s with fluents := s.fluents.insert f () }

end Scenario

section Valued

variable {f : Fluent} {b c : Bool} {p q : History}

theorem Entry.valued_inj {e e' : Entry} (he : f ∉ e.observation) (he' : f ∉ e'.observation)
    (h : e.valued f b = e'.valued f c) : e = e' ∧ b = c := by
  obtain ⟨t, o, firing⟩ := e
  obtain ⟨t', o', firing'⟩ := e'
  obtain ⟨rfl, ho, rfl⟩ : t = t' ∧ o.insert f b = o'.insert f c ∧ firing = firing' := by
    simpa [Entry.valued] using h
  obtain ⟨rfl, rfl⟩ := Successor.insert_inj he he' ho
  exact ⟨rfl, rfl⟩

theorem History.valued_inj (hp : p.Omits f) (hq : q.Omits f) (hne : p ≠ [])
    (h : p.valued f b = q.valued f c) : p = q ∧ b = c := by
  induction p generalizing q with
  | nil => exact absurd rfl hne
  | cons e p ih =>
    cases q with
    | nil => simp [History.valued] at h
    | cons e' q =>
      obtain ⟨he, hrest⟩ := List.forall_mem_cons.mp hp
      obtain ⟨he', hrest'⟩ := List.forall_mem_cons.mp hq
      obtain ⟨hhead, htail⟩ := List.cons.inj h
      obtain ⟨rfl, hbc⟩ := Entry.valued_inj he he' hhead
      refine ⟨?_, hbc⟩
      cases p with
      | nil =>
        have hnil : q = [] := by simpa using htail.symm
        rw [hnil]
      | cons x p => rw [(ih hrest hrest' (by simp) htail).1]

theorem IsLatest.of_valued {t : Time} {e e' : Entry} (hord : p.Pairwise (·.time < ·.time))
    (he : IsLatest p t e) (he' : IsLatest (p.valued f b) t e') : e' = e.valued f b := by
  obtain ⟨x, hx, rfl⟩ := List.mem_map.mp he'.mem
  have hlatest : IsLatest p t x := by
    refine ⟨hx, he'.time_le, ?_⟩
    intro y hy hle
    exact he'.greatest (y.valued f b) (List.mem_map.mpr ⟨y, hy, rfl⟩) hle
  rw [hlatest.unique hord he]

theorem performed_valued (f : Fluent) (b : Bool) (a : Action) (g : Option Agent) (t : Time)
    (p : History) : Performed a g t (p.valued f b) ↔ Performed a g t p := by
  constructor
  · intro h
    obtain ⟨_, hmem, htime, hperf⟩ := h
    obtain ⟨x, hx, rfl⟩ := List.mem_map.mp hmem
    exact ⟨x, hx, htime, hperf⟩
  · intro h
    obtain ⟨x, hx, htime, hperf⟩ := h
    exact ⟨x.valued f b, List.mem_map.mpr ⟨x, hx, rfl⟩, htime, hperf⟩

/-- The added value is no change, since it is the same throughout. -/
theorem changedBy_valued {g : Agent} {x y : Entry} (hx : f ∉ x.observation) :
    ChangedBy g (x.valued f b) (y.valued f b) ↔ ChangedBy g x y := by
  refine and_congr_right fun _ => ?_
  constructor
  · intro h
    obtain ⟨k, v, w, hv, hw, hne⟩ := h
    simp only [Entry.valued, SortedMap.get?_insert] at hv hw
    by_cases hk : k = f
    · rw [if_pos hk] at hv hw
      exact absurd (Option.some.inj (hv.symm.trans hw)) hne
    · rw [if_neg hk] at hv hw
      exact ⟨k, v, w, hv, hw, hne⟩
  · intro h
    obtain ⟨k, v, w, hv, hw, hne⟩ := h
    have hk : k ≠ f := fun he => hx (he ▸ SortedMap.mem_of_get? hv)
    refine ⟨k, v, w, ?_, ?_, hne⟩
    · simpa [Entry.valued, SortedMap.get?_insert, hk] using hv
    · simpa [Entry.valued, SortedMap.get?_insert, hk] using hw

theorem active_valued (hp : p.Omits f) (g : Agent) : Active g (p.valued f b) ↔ Active g p := by
  constructor
  · intro h
    obtain ⟨xs, x, y, ys, he, hc⟩ := h
    obtain ⟨xs', rest, rfl, _, hrest⟩ := List.map_eq_append_iff.mp he
    obtain ⟨x', rest', rfl, rfl, hrest'⟩ := List.map_eq_cons_iff.mp hrest
    obtain ⟨y', ys', rfl, rfl, _⟩ := List.map_eq_cons_iff.mp hrest'
    exact ⟨xs', x', y', ys', rfl, (changedBy_valued (hp x' (by simp))).mp hc⟩
  · intro h
    obtain ⟨xs, x, y, ys, rfl, hc⟩ := h
    refine ⟨xs.map (.valued f b), x.valued f b, y.valued f b, ys.map (.valued f b), ?_, ?_⟩
    · simp [History.valued]
    · exact (changedBy_valued (hp x (by simp))).mpr hc

theorem Query.alike_valued (hord : p.Pairwise (·.time < ·.time)) (hp : p.Omits f) (horizon : Time)
    {q : Query} (hq : ¬ q.Mentions f) : q.Alike horizon p (p.valued f b) := by
  cases q with
  | formula F t mode =>
    intro _ e e' he he' g hg
    have hgf : g ≠ f := fun h => hq (h ▸ hg)
    rw [IsLatest.of_valued hord he he', Entry.valued, SortedMap.get?_insert, if_neg hgf]
  | action a g t => exact fun _ => (performed_valued f b a g t p).symm
  | agent g => exact (active_valued hp g).symm

end Valued

section Steps

variable {s : Scenario} {f : Fluent} {b : Bool} {t : Time} {m : Moment}
  {ms : List (Time × Moment)} {rules : List Statement} {o : Valuation} {p : History}

theorem Statement.Ignores.triggeredOn_insert {x : Statement} (hx : x.Ignores f) (o : Valuation)
    (b : Bool) : x.TriggeredOn (o.insert f b) ↔ x.TriggeredOn o := by
  rw [TriggeredOn, TriggeredOn, Successor.eval_insert o x.condition hx.condition b]

theorem Moment.admits_insert (hm : ∀ F, m.constraint = some F → f ∉ F.atoms) (o : Valuation)
    (b : Bool) : m.Admits (o.insert f b) ↔ m.Admits o := by
  refine forall_congr' fun F => forall_congr' fun hF => ?_
  rw [Successor.eval_insert o F (hm F hF) b]

theorem Outcome.insert {o' : Valuation} (h : Outcome rules o o') (hr : ∀ x ∈ rules, x.Ignores f)
    (b : Bool) : Outcome rules (o.insert f b) (o'.insert f b) := by
  refine ⟨?_, ?_, ?_⟩
  · intro g
    rw [SortedMap.mem_insert, SortedMap.mem_insert, h.fluents]
  · intro x hx ht F hF
    rw [Successor.eval_insert o' F ((hr x hx).effect F hF) b]
    exact h.effects x hx (((hr x hx).triggeredOn_insert o b).mp ht) F hF
  · intro g hg
    rw [SortedMap.get?_insert, SortedMap.get?_insert]
    by_cases hgf : g = f
    · rw [if_pos hgf, if_pos hgf]
    · rw [if_neg hgf, if_neg hgf]
      exact h.inertia g fun x hx ht => hg x hx (((hr x hx).triggeredOn_insert o b).mpr ht)

/-- The fluent keeps its value, and what else may follow does not depend on it. -/
theorem Outcome.exists_insert {o'' : Valuation} (h : Outcome rules (o.insert f b) o'')
    (hr : ∀ x ∈ rules, x.Ignores f) (hf : f ∉ o) :
    ∃ o', Outcome rules o o' ∧ o'.insert f b = o'' := by
  have hvalue : o''.get? f = some b := by
    rw [h.inertia f fun x hx _ => ⟨(hr x hx).effect, (hr x hx).release⟩, SortedMap.get?_insert,
      if_pos rfl]
  obtain ⟨o', rfl, hmem⟩ := SortedMap.exists_eq_insert hvalue
  refine ⟨o', ⟨?_, ?_, ?_⟩, rfl⟩
  · intro g
    rw [hmem, h.fluents, SortedMap.mem_insert]
    by_cases hg : g = f <;> simp [hg, hf]
  · intro x hx ht F hF
    rw [← Successor.eval_insert o' F ((hr x hx).effect F hF) b]
    exact h.effects x hx (((hr x hx).triggeredOn_insert o b).mpr ht) F hF
  · intro g hg
    by_cases hgf : g = f
    · have hout : g ∉ o' := fun hin => ((hmem g).mp hin).2 hgf
      rw [SortedMap.get?_eq_none.mpr hout, SortedMap.get?_eq_none.mpr (hgf ▸ hf)]
    · have hkept := h.inertia g fun x hx ht =>
        hg x hx (((hr x hx).triggeredOn_insert o b).mp ht)
      simpa [SortedMap.get?_insert, hgf] using hkept

namespace Scenario

theorem Foreign.statementsFor (h : s.Foreign f) (e : Event) :
    ∀ x ∈ s.statementsFor e, x.Ignores f :=
  fun x hx => h.rules x (List.mem_of_mem_filter hx)

theorem Foreign.triggers_insert (h : s.Foreign f) (e : Event) (o : Valuation) (b : Bool) :
    (s.adding f).Triggers e (o.insert f b) ↔ s.Triggers e o := by
  refine exists_congr fun x => and_congr_right fun hx => ?_
  exact (h.statementsFor e x hx).triggeredOn_insert o b

theorem Next.omits {q : History} (hn : s.Next t m p q) (hp : p.Omits f) : q.Omits f := by
  cases hn with
  | rests => exact hp
  | fires last hl _ e _ _ o ho =>
    intro x hx
    rcases List.mem_append.mp hx with hx | hx
    · exact hp x hx
    · rw [List.mem_singleton.mp hx, ho.fluents f]
      exact hp last (List.mem_of_getLast? hl)

theorem Foreign.next_valued {q : History} (h : s.Foreign f)
    (hm : ∀ F, m.constraint = some F → f ∉ F.atoms) (hn : s.Next t m p q) (b : Bool) :
    (s.adding f).Next t m (p.valued f b) (q.valued f b) := by
  have hlast {x : Entry} (hx : p.getLast? = some x) :
      (p.valued f b).getLast? = some (x.valued f b) := by
    simp [History.valued, List.getLast?_map, hx]
  cases hn with
  | rests last hl admitted quiet =>
    refine .rests _ (hlast hl) ((Moment.admits_insert hm _ b).mpr admitted) ?_
    intro e he ht
    exact quiet e he ((h.triggers_insert e _ b).mp ht)
  | fires last hl admitted e he ht o' ho =>
    have hfires : (s.adding f).Next t m (p.valued f b)
        (p.valued f b ++ [⟨t + 1, o'.insert f b, some e⟩]) :=
      .fires _ (hlast hl) ((Moment.admits_insert hm _ b).mpr admitted) e he
        ((h.triggers_insert e _ b).mpr ht) _ (ho.insert (h.statementsFor e) b)
    simpa [History.valued, Entry.valued] using hfires

/-- With the fluent in it a history goes on as it does without. -/
theorem Foreign.next_iff (h : s.Foreign f) (hm : ∀ F, m.constraint = some F → f ∉ F.atoms)
    (hp : p.Omits f) (b : Bool) (q' : History) :
    (s.adding f).Next t m (p.valued f b) q' ↔ ∃ q, s.Next t m p q ∧ q.valued f b = q' := by
  have hlast {last : Entry} (hl : (p.valued f b).getLast? = some last) :
      ∃ x, p.getLast? = some x ∧ x.valued f b = last := by
    simpa [History.valued, List.getLast?_map] using hl
  constructor
  · intro hn
    cases hn with
    | rests last hl admitted quiet =>
      obtain ⟨x, hx, rfl⟩ := hlast hl
      refine ⟨p, .rests x hx ((Moment.admits_insert hm _ b).mp admitted) ?_, rfl⟩
      intro e he ht
      exact quiet e he ((h.triggers_insert e _ b).mpr ht)
    | fires last hl admitted e he ht o'' ho =>
      obtain ⟨x, hx, rfl⟩ := hlast hl
      have hout := hp x (List.mem_of_getLast? hx)
      obtain ⟨o', ho', rfl⟩ := ho.exists_insert (h.statementsFor e) hout
      refine ⟨p ++ [⟨t + 1, o', some e⟩], ?_, by simp [History.valued, Entry.valued]⟩
      exact .fires x hx ((Moment.admits_insert hm _ b).mp admitted) e he
        ((h.triggers_insert e _ b).mp ht) o' ho'
  · intro hn
    obtain ⟨q, hn, rfl⟩ := hn
    exact h.next_valued hm hn b

theorem Foreign.reads_iff (h : s.Foreign f)
    (hms : ∀ x ∈ ms, ∀ F, x.2.constraint = some F → f ∉ F.atoms) (hp : p.Omits f) (b : Bool)
    (q' : History) :
    (s.adding f).Reads ms (p.valued f b) q' ↔ ∃ q, s.Reads ms p q ∧ q.valued f b = q' := by
  induction ms generalizing p with
  | nil =>
    constructor
    · intro hr
      cases hr with
      | done => exact ⟨p, .done p, rfl⟩
    · intro hr
      obtain ⟨q, hr, rfl⟩ := hr
      cases hr with
      | done => exact .done _
  | cons x ms ih =>
    obtain ⟨hx, hrest⟩ := List.forall_mem_cons.mp hms
    constructor
    · intro hr
      cases hr with
      | read first rest =>
        obtain ⟨p', hn, rfl⟩ := (h.next_iff hx hp b _).mp first
        obtain ⟨q, hr, hq⟩ := (ih hrest (hn.omits hp)).mp rest
        exact ⟨q, .read hn hr, hq⟩
    · intro hr
      obtain ⟨q, hr, hq⟩ := hr
      cases hr with
      | read first rest =>
        have hlater := (ih hrest (first.omits hp)).mpr ⟨q, rest, hq⟩
        exact .read ((h.next_iff hx hp b _).mpr ⟨_, first, rfl⟩) hlater

theorem Foreign.initial_iff (h : s.Foreign f) (o' : Valuation) :
    (s.adding f).Initial o' ↔ ∃ o b, s.Initial o ∧ o.insert f b = o' := by
  constructor
  · intro hi
    have hf : f ∈ o' := (hi.fluents f).mpr ((SortedMap.mem_insert ..).mpr (.inl rfl))
    obtain ⟨b, hb⟩ := SortedMap.exists_get? hf
    obtain ⟨o, rfl, hmem⟩ := SortedMap.exists_eq_insert hb
    refine ⟨o, b, ⟨?_, ?_⟩, rfl⟩
    · intro g
      rw [hmem, hi.fluents, adding, SortedMap.mem_insert]
      by_cases hg : g = f <;> simp [hg, h.unknown]
    · intro F hF
      rw [← Successor.eval_insert o F (h.constraints _ F hF) b]
      exact hi.constraint F hF
  · intro hi
    obtain ⟨o, b, hi, rfl⟩ := hi
    constructor
    · intro g
      rw [adding, SortedMap.mem_insert, SortedMap.mem_insert, hi.fluents]
    · intro F hF
      rw [Successor.eval_insert o F (h.constraints _ F hF) b]
      exact hi.constraint F hF

/-- The legal histories are those without the fluent, each with either value of it. -/
theorem Foreign.legal_iff (h : s.Foreign f) (horizon : Time) (q' : History) :
    (s.adding f).Legal horizon q' ↔ ∃ q b, s.Legal horizon q ∧ q.valued f b = q' := by
  have hms : ∀ x ∈ s.timeline.entries.filter (·.1 ≤ horizon), ∀ F, x.2.constraint = some F →
      f ∉ F.atoms := by
    intro x hx F hF
    apply h.constraints x.1 F
    rw [constraintAt, ((s.mem_filter_timeline horizon x).mp hx).1]
    exact hF
  have homits {o : Valuation} (hi : s.Initial o) :
      History.Omits f [⟨s.startTime, o, none⟩] := by
    simpa [History.Omits, hi.fluents] using h.unknown
  constructor
  · intro hq
    obtain ⟨o', hi', hread'⟩ := hq
    obtain ⟨o, b, hi, rfl⟩ := (h.initial_iff o').mp hi'
    obtain ⟨q, hread, hq⟩ := (h.reads_iff hms (homits hi) b q').mp hread'
    exact ⟨q, b, ⟨o, hi, hread⟩, hq⟩
  · intro hq
    obtain ⟨q, b, ⟨o, hi, hread⟩, hq⟩ := hq
    have hread' := (h.reads_iff hms (homits hi) b q').mpr ⟨q, hread, hq⟩
    exact ⟨_, (h.initial_iff _).mpr ⟨o, b, hi, rfl⟩, hread'⟩

theorem Foreign.omits (h : s.Foreign f) (ho : s.Orderly p) : p.Omits f := by
  intro e he hf
  exact h.unknown ((ho.fluents e he f).mp hf)

end Scenario

end Steps

namespace Scenario

section Adding

variable {s : Scenario} {f : Fluent} {limits : Limits} {horizon : Time} {r r' : Run}

/-- Each history of the one run is in the other with either value of the fluent. -/
theorem histories_adding (hf : s.Foreign f) (h : s.run limits horizon = .ok r)
    (h' : (s.adding f).run limits horizon = .ok r') :
    r'.histories.Perm
      (r.histories.map (History.valued f true) ++ r.histories.map (History.valued f false)) := by
  have homits : ∀ p ∈ r.histories, History.Omits f p := fun p hp => hf.omits (run_orderly h p hp)
  have hne : ∀ p ∈ r.histories, p ≠ [] := by
    intro p hp hnil
    obtain ⟨o, hfirst⟩ := (run_orderly h p hp).first
    simp [hnil] at hfirst
  have hinj {b c : Bool} (p : History) (hp : p ∈ r.histories) (q : History)
      (hq : q ∈ r.histories) (he : p.valued f b = q.valued f c) : p = q ∧ b = c :=
    History.valued_inj (homits p hp) (homits q hq) (hne p hp) he
  have hvalued (b : Bool) : (r.histories.map (History.valued f b)).Nodup :=
    (histories_nodup h).map_on fun p hp q hq he => (hinj p hp q hq he).1
  have happ : (r.histories.map (History.valued f true) ++
      r.histories.map (History.valued f false)).Nodup := by
    refine List.nodup_append.mpr ⟨hvalued true, hvalued false, ?_⟩
    intro _ hpv _ hqv he
    obtain ⟨p, hp, rfl⟩ := List.mem_map.mp hpv
    obtain ⟨q, hq, rfl⟩ := List.mem_map.mp hqv
    exact Bool.noConfusion (hinj p hp q hq he).2
  refine (List.perm_ext_iff_of_nodup (histories_nodup h') happ).mpr ?_
  intro q'
  simp only [mem_histories h', hf.legal_iff, List.mem_append, List.mem_map, mem_histories h,
    Bool.exists_bool, exists_or]
  exact or_comm

/-- A fluent that neither the scenario nor the query mentions doubles the histories, and makes no
difference to the answer. -/
theorem run_adding (hf : s.Foreign f) (h : s.run limits horizon = .ok r)
    (h' : (s.adding f).run limits horizon = .ok r') :
    r'.modelCount = 2 * r.modelCount ∧ ∀ q, ¬ q.Mentions f → r.answer q = r'.answer q := by
  have hperm := histories_adding hf h h'
  constructor
  · have hlen := hperm.length_eq
    simp only [Run.histories, List.length_append, List.length_map, Array.length_toList] at hlen
    rw [Run.modelCount, Run.modelCount, hlen]
    omega
  · intro q hq
    have halike (b : Bool) (p : History) (hp : p ∈ r.histories) :
        q.Alike horizon p (p.valued f b) := by
      have ho := run_orderly h p hp
      exact Query.alike_valued ho.increasing (hf.omits ho) horizon hq
    have hcommon : q.Common s (s.adding f) := by
      rintro F t mode rfl
      refine ⟨Iff.rfl, ?_⟩
      intro g hg
      have hgf : g ≠ f := fun he => hq (he ▸ hg)
      rw [adding, SortedMap.mem_insert, or_iff_right hgf]
    refine Run.answer_congr h h' hcommon ⟨?_, ?_⟩
    · intro p hp
      have hin : History.valued f true p ∈ r'.histories := by
        refine hperm.mem_iff.mpr (List.mem_append_left _ ?_)
        exact List.mem_map.mpr ⟨p, hp, rfl⟩
      exact ⟨_, hin, halike true p hp⟩
    · intro p' hp'
      rcases List.mem_append.mp (hperm.mem_iff.mp hp') with hp' | hp'
      · obtain ⟨p, hp, rfl⟩ := List.mem_map.mp hp'
        exact ⟨p, hp, halike true p hp⟩
      · obtain ⟨p, hp, rfl⟩ := List.mem_map.mp hp'
        exact ⟨p, hp, halike false p hp⟩

end Adding

end Scenario

theorem coin_foreign_rain : coin.Foreign ⟨"rain"⟩ := by
  refine ⟨by decide, ?_, ?_⟩
  · intro x hx
    obtain rfl := List.mem_singleton.mp hx
    constructor <;> simp
  · intro t F hF
    by_cases ht : t = 0
    · obtain rfl : Formula.atom ⟨"heads"⟩ = F := by
        simpa [Scenario.constraintAt, coin, SortedMap.get?_insert, ht] using hF
      simp
    · simp [Scenario.constraintAt, coin, SortedMap.get?_insert, ht] at hF

/-- It may or may not rain while the coin is tossed. -/
theorem coin_adding_rain : coin.Foreign ⟨"rain"⟩ ∧
    ∃ r r', coin.run .standard 1 = .ok r ∧ (coin.adding ⟨"rain"⟩).run .standard 1 = .ok r' ∧
      r.modelCount = 2 ∧ r'.modelCount = 4 ∧ r'.modelCount = 2 * r.modelCount ∧
      ∀ q, ¬ q.Mentions ⟨"rain"⟩ → r.answer q = r'.answer q := by
  obtain ⟨r, hr, htwo⟩ := coin_run
  obtain ⟨r', hr', hfour⟩ : ∃ r', (coin.adding ⟨"rain"⟩).run .standard 1 = .ok r' ∧
      r'.modelCount = 4 := Result.ok_of_toOption_map (by decide +kernel)
  have hadding := Scenario.run_adding coin_foreign_rain hr hr'
  exact ⟨coin_foreign_rain, r, r', hr, hr', htwo, hfour, hadding⟩

end Chronicle
