import Chronicle.Proofs.Acceptance
import Mathlib.Data.List.Induction

/-!
The timeline that a problem states. There is a moment for each time at which an event or an
observation is given, with that event, and with a constraint that says all that is observed then.
Two events at one time are refused, and the first time that is given again is the one reported.
-/

namespace Chronicle

/-- An element that has come before, where none has up to it. -/
def FirstRepeat {α : Type} (xs : List α) (x : α) : Prop :=
  ∃ before after, xs = before ++ x :: after ∧ before.Nodup ∧ x ∈ before

theorem exists_firstRepeat {α : Type} (xs : List α) : (∃ x, FirstRepeat xs x) ↔ ¬ xs.Nodup := by
  constructor
  · intro h hn
    obtain ⟨x, before, after, rfl, _, hx⟩ := h
    exact List.disjoint_of_nodup_append hn hx List.mem_cons_self
  · intro h
    induction xs using List.reverseRecOn with
    | nil => exact absurd .nil h
    | append_singleton xs x ih =>
      by_cases hn : xs.Nodup
      · have hx : x ∈ xs := by
          by_contra hout
          exact h (List.concat_eq_append ▸ hn.concat hout)
        exact ⟨x, xs, [], rfl, hn, hx⟩
      · obtain ⟨y, before, after, rfl, hbefore, hy⟩ := ih hn
        exact ⟨y, before, after ++ [x], by simp, hbefore, hy⟩

theorem firstRepeat_map {α β : Type} {f : α → β} (hf : Function.Injective f) (xs : List α) (x : α) :
    FirstRepeat (xs.map f) (f x) ↔ FirstRepeat xs x := by
  constructor
  · intro h
    obtain ⟨before, after, hsplit, hn, hx⟩ := h
    obtain ⟨before, rest, rfl, rfl, hrest⟩ := List.map_eq_append_iff.mp hsplit
    obtain ⟨y, after, rfl, hy, _⟩ := List.map_eq_cons_iff.mp hrest
    obtain rfl := hf hy
    exact ⟨before, after, rfl, hn.of_map f, (List.mem_map_of_injective hf).mp hx⟩
  · intro h
    obtain ⟨before, after, rfl, hn, hx⟩ := h
    exact ⟨before.map f, after.map f, by simp, hn.map hf, List.mem_map_of_mem hx⟩

namespace Problem

variable {p : Problem} {line : Timeline} {b : Batch}

/-- The moment says what the entries of a problem at a time say: the event of the one entry that
gives an event then, and all the formulas that are observed then. -/
structure Gives (p : Problem) (t : Time) (m : Moment) : Prop where
  event_iff : m.event.isSome ↔ (p.events.map EventEntry.time).count (some t) = 1
  event : ∀ entry ∈ p.events, entry.time = some t →
    ∃ e, p.event "ACS.action" entry.action entry.agent = .ok e ∧ m.event = some e
  constraint_iff : m.constraint.isSome ↔ ∃ entry ∈ p.observations, entry.time = some t
  atoms : ∀ F, m.constraint = some F → ∀ f, f ∈ F.atoms ↔
    ∃ entry ∈ p.observations, entry.time = some t ∧
      ∃ G, Formula.ofTree? entry.formula = .ok G ∧ f ∈ G.atoms
  truth : ∀ F, m.constraint = some F → ∀ v : Valuation, v.eval F = .ok true ↔
    ∀ entry ∈ p.observations, entry.time = some t →
      ∃ G, Formula.ofTree? entry.formula = .ok G ∧ v.eval G = .ok true

theorem Reading.mem_events_iff (r : Reading p) (t : Time) (e : Event) :
    (t, e) ∈ r.events ↔ ∃ entry ∈ p.events,
      entry.time = some t ∧ p.event "ACS.action" entry.action entry.agent = .ok e := by
  simp only [Result.mem_mapM r.events_eq, timedEvent_eq_ok]

theorem Reading.mem_observations_iff (r : Reading p) (t : Time) (F : Formula) :
    (t, F) ∈ r.observations ↔ ∃ entry ∈ p.observations,
      entry.time = some t ∧ Formula.ofTree? entry.formula = .ok F := by
  simp only [Result.mem_mapM r.observations_eq, timedFormula_eq_ok]

theorem Reading.mem_event_times (r : Reading p) (t : Time) :
    t ∈ r.events.map Prod.fst ↔ ∃ entry ∈ p.events, entry.time = some t := by
  rw [← List.mem_map, times_of_timedEvent r.events_eq, List.mem_map]
  simp

theorem Reading.exists_formula (r : Reading p) {entry : ObservationEntry}
    (h : entry ∈ p.observations) : ∃ F, Formula.ofTree? entry.formula = .ok F :=
  ((timedFormula_isOk entry).mp (Result.mapM_isOk r.observations_eq entry h)).formula

theorem Reading.mem_observation_times (r : Reading p) (t : Time) :
    t ∈ r.observations.map Prod.fst ↔ ∃ entry ∈ p.observations, entry.time = some t := by
  constructor
  · intro h
    obtain ⟨⟨t, F⟩, ho, rfl⟩ := List.mem_map.mp h
    obtain ⟨entry, hentry, ht, _⟩ := (r.mem_observations_iff t F).mp ho
    exact ⟨entry, hentry, ht⟩
  · intro h
    obtain ⟨entry, hentry, ht⟩ := h
    obtain ⟨F, hF⟩ := r.exists_formula hentry
    exact List.mem_map.mpr ⟨(t, F), (r.mem_observations_iff t F).mpr ⟨entry, hentry, ht, hF⟩, rfl⟩

theorem Reading.conjunction_eq (r : Reading p) {t : Time} {F : Formula}
    (h : (Moment.gather t r.events r.observations).constraint = some F) :
    Formula.conjunction (formulasAt t r.observations) = F :=
  Option.some.inj (Option.ite_none_left_eq_some.mp h).2

theorem Reading.gives_gather (r : Reading p) (t : Time) :
    p.Gives t (Moment.gather t r.events r.observations) := by
  have htimes := times_of_timedEvent r.events_eq
  have hnodup : (p.events.map EventEntry.time).Nodup := (distinct_iff r.events_eq).mpr r.distinct
  constructor
  · rw [Moment.gather, SortedMap.lookup_isSome, r.mem_event_times, ← List.mem_map]
    constructor
    · exact List.count_eq_one_of_mem hnodup
    · intro hone
      exact List.count_pos_iff.mp (by omega)
  · intro entry hentry ht
    obtain ⟨⟨t', e⟩, hread⟩ := Result.mapM_isOk r.events_eq entry hentry
    obtain ⟨ht', he⟩ := (timedEvent_eq_ok _ _ _).mp hread
    obtain rfl := Option.some.inj (ht.symm.trans ht')
    exact ⟨e, he, (SortedMap.lookup_eq_some t e _ r.distinct).mpr
      ((r.mem_events_iff t e).mpr ⟨entry, hentry, ht, he⟩)⟩
  · rw [Moment.gather, ← r.mem_observation_times]
    have hnil := formulasAt_eq_nil t r.observations
    by_cases h : formulasAt t r.observations = []
    · simp [h, hnil.mp h]
    · have hin := not_not.mp (mt hnil.mpr h)
      simp [h, hin]
  · intro F hF f
    rw [← r.conjunction_eq hF, Formula.mem_atoms_conjunction]
    constructor
    · intro h
      obtain ⟨G, hG, hf⟩ := h
      obtain ⟨entry, hentry, ht, hread⟩ :=
        (r.mem_observations_iff t G).mp ((mem_formulasAt t _ G).mp hG)
      exact ⟨entry, hentry, ht, G, hread, hf⟩
    · intro h
      obtain ⟨entry, hentry, ht, G, hread, hf⟩ := h
      have hG := (r.mem_observations_iff t G).mpr ⟨entry, hentry, ht, hread⟩
      exact ⟨G, (mem_formulasAt t _ G).mpr hG, hf⟩
  · intro F hF v
    rw [← r.conjunction_eq hF, Valuation.eval_eq_ok, Formula.eval_conjunction]
    constructor
    · intro h entry hentry ht
      obtain ⟨G, hread⟩ := r.exists_formula hentry
      have hG := (r.mem_observations_iff t G).mpr ⟨entry, hentry, ht, hread⟩
      exact ⟨G, hread, (v.eval_eq_ok G true).mpr (h G ((mem_formulasAt t _ G).mpr hG))⟩
    · intro h G hG
      obtain ⟨entry, hentry, ht, hread⟩ :=
        (r.mem_observations_iff t G).mp ((mem_formulasAt t _ G).mp hG)
      obtain ⟨G', hread', htrue⟩ := h entry hentry ht
      obtain rfl := Except.ok.inj (hread.symm.trans hread')
      exact (v.eval_eq_ok G true).mp htrue

/-- What comes before the observations can be read: there are a horizon and states, of which none is
refused, and each statement and each event is read by itself. -/
structure EventsReadable (p : Problem) : Prop where
  termination : p.termination.isSome
  states : ∃ names, p.states = some names ∧ ∀ name ∈ names, ∃ f, Fluent.ofWord name = .ok f
  statements : ∀ entry ∈ p.statements, ∃ s, p.statement entry = .ok s
  events : ∀ entry ∈ p.events, ∃ e, p.timedEvent entry = .ok e

/-- Once they are read, events are refused for nothing but their times. -/
theorem addEvents_eq {entries : List EventEntry} {es : List (Time × Event)}
    (h : entries.mapM p.timedEvent = .ok es) (line : Timeline) :
    p.addEvents line entries = (SortedMap.addDistinct .duplicateTime line
      (es.map fun e => (e.1, (⟨some e.2, none⟩ : Moment)))).mapError .logic := by
  rw [Result.mapM_eq_ok] at h
  induction h generalizing line with
  | nil => rfl
  | @cons entry e entries es he _ ih =>
    obtain ⟨t, e⟩ := e
    obtain ⟨ht, he⟩ := (timedEvent_eq_ok _ _ _).mp he
    rw [addEvents, (require_eq_ok _ _ _).mpr ht, he, List.map_cons, SortedMap.addDistinct]
    by_cases hmem : t ∈ line
    · rw [if_pos hmem]
      simp [Except.mapError, hmem, bind, Except.bind, throw, throwThe, MonadExceptOf.throw]
    · rw [if_neg hmem, ← ih]
      simp [Except.mapError, hmem, bind, Except.bind]

theorem addEvents_eq_duplicateTime (h : ∀ entry ∈ p.events, ∃ e, p.timedEvent entry = .ok e)
    (t : Time) : p.addEvents ∅ p.events = .error (.logic (.duplicateTime t)) ↔
      FirstRepeat (p.events.map EventEntry.time) (some t) := by
  obtain ⟨es, hes⟩ := Result.exists_mapM h
  have hkeys : (es.map fun e => (e.1, (⟨some e.2, none⟩ : Moment))).map Prod.fst =
      es.map Prod.fst := by simp
  rw [times_of_timedEvent hes, firstRepeat_map fun _ _ => Option.some.inj]
  simp only [addEvents_eq hes, Result.mapError_eq_error, SortedMap.addDistinct_eq_error, hkeys]
  constructor
  · intro h
    obtain ⟨_, ⟨before, t', after, hsplit, hn, _, hin, rfl⟩, he⟩ := h
    obtain rfl := LogicError.duplicateTime.inj (Error.logic.inj he)
    exact ⟨before, after, hsplit, hn, hin.resolve_left (SortedMap.not_mem_empty _)⟩
  · intro h
    obtain ⟨before, after, hsplit, hn, hin⟩ := h
    exact ⟨_, ⟨before, t, after, hsplit, hn, fun j _ => SortedMap.not_mem_empty j, .inr hin, rfl⟩,
      rfl⟩

/-- After the events a problem can be refused for what it says, and not for what is to be built. -/
theorem EventsReadable.toBatch_eq_duplicateTime (h : p.EventsReadable) (t : Time) :
    p.toBatch = .error (.logic (.duplicateTime t)) ↔
      p.addEvents ∅ p.events = .error (.logic (.duplicateTime t)) := by
  obtain ⟨horizon, hhorizon⟩ := Option.isSome_iff_exists.mp h.termination
  obtain ⟨names, hnames, hfluents⟩ := h.states
  obtain ⟨fs, hfs⟩ := Result.exists_mapM hfluents
  obtain ⟨ss, hss⟩ := Result.exists_mapM h.statements
  simp [toBatch, Result.bind_eq_error, Result.mapError_eq_error, Result.mapError_eq_ok, require,
    hhorizon, hnames, hfs, hss, Scenario.ofDistinct_entries, pure, Except.pure]

/-- An accepted problem has one moment for each time that an event or an observation is given for,
and the moment says what they say. If no more than the times of events can be at fault, a problem is
refused for a time just where one is repeated, and for the first that is. The moments themselves are
at different times, whatever was given. -/
theorem toBatch_timeline (p : Problem) :
    (∀ b, p.toBatch = .ok b → b.scenario.timeline.keys.Nodup ∧ ∀ t,
      (t ∈ b.scenario.timeline ↔ (∃ entry ∈ p.events, entry.time = some t) ∨
        ∃ entry ∈ p.observations, entry.time = some t) ∧
      ∀ m, b.scenario.timeline.get? t = some m → p.Gives t m) ∧
    (p.EventsReadable →
      (∀ t, p.toBatch = .error (.logic (.duplicateTime t)) ↔
        FirstRepeat (p.events.map EventEntry.time) (some t)) ∧
      ((∃ t, p.toBatch = .error (.logic (.duplicateTime t))) ↔
        ¬ (p.events.map EventEntry.time).Nodup)) ∧
    ∀ fs (line : Timeline) statements,
      Scenario.ofDistinct fs line.entries statements = .ok ⟨.ofList fs, line, statements⟩ := by
  refine ⟨?_, ?_, Scenario.ofDistinct_entries⟩
  · intro b hb
    obtain ⟨r, rfl⟩ := toBatch_eq_ok.mp hb
    refine ⟨SortedMap.keys_nodup _, ?_⟩
    intro t
    constructor
    · rw [← r.mem_event_times, ← r.mem_observation_times]
      exact Timeline.mem_gather r.distinct
    · intro m hm
      rw [Timeline.eq_gather r.distinct hm]
      exact r.gives_gather t
  · intro h
    have hrepeat (t : Time) : p.toBatch = .error (.logic (.duplicateTime t)) ↔
        FirstRepeat (p.events.map EventEntry.time) (some t) :=
      (h.toBatch_eq_duplicateTime t).trans (addEvents_eq_duplicateTime h.events t)
    refine ⟨hrepeat, ?_⟩
    simp only [hrepeat, ← exists_firstRepeat]
    constructor
    · intro h
      obtain ⟨t, ht⟩ := h
      exact ⟨some t, ht⟩
    · intro hx
      obtain ⟨x, hx⟩ := hx
      obtain ⟨t, rfl⟩ : ∃ t, x = some t := by
        obtain ⟨before, after, hsplit, _, hin⟩ := hx
        have hmem : x ∈ p.events.map EventEntry.time := by simp [hsplit]
        obtain ⟨entry, hentry, rfl⟩ := List.mem_map.mp hmem
        exact Option.isSome_iff_exists.mp ((timedEvent_isOk entry).mp (h.events entry hentry)).time
      exact ⟨t, hx⟩

end Problem

/-- A kettle is put on when it is full, and is not hot before that. -/
def kettle : Problem where
  termination := some 3
  states := some ["full", "hot"]
  agents := none
  actions := none
  statements := [⟨some "boil", none, some "causes", some (.name "hot"), some (.name "full")⟩]
  events := [⟨some "boil", none, some 2⟩, ⟨some "fill", none, some 0⟩]
  observations := [⟨some (.name "full"), some 2⟩, ⟨none, some 3⟩,
    ⟨some (.list [.name "not", .name "hot"]), some 2⟩]
  queries := []

/-- The same with each event given twice. -/
def kettleTwice : Problem := { kettle with events := kettle.events ++ kettle.events }

theorem kettle_timeline :
    (∃ b m, kettle.toBatch = .ok b ∧ b.scenario.timeline.get? 2 = some m ∧ kettle.Gives 2 m ∧
      3 ∈ b.scenario.timeline ∧ b.scenario.timeline.size = 3) ∧
    kettleTwice.EventsReadable ∧ kettleTwice.toBatch = .error (.logic (.duplicateTime 2)) := by
  constructor
  · obtain ⟨b, hb, hsize⟩ : ∃ b, kettle.toBatch = .ok b ∧ b.scenario.timeline.size = 3 :=
      Result.ok_of_toOption_map (by decide +kernel)
    obtain ⟨_, hmoments⟩ := (Problem.toBatch_timeline kettle).1 b hb
    have htwo : 2 ∈ b.scenario.timeline := (hmoments 2).1.mpr (.inl ⟨_, .head _, rfl⟩)
    have hthree : 3 ∈ b.scenario.timeline := (hmoments 3).1.mpr (.inr ⟨_, .tail _ (.head _), rfl⟩)
    obtain ⟨m, hm⟩ := SortedMap.exists_get? htwo
    exact ⟨b, m, hb, hm, (hmoments 2).2 m hm, hthree, hsize⟩
  · have hreadable : kettleTwice.EventsReadable :=
      ⟨rfl, ⟨_, rfl, (Result.mapM_isOk_iff Fluent.ofWord _).mp ⟨_, rfl⟩⟩,
        (Result.mapM_isOk_iff _ _).mp ⟨_, rfl⟩, (Result.mapM_isOk_iff _ _).mp ⟨_, rfl⟩⟩
    have hrepeat : FirstRepeat (kettleTwice.events.map EventEntry.time) (some 2) :=
      ⟨[some 2, some 0], [some 0], rfl, by decide, by decide⟩
    obtain ⟨htimes, _⟩ := (Problem.toBatch_timeline kettleTwice).2.1 hreadable
    exact ⟨hreadable, (htimes 2).mpr hrepeat⟩

end Chronicle
