import Chronicle.Problem
import Chronicle.Proofs.Result
import Chronicle.Proofs.SortedMap

/-!
What an accepted problem states. Its entries are read one by one, and those of events and of
observations are gathered into moments.
-/

namespace Chronicle

/-- What is observed at a time, in the order in which it is given. -/
def formulasAt (t : Time) (os : List (Time × Formula)) : List Formula :=
  os.filterMap fun o => if o.1 = t then some o.2 else none

/-- The moment that events and observations make at a time. -/
def Moment.gather (t : Time) (es : List (Time × Event)) (os : List (Time × Formula)) : Moment where
  event := SortedMap.lookup t es
  constraint :=
    if formulasAt t os = [] then none else some (Formula.conjunction (formulasAt t os))

namespace Timeline

def schedule (line : Timeline) (es : List (Time × Event)) : Timeline :=
  es.foldl (fun line e => line.insert e.1 ⟨some e.2, none⟩) line

def observe (line : Timeline) (os : List (Time × Formula)) : Timeline :=
  os.foldl (fun line o => line.insert o.1 (((line.get? o.1).getD .empty).constrain o.2)) line

def gather (es : List (Time × Event)) (os : List (Time × Formula)) : Timeline :=
  (schedule ∅ es).observe os

end Timeline

section Gather

variable {es : List (Time × Event)}

theorem Moment.foldl_constrain (m : Moment) (F : Formula) (Fs : List Formula)
    (h : m.constraint = none) :
    (F :: Fs).foldl constrain m = ⟨m.event, some (Formula.conjunction (F :: Fs))⟩ := by
  have hmore (e : Option Event) (G : Formula) :
      Fs.foldl constrain ⟨e, some G⟩ = ⟨e, some (Fs.foldl Formula.conjoin G)⟩ := by
    induction Fs generalizing G with
    | nil => rfl
    | cons F Fs ih => exact ih (G.conjoin F)
  have hfirst : m.constrain F = ⟨m.event, some F⟩ := by rw [constrain, h]
  rw [List.foldl_cons, hfirst, hmore]
  rfl

theorem Timeline.get?_observe (line : Timeline) (os : List (Time × Formula)) (t : Time) :
    (line.observe os).get? t = match formulasAt t os with
      | [] => line.get? t
      | F :: Fs => some ((F :: Fs).foldl Moment.constrain ((line.get? t).getD .empty)) := by
  induction os generalizing line with
  | nil => rfl
  | cons o os ih =>
    obtain ⟨t', F⟩ := o
    rw [observe, List.foldl_cons, ← observe, ih, SortedMap.get?_insert]
    by_cases ht : t' = t
    · have hfirst : formulasAt t ((t', F) :: os) = F :: formulasAt t os := by simp [formulasAt, ht]
      rw [if_pos ht.symm, hfirst, ht]
      cases formulasAt t os <;> rfl
    · have hskip : formulasAt t ((t', F) :: os) = formulasAt t os := by simp [formulasAt, ht]
      rw [if_neg fun he => ht he.symm, hskip]

theorem Timeline.get?_schedule (hes : (es.map Prod.fst).Nodup) (t : Time) :
    (schedule ∅ es).get? t = (SortedMap.lookup t es).map fun e => ⟨some e, none⟩ := by
  have hmap (es : List (Time × Event)) :
      SortedMap.lookup t (es.map fun e => (e.1, (⟨some e.2, none⟩ : Moment))) =
        (SortedMap.lookup t es).map fun e => ⟨some e, none⟩ := by
    induction es with
    | nil => rfl
    | cons e es ih => by_cases ht : t = e.1 <;> simp [SortedMap.lookup, ht, ih]
  have hkeys : (es.map fun e => (e.1, (⟨some e.2, none⟩ : Moment))).map Prod.fst =
      es.map Prod.fst := by simp
  have hget := SortedMap.get?_foldl_insert (∅ : Timeline) _ (hkeys ▸ hes) t
  rwa [List.foldl_map, hmap, SortedMap.get?_empty, Option.or_none] at hget

theorem mem_formulasAt (t : Time) (os : List (Time × Formula)) (F : Formula) :
    F ∈ formulasAt t os ↔ (t, F) ∈ os := by
  simp only [formulasAt, List.mem_filterMap, Option.ite_none_right_eq_some, Option.some.injEq]
  constructor
  · intro h
    obtain ⟨o, ho, rfl, rfl⟩ := h
    exact ho
  · intro h
    exact ⟨(t, F), h, rfl, rfl⟩

theorem formulasAt_eq_nil (t : Time) (os : List (Time × Formula)) :
    formulasAt t os = [] ↔ t ∉ os.map Prod.fst := by
  simp [List.eq_nil_iff_forall_not_mem, mem_formulasAt]

/-- There is a moment at each time for which something is given, and all of it is in the moment. -/
theorem Timeline.get?_gather (hes : (es.map Prod.fst).Nodup) (os : List (Time × Formula))
    (t : Time) : (gather es os).get? t =
      if t ∈ es.map Prod.fst ∨ t ∈ os.map Prod.fst then some (Moment.gather t es os) else none := by
  have hos := formulasAt_eq_nil t os
  have hlookup := SortedMap.lookup_eq_none t es
  rw [gather, get?_observe, get?_schedule hes, Moment.gather]
  cases hF : formulasAt t os with
  | nil =>
    have ht : t ∉ os.map Prod.fst := hos.mp hF
    cases hl : SortedMap.lookup t es with
    | none => rw [if_neg (not_or.mpr ⟨hlookup.mp hl, ht⟩)]; rfl
    | some e =>
      have he : t ∈ es.map Prod.fst := SortedMap.lookup_isSome.mp (by simp [hl])
      rw [if_pos (.inl he)]
      rfl
  | cons F Fs =>
    have ht : t ∈ os.map Prod.fst := by
      by_contra hnone
      simp [hos.mpr hnone] at hF
    rw [if_pos (.inr ht)]
    have hconstrain (e : Option Event) := Moment.foldl_constrain ⟨e, none⟩ F Fs rfl
    cases SortedMap.lookup t es with
    | none => exact congrArg some (hconstrain none)
    | some e => exact congrArg some (hconstrain (some e))

theorem Timeline.mem_gather (hes : (es.map Prod.fst).Nodup) {os : List (Time × Formula)}
    {t : Time} : t ∈ gather es os ↔ t ∈ es.map Prod.fst ∨ t ∈ os.map Prod.fst := by
  rw [← SortedMap.get?_isSome, get?_gather hes]
  split
  case isTrue h => exact iff_of_true rfl h
  case isFalse h => exact iff_of_false Bool.false_ne_true h

theorem Timeline.eq_gather (hes : (es.map Prod.fst).Nodup) {os : List (Time × Formula)}
    {t : Time} {m : Moment} (hm : (gather es os).get? t = some m) : m = Moment.gather t es os := by
  rw [get?_gather hes, Option.ite_none_right_eq_some] at hm
  exact (Option.some.inj hm.2).symm

end Gather

/-- The moments of a timeline are at different times, and are accepted as they are. -/
theorem Scenario.ofDistinct_entries (fs : List Fluent) (line : Timeline)
    (statements : List Statement) :
    ofDistinct fs line.entries statements = .ok ⟨.ofList fs, line, statements⟩ := by
  rw [ofDistinct, Timeline.ofDistinct, SortedMap.addDistinct_entries_empty]
  rfl

namespace Problem

def timedEvent (p : Problem) (entry : EventEntry) : Except ParseError (Time × Event) := do
  let t ← require "ACS.time" entry.time
  let e ← p.event "ACS.action" entry.action entry.agent
  return (t, e)

def timedFormula (entry : ObservationEntry) : Except ParseError (Time × Formula) := do
  let t ← require "OBS.time" entry.time
  let F ← Formula.ofTree? entry.formula
  return (t, F)

/-- What the sections of a problem are read as, where they all can be read. -/
structure Reading (p : Problem) where
  horizon : Time
  states : List String
  fluents : List Fluent
  statements : List Statement
  events : List (Time × Event)
  observations : List (Time × Formula)
  queries : List Query
  horizon_eq : p.termination = some horizon
  states_eq : p.states = some states
  fluents_eq : states.mapM Fluent.ofWord = .ok fluents
  statements_eq : p.statements.mapM p.statement = .ok statements
  events_eq : p.events.mapM p.timedEvent = .ok events
  distinct : (events.map Prod.fst).Nodup
  observations_eq : p.observations.mapM timedFormula = .ok observations
  queries_eq : p.queries.mapM p.query = .ok queries

def Reading.batch {p : Problem} (r : Reading p) : Batch where
  scenario := ⟨.ofList r.fluents, .gather r.events r.observations, r.statements⟩
  queries := r.queries
  horizon := r.horizon

section Accepted

variable {p : Problem} {line line' : Timeline} {b : Batch}

theorem require_eq_ok {α : Type} (field : String) (x : Option α) (a : α) :
    require field x = .ok a ↔ x = some a := by
  cases x <;> simp [require]

theorem timedEvent_eq_ok (entry : EventEntry) (t : Time) (e : Event) :
    p.timedEvent entry = .ok (t, e) ↔
      entry.time = some t ∧ p.event "ACS.action" entry.action entry.agent = .ok e := by
  simp [timedEvent, Result.bind_eq_ok, require_eq_ok, pure, Except.pure]

theorem timedFormula_eq_ok (entry : ObservationEntry) (t : Time) (F : Formula) :
    timedFormula entry = .ok (t, F) ↔
      entry.time = some t ∧ Formula.ofTree? entry.formula = .ok F := by
  simp [timedFormula, Result.bind_eq_ok, require_eq_ok, pure, Except.pure]

/-- A statement causes the conjunction of its literals, or releases the fluent of the first. -/
theorem consequence_eq_ok {kind : String} {ls : List Literal} {c : Consequence} :
    consequence kind ls = .ok c ↔
      (kind = "causes" ∧ c = .causes (Formula.conjunction (ls.map Literal.toFormula))) ∨
      (kind = "releases" ∧ ∃ f value more, ls = (f, value) :: more ∧ c = .releases f) := by
  unfold consequence
  by_cases hcauses : kind = "causes"
  · simp [hcauses, eq_comm]
  · by_cases hreleases : kind = "releases"
    · cases ls with
      | nil => simp [hreleases]
      | cons l ls =>
        obtain ⟨f, value⟩ := l
        simp [hreleases, eq_comm]
    · simp [hcauses, hreleases]

/-- A statement is read from the parts of its entry. -/
theorem statement_iff (entry : StatementEntry) (s : Statement) : p.statement entry = .ok s ↔
    p.event "STATEMENT.action" entry.action entry.agent = .ok s.event ∧
    Formula.ofTree? entry.condition = .ok s.condition ∧
    ∃ ls kind, effects entry.effects = .ok ls ∧ entry.kind = some kind ∧
      consequence kind ls = .ok s.consequence := by
  obtain ⟨event, condition, c⟩ := s
  simp only [statement, Result.bind_eq_ok, require_eq_ok, pure, Except.pure, Except.ok.injEq,
    Statement.mk.injEq]
  constructor
  · intro h
    obtain ⟨_, he, _, hF, ls, hls, kind, hkind, _, hc, rfl, rfl, rfl⟩ := h
    exact ⟨he, hF, ls, kind, hls, hkind, hc⟩
  · intro h
    obtain ⟨he, hF, ls, kind, hls, hkind, hc⟩ := h
    exact ⟨_, he, _, hF, ls, hls, kind, hkind, _, hc, rfl, rfl, rfl⟩

/-- What a query is, by its kind. -/
theorem query_iff (entry : QueryEntry) (q : Query) : p.query entry = .ok q ↔
    ∃ d, entry.details = some d ∧
      ((entry.kind = some "fluent" ∧ ∃ word mode t F, d.mode = some word ∧
        Mode.ofWord word = .ok mode ∧ d.time = some t ∧ Formula.ofTree? d.condition = .ok F ∧
        Query.formula F t mode = q) ∨
      (entry.kind = some "action" ∧ ∃ e t,
        p.event "QUERY.concrete_query.action" d.action d.agent = .ok e ∧ d.time = some t ∧
        Query.action e.action e.agent t = q) ∨
      (entry.kind = some "agent" ∧ ∃ name a, d.agent = some name ∧ p.agent name = .ok a ∧
        Query.agent a = q)) := by
  simp only [query, Result.bind_eq_ok, require_eq_ok]
  cases hkind : entry.kind with
  | none => simp
  | some kind =>
    by_cases hfluent : kind = "fluent"
    · simp [hfluent, Result.bind_eq_ok, require_eq_ok, pure, Except.pure]
    · by_cases haction : kind = "action"
      · simp [haction, Result.bind_eq_ok, require_eq_ok, pure, Except.pure]
      · by_cases hagent : kind = "agent"
        · simp [hagent, Result.bind_eq_ok, require_eq_ok, pure, Except.pure]
        · simp [hfluent, haction, hagent, throw, throwThe, MonadExceptOf.throw]

theorem addEvents_cons_eq_ok (entry : EventEntry) (rest : List EventEntry) :
    p.addEvents line (entry :: rest) = .ok line' ↔ ∃ t e, p.timedEvent entry = .ok (t, e) ∧
      t ∉ line ∧ p.addEvents (line.insert t ⟨some e, none⟩) rest = .ok line' := by
  simp only [addEvents, Result.bind_eq_ok, Result.mapError_eq_ok, require_eq_ok, timedEvent_eq_ok]
  constructor
  · intro h
    obtain ⟨t, ht, e, he, h⟩ := h
    by_cases hmem : t ∈ line
    · simp [hmem, throw, throwThe, MonadExceptOf.throw, bind, Except.bind] at h
    · exact ⟨t, e, ⟨ht, he⟩, hmem, by simpa [hmem, bind, Except.bind, pure, Except.pure] using h⟩
  · intro h
    obtain ⟨t, e, ⟨ht, he⟩, hmem, h⟩ := h
    exact ⟨t, ht, e, he, by simpa [hmem, bind, Except.bind, pure, Except.pure] using h⟩

/-- Events are accepted where each can be read and no two come at one time. -/
theorem addEvents_eq_ok (line : Timeline) (entries : List EventEntry) :
    p.addEvents line entries = .ok line' ↔ ∃ es, entries.mapM p.timedEvent = .ok es ∧
      (es.map Prod.fst).Nodup ∧ (∀ e ∈ es, e.1 ∉ line) ∧ line.schedule es = line' := by
  simp only [Result.mapM_eq_ok]
  induction entries generalizing line with
  | nil => simp [addEvents, Timeline.schedule]
  | cons entry rest ih =>
    simp only [addEvents_cons_eq_ok, ih, List.forall₂_cons_left_iff]
    constructor
    · intro h
      obtain ⟨t, e, he, ht, es, hes, hn, hout, hline⟩ := h
      have hfresh (x : Time × Event) (hx : x ∈ es) : x.1 ≠ t ∧ x.1 ∉ line := by
        simpa using hout x hx
      refine ⟨(t, e) :: es, ⟨(t, e), es, he, hes, rfl⟩, ?_, ?_, hline⟩
      · refine List.nodup_cons.mpr ⟨?_, hn⟩
        intro hmem
        obtain ⟨x, hx, hxt⟩ := List.mem_map.mp hmem
        exact (hfresh x hx).1 hxt
      · exact List.forall_mem_cons.mpr ⟨ht, fun x hx => (hfresh x hx).2⟩
    · intro h
      obtain ⟨_, ⟨⟨t, e⟩, es, he, hes, rfl⟩, hn, hout, hline⟩ := h
      obtain ⟨hfirst, hn⟩ := List.nodup_cons.mp hn
      obtain ⟨ht, hout⟩ := List.forall_mem_cons.mp hout
      refine ⟨t, e, he, ht, es, hes, hn, ?_, hline⟩
      intro x hx
      have hne : x.1 ≠ t := fun hxt => hfirst (List.mem_map.mpr ⟨x, hx, hxt⟩)
      simp [hne, hout x hx]

theorem addObservations_eq_ok (line : Timeline) (entries : List ObservationEntry) :
    addObservations line entries = .ok line' ↔
      ∃ os, entries.mapM timedFormula = .ok os ∧ line.observe os = line' := by
  simp only [Result.mapM_eq_ok]
  induction entries generalizing line with
  | nil => simp [addObservations, Timeline.observe]
  | cons entry rest ih =>
    simp only [addObservations, Result.bind_eq_ok, require_eq_ok, ih, List.forall₂_cons_left_iff]
    constructor
    · intro h
      obtain ⟨t, ht, F, hF, os, hos, hline⟩ := h
      have hentry := (timedFormula_eq_ok entry t F).mpr ⟨ht, hF⟩
      exact ⟨(t, F) :: os, ⟨(t, F), os, hentry, hos, rfl⟩, hline⟩
    · intro h
      obtain ⟨_, ⟨⟨t, F⟩, os, hentry, hos, rfl⟩, hline⟩ := h
      obtain ⟨ht, hF⟩ := (timedFormula_eq_ok entry t F).mp hentry
      exact ⟨t, ht, F, hF, os, hos, hline⟩

/-- A problem is accepted where it can be read, and states what it is read as. -/
theorem toBatch_eq_ok : p.toBatch = .ok b ↔ ∃ r : Reading p, r.batch = b := by
  simp only [toBatch, Result.bind_eq_ok, Result.mapError_eq_ok, require_eq_ok, addEvents_eq_ok,
    addObservations_eq_ok, Scenario.ofDistinct_entries, Except.ok.injEq, exists_eq_left']
  constructor
  · intro h
    obtain ⟨horizon, hh, states, hs, fluents, hf, statements, hst, _, ⟨es, he, hn, _, rfl⟩, _,
      ⟨os, ho, rfl⟩, queries, hq, hb⟩ := h
    exact ⟨⟨horizon, states, fluents, statements, es, os, queries, hh, hs, hf, hst, he, hn, ho, hq⟩,
      Except.ok.inj hb⟩
  · intro h
    obtain ⟨r, rfl⟩ := h
    exact ⟨r.horizon, r.horizon_eq, r.states, r.states_eq, r.fluents, r.fluents_eq, r.statements,
      r.statements_eq, _, ⟨r.events, r.events_eq, r.distinct,
        fun e _ => SortedMap.not_mem_empty e.1, rfl⟩, _, ⟨r.observations, r.observations_eq, rfl⟩,
      r.queries, r.queries_eq, rfl⟩

end Accepted

end Problem

end Chronicle
