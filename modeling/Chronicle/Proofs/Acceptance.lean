import Chronicle.Proofs.Literal

/-!
Which problems are accepted, entry by entry, and what names then occur in the batch. No keyword is
the name of a fluent. Actions and agents are among those declared, where any are.
-/

namespace Chronicle

/-- Where names are declared, the name is among them. -/
def Permits (declared : Option (List String)) (name : String) : Prop :=
  ∀ names, declared = some names → name ∈ names

namespace Problem

variable {p : Problem}

/-- An action is given, and it and the agent, if one is given, are permitted. -/
structure NamesEvent (p : Problem) (action agent : Option String) : Prop where
  given : action.isSome
  action : ∀ name, action = some name → Permits p.actions name
  agent : ∀ name, agent = some name → Permits p.agents name

/-- An event whose action and agent are permitted. -/
structure PermitsEvent (p : Problem) (e : Event) : Prop where
  action : Permits p.actions e.action.name
  agent : ∀ a, e.agent = some a → Permits p.agents a.name

theorem permits_iff (declared : Option (List String)) (name : String) :
    Permits declared name ↔ ¬ declared.any (!·.contains name) = true := by
  cases declared <;> simp [Permits]

/-- A name is read where it is permitted. -/
theorem read_eq_ok {α : Type} (declared : Option (List String)) (name : String) (e : ParseError)
    (a b : α) : (if declared.any (!·.contains name) then .error e else .ok b) = Except.ok a ↔
      Permits declared name ∧ a = b := by
  rw [permits_iff]
  split
  case isTrue h => exact iff_of_false (by simp) fun hp => hp.1 h
  case isFalse h => rw [and_iff_right h, Except.ok.injEq, eq_comm]

theorem action_eq_ok (name : String) (a : Action) :
    p.action name = .ok a ↔ Permits p.actions name ∧ a = ⟨name⟩ := read_eq_ok ..

theorem agent_eq_ok (name : String) (a : Agent) :
    p.agent name = .ok a ↔ Permits p.agents name ∧ a = ⟨name⟩ := read_eq_ok ..

theorem agent?_eq_ok (given : Option String) (a : Option Agent) : p.agent? given = .ok a ↔
    (∀ name, given = some name → Permits p.agents name) ∧ a = given.map Agent.mk := by
  cases given with
  | none => simp [agent?, eq_comm]
  | some name =>
    simp only [agent?, Result.bind_eq_ok, agent_eq_ok, pure, Except.pure, Except.ok.injEq]
    simp [eq_comm]

theorem event_eq_ok (field : String) (given agent : Option String) (e : Event) :
    p.event field given agent = .ok e ↔ p.NamesEvent given agent ∧
      given = some e.action.name ∧ e.agent = agent.map Agent.mk := by
  simp only [event, Result.bind_eq_ok, require_eq_ok, action_eq_ok, agent?_eq_ok, pure, Except.pure]
  constructor
  · intro h
    obtain ⟨name, rfl, _, ⟨haction, rfl⟩, _, ⟨hagent, rfl⟩, h⟩ := h
    obtain rfl := Except.ok.inj h
    refine ⟨⟨rfl, ?_, hagent⟩, rfl, rfl⟩
    intro name hname
    exact Option.some.inj hname ▸ haction
  · intro h
    obtain ⟨hnames, rfl, hagent⟩ := h
    exact ⟨_, rfl, _, ⟨hnames.action _ rfl, rfl⟩, _, ⟨hnames.agent, rfl⟩, by rw [← hagent]⟩

theorem event_isOk (field : String) (given agent : Option String) :
    (∃ e, p.event field given agent = .ok e) ↔ p.NamesEvent given agent := by
  simp only [event_eq_ok]
  constructor
  · intro h
    obtain ⟨_, h, _⟩ := h
    exact h
  · intro h
    obtain ⟨name, rfl⟩ := Option.isSome_iff_exists.mp h.given
    exact ⟨⟨⟨name⟩, agent.map Agent.mk⟩, h, rfl, rfl⟩

theorem permitsEvent_of_event {field : String} {given agent : Option String} {e : Event}
    (h : p.event field given agent = .ok e) : p.PermitsEvent e := by
  obtain ⟨hnames, hgiven, hagent⟩ := (event_eq_ok _ _ _ _).mp h
  refine ⟨hnames.action _ hgiven, ?_⟩
  intro a ha
  rw [ha] at hagent
  obtain ⟨name, hname, rfl⟩ := Option.map_eq_some_iff.mp hagent.symm
  exact hnames.agent name hname

/-- The kind of a statement is known, and a fluent is given to one that releases. -/
theorem consequence_isOk (kind : String) (ls : List Literal) :
    (∃ c, consequence kind ls = .ok c) ↔ kind = "causes" ∨ kind = "releases" ∧ ls ≠ [] := by
  simp only [consequence_eq_ok, List.ne_nil_iff_exists_cons]
  constructor
  · intro h
    obtain ⟨_, ⟨hkind, _⟩ | ⟨hkind, f, value, more, hls, _⟩⟩ := h
    · exact .inl hkind
    · exact .inr ⟨hkind, (f, value), more, hls⟩
  · intro h
    rcases h with hkind | ⟨hkind, ⟨f, value⟩, more, hls⟩
    · exact ⟨_, .inl ⟨hkind, rfl⟩⟩
    · exact ⟨_, .inr ⟨hkind, f, value, more, hls, rfl⟩⟩

theorem mem_of_releases {kind : String} {ls : List Literal} {f : Fluent}
    (h : consequence kind ls = .ok (.releases f)) : ∃ value, (f, value) ∈ ls := by
  rcases consequence_eq_ok.mp h with ⟨_, hc⟩ | ⟨_, g, value, more, rfl, hc⟩
  · cases hc
  · obtain rfl := Consequence.releases.inj hc
    exact ⟨value, List.mem_cons_self⟩

end Problem

/-- The words for modes that are known. -/
def Mode.words : List String := ["necessary", "necessarily", "possible", "possibly"]

theorem Mode.ofWord_isOk (word : String) : (∃ mode, ofWord word = .ok mode) ↔ word ∈ words := by
  unfold ofWord words
  split <;> simp_all

/-- A statement names an event, its trees are read, and its kind is known. If it releases, it has a
literal among its effects. -/
structure StatementEntry.Complete (p : Problem) (entry : StatementEntry) : Prop where
  event : p.NamesEvent entry.action entry.agent
  condition : ∃ F, Formula.ofTree? entry.condition = .ok F
  effects : ∃ ls, Problem.effects entry.effects = .ok ls ∧
    (entry.kind = some "causes" ∨ entry.kind = some "releases" ∧ ls ≠ [])

structure EventEntry.Complete (p : Problem) (entry : EventEntry) : Prop where
  time : entry.time.isSome
  event : p.NamesEvent entry.action entry.agent

structure ObservationEntry.Complete (entry : ObservationEntry) : Prop where
  time : entry.time.isSome
  formula : ∃ F, Formula.ofTree? entry.formula = .ok F

/-- A query has what its kind requires. -/
inductive QueryEntry.Complete (p : Problem) : QueryEntry → Prop
  | fluent {d : QueryDetails} {word : String} (hmode : d.mode = some word)
      (hword : word ∈ Mode.words) (htime : d.time.isSome)
      (hcondition : ∃ F, Formula.ofTree? d.condition = .ok F) : Complete p ⟨some "fluent", some d⟩
  | action {d : QueryDetails} (hevent : p.NamesEvent d.action d.agent) (htime : d.time.isSome) :
      Complete p ⟨some "action", some d⟩
  | agent {d : QueryDetails} {name : String} (hagent : d.agent = some name)
      (hpermits : Permits p.agents name) : Complete p ⟨some "agent", some d⟩

/-- A problem has a horizon and states, of which none is a keyword, all its entries are complete,
and no two of its events come at one time. -/
structure Problem.Complete (p : Problem) : Prop where
  termination : p.termination.isSome
  states : ∃ names, p.states = some names ∧ ∀ name ∈ names, ¬ IsKeyword name
  statements : ∀ entry ∈ p.statements, entry.Complete p
  events : ∀ entry ∈ p.events, entry.Complete p
  distinct : (p.events.map EventEntry.time).Nodup
  observations : ∀ entry ∈ p.observations, entry.Complete
  queries : ∀ entry ∈ p.queries, entry.Complete p

namespace Problem

variable {p : Problem}

theorem statement_isOk (entry : StatementEntry) :
    (∃ s, p.statement entry = .ok s) ↔ entry.Complete p := by
  simp only [statement_iff]
  constructor
  · intro h
    obtain ⟨s, hevent, hcondition, ls, kind, hls, hkind, hc⟩ := h
    have hknown := (consequence_isOk kind ls).mp ⟨_, hc⟩
    refine ⟨(event_isOk _ _ _).mp ⟨_, hevent⟩, ⟨_, hcondition⟩, ls, hls, ?_⟩
    simpa [hkind] using hknown
  · intro h
    obtain ⟨e, hevent⟩ := (event_isOk "STATEMENT.action" _ _).mpr h.event
    obtain ⟨F, hF⟩ := h.condition
    obtain ⟨ls, hls, hknown⟩ := h.effects
    obtain ⟨kind, hkind⟩ : ∃ kind, entry.kind = some kind :=
      hknown.elim (fun h => ⟨_, h⟩) fun h => ⟨_, h.1⟩
    rw [hkind, Option.some.injEq, Option.some.injEq] at hknown
    obtain ⟨c, hc⟩ := (consequence_isOk kind ls).mpr hknown
    exact ⟨⟨e, F, c⟩, hevent, hF, ls, kind, hls, hkind, hc⟩

theorem timedEvent_isOk (entry : EventEntry) :
    (∃ e, p.timedEvent entry = .ok e) ↔ entry.Complete p := by
  simp only [Prod.exists, timedEvent_eq_ok]
  constructor
  · intro h
    obtain ⟨t, e, htime, hevent⟩ := h
    exact ⟨Option.isSome_iff_exists.mpr ⟨t, htime⟩, (event_isOk _ _ _).mp ⟨e, hevent⟩⟩
  · intro h
    obtain ⟨t, htime⟩ := Option.isSome_iff_exists.mp h.time
    obtain ⟨e, hevent⟩ := (event_isOk "ACS.action" _ _).mpr h.event
    exact ⟨t, e, htime, hevent⟩

theorem timedFormula_isOk (entry : ObservationEntry) :
    (∃ o, timedFormula entry = .ok o) ↔ entry.Complete := by
  simp only [Prod.exists, timedFormula_eq_ok]
  constructor
  · intro h
    obtain ⟨t, F, htime, hF⟩ := h
    exact ⟨Option.isSome_iff_exists.mpr ⟨t, htime⟩, F, hF⟩
  · intro h
    obtain ⟨t, htime⟩ := Option.isSome_iff_exists.mp h.time
    obtain ⟨F, hF⟩ := h.formula
    exact ⟨t, F, htime, hF⟩

theorem query_isOk (entry : QueryEntry) : (∃ q, p.query entry = .ok q) ↔ entry.Complete p := by
  simp only [query_iff]
  constructor
  · intro h
    obtain ⟨kind, details⟩ := entry
    obtain ⟨q, d, rfl, h⟩ := h
    rcases h with ⟨rfl, word, mode, t, F, hmode, hword, htime, hF, -⟩ |
      ⟨rfl, e, t, he, htime, -⟩ | ⟨rfl, name, a, hagent, ha, -⟩
    · exact .fluent hmode ((Mode.ofWord_isOk word).mp ⟨mode, hword⟩)
        (Option.isSome_iff_exists.mpr ⟨t, htime⟩) ⟨F, hF⟩
    · exact .action ((event_isOk _ _ _).mp ⟨e, he⟩) (Option.isSome_iff_exists.mpr ⟨t, htime⟩)
    · exact .agent hagent ((agent_eq_ok name a).mp ha).1
  · intro h
    cases h with
    | @fluent d word hmode hword htime hcondition =>
      obtain ⟨mode, hmode'⟩ := (Mode.ofWord_isOk word).mpr hword
      obtain ⟨t, ht⟩ := Option.isSome_iff_exists.mp htime
      obtain ⟨F, hF⟩ := hcondition
      exact ⟨_, d, rfl, .inl ⟨rfl, word, mode, t, F, hmode, hmode', ht, hF, rfl⟩⟩
    | @action d hevent htime =>
      obtain ⟨e, he⟩ := (event_isOk "QUERY.concrete_query.action" _ _).mpr hevent
      obtain ⟨t, ht⟩ := Option.isSome_iff_exists.mp htime
      exact ⟨_, d, rfl, .inr (.inl ⟨rfl, e, t, he, ht, rfl⟩)⟩
    | @agent d name hagent hpermits =>
      have ha := (agent_eq_ok name ⟨name⟩).mpr ⟨hpermits, rfl⟩
      exact ⟨_, d, rfl, .inr (.inr ⟨rfl, name, _, hagent, ha, rfl⟩)⟩

theorem states_isOk (names : List String) : (∃ fs, names.mapM Fluent.ofWord = .ok fs) ↔
    ∀ name ∈ names, ¬ IsKeyword name := by
  rw [Result.mapM_isOk_iff]
  simp [Fluent.ofWord_eq_ok]

theorem times_of_timedEvent {es : List (Time × Event)} (h : p.events.mapM p.timedEvent = .ok es) :
    p.events.map EventEntry.time = (es.map Prod.fst).map some := by
  rw [Result.mapM_eq_ok] at h
  generalize p.events = entries at h ⊢
  induction h with
  | nil => rfl
  | @cons entry e entries es he _ ih =>
    rw [List.map_cons, List.map_cons, List.map_cons, ih, ((timedEvent_eq_ok _ _ _).mp he).1]

theorem distinct_iff {es : List (Time × Event)} (h : p.events.mapM p.timedEvent = .ok es) :
    (p.events.map EventEntry.time).Nodup ↔ (es.map Prod.fst).Nodup := by
  rw [times_of_timedEvent h, List.nodup_map_iff fun _ _ => Option.some.inj]

/-- A problem is accepted just where it is complete. -/
theorem toBatch_isOk (p : Problem) : (∃ b, p.toBatch = .ok b) ↔ p.Complete := by
  simp only [toBatch_eq_ok]
  constructor
  · intro h
    obtain ⟨_, r, _⟩ := h
    exact ⟨Option.isSome_iff_exists.mpr ⟨_, r.horizon_eq⟩,
      ⟨_, r.states_eq, (states_isOk _).mp ⟨_, r.fluents_eq⟩⟩,
      fun entry hentry => (statement_isOk entry).mp (Result.mapM_isOk r.statements_eq entry hentry),
      fun entry hentry => (timedEvent_isOk entry).mp (Result.mapM_isOk r.events_eq entry hentry),
      (distinct_iff r.events_eq).mpr r.distinct,
      fun entry hentry =>
        (timedFormula_isOk entry).mp (Result.mapM_isOk r.observations_eq entry hentry),
      fun entry hentry => (query_isOk entry).mp (Result.mapM_isOk r.queries_eq entry hentry)⟩
  · intro h
    obtain ⟨horizon, hhorizon⟩ := Option.isSome_iff_exists.mp h.termination
    obtain ⟨states, hstates, hnames⟩ := h.states
    obtain ⟨fs, hfs⟩ := (states_isOk states).mpr hnames
    obtain ⟨ss, hss⟩ := Result.exists_mapM fun entry hentry =>
      (statement_isOk entry).mpr (h.statements entry hentry)
    obtain ⟨es, hes⟩ := Result.exists_mapM fun entry hentry =>
      (timedEvent_isOk entry).mpr (h.events entry hentry)
    obtain ⟨os, hos⟩ := Result.exists_mapM fun entry hentry =>
      (timedFormula_isOk entry).mpr (h.observations entry hentry)
    obtain ⟨qs, hqs⟩ := Result.exists_mapM fun entry hentry =>
      (query_isOk entry).mpr (h.queries entry hentry)
    exact ⟨_, ⟨horizon, states, fs, ss, es, os, qs, hhorizon, hstates, hfs, hss, hes,
      (distinct_iff hes).mp h.distinct, hos, hqs⟩, rfl⟩

end Problem

def Query.event? : Query → Option Event
  | formula _ _ _ => none
  | action a g _ => some ⟨a, g⟩
  | agent _ => none

def Query.agent? : Query → Option Agent
  | formula _ _ _ => none
  | action _ _ _ => none
  | agent g => some g

namespace Batch

/-- The events of statements, those that are given, and those that are asked about. -/
def events (b : Batch) : List Event :=
  b.scenario.statements.map Statement.event ++
    b.scenario.timeline.entries.filterMap (fun m => m.2.event) ++ b.queries.filterMap Query.event?

def actions (b : Batch) : List Action := b.events.map Event.action

def agents (b : Batch) : List Agent :=
  b.events.filterMap Event.agent ++ b.queries.filterMap Query.agent?

/-- A fluent occurs in a batch: it is one of its fluents, or an atom of one of its formulas, or is
released by a statement. -/
inductive Mentions (b : Batch) (f : Fluent) : Prop
  | declared (h : f ∈ b.scenario.fluents)
  | atom {F : Formula} (hF : F ∈ b.formulas) (hf : f ∈ F.atoms)
  | released {s : Statement} (hs : s ∈ b.scenario.statements) (hf : s.consequence = .releases f)

end Batch

section Keywords

variable {f : Fluent} {F : Formula} {tree : Option Tree}

theorem Formula.not_keyword (h : ofTree? tree = .ok F) (hf : f ∈ F.atoms) :
    ¬ IsKeyword f.name := by
  cases tree with
  | none =>
    obtain rfl := Except.ok.inj h
    exact absurd hf (not_mem_atoms_top f)
  | some tree => exact (derives_of_ofTree h).not_keyword hf

theorem Literal.not_keyword {negated : Bool} {words : List String} {ls : List Literal}
    (h : ofWords negated words = .ok ls) : ∀ l ∈ ls, ¬ IsKeyword l.1.name := by
  induction words generalizing negated ls with
  | nil =>
    obtain ⟨_, rfl⟩ := ofWords_nil_eq_ok.mp h
    simp
  | cons word words ih =>
    rcases ofWords_cons_eq_ok.mp h with ⟨_, _, h⟩ | ⟨_, h⟩ | ⟨hword, more, hmore, rfl⟩
    · exact ih h
    · exact ih h
    · exact List.forall_mem_cons.mpr ⟨hword, ih hmore⟩

theorem Problem.effects_not_keyword {ls : List Literal} (h : effects tree = .ok ls) :
    ∀ l ∈ ls, ¬ IsKeyword l.1.name := by
  cases tree with
  | none =>
    obtain rfl := Except.ok.inj h
    simp
  | some tree => exact Literal.not_keyword h

end Keywords

namespace Problem

variable {p : Problem} {b : Batch}

theorem Reading.mem_events (r : Reading p) {e : Event}
    (he : e ∈ (Timeline.gather r.events r.observations).entries.filterMap fun m => m.2.event) :
    ∃ t, (t, e) ∈ r.events := by
  obtain ⟨⟨t, m⟩, hm, he⟩ := List.mem_filterMap.mp he
  rw [Timeline.eq_gather r.distinct ((SortedMap.get?_eq_some _ _ _).mpr hm), Moment.gather] at he
  exact ⟨t, (SortedMap.lookup_eq_some _ _ _ r.distinct).mp he⟩

theorem Reading.not_keyword (r : Reading p) {f : Fluent} (h : r.batch.Mentions f) :
    ¬ IsKeyword f.name := by
  cases h with
  | declared h =>
    obtain ⟨word, _, hread⟩ :=
      (Result.mem_mapM r.fluents_eq f).mp ((FluentSet.mem_ofList _ _).mp h)
    obtain ⟨hword, rfl⟩ := Fluent.ofWord_eq_ok.mp hread
    exact hword
  | released hs hf =>
    obtain ⟨entry, _, hread⟩ := (Result.mem_mapM r.statements_eq _).mp hs
    obtain ⟨_, _, ls, kind, hls, _, hc⟩ := (statement_iff _ _).mp hread
    obtain ⟨value, hl⟩ := mem_of_releases (hf ▸ hc)
    exact effects_not_keyword hls _ hl
  | @atom F hF hf =>
    simp only [Batch.formulas, Reading.batch, List.mem_append] at hF
    rcases hF with ((hF | hF) | hF) | hF
    · obtain ⟨s, hs, rfl⟩ := List.mem_map.mp hF
      obtain ⟨entry, _, hread⟩ := (Result.mem_mapM r.statements_eq s).mp hs
      exact Formula.not_keyword ((statement_iff _ _).mp hread).2.1 hf
    · obtain ⟨entry, _, _, ls, hls, rfl⟩ := (r.mem_effects F).mp hF
      obtain ⟨l, hl, rfl⟩ := List.mem_map.mp ((Literal.mem_atoms_conjunction ls f).mp hf)
      exact effects_not_keyword hls l hl
    · obtain ⟨t, _, rfl⟩ := (r.mem_constraints F).mp hF
      obtain ⟨G, hG, hf⟩ := (Formula.mem_atoms_conjunction _ _).mp hf
      obtain ⟨entry, _, hread⟩ :=
        (Result.mem_mapM r.observations_eq _).mp ((mem_formulasAt t _ G).mp hG)
      exact Formula.not_keyword ((timedFormula_eq_ok _ _ _).mp hread).2 hf
    · obtain ⟨q, hq, hqF⟩ := List.mem_filterMap.mp hF
      obtain ⟨entry, _, hread⟩ := (Result.mem_mapM r.queries_eq q).mp hq
      obtain ⟨tree, htree⟩ := query_formula hread hqF
      exact Formula.not_keyword htree hf

theorem query_permits {entry : QueryEntry} {q : Query} (h : p.query entry = .ok q) :
    (∀ e, q.event? = some e → p.PermitsEvent e) ∧
    ∀ a, q.agent? = some a → Permits p.agents a.name := by
  obtain ⟨d, _, h⟩ := (query_iff entry q).mp h
  rcases h with ⟨_, _, _, _, _, _, _, _, _, rfl⟩ | ⟨_, e, t, he, _, rfl⟩ | ⟨_, name, a, _, ha, rfl⟩
  · simp [Query.event?, Query.agent?]
  · simpa [Query.event?, Query.agent?] using permitsEvent_of_event he
  · obtain ⟨hpermits, rfl⟩ := (agent_eq_ok name a).mp ha
    simpa [Query.event?, Query.agent?] using hpermits

theorem Reading.permitsEvent (r : Reading p) : ∀ e ∈ r.batch.events, p.PermitsEvent e := by
  intro e he
  simp only [Batch.events, Reading.batch, List.mem_append] at he
  rcases he with (he | he) | he
  · obtain ⟨s, hs, rfl⟩ := List.mem_map.mp he
    obtain ⟨entry, _, hread⟩ := (Result.mem_mapM r.statements_eq s).mp hs
    exact permitsEvent_of_event ((statement_iff _ _).mp hread).1
  · obtain ⟨t, ht⟩ := r.mem_events he
    obtain ⟨entry, _, hread⟩ := (Result.mem_mapM r.events_eq _).mp ht
    exact permitsEvent_of_event ((timedEvent_eq_ok _ _ _).mp hread).2
  · obtain ⟨q, hq, hqe⟩ := List.mem_filterMap.mp he
    obtain ⟨entry, _, hread⟩ := (Result.mem_mapM r.queries_eq q).mp hq
    exact (query_permits hread).1 e hqe

theorem Reading.permits_actions (r : Reading p) :
    ∀ a ∈ r.batch.actions, Permits p.actions a.name := by
  intro a ha
  obtain ⟨e, he, rfl⟩ := List.mem_map.mp ha
  exact (r.permitsEvent e he).action

theorem Reading.permits_agents (r : Reading p) :
    ∀ a ∈ r.batch.agents, Permits p.agents a.name := by
  intro a ha
  rcases List.mem_append.mp ha with ha | ha
  · obtain ⟨e, he, hea⟩ := List.mem_filterMap.mp ha
    exact (r.permitsEvent e he).agent a hea
  · obtain ⟨q, hq, hqa⟩ := List.mem_filterMap.mp ha
    obtain ⟨entry, _, hread⟩ := (Result.mem_mapM r.queries_eq q).mp hq
    exact (query_permits hread).2 a hqa

/-- The problems accepted are those that are complete. In one that is accepted no keyword is a
fluent, and agents and actions are among those declared. -/
theorem toBatch_names (p : Problem) :
    ((∃ b, p.toBatch = .ok b) ↔ p.Complete) ∧
    ∀ b, p.toBatch = .ok b →
      (∀ f, b.Mentions f → ¬ IsKeyword f.name) ∧
      (∀ a ∈ b.agents, Permits p.agents a.name) ∧
      ∀ a ∈ b.actions, Permits p.actions a.name := by
  refine ⟨toBatch_isOk p, ?_⟩
  intro b hb
  obtain ⟨r, rfl⟩ := toBatch_eq_ok.mp hb
  exact ⟨fun _ => r.not_keyword, r.permits_agents, r.permits_actions⟩

end Problem

/-- Names are declared, and used in a statement, in an event and in a query. -/
def annsLamp : Problem where
  termination := some 2
  states := some ["lit", "hot"]
  agents := some ["ann", "bob"]
  actions := some ["switch"]
  statements := [⟨some "switch", some "ann", some "releases", some (.name "lit"),
    some (.list [.name "not", .name "hot"])⟩]
  events := [⟨some "switch", some "ann", some 0⟩]
  observations := [⟨some (.name "lit"), some 1⟩]
  queries := [⟨some "agent", some ⟨none, none, none, none, some "bob"⟩⟩]

theorem annsLamp_names : annsLamp.Complete ∧ ∃ b, annsLamp.toBatch = .ok b ∧
    (b.Mentions ⟨"lit"⟩ ∧ ¬ IsKeyword "lit") ∧
    (⟨"bob"⟩ ∈ b.agents ∧ Permits annsLamp.agents "bob") ∧
    (⟨"switch"⟩ ∈ b.actions ∧ Permits annsLamp.actions "switch") := by
  obtain ⟨hcomplete, hnames⟩ := Problem.toBatch_names annsLamp
  obtain ⟨b, hb, hoccur⟩ : ∃ b, annsLamp.toBatch = .ok b ∧
      decide (⟨"lit"⟩ ∈ b.scenario.fluents.keys ∧ ⟨"bob"⟩ ∈ b.agents ∧ ⟨"switch"⟩ ∈ b.actions) :=
    Result.ok_of_toOption_map (by decide +kernel)
  obtain ⟨hlit, hbob, hswitch⟩ := of_decide_eq_true hoccur
  obtain ⟨hkeyword, hagents, hactions⟩ := hnames b hb
  exact ⟨hcomplete.mp ⟨b, hb⟩, b, hb, ⟨.declared hlit, hkeyword _ (.declared hlit)⟩,
    ⟨hbob, hagents _ hbob⟩, hswitch, hactions _ hswitch⟩

end Chronicle
