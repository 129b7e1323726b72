import Chronicle.Proofs.Query
import Mathlib.Data.List.Chain

/-!
The course of a legal history. It comes to each moment up to the horizon with an entry that the
moment admits, and it goes on from an entry only by an event that is triggered there.
-/

namespace Chronicle

namespace Scenario

def eventAt (s : Scenario) (t : Time) : Option Event := (s.timeline.get? t).bind Moment.event

/-- The entry `b` is what the event at a time has made of the entry `a`. -/
structure Fires (s : Scenario) (t : Time) (e : Event) (a b : Entry) : Prop where
  event : s.eventAt t = some e
  before : a.time ≤ t
  triggered : s.Triggers e a.observation
  outcome : Outcome (s.statementsFor e) a.observation b.observation
  time : b.time = t + 1
  firing : b.firing = some e

end Scenario

/-- The entry records the event of one of the moments. -/
def Records (ms : List (Time × Moment)) (x : Entry) : Prop :=
  ∃ t m e, (t, m) ∈ ms ∧ m.event = some e ∧ x.time = t + 1 ∧ x.firing = some e

theorem Records.mono {ms ms' : List (Time × Moment)} {x : Entry} (h : Records ms x)
    (hs : ms ⊆ ms') : Records ms' x := by
  obtain ⟨t, m, e, hm, he⟩ := h
  exact ⟨t, m, e, hs hm, he⟩

namespace Scenario

section Reading

variable {s : Scenario} {t : Time} {m : Moment} {ms ms' : List (Time × Moment)} {p q : History}

theorem reads_append (s : Scenario) (ms ms' : List (Time × Moment)) (p q : History) :
    s.Reads (ms ++ ms') p q ↔ ∃ p', s.Reads ms p p' ∧ s.Reads ms' p' q := by
  induction ms generalizing p with
  | nil =>
    constructor
    · intro h
      exact ⟨p, .done p, h⟩
    · intro h
      obtain ⟨p', hnone, h⟩ := h
      cases hnone with
      | done => exact h
  | cons m ms ih =>
    constructor
    · intro h
      cases h with
      | read first rest =>
        obtain ⟨p', hms, hms'⟩ := (ih _).mp rest
        exact ⟨p', .read first hms, hms'⟩
    · intro h
      obtain ⟨p', hms, hms'⟩ := h
      cases hms with
      | read first rest => exact .read first ((ih _).mpr ⟨p', rest, hms'⟩)

/-- Reading moments adds entries that record their events, and changes nothing before. -/
theorem Reads.adds (h : s.Reads ms p q) : ∃ xs, q = p ++ xs ∧ ∀ x ∈ xs, Records ms x := by
  induction h with
  | done p => exact ⟨[], by simp, by simp⟩
  | @read t m ms p p' q first _ ih =>
    obtain ⟨xs, rfl, hxs⟩ := ih
    have hlater : ∀ x ∈ xs, Records ((t, m) :: ms) x :=
      fun x hx => (hxs x hx).mono (List.subset_cons_self _ _)
    cases first with
    | rests => exact ⟨xs, rfl, hlater⟩
    | fires _ _ _ e he _ o _ =>
      refine ⟨⟨t + 1, o, some e⟩ :: xs, by simp, List.forall_mem_cons.mpr ⟨?_, hlater⟩⟩
      exact ⟨t, m, e, by simp, he, rfl, rfl⟩

/-- A history that ends before a moment still does after reading earlier ones. -/
theorem Reads.endsBy (h : s.Reads ms p q) (hp : EndsBy t p) (hms : ∀ m ∈ ms, m.1 < t) :
    EndsBy t q := by
  obtain ⟨xs, rfl, hxs⟩ := h.adds
  refine ⟨by simp [hp.1], ?_⟩
  intro x hx
  rcases List.mem_append.mp hx with hx | hx
  · exact hp.2 x hx
  · obtain ⟨t', m, e, hm, _, htime, _⟩ := hxs x hx
    have hlt := hms _ hm
    rw [htime]
    exact hlt

theorem Next.goesOn (h : s.Next t m p q) : ∃ x xs, p.getLast? = some x ∧ m.Admits x.observation ∧
    q = p ++ xs ∧ ∀ y ∈ xs, y.time = t + 1 := by
  cases h with
  | rests x hx admitted _ => exact ⟨x, [], hx, admitted, by simp, by simp⟩
  | fires x hx admitted e _ _ o _ => exact ⟨x, [⟨t + 1, o, some e⟩], hx, admitted, rfl, by simp⟩

theorem Next.isChain (h : s.Next t m p q) (hm : s.timeline.get? t = some m) (hp : EndsBy t p)
    {R : Entry → Entry → Prop} (hR : ∀ e a b, s.Fires t e a b → R a b) (hc : p.IsChain R) :
    q.IsChain R := by
  cases h with
  | rests => exact hc
  | fires last hl _ e he ht o ho =>
    refine hc.append (List.isChain_singleton _) ?_
    intro a ha b hb
    obtain rfl : last = a := Option.some.inj (hl.symm.trans ha)
    obtain rfl : ⟨t + 1, o, some e⟩ = b := by simpa using hb
    have hevent : s.eventAt t = some e := by rw [eventAt, hm]; exact he
    exact hR e last _ ⟨hevent, hp.2 last (List.mem_of_getLast? hl), ht, ho, rfl, rfl⟩

theorem Reads.isChain (h : s.Reads ms p q) (hms : ∀ m ∈ ms, s.timeline.get? m.1 = some m.2)
    (hord : (ms.map Prod.fst).Pairwise (· < ·)) (hp : ∀ m ∈ ms, EndsBy m.1 p)
    {R : Entry → Entry → Prop} (hR : ∀ m ∈ ms, ∀ e a b, s.Fires m.1 e a b → R a b)
    (hc : p.IsChain R) : q.IsChain R := by
  induction h with
  | done => exact hc
  | @read t m ms p p' q first _ ih =>
    obtain ⟨hm, hms⟩ := List.forall_mem_cons.mp hms
    obtain ⟨ht, hR⟩ := List.forall_mem_cons.mp hR
    have hnow := hp _ List.mem_cons_self
    exact ih hms hord.of_cons ((first.endsBy hnow).before_rest hord) hR
      (first.isChain hm hnow ht hc)

end Reading

section Course

variable {s : Scenario} {horizon t : Time} {m : Moment} {p : History}

theorem mem_filter_timeline (s : Scenario) (horizon : Time) (m : Time × Moment) :
    m ∈ s.timeline.entries.filter (·.1 ≤ horizon) ↔
      s.timeline.get? m.1 = some m.2 ∧ m.1 ≤ horizon := by
  rw [List.mem_filter, SortedMap.get?_eq_some, decide_eq_true_iff]

/-- A legal history goes on from an entry by an event at a time within the horizon. -/
theorem Legal.isChain (h : s.Legal horizon p) :
    p.IsChain fun a b => ∃ t e, t ≤ horizon ∧ s.Fires t e a b := by
  obtain ⟨o, _, hread⟩ := h
  refine hread.isChain ?_ ?_ ?_ ?_ (List.isChain_singleton _)
  · intro m hm
    exact ((s.mem_filter_timeline horizon m).mp hm).1
  · exact s.moments_ordered horizon
  · intro m hm
    exact EndsBy.start o (s.startTime_le (List.mem_of_mem_filter hm))
  · intro m hm e a b hf
    exact ⟨m.1, e, ((s.mem_filter_timeline horizon m).mp hm).2, hf⟩

/-- A legal history comes to each moment up to the horizon with what it holds then, moves on as the
moment lets it, and adds nothing but later entries. -/
theorem Legal.passes (h : s.Legal horizon p) (hm : s.timeline.get? t = some m) (ht : t ≤ horizon) :
    ∃ before after later x, before.getLast? = some x ∧ IsLatest p t x ∧ s.Next t m before after ∧
      p = after ++ later ∧ ∀ y ∈ later, t + 1 < y.time := by
  have hinc := h.orderly.increasing
  obtain ⟨o, _, hread⟩ := h
  obtain ⟨earlier, rest, hsplit⟩ :=
    List.append_of_mem ((s.mem_filter_timeline horizon (t, m)).mpr ⟨hm, ht⟩)
  have hord : ((earlier ++ (t, m) :: rest).map Prod.fst).Pairwise (· < ·) :=
    hsplit ▸ s.moments_ordered horizon
  rw [List.map_append, List.map_cons, List.pairwise_append, List.pairwise_cons] at hord
  obtain ⟨_, ⟨hrest, _⟩, hearlier⟩ := hord
  rw [hsplit, reads_append] at hread
  obtain ⟨before, hbefore, hread⟩ := hread
  have hends : EndsBy t before := by
    apply hbefore.endsBy
    · exact EndsBy.start o (s.startTime_le ((s.timeline.get?_eq_some t m).mp hm))
    · intro m' hm'
      exact hearlier m'.1 (List.mem_map.mpr ⟨m', hm', rfl⟩) t List.mem_cons_self
  cases hread with
  | @read _ _ _ _ after _ first last =>
    obtain ⟨later, rfl, hrecords⟩ := last.adds
    have hlater : ∀ y ∈ later, t + 1 < y.time := by
      intro y hy
      obtain ⟨t', m', e, hm', _, htime, _⟩ := hrecords y hy
      have hlt := hrest t' (List.mem_map.mpr ⟨(t', m'), hm', rfl⟩)
      rw [htime]
      exact Int.add_lt_add_right hlt 1
    obtain ⟨x, xs, hx, _, rfl, hxs⟩ := first.goesOn
    refine ⟨before, before ++ xs, later, x, hx, ?_, first, rfl, hlater⟩
    have hnext : ∀ y ∈ xs ++ later, t < y.time := by
      intro y hy
      rcases List.mem_append.mp hy with hy | hy
      · exact hxs y hy ▸ Int.lt_succ t
      · exact lt_trans (Int.lt_succ t) (hlater y hy)
    rw [List.append_assoc] at hinc ⊢
    rw [isLatest_append before hnext]
    exact isLatest_getLast (List.pairwise_append.mp hinc).1 hx (hends.2 x (List.mem_of_getLast? hx))

end Course

end Scenario

end Chronicle
