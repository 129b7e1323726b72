import Chronicle.Proofs.Beyond
import Chronicle.Proofs.Constraint
import Chronicle.Proofs.Rules

/-!
A moment at which nothing is given. It may come before all others, and then a history begins there
with any observation, and is cut off later if the constraint of the first other moment does not
admit that. This comes to the same as beginning with the observations that are admitted.
-/

namespace Chronicle

/-- A formula is asked at a time or after it. -/
def Query.From (t₀ : Time) : Query → Prop
  | .formula _ t _ => t₀ ≤ t
  | .action .. => True
  | .agent _ => True

namespace Scenario

section Reading

variable {s : Scenario} {t t' horizon : Time} {m : Moment} {ms ms' : List (Time × Moment)}
  {p q : History}

/-- Nothing happens to a history at an empty moment. -/
theorem reads_empty (hp : p ≠ []) :
    s.Reads ((t, .empty) :: ms) p q ↔ s.Reads ms p q := by
  constructor
  · intro h
    cases h with
    | read first rest =>
      cases first with
      | rests => exact rest
      | fires _ _ _ e he => cases he
  · intro h
    have hl := List.getLast?_eq_some_getLast hp
    have hrests : s.Next t .empty p p := by
      refine .rests _ hl ?_ ?_
      · intro F hF
        cases hF
      · intro e he
        cases he
    exact .read hrests h

theorem reads_skip (hp : p ≠ []) :
    s.Reads (ms ++ (t, .empty) :: ms') p q ↔ s.Reads (ms ++ ms') p q := by
  rw [reads_append, reads_append]
  refine exists_congr fun p' => and_congr_right fun hms => reads_empty ?_
  obtain ⟨xs, rfl, _⟩ := hms.adds
  simp [hp]

/-- One step looks at nothing of a first entry but its observation. -/
theorem Next.reroot {x y : Entry} {xs : List Entry} (h : s.Next t m (x :: xs) q)
    (ho : y.observation = x.observation) :
    ∃ ys, q = x :: ys ∧ s.Next t m (y :: xs) (y :: ys) := by
  have hlast {z : Entry} (hz : (x :: xs).getLast? = some z) :
      ∃ z', (y :: xs).getLast? = some z' ∧ z'.observation = z.observation := by
    cases xs with
    | nil =>
      obtain rfl : x = z := by simpa using hz
      exact ⟨y, rfl, ho⟩
    | cons w ws => exact ⟨z, by simpa using hz, rfl⟩
  cases h with
  | rests z hz admitted quiet =>
    obtain ⟨z', hz', hobs⟩ := hlast hz
    exact ⟨xs, rfl, .rests z' hz' (hobs ▸ admitted) (hobs ▸ quiet)⟩
  | fires z hz admitted e he triggered o outcome =>
    obtain ⟨z', hz', hobs⟩ := hlast hz
    exact ⟨xs ++ [⟨t + 1, o, some e⟩], rfl,
      .fires z' hz' (hobs ▸ admitted) e he (hobs ▸ triggered) o (hobs ▸ outcome)⟩

theorem Reads.reroot {x y : Entry} {xs : List Entry} (h : s.Reads ms (x :: xs) q)
    (ho : y.observation = x.observation) :
    ∃ ys, q = x :: ys ∧ s.Reads ms (y :: xs) (y :: ys) := by
  induction ms generalizing xs with
  | nil =>
    cases h with
    | done => exact ⟨xs, rfl, .done _⟩
  | cons m ms ih =>
    cases h with
    | read first rest =>
      obtain ⟨ys, rfl, first'⟩ := first.reroot ho
      obtain ⟨zs, hq, rest'⟩ := ih rest
      exact ⟨zs, hq, .read first' rest'⟩

/-- The moments of a scenario are read alike with an empty one among them. -/
theorem reads_given_empty (ht : t' ∉ s.timeline) (hp : p ≠ []) :
    (s.given t' .empty).Reads ((s.given t' .empty).timeline.entries.filter (·.1 ≤ horizon)) p q ↔
      s.Reads (s.timeline.entries.filter (·.1 ≤ horizon)) p q := by
  have hrules : s.SameRules (s.given t' .empty) := fun _ => Iff.rfl
  obtain ⟨before, after, hs, hs'⟩ := s.timeline.entries_insert ht Moment.empty
  have hread : s.Reads ((s.given t' .empty).timeline.entries.filter (·.1 ≤ horizon)) p q ↔
      s.Reads (s.timeline.entries.filter (·.1 ≤ horizon)) p q := by
    rw [given, hs', hs, List.filter_append, List.filter_append, List.filter_cons]
    split
    · exact reads_skip hp
    · exact Iff.rfl
  exact Iff.trans ⟨hrules.symm.reads, hrules.reads⟩ hread

end Reading

section Start

variable {s : Scenario} {t t' : Time}

theorem startTime_mem (hne : s.timeline.entries ≠ []) : s.startTime ∈ s.timeline := by
  rw [startTime, SortedMap.mem_iff, SortedMap.keys]
  cases he : s.timeline.entries with
  | nil => exact absurd he hne
  | cons x xs => simp

theorem startTime_le_of_mem (h : t ∈ s.timeline) : s.startTime ≤ t := by
  obtain ⟨m, hm⟩ := SortedMap.exists_get? h
  exact s.startTime_le ((s.timeline.get?_eq_some t m).mp hm)

theorem startTime_eq (h : t ∈ s.timeline) (hle : ∀ k ∈ s.timeline, t ≤ k) : s.startTime = t := by
  have hne : s.timeline.entries ≠ [] := by
    intro hnil
    simp [SortedMap.mem_iff, SortedMap.keys, hnil] at h
  exact le_antisymm (startTime_le_of_mem h) (hle _ (startTime_mem hne))

theorem startTime_given (hne : s.timeline.entries ≠ []) (t' : Time) (m : Moment) :
    (s.given t' m).startTime = min t' s.startTime := by
  apply startTime_eq
  · rw [given, SortedMap.mem_insert]
    rcases min_choice t' s.startTime with h | h
    · exact .inl h
    · rw [h]
      exact .inr (startTime_mem hne)
  · intro k hk
    rw [given, SortedMap.mem_insert] at hk
    rcases hk with rfl | hk
    · exact min_le_left ..
    · exact min_le_of_right_le (startTime_le_of_mem hk)

end Start

section Legal

variable {s : Scenario} {t' horizon : Time} {o : Valuation} {p q : History}

theorem constraintAt_given_empty (ht : t' ∉ s.timeline) (t : Time) :
    (s.given t' .empty).constraintAt t = s.constraintAt t := by
  rw [constraintAt, constraintAt, given, SortedMap.get?_insert]
  split
  case isTrue h => rw [h, SortedMap.get?_eq_none.mpr ht]; rfl
  case isFalse => rfl

theorem legal_given_empty (hne : s.timeline.entries ≠ []) (ht : t' ∉ s.timeline) :
    (s.given t' .empty).Legal horizon q ↔ ∃ o, (∀ f, f ∈ o ↔ f ∈ s.fluents) ∧
      (∀ F, s.constraintAt (min t' s.startTime) = some F → o.eval F = .ok true) ∧
      s.Reads (s.timeline.entries.filter (·.1 ≤ horizon)) [⟨min t' s.startTime, o, none⟩] q := by
  rw [Legal, startTime_given hne]
  refine exists_congr fun o => ?_
  rw [reads_given_empty ht (by simp), ← and_assoc]
  refine and_congr_left fun _ => ?_
  constructor
  · intro hi
    refine ⟨hi.fluents, ?_⟩
    rw [← constraintAt_given_empty ht, ← startTime_given hne t' .empty]
    exact hi.constraint
  · intro hi
    refine ⟨hi.1, ?_⟩
    rw [startTime_given hne, constraintAt_given_empty ht]
    exact hi.2

/-- After the start an empty moment is of no account. -/
theorem legal_given_later (hne : s.timeline.entries ≠ []) (ht : t' ∉ s.timeline)
    (hlate : s.startTime < t') : (s.given t' .empty).Legal horizon q ↔ s.Legal horizon q := by
  rw [legal_given_empty hne ht, min_eq_right hlate.le]
  constructor
  · intro h
    obtain ⟨o, hf, hc, hread⟩ := h
    exact ⟨o, ⟨hf, hc⟩, hread⟩
  · intro h
    obtain ⟨o, hi, hread⟩ := h
    exact ⟨o, hi.fluents, hi.constraint, hread⟩

/-- Before the start it lets a history begin with any observation. -/
theorem legal_given_earlier (hne : s.timeline.entries ≠ []) (ht : t' ∉ s.timeline)
    (hearly : t' < s.startTime) : (s.given t' .empty).Legal horizon q ↔
      ∃ o, (∀ f, f ∈ o ↔ f ∈ s.fluents) ∧
        s.Reads (s.timeline.entries.filter (·.1 ≤ horizon)) [⟨t', o, none⟩] q := by
  have hnone : s.constraintAt t' = none := by
    rw [constraintAt, SortedMap.get?_eq_none.mpr ht]
    rfl
  rw [legal_given_empty hne ht, min_eq_left hearly.le, hnone]
  simp

/-- What is read within the horizon is read from the start, where the first observation has to be
admitted. -/
theorem Reads.admitted_first {t : Time} (hstart : s.startTime ≤ horizon)
    (h : s.Reads (s.timeline.entries.filter (·.1 ≤ horizon)) [⟨t, o, none⟩] q) :
    ∀ F, s.constraintAt s.startTime = some F → o.eval F = .ok true := by
  intro F hF
  obtain ⟨m, hm, hmF⟩ := exists_moment hF
  have hmem := (s.mem_filter_timeline horizon (s.startTime, m)).mpr ⟨hm, hstart⟩
  have hord := s.moments_ordered horizon
  have hleast : ∀ x ∈ s.timeline.entries.filter (·.1 ≤ horizon), s.startTime ≤ x.1 :=
    fun x hx => s.startTime_le (List.mem_of_mem_filter hx)
  cases hms : s.timeline.entries.filter (·.1 ≤ horizon) with
  | nil => simp [hms] at hmem
  | cons x ms =>
    rw [hms] at h hmem hord hleast
    obtain rfl : (s.startTime, m) = x := by
      rcases List.mem_cons.mp hmem with he | hin
      · exact he
      · have hlt := (List.pairwise_cons.mp hord).1 _ (List.mem_map.mpr ⟨_, hin, rfl⟩)
        exact absurd hlt (not_lt_of_ge (hleast x List.mem_cons_self))
    cases h with
    | read first _ =>
      obtain ⟨z, _, hz, hadmits, _⟩ := first.goesOn
      obtain rfl : ⟨t, o, none⟩ = z := by simpa using hz
      exact hadmits F hmF

end Legal

end Scenario

section Reroot

variable {x y : Entry} {ys : List Entry}

theorem isLatest_reroot {t : Time} {e e' : Entry} (hord : (x :: ys).Pairwise (·.time < ·.time))
    (hyx : y.time < x.time) (hxt : x.time ≤ t) (he : IsLatest (x :: ys) t e)
    (he' : IsLatest (y :: ys) t e') : e = x ∧ e' = y ∨ e = e' := by
  obtain ⟨hlater, hrest⟩ := List.pairwise_cons.mp hord
  rcases List.mem_cons.mp he.mem with rfl | hin
  · rcases List.mem_cons.mp he'.mem with rfl | hin'
    · exact .inl ⟨rfl, rfl⟩
    · have hle := he.greatest e' (List.mem_cons_of_mem _ hin') he'.time_le
      exact absurd hle (not_le_of_gt (hlater e' hin'))
  · have hxe := hlater e hin
    have hle := he'.greatest e (List.mem_cons_of_mem _ hin) he.time_le
    rcases List.mem_cons.mp he'.mem with rfl | hin'
    · exact absurd (lt_of_lt_of_le (lt_trans hyx hxe) hle) (lt_irrefl _)
    · refine .inr (he.unique hord ⟨List.mem_cons_of_mem _ hin', he'.time_le, ?_⟩)
      intro z hz hzt
      exact (he.greatest z hz hzt).trans hle

theorem performed_reroot (hx : x.firing = none) (hy : y.firing = none) (a : Action)
    (g : Option Agent) (t : Time) : Performed a g t (x :: ys) ↔ Performed a g t (y :: ys) := by
  simp [Performed, Entry.Performs, hx, hy]

theorem Active.reroot {g : Agent} (ho : y.observation = x.observation) (h : Active g (x :: ys)) :
    Active g (y :: ys) := by
  obtain ⟨xs, a, b, zs, he, hfires, hdiff⟩ := h
  cases xs with
  | nil =>
    obtain ⟨rfl, rfl⟩ := List.cons.inj he
    exact ⟨[], y, b, zs, rfl, hfires, ho ▸ hdiff⟩
  | cons w ws =>
    obtain ⟨_, rfl⟩ := List.cons.inj he
    exact ⟨y :: ws, a, b, zs, rfl, hfires, hdiff⟩

/-- No query from the one time on tells whether a history begins then or has begun before. -/
theorem Query.alike_reroot {q : Query} {horizon : Time}
    (hord : (x :: ys).Pairwise (·.time < ·.time)) (hyx : y.time < x.time)
    (ho : y.observation = x.observation) (hx : x.firing = none) (hy : y.firing = none)
    (hq : q.From x.time) : q.Alike horizon (x :: ys) (y :: ys) := by
  cases q with
  | formula F t mode =>
    intro _ e e' he he' f _
    rcases isLatest_reroot hord hyx hq he he' with ⟨rfl, rfl⟩ | rfl
    · rw [ho]
    · rfl
  | action a g t => exact fun _ => performed_reroot hx hy a g t
  | agent g => exact ⟨Active.reroot ho, Active.reroot ho.symm⟩

/-- Before a history goes on there is nothing to tell. -/
theorem Query.alike_first {q : Query} {horizon t₀ t₁ : Time} (hlate : horizon < t₀)
    (hq : q.From t₀) (t : Time) (o o' : Valuation) :
    q.Alike horizon [⟨t, o, none⟩] [⟨t₁, o', none⟩] := by
  cases q with
  | formula F u mode => exact fun hu => absurd (lt_of_lt_of_le hlate hq) (not_lt_of_ge hu)
  | action a g u =>
    intro _
    exact iff_of_false (Run.not_performed_first a g u t o) (Run.not_performed_first a g u t₁ o')
  | agent g => exact iff_of_false (Run.not_active_first g _) (Run.not_active_first g _)

end Reroot

namespace Scenario

section Given

variable {s : Scenario} {t' : Time} {limits : Limits} {horizon : Time} {r r' : Run} {p : History}

theorem Legal.reroot_earlier (h : s.Legal horizon p) (hne : s.timeline.entries ≠ [])
    (ht : t' ∉ s.timeline) (hearly : t' < s.startTime) :
    ∃ o ys, p = ⟨s.startTime, o, none⟩ :: ys ∧
      (s.given t' .empty).Legal horizon (⟨t', o, none⟩ :: ys) := by
  obtain ⟨o, hi, hread⟩ := h
  obtain ⟨ys, rfl, hread'⟩ := hread.reroot (y := ⟨t', o, none⟩) rfl
  exact ⟨o, ys, rfl, (legal_given_earlier hne ht hearly).mpr ⟨o, hi.fluents, hread'⟩⟩

theorem Legal.reroot_start (h : (s.given t' .empty).Legal horizon p)
    (hne : s.timeline.entries ≠ []) (ht : t' ∉ s.timeline) (hearly : t' < s.startTime)
    (hstart : s.startTime ≤ horizon) :
    ∃ o ys, p = ⟨t', o, none⟩ :: ys ∧ s.Legal horizon (⟨s.startTime, o, none⟩ :: ys) := by
  obtain ⟨o, hf, hread⟩ := (legal_given_earlier hne ht hearly).mp h
  obtain ⟨ys, rfl, hread'⟩ := hread.reroot (y := ⟨s.startTime, o, none⟩) rfl
  exact ⟨o, ys, rfl, o, ⟨hf, hread.admitted_first hstart⟩, hread'⟩

/-- Up to a horizon before the start there is nothing to read but the empty moment. -/
theorem legal_given_before (hne : s.timeline.entries ≠ []) (ht : t' ∉ s.timeline)
    (hearly : t' < s.startTime) (hstart : horizon < s.startTime)
    (h : (s.given t' .empty).Legal horizon p) : ∃ o, [⟨t', o, none⟩] = p := by
  obtain ⟨o, _, hread⟩ := (legal_given_earlier hne ht hearly).mp h
  rw [← momentsUntil_eq, momentsUntil_before hstart] at hread
  cases hread with
  | done => exact ⟨o, rfl⟩

theorem paired_given_earlier (hne : s.timeline.entries ≠ []) (ht : t' ∉ s.timeline)
    (hearly : t' < s.startTime) (h : s.run limits horizon = .ok r)
    (h' : (s.given t' .empty).run limits horizon = .ok r') {q : Query} (hq : q.From s.startTime) :
    Paired (q.Alike horizon) r.histories r'.histories := by
  constructor
  · intro p hp
    have hlegal := (mem_histories h p).mp hp
    obtain ⟨o, ys, rfl, hlegal'⟩ := hlegal.reroot_earlier hne ht hearly
    exact ⟨_, (mem_histories h' _).mpr hlegal',
      Query.alike_reroot hlegal.orderly.increasing hearly rfl rfl rfl hq⟩
  · intro p' hp'
    have hlegal' := (mem_histories h' p').mp hp'
    by_cases hstart : s.startTime ≤ horizon
    · obtain ⟨o, ys, rfl, hlegal⟩ := hlegal'.reroot_start hne ht hearly hstart
      exact ⟨_, (mem_histories h _).mpr hlegal,
        Query.alike_reroot hlegal.orderly.increasing hearly rfl rfl rfl hq⟩
    · have hlate := not_le.mp hstart
      obtain ⟨o', rfl⟩ := legal_given_before hne ht hearly hlate hlegal'
      obtain ⟨p, hp⟩ := List.exists_mem_of_ne_nil _ (run_ne_nil h)
      obtain ⟨o, _, rfl⟩ := (legal_before hlate).mp ((mem_histories h p).mp hp)
      exact ⟨_, hp, Query.alike_first hlate hq _ o o'⟩

/-- An empty moment makes no difference to a query, unless a formula is asked at a time before the
other moments. -/
theorem answer_given_empty (hne : s.timeline.entries ≠ []) (ht : t' ∉ s.timeline)
    (h : s.run limits horizon = .ok r) (h' : (s.given t' .empty).run limits horizon = .ok r')
    (q : Query) (hq : q.From s.startTime) : r.answer q = r'.answer q := by
  have hcommon : q.Common s (s.given t' .empty) := by
    rintro F t mode rfl
    refine ⟨?_, fun _ _ => Iff.rfl⟩
    have hle : s.startTime ≤ t := hq
    rw [startTime_given hne]
    exact iff_of_true hle (min_le_of_right_le hle)
  have hapart : t' ≠ s.startTime := fun he => ht (he ▸ startTime_mem hne)
  rcases lt_or_gt_of_ne hapart with hearly | hlate
  · exact Run.answer_congr h h' hcommon (paired_given_earlier hne ht hearly h h' hq)
  · refine Run.answer_eq_of_mem_iff h h' hcommon ?_
    intro p
    rw [mem_histories h, mem_histories h', legal_given_later hne ht hlate]

end Given

end Scenario

/-- The coin is left alone until it shows heads. Of the two observations that a history may now
begin with, the one with tails is cut off at time 0. -/
theorem coin_given_empty : coin.timeline.entries ≠ [] ∧ -1 ∉ coin.timeline ∧
    ∃ r r', coin.run .standard 1 = .ok r ∧ (coin.given (-1) .empty).run .standard 1 = .ok r' ∧
      r.modelCount = 2 ∧ r'.modelCount = 2 ∧
      (Query.formula (.atom ⟨"heads"⟩) 0 .necessary).From coin.startTime ∧
      r.answer (.formula (.atom ⟨"heads"⟩) 0 .necessary) =
        r'.answer (.formula (.atom ⟨"heads"⟩) 0 .necessary) := by
  have hne : coin.timeline.entries ≠ [] := by decide
  have ht : -1 ∉ coin.timeline := by decide
  have hq : (Query.formula (.atom ⟨"heads"⟩) 0 .necessary).From coin.startTime :=
    show coin.startTime ≤ 0 by decide
  obtain ⟨r, hr, htwo⟩ := coin_run
  obtain ⟨r', hr', htwo'⟩ : ∃ r', (coin.given (-1) .empty).run .standard 1 = .ok r' ∧
      r'.modelCount = 2 := Result.ok_of_toOption_map (by decide +kernel)
  have hanswer := Scenario.answer_given_empty hne ht hr hr' _ hq
  exact ⟨hne, ht, r, r', hr, hr', htwo, htwo', hq, hanswer⟩

end Chronicle
