import Chronicle.Proofs.ModelLimit
import Chronicle.Proofs.Sharing

/-!
The leaves of a search and the forest that they end. At every point of a run the leaves are the
childless nodes, so that the forest holds what is on some history and nothing else, and no leaf is
looked up in vain.
-/

namespace Chronicle

namespace Forest

/-- No node without children is missing from a list. -/
def Covered (f : Forest) (ks : List NodeId) : Prop := ∀ k, f.IsTip k → k ∈ ks

section Covered

variable {f : Forest} {k : NodeId} {ks js : List NodeId}

theorem Covered.mono (h : f.Covered ks) (hs : ks ⊆ js) : f.Covered js := fun k hk => hs (h k hk)

theorem covered_empty : empty.Covered [] := by
  intro k hk
  simp [IsTip, node?_empty] at hk

theorem Covered.root (h : f.Covered ks) (t : Time) (o : Valuation) :
    (f.root t o).1.Covered (f.slots.size :: ks) := by
  intro j hj
  obtain ⟨n, hn, hz⟩ := hj
  rw [node?_root] at hn
  split at hn
  case isTrue he => simp [he]
  case isFalse => exact List.mem_cons_of_mem _ (h j ⟨n, hn, hz⟩)

/-- What is added to has children from then on. -/
theorem Covered.extend (h : f.Covered (k :: ks)) (t : Time) (o : Valuation) (e : Event) :
    (f.extend k t o e).1.Covered (f.slots.size :: ks) := by
  intro j hj
  obtain ⟨n, hn, hz⟩ := hj
  rw [node?_extend] at hn
  split at hn
  case isTrue he => simp [he]
  case isFalse =>
    split at hn
    case isTrue =>
      obtain ⟨m, _, rfl⟩ := Option.map_eq_some_iff.mp hn
      simp at hz
    case isFalse hne =>
      have hmem := h j ⟨n, hn, hz⟩
      simp only [List.mem_cons, hne, false_or] at hmem
      exact List.mem_cons_of_mem _ hmem

theorem Covered.detach (h : f.Covered (k :: ks)) {j : NodeId} (hj : (f.detach k).IsTip j)
    (hp : f.parent? k ≠ some j) : j ∈ ks := by
  have hne : j ≠ k := ((isSome_detach f k j).mp hj.isSome).1
  obtain ⟨n, hn, hz⟩ := hj
  rw [node?_detach, if_neg hne, if_neg hp] at hn
  have hmem := h j ⟨n, hn, hz⟩
  simpa [hne] using hmem

/-- No node that loses its last child is left. -/
theorem Covered.prune (hf : f.Consistent) (h : f.Covered (k :: ks)) : (f.prune k).Covered ks := by
  refine prune_induction (P := fun k f g => f.Covered (k :: ks) → g.Covered ks) ?_ ?_ ?_ hf k h
  · intro f k _ ht h j hj
    have hne : j ≠ k := fun he => ht (he ▸ hj)
    simpa [hne] using h j hj
  · intro f k _ _ hp h j hj
    exact h.detach hj (by simp [hp])
  · intro f k p _ _ hp ih h
    -- The parent may have lost its last child, and is then what is cut off next.
    apply ih
    intro j hj
    by_cases hjp : j = p
    · simp [hjp]
    · have hne : f.parent? k ≠ some j := by
        rw [hp]
        simpa [eq_comm] using hjp
      exact List.mem_cons_of_mem _ (h.detach hj hne)

end Covered

theorem IsTip.exists_latest {f : Forest} {k : NodeId} (h : f.IsTip k) :
    ∃ e, f.latest k = some e := by
  obtain ⟨n, hn, _⟩ := h
  exact ⟨n.entry, by simp [latest, hn]⟩

theorem Climbs.mem_iff {f : Forest} {k : NodeId} {ks : List NodeId} (h : f.Climbs k ks)
    (j : NodeId) : j ∈ ks ↔ f.GoesThrough k j := by
  induction h with
  | @gone k hk =>
    have hnot : ¬ f.GoesThrough k j := fun h => by simpa [hk] using h.live
    simpa using hnot
  | @root k n hk hp =>
    have hnone : f.parent? k = none := by simp [parent?, hk, hp]
    constructor
    · intro hj
      obtain rfl := List.mem_singleton.mp hj
      exact ⟨by simp [hk], .refl⟩
    · intro hj
      rcases Relation.ReflTransGen.cases_head hj.2 with he | ⟨c, hc, _⟩
      · simp [he]
      · simp [IsParent, hnone] at hc
  | @up k p n ks hk hp _ ih =>
    have hparent : f.parent? k = some p := by simp [parent?, hk, hp]
    rw [List.mem_cons, ih]
    constructor
    · intro hj
      rcases hj with rfl | hj
      · exact ⟨by simp [hk], .refl⟩
      · exact ⟨hj.1, .head hparent hj.2⟩
    · intro hj
      rcases Relation.ReflTransGen.cases_head hj.2 with he | ⟨c, hc, hup⟩
      · exact .inl he.symm
      · have hcp : c = p := Option.some.inj (hc.symm.trans hparent)
        exact .inr ⟨hj.1, hcp ▸ hup⟩

/-- The entries of a history are those of the nodes that it goes through. -/
theorem Consistent.mem_path {f : Forest} (h : f.Consistent) (k : NodeId) (e : Entry) :
    e ∈ f.path k ↔ ∃ j, f.GoesThrough k j ∧ f.latest j = some e := by
  obtain ⟨ks, hc, ha, _⟩ := h.exists_climbs k
  have hmem : e ∈ f.path k ↔ some e ∈ ks.map f.latest := by
    rw [← ha, path]
    simp
  rw [hmem, List.mem_map]
  exact exists_congr fun j => and_congr_left fun _ => hc.mem_iff j

end Forest

namespace Search

/-- Sifting with each leaf found as it is looked at. -/
inductive Sifts (worlds : List Valuation) :
    Forest → Array NodeId → List NodeId → Except LogicError Search → Prop where
  | done {f : Forest} {kept : Array NodeId} : Sifts worlds f kept [] (.ok ⟨f, kept⟩)
  | fails {f : Forest} {kept : Array NodeId} {k : NodeId} {ks : List NodeId} {e : Entry}
      {err : LogicError} (found : f.latest k = some e)
      (unknown : e.observation.compatible worlds = .error err) :
      Sifts worlds f kept (k :: ks) (.error err)
  | keeps {f : Forest} {kept : Array NodeId} {k : NodeId} {ks : List NodeId} {e : Entry}
      {y : Except LogicError Search} (found : f.latest k = some e)
      (fits : e.observation.compatible worlds = .ok true)
      (rest : Sifts worlds f (kept.push k) ks y) : Sifts worlds f kept (k :: ks) y
  | cuts {f : Forest} {kept : Array NodeId} {k : NodeId} {ks : List NodeId} {e : Entry}
      {y : Except LogicError Search} (found : f.latest k = some e)
      (excluded : e.observation.compatible worlds = .ok false)
      (rest : Sifts worlds (f.prune k) kept ks y) : Sifts worlds f kept (k :: ks) y

/-- Firing with each leaf found as it is looked at. -/
inductive Fires (e : Event) (rules : List Statement) (next : Time) (atomLimit modelLimit : Nat) :
    Search → List NodeId → Except Error Search → Prop where
  | done {x : Search} : Fires e rules next atomLimit modelLimit x [] (.ok x)
  | fails {x : Search} {k : NodeId} {ks : List NodeId} {last : Entry} {err : Error}
      (found : x.forest.latest k = some last)
      (unresolved : Successor.successors last.observation rules atomLimit = .error err) :
      Fires e rules next atomLimit modelLimit x (k :: ks) (.error err)
  | rests {x : Search} {k : NodeId} {ks : List NodeId} {last : Entry} {y : Except Error Search}
      (found : x.forest.latest k = some last)
      (quiet : Successor.successors last.observation rules atomLimit = .ok [])
      (rest : Fires e rules next atomLimit modelLimit ⟨x.forest, x.leaves.push k⟩ ks y) :
      Fires e rules next atomLimit modelLimit x (k :: ks) y
  | overruns {x : Search} {k : NodeId} {ks : List NodeId} {last : Entry} {o : Valuation}
      {os : List Valuation} (found : x.forest.latest k = some last)
      (resolved : Successor.successors last.observation rules atomLimit = .ok (o :: os))
      (exceeds : modelLimit < ((o :: os).foldl (extendBy k next e) x).leaves.size) :
      Fires e rules next atomLimit modelLimit x (k :: ks)
        (.error (.limit (.models ((o :: os).foldl (extendBy k next e) x).leaves.size modelLimit)))
  | grows {x : Search} {k : NodeId} {ks : List NodeId} {last : Entry} {o : Valuation}
      {os : List Valuation} {y : Except Error Search} (found : x.forest.latest k = some last)
      (resolved : Successor.successors last.observation rules atomLimit = .ok (o :: os))
      (within : ((o :: os).foldl (extendBy k next e) x).leaves.size ≤ modelLimit)
      (rest : Fires e rules next atomLimit modelLimit ((o :: os).foldl (extendBy k next e) x) ks
        y) :
      Fires e rules next atomLimit modelLimit x (k :: ks) y

section Found

variable {worlds : List Valuation} {forest : Forest} {kept : Array NodeId} {ks rest : List NodeId}
  {k : NodeId} {x x' : Search} {e : Event} {rules : List Statement} {t next : Time}
  {atomLimit modelLimit : Nat}

theorem sifts (h : forest.Tips (kept.toList ++ ks)) :
    Sifts worlds forest kept ks (sift worlds forest kept ks) := by
  induction ks generalizing forest kept with
  | nil => exact .done
  | cons k ks ih =>
    obtain ⟨e, he⟩ := (h.tip k (by simp)).exists_latest
    rw [sift, he]
    dsimp only
    cases hc : e.observation.compatible worlds with
    | error err => exact .fails he hc
    | ok b =>
      cases b with
      | true => exact .keeps he hc (ih (by simpa using h))
      | false => exact .cuts he hc (ih (h.perm List.perm_middle).prune.1)

theorem Sifts.covered {y : Except LogicError Search} (hs : Sifts worlds forest kept ks y)
    (hf : forest.Consistent) (h : forest.Covered (kept.toList ++ ks)) (hy : y = .ok x) :
    x.forest.Covered x.leaves.toList := by
  induction hs with
  | done =>
    obtain rfl := Except.ok.inj hy
    simpa using h
  | fails => cases hy
  | keeps _ _ _ ih => exact ih hf (by simpa using h) hy
  | cuts _ _ _ ih =>
    have hfirst := h.mono (List.perm_middle.subset)
    exact ih (hf.prune _) (Forest.Covered.prune hf hfirst) hy

theorem extendAll_covered (o : Valuation) (os : List Valuation)
    (h : x.forest.Covered (k :: (x.leaves.toList ++ rest))) :
    ((o :: os).foldl (extendBy k next e) x).forest.Covered
      (((o :: os).foldl (extendBy k next e) x).leaves.toList ++ rest) := by
  have hone (x : Search) (o : Valuation) (h : x.forest.Covered (k :: (x.leaves.toList ++ rest))) :
      (extendBy k next e x o).forest.Covered ((extendBy k next e x o).leaves.toList ++ rest) := by
    have hperm : x.forest.slots.size :: (x.leaves.toList ++ rest) ⊆
        (x.leaves.push x.forest.slots.size).toList ++ rest := by
      rw [Array.toList_push, List.append_assoc]
      exact List.perm_middle.symm.subset
    exact (h.extend next o e).mono hperm
  induction os generalizing x o with
  | nil => exact hone x o h
  | cons o' os ih => exact ih o' ((hone x o h).mono (List.subset_cons_self k _))

theorem fires (h : x.forest.Tips (x.leaves.toList ++ ks)) :
    Fires e rules next atomLimit modelLimit x ks
      (fireAll e rules next atomLimit modelLimit x ks) := by
  induction ks generalizing x with
  | nil => exact .done
  | cons k ks ih =>
    have hperm : x.forest.Tips (k :: (x.leaves.toList ++ ks)) := h.perm List.perm_middle
    obtain ⟨last, hlast⟩ := (h.tip k (by simp)).exists_latest
    rw [fireAll, hlast]
    dsimp only
    cases hs : Successor.successors last.observation rules atomLimit with
    | error err => exact .fails hlast hs
    | ok os =>
      cases os with
      | nil => exact .rests hlast hs (ih (by simpa using h))
      | cons o os =>
        dsimp only
        split
        case isTrue hover => exact .overruns hlast hs hover
        case isFalse hle =>
          have htips := (extendAll_spec next e k ks (o :: os) x
            (hperm.sublist (List.sublist_cons_self _ _)) (hperm.tip k (by simp)).lt
            (List.nodup_cons.mp hperm.nodup).1).1
          exact .grows hlast hs (Nat.le_of_not_gt hle) (ih htips)

theorem Fires.covered {y : Except Error Search}
    (hs : Fires e rules next atomLimit modelLimit x ks y)
    (h : x.forest.Covered (x.leaves.toList ++ ks)) (hy : y = .ok x') :
    x'.forest.Covered x'.leaves.toList := by
  induction hs with
  | done =>
    obtain rfl := Except.ok.inj hy
    simpa using h
  | fails => cases hy
  | rests _ _ _ ih => exact ih (by simpa using h) hy
  | overruns => cases hy
  | grows _ _ _ _ ih => exact ih (extendAll_covered _ _ (h.mono List.perm_middle.subset)) hy

end Found

/-- The leaves are the nodes at which histories end, each once, and every node is on the way up from
one of them. -/
structure Full (x : Search) : Prop where
  distinct : x.leaves.toList.Nodup
  childless : ∀ k, k ∈ x.leaves.toList ↔ x.forest.Childless k
  held : ∀ j, (x.forest.node? j).isSome ↔ ∃ k ∈ x.leaves.toList, x.forest.GoesThrough k j
  entries : ∀ e, (∃ j, x.forest.latest j = some e) ↔ ∃ p ∈ x.histories, e ∈ p

/-- Each leaf is found when it is looked up at a moment, also where the moment fails later on. -/
structure FindsAll (s : Scenario) (atomLimit modelLimit : Nat) (t : Time) (m : Moment)
    (x : Search) : Prop where
  sifted : ∀ F worlds, m.constraint = some F → F.models atomLimit = .ok worlds →
    Sifts worlds x.forest #[] x.leaves.toList (sift worlds x.forest #[] x.leaves.toList)
  fired : ∀ e next kept, m.event = some e → Time.next? t = some next →
    x.accept atomLimit t m = .ok kept →
    Fires e (s.statementsFor e) next atomLimit modelLimit ⟨kept.forest, #[]⟩ kept.leaves.toList
      (fireAll e (s.statementsFor e) next atomLimit modelLimit ⟨kept.forest, #[]⟩
        kept.leaves.toList)

section Step

variable {s : Scenario} {atomLimit modelLimit : Nat} {t : Time} {m : Moment} {x x' : Search}

theorem Full.of_covered (hx : x.Ready) (hc : x.forest.Covered x.leaves.toList) : x.Full := by
  have hleaf (k : NodeId) : k ∈ x.leaves.toList ↔ x.forest.Childless k := by
    rw [← hx.consistent.isTip_iff]
    exact ⟨hx.tip k, hc k⟩
  have hheld (j : NodeId) : (x.forest.node? j).isSome ↔
      ∃ k ∈ x.leaves.toList, x.forest.GoesThrough k j := by
    constructor
    · intro hj
      obtain ⟨k, hk, hup⟩ := hx.consistent.exists_tip hj
      exact ⟨k, hc k hk, hj, hup⟩
    · intro h
      obtain ⟨_, _, hthrough⟩ := h
      exact hthrough.1
  refine ⟨hx.nodup, hleaf, hheld, ?_⟩
  intro e
  simp only [histories, List.mem_map, exists_exists_and_eq_and, hx.consistent.mem_path]
  constructor
  · intro h
    obtain ⟨j, hj⟩ := h
    obtain ⟨n, hn, _⟩ := Option.map_eq_some_iff.mp hj
    obtain ⟨k, hk, hup⟩ := (hheld j).mp (by simp [hn])
    exact ⟨k, hk, j, hup, hj⟩
  · intro h
    obtain ⟨_, _, j, _, hj⟩ := h
    exact ⟨j, hj⟩

theorem covered_seed (t : Time) (os : List Valuation) :
    (seed t os).forest.Covered (seed t os).leaves.toList := by
  have h (x : Search) (hx : x.forest.Covered x.leaves.toList) :
      (os.foldl (begin t) x).forest.Covered (os.foldl (begin t) x).leaves.toList := by
    induction os generalizing x with
    | nil => exact hx
    | cons o os ih =>
      refine ih (begin t x o) ((hx.root t o).mono ?_)
      have hperm := (List.perm_append_singleton x.forest.slots.size x.leaves.toList).symm.subset
      rw [begin, Array.toList_push]
      exact hperm
  exact h ⟨.empty, #[]⟩ Forest.covered_empty

theorem accept_covered (hx : x.Ready) (hc : x.forest.Covered x.leaves.toList)
    (h : x.accept atomLimit t m = .ok x') : x'.forest.Covered x'.leaves.toList := by
  rw [accept] at h
  cases hm : m.constraint with
  | none =>
    rw [hm] at h
    exact Except.ok.inj h ▸ hc
  | some F =>
    rw [hm] at h
    obtain ⟨worlds, _, h⟩ := (Result.bind_eq_ok _ _ _).mp h
    obtain ⟨kept, hk, h⟩ := (Result.bind_eq_ok _ _ _).mp h
    have hsift := (Result.mapError_eq_ok _ _ _).mp hk
    have hkept : kept.forest.Covered kept.leaves.toList :=
      (sifts (by simpa [Ready] using hx)).covered hx.consistent (by simpa using hc) hsift
    cases he : kept.leaves.isEmpty with
    | true => simp [he, throw, throwThe, MonadExceptOf.throw, bind, Except.bind] at h
    | false =>
      obtain rfl : kept = x' := by simpa [he, bind, Except.bind, pure, Except.pure] using h
      exact hkept

theorem follow_covered (hx : x.Ready) (hc : x.forest.Covered x.leaves.toList)
    (h : x.follow s atomLimit modelLimit t m = .ok x') : x'.forest.Covered x'.leaves.toList := by
  rw [follow] at h
  cases hm : m.event with
  | none =>
    rw [hm] at h
    exact Except.ok.inj h ▸ hc
  | some e =>
    simp only [hm, fire] at h
    cases hn : Time.next? t with
    | none => simp [hn] at h
    | some next =>
      rw [hn] at h
      exact (fires (by simpa [Ready] using hx)).covered (by simpa using hc) h

theorem step_covered (hx : x.Ready) (hc : x.forest.Covered x.leaves.toList)
    (h : x.step s atomLimit modelLimit (t, m) = .ok x') : x'.forest.Covered x'.leaves.toList := by
  obtain ⟨kept, hk, hf⟩ := step_eq_ok.mp h
  have hready := (accept_mirrors atomLimit t m hx).ready kept hk
  exact follow_covered hready (accept_covered hx hc hk) hf

theorem Ready.findsAll (hx : x.Ready) (s : Scenario) (atomLimit modelLimit : Nat) (t : Time)
    (m : Moment) : x.FindsAll s atomLimit modelLimit t m := by
  constructor
  · intro F worlds _ _
    exact sifts (by simpa [Ready] using hx)
  · intro e next kept _ _ hk
    have hready := (accept_mirrors atomLimit t m hx).ready kept hk
    exact fires (by simpa [Ready] using hready)

end Step

end Search

namespace Scenario

theorem Passes.full {s : Scenario} {limits : Limits} {horizon : Time} {x : Search}
    {rest : List (Time × Moment)} (h : s.Passes limits horizon x rest) : x.Full := by
  refine .of_covered h.sound.ready ?_
  induction h with
  | seeded => exact Search.covered_seed _ _
  | read before step ih => exact Search.step_covered before.sound.ready ih step

/-- At every point of a run its leaves are the ends of histories and its forest holds nothing that
is not on one of these, so that no leaf is looked up in vain. What a run ends with is such too. -/
theorem leaves_full (s : Scenario) (limits : Limits) (horizon : Time) :
    (∀ x rest, s.Passes limits horizon x rest → x.Full ∧ ∀ t m later, rest = (t, m) :: later →
      x.FindsAll s limits.atoms.value limits.models.value t m) ∧
    ∀ r, s.run limits horizon = .ok r → Search.Full ⟨r.forest, r.leaves⟩ := by
  constructor
  · intro x rest h
    exact ⟨h.full, fun t m _ _ => h.sound.ready.findsAll s _ _ t m⟩
  · intro r hr
    exact (passes_run hr).full

/-- A coin that is tossed twice, and shows heads after the first time and tails after the second. -/
def tossedTwice : Scenario :=
  let heads : Formula := .atom ⟨"heads"⟩
  let again := coin.timeline.insert 1 ⟨some ⟨⟨"toss"⟩, none⟩, some heads⟩
  { coin with timeline := again.insert 2 ⟨none, some (.neg heads)⟩ }

/-- Of the two histories after each toss one is cut off, and with it goes its last entry alone. -/
theorem tossedTwice_leaves_full : ∃ r, tossedTwice.run .standard 2 = .ok r ∧
    r.leaves.toList = [4] ∧ r.forest.size = 3 ∧ Search.Full ⟨r.forest, r.leaves⟩ := by
  have h : ∃ r, tossedTwice.run .standard 2 = .ok r ∧
      (r.leaves.toList, r.forest.size) = ([4], 3) :=
    Result.ok_of_toOption_map (by decide +kernel)
  obtain ⟨r, hr, hsize⟩ := h
  obtain ⟨hleaves, hforest⟩ := Prod.mk.inj hsize
  exact ⟨r, hr, hleaves, hforest, (leaves_full tossedTwice .standard 2).2 r hr⟩

end Scenario

end Chronicle
