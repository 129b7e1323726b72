import Chronicle.Run
import Chronicle.Proofs.Forest
import Chronicle.Proofs.Result

/-!
A run with each history kept whole, and the proof that sharing the beginnings of histories in a
forest changes nothing: both fail alike, or give the same histories in the same order.
-/

namespace Chronicle

/-- Entries from the first to the last. -/
abbrev History := List Entry

namespace Histories

def seed (t : Time) (os : List Valuation) : List History := os.map fun o => [⟨t, o, none⟩]

def sift (worlds : List Valuation) : List History → Except LogicError (List History)
  | [] => .ok []
  | p :: rest =>
    match p.getLast? with
    | none => sift worlds rest
    | some e =>
      match e.observation.compatible worlds with
      | .error err => .error err
      | .ok true => (sift worlds rest).map (p :: ·)
      | .ok false => sift worlds rest

def constrain (atomLimit : Nat) (t : Time) (F : Formula) (ps : List History) :
    Except Error (List History) := do
  let worlds ← F.models atomLimit
  let kept ← (sift worlds ps).mapError .logic
  if kept.isEmpty then
    throw (.logic (.unrealizable t))
  return kept

def fireAll (e : Event) (statements : List Statement) (next : Time) (atomLimit modelLimit : Nat) :
    List History → List History → Except Error (List History)
  | done, [] => .ok done
  | done, p :: rest =>
    match p.getLast? with
    | none => fireAll e statements next atomLimit modelLimit done rest
    | some last =>
      match Successor.successors last.observation statements atomLimit with
      | .error err => .error err
      | .ok [] => fireAll e statements next atomLimit modelLimit (done ++ [p]) rest
      | .ok (o :: os) =>
        let grown := done ++ (o :: os).map fun o => p ++ [⟨next, o, some e⟩]
        if grown.length > modelLimit then .error (.limit (.models grown.length modelLimit))
        else fireAll e statements next atomLimit modelLimit grown rest

def fire (scenario : Scenario) (atomLimit modelLimit : Nat) (t : Time) (e : Event)
    (ps : List History) : Except Error (List History) :=
  match Time.next? t with
  | none => .error (.logic (.timeOverflow t))
  | some next => fireAll e (scenario.statementsFor e) next atomLimit modelLimit [] ps

def step (scenario : Scenario) (atomLimit modelLimit : Nat) (ps : List History) :
    Time × Moment → Except Error (List History)
  | (t, m) => do
    let ps ← match m.constraint with
      | some F => constrain atomLimit t F ps
      | none => pure ps
    match m.event with
    | some e => fire scenario atomLimit modelLimit t e ps
    | none => return ps

/-- What the constraint of a moment leaves of the histories. -/
def accept (atomLimit : Nat) (t : Time) (m : Moment) (ps : List History) :
    Except Error (List History) :=
  match m.constraint with
  | some F => constrain atomLimit t F ps
  | none => .ok ps

/-- What the event of a moment makes of the histories. -/
def follow (scenario : Scenario) (atomLimit modelLimit : Nat) (t : Time) (m : Moment)
    (ps : List History) : Except Error (List History) :=
  match m.event with
  | some e => fire scenario atomLimit modelLimit t e ps
  | none => .ok ps

theorem step_eq (scenario : Scenario) (atomLimit modelLimit : Nat) (t : Time) (m : Moment)
    (ps : List History) : step scenario atomLimit modelLimit ps (t, m) =
      accept atomLimit t m ps >>= follow scenario atomLimit modelLimit t m := by
  obtain ⟨event, constraint⟩ := m
  cases constraint <;> cases event <;> rfl

def run (s : Scenario) (limits : Limits) (horizon : Time) : Except Error (List History) := do
  let os ← s.initialCandidates limits.atoms.value limits.models.value
  if os.isEmpty then
    throw (.logic (.unrealizable s.startTime))
  (s.momentsUntil horizon).foldlM (step s limits.atoms.value limits.models.value)
    (seed s.startTime os)

end Histories

namespace Forest

/-- Different nodes that histories of a consistent forest end in. -/
structure Tips (f : Forest) (ks : List NodeId) : Prop where
  consistent : f.Consistent
  nodup : ks.Nodup
  tip : ∀ k ∈ ks, f.IsTip k

theorem tips_empty : empty.Tips [] := ⟨consistent_empty, List.nodup_nil, by simp⟩

theorem Tips.sublist {f : Forest} {ks js : List NodeId} (h : f.Tips ks) (hs : js.Sublist ks) :
    f.Tips js :=
  ⟨h.consistent, h.nodup.sublist hs, fun k hk => h.tip k (hs.subset hk)⟩

theorem Tips.perm {f : Forest} {ks js : List NodeId} (h : f.Tips ks) (hp : ks.Perm js) :
    f.Tips js :=
  ⟨h.consistent, hp.nodup_iff.mp h.nodup, fun k hk => h.tip k (hp.mem_iff.mpr hk)⟩

theorem Tips.root {f : Forest} {ks : List NodeId} (h : f.Tips ks) (t : Time) (o : Valuation) :
    (f.root t o).1.Tips (f.slots.size :: ks) := by
  have hnew : f.slots.size ∉ ks := fun hk => Nat.lt_irrefl _ (h.tip _ hk).lt
  refine ⟨h.consistent.root t o, List.nodup_cons.mpr ⟨hnew, h.nodup⟩, ?_⟩
  intro j hj
  rcases List.mem_cons.mp hj with rfl | hj
  · exact isTip_root_new f t o
  · exact isTip_root_old (h.tip j hj) t o

theorem Tips.extend {f : Forest} {ks : List NodeId} (h : f.Tips ks) {k : NodeId}
    (hk : k < f.slots.size) (hout : k ∉ ks) (t : Time) (o : Valuation) (e : Event) :
    (f.extend k t o e).1.Tips (f.slots.size :: ks) := by
  have hnew : f.slots.size ∉ ks := fun hk => Nat.lt_irrefl _ (h.tip _ hk).lt
  refine ⟨h.consistent.extend hk t o e, List.nodup_cons.mpr ⟨hnew, h.nodup⟩, ?_⟩
  intro j hj
  rcases List.mem_cons.mp hj with rfl | hj
  · exact isTip_extend_new f k t o e
  · exact isTip_extend_old (h.tip j hj) (ne_of_mem_of_not_mem hj hout) t o e

theorem Tips.prune {f : Forest} {k : NodeId} {ks : List NodeId} (h : f.Tips (k :: ks)) :
    (f.prune k).Tips ks ∧ ∀ j ∈ ks, (f.prune k).path j = f.path j := by
  obtain ⟨hk, hn⟩ := List.nodup_cons.mp h.nodup
  have hnode : ∀ j ∈ ks, (f.prune k).node? j = f.node? j := fun j hj =>
    node?_prune_of_tip h.consistent k (fun he => hk (he ▸ hj)) (h.tip j (by simp [hj]))
  have htip : ∀ j ∈ ks, (f.prune k).IsTip j := by
    intro j hj
    obtain ⟨n, hm, hz⟩ := h.tip j (by simp [hj])
    exact ⟨n, (hnode j hj).trans hm, hz⟩
  refine ⟨⟨h.consistent.prune k, hn, htip⟩, ?_⟩
  intro j hj
  obtain ⟨n, hm, _⟩ := htip j hj
  exact path_prune h.consistent k (by simp [hm])

end Forest

namespace Search

def histories (s : Search) : List History := s.leaves.toList.map s.forest.path

/-- The leaves are different and are tips. -/
def Ready (s : Search) : Prop := s.forest.Tips s.leaves.toList

theorem seed_histories (t : Time) (os : List Valuation) :
    (seed t os).Ready ∧ (seed t os).histories = Histories.seed t os := by
  have h (s : Search) (hs : s.Ready) : (os.foldl (begin t) s).Ready ∧
      (os.foldl (begin t) s).histories = s.histories ++ Histories.seed t os := by
    induction os generalizing s with
    | nil => exact ⟨hs, by simp [Histories.seed]⟩
    | cons o os ih =>
      obtain ⟨forest, leaves⟩ := s
      have hnext : (begin t ⟨forest, leaves⟩ o).Ready := by
        refine (Forest.Tips.root hs t o).perm ?_
        rw [begin, Array.toList_push]
        exact (List.perm_append_singleton _ _).symm
      obtain ⟨hr, he⟩ := ih _ hnext
      refine ⟨hr, ?_⟩
      have hold : leaves.toList.map (forest.root t o).1.path = leaves.toList.map forest.path :=
        List.map_congr_left fun k hk => Forest.path_root_old forest t o (hs.tip k hk).lt
      have hone : (begin t ⟨forest, leaves⟩ o).histories =
          histories ⟨forest, leaves⟩ ++ [[⟨t, o, none⟩]] := by
        simp only [begin, histories, Array.toList_push, List.map_append, List.map_cons,
          List.map_nil, hold]
        exact congrArg (fun p => _ ++ [p]) (Forest.path_root_new forest t o)
      rw [List.foldl_cons, he, hone, Histories.seed, Histories.seed, List.map_cons,
        List.append_assoc]
      rfl
  obtain ⟨hr, he⟩ := h ⟨.empty, #[]⟩ Forest.tips_empty
  exact ⟨hr, he⟩

/-- A search and a list of histories that come to the same, be it a failure. -/
structure Mirrors {ε : Type} (x : Except ε Search) (y : Except ε (List History)) : Prop where
  histories : x.map Search.histories = y
  ready : ∀ s, x = .ok s → s.Ready

theorem Mirrors.ok {ε : Type} {s : Search} (h : s.Ready) :
    Mirrors (.ok s) (.ok s.histories : Except ε (List History)) := by
  refine ⟨rfl, ?_⟩
  intro s' hs
  rw [← Except.ok.inj hs]
  exact h

theorem Mirrors.error {ε : Type} (e : ε) : Mirrors (.error e) (.error e) :=
  ⟨rfl, fun s hs => by cases hs⟩

theorem Mirrors.bind {ε : Type} {x : Except ε Search} {y : Except ε (List History)}
    (h : Mirrors x y) {f : Search → Except ε Search} {g : List History → Except ε (List History)}
    (hf : ∀ s, s.Ready → Mirrors (f s) (g s.histories)) : Mirrors (x >>= f) (y >>= g) := by
  obtain ⟨rfl, hr⟩ := h
  cases x with
  | error e => exact .error e
  | ok s => exact hf s (hr s rfl)

theorem Mirrors.mapError {ε ε' : Type} {x : Except ε Search} {y : Except ε (List History)}
    (h : Mirrors x y) (g : ε → ε') : Mirrors (x.mapError g) (y.mapError g) := by
  obtain ⟨rfl, hr⟩ := h
  cases x with
  | error e => exact .error (g e)
  | ok s => exact .ok (hr s rfl)

theorem Mirrors.of_ok {ε : Type} {s : Search} {y : Except ε (List History)}
    (h : Mirrors (.ok s) y) : s.Ready ∧ y = .ok s.histories :=
  ⟨h.ready s rfl, h.histories.symm⟩

theorem sift_mirrors (worlds : List Valuation) (forest : Forest) (kept : Array NodeId)
    (ks : List NodeId) (h : forest.Tips (kept.toList ++ ks)) :
    Mirrors (sift worlds forest kept ks)
      ((Histories.sift worlds (ks.map forest.path)).map (kept.toList.map forest.path ++ ·)) := by
  induction ks generalizing forest kept with
  | nil =>
    rw [List.append_nil] at h
    simpa [sift, Histories.sift, Except.map, histories] using
      Mirrors.ok (ε := LogicError) (s := ⟨forest, kept⟩) h
  | cons k ks ih =>
    have hlast := forest.latest_eq k
    rw [List.map_cons, sift, Histories.sift, ← hlast]
    cases hk : forest.latest k with
    | none => exact ih forest kept (h.sublist (by simp))
    | some e =>
      dsimp only
      cases hc : e.observation.compatible worlds with
      | error err => exact .error err
      | ok b =>
        cases b with
        | true =>
          have hm := ih forest (kept.push k) (by simpa using h)
          dsimp only
          cases hs : Histories.sift worlds (ks.map forest.path) <;>
            simpa [hs, Except.map] using hm
        | false =>
          have hp : forest.Tips (k :: (kept.toList ++ ks)) := h.perm List.perm_middle
          obtain ⟨ht, hpath⟩ := hp.prune
          have hm := ih (forest.prune k) kept ht
          have hkept : kept.toList.map (forest.prune k).path = kept.toList.map forest.path :=
            List.map_congr_left fun j hj => hpath j (by simp [hj])
          have hrest : ks.map (forest.prune k).path = ks.map forest.path :=
            List.map_congr_left fun j hj => hpath j (by simp [hj])
          rwa [hkept, hrest] at hm

theorem constrain_mirrors (atomLimit : Nat) (t : Time) (F : Formula) {s : Search} (h : s.Ready) :
    Mirrors (s.constrain atomLimit t F) (Histories.constrain atomLimit t F s.histories) := by
  rw [constrain, Histories.constrain]
  cases F.models atomLimit with
  | error e => exact .error e
  | ok worlds =>
    have hm := sift_mirrors worlds s.forest #[] s.leaves.toList (by simpa [Ready] using h)
    have hnil : (Histories.sift worlds (s.leaves.toList.map s.forest.path)).map
        ((#[] : Array NodeId).toList.map s.forest.path ++ ·) =
        Histories.sift worlds s.histories := by
      rw [histories]
      cases Histories.sift worlds (s.leaves.toList.map s.forest.path) <;> simp [Except.map]
    rw [hnil] at hm
    refine (hm.mapError Error.logic).bind ?_
    intro kept hk
    have he : kept.leaves.isEmpty = kept.histories.isEmpty := by
      rw [histories, List.isEmpty_map, Array.isEmpty_toList]
    rw [he]
    split
    · exact .error _
    · exact .ok hk

/-- Each observation that follows gives one more history. -/
theorem extendAll_spec (t : Time) (e : Event) (k : NodeId) (rest : List NodeId)
    (os : List Valuation) (s : Search) (h : s.forest.Tips (s.leaves.toList ++ rest))
    (hk : k < s.forest.slots.size) (hout : k ∉ s.leaves.toList ++ rest) :
    (os.foldl (extendBy k t e) s).forest.Tips
      ((os.foldl (extendBy k t e) s).leaves.toList ++ rest) ∧
    (os.foldl (extendBy k t e) s).histories =
      s.histories ++ os.map (fun o => s.forest.path k ++ [⟨t, o, some e⟩]) ∧
    ∀ j ∈ rest, (os.foldl (extendBy k t e) s).forest.path j = s.forest.path j := by
  induction os generalizing s with
  | nil => simpa using h
  | cons o os ih =>
    obtain ⟨forest, leaves⟩ := s
    have hold (j : NodeId) (hj : j < forest.slots.size) :=
      Forest.path_extend_old forest k t o e hj
    have htips : (forest.extend k t o e).1.Tips ((leaves.push forest.slots.size).toList ++ rest) :=
      (h.extend hk hout t o e).perm (by
        rw [Array.toList_push, List.append_assoc]
        exact List.perm_middle.symm)
    have hsize := Forest.size_slots_extend forest k t o e
    have hout' : k ∉ (leaves.push forest.slots.size).toList ++ rest := by
      have hne : k ≠ forest.slots.size := Nat.ne_of_lt hk
      simpa [hne] using hout
    obtain ⟨hr, hh, hp⟩ := ih (extendBy k t e ⟨forest, leaves⟩ o) htips
      (by rw [extendBy, hsize]; exact Nat.lt_succ_of_lt hk) hout'
    refine ⟨hr, ?_, ?_⟩
    · have hleaves : leaves.toList.map (forest.extend k t o e).1.path =
          leaves.toList.map forest.path :=
        List.map_congr_left fun j hj => hold j (h.tip j (by simp [hj])).lt
      have hone : (extendBy k t e ⟨forest, leaves⟩ o).histories =
          histories ⟨forest, leaves⟩ ++ [forest.path k ++ [⟨t, o, some e⟩]] := by
        simp only [extendBy, histories, Array.toList_push, List.map_append, List.map_cons,
          List.map_nil, hleaves]
        exact congrArg (fun p => _ ++ [p]) (Forest.path_extend_new forest hk t o e)
      rw [List.foldl_cons, hh, hone, List.append_assoc]
      simp only [extendBy, hold k hk, List.map_cons, List.singleton_append]
    · intro j hj
      rw [List.foldl_cons, hp j hj]
      exact hold j (h.tip j (by simp [hj])).lt

theorem fireAll_mirrors (e : Event) (statements : List Statement) (next : Time)
    (atomLimit modelLimit : Nat) (s : Search) (ks : List NodeId)
    (h : s.forest.Tips (s.leaves.toList ++ ks)) :
    Mirrors (fireAll e statements next atomLimit modelLimit s ks)
      (Histories.fireAll e statements next atomLimit modelLimit s.histories
        (ks.map s.forest.path)) := by
  induction ks generalizing s with
  | nil =>
    rw [List.append_nil] at h
    exact .ok h
  | cons k ks ih =>
    obtain ⟨forest, leaves⟩ := s
    have hperm : forest.Tips (k :: (leaves.toList ++ ks)) := h.perm List.perm_middle
    rw [List.map_cons, fireAll, Histories.fireAll, ← forest.latest_eq k]
    cases hk : forest.latest k with
    | none => exact ih ⟨forest, leaves⟩ (h.sublist (by simp))
    | some last =>
      dsimp only
      cases hs : Successor.successors last.observation statements atomLimit with
      | error err => exact .error err
      | ok os =>
        cases os with
        | nil => simpa [histories] using ih ⟨forest, leaves.push k⟩ (by simpa using h)
        | cons o os =>
          obtain ⟨ht, hh, hp⟩ := extendAll_spec next e k ks (o :: os) ⟨forest, leaves⟩
            (hperm.sublist (List.sublist_cons_self _ _)) (hperm.tip k (by simp)).lt
            (List.nodup_cons.mp hperm.nodup).1
          have hrest : ks.map ((o :: os).foldl (extendBy k next e) ⟨forest, leaves⟩).forest.path =
              ks.map forest.path := List.map_congr_left hp
          have hsize : ((o :: os).foldl (extendBy k next e) ⟨forest, leaves⟩).leaves.size =
              ((o :: os).foldl (extendBy k next e) ⟨forest, leaves⟩).histories.length := by
            simp [histories]
          have hm := ih _ ht
          dsimp only at hh ⊢
          rw [hrest, hh] at hm
          rw [hsize, hh]
          split
          · exact .error _
          · exact hm

theorem fire_mirrors (scenario : Scenario) (atomLimit modelLimit : Nat) (t : Time) (e : Event)
    {s : Search} (h : s.Ready) :
    Mirrors (s.fire scenario atomLimit modelLimit t e)
      (Histories.fire scenario atomLimit modelLimit t e s.histories) := by
  rw [fire, Histories.fire]
  cases Time.next? t with
  | none => exact .error _
  | some next =>
    exact fireAll_mirrors e _ next atomLimit modelLimit ⟨s.forest, #[]⟩ s.leaves.toList
      (by simpa [Ready] using h)

section Step

variable {scenario : Scenario} {atomLimit modelLimit : Nat} {t : Time} {m : Moment} {s s' : Search}

/-- What the constraint of a moment leaves of the histories. -/
def accept (atomLimit : Nat) (t : Time) (m : Moment) (s : Search) : Except Error Search :=
  match m.constraint with
  | some F => s.constrain atomLimit t F
  | none => .ok s

/-- What the event of a moment makes of the histories. -/
def follow (scenario : Scenario) (atomLimit modelLimit : Nat) (t : Time) (m : Moment)
    (s : Search) : Except Error Search :=
  match m.event with
  | some e => s.fire scenario atomLimit modelLimit t e
  | none => .ok s

theorem step_eq : s.step scenario atomLimit modelLimit (t, m) =
    s.accept atomLimit t m >>= follow scenario atomLimit modelLimit t m := by
  obtain ⟨event, constraint⟩ := m
  cases constraint <;> cases event <;> rfl

theorem step_eq_ok : s.step scenario atomLimit modelLimit (t, m) = .ok s' ↔
    ∃ kept, s.accept atomLimit t m = .ok kept ∧
      kept.follow scenario atomLimit modelLimit t m = .ok s' := by
  rw [step_eq, Result.bind_eq_ok]

theorem accept_mirrors (atomLimit : Nat) (t : Time) (m : Moment) (h : s.Ready) :
    Mirrors (s.accept atomLimit t m) (Histories.accept atomLimit t m s.histories) := by
  rw [accept, Histories.accept]
  cases m.constraint with
  | none => exact .ok h
  | some F => exact constrain_mirrors atomLimit t F h

theorem follow_mirrors (scenario : Scenario) (atomLimit modelLimit : Nat) (t : Time) (m : Moment)
    (h : s.Ready) : Mirrors (s.follow scenario atomLimit modelLimit t m)
      (Histories.follow scenario atomLimit modelLimit t m s.histories) := by
  rw [follow, Histories.follow]
  cases m.event with
  | none => exact .ok h
  | some e => exact fire_mirrors scenario atomLimit modelLimit t e h

theorem step_mirrors (scenario : Scenario) (atomLimit modelLimit : Nat) (m : Time × Moment)
    (h : s.Ready) :
    Mirrors (s.step scenario atomLimit modelLimit m)
      (Histories.step scenario atomLimit modelLimit s.histories m) := by
  obtain ⟨t, m⟩ := m
  rw [step_eq, Histories.step_eq]
  exact (accept_mirrors atomLimit t m h).bind fun _ hs => follow_mirrors _ _ _ t m hs

end Step

theorem foldlM_mirrors (scenario : Scenario) (atomLimit modelLimit : Nat)
    (ms : List (Time × Moment)) {s : Search} (h : s.Ready) :
    Mirrors (ms.foldlM (step scenario atomLimit modelLimit) s)
      (ms.foldlM (Histories.step scenario atomLimit modelLimit) s.histories) := by
  induction ms generalizing s with
  | nil => exact .ok h
  | cons m ms ih =>
    rw [List.foldlM_cons, List.foldlM_cons]
    exact (step_mirrors scenario atomLimit modelLimit m h).bind fun _ hs => ih hs

end Search

/-- A run fails as it would without the forest, or ends in the same histories. -/
theorem Scenario.run_histories (s : Scenario) (limits : Limits) (horizon : Time) :
    (s.run limits horizon).map Run.histories = Histories.run s limits horizon := by
  rw [run, Histories.run]
  cases s.initialCandidates limits.atoms.value limits.models.value with
  | error e => rfl
  | ok os =>
    obtain ⟨hready, hseed⟩ := Search.seed_histories s.startTime os
    have hm := Search.foldlM_mirrors s limits.atoms.value limits.models.value
      (s.momentsUntil horizon) hready
    rw [hseed] at hm
    cases he : os.isEmpty with
    | true => simp [bind, Except.bind, he, throw, throwThe, MonadExceptOf.throw, Except.map]
    | false =>
      have hh := hm.histories
      simp only [bind, Except.bind, he]
      rw [← hh]
      cases (s.momentsUntil horizon).foldlM
        (Search.step s limits.atoms.value limits.models.value) (Search.seed s.startTime os) <;> rfl

end Chronicle
