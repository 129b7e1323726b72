import Chronicle.Proofs.Lineage

/-!
Histories that share their beginnings are what copies of them would be, whatever is called later.
What goes with a history that is cut off is what no other history goes through.
-/

namespace Chronicle

namespace Forest

/-- A node that has not been cut off, while all that were added to it have been. -/
def Childless (f : Forest) (k : NodeId) : Prop :=
  (f.node? k).isSome ∧ ∀ j, f.parent? j ≠ some k

/-- The history of `k` goes through `j`, which is `k` or an ancestor of it, and not cut off. -/
def GoesThrough (f : Forest) (k j : NodeId) : Prop :=
  (f.node? j).isSome ∧ Relation.ReflTransGen f.IsParent k j

/-- The history of `k` goes through `j`, and that of no other childless node does. -/
def Own (f : Forest) (k j : NodeId) : Prop :=
  f.GoesThrough k j ∧ ∀ i, f.Childless i → f.GoesThrough i j → i = k

/-- The forests that further calls come to. -/
inductive Later (issued : List NodeId) (f : Forest) : List NodeId → Forest → Prop where
  | same : Later issued f issued f
  | call {issued' issued'' : List NodeId} {g g' : Forest} :
      Later issued f issued' g → Call issued' g issued'' g' → Later issued f issued'' g'

/-- The history of `k` is `p`, and stays so for as long as `k` is not cut off. -/
def Carries (issued : List NodeId) (f : Forest) (k : NodeId) (p : List Entry) : Prop :=
  (f.node? k).isSome ∧
    ∀ issued' g, Later issued f issued' g → (g.node? k).isSome → g.path k = p

/-- What calls do to histories, as if each were a list of its own. -/
structure AsCopied (issued : List NodeId) (f : Forest) : Prop where
  begun : ∀ t o,
    Carries ((f.root t o).2 :: issued) (f.root t o).1 (f.root t o).2 [⟨t, o, none⟩]
  added : ∀ k ∈ issued, (f.node? k).isSome → ∀ t o e,
    Carries ((f.extend k t o e).2 :: issued) (f.extend k t o e).1 (f.extend k t o e).2
      (f.path k ++ [⟨t, o, some e⟩])
  orphaned : ∀ k ∈ issued, f.node? k = none → ∀ t o e,
    Carries ((f.extend k t o e).2 :: issued) (f.extend k t o e).1 (f.extend k t o e).2
      [⟨t, o, some e⟩]
  kept : ∀ k ∈ issued, (f.node? k).isSome → Carries issued f k (f.path k)
  gone : ∀ k ∈ issued, f.node? k = none →
    ∀ issued' g, Later issued f issued' g → g.node? k = none
  cut : ∀ k ∈ issued, f.Childless k → ∀ j,
    ((f.prune k).node? j).isSome ↔ (f.node? j).isSome ∧ ¬ f.Own k j
  spared : ∀ k ∈ issued, ∀ j, ((f.prune k).node? j).isSome → (f.prune k).link? j = f.link? j
  refused : ∀ k ∈ issued, ¬ f.Childless k → f.prune k = f

theorem isSome_detach (f : Forest) (k j : NodeId) :
    ((f.detach k).node? j).isSome ↔ j ≠ k ∧ (f.node? j).isSome := by
  constructor
  · exact live_of_detach
  · intro h
    rw [node?_detach, if_neg h.1]
    split
    · simpa using h.2
    · exact h.2

theorem isParent_detach (f : Forest) (k i j : NodeId) :
    (f.detach k).IsParent i j ↔ i ≠ k ∧ f.IsParent i j := by
  rw [IsParent, parent?_detach, IsParent]
  by_cases hi : i = k <;> simp [hi]

theorem IsTip.isSome {f : Forest} {k : NodeId} (h : f.IsTip k) : (f.node? k).isSome := by
  obtain ⟨n, hn, _⟩ := h
  simp [hn]

theorem path_of_dead {f : Forest} {k : NodeId} (h : f.node? k = none) : f.path k = [] := by
  simp [path, ancestry, h]

section Through

variable {f : Forest} {i j k : NodeId}

theorem GoesThrough.live (h : f.GoesThrough k j) : (f.node? k).isSome := by
  rcases Relation.ReflTransGen.cases_head h.2 with rfl | ⟨p, hp, _⟩
  · exact h.1
  · obtain ⟨n, hn, _⟩ := Option.bind_eq_some_iff.mp hp
    simp [hn]

theorem Consistent.isTip_iff (h : f.Consistent) : f.IsTip k ↔ f.Childless k := by
  constructor
  · intro ht
    exact ⟨ht.isSome, fun j hj => h.not_tip_of_parent hj ht⟩
  · intro hc
    obtain ⟨n, hn⟩ := Option.isSome_iff_exists.mp hc.1
    have hnone : f.childrenOf k = ∅ :=
      Finset.eq_empty_of_forall_notMem fun j hj => hc.2 j ((mem_childrenOf f k j).mp hj)
    have hcount := h.counted k n hn
    exact ⟨n, hn, by simpa [hnone] using hcount⟩

/-- No other history goes through a childless node. -/
theorem Childless.eq_of_goesThrough (hk : f.Childless k) (h : f.GoesThrough i k) : i = k := by
  rcases Relation.ReflTransGen.cases_tail h.2 with he | ⟨c, _, hc⟩
  · exact he.symm
  · exact absurd hc (hk.2 c)

theorem Childless.own_self (hk : f.Childless k) : f.Own k k :=
  ⟨⟨hk.1, .refl⟩, fun _ _ hi => hk.eq_of_goesThrough hi⟩

theorem goesThrough_detach (hk : f.Childless k) (hj : j ≠ k) :
    (f.detach k).GoesThrough i j ↔ i ≠ k ∧ f.GoesThrough i j := by
  constructor
  · intro h
    have hi : i ≠ k := ((isSome_detach f k i).mp h.live).1
    have hlive : (f.node? j).isSome := ((isSome_detach f k j).mp h.1).2
    have hup := Relation.ReflTransGen.mono
      (fun a b hab => ((isParent_detach f k a b).mp hab).2) i j h.2
    exact ⟨hi, hlive, hup⟩
  · intro h
    obtain ⟨hi, hlive, hup⟩ := h
    refine ⟨(isSome_detach f k j).mpr ⟨hj, hlive⟩, ?_⟩
    -- Only the first node on the way could be `k`, since none has it as its parent.
    induction hup using Relation.ReflTransGen.head_induction_on with
    | refl => exact .refl
    | @head a b hab _ ih =>
      have hb : b ≠ k := fun he => hk.2 a (he ▸ hab)
      exact .head ((isParent_detach f k a b).mpr ⟨hi, hab⟩) (ih hb)

theorem childless_detach (hj : j ≠ k) :
    (f.detach k).Childless j ↔ (f.node? j).isSome ∧ ∀ i, f.parent? i = some j → i = k := by
  have hparent (i : NodeId) : (f.detach k).parent? i ≠ some j ↔ (f.parent? i = some j → i = k) := by
    rw [parent?_detach]
    by_cases hi : i = k <;> simp [hi]
  simp [Childless, isSome_detach, hj, hparent]

/-- Once a childless node is cut off, its parent has to itself what it had to itself. -/
theorem own_detach (h : f.Consistent) (hk : f.Childless k) {p : NodeId}
    (hp : f.parent? k = some p) (hj : j ≠ k) : (f.detach k).Own p j ↔ f.Own k j := by
  have hpk : p ≠ k := Nat.ne_of_lt (h.earlier k p hp)
  constructor
  · intro ho
    have hthrough := ((goesThrough_detach hk hj).mp ho.1).2
    refine ⟨⟨hthrough.1, .head hp hthrough.2⟩, ?_⟩
    intro i hi hij
    by_contra hne
    have hchildless : (f.detach k).Childless i :=
      (childless_detach hne).mpr ⟨hi.1, fun c hc => absurd hc (hi.2 c)⟩
    have hip := ho.2 i hchildless ((goesThrough_detach hk hj).mpr ⟨hne, hij⟩)
    exact hi.2 k (hip ▸ hp)
  · intro ho
    have hup : Relation.ReflTransGen f.IsParent p j := by
      rcases Relation.ReflTransGen.cases_head ho.1.2 with he | ⟨c, hc, hup⟩
      · exact absurd he.symm hj
      · have hcp : c = p := Option.some.inj (hc.symm.trans hp)
        exact hcp ▸ hup
    refine ⟨(goesThrough_detach hk hj).mpr ⟨hpk, ho.1.1, hup⟩, ?_⟩
    intro i hi hij
    obtain ⟨hne, hij⟩ := (goesThrough_detach hk hj).mp hij
    obtain ⟨hlive, honly⟩ := (childless_detach hne).mp hi
    by_contra hip
    have hnone : ∀ c, f.parent? c ≠ some i := by
      intro c hc
      have hck := honly c hc
      have hpi : some p = some i := hp.symm.trans (hck ▸ hc)
      exact hip (Option.some.inj hpi).symm
    exact hne (ho.2 i ⟨hlive, hnone⟩ hij)

/-- With a history goes what only that history goes through. -/
theorem Consistent.isSome_prune (h : f.Consistent) (k j : NodeId) :
    ((f.prune k).node? j).isSome ↔ (f.node? j).isSome ∧ ¬ f.Own k j := by
  refine prune_induction
    (P := fun k f g => (g.node? j).isSome ↔ (f.node? j).isSome ∧ ¬ f.Own k j) ?_ ?_ ?_ h k
  · intro f k h ht
    have hnot : ¬ f.Own k j := by
      intro ho
      obtain ⟨i, hi, hik⟩ := h.exists_tip ho.1.live
      have hthrough : f.GoesThrough i j := ⟨ho.1.1, hik.trans ho.1.2⟩
      have he : i = k := ho.2 i (h.isTip_iff.mp hi) hthrough
      exact ht (he ▸ hi)
    simp [hnot]
  · intro f k h ht hp
    have hk := h.isTip_iff.mp ht
    have hown : f.Own k j ↔ j = k := by
      constructor
      · intro ho
        rcases Relation.ReflTransGen.cases_head ho.1.2 with he | ⟨c, hc, _⟩
        · exact he.symm
        · simp [IsParent, hp] at hc
      · intro he
        exact he ▸ hk.own_self
    rw [isSome_detach, hown, and_comm]
  · intro f k p h ht hp ih
    have hk := h.isTip_iff.mp ht
    rw [ih, isSome_detach]
    by_cases hj : j = k
    · have hown : f.Own k j := hj ▸ hk.own_self
      simp [hj, hj ▸ hown]
    · simp [hj, own_detach h hk hp hj]

theorem link?_prune (h : f.Consistent) (k : NodeId) (hj : ((f.prune k).node? j).isSome) :
    (f.prune k).link? j = f.link? j := by
  refine prune_induction (P := fun _ f g => (g.node? j).isSome → g.link? j = f.link? j)
    ?_ ?_ ?_ h k hj
  · intro f k _ _ _
    rfl
  · intro f k _ _ _ hj
    rw [link?_detach, if_neg (live_of_detach hj).1]
  · intro f k p h _ _ ih hj
    have hlive := (ancestry_prune (h.detach k) p hj).1
    rw [ih hj, link?_detach, if_neg (live_of_detach hlive).1]

end Through

section Calls

variable {issued issued' : List NodeId} {f g : Forest} {k : NodeId}

theorem Call.issued_subset (hc : Call issued f issued' g) : issued ⊆ issued' := by
  cases hc with
  | root => exact List.subset_cons_self _ _
  | extend => exact List.subset_cons_self _ _
  | prune => exact List.Subset.refl _

/-- A call leaves alone the history of each node that it does not cut off. -/
theorem Call.path_eq (hc : Call issued f issued' g) (h : f.Consistent) (hk : k < f.slots.size)
    (hlive : (g.node? k).isSome) : (f.node? k).isSome ∧ g.path k = f.path k := by
  cases hc with
  | root t o => exact ⟨live_of_root hk hlive, path_root_old f t o hk⟩
  | @extend p hp t o e => exact ⟨live_of_extend hk hlive, path_extend_old f p t o e hk⟩
  | @prune p hp => exact ⟨(ancestry_prune h p hlive).1, path_prune h p hlive⟩

theorem Later.issued_subset (hl : Later issued f issued' g) : issued ⊆ issued' := by
  induction hl with
  | same => exact List.Subset.refl _
  | call _ hc ih => exact List.Subset.trans ih hc.issued_subset

theorem Later.reached (hl : Later issued f issued' g) (hr : Reached issued f) :
    Reached issued' g := by
  induction hl with
  | same => exact hr
  | call _ hc ih => exact .call ih hc

theorem Later.path_eq (hl : Later issued f issued' g) (hr : Reached issued f) (hk : k ∈ issued)
    (hlive : (g.node? k).isSome) : (f.node? k).isSome ∧ g.path k = f.path k := by
  induction hl with
  | same => exact ⟨hlive, rfl⟩
  | @call issued₁ issued₂ g₁ g₂ hl hc ih =>
    obtain ⟨hconsistent, hbound⟩ := (hl.reached hr).consistent
    obtain ⟨hbefore, hpath⟩ := hc.path_eq hconsistent (hbound k (hl.issued_subset hk)) hlive
    obtain ⟨hfirst, hpaths⟩ := ih hbefore
    exact ⟨hfirst, hpath.trans hpaths⟩

theorem Reached.carries (hr : Reached issued f) (hk : k ∈ issued) (hlive : (f.node? k).isSome) :
    Carries issued f k (f.path k) :=
  ⟨hlive, fun _ _ hl hlater => (hl.path_eq hr hk hlater).2⟩

theorem Reached.carries_extend (hr : Reached issued f) (hk : k ∈ issued) (t : Time) (o : Valuation)
    (e : Event) :
    Carries ((f.extend k t o e).2 :: issued) (f.extend k t o e).1 (f.extend k t o e).2
      (f.path k ++ [⟨t, o, some e⟩]) := by
  have hnew : (f.extend k t o e).1.path (f.extend k t o e).2 = f.path k ++ [⟨t, o, some e⟩] :=
    path_extend_new f (hr.consistent.2 k hk) t o e
  have hlive : ((f.extend k t o e).1.node? (f.extend k t o e).2).isSome :=
    (isTip_extend_new f k t o e).isSome
  rw [← hnew]
  exact Reached.carries (.call hr (.extend hk t o e)) List.mem_cons_self hlive

end Calls

/-- Whatever is called on a forest, its histories are what copies of them would be. -/
theorem Reached.asCopied {issued : List NodeId} {f : Forest} (hr : Reached issued f) :
    AsCopied issued f := by
  have h := hr.consistent.1
  constructor
  · intro t o
    have hlive : ((f.root t o).1.node? (f.root t o).2).isSome := (isTip_root_new f t o).isSome
    have hnew : (f.root t o).1.path (f.root t o).2 = [⟨t, o, none⟩] := path_root_new f t o
    rw [← hnew]
    exact Reached.carries (.call hr (.root t o)) List.mem_cons_self hlive
  · intro k hk _ t o e
    exact hr.carries_extend hk t o e
  · intro k hk hdead t o e
    have hnew := hr.carries_extend hk t o e
    rwa [path_of_dead hdead] at hnew
  · intro k hk hlive
    exact hr.carries hk hlive
  · intro k hk hdead issued' g hl
    by_contra hlive
    have hbefore := (hl.path_eq hr hk (Option.isSome_iff_ne_none.mpr hlive)).1
    simp [hdead] at hbefore
  · intro k _ _ j
    exact h.isSome_prune k j
  · intro k _ j hj
    exact link?_prune h k hj
  · intro k _ hk
    exact prune_of_not_tip fun ht => hk (h.isTip_iff.mp ht)

/-- A history that is added to twice, and what each of the two is then added to. -/
def forked : Forest :=
  let toss : Event := ⟨⟨"toss"⟩, none⟩
  let twice := (((empty.root 0 ∅).1.extend 0 1 ∅ toss).1.extend 0 1 ∅ toss).1
  ((twice.extend 1 2 ∅ toss).1.extend 2 2 ∅ toss).1

/-- Cut off at its end, the one branch goes as far as the fork. -/
theorem forked_asCopied : ∃ issued, Reached issued forked ∧ 3 ∈ issued ∧
    ((forked.prune 3).node? 1).isNone ∧ ((forked.prune 3).node? 0).isSome ∧
    AsCopied issued forked := by
  have hr : ∃ issued, Reached issued forked ∧ 3 ∈ issued :=
    ⟨_, .call (.call (.call (.call (.call .empty (.root _ _)) (.extend (by decide) _ _ _))
      (.extend (by decide) _ _ _)) (.extend (by decide) _ _ _)) (.extend (by decide) _ _ _),
      by decide⟩
  obtain ⟨issued, hr, hmem⟩ := hr
  exact ⟨issued, hr, hmem, by decide +kernel, by decide +kernel, hr.asCopied⟩

end Forest

end Chronicle
