import Chronicle.Proofs.Forest
import Mathlib.Data.List.Nodup
import Mathlib.Logic.Relation

/-!
What is kept in a forest whatever is called on it, in any order, and on nodes that have been cut off
or have children as well. The ways up are described by the links alone, without the test in
`Forest.prune` and `Forest.ancestry` that a parent comes before its children.
-/

namespace Chronicle

namespace Forest

/-- One call, by a handle that an earlier call gave out. Its node may have been cut off since. -/
inductive Call (issued : List NodeId) (f : Forest) : List NodeId → Forest → Prop where
  | root (t : Time) (o : Valuation) : Call issued f ((f.root t o).2 :: issued) (f.root t o).1
  | extend {k : NodeId} (hk : k ∈ issued) (t : Time) (o : Valuation) (e : Event) :
      Call issued f ((f.extend k t o e).2 :: issued) (f.extend k t o e).1
  | prune {k : NodeId} (hk : k ∈ issued) : Call issued f issued (f.prune k)

/-- The forests that calls come to, with the handles given out on the way. -/
inductive Reached : List NodeId → Forest → Prop where
  | empty : Reached [] empty
  | call {issued issued' : List NodeId} {f g : Forest} :
      Reached issued f → Call issued f issued' g → Reached issued' g

/-- The nodes on the way up from a node. -/
inductive Climbs (f : Forest) : NodeId → List NodeId → Prop where
  | gone {k : NodeId} : f.node? k = none → Climbs f k []
  | root {k : NodeId} {n : Node} : f.node? k = some n → n.parent = none → Climbs f k [k]
  | up {k p : NodeId} {n : Node} {ks : List NodeId} :
      f.node? k = some n → n.parent = some p → Climbs f p ks → Climbs f k (k :: ks)

/-- The nodes looked at in cutting off a node and the ancestors that this leaves without children,
and the forest that remains. A parent that loses a child has one to lose. -/
inductive Cuts : Forest → NodeId → List NodeId → Forest → Prop where
  | gone {f : Forest} {k : NodeId} : f.node? k = none → Cuts f k [] f
  | held {f : Forest} {k : NodeId} {n : Node} :
      f.node? k = some n → 0 < n.children → Cuts f k [k] f
  | last {f : Forest} {k : NodeId} {n : Node} :
      f.node? k = some n → n.children = 0 → n.parent = none → Cuts f k [k] (f.detach k)
  | up {f g : Forest} {k p : NodeId} {n : Node} {ks : List NodeId} :
      f.node? k = some n → n.children = 0 → n.parent = some p →
      (∀ m, f.node? p = some m → 0 < m.children) → Cuts (f.detach k) p ks g → Cuts f k (k :: ks) g

def IsParent (f : Forest) (j p : NodeId) : Prop := f.parent? j = some p

/-- What is kept in a forest. A way up ends after as many steps as there are nodes, and comes by no
node twice. -/
structure Kept (f : Forest) : Prop where
  counted : ∀ k n, f.node? k = some n → n.children = (f.childrenOf k).card
  acyclic : ∀ k, ¬ Relation.TransGen f.IsParent k k
  climbs : ∀ k, ∃ ks, f.Climbs k ks ∧ (f.ancestry k).map some = ks.map f.latest ∧
    ks.Nodup ∧ ks.length ≤ f.size
  cuts : ∀ k, ∃ ks, f.Cuts k ks (f.prune k) ∧ ks.Nodup ∧ ks.length ≤ f.size
  tips : ∀ k, (f.node? k).isSome → ∃ j, f.IsTip j ∧ Relation.ReflTransGen f.IsParent j k

theorem size_slots_detach (f : Forest) (k : NodeId) :
    (f.detach k).slots.size = f.slots.size := by
  unfold detach
  cases f.parent? k <;> simp [size_slots_remove, size_slots_adjustChildren]

theorem Consistent.size_slots_prune {f : Forest} (h : f.Consistent) (k : NodeId) :
    (f.prune k).slots.size = f.slots.size := by
  refine prune_induction (P := fun _ f g => g.slots.size = f.slots.size) ?_ ?_ ?_ h k
  · intro f k _ _
    rfl
  · intro f k _ _ _
    exact size_slots_detach f k
  · intro f k p _ _ _ ih
    exact ih.trans (size_slots_detach f k)

section Reachable

variable {issued issued' : List NodeId} {f g : Forest}

theorem Call.consistent (hc : Call issued f issued' g) (h : f.Consistent)
    (hi : ∀ k ∈ issued, k < f.slots.size) :
    g.Consistent ∧ ∀ k ∈ issued', k < g.slots.size := by
  cases hc with
  | root t o =>
    refine ⟨h.root t o, ?_⟩
    intro k hk
    rw [size_slots_root]
    rw [key_root] at hk
    rcases List.mem_cons.mp hk with rfl | hk
    · exact Nat.lt_succ_self _
    · exact Nat.lt_succ_of_lt (hi k hk)
  | extend hk t o e =>
    refine ⟨h.extend (hi _ hk) t o e, ?_⟩
    intro j hj
    rw [size_slots_extend]
    rw [key_extend] at hj
    rcases List.mem_cons.mp hj with rfl | hj
    · exact Nat.lt_succ_self _
    · exact Nat.lt_succ_of_lt (hi j hj)
  | prune hk =>
    refine ⟨h.prune _, ?_⟩
    rw [h.size_slots_prune]
    exact hi

theorem Reached.consistent (hr : Reached issued f) :
    f.Consistent ∧ ∀ k ∈ issued, k < f.slots.size := by
  induction hr with
  | empty => exact ⟨consistent_empty, by simp⟩
  | call _ hc ih => exact hc.consistent ih.1 ih.2

end Reachable

theorem length_le_size {f : Forest} {ks : List NodeId} (hn : ks.Nodup)
    (hlive : ∀ k ∈ ks, (f.node? k).isSome) : ks.length ≤ f.size := by
  rw [size_eq]
  refine (hn.subperm ?_).length_le
  intro k hk
  obtain ⟨n, hnode⟩ := Option.isSome_iff_exists.mp (hlive k hk)
  exact List.mem_filter.mpr ⟨List.mem_range.mpr (lt_of_node? hnode), hlive k hk⟩

section Consistent

variable {f : Forest}

theorem Consistent.parent_pos (h : f.Consistent) {k p : NodeId} (hp : f.parent? k = some p)
    {m : Node} (hm : f.node? p = some m) : 0 < m.children := by
  rw [h.counted p m hm]
  exact Finset.card_pos.mpr ⟨k, (mem_childrenOf f p k).mpr hp⟩

theorem Consistent.lt_of_transGen (h : f.Consistent) {j k : NodeId}
    (hjk : Relation.TransGen f.IsParent j k) : k < j := by
  induction hjk with
  | single hp => exact h.earlier _ _ hp
  | tail _ hp ih => exact Nat.lt_trans (h.earlier _ _ hp) ih

/-- The way up from a node visits earlier and earlier nodes. -/
theorem Consistent.exists_climbs (h : f.Consistent) (k : NodeId) :
    ∃ ks, f.Climbs k ks ∧ (f.ancestry k).map some = ks.map f.latest ∧
      ks.Pairwise (· > ·) ∧ ∀ j ∈ ks, j ≤ k ∧ (f.node? j).isSome := by
  induction k using Nat.strong_induction_on with
  | _ k ih =>
    cases hn : f.node? k with
    | none => exact ⟨[], .gone hn, by simp [ancestry, hn], .nil, by simp⟩
    | some n =>
      cases hp : n.parent with
      | none =>
        refine ⟨[k], .root hn hp, ?_, List.pairwise_singleton .., ?_⟩
        · simp [ancestry, latest, hn, hp]
        · simp [hn]
      | some p =>
        have hlt : p < k := h.earlier k p (by simp [parent?, hn, hp])
        obtain ⟨ks, hc, ha, hs, hl⟩ := ih p hlt
        have hbelow (j : NodeId) (hj : j ∈ ks) : j < k := Nat.lt_of_le_of_lt (hl j hj).1 hlt
        refine ⟨k :: ks, .up hn hp hc, ?_, List.pairwise_cons.mpr ⟨hbelow, hs⟩, ?_⟩
        · rw [ancestry]
          simp [hn, hp, hlt, ha, latest]
        · intro j hj
          rcases List.mem_cons.mp hj with rfl | hj
          · simp [hn]
          · exact ⟨Nat.le_of_lt (hbelow j hj), (hl j hj).2⟩

theorem Consistent.exists_cuts (h : f.Consistent) (k : NodeId) :
    ∃ ks, f.Cuts k ks (f.prune k) ∧ ks.Pairwise (· > ·) ∧
      ∀ j ∈ ks, j ≤ k ∧ (f.node? j).isSome := by
  refine prune_induction (P := fun k f g => ∃ ks, f.Cuts k ks g ∧ ks.Pairwise (· > ·) ∧
    ∀ j ∈ ks, j ≤ k ∧ (f.node? j).isSome) ?_ ?_ ?_ h k
  · intro f k _ ht
    cases hn : f.node? k with
    | none => exact ⟨[], .gone hn, .nil, by simp⟩
    | some n =>
      have hpos : 0 < n.children := Nat.pos_of_ne_zero fun hz => ht ⟨n, hn, hz⟩
      exact ⟨[k], .held hn hpos, List.pairwise_singleton .., by simp [hn]⟩
  · intro f k _ ht hp
    obtain ⟨n, hn, hz⟩ := ht
    have hroot : n.parent = none := by simpa [parent?, hn] using hp
    exact ⟨[k], .last hn hz hroot, List.pairwise_singleton .., by simp [hn]⟩
  · intro f k p h ht hp ih
    obtain ⟨n, hn, hz⟩ := ht
    obtain ⟨ks, hc, hs, hl⟩ := ih
    have hparent : n.parent = some p := by simpa [parent?, hn] using hp
    have hbelow (j : NodeId) (hj : j ∈ ks) : j < k :=
      Nat.lt_of_le_of_lt (hl j hj).1 (h.earlier k p hp)
    refine ⟨k :: ks, .up hn hz hparent (fun m => h.parent_pos hp) hc,
      List.pairwise_cons.mpr ⟨hbelow, hs⟩, ?_⟩
    intro j hj
    rcases List.mem_cons.mp hj with rfl | hj
    · simp [hn]
    · exact ⟨Nat.le_of_lt (hbelow j hj), (live_of_detach (hl j hj).2).2⟩

/-- Below a node that has children lies one that was added later. -/
theorem Consistent.exists_tip (h : f.Consistent) {k : NodeId} (hk : (f.node? k).isSome) :
    ∃ j, f.IsTip j ∧ Relation.ReflTransGen f.IsParent j k := by
  induction hd : f.slots.size - k using Nat.strong_induction_on generalizing k with
  | _ d ih =>
    obtain ⟨n, hn⟩ := Option.isSome_iff_exists.mp hk
    by_cases hz : n.children = 0
    · exact ⟨k, ⟨n, hn, hz⟩, .refl⟩
    · have hcard : 0 < (f.childrenOf k).card := h.counted k n hn ▸ Nat.pos_of_ne_zero hz
      obtain ⟨c, hc⟩ := Finset.card_pos.mp hcard
      have hp : f.parent? c = some k := (mem_childrenOf f k c).mp hc
      obtain ⟨m, hm, _⟩ := Option.bind_eq_some_iff.mp hp
      have hcloser : f.slots.size - c < d :=
        hd ▸ Nat.sub_lt_sub_left (lt_of_node? hn) (h.earlier c k hp)
      obtain ⟨j, hj, hup⟩ := ih (f.slots.size - c) hcloser (by simp [hm]) rfl
      exact ⟨j, hj, hup.tail hp⟩

theorem Kept.of_consistent (h : f.Consistent) : f.Kept := by
  constructor
  · exact h.counted
  · intro k hk
    exact Nat.lt_irrefl k (h.lt_of_transGen hk)
  · intro k
    obtain ⟨ks, hc, ha, hs, hl⟩ := h.exists_climbs k
    have hnd : ks.Nodup := hs.imp Nat.ne_of_gt
    exact ⟨ks, hc, ha, hnd, length_le_size hnd fun j hj => (hl j hj).2⟩
  · intro k
    obtain ⟨ks, hc, hs, hl⟩ := h.exists_cuts k
    have hnd : ks.Nodup := hs.imp Nat.ne_of_gt
    exact ⟨ks, hc, hnd, length_le_size hnd fun j hj => (hl j hj).2⟩
  · intro k
    exact h.exists_tip

end Consistent

/-- Whatever is called on a forest, each node counts its children, every way up ends, and below each
node lies one that a history ends at. -/
theorem Reached.kept {issued : List NodeId} {f : Forest} (hr : Reached issued f) : f.Kept :=
  .of_consistent hr.consistent.1

/-- One of two histories is cut off and added to even so. What they have in common stays, though it
is to be cut off as well. -/
def misused : Forest :=
  let toss : Event := ⟨⟨"toss"⟩, none⟩
  let twice := (((empty.root 0 ∅).1.extend 0 1 ∅ toss).1.extend 0 1 ∅ toss).1
  (((twice.prune 1).prune 0).extend 1 2 ∅ toss).1

theorem misused_kept : ∃ issued, Reached issued misused ∧ misused.node? 1 = none ∧
    misused.parent? 3 = some 1 ∧ misused.Kept := by
  have hr : ∃ issued, Reached issued misused :=
    ⟨_, .call (.call (.call (.call (.call (.call .empty (.root _ _)) (.extend (by decide) _ _ _))
      (.extend (by decide) _ _ _)) (.prune (by decide))) (.prune (by decide)))
      (.extend (by decide) _ _ _)⟩
  obtain ⟨issued, hr⟩ := hr
  have hdead : (misused.node? 1).isNone := by decide +kernel
  exact ⟨issued, hr, Option.isNone_iff_eq_none.mp hdead, by decide +kernel, hr.kept⟩

end Forest

end Chronicle
