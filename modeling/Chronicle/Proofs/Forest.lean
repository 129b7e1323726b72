import Chronicle.Forest
import Mathlib.Data.Finset.Card

namespace Chronicle

namespace Forest

/-- A node that has not been cut off and that nothing has been added to. -/
def IsTip (f : Forest) (k : NodeId) : Prop := ∃ n, f.node? k = some n ∧ n.children = 0

def parent? (f : Forest) (k : NodeId) : Option NodeId := (f.node? k).bind Node.parent

/-- Cuts off a single node. -/
def detach (f : Forest) (k : NodeId) : Forest :=
  match f.parent? k with
  | none => f.remove k
  | some p => (f.remove k).adjustChildren p (· - 1)

theorem node?_detach (f : Forest) (k j : NodeId) :
    (f.detach k).node? j =
      if j = k then none
      else if f.parent? k = some j then
        (f.node? j).map fun n => { n with children := n.children - 1 }
      else f.node? j := by
  unfold detach
  cases hp : f.parent? k with
  | none => simp [node?_remove]
  | some p =>
    simp only [node?_adjustChildren, node?_remove, Option.some.injEq, eq_comm (a := p)]
    by_cases hj : j = k
    · simp [hj]
    · simp [hj]

theorem live_of_detach {f : Forest} {j k : NodeId} (h : ((f.detach k).node? j).isSome) :
    j ≠ k ∧ (f.node? j).isSome := by
  rw [node?_detach] at h
  split at h
  case isTrue => simp at h
  case isFalse hne =>
    refine ⟨hne, ?_⟩
    split at h
    · simpa using h
    · exact h

theorem parent?_root (f : Forest) (t : Time) (o : Valuation) (j : NodeId) :
    (f.root t o).1.parent? j = if j = f.slots.size then none else f.parent? j := by
  rw [parent?, node?_root]
  split <;> rfl

theorem parent?_extend (f : Forest) (k : NodeId) (t : Time) (o : Valuation) (e : Event)
    (j : NodeId) :
    (f.extend k t o e).1.parent? j = if j = f.slots.size then some k else f.parent? j := by
  rw [parent?, node?_extend]
  split
  · rfl
  · split
    · rw [parent?]
      cases f.node? j <;> rfl
    · rfl

theorem parent?_detach (f : Forest) (k j : NodeId) :
    (f.detach k).parent? j = if j = k then none else f.parent? j := by
  rw [parent?, node?_detach]
  split
  · rfl
  · split
    · rw [parent?]
      cases f.node? j <;> rfl
    · rfl

/-- The nodes that have not been cut off and that were added to a given one. -/
def childrenOf (f : Forest) (k : NodeId) : Finset NodeId :=
  (Finset.range f.slots.size).filter fun j => f.parent? j = some k

theorem mem_childrenOf (f : Forest) (k j : NodeId) : j ∈ f.childrenOf k ↔ f.parent? j = some k := by
  rw [childrenOf, Finset.mem_filter, Finset.mem_range, and_iff_right_iff_imp]
  intro h
  obtain ⟨n, hn, _⟩ := Option.bind_eq_some_iff.mp h
  exact lt_of_node? hn

/-- Parents come before their children, and each node counts those that are left to it. -/
structure Consistent (f : Forest) : Prop where
  earlier : ∀ k p, f.parent? k = some p → p < k
  counted : ∀ k n, f.node? k = some n → n.children = (f.childrenOf k).card

theorem consistent_empty : empty.Consistent := by
  constructor
  · intro k p h
    simp [parent?, node?_empty] at h
  · intro k n h
    simp [node?_empty] at h

section Preservation

variable {f : Forest}

theorem Consistent.childrenOf_size (h : f.Consistent) : f.childrenOf f.slots.size = ∅ := by
  apply Finset.eq_empty_of_forall_notMem
  intro j hj
  have hp := (mem_childrenOf f _ j).mp hj
  obtain ⟨n, hn, _⟩ := Option.bind_eq_some_iff.mp hp
  exact absurd (lt_of_node? hn) (Nat.lt_asymm (h.earlier j _ hp))

theorem parent?_size (f : Forest) : f.parent? f.slots.size = none := by
  rw [parent?, node?_of_size_le (le_refl _)]
  rfl

theorem Consistent.root (h : f.Consistent) (t : Time) (o : Valuation) :
    (f.root t o).1.Consistent := by
  have hsame (k : NodeId) : (f.root t o).1.childrenOf k = f.childrenOf k := by
    ext j
    rw [mem_childrenOf, mem_childrenOf, parent?_root]
    split
    case isTrue hj => simp [hj, parent?_size]
    case isFalse => rfl
  constructor
  · intro k p hp
    rw [parent?_root] at hp
    split at hp
    case isTrue => simp at hp
    case isFalse => exact h.earlier k p hp
  · intro k n hn
    rw [hsame]
    rw [node?_root] at hn
    split at hn
    case isTrue hk =>
      rw [hk, h.childrenOf_size, ← Option.some.inj hn]
      rfl
    case isFalse => exact h.counted k n hn

theorem Consistent.extend (h : f.Consistent) {k : NodeId} (hk : k < f.slots.size) (t : Time)
    (o : Valuation) (e : Event) : (f.extend k t o e).1.Consistent := by
  have hmem (i j : NodeId) : j ∈ (f.extend k t o e).1.childrenOf i ↔
      j = f.slots.size ∧ i = k ∨ j ∈ f.childrenOf i := by
    rw [mem_childrenOf, mem_childrenOf, parent?_extend]
    split
    case isTrue hj => simp [hj, parent?_size, eq_comm]
    case isFalse hj => simp [hj]
  constructor
  · intro j p hp
    rw [parent?_extend] at hp
    split at hp
    case isTrue hj => exact Option.some.inj hp ▸ hj ▸ hk
    case isFalse => exact h.earlier j p hp
  · intro j n hn
    rw [node?_extend] at hn
    split at hn
    case isTrue hj =>
      have hnone : (f.extend k t o e).1.childrenOf j = ∅ := by
        apply Finset.eq_empty_of_forall_notMem
        intro i hi
        rcases (hmem j i).mp hi with hi | hi
        · rw [← hi.2, hj] at hk
          exact Nat.lt_irrefl _ hk
        · rw [hj, h.childrenOf_size] at hi
          simp at hi
      rw [hnone, ← Option.some.inj hn]
      rfl
    case isFalse hj =>
      split at hn
      case isTrue hjk =>
        obtain ⟨m, hm, rfl⟩ := Option.map_eq_some_iff.mp hn
        have hnew : (f.extend k t o e).1.childrenOf j = insert f.slots.size (f.childrenOf j) := by
          ext i
          simp [hmem, hjk]
        have hout : f.slots.size ∉ f.childrenOf j := by
          simp [mem_childrenOf, parent?_size]
        rw [hnew, Finset.card_insert_of_notMem hout, ← h.counted j m hm]
      case isFalse hjk =>
        have hold : (f.extend k t o e).1.childrenOf j = f.childrenOf j := by
          ext i
          simp [hmem, hjk]
        rw [hold]
        exact h.counted j n hn

theorem Consistent.detach (h : f.Consistent) (k : NodeId) : (f.detach k).Consistent := by
  have hchildren (j : NodeId) : (f.detach k).childrenOf j = (f.childrenOf j).erase k := by
    ext i
    rw [mem_childrenOf, parent?_detach, Finset.mem_erase, mem_childrenOf]
    by_cases hi : i = k <;> simp [hi]
  constructor
  · intro j p hp
    rw [parent?_detach] at hp
    split at hp
    case isTrue => simp at hp
    case isFalse => exact h.earlier j p hp
  · intro j n hn
    rw [hchildren]
    rw [node?_detach] at hn
    split at hn
    case isTrue => simp at hn
    case isFalse =>
      split at hn
      case isTrue hp =>
        obtain ⟨m, hm, rfl⟩ := Option.map_eq_some_iff.mp hn
        rw [Finset.card_erase_of_mem ((mem_childrenOf f j k).mpr hp), ← h.counted j m hm]
      case isFalse hp =>
        have hout : k ∉ f.childrenOf j := fun hk => hp ((mem_childrenOf f j k).mp hk)
        rw [Finset.erase_eq_of_notMem hout]
        exact h.counted j n hn

theorem Consistent.not_tip_of_parent (h : f.Consistent) {j k : NodeId} (hp : f.parent? k = some j) :
    ¬ f.IsTip j := by
  intro ht
  obtain ⟨n, hn, hz⟩ := ht
  have hpos := Finset.card_pos.mpr ⟨k, (mem_childrenOf f j k).mpr hp⟩
  rw [← h.counted j n hn, hz] at hpos
  exact absurd hpos (Nat.lt_irrefl 0)

end Preservation

theorem prune_of_not_tip {f : Forest} {k : NodeId} (h : ¬ f.IsTip k) : f.prune k = f := by
  unfold prune
  cases hn : f.node? k with
  | none => rfl
  | some n =>
    have hpos : n.children > 0 := Nat.pos_of_ne_zero fun hz => h ⟨n, hn, hz⟩
    simp only [hpos, if_true]

theorem prune_of_tip {f : Forest} (h : f.Consistent) {k : NodeId} (ht : f.IsTip k) :
    f.prune k = match f.parent? k with
      | none => f.detach k
      | some p => (f.detach k).prune p := by
  obtain ⟨n, hn, hz⟩ := ht
  have hp : f.parent? k = n.parent := by rw [parent?, hn]; rfl
  have hnot : ¬ n.children > 0 := by omega
  rw [prune, detach, hp]
  simp only [hn, hnot, if_false]
  cases hq : n.parent with
  | none => rfl
  | some p =>
    have hlt : p < k := h.earlier k p (hp.trans hq)
    simp only [hlt, if_true]

/-- Cutting off goes up from tip to tip, and stops at a node with children or above a root. -/
theorem prune_induction {P : NodeId → Forest → Forest → Prop}
    (stop : ∀ f k, f.Consistent → ¬ f.IsTip k → P k f f)
    (last : ∀ f k, f.Consistent → f.IsTip k → f.parent? k = none → P k f (f.detach k))
    (up : ∀ f k p, f.Consistent → f.IsTip k → f.parent? k = some p →
      P p (f.detach k) ((f.detach k).prune p) → P k f ((f.detach k).prune p))
    {f : Forest} (h : f.Consistent) (k : NodeId) : P k f (f.prune k) := by
  induction k using Nat.strong_induction_on generalizing f with
  | _ k ih =>
    by_cases ht : f.IsTip k
    · rw [prune_of_tip h ht]
      cases hp : f.parent? k with
      | none => exact last f k h ht hp
      | some p => exact up f k p h ht hp (ih p (h.earlier k p hp) (h.detach k))
    · rw [prune_of_not_tip ht]
      exact stop f k h ht

theorem Consistent.prune {f : Forest} (h : f.Consistent) (k : NodeId) : (f.prune k).Consistent := by
  refine prune_induction (P := fun _ _ g => g.Consistent) ?_ ?_ ?_ h k
  · intro f k h _
    exact h
  · intro f k h _ _
    exact h.detach k
  · intro f k p _ _ _ hg
    exact hg

/-- Tips other than the one cut off are left as they are. -/
theorem node?_prune_of_tip {f : Forest} (h : f.Consistent) (k : NodeId) {j : NodeId} (hne : j ≠ k)
    (ht : f.IsTip j) : (f.prune k).node? j = f.node? j := by
  have hstay {f : Forest} {k : NodeId} (h : f.Consistent) (hne : j ≠ k) (ht : f.IsTip j) :
      (f.detach k).node? j = f.node? j := by
    rw [node?_detach, if_neg hne, if_neg fun hp => h.not_tip_of_parent hp ht]
  refine prune_induction
    (P := fun k f g => j ≠ k → f.IsTip j → g.node? j = f.node? j) ?_ ?_ ?_ h k hne ht
  · intro f k _ _ _ _
    rfl
  · intro f k h _ _ hne ht
    exact hstay h hne ht
  · intro f k p h _ hp ih hne ht
    have hj := hstay h hne ht
    have hne' : j ≠ p := fun he => h.not_tip_of_parent (he ▸ hp) ht
    obtain ⟨n, hn, hz⟩ := ht
    rw [ih hne' ⟨n, hj.trans hn, hz⟩, hj]

/-- What a node adds to histories, and where they go on. -/
def link? (f : Forest) (k : NodeId) : Option (Option NodeId × Entry) :=
  (f.node? k).map fun n => (n.parent, n.entry)

theorem ancestry_eq (f : Forest) (k : NodeId) :
    f.ancestry k = match f.link? k with
      | none => []
      | some (none, e) => [e]
      | some (some p, e) => e :: if p < k then f.ancestry p else [] := by
  rw [ancestry, link?]
  cases f.node? k with
  | none => rfl
  | some n =>
    obtain ⟨parent, children, entry⟩ := n
    cases parent <;> rfl

theorem parent?_eq (f : Forest) (k : NodeId) : f.parent? k = (f.link? k).bind Prod.fst := by
  rw [parent?, link?]
  cases f.node? k <;> rfl

/-- Histories are the same where all links up to their roots are. -/
theorem ancestry_congr {f g : Forest} {P : NodeId → Prop} (hlink : ∀ j, P j → g.link? j = f.link? j)
    (hup : ∀ j p, P j → f.parent? j = some p → p < j → P p) {k : NodeId} (hk : P k) :
    g.ancestry k = f.ancestry k := by
  induction k using Nat.strong_induction_on with
  | _ k ih =>
    rw [ancestry_eq, ancestry_eq, hlink k hk]
    have hparent := f.parent?_eq k
    rcases hl : f.link? k with _ | ⟨_ | p, e⟩
    · rfl
    · rfl
    · rw [hl] at hparent
      by_cases hlt : p < k
      · simp only [hlt, if_true, ih p hlt (hup k p hk hparent hlt)]
      · simp only [hlt, if_false]

theorem link?_root (f : Forest) (t : Time) (o : Valuation) (j : NodeId) :
    (f.root t o).1.link? j =
      if j = f.slots.size then some (none, ⟨t, o, none⟩) else f.link? j := by
  rw [link?, node?_root]
  split <;> rfl

theorem link?_extend (f : Forest) (k : NodeId) (t : Time) (o : Valuation) (e : Event) (j : NodeId) :
    (f.extend k t o e).1.link? j =
      if j = f.slots.size then some (some k, ⟨t, o, some e⟩) else f.link? j := by
  rw [link?, node?_extend]
  split
  · rfl
  · split
    · rw [link?]
      cases f.node? j <;> rfl
    · rfl

theorem link?_detach (f : Forest) (k j : NodeId) :
    (f.detach k).link? j = if j = k then none else f.link? j := by
  rw [link?, node?_detach]
  split
  · rfl
  · split
    · rw [link?]
      cases f.node? j <;> rfl
    · rfl

theorem isTip_root_new (f : Forest) (t : Time) (o : Valuation) :
    (f.root t o).1.IsTip f.slots.size :=
  ⟨_, by rw [node?_root, if_pos rfl], rfl⟩

theorem isTip_root_old {f : Forest} {j : NodeId} (h : f.IsTip j) (t : Time) (o : Valuation) :
    (f.root t o).1.IsTip j := by
  obtain ⟨n, hn, hz⟩ := h
  exact ⟨n, by rw [node?_root, if_neg (Nat.ne_of_lt (lt_of_node? hn)), hn], hz⟩

theorem isTip_extend_new (f : Forest) (k : NodeId) (t : Time) (o : Valuation) (e : Event) :
    (f.extend k t o e).1.IsTip f.slots.size :=
  ⟨_, by rw [node?_extend, if_pos rfl], rfl⟩

theorem isTip_extend_old {f : Forest} {j k : NodeId} (h : f.IsTip j) (hne : j ≠ k) (t : Time)
    (o : Valuation) (e : Event) : (f.extend k t o e).1.IsTip j := by
  obtain ⟨n, hn, hz⟩ := h
  exact ⟨n, by rw [node?_extend, if_neg (Nat.ne_of_lt (lt_of_node? hn)), if_neg hne, hn], hz⟩

theorem IsTip.lt {f : Forest} {k : NodeId} (h : f.IsTip k) : k < f.slots.size := by
  obtain ⟨n, hn, _⟩ := h
  exact lt_of_node? hn

theorem path_root_old (f : Forest) (t : Time) (o : Valuation) {j : NodeId}
    (hj : j < f.slots.size) : (f.root t o).1.path j = f.path j := by
  rw [path, path]
  refine congrArg List.reverse (ancestry_congr (P := fun j => j < f.slots.size) ?_ ?_ hj)
  · intro j hj
    rw [link?_root, if_neg (Nat.ne_of_lt hj)]
  · intro j p hj _ hp
    exact Nat.lt_trans hp hj

theorem path_root_new (f : Forest) (t : Time) (o : Valuation) :
    (f.root t o).1.path f.slots.size = [⟨t, o, none⟩] := by
  rw [path, ancestry_eq, link?_root, if_pos rfl]
  rfl

theorem path_extend_old (f : Forest) (k : NodeId) (t : Time) (o : Valuation) (e : Event)
    {j : NodeId} (hj : j < f.slots.size) : (f.extend k t o e).1.path j = f.path j := by
  rw [path, path]
  refine congrArg List.reverse (ancestry_congr (P := fun j => j < f.slots.size) ?_ ?_ hj)
  · intro j hj
    rw [link?_extend, if_neg (Nat.ne_of_lt hj)]
  · intro j p hj _ hp
    exact Nat.lt_trans hp hj

theorem path_extend_new (f : Forest) {k : NodeId} (hk : k < f.slots.size) (t : Time)
    (o : Valuation) (e : Event) :
    (f.extend k t o e).1.path f.slots.size = f.path k ++ [⟨t, o, some e⟩] := by
  have hold := path_extend_old f k t o e hk
  rw [path, ancestry_eq, link?_extend, if_pos rfl]
  simp only [hk, if_true, List.reverse_cons]
  exact congrArg (· ++ _) hold

theorem ancestry_detach {f : Forest} (h : f.Consistent) {k : NodeId} (ht : f.IsTip k) {j : NodeId}
    (hj : j ≠ k) : (f.detach k).ancestry j = f.ancestry j := by
  refine ancestry_congr (P := fun j => j ≠ k) ?_ ?_ hj
  · intro j hj
    rw [link?_detach, if_neg hj]
  · intro j p _ hp _ he
    exact h.not_tip_of_parent (he ▸ hp) ht

/-- Nothing comes back to life, and the history of what stays is not cut short. -/
theorem ancestry_prune {f : Forest} (h : f.Consistent) (k : NodeId) {j : NodeId}
    (hj : ((f.prune k).node? j).isSome) :
    (f.node? j).isSome ∧ (f.prune k).ancestry j = f.ancestry j := by
  refine prune_induction (P := fun _ f g =>
    (g.node? j).isSome → (f.node? j).isSome ∧ g.ancestry j = f.ancestry j) ?_ ?_ ?_ h k hj
  · intro f k _ _ hj
    exact ⟨hj, rfl⟩
  · intro f k h ht _ hj
    obtain ⟨hne, hf⟩ := live_of_detach hj
    exact ⟨hf, ancestry_detach h ht hne⟩
  · intro f k p h ht _ ih hj
    obtain ⟨hd, ha⟩ := ih hj
    obtain ⟨hne, hf⟩ := live_of_detach hd
    exact ⟨hf, ha.trans (ancestry_detach h ht hne)⟩

theorem path_prune {f : Forest} (h : f.Consistent) (k : NodeId) {j : NodeId}
    (hj : ((f.prune k).node? j).isSome) : (f.prune k).path j = f.path j := by
  rw [path, path, (ancestry_prune h k hj).2]

theorem latest_eq (f : Forest) (k : NodeId) : f.latest k = (f.path k).getLast? := by
  rw [path, List.getLast?_reverse, latest, ancestry]
  cases f.node? k <;> rfl

theorem latestAt_eq (f : Forest) (k : NodeId) (t : Time) :
    f.latestAt k t = (f.path k).reverse.find? (·.time ≤ t) := by
  rw [path, List.reverse_reverse, latestAt]

end Forest

end Chronicle
