import Chronicle.Valuation
import Chronicle.Proofs.Result
import Chronicle.Proofs.SortedMap
import Mathlib.Data.List.Induction

/-!
Merges of updates into a valuation. An update is merged if it gives each of its fluents one new
value for an old one, and otherwise the first pair at fault is reported. Two merges, one after the
other, come to one merge of the later update and of the earlier one as far as that lasts.
-/

namespace Chronicle

namespace Valuation

/-- New values for some fluents, later pairs before earlier ones. -/
def update (v : Valuation) (ps : List (Fluent × Bool)) : Valuation :=
  ps.foldl (fun v p => v.insert p.1 p.2) v

/-- Each fluent comes once and has a value already. -/
structure Admits (v : Valuation) (ps : List (Fluent × Bool)) : Prop where
  distinct : (ps.map Prod.fst).Nodup
  valued : ∀ p ∈ ps, p.1 ∈ v

/-- The same fluents with their values from the pairs, and the other values kept. -/
structure Merged (v : Valuation) (ps : List (Fluent × Bool)) (w : Valuation) : Prop where
  fluents : ∀ f, f ∈ w ↔ f ∈ v
  updated : ∀ p ∈ ps, w.get? p.1 = some p.2
  kept : ∀ f, f ∉ ps.map Prod.fst → w.get? f = v.get? f

/-- What is wrong with a new value for a fluent, after other pairs. -/
inductive Fault (v : Valuation) (before : List (Fluent × Bool)) : Fluent → LogicError → Prop
  | undefined {f : Fluent} (h : f ∉ v) : Fault v before f (.undefinedFluent f)
  | repeated {f : Fluent} (h : f ∈ before.map Prod.fst) : Fault v before f (.duplicateAssignment f)

/-- What is wrong with the first pair at fault. -/
def FirstFault (v : Valuation) (ps : List (Fluent × Bool)) (e : LogicError) : Prop :=
  ∃ before p after, ps = before ++ p :: after ∧ v.Admits before ∧ v.Fault before p.1 e

/-- The pairs of the second update, and those of the first on other fluents. -/
def combine (ps qs : List (Fluent × Bool)) : List (Fluent × Bool) :=
  qs ++ ps.filter fun p => p.1 ∉ qs.map Prod.fst

theorem get?_update (v w : Valuation) (f : Fluent) :
    (v.update w.entries).get? f = (w.get? f).or (v.get? f) :=
  v.get?_foldl_insert w.entries w.keys_nodup f

theorem mergeAfter_eq_ok (seen : List Fluent) (v w : Valuation) (ps : List (Fluent × Bool)) :
    mergeAfter seen v ps = .ok w ↔
      (ps.map Prod.fst).Nodup ∧ (∀ p ∈ ps, p.1 ∈ v ∧ p.1 ∉ seen) ∧ w = v.update ps := by
  induction ps generalizing seen v with
  | nil => simp [mergeAfter, update, eq_comm]
  | cons p rest ih =>
    obtain ⟨f, b⟩ := p
    rw [List.forall_mem_cons, mergeAfter]
    by_cases hv : f ∈ v
    · by_cases hs : f ∈ seen
      · simp [hv, hs]
      · have hp (p : Fluent × Bool) : p.1 ∈ v.insert f b ∧ p.1 ∉ f :: seen ↔
            p.1 ≠ f ∧ p.1 ∈ v ∧ p.1 ∉ seen := by
          simp only [SortedMap.mem_insert, List.mem_cons, not_or]
          tauto
        have hn : (∀ p ∈ rest, p.1 ≠ f) ↔ f ∉ rest.map Prod.fst := by
          simp only [List.mem_map, not_exists, not_and, ne_eq]
        simp only [hv, hs, if_true, if_false, ih, hp, List.map_cons, List.nodup_cons, ← hn,
          not_false_eq_true, true_and, update, List.foldl_cons, imp_and, forall_and]
        tauto
    · simp [hv]

/-- A merge succeeds exactly if each fluent comes once and has a value. -/
theorem merge_eq_ok (v w : Valuation) (ps : List (Fluent × Bool)) :
    v.merge ps = .ok w ↔ (ps.map Prod.fst).Nodup ∧ (∀ p ∈ ps, p.1 ∈ v) ∧ w = v.update ps := by
  rw [merge, mergeAfter_eq_ok]
  simp

theorem merge_entries_eq_ok (v u w : Valuation) :
    v.merge w.entries = .ok u ↔ (∀ f ∈ w, f ∈ v) ∧ u = v.update w.entries := by
  have hm : (∀ f ∈ w, f ∈ v) ↔ ∀ p ∈ w.entries, p.1 ∈ v := List.forall_mem_map
  have hn : (w.entries.map Prod.fst).Nodup := w.keys_nodup
  rw [merge_eq_ok, hm]
  exact and_iff_right hn

section Merge

variable {v w x y z : Valuation} {ps qs : List (Fluent × Bool)} {e : LogicError}

theorem Admits.merged_update (h : v.Admits ps) : v.Merged ps (v.update ps) := by
  have hget (f : Fluent) : (v.update ps).get? f = (SortedMap.lookup f ps).or (v.get? f) :=
    v.get?_foldl_insert ps h.distinct f
  have hupdated : ∀ p ∈ ps, (v.update ps).get? p.1 = some p.2 := by
    intro p hp
    rw [hget, (SortedMap.lookup_eq_some p.1 p.2 ps h.distinct).mpr hp, Option.some_or]
  have hkept : ∀ f, f ∉ ps.map Prod.fst → (v.update ps).get? f = v.get? f := by
    intro f hf
    rw [hget, (SortedMap.lookup_eq_none f ps).mpr hf, Option.none_or]
  refine ⟨?_, hupdated, hkept⟩
  intro f
  by_cases hf : f ∈ ps.map Prod.fst
  · obtain ⟨p, hp, rfl⟩ := List.mem_map.mp hf
    exact iff_of_true (SortedMap.mem_of_get? (hupdated p hp)) (h.valued p hp)
  · rw [← SortedMap.get?_isSome, hkept f hf, SortedMap.get?_isSome]

theorem Merged.unique (hx : v.Merged ps x) (hy : v.Merged ps y) : x = y := by
  apply SortedMap.ext_get?
  intro f
  by_cases hf : f ∈ ps.map Prod.fst
  · obtain ⟨p, hp, rfl⟩ := List.mem_map.mp hf
    rw [hx.updated p hp, hy.updated p hp]
  · rw [hx.kept f hf, hy.kept f hf]

theorem merge_eq_ok_iff_merged : v.merge ps = .ok w ↔ v.Admits ps ∧ v.Merged ps w := by
  rw [merge_eq_ok]
  constructor
  · intro h
    obtain ⟨hdistinct, hvalued, rfl⟩ := h
    have hadmits : v.Admits ps := ⟨hdistinct, hvalued⟩
    exact ⟨hadmits, hadmits.merged_update⟩
  · intro h
    obtain ⟨hadmits, hmerged⟩ := h
    exact ⟨hadmits.distinct, hadmits.valued, hmerged.unique hadmits.merged_update⟩

theorem exists_merge : (∃ w, v.merge ps = .ok w) ↔ v.Admits ps := by
  constructor
  · intro h
    obtain ⟨w, hw⟩ := h
    exact (merge_eq_ok_iff_merged.mp hw).1
  · intro h
    exact ⟨_, merge_eq_ok_iff_merged.mpr ⟨h, h.merged_update⟩⟩

theorem Merged.admits_iff (h : v.Merged ps w) : w.Admits qs ↔ v.Admits qs := by
  constructor
  · intro hqs
    exact ⟨hqs.distinct, fun p hp => (h.fluents p.1).mp (hqs.valued p hp)⟩
  · intro hqs
    exact ⟨hqs.distinct, fun p hp => (h.fluents p.1).mpr (hqs.valued p hp)⟩

/-- After some pairs, the rest is merged into what these have made of the valuation. -/
theorem mergeAfter_append (seen : List Fluent) (v : Valuation) (ps qs : List (Fluent × Bool)) :
    mergeAfter seen v (ps ++ qs) =
      mergeAfter seen v ps >>= fun w => mergeAfter ((ps.map Prod.fst).reverse ++ seen) w qs := by
  induction ps generalizing seen v with
  | nil => rfl
  | cons p ps ih =>
    obtain ⟨f, b⟩ := p
    have hseen : (((f, b) :: ps).map Prod.fst).reverse ++ seen =
        (ps.map Prod.fst).reverse ++ f :: seen := by simp
    rw [hseen, List.cons_append, mergeAfter, mergeAfter]
    by_cases hv : f ∈ v
    · by_cases hs : f ∈ seen
      · rw [if_pos hv, if_pos hs, if_pos hv, if_pos hs]
        rfl
      · rw [if_pos hv, if_neg hs, if_pos hv, if_neg hs]
        exact ih _ _
    · rw [if_neg hv, if_neg hv]
      rfl

theorem FirstFault.merge (h : v.FirstFault ps e) : v.merge ps = .error e := by
  obtain ⟨before, ⟨f, b⟩, after, rfl, hbefore, hfault⟩ := h
  obtain ⟨w, hw⟩ := exists_merge.mpr hbefore
  have hfluents := (merge_eq_ok_iff_merged.mp hw).2.fluents
  have hstop :
      mergeAfter ((before.map Prod.fst).reverse ++ []) w ((f, b) :: after) = .error e := by
    rw [mergeAfter]
    cases hfault with
    | undefined hout => rw [if_neg (mt (hfluents f).mp hout)]
    | repeated hin =>
      obtain ⟨p, hp, rfl⟩ := List.mem_map.mp hin
      rw [if_pos ((hfluents p.1).mpr (hbefore.valued p hp)), if_pos (by simpa using hin)]
  rw [Valuation.merge, mergeAfter_append, ← Valuation.merge, hw]
  exact hstop

theorem exists_firstFault (h : ¬ v.Admits ps) : ∃ e, v.FirstFault ps e := by
  -- From the end, since a pair is at fault by those before it.
  induction ps using List.reverseRecOn with
  | nil => exact absurd ⟨.nil, by simp⟩ h
  | append_singleton ps p ih =>
    by_cases hps : v.Admits ps
    · by_cases hv : p.1 ∈ v
      · by_cases hp : p.1 ∈ ps.map Prod.fst
        · exact ⟨_, ps, p, [], rfl, hps, .repeated hp⟩
        · refine absurd ⟨?_, ?_⟩ h
          · rw [List.map_append, List.map_singleton, ← List.concat_eq_append]
            exact hps.distinct.concat hp
          · exact List.forall_mem_append.mpr ⟨hps.valued, List.forall_mem_singleton.mpr hv⟩
      · exact ⟨_, ps, p, [], rfl, hps, .undefined hv⟩
    · obtain ⟨e, before, q, after, rfl, hbefore, hfault⟩ := ih hps
      exact ⟨e, before, q, after ++ [p], by simp, hbefore, hfault⟩

theorem merge_eq_error : v.merge ps = .error e ↔ v.FirstFault ps e := by
  constructor
  · intro h
    have hrefused : ¬ v.Admits ps := by
      intro hadmits
      obtain ⟨w, hw⟩ := exists_merge.mpr hadmits
      rw [hw] at h
      cases h
    obtain ⟨e', hfault⟩ := exists_firstFault hrefused
    rw [hfault.merge] at h
    exact Except.error.inj h ▸ hfault
  · exact FirstFault.merge

/-- What comes from a map gives no fluent two values. -/
theorem merge_entries_eq_error (h : v.merge w.entries = .error e) :
    ∃ f ∈ w, f ∉ v ∧ e = .undefinedFluent f := by
  obtain ⟨before, p, after, hsplit, _, hfault⟩ := merge_eq_error.mp h
  have hkeys : w.keys = before.map Prod.fst ++ p.1 :: after.map Prod.fst := by
    rw [SortedMap.keys, hsplit, List.map_append, List.map_cons]
  cases hfault with
  | undefined hout =>
    exact ⟨p.1, SortedMap.mem_iff.mpr (hkeys ▸ List.mem_append_right _ List.mem_cons_self), hout,
      rfl⟩
  | repeated hin =>
    exact absurd List.mem_cons_self (List.disjoint_of_nodup_append (hkeys ▸ w.keys_nodup) hin)

theorem Admits.perm (h : v.Admits ps) (hp : ps.Perm qs) : v.Admits qs :=
  ⟨((hp.map Prod.fst).nodup_iff).mp h.distinct, fun q hq => h.valued q (hp.mem_iff.mpr hq)⟩

theorem Merged.perm (h : v.Merged ps w) (hp : ps.Perm qs) : v.Merged qs w := by
  refine ⟨h.fluents, fun q hq => h.updated q (hp.mem_iff.mpr hq), ?_⟩
  intro f hf
  exact h.kept f (mt (hp.map Prod.fst).mem_iff.mp hf)

/-- It does not matter in which order the pairs come. -/
theorem merge_perm (h : v.merge ps = .ok w) (hp : ps.Perm qs) : v.merge qs = .ok w := by
  obtain ⟨hadmits, hmerged⟩ := merge_eq_ok_iff_merged.mp h
  exact merge_eq_ok_iff_merged.mpr ⟨hadmits.perm hp, hmerged.perm hp⟩

theorem mem_combine (p : Fluent × Bool) :
    p ∈ combine ps qs ↔ p ∈ qs ∨ p ∈ ps ∧ p.1 ∉ qs.map Prod.fst := by
  rw [combine, List.mem_append, List.mem_filter, decide_eq_true_iff]

theorem Admits.combine (hps : v.Admits ps) (hqs : v.Admits qs) : v.Admits (combine ps qs) := by
  constructor
  · rw [Valuation.combine, List.map_append]
    refine hqs.distinct.append (hps.distinct.sublist (List.filter_sublist.map Prod.fst)) ?_
    intro f hf hrest
    obtain ⟨p, hp, rfl⟩ := List.mem_map.mp hrest
    exact of_decide_eq_true (List.mem_filter.mp hp).2 hf
  · intro p hp
    exact ((mem_combine p).mp hp).elim (hqs.valued p) fun h => hps.valued p h.1

theorem Merged.combine (hx : v.Merged ps x) (hz : x.Merged qs z) :
    v.Merged (combine ps qs) z := by
  refine ⟨fun f => (hz.fluents f).trans (hx.fluents f), ?_, ?_⟩
  · intro p hp
    rcases (mem_combine p).mp hp with hp | ⟨hp, hout⟩
    · exact hz.updated p hp
    · rw [hz.kept p.1 hout, hx.updated p hp]
  · intro f hf
    have hqs : f ∉ qs.map Prod.fst := by
      intro hin
      obtain ⟨p, hp, rfl⟩ := List.mem_map.mp hin
      exact hf (List.mem_map_of_mem ((mem_combine p).mpr (.inl hp)))
    have hps : f ∉ ps.map Prod.fst := by
      intro hin
      obtain ⟨p, hp, rfl⟩ := List.mem_map.mp hin
      exact hf (List.mem_map_of_mem ((mem_combine p).mpr (.inr ⟨hp, hqs⟩)))
    rw [hz.kept f hqs, hx.kept f hps]

theorem merge_merge (hx : v.merge ps = .ok x) (hy : v.merge qs = .ok y) :
    ∃ z, x.merge qs = .ok z ∧ v.merge (combine ps qs) = .ok z := by
  obtain ⟨hps, hx⟩ := merge_eq_ok_iff_merged.mp hx
  have hqs := exists_merge.mp ⟨y, hy⟩
  obtain ⟨z, hz⟩ := exists_merge.mpr (hx.admits_iff.mpr hqs)
  have hmerged := (merge_eq_ok_iff_merged.mp hz).2
  exact ⟨z, hz, merge_eq_ok_iff_merged.mpr ⟨hps.combine hqs, hx.combine hmerged⟩⟩

theorem combine_of_disjoint (h : (ps.map Prod.fst).Disjoint (qs.map Prod.fst)) :
    combine ps qs = qs ++ ps := by
  rw [combine, List.filter_eq_self.mpr]
  intro p hp
  exact decide_eq_true fun hin => h (List.mem_map_of_mem hp) hin

/-- Neither update takes anything from the other, and so either way both are merged as a whole. -/
theorem merge_comm_of_disjoint (h : (ps.map Prod.fst).Disjoint (qs.map Prod.fst))
    (hz : (v.merge ps >>= fun x => x.merge qs) = .ok z) :
    (v.merge qs >>= fun y => y.merge ps) = .ok z := by
  obtain ⟨x, hx, hz⟩ := (Result.bind_eq_ok _ _ _).mp hz
  have hadmits := (merge_eq_ok_iff_merged.mp hx).2.admits_iff.mp (exists_merge.mp ⟨z, hz⟩)
  obtain ⟨y, hy⟩ := exists_merge.mpr hadmits
  obtain ⟨z₁, hz₁, hboth₁⟩ := merge_merge hx hy
  obtain ⟨z₂, hz₂, hboth₂⟩ := merge_merge hy hx
  rw [combine_of_disjoint h] at hboth₁
  rw [combine_of_disjoint (List.disjoint_symm h)] at hboth₂
  have hswap := merge_perm hboth₂ List.perm_append_comm
  obtain rfl : z₂ = z₁ := Except.ok.inj (hswap.symm.trans hboth₁)
  obtain rfl : z₂ = z := Except.ok.inj (hz₁.symm.trans hz)
  exact (Result.bind_eq_ok _ _ _).mpr ⟨y, hy, hz₂⟩

/-- An update is merged exactly if its fluents are distinct and have values. Then it replaces these
values and no others, and otherwise its first fault is reported. A second merge comes to a merge
from the start, of the second update with the pairs of the first on other fluents, in any order.
Merges of updates without a common fluent may be exchanged. -/
theorem merge_spec (v : Valuation) (ps : List (Fluent × Bool)) :
    ((∃ w, v.merge ps = .ok w) ↔ v.Admits ps) ∧
    (∀ w, v.merge ps = .ok w → v.Merged ps w) ∧
    (∀ e, v.merge ps = .error e ↔ v.FirstFault ps e) ∧
    (∀ qs x y, v.merge ps = .ok x → v.merge qs = .ok y → ∃ z, x.merge qs = .ok z ∧
      ∀ rs, (combine ps qs).Perm rs → v.merge rs = .ok z) ∧
    ∀ qs, (ps.map Prod.fst).Disjoint (qs.map Prod.fst) →
      Result.SameOutcome (v.merge ps >>= fun x => x.merge qs)
        (v.merge qs >>= fun y => y.merge ps) := by
  refine ⟨exists_merge, fun w hw => (merge_eq_ok_iff_merged.mp hw).2, fun e => merge_eq_error,
    ?_, ?_⟩
  · intro qs x y hx hy
    obtain ⟨z, hz, hboth⟩ := merge_merge hx hy
    exact ⟨z, hz, fun rs => merge_perm hboth⟩
  · intro qs h
    exact Result.sameOutcome_iff.mpr fun z =>
      ⟨merge_comm_of_disjoint h, merge_comm_of_disjoint (List.disjoint_symm h)⟩

end Merge

def darkRoom : Valuation := allFalse [⟨"dim"⟩, ⟨"hot"⟩, ⟨"lit"⟩]

/-- A dim light is lit. Then a bright one is, which is hot, or else the room is heated. -/
theorem darkRoom_merged :
    let dimmed : List (Fluent × Bool) := [(⟨"lit"⟩, true), (⟨"dim"⟩, true)]
    let bright : List (Fluent × Bool) := [(⟨"dim"⟩, false), (⟨"hot"⟩, true)]
    let heated : List (Fluent × Bool) := [(⟨"hot"⟩, true)]
    (∃ x y z, darkRoom.merge dimmed = .ok x ∧ darkRoom.merge bright = .ok y ∧
      darkRoom.Merged dimmed x ∧ x.merge bright = .ok z ∧
      darkRoom.merge [(⟨"lit"⟩, true), (⟨"hot"⟩, true), (⟨"dim"⟩, false)] = .ok z) ∧
    (dimmed.map Prod.fst).Disjoint (heated.map Prod.fst) ∧
    Result.SameOutcome (darkRoom.merge dimmed >>= fun x => x.merge heated)
      (darkRoom.merge heated >>= fun y => y.merge dimmed) ∧
    darkRoom.merge (dimmed ++ dimmed ++ [(⟨"wet"⟩, true)]) =
      .error (.duplicateAssignment ⟨"lit"⟩) := by
  intro dimmed bright heated
  have hdimmed : darkRoom.Admits dimmed := ⟨by decide, by decide +kernel⟩
  have hbright : darkRoom.Admits bright := ⟨by decide, by decide +kernel⟩
  have hdisjoint : (dimmed.map Prod.fst).Disjoint (heated.map Prod.fst) := by
    simp [dimmed, heated]
  obtain ⟨hisOk, hmerged, _, hagain, hexchange⟩ := merge_spec darkRoom dimmed
  obtain ⟨x, hx⟩ := hisOk.mpr hdimmed
  obtain ⟨y, hy⟩ := (merge_spec darkRoom bright).1.mpr hbright
  obtain ⟨z, hz, hall⟩ := hagain bright x y hx hy
  have hrepeated : darkRoom.FirstFault (dimmed ++ dimmed ++ [(⟨"wet"⟩, true)])
      (.duplicateAssignment ⟨"lit"⟩) :=
    ⟨dimmed, (⟨"lit"⟩, true), [(⟨"dim"⟩, true), (⟨"wet"⟩, true)], rfl, hdimmed,
      .repeated (by decide)⟩
  exact ⟨⟨x, y, z, hx, hy, hmerged x hx, hz, hall _ (by decide)⟩, hdisjoint,
    hexchange heated hdisjoint, ((merge_spec darkRoom _).2.2.1 _).mpr hrepeated⟩

end Valuation

end Chronicle
