import Chronicle.Name
import Mathlib.Data.List.Forall2
import Mathlib.Data.List.Nodup

namespace Chronicle

namespace SortedMap

variable {κ α : Type} [LT κ] [StrictOrder κ]

theorem keys_nodup (m : SortedMap κ α) : m.keys.Nodup := by
  apply m.ordered.imp
  intro a b hab he
  subst he
  exact StrictOrder.irrefl a hab

omit [StrictOrder κ] in
theorem mem_filterKeys (m : SortedMap κ α) (keep : κ → Bool) (k : κ) :
    k ∈ m.filterKeys keep ↔ k ∈ m ∧ keep k = true := by
  simp only [mem_iff, keys, filterKeys, List.mem_map, List.mem_filter]
  constructor
  · intro h
    obtain ⟨e, ⟨he, hk⟩, rfl⟩ := h
    exact ⟨⟨e, he, rfl⟩, hk⟩
  · intro h
    obtain ⟨⟨e, he, rfl⟩, hk⟩ := h
    exact ⟨e, ⟨he, hk⟩, rfl⟩

omit [StrictOrder κ] in
theorem length_keys (m : SortedMap κ α) : m.keys.length = m.size := List.length_map ..

omit [StrictOrder κ] in
theorem not_mem_empty (k : κ) : k ∉ (∅ : SortedMap κ α) := List.not_mem_nil

omit [StrictOrder κ] in
theorem ext_entries {m n : SortedMap κ α} (h : m.entries = n.entries) : m = n := by
  cases m
  cases n
  cases h
  rfl

/-- Strictly ordered lists with the same members are equal. -/
theorem keys_eq_of_mem_iff {β : Type} (m : SortedMap κ α) (n : SortedMap κ β)
    (h : ∀ k, k ∈ m ↔ k ∈ n) : m.keys = n.keys := by
  have hp : m.keys.Perm n.keys := (List.perm_ext_iff_of_nodup m.keys_nodup n.keys_nodup).mpr h
  apply hp.eq_of_pairwise _ m.ordered n.ordered
  intro a b _ _ hab hba
  exact absurd (StrictOrder.trans hab hba) (StrictOrder.irrefl a)

theorem keys_eq_iff {β : Type} (m : SortedMap κ α) (n : SortedMap κ β) :
    m.keys = n.keys ↔ ∀ k, k ∈ m ↔ k ∈ n := by
  constructor
  · intro h k
    rw [mem_iff, h, mem_iff]
  · exact keys_eq_of_mem_iff m n

section Lookup

variable [DecidableEq κ]

omit [LT κ] [StrictOrder κ] in
theorem lookup_eq_none (k : κ) (es : List (κ × α)) : lookup k es = none ↔ k ∉ es.map Prod.fst := by
  rw [← lookup_isSome]
  cases lookup k es <;> simp

omit [LT κ] [StrictOrder κ] in
theorem lookup_eq_some (k : κ) (a : α) (es : List (κ × α)) (h : (es.map Prod.fst).Nodup) :
    lookup k es = some a ↔ (k, a) ∈ es := by
  induction es with
  | nil => simp [lookup]
  | cons e rest ih =>
    obtain ⟨hn, hr⟩ := List.nodup_cons.mp h
    by_cases hk : k = e.1
    · subst hk
      have hout : (e.1, a) ∉ rest := fun hm => hn (List.mem_map.mpr ⟨_, hm, rfl⟩)
      simp only [lookup, if_true, Option.some.injEq, List.mem_cons, hout, or_false]
      constructor
      · intro he
        subst he
        rfl
      · intro he
        exact (congrArg Prod.snd he).symm
    · have hne : (k, a) ≠ e := fun he => hk (congrArg Prod.fst he)
      simp [lookup, hk, hne, ih hr]

theorem get?_eq_some (m : SortedMap κ α) (k : κ) (a : α) : m.get? k = some a ↔ (k, a) ∈ m.entries :=
  lookup_eq_some k a m.entries m.keys_nodup

omit [StrictOrder κ] in
theorem mem_of_get? {m : SortedMap κ α} {k : κ} {a : α} (h : m.get? k = some a) : k ∈ m :=
  get?_isSome.mp (by simp [h])

omit [StrictOrder κ] in
theorem exists_get? {m : SortedMap κ α} {k : κ} (h : k ∈ m) : ∃ a, m.get? k = some a :=
  Option.isSome_iff_exists.mp (get?_isSome.mpr h)

theorem get?_filterKeys (m : SortedMap κ α) (keep : κ → Bool) (k : κ) :
    (m.filterKeys keep).get? k = if keep k then m.get? k else none := by
  by_cases hk : keep k = true
  · rw [if_pos hk]
    apply Option.ext
    intro a
    rw [get?_eq_some, get?_eq_some]
    simp [filterKeys, hk]
  · rw [if_neg hk, get?_eq_none, mem_filterKeys]
    exact fun h => hk h.2

variable [DecidableLT κ]

@[simp] theorem mem_insert (m : SortedMap κ α) (k k' : κ) (a : α) :
    k' ∈ m.insert k a ↔ k' = k ∨ k' ∈ m := by
  rw [← get?_isSome, get?_insert, ← get?_isSome]
  by_cases h : k' = k <;> simp [h]

@[simp] theorem mem_union (m n : SortedMap κ α) (k : κ) : k ∈ m.union n ↔ k ∈ m ∨ k ∈ n := by
  rw [← get?_isSome, get?_union, ← get?_isSome, ← get?_isSome]
  cases m.get? k <;> simp

/-- Entries put in one after another, of which the first are found if no key comes twice. -/
theorem get?_foldl_insert (m : SortedMap κ α) (es : List (κ × α)) (h : (es.map Prod.fst).Nodup)
    (k : κ) : (es.foldl (fun m e => m.insert e.1 e.2) m).get? k = (lookup k es).or (m.get? k) := by
  induction es generalizing m with
  | nil => rfl
  | cons e rest ih =>
    obtain ⟨hn, hr⟩ := List.nodup_cons.mp h
    rw [List.foldl_cons, ih (m.insert e.1 e.2) hr, get?_insert]
    by_cases hk : k = e.1
    · have hout : lookup k rest = none := (lookup_eq_none k rest).mpr (hk ▸ hn)
      rw [hout, if_pos hk, lookup, if_pos hk]
      rfl
    · rw [if_neg hk, lookup, if_neg hk]

section Distinct

variable {ε : Type} (refuse : κ → ε)

/-- The first key that has come before, in the map or among the entries, is refused. -/
theorem addDistinct_eq_error (m : SortedMap κ α) (es : List (κ × α)) (err : ε) :
    addDistinct refuse m es = .error err ↔ ∃ before k after, es.map Prod.fst = before ++ k :: after ∧
      before.Nodup ∧ (∀ j ∈ before, j ∉ m) ∧ (k ∈ m ∨ k ∈ before) ∧ refuse k = err := by
  induction es generalizing m with
  | nil => simp [addDistinct]
  | cons e rest ih =>
    rw [addDistinct, List.map_cons]
    by_cases he : e.1 ∈ m
    · rw [if_pos he, Except.error.injEq]
      constructor
      · intro h
        exact ⟨[], e.1, rest.map Prod.fst, rfl, .nil, by simp, .inl he, h⟩
      · intro h
        obtain ⟨before, k, after, hsplit, _, hout, _, h⟩ := h
        rcases List.cons_eq_append_iff.mp hsplit with ⟨rfl, hk⟩ | ⟨before', rfl, _⟩
        · rw [← (List.cons.inj hk).1, h]
        · exact absurd he (hout _ List.mem_cons_self)
    · rw [if_neg he, ih]
      constructor
      · intro h
        obtain ⟨before, k, after, hsplit, hn, hout, hin, h⟩ := h
        have hfresh (j : κ) (hj : j ∈ before) : j ≠ e.1 ∧ j ∉ m := by
          simpa [not_or] using hout j hj
        refine ⟨e.1 :: before, k, after, by rw [hsplit]; rfl, ?_, ?_, ?_, h⟩
        · exact List.nodup_cons.mpr ⟨fun hmem => (hfresh _ hmem).1 rfl, hn⟩
        · exact List.forall_mem_cons.mpr ⟨he, fun j hj => (hfresh j hj).2⟩
        · rw [mem_insert] at hin
          rw [List.mem_cons]
          tauto
      · intro h
        obtain ⟨before, k, after, hsplit, hn, hout, hin, h⟩ := h
        rcases List.cons_eq_append_iff.mp hsplit with ⟨rfl, hk⟩ | ⟨before', rfl, hrest⟩
        · rw [(List.cons.inj hk).1] at hin
          exact absurd hin (by simpa using he)
        · obtain ⟨hfirst, hn⟩ := List.nodup_cons.mp hn
          refine ⟨before', k, after, hrest, hn, ?_, ?_, h⟩
          · intro j hj
            rw [mem_insert, not_or]
            exact ⟨fun hje => hfirst (hje ▸ hj), hout j (List.mem_cons_of_mem _ hj)⟩
          · rw [List.mem_cons] at hin
            rw [mem_insert]
            tauto

theorem addDistinct_append (m : SortedMap κ α) (es fs : List (κ × α)) :
    addDistinct refuse m (es ++ fs) =
      addDistinct refuse m es >>= fun m => addDistinct refuse m fs := by
  induction es generalizing m with
  | nil => rfl
  | cons e rest ih =>
    rw [List.cons_append, addDistinct, addDistinct]
    by_cases he : e.1 ∈ m
    · rw [if_pos he, if_pos he]
      rfl
    · rw [if_neg he, if_neg he]
      exact ih _

theorem addDistinct_eq_foldl (m : SortedMap κ α) {es : List (κ × α)}
    (hn : (es.map Prod.fst).Nodup) (hm : ∀ e ∈ es, e.1 ∉ m) :
    addDistinct refuse m es = .ok (es.foldl (fun m e => m.insert e.1 e.2) m) := by
  induction es generalizing m with
  | nil => rfl
  | cons e rest ih =>
    obtain ⟨hfirst, hn⟩ := List.nodup_cons.mp hn
    obtain ⟨hout, hm⟩ := List.forall_mem_cons.mp hm
    rw [addDistinct, if_neg hout, List.foldl_cons]
    apply ih _ hn
    intro e' he'
    rw [mem_insert, not_or]
    exact ⟨fun he => hfirst (he ▸ List.mem_map_of_mem he'), hm e' he'⟩

/-- No entry of a map is refused by a map without its keys. -/
theorem addDistinct_entries {m n : SortedMap κ α} (h : ∀ k ∈ n, k ∉ m) :
    addDistinct refuse m n.entries = .ok (m.union n) := by
  have hout : ∀ e ∈ n.entries, e.1 ∉ m := fun e he => h e.1 (List.mem_map_of_mem he)
  rw [addDistinct_eq_foldl refuse m n.keys_nodup hout]
  congr 1
  apply ext_get?
  intro k
  rw [get?_foldl_insert m n.entries n.keys_nodup, ← get?, get?_union]
  by_cases hk : k ∈ n
  · obtain ⟨a, ha⟩ := exists_get? hk
    rw [get?_eq_none.mpr (h k hk), ha]
    rfl
  · rw [get?_eq_none.mpr hk, Option.none_or, Option.or_none]

theorem addDistinct_entries_empty (m : SortedMap κ α) :
    addDistinct refuse ∅ m.entries = .ok m :=
  addDistinct_entries refuse fun k _ => not_mem_empty k

end Distinct

omit [StrictOrder κ] in
theorem place_eq_append (k : κ) (a : α) (es : List (κ × α)) (hk : k ∉ es.map Prod.fst) :
    ∃ before after, es = before ++ after ∧ place k a es = before ++ (k, a) :: after := by
  induction es with
  | nil => exact ⟨[], [], rfl, rfl⟩
  | cons e rest ih =>
    have hne := List.ne_of_not_mem_cons hk
    have hrest := List.not_mem_of_not_mem_cons hk
    unfold place
    by_cases hlt : k < e.1
    · exact ⟨[], e :: rest, rfl, by rw [if_pos hlt]; rfl⟩
    · obtain ⟨before, after, he, hp⟩ := ih hrest
      refine ⟨e :: before, after, congrArg _ he, ?_⟩
      rw [if_neg hlt, if_neg hne, hp]
      rfl

/-- A new entry goes between those that were there. -/
theorem entries_insert (m : SortedMap κ α) {k : κ} (hk : k ∉ m) (a : α) :
    ∃ before after, m.entries = before ++ after ∧
      (m.insert k a).entries = before ++ (k, a) :: after :=
  place_eq_append k a m.entries hk

/-- A map is what is left without one of its entries, and that entry. -/
theorem exists_eq_insert {m : SortedMap κ α} {k : κ} {a : α} (h : m.get? k = some a) :
    ∃ n : SortedMap κ α, m = n.insert k a ∧ ∀ j, j ∈ n ↔ j ∈ m ∧ j ≠ k := by
  refine ⟨m.filterKeys fun j => decide (j ≠ k), ?_, ?_⟩
  · apply ext_get?
    intro j
    by_cases hj : j = k
    · rw [hj, h, get?_insert, if_pos rfl]
    · simp [get?_insert, get?_filterKeys, hj]
  · intro j
    rw [mem_filterKeys, decide_eq_true_iff]

omit [DecidableLT κ] in
/-- The entries before that of a key are those of smaller keys. -/
theorem exists_split {m : SortedMap κ α} {k : κ} {a : α} (h : m.get? k = some a) :
    ∃ before after, m.entries = before ++ (k, a) :: after ∧
      ∀ j b, (j, b) ∈ before ↔ m.get? j = some b ∧ j < k := by
  obtain ⟨before, after, hsplit⟩ := List.append_of_mem ((m.get?_eq_some k a).mp h)
  have hord := m.ordered
  rw [hsplit, List.map_append, List.map_cons, List.pairwise_append] at hord
  refine ⟨before, after, hsplit, ?_⟩
  intro j b
  rw [m.get?_eq_some, hsplit]
  constructor
  · intro hj
    refine ⟨List.mem_append_left _ hj, ?_⟩
    exact hord.2.2 j (List.mem_map.mpr ⟨(j, b), hj, rfl⟩) k List.mem_cons_self
  · intro hj
    obtain ⟨hin, hlt⟩ := hj
    rcases List.mem_append.mp hin with hb | ha
    · exact hb
    · rcases List.mem_cons.mp ha with he | ha
      · rw [(Prod.mk.inj he).1] at hlt
        exact absurd hlt (StrictOrder.irrefl k)
      · have hgt := (List.pairwise_cons.mp hord.2.1).1 j (List.mem_map.mpr ⟨(j, b), ha, rfl⟩)
        exact absurd (StrictOrder.trans hlt hgt) (StrictOrder.irrefl j)

omit [DecidableLT κ] in
/-- Where two maps have the same keys, their entries go together one by one. -/
theorem forall₂_entries {β : Type} {m : SortedMap κ α} {n : SortedMap κ β} {R : α → β → Prop}
    (hkeys : m.keys = n.keys)
    (h : ∀ k a b, m.get? k = some a → n.get? k = some b → R a b) :
    List.Forall₂ (fun x y => x.1 = y.1 ∧ R x.2 y.2) m.entries n.entries := by
  have hfst : List.Forall₂ (fun x y => x.1 = y.1) m.entries n.entries := by
    have heq : List.Forall₂ (· = ·) m.keys n.keys := by rw [List.forall₂_eq_eq_eq, hkeys]
    rw [keys, keys, List.forall₂_map_left_iff] at heq
    exact List.forall₂_map_right_iff.mp heq
  obtain ⟨hlen, hzip⟩ := List.forall₂_iff_zip.mp hfst
  refine List.forall₂_iff_zip.mpr ⟨hlen, ?_⟩
  intro x y hxy
  have hkey : x.1 = y.1 := hzip hxy
  obtain ⟨hx, hy⟩ := List.of_mem_zip hxy
  have hm := (m.get?_eq_some x.1 x.2).mpr hx
  have hn := (n.get?_eq_some y.1 y.2).mpr hy
  exact ⟨hkey, h x.1 x.2 y.2 hm (hkey ▸ hn)⟩

end Lookup

end SortedMap

namespace FluentSet

theorem ext_mem {s t : FluentSet} (h : ∀ f, f ∈ s ↔ f ∈ t) : s = t := by
  apply SortedMap.ext_get?
  intro f
  apply Option.ext
  intro _
  rw [Option.eq_some_iff_get_eq, Option.eq_some_iff_get_eq]
  simp [SortedMap.get?_isSome, h f]

theorem mem_ofList (fs : List Fluent) (f : Fluent) : f ∈ ofList fs ↔ f ∈ fs := by
  have h (s : FluentSet) (fs : List Fluent) :
      f ∈ fs.foldl (fun s f => s.insert f ()) s ↔ f ∈ fs ∨ f ∈ s := by
    induction fs generalizing s with
    | nil => simp
    | cons g fs ih =>
      rw [List.foldl_cons, ih, SortedMap.mem_insert, List.mem_cons]
      tauto
  rw [ofList, SortedMap.ofList, List.foldl_map, h]
  simp [SortedMap.not_mem_empty]

theorem mem_diff (s t : FluentSet) (f : Fluent) : f ∈ s.diff t ↔ f ∈ s ∧ f ∉ t := by
  rw [diff, SortedMap.mem_filterKeys, decide_eq_true_iff]

/-- Of the fluents of one set that are not in another there is a first. -/
theorem exists_first_not_mem {s t : FluentSet} (h : ∃ f ∈ s, f ∉ t) :
    ∃ f ∈ s, f ∉ t ∧ ∀ g ∈ s, g < f → g ∈ t := by
  obtain ⟨f, hf, hout⟩ := h
  have hmem : f ∈ (s.diff t).keys := (mem_diff s t f).mpr ⟨hf, hout⟩
  have hord := (s.diff t).ordered
  rw [← SortedMap.keys] at hord
  cases hk : (s.diff t).keys with
  | nil => simp [hk] at hmem
  | cons f₀ fs =>
    have hfirst : f₀ ∈ s.diff t := by simp [SortedMap.mem_iff, hk]
    obtain ⟨hs, ht⟩ := (mem_diff s t f₀).mp hfirst
    refine ⟨f₀, hs, ht, ?_⟩
    intro g hg hlt
    by_contra hgt
    have hgm : g ∈ (s.diff t).keys := (mem_diff s t g).mpr ⟨hg, hgt⟩
    rw [hk] at hgm hord
    rcases List.mem_cons.mp hgm with rfl | hgm
    · exact StrictOrder.irrefl g hlt
    · have hgt := (List.pairwise_cons.mp hord).1 g hgm
      exact StrictOrder.irrefl g (StrictOrder.trans hlt hgt)

end FluentSet

end Chronicle
