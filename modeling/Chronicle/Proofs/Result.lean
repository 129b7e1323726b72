import Mathlib.Data.List.Perm.Basic

namespace Chronicle.Result

variable {ε ε' α β : Type}

theorem bind_eq_ok (x : Except ε α) (f : α → Except ε β) (b : β) :
    (x >>= f) = .ok b ↔ ∃ a, x = .ok a ∧ f a = .ok b := by
  cases x <;> simp [bind, Except.bind]

theorem bind_eq_error (x : Except ε α) (f : α → Except ε β) (e : ε) :
    (x >>= f) = .error e ↔ x = .error e ∨ ∃ a, x = .ok a ∧ f a = .error e := by
  cases x <;> simp [bind, Except.bind]

theorem mapError_eq_ok (g : ε → ε') (x : Except ε α) (a : α) :
    x.mapError g = .ok a ↔ x = .ok a := by
  cases x <;> simp [Except.mapError]

theorem mapError_eq_error (g : ε → ε') (x : Except ε α) (e' : ε') :
    x.mapError g = .error e' ↔ ∃ e, x = .error e ∧ g e = e' := by
  cases x <;> simp [Except.mapError]

theorem map_eq_ok (f : α → β) (x : Except ε α) (b : β) :
    x.map f = .ok b ↔ ∃ a, x = .ok a ∧ f a = b := by
  cases x <;> simp [Except.map]

theorem map_eq_error (f : α → β) (x : Except ε α) (e : ε) :
    x.map f = .error e ↔ x = .error e := by
  cases x <;> simp [Except.map]

theorem eq_ok_of_toOption {x : Except ε α} {a : α} (h : x.toOption = some a) : x = .ok a := by
  cases x with
  | error e => cases h
  | ok b => exact congrArg Except.ok (Option.some.inj h)

theorem ok_of_toOption_map {f : α → β} {x : Except ε α} {b : β}
    (h : (x.map f).toOption = some b) : ∃ a, x = .ok a ∧ f a = b :=
  (map_eq_ok f x b).mp (eq_ok_of_toOption h)

theorem map_injective {f : α → β} (hf : Function.Injective f) :
    Function.Injective (Except.map f : Except ε α → Except ε β) := by
  intro x y h
  cases x <;> cases y <;> simp_all [Except.map, hf.eq_iff]

theorem mapM_eq_ok (f : α → Except ε β) (xs : List α) (ys : List β) :
    xs.mapM f = .ok ys ↔ List.Forall₂ (fun x y => f x = .ok y) xs ys := by
  induction xs generalizing ys with
  | nil => simp [pure, Except.pure, eq_comm]
  | cons x xs ih =>
    rw [List.mapM_cons, bind_eq_ok, List.forall₂_cons_left_iff]
    constructor
    · intro h
      obtain ⟨y, hy, h⟩ := h
      obtain ⟨zs, hz, hp⟩ := (bind_eq_ok _ _ _).mp h
      exact ⟨y, zs, hy, (ih zs).mp hz, (Except.ok.inj hp).symm⟩
    · intro h
      obtain ⟨y, zs, hy, hz, rfl⟩ := h
      exact ⟨y, hy, (bind_eq_ok _ _ _).mpr ⟨zs, (ih zs).mpr hz, rfl⟩⟩

theorem mem_mapM {f : α → Except ε β} {xs : List α} {ys : List β} (h : xs.mapM f = .ok ys)
    (y : β) : y ∈ ys ↔ ∃ x ∈ xs, f x = .ok y := by
  rw [mapM_eq_ok] at h
  induction h with
  | nil => simp
  | cons hx _ ih => simp [ih, hx, eq_comm]

theorem mapM_isOk {f : α → Except ε β} {xs : List α} {ys : List β} (h : xs.mapM f = .ok ys) :
    ∀ x ∈ xs, ∃ y, f x = .ok y := by
  rw [mapM_eq_ok] at h
  induction h with
  | nil => simp
  | cons hx _ ih => exact List.forall_mem_cons.mpr ⟨⟨_, hx⟩, ih⟩

theorem exists_mapM {f : α → Except ε β} {xs : List α} (h : ∀ x ∈ xs, ∃ y, f x = .ok y) :
    ∃ ys, xs.mapM f = .ok ys := by
  induction xs with
  | nil => exact ⟨[], rfl⟩
  | cons x xs ih =>
    obtain ⟨⟨y, hy⟩, hrest⟩ := List.forall_mem_cons.mp h
    obtain ⟨ys, hys⟩ := ih hrest
    exact ⟨y :: ys, (mapM_eq_ok _ _ _).mpr (.cons hy ((mapM_eq_ok _ _ _).mp hys))⟩

theorem exists_of_mapM_eq_error {f : α → Except ε β} {xs : List α} {e : ε}
    (h : xs.mapM f = .error e) : ∃ x ∈ xs, f x = .error e := by
  induction xs with
  | nil => cases h
  | cons x xs ih =>
    rw [List.mapM_cons] at h
    rcases (bind_eq_error _ _ _).mp h with hx | ⟨_, _, h⟩
    · exact ⟨x, List.mem_cons_self, hx⟩
    · rcases (bind_eq_error _ _ _).mp h with hxs | ⟨_, _, hpure⟩
      · obtain ⟨x', hx', hfail⟩ := ih hxs
        exact ⟨x', List.mem_cons_of_mem x hx', hfail⟩
      · cases hpure

theorem mapM_eq_map {f : α → Except ε β} {g : α → β} {xs : List α}
    (h : ∀ x ∈ xs, f x = .ok (g x)) : xs.mapM f = .ok (xs.map g) := by
  rw [mapM_eq_ok, List.forall₂_map_right_iff]
  exact List.forall₂_same.mpr h

theorem mapM_isOk_iff (f : α → Except ε β) (xs : List α) :
    (∃ ys, xs.mapM f = .ok ys) ↔ ∀ x ∈ xs, ∃ y, f x = .ok y :=
  ⟨fun ⟨_, h⟩ => mapM_isOk h, exists_mapM⟩

theorem mapM_perm {f : α → Except ε β} {xs xs' : List α} {ys : List β}
    (hp : xs.Perm xs') (h : xs.mapM f = .ok ys) : ∃ ys', xs'.mapM f = .ok ys' ∧ ys.Perm ys' := by
  obtain ⟨ys', hys, hperm⟩ := List.perm_comp_forall₂ hp.symm ((mapM_eq_ok f xs ys).mp h)
  exact ⟨ys', (mapM_eq_ok f xs' ys').mpr hys, hperm.symm⟩

/-- A filter whose test never fails is one without effects. -/
theorem filterM_eq_ok {f : α → Except ε Bool} {p : α → Bool} {xs : List α}
    (h : ∀ x ∈ xs, f x = .ok (p x)) : xs.filterM f = .ok (xs.filter p) := by
  have haux (acc : List α) : xs.filterAuxM f acc = .ok ((xs.filter p).reverse ++ acc) := by
    induction xs generalizing acc with
    | nil => rfl
    | cons x xs ih =>
      obtain ⟨hx, hxs⟩ := List.forall_mem_cons.mp h
      rw [List.filterAuxM, hx]
      change xs.filterAuxM f (cond (p x) (x :: acc) acc) = _
      rw [ih hxs]
      cases hp : p x <;> simp [hp]
  rw [List.filterM, haux]
  simp [bind, Except.bind, pure, Except.pure]

section Fold

variable {f : β → α → Except ε β} {b b' : β} {xs ys : List α} {x : α} {e : ε}

/-- A fold that succeeds has come past each of its elements. -/
theorem foldlM_append_eq_ok (h : (xs ++ x :: ys).foldlM f b = .ok b') :
    ∃ c c', xs.foldlM f b = .ok c ∧ f c x = .ok c' ∧ ys.foldlM f c' = .ok b' := by
  rw [List.foldlM_append] at h
  obtain ⟨c, hc, h⟩ := (bind_eq_ok _ _ _).mp h
  rw [List.foldlM_cons] at h
  obtain ⟨c', hc', h⟩ := (bind_eq_ok _ _ _).mp h
  exact ⟨c, c', hc, hc', h⟩

theorem exists_of_foldlM_eq_ok (h : xs.foldlM f b = .ok b') (hx : x ∈ xs) :
    ∃ c c', f c x = .ok c' := by
  obtain ⟨before, after, rfl⟩ := List.append_of_mem hx
  obtain ⟨c, c', _, hstep, _⟩ := foldlM_append_eq_ok h
  exact ⟨c, c', hstep⟩

theorem foldlM_congr {R : α → α → Prop} {g : β → α → Except ε β}
    (h : ∀ b x y, R x y → f b x = g b y) (hxy : List.Forall₂ R xs ys) (b : β) :
    xs.foldlM f b = ys.foldlM g b := by
  induction hxy generalizing b with
  | nil => rfl
  | cons hx _ ih =>
    rw [List.foldlM_cons, List.foldlM_cons, h b _ _ hx]
    exact congrArg _ (funext ih)

end Fold

section Avoids

variable {P : ε → Prop}

/-- A computation does not fail in a certain way. -/
def Avoids (P : ε → Prop) (x : Except ε α) : Prop := ∀ e, P e → x ≠ .error e

theorem Avoids.ok (a : α) : Avoids P (.ok a) := fun _ _ h => by cases h

theorem Avoids.error {e : ε} (h : ¬ P e) : Avoids P (.error e : Except ε α) := by
  intro e' he heq
  cases heq
  exact h he

theorem Avoids.mono {Q : ε → Prop} {x : Except ε α} (h : Avoids P x) (hQP : ∀ e, Q e → P e) :
    Avoids Q x :=
  fun e he => h e (hQP e he)

theorem Avoids.bind {x : Except ε α} {f : α → Except ε β} (h : Avoids P x)
    (hf : ∀ a, Avoids P (f a)) : Avoids P (x >>= f) := by
  cases x with
  | error e => exact .error fun he => h e he rfl
  | ok a => exact hf a

theorem Avoids.mapError {Q : ε' → Prop} (g : ε → ε') {x : Except ε α}
    (h : Avoids (fun e => Q (g e)) x) : Avoids Q (x.mapError g) := by
  cases x with
  | error e => exact .error fun he => h e he rfl
  | ok a => exact .ok a

theorem Avoids.map {x : Except ε α} (h : Avoids P x) (f : α → β) : Avoids P (x.map f) := by
  cases x with
  | error e => exact .error fun he => h e he rfl
  | ok a => exact .ok (f a)

theorem Avoids.mapM {f : α → Except ε β} (hf : ∀ a, Avoids P (f a)) (xs : List α) :
    Avoids P (xs.mapM f) := by
  induction xs with
  | nil => exact .ok []
  | cons x xs ih =>
    rw [List.mapM_cons]
    exact (hf x).bind fun y => ih.bind fun ys => .ok (y :: ys)

end Avoids

section Unless

variable {P : ε → Prop}

/-- Two computations come to the same, unless the first fails in a certain way. -/
def Unless (P : ε → Prop) (x y : Except ε α) : Prop := (∃ e, x = .error e ∧ P e) ∨ x = y

theorem Unless.refl (x : Except ε α) : Unless P x x := .inr rfl

theorem Unless.mono {Q : ε → Prop} {x y : Except ε α} (h : Unless P x y)
    (hPQ : ∀ e, P e → Q e) : Unless Q x y :=
  h.imp_left fun ⟨e, hx, he⟩ => ⟨e, hx, hPQ e he⟩

theorem Unless.bind {x y : Except ε α} {f g : α → Except ε β} (h : Unless P x y)
    (hfg : ∀ a, Unless P (f a) (g a)) : Unless P (x >>= f) (y >>= g) := by
  rcases h with ⟨e, rfl, he⟩ | rfl
  · exact .inl ⟨e, rfl, he⟩
  · cases x with
    | error e => exact .refl _
    | ok a => exact hfg a

theorem Unless.map {x y : Except ε α} (h : Unless P x y) (f : α → β) :
    Unless P (x.map f) (y.map f) := by
  rcases h with ⟨e, rfl, he⟩ | rfl
  · exact .inl ⟨e, rfl, he⟩
  · exact .refl _

theorem Unless.foldlM {f g : β → α → Except ε β} (h : ∀ b a, Unless P (f b a) (g b a))
    (xs : List α) (b : β) : Unless P (xs.foldlM f b) (xs.foldlM g b) := by
  induction xs generalizing b with
  | nil => exact .refl _
  | cons x xs ih =>
    rw [List.foldlM_cons, List.foldlM_cons]
    exact (h b x).bind fun b' => ih b'

/-- What is within a bound is within a greater one. -/
theorem Unless.check {n l l' : Nat} (hl : l ≤ l') {e : ε} (he : P e) (z : Except ε α)
    {x y : Except ε α} (h : Unless P x y) :
    Unless P (if n > l then .error e else x) (if n > l' then z else y) := by
  by_cases hn : n > l
  · rw [if_pos hn]
    exact .inl ⟨e, rfl, he⟩
  · have hn' : ¬ n > l' := fun h' => hn (Nat.lt_of_le_of_lt hl h')
    rw [if_neg hn, if_neg hn']
    exact h

end Unless

section SameOutcome

variable {x y z : Except ε α}

/-- Two computations succeed with the same value, or both fail. -/
def SameOutcome (x y : Except ε α) : Prop :=
  (∃ a, x = .ok a ∧ y = .ok a) ∨ ∃ e e', x = .error e ∧ y = .error e'

theorem sameOutcome_iff : SameOutcome x y ↔ ∀ a, x = .ok a ↔ y = .ok a := by
  constructor
  · rintro (⟨a, rfl, rfl⟩ | ⟨e, e', rfl, rfl⟩) b
    · exact Iff.rfl
    · simp
  · intro h
    cases x with
    | ok a => exact .inl ⟨a, rfl, (h a).mp rfl⟩
    | error e =>
      cases y with
      | ok b => exact absurd ((h b).mpr rfl) (by simp)
      | error e' => exact .inr ⟨e, e', rfl, rfl⟩

theorem SameOutcome.refl (x : Except ε α) : SameOutcome x x :=
  sameOutcome_iff.mpr fun _ => Iff.rfl

theorem SameOutcome.symm (h : SameOutcome x y) : SameOutcome y x :=
  sameOutcome_iff.mpr fun a => (sameOutcome_iff.mp h a).symm

theorem SameOutcome.trans (h : SameOutcome x y) (h' : SameOutcome y z) : SameOutcome x z :=
  sameOutcome_iff.mpr fun a => (sameOutcome_iff.mp h a).trans (sameOutcome_iff.mp h' a)

theorem SameOutcome.bind {f g : α → Except ε β} (h : SameOutcome x y)
    (hfg : ∀ a, SameOutcome (f a) (g a)) : SameOutcome (x >>= f) (y >>= g) := by
  rcases h with ⟨a, rfl, rfl⟩ | ⟨e, e', rfl, rfl⟩
  · exact hfg a
  · exact .inr ⟨e, e', rfl, rfl⟩

theorem SameOutcome.map (h : SameOutcome x y) (f : α → β) :
    SameOutcome (x.map f) (y.map f) := by
  rcases h with ⟨a, rfl, rfl⟩ | ⟨e, e', rfl, rfl⟩
  · exact .refl _
  · exact .inr ⟨e, e', rfl, rfl⟩

end SameOutcome

end Chronicle.Result
