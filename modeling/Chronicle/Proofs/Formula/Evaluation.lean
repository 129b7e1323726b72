import Chronicle.Valuation
import Chronicle.Proofs.Result
import Chronicle.Proofs.SortedMap

namespace Chronicle

namespace Formula

@[simp] theorem not_mem_atoms_top (f : Fluent) : f ∉ top.atoms := SortedMap.not_mem_empty f

@[simp] theorem mem_atoms_atom (f g : Fluent) : f ∈ (atom g).atoms ↔ f = g := by
  simp [atoms, SortedMap.not_mem_empty]

@[simp] theorem mem_atoms_neg (f : Fluent) (F : Formula) :
    f ∈ (neg F).atoms ↔ f ∈ F.atoms := Iff.rfl

@[simp] theorem mem_atoms_binary (f : Fluent) (op : Operator) (F G : Formula) :
    f ∈ (binary op F G).atoms ↔ f ∈ F.atoms ∨ f ∈ G.atoms := by
  simp [atoms]

/-- The value of a formula depends on the values of its atoms alone. -/
theorem eval_congr (F : Formula) (v w : Fluent → Option Bool) (h : ∀ f ∈ F.atoms, v f = w f) :
    F.eval v = F.eval w := by
  induction F with
  | top => rfl
  | atom f => simp only [eval, h f ((mem_atoms_atom f f).mpr rfl)]
  | neg F ih => simp only [eval, ih h]
  | binary op F G ihF ihG =>
    have hF : ∀ f ∈ F.atoms, v f = w f :=
      fun f hf => h f ((mem_atoms_binary f op F G).mpr (.inl hf))
    have hG : ∀ f ∈ G.atoms, v f = w f :=
      fun f hf => h f ((mem_atoms_binary f op F G).mpr (.inr hf))
    simp only [eval, ihF hF, ihG hG]

theorem eval_neg_eq_ok (F : Formula) (v : Fluent → Option Bool) (b : Bool) :
    (neg F).eval v = .ok b ↔ F.eval v = .ok (!b) := by
  rw [eval]
  cases hF : F.eval v with
  | error f => simp [bind, Except.bind]
  | ok c => cases b <;> cases c <;> simp [bind, Except.bind, pure, Except.pure]

theorem eval_binary_eq_ok (op : Operator) (F G : Formula) (v : Fluent → Option Bool) (b : Bool) :
    (binary op F G).eval v = .ok b ↔
      ∃ l r, F.eval v = .ok l ∧ G.eval v = .ok r ∧ op.apply l r = b := by
  rw [eval]
  cases hF : F.eval v with
  | error f => simp [bind, Except.bind]
  | ok l =>
    cases hG : G.eval v with
    | error f => simp [bind, Except.bind]
    | ok r => simp [bind, Except.bind, pure, Except.pure]

/-- A formula has a value exactly where each of its atoms has one. -/
theorem eval_isOk (F : Formula) (v : Fluent → Option Bool) :
    (∃ b, F.eval v = .ok b) ↔ ∀ f ∈ F.atoms, (v f).isSome := by
  induction F with
  | top => simp [eval]
  | atom f =>
    simp only [mem_atoms_atom, forall_eq, eval]
    cases v f <;> simp
  | neg F ih =>
    simp only [mem_atoms_neg, ← ih, eval_neg_eq_ok]
    constructor
    · intro h
      obtain ⟨b, h⟩ := h
      exact ⟨!b, h⟩
    · intro h
      obtain ⟨b, h⟩ := h
      exact ⟨!b, by simpa using h⟩
  | binary op F G ihF ihG =>
    simp only [mem_atoms_binary, or_imp, forall_and, ← ihF, ← ihG, eval_binary_eq_ok]
    constructor
    · intro h
      obtain ⟨b, l, r, hl, hr, _⟩ := h
      exact ⟨⟨l, hl⟩, ⟨r, hr⟩⟩
    · intro h
      obtain ⟨⟨l, hl⟩, ⟨r, hr⟩⟩ := h
      exact ⟨_, l, r, hl, hr, rfl⟩

/-- Evaluation fails at an atom without a value. -/
theorem eval_eq_error {F : Formula} {v : Fluent → Option Bool} {f : Fluent}
    (h : F.eval v = .error f) : f ∈ F.atoms ∧ v f = none := by
  induction F with
  | top => simp [eval] at h
  | atom g =>
    rw [eval] at h
    cases hg : v g with
    | some b => simp [hg] at h
    | none =>
      simp only [hg, Except.error.injEq] at h
      subst h
      exact ⟨(mem_atoms_atom g g).mpr rfl, hg⟩
  | neg F ih =>
    rcases (Result.bind_eq_error _ _ _).mp h with hF | ⟨_, _, hpure⟩
    · exact ih hF
    · cases hpure
  | binary op F G ihF ihG =>
    rcases (Result.bind_eq_error _ _ _).mp h with hF | ⟨_, _, h⟩
    · exact (ihF hF).imp_left fun hf => (mem_atoms_binary f op F G).mpr (.inl hf)
    · rcases (Result.bind_eq_error _ _ _).mp h with hG | ⟨_, _, hpure⟩
      · exact (ihG hG).imp_left fun hf => (mem_atoms_binary f op F G).mpr (.inr hf)
      · cases hpure

theorem isTop_iff (F : Formula) : F.isTop = true ↔ F = top := by
  cases F <;> simp [isTop]

theorem eval_conjoin (F G : Formula) (v : Fluent → Option Bool) :
    (F.conjoin G).eval v = .ok true ↔ F.eval v = .ok true ∧ G.eval v = .ok true := by
  have htop : top.eval v = .ok true := rfl
  unfold conjoin
  split
  case isTrue h => rw [(isTop_iff F).mp h]; simp [htop]
  case isFalse =>
    split
    case isTrue h => rw [(isTop_iff G).mp h]; simp [htop]
    case isFalse =>
      rw [eval_binary_eq_ok]
      constructor
      · intro h
        obtain ⟨l, r, hl, hr, hb⟩ := h
        have hlr : l = true ∧ r = true := by simpa [Operator.apply] using hb
        exact ⟨hlr.1 ▸ hl, hlr.2 ▸ hr⟩
      · intro h
        obtain ⟨hl, hr⟩ := h
        exact ⟨true, true, hl, hr, rfl⟩

theorem mem_atoms_conjoin (F G : Formula) (f : Fluent) :
    f ∈ (F.conjoin G).atoms ↔ f ∈ F.atoms ∨ f ∈ G.atoms := by
  unfold conjoin
  split
  case isTrue h => rw [(isTop_iff F).mp h]; simp
  case isFalse =>
    split
    case isTrue h => rw [(isTop_iff G).mp h]; simp
    case isFalse => exact mem_atoms_binary f .and F G

/-- A conjunction is true where each of its members is. -/
theorem eval_conjunction (Fs : List Formula) (v : Fluent → Option Bool) :
    (conjunction Fs).eval v = .ok true ↔ ∀ F ∈ Fs, F.eval v = .ok true := by
  have h (Fs : List Formula) (G : Formula) : (Fs.foldl conjoin G).eval v = .ok true ↔
      G.eval v = .ok true ∧ ∀ F ∈ Fs, F.eval v = .ok true := by
    induction Fs generalizing G with
    | nil => simp
    | cons F rest ih => simp [ih, eval_conjoin, and_assoc]
  have htop : top.eval v = .ok true := rfl
  simp [conjunction, h, htop]

theorem mem_atoms_conjunction (Fs : List Formula) (f : Fluent) :
    f ∈ (conjunction Fs).atoms ↔ ∃ F ∈ Fs, f ∈ F.atoms := by
  have h (Fs : List Formula) (G : Formula) :
      f ∈ (Fs.foldl conjoin G).atoms ↔ f ∈ G.atoms ∨ ∃ F ∈ Fs, f ∈ F.atoms := by
    induction Fs generalizing G with
    | nil => simp
    | cons F rest ih => simp [ih, mem_atoms_conjoin, or_assoc]
  simp [conjunction, h]

end Formula

namespace Valuation

theorem eval_eq_ok (v : Valuation) (F : Formula) (b : Bool) :
    v.eval F = .ok b ↔ F.eval v.get? = .ok b := by
  rw [eval]
  cases F.eval v.get? <;> simp [Except.mapError]

theorem eval_isOk (v : Valuation) (F : Formula) :
    (∃ b, v.eval F = .ok b) ↔ ∀ f ∈ F.atoms, f ∈ v := by
  simp only [eval_eq_ok, F.eval_isOk, SortedMap.get?_isSome]

theorem eval_eq_error {v : Valuation} {F : Formula} {err : LogicError}
    (h : v.eval F = .error err) : ∃ f ∈ F.atoms, f ∉ v ∧ err = .lookup f := by
  obtain ⟨f, hf, rfl⟩ := (Result.mapError_eq_error _ _ _).mp h
  obtain ⟨hatom, hnone⟩ := Formula.eval_eq_error hf
  exact ⟨f, hatom, SortedMap.get?_eq_none.mp hnone, rfl⟩

theorem eval_congr (v w : Valuation) (F : Formula) (h : ∀ f ∈ F.atoms, v.get? f = w.get? f) :
    v.eval F = w.eval F := by
  rw [eval, eval, F.eval_congr v.get? w.get? h]

end Valuation

end Chronicle
