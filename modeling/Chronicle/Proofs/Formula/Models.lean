import Chronicle.Formula.Models
import Chronicle.Proofs.Formula.Evaluation
import Mathlib.Data.Nat.Bitwise

/-!
Enumeration counts in words of 64 bits. The bits of a word are the values of the fluents in order of
their names, and up to 63 fluents each way to value them is met at one word.
-/

namespace Chronicle

theorem le_enumerationLimit {n atomLimit : Nat} (h : n ≤ effectiveLimit atomLimit) :
    n ≤ enumerationLimit := h.trans (Nat.min_le_right _ _)

namespace Word

variable {i : Nat}

theorem toNat_single (h : i < 64) : (single i).toNat = Nat.pow 2 i := by
  have hlarge : 2 ^ i < 2 ^ 64 := Nat.pow_lt_pow_right (by decide) h
  have hword : i % 2 ^ 64 % 64 = i := by omega
  rw [single, UInt64.toNat_shiftLeft, UInt64.toNat_one, Nat.toUInt64, UInt64.toNat_ofNat', hword,
    Nat.one_shiftLeft, Nat.mod_eq_of_lt hlarge]
  rfl

theorem test_eq_testBit (h : i < 64) (w : Word) : w.test i = w.toNat.testBit i := by
  have hzero : w &&& single i = 0 ↔ w.toNat.testBit i = false := by
    have hpow : (single i).toNat = 2 ^ i := toNat_single h
    rw [← UInt64.toNat_inj, UInt64.toNat_and, hpow, Nat.and_two_pow]
    cases w.toNat.testBit i <;> simp
  rw [test]
  cases hbit : w.toNat.testBit i with
  | false => simpa using hzero.mpr hbit
  | true => simpa [hbit] using hzero

theorem toNat_toUInt64 {n : Nat} (hi : i < 64) (hn : n < Nat.pow 2 i) : n.toUInt64.toNat = n := by
  have hlarge : n < 2 ^ 64 := hn.trans (Nat.pow_lt_pow_right (by decide) hi)
  rw [Nat.toUInt64, UInt64.toNat_ofNat', Nat.mod_eq_of_lt hlarge]

end Word

namespace Valuation

theorem keys_ofBits (s : FluentSet) (w : Word) : (ofBits s w).keys = s.keys :=
  keys_pairBits s.keys w

theorem getElem?_entries_ofBits (s : FluentSet) (w : Word) (i : Nat) :
    (ofBits s w).entries[i]? = s.keys[i]?.map fun f => (f, w.test i) := by
  rw [ofBits]
  simp [pairBits, Function.comp_def]

/-- The number of which the bits, from the lowest, are the values of the fluents in order. -/
def number (v : Valuation) : Nat := v.entries.foldr (fun e n => Nat.bit e.2 n) 0

theorem testBit_number (v : Valuation) (i : Nat) :
    v.number.testBit i = (v.entries[i]?.map Prod.snd).getD false := by
  rw [number]
  induction v.entries generalizing i with
  | nil => simp
  | cons e rest ih =>
    rw [List.foldr_cons]
    cases i with
    | zero => simp
    | succ i => rw [Nat.testBit_bit_succ, ih, List.getElem?_cons_succ]

theorem number_lt {v : Valuation} {s : FluentSet} (hv : v.keys = s.keys) :
    v.number < Nat.pow 2 s.size := by
  have hpow (n : Nat) : Nat.pow 2 (n + 1) = 2 * Nat.pow 2 n := Nat.pow_succ'
  rw [← SortedMap.length_keys, ← hv, SortedMap.length_keys, number, SortedMap.size]
  induction v.entries with
  | nil => decide
  | cons e rest ih =>
    have hbit : e.2.toNat ≤ 1 := e.2.toNat_le
    rw [List.foldr_cons, Nat.bit_val, List.length_cons, hpow]
    omega

theorem get?_eq_testBit {v : Valuation} {i : Nat} {f : Fluent} (h : v.keys[i]? = some f) :
    v.get? f = some (v.number.testBit i) := by
  rw [SortedMap.keys, List.getElem?_map] at h
  obtain ⟨e, he, rfl⟩ := Option.map_eq_some_iff.mp h
  rw [testBit_number, he]
  exact (v.get?_eq_some e.1 e.2).mpr (List.mem_of_getElem? he)

section Enumerated

variable {s : FluentSet} (hs : s.size ≤ enumerationLimit)
include hs

theorem size_lt_width : s.size < 64 := Nat.lt_succ_of_le hs

theorem number_ofBits {n : Nat} (hn : n < Nat.pow 2 s.size) :
    (ofBits s n.toUInt64).number = n := by
  have hlen : s.keys.length = s.size := SortedMap.length_keys s
  apply Nat.eq_of_testBit_eq
  intro i
  rw [testBit_number, getElem?_entries_ofBits]
  by_cases hi : i < s.size
  · have hkey : s.keys[i]? = some s.keys[i] := List.getElem?_eq_getElem (hlen ▸ hi)
    have htest := Word.test_eq_testBit (hi.trans (size_lt_width hs)) n.toUInt64
    rw [Word.toNat_toUInt64 (size_lt_width hs) hn] at htest
    simp [hkey, htest]
  · -- Above the fluents there are no entries, and no bits of so small a number.
    have hlow : n < 2 ^ i := hn.trans_le (Nat.pow_le_pow_right (by decide) (Nat.le_of_not_lt hi))
    rw [List.getElem?_eq_none (by omega), Nat.testBit_lt_two_pow hlow]
    rfl

theorem ofBits_number {v : Valuation} (hv : v.keys = s.keys) :
    ofBits s v.number.toUInt64 = v := by
  apply SortedMap.ext_entries
  apply List.ext_getElem?
  intro i
  rw [getElem?_entries_ofBits, ← hv, SortedMap.keys, List.getElem?_map]
  cases he : v.entries[i]? with
  | none => rfl
  | some e =>
    have hi : i < s.size := by
      rw [← SortedMap.length_keys, ← hv, SortedMap.length_keys]
      exact (List.getElem?_eq_some_iff.mp he).1
    have htest := Word.test_eq_testBit (hi.trans (size_lt_width hs)) v.number.toUInt64
    rw [Word.toNat_toUInt64 (size_lt_width hs) (number_lt hv), testBit_number, he]
      at htest
    simp [htest]

theorem all_eq : all s = (List.range (Nat.pow 2 s.size)).map fun n => ofBits s n.toUInt64 := by
  rw [all, Word.toNat_single (size_lt_width hs)]

theorem mem_all (v : Valuation) : v ∈ all s ↔ v.keys = s.keys := by
  rw [all_eq hs, List.mem_map]
  constructor
  · intro h
    obtain ⟨n, _, rfl⟩ := h
    exact keys_ofBits s n.toUInt64
  · intro h
    exact ⟨v.number, List.mem_range.mpr (number_lt h), ofBits_number hs h⟩

theorem all_ascending : (all s).Pairwise fun v w => v.number < w.number := by
  rw [all_eq hs, List.pairwise_map]
  apply List.pairwise_lt_range.imp_of_mem
  intro m n hm hn hlt
  rw [number_ofBits hs (List.mem_range.mp hm), number_ofBits hs (List.mem_range.mp hn)]
  exact hlt

theorem all_nodup : (all s).Nodup := by
  apply (all_ascending hs).imp
  intro v w hlt he
  exact absurd (he ▸ hlt) (Nat.lt_irrefl _)

theorem length_all : (all s).length = Nat.pow 2 s.size := by
  rw [all_eq hs, List.length_map, List.length_range]

end Enumerated

end Valuation

namespace Formula

/-- Whether the formula has a value and is true. -/
def isTrueOn (F : Formula) (v : Valuation) : Bool :=
  match F.eval v.get? with
  | .ok b => b
  | .error _ => false

theorem isTrueOn_iff (F : Formula) (v : Valuation) : F.isTrueOn v = true ↔ v.eval F = .ok true := by
  rw [Valuation.eval_eq_ok, isTrueOn]
  cases F.eval v.get? <;> simp

theorem isTrueOn_of_eval {F : Formula} {v : Valuation} {b : Bool} (h : v.eval F = .ok b) :
    F.isTrueOn v = b := by
  rw [isTrueOn, (v.eval_eq_ok F b).mp h]

theorem eval_eq_isTrueOn {F : Formula} {v : Valuation} (hv : ∀ f ∈ F.atoms, f ∈ v) :
    v.eval F = .ok (F.isTrueOn v) := by
  obtain ⟨b, hb⟩ := (v.eval_isOk F).mpr hv
  rw [hb, isTrueOn_of_eval hb]

theorem eval_of_mem_all {F : Formula} (hs : F.atoms.size ≤ enumerationLimit) {v : Valuation}
    (hv : v ∈ Valuation.all F.atoms) : v.eval F = .ok (F.isTrueOn v) := by
  have hkeys := (SortedMap.keys_eq_iff v F.atoms).mp ((Valuation.mem_all hs v).mp hv)
  exact eval_eq_isTrueOn fun f hf => (hkeys f).mpr hf

/-- Worlds are enumerated unless the atoms are too many. -/
theorem models_eq_ok (F : Formula) (atomLimit : Nat) (ws : List Valuation) :
    F.models atomLimit = .ok ws ↔
      F.atoms.size ≤ effectiveLimit atomLimit ∧ ws = (Valuation.all F.atoms).filter F.isTrueOn := by
  unfold models
  split
  case isTrue h => simp; omega
  case isFalse h =>
    have hsize : F.atoms.size ≤ effectiveLimit atomLimit := Nat.le_of_not_gt h
    rw [Result.filterM_eq_ok fun v => eval_of_mem_all (le_enumerationLimit hsize)]
    simp [hsize, Except.mapError, eq_comm]

/-- The worlds of a formula value its atoms and no more, and make it true. -/
theorem mem_models {F : Formula} {atomLimit : Nat} {ws : List Valuation}
    (h : F.models atomLimit = .ok ws) (w : Valuation) :
    w ∈ ws ↔ w.keys = F.atoms.keys ∧ w.eval F = .ok true := by
  obtain ⟨hsize, rfl⟩ := (F.models_eq_ok atomLimit ws).mp h
  rw [List.mem_filter, Valuation.mem_all (le_enumerationLimit hsize), isTrueOn_iff]

theorem models_ascending {F : Formula} {atomLimit : Nat} {ws : List Valuation}
    (h : F.models atomLimit = .ok ws) : ws.Pairwise fun v w => v.number < w.number := by
  obtain ⟨hsize, rfl⟩ := (F.models_eq_ok atomLimit ws).mp h
  exact (Valuation.all_ascending (le_enumerationLimit hsize)).filter F.isTrueOn

theorem models_nodup {F : Formula} {atomLimit : Nat} {ws : List Valuation}
    (h : F.models atomLimit = .ok ws) : ws.Nodup := by
  obtain ⟨hsize, rfl⟩ := (F.models_eq_ok atomLimit ws).mp h
  exact (Valuation.all_nodup (le_enumerationLimit hsize)).filter F.isTrueOn

theorem length_models_le {F : Formula} {atomLimit : Nat} {ws : List Valuation}
    (h : F.models atomLimit = .ok ws) : ws.length ≤ Nat.pow 2 F.atoms.size := by
  obtain ⟨hsize, rfl⟩ := (F.models_eq_ok atomLimit ws).mp h
  rw [← Valuation.length_all (le_enumerationLimit hsize)]
  exact List.length_filter_le _ _

theorem models_eq_error (F : Formula) (atomLimit : Nat) (err : Error) :
    F.models atomLimit = .error err ↔
      effectiveLimit atomLimit < F.atoms.size ∧
        err = .limit (.atoms F.atoms.size (effectiveLimit atomLimit)) := by
  by_cases hsize : F.atoms.size ≤ effectiveLimit atomLimit
  · have hok := (F.models_eq_ok atomLimit _).mpr ⟨hsize, rfl⟩
    simp [hok, Nat.not_lt.mpr hsize]
  · have hgt : F.atoms.size > effectiveLimit atomLimit := Nat.lt_of_not_le hsize
    simp [models, hgt, eq_comm]

/-- Enumeration fails exactly if a formula has more atoms than are allowed, and says how many.
Otherwise it gives the worlds of the formula, each once and in ascending order of the numbers that
they are in binary. No shift on the way goes beyond a word, and the formula has a value at every
word. -/
theorem models_spec (F : Formula) (atomLimit : Nat) :
    (∀ err, F.models atomLimit = .error err ↔
      min atomLimit 63 < F.atoms.size ∧
        err = .limit (.atoms F.atoms.size (min atomLimit 63))) ∧
    (F.atoms.size ≤ min atomLimit 63 →
      (∃ ws, F.models atomLimit = .ok ws ∧ ws.Nodup ∧
        (ws.Pairwise fun v w => v.number < w.number) ∧
        (∀ w, w ∈ ws ↔ (∀ f, f ∈ w ↔ f ∈ F.atoms) ∧ w.eval F = .ok true) ∧
        ∀ w ∈ ws, ∀ i f, F.atoms.keys[i]? = some f → w.get? f = some (w.number.testBit i)) ∧
      (∀ i ≤ F.atoms.size, i < 64 ∧ (Word.single i).toNat = Nat.pow 2 i) ∧
      ∀ n < Nat.pow 2 F.atoms.size, n.toUInt64.toNat = n ∧
        (∀ i < F.atoms.size, Word.test n.toUInt64 i = n.testBit i) ∧
        ∃ b, (Valuation.ofBits F.atoms n.toUInt64).eval F = .ok b) := by
  refine ⟨F.models_eq_error atomLimit, ?_⟩
  intro hsize
  have hlimit : F.atoms.size ≤ enumerationLimit := le_enumerationLimit hsize
  have hwidth : F.atoms.size < 64 := Valuation.size_lt_width hlimit
  obtain ⟨ws, hws⟩ : ∃ ws, F.models atomLimit = .ok ws :=
    ⟨_, (F.models_eq_ok atomLimit _).mpr ⟨hsize, rfl⟩⟩
  refine ⟨⟨ws, hws, models_nodup hws, models_ascending hws, ?_, ?_⟩, ?_, ?_⟩
  · intro w
    rw [mem_models hws]
    exact and_congr_left fun _ => SortedMap.keys_eq_iff w F.atoms
  · intro w hw i f hf
    exact Valuation.get?_eq_testBit (((mem_models hws w).mp hw).1 ▸ hf)
  · intro i hi
    have hi' : i < 64 := Nat.lt_of_le_of_lt hi hwidth
    exact ⟨hi', Word.toNat_single hi'⟩
  · intro n hn
    have hword : n.toUInt64.toNat = n := Word.toNat_toUInt64 hwidth hn
    refine ⟨hword, ?_, ?_⟩
    · intro i hi
      rw [Word.test_eq_testBit (hi.trans hwidth), hword]
    · have hmem : Valuation.ofBits F.atoms n.toUInt64 ∈ Valuation.all F.atoms :=
        (Valuation.mem_all hlimit _).mpr (Valuation.keys_ofBits _ _)
      exact ⟨_, eval_of_mem_all hlimit hmem⟩

/-- Either of two is true at three words of two bits. -/
theorem models_of_disjunction :
    let F : Formula := .binary .or (.atom ⟨"wet"⟩) (.atom ⟨"cold"⟩)
    F.models 1 = .error (.limit (.atoms 2 1)) ∧
    ∃ ws, F.models 64 = .ok ws ∧ ws.map Valuation.number = [1, 2, 3] ∧ ws.Nodup := by
  intro F
  have htwo : F.atoms.size = 2 := by decide +kernel
  refine ⟨((models_spec F 1).1 _).mpr ⟨by rw [htwo]; decide, by rw [htwo]; rfl⟩, ?_⟩
  have hsize : F.atoms.size ≤ min 64 63 := by rw [htwo]; decide
  obtain ⟨⟨ws, hws, hnodup, _⟩, _⟩ := (models_spec F 64).2 hsize
  obtain ⟨ws', hws', hnumbers⟩ : ∃ ws, F.models 64 = .ok ws ∧ ws.map Valuation.number = [1, 2, 3] :=
    Result.ok_of_toOption_map (by decide +kernel)
  have hsame : ws' = ws := Except.ok.inj (hws'.symm.trans hws)
  exact ⟨ws, hws, hsame ▸ hnumbers, hnodup⟩

end Formula

end Chronicle
