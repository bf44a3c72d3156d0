import OsCore.Lib.Memory

/-!
# Strings that end with a zero byte

A string is bytes behind a pointer, and its length is the place of the first
zero byte. `strlen` looks for it in the first bytes only, as many as the buffer
has: where none of them is zero the C function reads on behind the buffer, and
the length is `none`.
-/

namespace OsCore

namespace Mem

variable {m src : Mem} {n k limit : Nat}

/-- The string at `m` has `n` bytes. -/
def IsString (m : Mem) (n : Nat) : Prop := m n = 0 ∧ ∀ i, i < n → m i ≠ 0

instance : Decidable (m.IsString n) :=
  inferInstanceAs (Decidable (m n = 0 ∧ ∀ i, i < n → m i ≠ 0))

/-- The string at `m` is `s`. -/
def Holds (m : Mem) (s : List UInt8) : Prop :=
  (List.range s.length).map m = s ∧ m.IsString s.length

/-- `strlen(m)`, in a buffer of `limit` bytes. -/
def strlen (m : Mem) (limit : Nat) : Option Nat := (List.range limit).find? fun i => m i == 0

/-- `strcat(m, src)`, where the string at `m` has `n` bytes and that at `src` has `k`. -/
def strcat (m : Mem) (n : Nat) (src : Mem) (k : Nat) : Mem := m.blit n src (k + 1)

/-- There is one length. -/
theorem IsString.unique (h : IsString m n) (h' : IsString m k) : n = k := by
  rcases Nat.lt_trichotomy n k with hlt | heq | hgt
  · exact absurd h.1 (h'.2 n hlt)
  · exact heq
  · exact absurd h'.1 (h.2 k hgt)

/-- With a zero at `n`, a string ends there or before. -/
theorem exists_isString (h : m n = 0) : ∃ k, k ≤ n ∧ m.IsString k := by
  have hex : ∃ k, m k = 0 := ⟨n, h⟩
  exact ⟨Nat.find hex, Nat.find_min' hex h, Nat.find_spec hex, fun i hi => Nat.find_min hex hi⟩

theorem strlen_eq_some : strlen m limit = some n ↔ n < limit ∧ IsString m n := by
  unfold strlen
  rw [List.find?_range_eq_some]
  simp only [beq_iff_eq, List.mem_range, ne_eq, Bool.not_eq_true', beq_eq_false_iff_ne]
  constructor
  · intro h
    exact ⟨h.2.1, h.1, h.2.2⟩
  · intro h
    exact ⟨h.2.1, h.1, h.2.2⟩

/-! ## Strings as lists of bytes -/

section

variable {s s' : List UInt8}

/-- A string reads as its bytes and the zero behind them. -/
theorem holds_iff : m.Holds s ↔ (∀ i, i ≤ s.length → m i = s.getD i 0) ∧ 0 ∉ s := by
  unfold Holds IsString
  constructor
  · intro h
    obtain ⟨hbytes, hend, hne⟩ := h
    have hread : ∀ i, i < s.length → s[i]? = some (m i) := fun i hi => by
      rw [← hbytes, List.getElem?_map, List.getElem?_range hi, Option.map_some]
    refine ⟨fun i hi => ?_, fun hzero => ?_⟩
    · rw [List.getD_eq_getElem?_getD]
      rcases Nat.lt_or_eq_of_le hi with hlt | heq
      · rw [hread i hlt, Option.getD_some]
      · rw [heq, List.getElem?_eq_none (Nat.le_refl _), Option.getD_none, hend]
    · obtain ⟨i, hi, he⟩ := List.mem_iff_getElem.mp hzero
      have := hread i hi
      rw [List.getElem?_eq_getElem hi, he, Option.some.injEq] at this
      exact hne i hi this.symm
  · intro h
    obtain ⟨hread, hzero⟩ := h
    have hget : ∀ i (hi : i < s.length), m i = s[i] := fun i hi => by
      rw [hread i hi.le, List.getD_eq_getElem _ _ hi]
    refine ⟨List.ext_getElem (by simp) fun i h1 h2 => ?_, ?_, fun i hi he => ?_⟩
    · rw [List.getElem_map, List.getElem_range, hget i h2]
    · rw [hread _ (Nat.le_refl _), List.getD_eq_default _ _ (Nat.le_refl _)]
    · rw [hget i hi] at he
      exact hzero (he ▸ List.getElem_mem hi)

theorem Holds.read (h : m.Holds s) {i : Nat} (hi : i ≤ s.length) : m i = s.getD i 0 :=
  (holds_iff.mp h).1 i hi

theorem Holds.zero_not_mem (h : m.Holds s) : (0 : UInt8) ∉ s := (holds_iff.mp h).2

/-- A string depends on its bytes and its end. -/
theorem Holds.congr {m' : Mem} (h : m.Holds s) (heq : ∀ i, i ≤ s.length → m' i = m i) :
    m'.Holds s := by
  rw [holds_iff] at h ⊢
  exact ⟨fun i hi => (heq i hi).trans (h.1 i hi), h.2⟩

/-- The end of a string is a string. -/
theorem Holds.drop (h : m.Holds (s ++ s')) : (m.shift s.length).Holds s' := by
  rw [holds_iff] at h ⊢
  refine ⟨fun i hi => ?_, fun hzero => h.2 (List.mem_append_right _ hzero)⟩
  rw [shift, h.1 _ (by rw [List.length_append]; omega), List.getD_append_right _ _ _ _ (by omega),
    Nat.add_sub_cancel_left]

/-- With a zero behind it, the front of a string is one. -/
theorem Holds.take (h : m.Holds (s ++ s')) {m' : Mem} (heq : ∀ i, i < s.length → m' i = m i)
    (hend : m' s.length = 0) : m'.Holds s := by
  rw [holds_iff] at h ⊢
  refine ⟨fun i hi => ?_, fun hzero => h.2 (List.mem_append_left _ hzero)⟩
  rcases Nat.lt_or_eq_of_le hi with hlt | rfl
  · rw [heq i hlt, h.1 i (by rw [List.length_append]; omega), List.getD_append _ _ _ _ hlt]
  · rw [hend, List.getD_eq_default _ _ (Nat.le_refl _)]

end

/-- The length of the joined string. -/
theorem IsString.strcat (h : IsString m n) (h' : IsString src k) :
    IsString (m.strcat n src k) (n + k) := by
  unfold Mem.strcat
  refine ⟨?_, fun i hi => ?_⟩
  · rw [blit_add (by omega)]
    exact h'.1
  · by_cases hin : i < n
    · rw [blit_out (Or.inl hin)]
      exact h.2 i hin
    · rw [blit_in (by omega) (by omega)]
      exact h'.2 _ (by omega)

end Mem

end OsCore
