import Mathlib

/-!
# Numerals

A number is written in base `b` with its most significant digit first; zero is written
with one digit. `numeral` is that list of digits. It is what repeated division yields
(`numeral_small`, `numeral_step`), and it is the only list without leading zeros that
denotes the number (`eq_numeral_iff`).
-/

namespace OsCore.Lib

/-- The digits of `n`, the most significant first. -/
def numeral (b n : Nat) : List Nat := if n = 0 then [0] else (Nat.digits b n).reverse

/-- The number that digits denote, the most significant first. -/
def value (b : Nat) (ds : List Nat) : Nat := Nat.ofDigits b ds.reverse

/-- Digits below `b`, and no zero in front of others. -/
structure Canonical (b : Nat) (ds : List Nat) : Prop where
  lt : ∀ d ∈ ds, d < b
  ne_nil : ds ≠ []
  head : ds = [0] ∨ ds.head? ≠ some 0

variable {b n : Nat}

theorem numeral_small (h : n < b) : numeral b n = [n] := by
  unfold numeral
  split
  next h0 => rw [h0]
  next h0 => rw [Nat.digits_of_lt b n h0 h, List.reverse_singleton]

/-- The last digit is a remainder, and the others are the numeral of the quotient. -/
theorem numeral_step (hb : 1 < b) (h : n / b ≠ 0) :
    numeral b n = numeral b (n / b) ++ [n % b] := by
  have hn : n ≠ 0 := fun hc => h (by rw [hc, Nat.zero_div])
  rw [numeral, numeral, if_neg h, if_neg hn, Nat.digits_eq_cons_digits_div hb hn,
    List.reverse_cons]

theorem numeral_ne_nil (b n : Nat) : numeral b n ≠ [] := by
  unfold numeral
  split
  next => exact List.cons_ne_nil _ _
  next h =>
    rw [ne_eq, List.reverse_eq_nil_iff]
    exact Nat.digits_ne_nil_iff_ne_zero.mpr h

theorem numeral_lt (hb : 1 < b) : ∀ d ∈ numeral b n, d < b := by
  intro d hd
  unfold numeral at hd
  split at hd
  next =>
    rw [List.mem_singleton.mp hd]
    omega
  next => exact Nat.digits_lt_base hb (List.mem_reverse.mp hd)

/-- A numeral denotes its number. -/
theorem value_numeral (b n : Nat) : value b (numeral b n) = n := by
  unfold value numeral
  split
  next h => rw [h, List.reverse_singleton, Nat.ofDigits_singleton]
  next => rw [List.reverse_reverse, Nat.ofDigits_digits]

theorem numeral_canonical (hb : 1 < b) (n : Nat) : Canonical b (numeral b n) := by
  refine ⟨numeral_lt hb, numeral_ne_nil b n, ?_⟩
  unfold numeral
  split
  next => exact Or.inl rfl
  next h =>
    apply Or.inr
    intro hc
    have hne : Nat.digits b n ≠ [] := Nat.digits_ne_nil_iff_ne_zero.mpr h
    rw [List.head?_reverse, List.getLast?_eq_some_getLast hne, Option.some.injEq] at hc
    exact Nat.getLast_digit_ne_zero b h hc

theorem numeral_unique (hb : 1 < b) {ds : List Nat} (h : Canonical b ds) :
    ds = numeral b (value b ds) := by
  rcases h.head with rfl | hhead
  · have hzero : value b [0] = 0 := rfl
    rw [hzero]
    rfl
  · have hlast : ∀ (hne : ds.reverse ≠ []), ds.reverse.getLast hne ≠ 0 := by
      intro hne hc
      apply hhead
      rw [← List.reverse_reverse ds, List.head?_reverse, List.getLast?_eq_some_getLast hne, hc]
    have hdigits : Nat.digits b (value b ds) = ds.reverse :=
      Nat.digits_ofDigits b hb ds.reverse (fun d hd => h.lt d (List.mem_reverse.mp hd)) hlast
    have hne : value b ds ≠ 0 := by
      intro hc
      rw [hc, Nat.digits_zero, eq_comm, List.reverse_eq_nil_iff] at hdigits
      exact h.ne_nil hdigits
    rw [numeral, if_neg hne, hdigits, List.reverse_reverse]

/-- **There is one numeral of a number.** -/
theorem eq_numeral_iff (hb : 1 < b) {ds : List Nat} :
    ds = numeral b n ↔ Canonical b ds ∧ value b ds = n := by
  constructor
  · intro heq
    subst heq
    exact ⟨numeral_canonical hb n, value_numeral b n⟩
  · intro h
    rw [← h.2]
    exact numeral_unique hb h.1

end OsCore.Lib
