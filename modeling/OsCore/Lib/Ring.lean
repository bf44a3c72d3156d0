import Mathlib

/-!
# Circular stores

A store of `n` slots read from `first` on, wrapping at the end: `window` is the
list of the next `len` elements. A write into the slot after the window makes it
one longer (`window_push`); moving `first` on makes it one shorter
(`window_pop`). How far apart two positions are is `dist`: the count that one
sacrificed slot makes unambiguous.
-/

namespace OsCore.Lib.Ring

variable {α : Type} {n : Nat}

/-- The `len` elements from position `first` on. -/
def window (n : Nat) (f : Nat → α) (first len : Nat) : List α :=
  (List.range len).map fun i => f ((first + i) % n)

/-- How many steps forward it is from `tail` to `head`. -/
def dist (n tail head : Nat) : Nat := (head + n - tail) % n

@[simp] theorem length_window (f : Nat → α) (first len : Nat) :
    (window n f first len).length = len := by
  simp [window]

theorem dist_lt (hn : 0 < n) (tail head : Nat) : dist n tail head < n := Nat.mod_lt _ hn

theorem dist_of_le {tail head : Nat} (h : tail ≤ head) (hh : head < n) :
    dist n tail head = head - tail := by
  rw [dist, show head + n - tail = head - tail + n by omega, Nat.add_mod_right]
  exact Nat.mod_eq_of_lt (by omega)

theorem dist_of_gt {tail head : Nat} (h : head < tail) (ht : tail < n) :
    dist n tail head = n - (tail - head) := by
  rw [dist, Nat.mod_eq_of_lt (by omega)]
  omega

/-- Going `dist` forward from `tail` leads to `head`. -/
theorem add_dist {tail head : Nat} (ht : tail < n) (hh : head < n) :
    (tail + dist n tail head) % n = head := by
  rcases Nat.lt_or_ge head tail with h | h
  · rw [dist_of_gt h ht, show tail + (n - (tail - head)) = head + n by omega, Nat.add_mod_right]
    exact Nat.mod_eq_of_lt hh
  · rw [dist_of_le h hh, show tail + (head - tail) = head by omega]
    exact Nat.mod_eq_of_lt hh

/-- The next position, by cases. -/
theorem succ_mod {i : Nat} (hi : i < n) : (i + 1) % n = if i + 1 = n then 0 else i + 1 := by
  split
  · next h => rw [h, Nat.mod_self]
  · exact Nat.mod_eq_of_lt (by omega)

/-- Moving `head` on by one makes the distance one longer, if there is room. -/
theorem dist_push {tail head : Nat} (ht : tail < n) (hh : head < n)
    (hroom : (head + 1) % n ≠ tail) : dist n tail ((head + 1) % n) = dist n tail head + 1 := by
  rw [succ_mod hh] at hroom ⊢
  rcases Nat.lt_or_ge head tail with h | h
  · rw [if_neg (by omega)] at hroom ⊢
    rw [dist_of_gt h ht, dist_of_gt (by omega) ht]
    omega
  · split at hroom
    · next hw =>
      rw [if_pos hw, dist_of_gt (by omega) ht, dist_of_le h hh]
      omega
    · next hw =>
      rw [if_neg hw, dist_of_le (by omega) (by omega), dist_of_le h hh]
      omega

/-- Moving `tail` on by one makes it one shorter, if it was not zero. -/
theorem dist_pop {tail head : Nat} (ht : tail < n) (hh : head < n) (hne : head ≠ tail) :
    dist n ((tail + 1) % n) head + 1 = dist n tail head := by
  rw [succ_mod ht]
  rcases Nat.lt_or_ge head tail with h | h
  · split
    · rw [dist_of_le (Nat.zero_le _) hh, dist_of_gt h ht]
      omega
    · rw [dist_of_gt (by omega) (by omega), dist_of_gt h ht]
      omega
  · rw [if_neg (by omega), dist_of_le (by omega) hh, dist_of_le h hh]
    omega

/-- The distance is zero just where the positions meet. -/
theorem dist_eq_zero_iff {tail head : Nat} (ht : tail < n) (hh : head < n) :
    dist n tail head = 0 ↔ head = tail := by
  rcases Nat.lt_or_ge head tail with h | h
  · rw [dist_of_gt h ht]
    omega
  · rw [dist_of_le h hh]
    omega

/-- The distance is as large as it can be just where one more step would make
the positions meet. -/
theorem dist_eq_last_iff {tail head : Nat} (ht : tail < n) (hh : head < n) :
    dist n tail head = n - 1 ↔ (head + 1) % n = tail := by
  rw [succ_mod hh]
  rcases Nat.lt_or_ge head tail with h | h
  · rw [dist_of_gt h ht, if_neg (by omega)]
    omega
  · rw [dist_of_le h hh]
    split <;> omega

/-- A write into the slot after the window appends to it. -/
theorem window_push (f : Nat → α) (x : α) {first len : Nat} (hlen : len < n) :
    window n (Function.update f ((first + len) % n) x) first (len + 1) =
      window n f first len ++ [x] := by
  rw [window, List.range_succ, List.map_append, List.map_singleton, Function.update_self]
  congr 1
  apply List.map_congr_left
  intro i hi
  have hi : i < len := List.mem_range.mp hi
  rw [Function.update_of_ne]
  -- the slots of a window shorter than the store are distinct
  intro he
  have h := Nat.ModEq.add_left_cancel' first he
  rw [Nat.ModEq, Nat.mod_eq_of_lt (by omega), Nat.mod_eq_of_lt hlen] at h
  omega

/-- Moving the start on by one drops the first element. -/
theorem window_pop (f : Nat → α) (first len : Nat) :
    window n f first (len + 1) = f (first % n) :: window n f ((first + 1) % n) len := by
  rw [window, List.range_succ_eq_map, List.map_cons, List.map_map]
  congr 1
  apply List.map_congr_left
  intro i _
  simp only [Function.comp_apply, Nat.mod_add_mod]
  congr 2
  omega

end OsCore.Lib.Ring
