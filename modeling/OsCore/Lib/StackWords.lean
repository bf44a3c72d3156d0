import Mathlib

/-!
# Words on a stack

Word memory gives every address a word, and a word takes the room of four
addresses. `Stacked m a ws` says which words stand from `a` up: the frame somebody
has pushed and is going to pop.

A frame survives what is stored outside of it (`Stacked.congr`), a push puts one
word in front of it (`Stacked.push`), and two frames next to each other are one
(`stacked_append`). That is all a stack discipline needs: whoever runs in between
may do anything outside the frame.
-/

namespace OsCore.Lib

open Function (update update_self update_of_ne)

variable {W : Type} {m m' : Nat → W} {a b : Nat} {w : W} {ws vs : List W}

/-- The words `ws` stand from address `a` up. -/
def Stacked (m : Nat → W) : Nat → List W → Prop
  | _, [] => True
  | a, w :: ws => m a = w ∧ Stacked m (a + 4) ws

@[simp] theorem stacked_nil : Stacked m a [] := trivial

@[simp] theorem stacked_cons : Stacked m a (w :: ws) ↔ m a = w ∧ Stacked m (a + 4) ws := Iff.rfl

theorem stacked_append :
    Stacked m a (ws ++ vs) ↔ Stacked m a ws ∧ Stacked m (a + 4 * ws.length) vs := by
  induction ws generalizing a with
  | nil => simp
  | cons w ws ih =>
    have hend : a + 4 + 4 * ws.length = a + 4 * (w :: ws).length := by
      rw [List.length_cons]
      omega
    rw [List.cons_append, stacked_cons, stacked_cons, ih, hend, and_assoc]

/-- What is stored outside a frame does not change it. -/
theorem Stacked.congr (h : Stacked m a ws) (hm : ∀ b, a ≤ b → b < a + 4 * ws.length → m' b = m b) :
    Stacked m' a ws := by
  induction ws generalizing a with
  | nil => trivial
  | cons w ws ih =>
    rw [List.length_cons] at hm
    refine ⟨(hm a (Nat.le_refl _) (by omega)).trans h.1, ih h.2 fun b hb hlt => ?_⟩
    exact hm b (by omega) (by omega)

theorem Stacked.update (h : Stacked m a ws) (hb : b < a ∨ a + 4 * ws.length ≤ b) :
    Stacked (update m b w) a ws :=
  h.congr fun c hc hlt => update_of_ne (by omega) _ _

/-- **A push puts one word in front.** -/
theorem Stacked.push (h : Stacked m a ws) (ha : 4 ≤ a) : Stacked (Function.update m (a - 4) w) (a - 4)
    (w :: ws) := by
  refine ⟨update_self _ _ _, ?_⟩
  rw [Nat.sub_add_cancel ha]
  exact h.update (Or.inl (by omega))

/-- A frame says what its words are. -/
theorem Stacked.unique (h : Stacked m a ws) (h' : Stacked m a vs) (hl : ws.length = vs.length) :
    ws = vs := by
  induction ws generalizing a vs with
  | nil => exact (List.length_eq_zero_iff.mp hl.symm).symm
  | cons w ws ih =>
    cases vs with
    | nil => simp at hl
    | cons v vs =>
      rw [h.1.symm.trans h'.1, ih h.2 h'.2 (by simpa using hl)]

/-- The words of a frame are there one by one. -/
theorem Stacked.getElem (h : Stacked m a ws) {i : Nat} (hi : i < ws.length) : m (a + 4 * i) = ws[i] := by
  induction ws generalizing a i with
  | nil => simp at hi
  | cons w ws ih =>
    cases i with
    | zero => exact h.1
    | succ i =>
      have hplace : a + 4 * (i + 1) = a + 4 + 4 * i := by omega
      rw [hplace, List.getElem_cons_succ]
      exact ih h.2 (by simpa using hi)

/-- Storing another word in the place of one of the frame's. -/
theorem Stacked.set (h : Stacked m a ws) (i : Nat) (hi : i < ws.length) :
    Stacked (Function.update m (a + 4 * i) w) a (ws.set i w) := by
  induction ws generalizing a i with
  | nil => simp at hi
  | cons v ws ih =>
    cases i with
    | zero =>
      exact ⟨update_self _ _ _, h.2.update (Or.inl (by omega))⟩
    | succ i =>
      have hplace : a + 4 * (i + 1) = a + 4 + 4 * i := by omega
      rw [List.set_cons_succ]
      refine ⟨(update_of_ne (by omega) _ _).trans h.1, ?_⟩
      rw [hplace]
      exact ih h.2 i (by simpa using hi)

end OsCore.Lib
