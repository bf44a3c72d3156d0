import Mathlib

/-!
# Machines and their runs

A machine is a step function that may fail, a set of states to start from and
what its surroundings may ask of it in each state. `step s a = none` stands for
an assertion that does not hold: the machine stops there. A run is any sequence
of steps the surroundings may ask for; `Reach G` are the states of the runs in
which every step also meets a condition `G` on the state before it.

An invariant is proved once for the start and once for a step
(`Reach.invariant`). A single run is followed by evaluation (`reach_of_follow`).
What somebody can tell from a run about the requests of others is a question
about two runs: one with their requests and one without (`run_purge`).
-/

namespace OsCore.Lib

/-- States, requests, and a step that fails where an assertion does. -/
structure Machine (σ α : Type) where
  start : σ → Prop
  may : σ → α → Prop
  step : σ → α → Option σ

namespace Machine

variable {σ α : Type} {M : Machine σ α} {G : σ → α → Prop}

/-- The states of all runs whose steps meet `G`. -/
inductive Reach (M : Machine σ α) (G : σ → α → Prop) : σ → Prop
  | start {s : σ} : M.start s → Reach M G s
  | step {s : σ} {a : α} {s' : σ} :
      Reach M G s → M.may s a → G s a → M.step s a = some s' → Reach M G s'

/-- The states of all runs. -/
def Reachable (M : Machine σ α) : σ → Prop := M.Reach fun _ _ => True

/-- What holds at the start and is kept by every step holds in every state of
every run. -/
theorem Reach.invariant {I : σ → Prop} (h0 : ∀ s, M.start s → I s)
    (hstep : ∀ s a s', I s → M.may s a → G s a → M.step s a = some s' → I s')
    {s : σ} (h : M.Reach G s) : I s := by
  induction h with
  | start hs => exact h0 _ hs
  | step _ hm hg he ih => exact hstep _ _ _ ih hm hg he

/-- Follow a list of requests, stopping where one may not be made, does not meet
`G`, or fails. -/
def follow (M : Machine σ α) (G : σ → α → Prop) [∀ s a, Decidable (M.may s a)]
    [∀ s a, Decidable (G s a)] : σ → List α → Option σ
  | s, [] => some s
  | s, a :: as => if M.may s a ∧ G s a then (M.step s a).bind fun s' => follow M G s' as else none

theorem reach_of_follow [∀ s a, Decidable (M.may s a)] [∀ s a, Decidable (G s a)] {s s' : σ}
    {as : List α} (h : M.Reach G s) (hf : M.follow G s as = some s') : M.Reach G s' := by
  induction as generalizing s with
  | nil =>
    cases hf
    exact h
  | cons a as ih =>
    rw [follow] at hf
    split at hf
    · next hma =>
      obtain ⟨t, ht, hf⟩ := Option.bind_eq_some_iff.mp hf
      exact ih (Reach.step h hma.1 hma.2 ht) hf
    · cases hf

/-! ## Two runs side by side -/

/-- Make the requests in order. -/
def run (M : Machine σ α) : σ → List α → Option σ
  | s, [] => some s
  | s, a :: as => (M.step s a).bind fun s' => run M s' as

/-- Every request may be made when its turn comes, and meets `G` then. -/
def Grants (M : Machine σ α) (G : σ → α → Prop) : σ → List α → Prop
  | _, [] => True
  | s, a :: as => M.may s a ∧ G s a ∧ ∀ s', M.step s a = some s' → Grants M G s' as

/-- Leave the requests of `hide` out of a run. A relation that a request of the
rest keeps when it is made on both sides, and one of `hide` when it is made on
one side only, holds between the ends of the two runs. -/
theorem run_purge (R : σ → σ → Prop) (hide : α → Bool)
    (hshown : ∀ s t a, R s t → M.may s a → G s a → hide a = false →
      ∃ s' t', M.step s a = some s' ∧ M.step t a = some t' ∧ R s' t')
    (hhidden : ∀ s t a, R s t → M.may s a → G s a → hide a = true →
      ∃ s', M.step s a = some s' ∧ R s' t)
    {as : List α} {s t : σ} (hR : R s t) (hg : M.Grants G s as) :
    ∃ s' t', M.run s as = some s' ∧ M.run t (as.filter (!hide ·)) = some t' ∧ R s' t' := by
  induction as generalizing s t with
  | nil => exact ⟨s, t, rfl, rfl, hR⟩
  | cons a as ih =>
    obtain ⟨hmay, hga, hrest⟩ := hg
    cases hh : hide a with
    | true =>
      obtain ⟨s1, hs1, hR1⟩ := hhidden s t a hR hmay hga hh
      obtain ⟨s', t', hs', ht', hR'⟩ := ih hR1 (hrest s1 hs1)
      refine ⟨s', t', ?_, ?_, hR'⟩
      · rw [run, hs1, Option.bind_some, hs']
      · rw [List.filter_cons_of_neg (by simp [hh]), ht']
    | false =>
      obtain ⟨s1, t1, hs1, ht1, hR1⟩ := hshown s t a hR hmay hga hh
      obtain ⟨s', t', hs', ht', hR'⟩ := ih hR1 (hrest s1 hs1)
      refine ⟨s', t', ?_, ?_, hR'⟩
      · rw [run, hs1, Option.bind_some, hs']
      · rw [List.filter_cons_of_pos (by simp [hh]), run, ht1, Option.bind_some, ht']

/-! ## How often something is done -/

/-- The requests may be made in this order, and every state they lead to meets `P`. -/
def Runs (M : Machine σ α) (P : σ → Prop) : σ → List α → Prop
  | _, [] => True
  | s, a :: as => M.may s a ∧ ∃ s', M.step s a = some s' ∧ P s' ∧ Runs M P s' as

/-- **A rank that drops with every marked step** bounds their number. `R n` are the
states of rank `n`. -/
theorem Runs.count_le {P : σ → Prop} {R : Nat → σ → Prop} {mark : α → Bool}
    (hstep : ∀ n s a s', R n s → M.may s a → M.step s a = some s' → P s' →
      ∃ m, R m s' ∧ m + (mark a).toNat ≤ n)
    {n : Nat} {s : σ} {as : List α} (hR : R n s) (h : M.Runs P s as) : as.countP mark ≤ n := by
  induction as generalizing n s with
  | nil => exact Nat.zero_le n
  | cons a as ih =>
    obtain ⟨hmay, s', hs', hP, hrest⟩ := h
    obtain ⟨m, hm, hle⟩ := hstep n s a s' hR hmay hs' hP
    have hcount := ih hm hrest
    cases hmark : mark a with
    | true =>
      rw [hmark, Bool.toNat_true] at hle
      rw [List.countP_cons_of_pos hmark]
      omega
    | false =>
      rw [List.countP_cons_of_neg (by simp [hmark])]
      omega

end Machine

end OsCore.Lib
