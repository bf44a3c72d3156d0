import OsCore.Kernel.Paging

/-!
# What the allocation path keeps (`kernel/memory.c`)

`malloc_page` marks pages of an address space once and then only asks for frames
and writes to memory. So whatever relation between a state and a later one holds
across a request for a frame, and does not look at memory, holds across the
whole path (`Keeps.mallocLoop`, `Keeps.pageTableAdd`).
-/

namespace OsCore.Paging

/-- The bitmap `vaddr_get` takes pages from. -/
def Mm.vaddrMap (s : Mm) : PoolFlags → Bitmap
  | .kernel => s.kernelVaddr
  | .user => s.userVaddr

theorem bit_setBits {value : Bool} : ∀ {n i : Nat} {b : Bitmap} {j : Nat},
    (setBits b i value n).bit j = if i ≤ j ∧ j < i + n then value else b.bit j := by
  intro n
  induction n with
  | zero =>
    intro i b j
    rw [if_neg (by omega)]
    rfl
  | succ n ih =>
    intro i b j
    rw [setBits, ih, Bitmap.bit_bitmapSet]
    by_cases hj : j = i
    · subst hj
      rw [if_neg (by omega), if_pos rfl, if_pos (by omega)]
    · by_cases hin : i + 1 ≤ j ∧ j < i + 1 + n
      · rw [if_pos hin, if_pos (by omega)]
      · rw [if_neg hin, if_neg hj, if_neg (by omega)]

/-- `R` holds between a state and what memory accesses and requests to `alloc` make
of it. -/
structure Keeps (alloc : PoolFlags → Mm → Option (Option Nat × Mm)) (R : Mm → Mm → Prop) :
    Prop where
  refl : ∀ s, R s s
  trans : ∀ {s t u}, R s t → R t u → R s u
  mem : ∀ s mem, R s { s with mem }
  alloc : ∀ {pf s r s'}, alloc pf s = some (r, s') → R s s'

namespace Keeps

variable {alloc : PoolFlags → Mm → Option (Option Nat × Mm)} {R : Mm → Mm → Prop}
  (hk : Keeps alloc R)

include hk

theorem store {s s' : Mm} {a w : Nat} (h : s.store a w = some s') : R s s' := by
  obtain ⟨mem, -, rfl⟩ := Option.map_eq_some_iff.mp h
  exact hk.mem s mem

theorem clearPage {s s' : Mm} {a : Nat} (h : s.clearPage a = some s') : R s s' := by
  obtain ⟨f, -, rfl⟩ := Option.map_eq_some_iff.mp h
  exact hk.mem s _

theorem clearPages : ∀ {n a : Nat} {s s' : Mm}, Mm.clearPages a n s = some s' → R s s' := by
  intro n
  induction n with
  | zero =>
    intro a s s' h
    rw [← Option.some.inj h]
    exact hk.refl s
  | succ n ih =>
    intro a s s' h
    obtain ⟨s1, h1, h⟩ := Option.bind_eq_some_iff.mp h
    exact hk.trans (hk.clearPage h1) (ih h)

theorem copyPage {s s' : Mm} {dst src : Nat} (h : s.copyPage dst src = some s') : R s s' := by
  obtain ⟨f, -, h⟩ := Option.bind_eq_some_iff.mp h
  obtain ⟨g, -, h⟩ := Option.bind_eq_some_iff.mp h
  rw [← Option.some.inj h]
  exact hk.mem s _

theorem pageTableAdd {s s' : Mm} {vaddr phy : Nat}
    (h : pageTableAdd alloc s vaddr phy = some s') : R s s' := by
  unfold Paging.pageTableAdd at h
  obtain ⟨pde, -, h⟩ := Option.bind_eq_some_iff.mp h
  split at h
  next =>
    obtain ⟨pte, -, h⟩ := Option.bind_eq_some_iff.mp h
    obtain ⟨_, -, h⟩ := Option.bind_eq_some_iff.mp h
    exact hk.store h
  next =>
    obtain ⟨⟨r, s1⟩, h1, h⟩ := Option.bind_eq_some_iff.mp h
    obtain ⟨s2, h2, h⟩ := Option.bind_eq_some_iff.mp h
    obtain ⟨s3, h3, h⟩ := Option.bind_eq_some_iff.mp h
    obtain ⟨pte, -, h⟩ := Option.bind_eq_some_iff.mp h
    obtain ⟨_, -, h⟩ := Option.bind_eq_some_iff.mp h
    exact hk.trans (hk.trans (hk.trans (hk.alloc h1) (hk.store h2)) (hk.clearPage h3)) (hk.store h)

theorem mallocLoop {pf : PoolFlags} : ∀ {cnt vaddr : Nat} {s s' : Mm} {done : Bool},
    mallocLoop alloc pf cnt vaddr s = some (done, s') → R s s' := by
  intro cnt
  induction cnt with
  | zero =>
    intro vaddr s s' done h
    simp only [Paging.mallocLoop, Option.some.injEq, Prod.mk.injEq] at h
    obtain ⟨-, rfl⟩ := h
    exact hk.refl s
  | succ cnt ih =>
    intro vaddr s s' done h
    unfold Paging.mallocLoop at h
    obtain ⟨⟨r, s1⟩, h1, h⟩ := Option.bind_eq_some_iff.mp h
    cases r with
    | none =>
      simp only [Option.pure_def, Option.some.injEq, Prod.mk.injEq] at h
      obtain ⟨-, rfl⟩ := h
      exact hk.alloc h1
    | some phy =>
      obtain ⟨s2, h2, h⟩ := Option.bind_eq_some_iff.mp h
      exact hk.trans (hk.trans (hk.alloc h1) (hk.pageTableAdd h2)) (ih h)

theorem getAPageWithoutOpvaddrbitmap {s s' : Mm} {vaddr : Nat} {r : Option Nat}
    (h : getAPageWithoutOpvaddrbitmap alloc s vaddr = some (r, s')) : R s s' := by
  obtain ⟨⟨r1, s1⟩, h1, h⟩ := Option.bind_eq_some_iff.mp h
  cases r1 with
  | none =>
    simp only [Option.pure_def, Option.some.injEq, Prod.mk.injEq] at h
    obtain ⟨-, rfl⟩ := h
    exact hk.alloc h1
  | some phy =>
    obtain ⟨s2, h2, h⟩ := Option.bind_eq_some_iff.mp h
    simp only [Option.pure_def, Option.some.injEq, Prod.mk.injEq] at h
    obtain ⟨-, rfl⟩ := h
    exact hk.trans (hk.alloc h1) (hk.pageTableAdd h2)

end Keeps

end OsCore.Paging
