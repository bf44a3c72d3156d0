import Mathlib

/-!
# Ledgers: who holds which resource

A pool of resources is shared by *slots* (a block pointer of an inode, a page
table entry, ...). `own s` is what slot `s` holds, with one value `nil` for an
empty slot, and `used r` says the pool counts `r` as handed out. A `Ledger` is
the statement that nothing is held twice and everything held is handed out.

An operation on the real structures moves many slots at once and passes through
states where half of them are written. `Ledger.step` therefore speaks only of
the two ends: it is enough that every slot afterwards is empty, holds what it
held, or holds a resource the pool had free, the last kind without repetition.
-/

namespace OsCore

/-- Nothing is held twice, and what is held is counted as used. -/
structure Ledger {S R : Type} (nil : R) (own : S → R) (used : R → Prop) : Prop where
  inj : ∀ s t, own s = own t → own s ≠ nil → s = t
  used : ∀ s, own s ≠ nil → used (own s)

namespace Ledger

variable {S R : Type} {nil : R} {own own' : S → R} {used used' : R → Prop}

/-- **The step rule.** Old holdings stay where they were or go; new ones come
from the free part of the pool, each for one slot. -/
theorem step (h : Ledger nil own used)
    (hold : ∀ s, own' s = nil ∨ own' s = own s ∨ ¬used (own' s))
    (hnew : ∀ s t, own' s = own' t → own' s ≠ nil → ¬used (own' s) → s = t)
    (hused : ∀ s, own' s ≠ nil → used' (own' s)) : Ledger nil own' used' := by
  refine ⟨fun s t he hne => ?_, hused⟩
  have hne' : own' t ≠ nil := he ▸ hne
  rcases hold s with hs | hs | hs
  · exact absurd hs hne
  · rcases hold t with ht | ht | ht
    · exact absurd ht hne'
    · exact h.inj s t (by rw [← hs, ← ht, he]) (hs ▸ hne)
    · exact absurd (h.used s (hs ▸ hne)) (by rw [← hs, he]; exact ht)
  · exact hnew s t he hne hs

/-- Slots that nothing was written to may be looked at through a larger pool. -/
theorem mono (h : Ledger nil own used) (hu : ∀ r, used r → used' r) : Ledger nil own used' :=
  ⟨h.inj, fun s hs => hu _ (h.used s hs)⟩

end Ledger
end OsCore
