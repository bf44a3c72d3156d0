import Mathlib

/-!
# Holders of a value

A table gives each of finitely many places a value. The places that hold a value
are what a reference count counts: changing one place moves the two counts
concerned by one each and no other (`card_holders_update`), and so does a place
that comes or goes.
-/

namespace OsCore.Lib

variable {ι α : Type} [DecidableEq α]

/-- The places in `s` whose value is `v`. -/
def holders (s : Finset ι) (f : ι → α) (v : α) : Finset ι := s.filter fun i => f i = v

variable {s : Finset ι} {f : ι → α} {v : α}

@[simp] theorem mem_holders {i : ι} : i ∈ holders s f v ↔ i ∈ s ∧ f i = v := Finset.mem_filter

theorem holders_congr {g : ι → α} (h : ∀ i ∈ s, g i = f i) : holders s g v = holders s f v :=
  Finset.filter_congr fun i hi => by rw [h i hi]

theorem card_holders_pos {i : ι} (hi : i ∈ s) (h : f i = v) : 0 < (holders s f v).card :=
  Finset.card_pos.mpr ⟨i, mem_holders.mpr ⟨hi, h⟩⟩

theorem card_holders_eq_zero : (holders s f v).card = 0 ↔ ∀ i ∈ s, f i ≠ v := by
  rw [Finset.card_eq_zero, holders, Finset.filter_eq_empty_iff]

/-- A value that leaves a place has one holder less, the value that comes has one
more. -/
theorem card_holders_update [DecidableEq ι] {i : ι} (hi : i ∈ s) (x v : α) :
    (holders s (Function.update f i x) v).card + (if f i = v then 1 else 0) =
      (holders s f v).card + if x = v then 1 else 0 := by
  unfold holders
  rw [Finset.card_filter, Finset.card_filter, ← Finset.add_sum_erase s _ hi,
    ← Finset.add_sum_erase s (fun j => if f j = v then 1 else 0) hi]
  have hrest : ∑ j ∈ s.erase i, (if Function.update f i x j = v then 1 else 0) =
      ∑ j ∈ s.erase i, if f j = v then 1 else 0 := by
    apply Finset.sum_congr rfl
    intro j hj
    rw [Function.update_of_ne (Finset.ne_of_mem_erase hj)]
  rw [hrest, Function.update_self]
  omega

/-- One place more. -/
theorem card_holders_insert [DecidableEq ι] {i : ι} (hi : i ∉ s) (v : α) :
    (holders (insert i s) f v).card = (holders s f v).card + if f i = v then 1 else 0 := by
  unfold holders
  rw [Finset.filter_insert]
  split
  · rw [Finset.card_insert_of_notMem fun hmem => hi (Finset.mem_of_mem_filter i hmem)]
  · rfl

/-- Who holds something else is not missed. -/
theorem holders_erase [DecidableEq ι] {i : ι} (h : f i ≠ v) :
    holders (s.erase i) f v = holders s f v := by
  ext j
  rw [mem_holders, mem_holders, Finset.mem_erase]
  constructor
  · intro hj
    exact ⟨hj.1.2, hj.2⟩
  · intro hj
    refine ⟨⟨?_, hj.1⟩, hj.2⟩
    intro heq
    exact h (heq ▸ hj.2)

/-- One place less. -/
theorem card_holders_erase [DecidableEq ι] {i : ι} (hi : i ∈ s) (v : α) :
    (holders (s.erase i) f v).card + (if f i = v then 1 else 0) = (holders s f v).card := by
  have h := card_holders_insert (f := f) (Finset.notMem_erase i s) v
  rw [Finset.insert_erase hi] at h
  exact h.symm

end OsCore.Lib
