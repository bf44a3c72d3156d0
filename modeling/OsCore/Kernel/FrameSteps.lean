import OsCore.Kernel.Frames

/-!
# How frames move

A frame goes from a pool into somebody's hand, from there into an entry, out of it
again and back into the pool. `Good.take`, `Good.enter`, `Good.leave` and `Good.give`
are the four moves on the book-keeping; `Good.keep` is for writes that move nothing.

Below them are the writes the code makes: the entry of a heap page, of a page of a
process, of a new table, and `page_table_add` as a whole in the two places it is
used (`Good.addHeap`, `Good.addPage`).
-/

namespace OsCore.Paging

open OsCore.Lib

variable {L : Layout} {s s' : Mm} {S : Spaces} {held : Nat → Prop}

/-! ## Bits of frames -/

/-- Set the bit of a frame in its pool. -/
def setFrameBit (L : Layout) (s : Mm) (f : Nat) (v : Bool) : Mm :=
  if L.userFrame ≤ f then { s with userPool := s.userPool.bitmapSet (f - L.userFrame) v }
  else { s with kernelPool := s.kernelPool.bitmapSet (f - 0x200) v }

section

variable (L : Layout) (s : Mm) (f : Nat) (v : Bool)

@[simp] theorem setFrameBit_mem : (setFrameBit L s f v).mem = s.mem := by
  unfold setFrameBit
  split <;> rfl

@[simp] theorem setFrameBit_cr3 : (setFrameBit L s f v).cr3 = s.cr3 := by
  unfold setFrameBit
  split <;> rfl

@[simp] theorem setFrameBit_kernelVaddr : (setFrameBit L s f v).kernelVaddr = s.kernelVaddr := by
  unfold setFrameBit
  split <;> rfl

@[simp] theorem setFrameBit_userVaddr : (setFrameBit L s f v).userVaddr = s.userVaddr := by
  unfold setFrameBit
  split <;> rfl

@[simp] theorem setFrameBit_kernelLen :
    (setFrameBit L s f v).kernelPool.bytesLen = s.kernelPool.bytesLen := by
  unfold setFrameBit
  split <;> rfl

@[simp] theorem setFrameBit_userLen :
    (setFrameBit L s f v).userPool.bytesLen = s.userPool.bytesLen := by
  unfold setFrameBit
  split <;> rfl

end

theorem frameBit_setFrameBit {f g : Nat} {v : Bool} (hf : L.IsFrame f) (hg : L.IsFrame g) :
    frameBit L (setFrameBit L s f v) g = if g = f then v else frameBit L s g := by
  have hf2 := Layout.frame_ge hf
  have hg2 := Layout.frame_ge hg
  unfold frameBit setFrameBit
  by_cases huf : L.userFrame ≤ f
  · by_cases hug : L.userFrame ≤ g
    · rw [if_pos huf, if_pos hug, Bitmap.bit_bitmapSet]
      by_cases h : g = f
      · rw [if_pos h, if_pos (by rw [h])]
      · rw [if_neg h, if_neg (by omega), if_pos hug]
    · rw [if_pos huf, if_neg hug, if_neg (by omega), if_neg hug]
  · by_cases hug : L.userFrame ≤ g
    · rw [if_neg huf, if_pos hug, if_neg (by omega), if_pos hug]
    · rw [if_neg huf, if_neg hug, Bitmap.bit_bitmapSet]
      by_cases h : g = f
      · rw [if_pos h, if_pos (by rw [h])]
      · rw [if_neg h, if_neg (by omega), if_neg hug]

/-- `pfree`. -/
theorem pfree_eq (L : Layout) (s : Mm) (f : Nat) : pfree L s (f * 4096) = setFrameBit L s f false := by
  unfold pfree setFrameBit
  have hstart := L.userStart_eq
  have hkernel : L.kernelStart = 0x200 * 4096 := rfl
  by_cases h : L.userFrame ≤ f
  · have hi : (f * 4096 - L.userStart) / 4096 = f - L.userFrame := by omega
    rw [if_pos (by omega), if_pos h, hi]
  · have hi : (f * 4096 - L.kernelStart) / 4096 = f - 0x200 := by omega
    rw [if_neg (by omega), if_neg h, hi]

/-- Memory does not matter for the bits. -/
theorem setFrameBit_setMem (L : Layout) (s : Mm) (f : Nat) (v : Bool) (m : Phys) :
    setFrameBit L (s.setMem m) f v = (setFrameBit L s f v).setMem m := by
  unfold setFrameBit
  split <;> rfl

theorem setFrameBit_load (L : Layout) (s : Mm) (f : Nat) (v : Bool) (a : Nat) :
    (setFrameBit L s f v).load a = s.load a := by
  unfold Mm.load
  rw [setFrameBit_mem, setFrameBit_cr3]

theorem setFrameBit_store (L : Layout) (s : Mm) (f : Nat) (v : Bool) (a w : Nat) :
    (setFrameBit L s f v).store a w = (s.store a w).map fun t => (setFrameBit L s f v).setMem t.mem := by
  rw [Mm.store_eq, Mm.store_eq, setFrameBit_mem, setFrameBit_cr3, Option.map_map]
  rfl

-- from here on only its lemmas are used
attribute [irreducible] setFrameBit

/-- The frames of the pool of `pf`. -/
def Layout.OfPool (L : Layout) : PoolFlags → Nat → Prop
  | .kernel => L.IsKernel
  | .user => L.IsUser

theorem Layout.OfPool.isFrame {pf : PoolFlags} {f : Nat} (h : L.OfPool pf f) : L.IsFrame f := by
  cases pf with
  | kernel => exact Or.inl h
  | user => exact Or.inr h

/-- `palloc` finds a frame whose bit is clear and sets the bit. -/
theorem pallocFrom_cases (hk : s.kernelPool.bytesLen = L.kbmLength)
    (hu : s.userPool.bytesLen = L.ubmLength) {pf : PoolFlags} {r : Option Nat}
    (h : pallocFrom L pf s = some (r, s')) : ∃ f, r = some (f * 4096) ∧ L.OfPool pf f ∧
      frameBit L s f = false ∧ s' = setFrameBit L s f true := by
  cases pf with
  | kernel =>
    obtain ⟨i, rfl, hi, hfree, -, rfl⟩ := pallocFrom_kernel h
    have hker : L.IsKernel (0x200 + i) := ⟨by omega, by omega⟩
    have hlt := Layout.kernel_lt_user hker
    have hsub : 0x200 + i - 0x200 = i := by omega
    refine ⟨0x200 + i, ?_, hker, ?_, ?_⟩
    · rw [L.kernelAddr_eq]
    · rw [frameBit, if_neg (by omega), hsub]
      exact hfree
    · rw [setFrameBit, if_neg (by omega), hsub]
  | user =>
    obtain ⟨i, rfl, hi, hfree, -, rfl⟩ := pallocFrom_user h
    have hsub : L.userFrame + i - L.userFrame = i := by omega
    refine ⟨L.userFrame + i, ?_, ⟨by omega, by omega⟩, ?_, ?_⟩
    · rw [L.userAddr_eq]
    · rw [frameBit, if_pos (by omega), hsub]
      exact hfree
    · rw [setFrameBit, if_pos (by omega), hsub]

/-! ## The moves -/

/-- A frame is taken from a pool. -/
theorem Good.take (hg : Good L s S held) {pf : PoolFlags} {r : Option Nat}
    (h : pallocFrom L pf s = some (r, s')) : ∃ f, r = some (f * 4096) ∧ L.OfPool pf f ∧
      (∀ x, slotFrame s.mem S x ≠ some f) ∧ ¬held f ∧ s' = setFrameBit L s f true ∧
      Good L s' S fun g => held g ∨ g = f := by
  obtain ⟨f, rfl, hpool, hfree, rfl⟩ := pallocFrom_cases hg.kernelLen hg.userLen h
  have hf := hpool.isFrame
  have hnot : ¬((∃ x, slotFrame s.mem S x = some f) ∨ held f) := by
    rw [← hg.bit f hf, hfree]
    exact Bool.false_ne_true
  rw [not_or, not_exists] at hnot
  obtain ⟨hnone, hnheld⟩ := hnot
  refine ⟨f, rfl, hpool, hnone, hnheld, rfl, ?_⟩
  constructor
  case kernelLen => simpa using hg.kernelLen
  case userLen => simpa using hg.userLen
  case inj => simpa using hg.inj
  case heldOut =>
    intro x g hx hor
    rw [setFrameBit_mem] at hx
    rcases hor with hheld | rfl
    · exact hg.heldOut x g hx hheld
    · exact hnone x hx
  case inPool => simpa using hg.inPool
  case heldPool =>
    intro g hor
    rcases hor with hheld | rfl
    · exact hg.heldPool g hheld
    · exact hf
  case bit =>
    intro g hgf
    rw [frameBit_setFrameBit hf hgf, setFrameBit_mem]
    by_cases h : g = f
    · simp [h]
    · rw [if_neg h, hg.bit g hgf]
      simp [h]
  case low => simpa using hg.low
  case kernelDir => simpa using hg.kernelDir
  case dir => simpa using hg.dir
  case dirInj => exact hg.dirInj
  case cur => simpa using hg.cur

/-- A frame in hand goes back to its pool. -/
theorem Good.give (hg : Good L s S held) {f : Nat} (hf : held f) :
    Good L (setFrameBit L s f false) S fun g => held g ∧ g ≠ f := by
  have hframe := hg.heldPool f hf
  constructor
  case kernelLen => simpa using hg.kernelLen
  case userLen => simpa using hg.userLen
  case inj => simpa using hg.inj
  case heldOut =>
    intro x g hx hand
    rw [setFrameBit_mem] at hx
    exact hg.heldOut x g hx hand.1
  case inPool => simpa using hg.inPool
  case heldPool => exact fun g hand => hg.heldPool g hand.1
  case bit =>
    intro g hgf
    rw [frameBit_setFrameBit hframe hgf, setFrameBit_mem]
    by_cases h : g = f
    · subst h
      have hnone : ¬∃ x, slotFrame s.mem S x = some g := fun ⟨x, hx⟩ => hg.heldOut x g hx hf
      simp [hnone]
    · rw [if_neg h, hg.bit g hgf]
      simp [h]
  case low => simpa using hg.low
  case kernelDir => simpa using hg.kernelDir
  case dir => simpa using hg.dir
  case dirInj => exact hg.dirInj
  case cur => simpa using hg.cur

/-- What all address spaces share is the same in `m'`. -/
structure SameHalf (S : Spaces) (m m' : Phys) : Prop where
  kernel : ∀ d, 768 ≤ d → d < 1024 → m' kernelDir d = m kernelDir d
  dir : ∀ p sp d, S p = some sp → 768 ≤ d → d < 1024 → m' sp.dir d = m sp.dir d
  low : ∀ i, i < 256 → m' 0x101 i = m 0x101 i

theorem SameHalf.present_low {m m' : Phys} (h : SameHalf S m m')
    (hlow : ∀ i, i < 256 → Present (m 0x101 i)) : ∀ i, i < 256 → Present (m' 0x101 i) := by
  intro i hi
  rw [h.low i hi]
  exact hlow i hi

/-- A frame in hand is entered at a place where none was. -/
theorem Good.enter (hg : Good L s S held) {z : Slot} {f : Nat} {m' : Phys}
    (hnone : slotFrame s.mem S z = none) (hf : held f) (hpool : InPool L z f)
    (hslots : ∀ x, slotFrame m' S x = if x = z then some f else slotFrame s.mem S x)
    (hhalf : SameHalf S s.mem m') : Good L (s.setMem m') S fun g => held g ∧ g ≠ f := by
  have hother : ∀ x g, x ≠ z → slotFrame m' S x = some g → slotFrame s.mem S x = some g := by
    intro x g hx h
    rw [hslots, if_neg hx] at h
    exact h
  have hhere : ∀ g, slotFrame m' S z = some g → g = f := by
    intro g h
    rw [hslots, if_pos rfl] at h
    exact (Option.some.inj h).symm
  constructor
  case kernelLen => exact hg.kernelLen
  case userLen => exact hg.userLen
  case inj =>
    intro x y g hx hy
    by_cases hx0 : x = z
    · by_cases hy0 : y = z
      · rw [hx0, hy0]
      · subst hx0
        rw [hhere g hx] at hy
        exact absurd hf (hg.heldOut y f (hother y f hy0 hy))
    · by_cases hy0 : y = z
      · subst hy0
        rw [hhere g hy] at hx
        exact absurd hf (hg.heldOut x f (hother x f hx0 hx))
      · exact hg.inj x y g (hother x g hx0 hx) (hother y g hy0 hy)
  case heldOut =>
    intro x g hx hand
    by_cases hx0 : x = z
    · subst hx0
      exact hand.2 (hhere g hx)
    · exact hg.heldOut x g (hother x g hx0 hx) hand.1
  case inPool =>
    intro x g hx
    by_cases hx0 : x = z
    · subst hx0
      rw [hhere g hx]
      exact hpool
    · exact hg.inPool x g (hother x g hx0 hx)
  case heldPool => exact fun g hand => hg.heldPool g hand.1
  case bit =>
    intro g hgf
    refine (hg.bit g hgf).trans ⟨?_, ?_⟩
    · intro hor
      rcases hor with ⟨x, hx⟩ | hheld
      · have hx0 : x ≠ z := by
          intro heq
          subst heq
          rw [hnone] at hx
          cases hx
        exact Or.inl ⟨x, by rw [Mm.setMem_mem, hslots, if_neg hx0]; exact hx⟩
      · by_cases h : g = f
        · exact Or.inl ⟨z, by rw [Mm.setMem_mem, hslots, if_pos rfl, h]⟩
        · exact Or.inr ⟨hheld, h⟩
    · intro hor
      rcases hor with ⟨x, hx⟩ | hand
      · by_cases hx0 : x = z
        · subst hx0
          rw [hhere g hx]
          exact Or.inr hf
        · exact Or.inl ⟨x, hother x g hx0 hx⟩
      · exact Or.inr hand.1
  case low => exact hhalf.present_low hg.low
  case kernelDir => exact hg.kernelDir.congr hhalf.kernel
  case dir =>
    intro p sp hp
    obtain ⟨hk, k, hslot⟩ := hg.dir p sp hp
    refine ⟨hk.congr fun d => hhalf.dir p sp d hp, k, ?_⟩
    have hx0 : Slot.heap k ≠ z := by
      intro heq
      subst heq
      rw [hnone] at hslot
      cases hslot
    show slotFrame m' S (.heap k) = some sp.dir
    rw [hslots, if_neg hx0]
    exact hslot
  case dirInj => exact hg.dirInj
  case cur => exact hg.cur

/-- A frame that is no directory is taken out of its place. -/
theorem Good.leave (hg : Good L s S held) {z : Slot} {f : Nat} {m' : Phys}
    (hsome : slotFrame s.mem S z = some f) (hdir : ∀ p sp, S p = some sp → sp.dir ≠ f)
    (hslots : ∀ x, slotFrame m' S x = if x = z then none else slotFrame s.mem S x)
    (hhalf : SameHalf S s.mem m') : Good L (s.setMem m') S fun g => held g ∨ g = f := by
  have hother : ∀ x g, slotFrame m' S x = some g → x ≠ z ∧ slotFrame s.mem S x = some g := by
    intro x g h
    rw [hslots] at h
    split at h
    next => cases h
    next hx => exact ⟨hx, h⟩
  have hpool : L.IsFrame f := by
    have := hg.inPool z f hsome
    cases z with
    | heap => exact Or.inl this
    | table => exact Or.inl this
    | page => exact Or.inr this
  constructor
  case kernelLen => exact hg.kernelLen
  case userLen => exact hg.userLen
  case inj => exact fun x y g hx hy => hg.inj x y g (hother x g hx).2 (hother y g hy).2
  case heldOut =>
    intro x g hx hor
    rcases hor with hheld | rfl
    · exact hg.heldOut x g (hother x g hx).2 hheld
    · exact (hother x g hx).1 (hg.inj x z g (hother x g hx).2 hsome)
  case inPool => exact fun x g hx => hg.inPool x g (hother x g hx).2
  case heldPool =>
    intro g hor
    rcases hor with hheld | rfl
    · exact hg.heldPool g hheld
    · exact hpool
  case bit =>
    intro g hgf
    refine (hg.bit g hgf).trans ⟨?_, ?_⟩
    · intro hor
      rcases hor with ⟨x, hx⟩ | hheld
      · by_cases hx0 : x = z
        · subst hx0
          rw [hsome] at hx
          exact Or.inr (Or.inr (Option.some.inj hx).symm)
        · exact Or.inl ⟨x, by rw [Mm.setMem_mem, hslots, if_neg hx0]; exact hx⟩
      · exact Or.inr (Or.inl hheld)
    · intro hor
      rcases hor with ⟨x, hx⟩ | hheld | rfl
      · exact Or.inl ⟨x, (hother x g hx).2⟩
      · exact Or.inr hheld
      · exact Or.inl ⟨z, hsome⟩
  case low => exact hhalf.present_low hg.low
  case kernelDir => exact hg.kernelDir.congr hhalf.kernel
  case dir =>
    intro p sp hp
    obtain ⟨hk, k, hslot⟩ := hg.dir p sp hp
    refine ⟨hk.congr fun d => hhalf.dir p sp d hp, k, ?_⟩
    have hx0 : Slot.heap k ≠ z := by
      intro heq
      subst heq
      rw [hsome] at hslot
      exact hdir p sp hp (Option.some.inj hslot).symm
    show slotFrame m' S (.heap k) = some sp.dir
    rw [hslots, if_neg hx0]
    exact hslot
  case dirInj => exact hg.dirInj
  case cur => exact hg.cur

/-- A write that moves no frame. -/
theorem Good.keep (hg : Good L s S held) {m' : Phys}
    (hslots : ∀ x, slotFrame m' S x = slotFrame s.mem S x) (hhalf : SameHalf S s.mem m') :
    Good L (s.setMem m') S held := by
  constructor
  case kernelLen => exact hg.kernelLen
  case userLen => exact hg.userLen
  case inj => simpa only [Mm.setMem_mem, hslots] using hg.inj
  case heldOut => simpa only [Mm.setMem_mem, hslots] using hg.heldOut
  case inPool => simpa only [Mm.setMem_mem, hslots] using hg.inPool
  case heldPool => exact hg.heldPool
  case bit =>
    intro g hgf
    simp only [Mm.setMem_mem, hslots]
    exact hg.bit g hgf
  case low => exact hhalf.present_low hg.low
  case kernelDir => exact hg.kernelDir.congr hhalf.kernel
  case dir =>
    intro p sp hp
    obtain ⟨hk, k, hslot⟩ := hg.dir p sp hp
    exact ⟨hk.congr fun d => hhalf.dir p sp d hp, k, (hslots _).trans hslot⟩
  case dirInj => exact hg.dirInj
  case cur => exact hg.cur

/-- What is in hand, said in another way. -/
theorem Good.held_congr (hg : Good L s S held) {P : Nat → Prop}
    (h : ∀ f, P f ↔ held f) : Good L s S P := by
  have : P = held := funext fun f => propext (h f)
  rw [this]
  exact hg

/-! ## Writes -/

theorem SameHalf.trans {m m' m'' : Phys} (h1 : SameHalf S m m') (h2 : SameHalf S m' m'') :
    SameHalf S m m'' where
  kernel d hd hd' := (h2.kernel d hd hd').trans (h1.kernel d hd hd')
  dir p sp d hp hd hd' := (h2.dir p sp d hp hd hd').trans (h1.dir p sp d hp hd hd')
  low i hi := (h2.low i hi).trans (h1.low i hi)

/-- Writes to a frame of a pool that is no directory. -/
theorem SameHalf.of_frame {m m' : Phys} {f : Nat} (hf : 0x200 ≤ f)
    (hdir : ∀ p sp, S p = some sp → sp.dir ≠ f) (hm : ∀ g j, g ≠ f → m' g j = m g j) :
    SameHalf S m m' where
  kernel d _ _ := hm _ _ (by unfold Paging.kernelDir; omega)
  dir p sp d hp _ _ := hm _ _ (hdir p sp hp)
  low i _ := hm _ _ (by omega)

/-- A write to the lower part of a directory. -/
theorem Good.sameHalf_dir (hg : Good L s S held) {p d w : Nat} {sp : Space} (hp : S p = some sp)
    (hd : d < 768) : SameHalf S s.mem (s.mem.set sp.dir d w) where
  kernel e _ _ := by
    have := (hg.dir_kernel hp).1
    exact Phys.set_ne (Or.inl (by unfold Paging.kernelDir; omega))
  dir q sq e _ _ _ := Phys.set_ne (Or.inr (by omega))
  low i _ := by
    have := (hg.dir_kernel hp).1
    exact Phys.set_ne (Or.inl (by omega))

/-- A write to the entry of a heap page. -/
theorem Good.sameHalf_heap (hg : Good L s S held) {k w : Nat} (hk : k < heapMax) :
    SameHalf S s.mem (s.mem.set (heapTable k) ((0x100 + k) % 1024) w) where
  kernel d _ _ := by
    refine Phys.set_ne (Or.inl ?_)
    unfold Paging.kernelDir heapTable
    omega
  dir q sq e hq _ _ := by
    have := (hg.dir_kernel hq).1
    have := heapTable_lt hk
    exact Phys.set_ne (Or.inl (by omega))
  low i hi := by
    apply Phys.set_ne
    unfold heapTable
    omega

/-- Frames in hand and free frames are no directories. -/
theorem Good.dir_ne (hg : Good L s S held) {f : Nat} (hf : ∀ x, slotFrame s.mem S x ≠ some f)
    {p : Nat} {sp : Space} (hp : S p = some sp) : sp.dir ≠ f := by
  intro heq
  subst heq
  obtain ⟨-, k, hk⟩ := hg.dir p sp hp
  exact hf _ hk

/-- An entry of a table of a process. -/
theorem Good.slotFrame_page (hg : Good L s S held) {p d t i w : Nat}
    (ht : tableFrame s.mem S p d = some t) (hi : i < 1024) (x : Slot) :
    slotFrame (s.mem.set t i w) S x =
      if x = .page p (d * 1024 + i) then entryFrame w else slotFrame s.mem S x := by
  have htab : ∀ q e, tableFrame (s.mem.set t i w) S q e = tableFrame s.mem S q e := by
    intro q e
    unfold tableFrame
    cases hq : S q with
    | none => rfl
    | some sq =>
      simp only [Option.bind_some]
      rw [Phys.set_ne (Or.inl (hg.table_ne_dir ht hq).symm)]
  cases x with
  | heap k =>
    rw [if_neg (by simp)]
    simp only [slotFrame]
    split
    next hk =>
      have := heapTable_lt hk
      have := (hg.table_kernel ht).1
      exact congrArg entryFrame (Phys.set_ne (Or.inl (by omega)))
    next => rfl
  | table q e =>
    rw [if_neg (by simp)]
    exact htab q e
  | page q v =>
    show (tableFrame (s.mem.set t i w) S q (v / 1024)).bind _ = _
    rw [htab]
    simp only [slotFrame]
    cases hq : tableFrame s.mem S q (v / 1024) with
    | none =>
      have hne : Slot.page q v ≠ .page p (d * 1024 + i) := by
        intro h
        obtain ⟨rfl, rfl⟩ := Slot.page.inj h
        have hd : (d * 1024 + i) / 1024 = d := by omega
        rw [hd, ht] at hq
        cases hq
      rw [if_neg hne]
      rfl
    | some t' =>
      simp only [Option.bind_some, Slot.page.injEq]
      by_cases hx : q = p ∧ v = d * 1024 + i
      · obtain ⟨rfl, rfl⟩ := hx
        have hd : (d * 1024 + i) / 1024 = d := by omega
        have hr : (d * 1024 + i) % 1024 = i := by omega
        rw [hd, ht] at hq
        rw [if_pos ⟨rfl, rfl⟩, ← Option.some.inj hq, hr, Phys.set_same]
      · rw [if_neg hx, Phys.set_ne]
        by_cases htt : t' = t
        · -- the same table, so another entry of it
          subst htt
          have hsame := hg.inj (.table q (v / 1024)) (.table p d) t' hq ht
          simp only [Slot.table.injEq] at hsame
          obtain ⟨rfl, hv⟩ := hsame
          refine Or.inr fun hvi => hx ⟨rfl, ?_⟩
          omega
        · exact Or.inl htt

/-- A new table: its entry, and zeros in it. -/
theorem Good.slotFrame_table (hg : Good L s S held) {p d f : Nat} {sp : Space} (hp : S p = some sp)
    (ha : sp.alive = true) (hd : d < 768) (hnone : tableFrame s.mem S p d = none) (hf : 0x200 ≤ f)
    (hfree : ∀ x, slotFrame s.mem S x ≠ some f) (x : Slot) :
    slotFrame ((s.mem.set sp.dir d (entry (f * 4096))).clear f) S x =
      if x = .table p d then some f else slotFrame s.mem S x := by
  have htab : ∀ q e, tableFrame ((s.mem.set sp.dir d (entry (f * 4096))).clear f) S q e =
      if q = p ∧ e = d then some f else tableFrame s.mem S q e := by
    intro q e
    by_cases hqe : q = p ∧ e = d
    · obtain ⟨rfl, rfl⟩ := hqe
      rw [if_pos ⟨rfl, rfl⟩, tableFrame_eq hp ha hd, Phys.clear_ne (hg.dir_ne hfree hp),
        Phys.set_same, entryFrame_entry]
    · rw [if_neg hqe]
      unfold tableFrame
      cases hq : S q with
      | none => rfl
      | some sq =>
        simp only [Option.bind_some]
        rw [Phys.clear_ne (hg.dir_ne hfree hq), Phys.set_ne]
        by_cases hdir : sq.dir = sp.dir
        · exact Or.inr fun he => hqe ⟨hg.dirInj q p sq sp hq hp hdir, he⟩
        · exact Or.inl hdir
  cases x with
  | heap k =>
    rw [if_neg (by simp)]
    simp only [slotFrame]
    split
    next hk =>
      have := heapTable_lt hk
      have := (hg.dir_kernel hp).1
      apply congrArg entryFrame
      unfold heapWord
      rw [Phys.clear_ne (by omega), Phys.set_ne (Or.inl (by omega))]
    next => rfl
  | table q e =>
    simp only [slotFrame, htab, Slot.table.injEq]
  | page q v =>
    rw [if_neg (by simp)]
    simp only [slotFrame, htab]
    by_cases hqe : q = p ∧ v / 1024 = d
    · obtain ⟨rfl, rfl⟩ := hqe
      rw [if_pos ⟨rfl, rfl⟩, hnone, Option.bind_some, Phys.clear_same, entryFrame_zero]
      rfl
    · rw [if_neg hqe]
      cases hq : tableFrame s.mem S q (v / 1024) with
      | none => rfl
      | some t =>
        have htf : t ≠ f := fun h => hfree (.table q (v / 1024)) (h ▸ hq)
        simp only [Option.bind_some]
        rw [Phys.clear_ne htf, Phys.set_ne (Or.inl (hg.table_ne_dir hq hp))]

/-! ## `page_table_add` -/

/-- The directory's entry for the table of heap page `k`. -/
theorem KernelHalf.heap_entry {m : Phys} {dir k : Nat} (h : KernelHalf m dir) (hk : k < heapMax) :
    m dir (768 + (0x100 + k) / 1024) = entry (heapTable k * 4096) := by
  unfold heapMax at hk
  have hsub : 768 + (0x100 + k) / 1024 - 768 = (0x100 + k) / 1024 := by omega
  rw [h.tables _ (by omega) (by omega), hsub, heapTable]

/-- The frame of a heap page, in any address space. -/
theorem walk_heap {m : Phys} {dir k : Nat} (h : KernelHalf m dir) (hk : k < heapMax) :
    walk m dir (0xc0100 + k) = slotFrame m S (.heap k) := by
  have hd : (0xc0100 + k) / 1024 = 768 + (0x100 + k) / 1024 := by omega
  have hr : (0xc0100 + k) % 1024 = (0x100 + k) % 1024 := by omega
  unfold walk
  rw [hd, h.heap_entry hk, hr, if_pos (present_entry _), frameOf_entry]
  simp only [slotFrame, if_pos hk]
  rfl

/-- The frame of a page of a process, in its address space. -/
theorem walk_page {m : Phys} {p v : Nat} {sp : Space} (hp : S p = some sp) (ha : sp.alive = true)
    (hv : v < 768 * 1024) : walk m sp.dir v = slotFrame m S (.page p v) := by
  have hd : v / 1024 < 768 := by omega
  simp only [slotFrame, tableFrame_eq hp ha hd]
  unfold walk entryFrame
  by_cases h : Present (m sp.dir (v / 1024))
  · simp only [if_pos h, Option.bind_some]
  · simp only [if_neg h, Option.bind_none]

/-- The address of heap page `k`. -/
theorem heapAddr_div (k : Nat) : (kHeapStart + k * 4096) / 4096 = 0xc0100 + k := by
  unfold kHeapStart
  omega

/-- The indices in it. -/
theorem heapAddr_slices {k : Nat} (hk : k < heapMax) : kHeapStart + k * 4096 < 2 ^ 32 ∧
    (kHeapStart + k * 4096) / 0x400000 = 768 + (0x100 + k) / 1024 ∧
    (kHeapStart + k * 4096) / 4096 % 1024 = (0x100 + k) % 1024 := by
  unfold heapMax at hk
  unfold kHeapStart
  omega

/-- Word `j` of the page. -/
theorem heapAddr_word (k : Nat) {j : Nat} (hj : j < 1024) :
    (kHeapStart + k * 4096 + j * 4) / 4096 = 0xc0100 + k ∧
      (kHeapStart + k * 4096 + j * 4) % 4096 / 4 = j := by
  unfold kHeapStart
  omega

/-- **A frame in hand is entered for a heap page.** -/
theorem Good.addHeap (hg : Good L s S held) {k f : Nat} (hk : k < heapMax) (hf : held f)
    (hker : L.IsKernel f)
    (h : pageTableAdd (pallocFrom L) s (kHeapStart + k * 4096) (f * 4096) = some s') :
    slotFrame s.mem S (.heap k) = none ∧
      s' = s.setMem (s.mem.set (heapTable k) ((0x100 + k) % 1024) (entry (f * 4096))) ∧
      Good L s' S fun g => held g ∧ g ≠ f := by
  have hhalf := hg.self
  obtain ⟨hv, hd, hr⟩ := heapAddr_slices hk
  have htab : entryFrame (s.mem s.cr3 ((kHeapStart + k * 4096) / 0x400000)) = some (heapTable k) := by
    rw [hd, hhalf.heap_entry hk, entryFrame_entry]
  rcases pageTableAdd_cases hhalf.self hv h with ⟨t, ht, hnone, hstore⟩ | ⟨hno, -⟩
  · rw [htab] at ht
    obtain rfl := Option.some.inj ht
    rw [store_pte hhalf.self hv htab, hr] at hstore
    obtain rfl := Option.some.inj hstore
    rw [hr] at hnone
    have hslot : slotFrame s.mem S (.heap k) = none := by
      simp only [slotFrame, if_pos hk]
      exact hnone
    refine ⟨hslot, rfl, hg.enter hslot hf hker (fun x => ?_) (hg.sameHalf_heap hk)⟩
    rw [hg.slotFrame_heap hk, entryFrame_entry]
  · rw [htab] at hno
    cases hno

/-- What entering frame `f` for page `v` of process `p` changes. -/
structure AddedPage (S : Spaces) (p : Nat) (sp : Space) (v f : Nat) (s s' : Mm) : Prop where
  was : slotFrame s.mem S (.page p v) = none
  slot : slotFrame s'.mem S (.page p v) = some f
  other : ∀ x, x ≠ .page p v → x ≠ .table p (v / 1024) →
    slotFrame s'.mem S x = slotFrame s.mem S x
  table : ∃ t, slotFrame s'.mem S (.table p (v / 1024)) = some t ∧
    (slotFrame s.mem S (.table p (v / 1024)) = some t ∨
      slotFrame s.mem S (.table p (v / 1024)) = none ∧ ∀ x, slotFrame s.mem S x ≠ some t)
  data : ∀ g j, g ≠ sp.dir → slotFrame s'.mem S (.table p (v / 1024)) ≠ some g →
    s'.mem g j = s.mem g j
  cr3 : s'.cr3 = s.cr3
  kernelVaddr : s'.kernelVaddr = s.kernelVaddr
  userVaddr : s'.userVaddr = s.userVaddr

section

variable {p v : Nat} {sp : Space} (hp : S p = some sp) (ha : sp.alive = true)
  (hcur : s.cr3 = sp.dir) (hv : v < 768 * 1024)

include hp ha hcur hv

/-- The entry, in a table that is there. -/
theorem Good.addEntry (hg : Good L s S held) {f t : Nat} (hf : held f) (huser : L.IsUser f)
    (ht : tableFrame s.mem S p (v / 1024) = some t) (hnone : entryFrame (s.mem t (v % 1024)) = none)
    (h : s.store (ptePtr (v * 4096)) (entry (f * 4096)) = some s') :
    AddedPage S p sp v f s s' ∧ Good L s' S fun g => held g ∧ g ≠ f := by
  have hd : v * 4096 / 0x400000 = v / 1024 := by omega
  have hr : v * 4096 / 4096 % 1024 = v % 1024 := by omega
  have hvv : v / 1024 * 1024 + v % 1024 = v := by omega
  have hi : v % 1024 < 1024 := Nat.mod_lt _ (by decide)
  have hentry : entryFrame (s.mem s.cr3 (v * 4096 / 0x400000)) = some t := by
    rw [hd, hcur, ← tableFrame_eq hp ha (by omega)]
    exact ht
  rw [store_pte hg.self.self (by omega) hentry, hr] at h
  obtain rfl := Option.some.inj h
  have hslots : ∀ x, slotFrame (s.mem.set t (v % 1024) (entry (f * 4096))) S x =
      if x = .page p v then some f else slotFrame s.mem S x := by
    intro x
    rw [hg.slotFrame_page ht hi, hvv, entryFrame_entry]
  have hwas : slotFrame s.mem S (.page p v) = none := by
    simp only [slotFrame, ht, Option.bind_some]
    exact hnone
  have htable : slotFrame (s.mem.set t (v % 1024) (entry (f * 4096))) S (.table p (v / 1024)) =
      some t := by
    rw [hslots, if_neg (by simp)]
    exact ht
  refine ⟨⟨hwas, ?_, fun x hx _ => ?_, ⟨t, htable, Or.inl ht⟩, fun g j _ hgt => ?_, rfl, rfl, rfl⟩,
    hg.enter hwas hf huser hslots (.of_frame (hg.table_kernel ht).1 (fun q sq hq => ?_) ?_)⟩
  · rw [Mm.setMem_mem, hslots, if_pos rfl]
  · rw [Mm.setMem_mem, hslots, if_neg hx]
  · refine Phys.set_ne (Or.inl fun h => hgt ?_)
    rw [h]
    exact htable
  · exact (hg.table_ne_dir ht hq).symm
  · exact fun g j hgj => Phys.set_ne (Or.inl hgj)

/-- A table for it, where there was none. -/
theorem Good.newTable (hg : Good L s S held) {s1 s2 s3 : Mm} {r : Option Nat}
    (hno : tableFrame s.mem S p (v / 1024) = none)
    (hpal : pallocFrom L .kernel s = some (r, s1))
    (hstore : s1.store (pdePtr (v * 4096)) (entry (r.getD 0)) = some s2)
    (hclear : s2.clearPage (ptePtr (v * 4096)) = some s3) :
    ∃ g, (∀ x, slotFrame s.mem S x ≠ some g) ∧ (∀ j, s3.mem g j = 0) ∧
      (∀ x, slotFrame s3.mem S x = if x = .table p (v / 1024) then some g else slotFrame s.mem S x) ∧
      (∀ g' j, g' ≠ sp.dir → g' ≠ g → s3.mem g' j = s.mem g' j) ∧ s3.cr3 = s.cr3 ∧
      s3.kernelVaddr = s.kernelVaddr ∧ s3.userVaddr = s.userVaddr ∧ Good L s3 S held := by
  have hv32 : v * 4096 < 2 ^ 32 := by omega
  have hd : v * 4096 / 0x400000 = v / 1024 := by omega
  have hd768 : v / 1024 < 768 := by omega
  have hhalf := hg.self
  obtain ⟨g, rfl, hgk, hgfree, hgnheld, rfl, hg1⟩ := hg.take hpal
  have hgker : L.IsKernel g := hgk
  have hgdir : sp.dir ≠ g := hg.dir_ne hgfree hp
  have hself1 : SelfMapped (setFrameBit L s g true).mem (setFrameBit L s g true).cr3 := by
    rw [setFrameBit_mem, setFrameBit_cr3]
    exact hhalf.self
  have hs2 : s2 = (setFrameBit L s g true).setMem (s.mem.set sp.dir (v / 1024) (entry (g * 4096))) := by
    rw [Option.getD_some, store_pde hself1 hv32, setFrameBit_mem, setFrameBit_cr3, hd, hcur] at hstore
    exact (Option.some.inj hstore).symm
  have hmem2 : s2.mem = s.mem.set sp.dir (v / 1024) (entry (g * 4096)) := by rw [hs2]; rfl
  have hcr2 : s2.cr3 = sp.dir := by rw [hs2, Mm.setMem_cr3, setFrameBit_cr3, hcur]
  have hself2 : SelfMapped s2.mem s2.cr3 := by
    unfold SelfMapped
    rw [hmem2, hcr2, Phys.set_ne (Or.inr (by omega)), ← hcur]
    exact hhalf.self
  have hentry : entryFrame (s2.mem s2.cr3 (v * 4096 / 0x400000)) = some g := by
    rw [hd, hmem2, hcr2, Phys.set_same, entryFrame_entry]
  rw [clear_pte hself2 hv32 hentry, hmem2, hs2, Mm.setMem_setMem] at hclear
  have hs3 : s3 = (setFrameBit L s g true).setMem
      ((s.mem.set sp.dir (v / 1024) (entry (g * 4096))).clear g) := (Option.some.inj hclear).symm
  have hmem : s3.mem = (s.mem.set sp.dir (v / 1024) (entry (g * 4096))).clear g := by rw [hs3]; rfl
  have hslots := hg.slotFrame_table hp ha hd768 hno hgker.1 hgfree
  have hhalf2 : SameHalf S s.mem ((s.mem.set sp.dir (v / 1024) (entry (g * 4096))).clear g) := by
    have hfirst : SameHalf S s.mem (s.mem.set sp.dir (v / 1024) (entry (g * 4096))) :=
      hg.sameHalf_dir hp hd768
    refine hfirst.trans (.of_frame hgker.1 (fun q sq hq => hg.dir_ne hgfree hq) fun g' j hgj => ?_)
    exact Phys.clear_ne hgj
  rw [← hmem] at hslots hhalf2
  refine ⟨g, hgfree, fun j => ?_, hslots, fun g' j hdir hne => ?_, ?_, ?_, ?_, ?_⟩
  · rw [hmem, Phys.clear_same]
  · rw [hmem, Phys.clear_ne hne, Phys.set_ne (Or.inl hdir)]
  · rw [hs3, Mm.setMem_cr3, setFrameBit_cr3]
  · rw [hs3, Mm.setMem_kernelVaddr, setFrameBit_kernelVaddr]
  · rw [hs3, Mm.setMem_userVaddr, setFrameBit_userVaddr]
  · have hg2 : Good L ((setFrameBit L s g true).setMem s3.mem) S
        fun f => (held f ∨ f = g) ∧ f ≠ g := by
      refine hg1.enter (z := .table p (v / 1024)) ?_ (Or.inr rfl) hgker ?_ ?_
      · rw [setFrameBit_mem]
        exact hno
      · rw [setFrameBit_mem]
        exact hslots
      · rw [setFrameBit_mem]
        exact hhalf2
    rw [hmem, ← hs3] at hg2
    refine hg2.held_congr fun f => ⟨fun hf => ⟨Or.inl hf, fun h => hgnheld (h ▸ hf)⟩, ?_⟩
    intro hin
    obtain ⟨hf | hf, hne⟩ := hin
    · exact hf
    · exact absurd hf hne

/-- **A frame in hand is entered for a page of the process that runs.** -/
theorem Good.addPage (hg : Good L s S held) {f : Nat} (hf : held f) (huser : L.IsUser f)
    (h : pageTableAdd (pallocFrom L) s (v * 4096) (f * 4096) = some s') :
    AddedPage S p sp v f s s' ∧ Good L s' S fun g => held g ∧ g ≠ f := by
  have hd : v * 4096 / 0x400000 = v / 1024 := by omega
  have hr : v * 4096 / 4096 % 1024 = v % 1024 := by omega
  have htab : tableFrame s.mem S p (v / 1024) = entryFrame (s.mem s.cr3 (v * 4096 / 0x400000)) := by
    rw [tableFrame_eq hp ha (by omega), hd, hcur]
  rcases pageTableAdd_cases hg.self.self (by omega) h with
    ⟨t, ht, hnone, hstore⟩ | ⟨hno, r, s1, s2, s3, hpal, hpde, hclear, hstore⟩
  · rw [hr] at hnone
    exact hg.addEntry hp ha hcur hv hf huser (htab.trans ht) hnone hstore
  · obtain ⟨g, hgfree, hzero, hslots, hdata, hcr3, hkv, huv, hg3⟩ :=
      hg.newTable hp ha hcur hv (htab.trans hno) hpal hpde hclear
    have ht3 : tableFrame s3.mem S p (v / 1024) = some g := (hslots (.table p (v / 1024))).trans (if_pos rfl)
    obtain ⟨hadd, hgood⟩ := hg3.addEntry hp ha (hcr3.trans hcur) hv hf huser ht3
      (by rw [hzero, entryFrame_zero]) hstore
    have hpage : slotFrame s3.mem S (.page p v) = slotFrame s.mem S (.page p v) := by
      rw [hslots, if_neg (by simp)]
    have ht' : slotFrame s'.mem S (.table p (v / 1024)) = some g := by
      obtain ⟨t, ht, hor⟩ := hadd.table
      rcases hor with hor | ⟨hor, -⟩
      · rw [ht, ← hor]
        exact ht3
      · rw [show slotFrame s3.mem S (.table p (v / 1024)) = some g from ht3] at hor
        cases hor
    refine ⟨⟨?_, hadd.slot, fun x hx hx' => ?_, ⟨g, ht', Or.inr ⟨htab.trans hno, hgfree⟩⟩,
      fun g' j hg'd hg't => ?_, ?_, ?_, ?_⟩, hgood⟩
    · rw [← hpage]
      exact hadd.was
    · rw [hadd.other x hx hx', hslots, if_neg hx']
    · rw [hadd.data g' j hg'd hg't, hdata g' j hg'd fun h => hg't (h ▸ ht')]
    · rw [hadd.cr3, hcr3]
    · rw [hadd.kernelVaddr, hkv]
    · rw [hadd.userVaddr, huv]

end

end OsCore.Paging
