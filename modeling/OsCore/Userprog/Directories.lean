import OsCore.Kernel.AddressSpaces
import OsCore.Userprog.Fork

/-!
# Directories of processes (`create_page_dir`, `page_dir_activate`)

A directory is a page of the kernel's heap. `create_page_dir` copies the upper quarter
of the directory in use into it and enters the directory in itself; below `0xc0000000`
it is empty, as `get_kernel_pages` has filled it with zeros. So there is one more
address space than before, with nothing in it (`Good.newSpace`), and the kernel's part
of it is the same as in all others.

Which directory is in use does not matter for the book-keeping, as long as it is one
of them (`Good.setCr3`).
-/

namespace OsCore.Paging

open OsCore.Lib OsCore.Userprog

variable {L : Layout} {s s' : Mm} {S : Spaces} {held : Nat → Prop} {R : List (Nat × Nat)}

/-! ## Which directory is in use -/

theorem Good.setCr3 (hg : Good L s S held) {dir : Nat}
    (hdir : dir = Paging.kernelDir ∨ ∃ p sp, S p = some sp ∧ dir = sp.dir) :
    Good L { s with cr3 := dir } S held := hg.reuse s.kernelVaddr s.userVaddr hdir

/-- The address of a directory is not 0. -/
theorem heapAddr_ne_zero (k : Nat) : kHeapStart + k * 4096 ≠ 0 := by
  unfold kHeapStart
  omega

/-- `page_dir_activate` of a process loads the frame of its directory. -/
theorem Good.activate (hg : Good L s S held) {k dir : Nat} (hk : k < heapMax)
    (hslot : slotFrame s.mem S (.heap k) = some dir) :
    pageDirActivate s (kHeapStart + k * 4096) = some { s with cr3 := dir } := by
  have hdiv : dir * 4096 / 4096 = dir := by omega
  rw [pageDirActivate, if_neg (heapAddr_ne_zero k), hg.addrV2p_heap hk hslot, Option.bind_eq_bind,
    Option.bind_some, hdiv]
  rfl

/-- The directory in use is not the frame of a page. -/
theorem Good.cr3_ne (hg : Good L s S held) {f : Nat} (hf : 0x200 ≤ f) (hdir : NoDir S f) :
    s.cr3 ≠ f := by
  rcases hg.cur with hc | ⟨p, sp, hp, hc⟩
  · rw [hc]
    unfold Paging.kernelDir
    omega
  · rw [hc]
    exact hdir p sp hp

/-- A page of the heap that is mapped is a page of the heap. -/
theorem heap_mapped {m : Phys} {k f : Nat} (h : slotFrame m S (.heap k) = some f) : k < heapMax := by
  simp only [slotFrame] at h
  split at h
  next hk => exact hk
  next => cases h

/-- The pages of a new region were not mapped. -/
theorem Regions.was_none (h : Regions L s S held R) {S' : Spaces} {held' : Nat → Prop} {i n : Nat}
    (h' : Regions L s' S' held' ((i, n) :: R)) {k : Nat} (hk : InRegion k (i, n)) :
    slotFrame s.mem S (.heap k) = none := by
  cases hold : slotFrame s.mem S (.heap k) with
  | none => rfl
  | some f =>
    obtain ⟨r, hr, hin⟩ := (h.mapped k).mp ⟨f, hold⟩
    have hap := List.rel_of_pairwise_cons h'.apart hr
    unfold Apart at hap
    unfold InRegion at hin hk
    dsimp only at hap hk
    omega

/-- What was mapped before a request still is. -/
theorem Regions.keeps (h : Regions L s S held R) {i n : Nat} (hpages : NewPages S i n s s')
    (h' : Regions L s' S held ((i, n) :: R)) {x : Slot} {f : Nat}
    (hx : slotFrame s.mem S x = some f) : slotFrame s'.mem S x = some f := by
  by_cases hin : inRun i n x = true
  · cases x with
    | heap k =>
      rw [h.was_none h' (inRun_heap.mp hin)] at hx
      cases hx
    | table => cases hin
    | page => cases hin
  · rw [hpages.other x (by simpa using hin), hx]

/-- A store to a page of the heap. -/
theorem Good.store_heap (hg : Good L s S held) {k f : Nat}
    (hslot : slotFrame s.mem S (.heap k) = some f) {j : Nat} (hj : j < 1024) (w : Nat) :
    s.store (kHeapStart + k * 4096 + j * 4) w = some (s.setMem (s.mem.set f j w)) := by
  obtain ⟨hpage, hidx⟩ := heapAddr_word k hj
  rw [Mm.store_eq, storeWord, hpage, walk_heap (S := S) hg.self (heap_mapped hslot), hslot, hidx]
  rfl

/-! ## A new directory -/

/-- The upper quarter is copied word by word. -/
theorem Good.copyDir {k g : Nat} : ∀ {n j : Nat} {s : Mm}, Good L s S held → NoDir S g →
    slotFrame s.mem S (.heap k) = some g → 768 ≤ j → j + n = 1024 →
    ∃ m, copyWords (kHeapStart + k * 4096 + j * 4) (0xfffff000 + j * 4) n s = some (s.setMem m) ∧
      (∀ f i, f ≠ g → m f i = s.mem f i) ∧
      (∀ i, j ≤ i → i < 1024 → m g i = s.mem s.cr3 i) ∧ ∀ i, i < j → m g i = s.mem g i := by
  intro n
  induction n with
  | zero =>
    intro j s hg hdir hslot hj hjn
    refine ⟨s.mem, rfl, fun _ _ _ => rfl, fun i h1 h2 => ?_, fun _ _ => rfl⟩
    omega
  | succ n ih =>
    intro j s hg hdir hslot hj hjn
    have hk := heap_mapped hslot
    have hg2 : 0x200 ≤ g := (hg.inPool _ _ hslot).1
    have hcr3 := hg.cr3_ne hg2 hdir
    -- the source is the last page, the directory in use
    have hload : s.load (0xfffff000 + j * 4) = some (s.mem s.cr3 j) := by
      have hpage : (0xfffff000 + j * 4) / 4096 = 1023 * 1024 + 1023 := by omega
      have hidx : (0xfffff000 + j * 4) % 4096 / 4 = j := by omega
      rw [Mm.load, loadWord, hpage, walk_dir hg.self.self, hidx]
      rfl
    have hstore := hg.store_heap hslot (show j < 1024 by omega) (s.mem s.cr3 j)
    obtain ⟨hslots, hg1⟩ := hg.write (m := s.mem.set g j (s.mem s.cr3 j)) hslot (by simp) hdir
      fun f i hf => Phys.set_ne (Or.inl hf)
    have hdst : kHeapStart + k * 4096 + j * 4 + 4 = kHeapStart + k * 4096 + (j + 1) * 4 := by omega
    have hsrc : 0xfffff000 + j * 4 + 4 = 0xfffff000 + (j + 1) * 4 := by omega
    obtain ⟨m, hcopy, hother, hnew, hold⟩ :=
      ih (j := j + 1) hg1 hdir ((hslots _).trans hslot) (by omega) (by omega)
    refine ⟨m, ?_, fun f i hf => ?_, fun i h1 h2 => ?_, fun i hi => ?_⟩
    · rw [copyWords, Option.bind_eq_bind, Option.bind_eq_bind, hload, Option.bind_some, hstore,
        Option.bind_some, hdst, hsrc, hcopy, Mm.setMem_setMem]
    · rw [hother f i hf, Mm.setMem_mem, Phys.set_ne (Or.inl hf)]
    · by_cases hij : i = j
      · rw [hij, hold j (Nat.lt_succ_self j), Mm.setMem_mem, Phys.set_same]
      · rw [hnew i (by omega) h2, Mm.setMem_mem, Mm.setMem_cr3, Phys.set_ne (Or.inl hcr3)]
    · rw [hold i (by omega), Mm.setMem_mem, Phys.set_ne (Or.inr (by omega))]

/-- The same places and frames, told of other address spaces. -/
theorem Good.congrSpaces (hg : Good L s S held) {S' : Spaces}
    (hslots : ∀ x, slotFrame s.mem S' x = slotFrame s.mem S x)
    (hdir : ∀ p sp, S' p = some sp → KernelHalf s.mem sp.dir ∧
      ∃ k, slotFrame s.mem S' (.heap k) = some sp.dir)
    (hinj : ∀ p q a b, S' p = some a → S' q = some b → a.dir = b.dir → p = q)
    (hcur : s.cr3 = Paging.kernelDir ∨ ∃ p sp, S' p = some sp ∧ s.cr3 = sp.dir) : Good L s S' held where
  kernelLen := hg.kernelLen
  userLen := hg.userLen
  inj x y f hx hy := hg.inj x y f ((hslots x).symm.trans hx) ((hslots y).symm.trans hy)
  heldOut x f hx := hg.heldOut x f ((hslots x).symm.trans hx)
  inPool x f hx := hg.inPool x f ((hslots x).symm.trans hx)
  heldPool := hg.heldPool
  bit f hf := by
    simp only [hslots]
    exact hg.bit f hf
  low := hg.low
  kernelDir := hg.kernelDir
  dir := hdir
  dirInj := hinj
  cur := hcur

/-- An address space more, with nothing in it below `0xc0000000`. -/
def withSpace (S : Spaces) (c dir : Nat) : Spaces := Function.update S c (some ⟨dir, true⟩)

@[simp] theorem withSpace_same (S : Spaces) (c dir : Nat) : withSpace S c dir c = some ⟨dir, true⟩ :=
  Function.update_self ..

theorem withSpace_ne {c p : Nat} (h : p ≠ c) (dir : Nat) : withSpace S c dir p = S p :=
  Function.update_of_ne h ..

/-- The address spaces that are there: the new one and those before. -/
theorem withSpace_some {c dir p : Nat} {sp : Space} (h : withSpace S c dir p = some sp) :
    p = c ∧ sp = ⟨dir, true⟩ ∨ p ≠ c ∧ S p = some sp := by
  by_cases hpc : p = c
  · rw [hpc, withSpace_same] at h
    exact Or.inl ⟨hpc, (Option.some.inj h).symm⟩
  · rw [withSpace_ne hpc] at h
    exact Or.inr ⟨hpc, h⟩

theorem withSpace_slots {m : Phys} {c dir : Nat} (hnew : S c = none)
    (hempty : ∀ d, d < 768 → ¬Present (m dir d)) (x : Slot) :
    slotFrame m (withSpace S c dir) x = slotFrame m S x := by
  have htab : ∀ p d, tableFrame m (withSpace S c dir) p d = tableFrame m S p d := by
    intro p d
    by_cases hp : p = c
    · rw [hp, tableFrame, tableFrame, withSpace_same, hnew, Option.bind_some, Option.bind_none]
      split
      next h => exact entryFrame_eq_none.mpr (hempty d h.2)
      next => rfl
    · rw [tableFrame, tableFrame, withSpace_ne hp]
  cases x with
  | heap k => rfl
  | table p d => exact htab p d
  | page p v => simp only [slotFrame, htab]

theorem Good.newSpace (hg : Good L s S held) {c k dir : Nat} (hnew : S c = none)
    (hslot : slotFrame s.mem S (.heap k) = some dir) (hnodir : NoDir S dir)
    (hhalf : KernelHalf s.mem dir) (hempty : ∀ d, d < 768 → ¬Present (s.mem dir d)) :
    Good L s (withSpace S c dir) held := by
  have hslots := withSpace_slots hnew hempty
  refine hg.congrSpaces hslots (fun p sp hp => ?_) (fun p q a b hp hq hab => ?_) ?_
  · rcases withSpace_some hp with ⟨-, rfl⟩ | ⟨-, hp⟩
    · exact ⟨hhalf, k, (hslots _).trans hslot⟩
    · obtain ⟨h1, j, hj⟩ := hg.dir p sp hp
      exact ⟨h1, j, (hslots _).trans hj⟩
  · rcases withSpace_some hp with ⟨rfl, rfl⟩ | ⟨-, hp⟩
    · rcases withSpace_some hq with ⟨rfl, -⟩ | ⟨-, hq⟩
      · rfl
      · exact absurd hab.symm (hnodir q b hq)
    · rcases withSpace_some hq with ⟨-, rfl⟩ | ⟨-, hq⟩
      · exact absurd hab (hnodir p a hp)
      · exact hg.dirInj p q a b hp hq hab
  · rcases hg.cur with hc | ⟨p, sp, hp, hc⟩
    · exact Or.inl hc
    · have hpc : p ≠ c := by
        intro heq
        subst heq
        rw [hnew] at hp
        cases hp
      exact Or.inr ⟨p, sp, (withSpace_ne hpc dir).trans hp, hc⟩

/-- What `create_page_dir` makes of memory when it has got its page: heap page `i` is on
a new frame, with the kernel's part of the directory in use and nothing else in it. -/
structure MadeDir (S : Spaces) (i dir : Nat) (s s' : Mm) : Prop where
  slot : slotFrame s'.mem S (.heap i) = some dir
  was : slotFrame s.mem S (.heap i) = none
  free : ∀ x, slotFrame s.mem S x ≠ some dir
  other : ∀ x, x ≠ .heap i → slotFrame s'.mem S x = slotFrame s.mem S x
  empty : ∀ d, d < 768 → ¬Present (s'.mem dir d)
  data : ∀ f j, 0x200 ≤ f → f ≠ dir → s'.mem f j = s.mem f j
  cr3 : s'.cr3 = s.cr3
  userVaddr : s'.userVaddr = s.userVaddr

/-- `create_page_dir` once it has got its page, in frame `dir`. -/
structure FilledDir (dir : Nat) (s : Mm) (m : Phys) : Prop where
  other : ∀ f j, f ≠ dir → m f j = s.mem f j
  copied : ∀ j, 768 ≤ j → j < 1023 → m dir j = s.mem s.cr3 j
  self : m dir 1023 = entry (dir * 4096)
  low : ∀ j, j < 768 → m dir j = s.mem dir j

/-- A page is made a directory. -/
theorem Good.createPageDir_eq {s1 : Mm} {i dir : Nat} (hg : Good L s1 S held)
    (hpage : getKernelPages (pallocFrom L) s 1 = some (some (kHeapStart + i * 4096), s1))
    (hslot : slotFrame s1.mem S (.heap i) = some dir) (hnodir : NoDir S dir) :
    ∃ m, createPageDir (pallocFrom L) s = some (some (kHeapStart + i * 4096), s1.setMem m) ∧
      FilledDir dir s1 m := by
  obtain ⟨m2, hcopy, hother, hcopied, hlow⟩ := hg.copyDir (n := 256) hnodir hslot (Nat.le_refl 768) rfl
  obtain ⟨hslots, hg2⟩ := hg.write (m := m2) hslot (by simp) hnodir fun g j hg => hother g j hg
  have hslot2 : slotFrame (s1.setMem m2).mem S (.heap i) = some dir := (hslots _).trans hslot
  have hphy := hg2.addrV2p_heap (heap_mapped hslot) hslot2
  have hstore := hg2.store_heap hslot2 (show 1023 < 1024 by decide) (entry (dir * 4096))
  refine ⟨m2.set dir 1023 (entry (dir * 4096)), ?_, ⟨fun f j hf => ?_, fun j h1 h2 => ?_, ?_,
    fun j hj => ?_⟩⟩
  · rw [createPageDir, hpage]
    simp only [Option.bind_eq_bind, Option.bind_some, hcopy, hphy, hstore, Option.pure_def,
      Mm.setMem_setMem, Mm.setMem_mem]
  · rw [Phys.set_ne (Or.inl hf), hother f j hf]
  · rw [Phys.set_ne (Or.inr (by omega)), hcopied j h1 (by omega)]
  · exact Phys.set_same ..
  · rw [Phys.set_ne (Or.inr (by omega)), hlow j hj]

/-- **`create_page_dir`**: no page for it, or a new address space for `c`. -/
theorem Regions.createPageDir (h : Regions L s S held R) {c : Nat} (hnew : S c = none)
    {r : Option Nat} (hrun : createPageDir (pallocFrom L) s = some (r, s')) :
    (r = none ∧ s' = s) ∨ ∃ i dir, r = some (kHeapStart + i * 4096) ∧ MadeDir S i dir s s' ∧
      Regions L s' (withSpace S c dir) held ((i, 1) :: R) := by
  obtain ⟨⟨v, s1⟩, hpage, hend⟩ := Option.bind_eq_some_iff.mp hrun
  rcases h.getKernelPages hpage with ⟨rfl, rfl⟩ | ⟨i, rfl, hpages, h1⟩
  · simp only [Option.pure_def, Option.some.injEq, Prod.mk.injEq] at hend
    exact Or.inl ⟨hend.1.symm, hend.2.symm⟩
  · obtain ⟨dir, hslot1, hfree, hzero⟩ := hpages.now i (Nat.le_refl i) (Nat.lt_succ_self i)
    have hnodir : NoDir S dir := fun p sp hp => h.good.dir_ne hfree hp
    obtain ⟨m, hmake, hfilled⟩ := h1.good.createPageDir_eq hpage hslot1 hnodir
    rw [hmake] at hrun
    obtain ⟨rfl, rfl⟩ := Prod.mk.inj (Option.some.inj hrun)
    obtain ⟨hslots, hg⟩ := h1.good.write hslot1 (by simp) hnodir hfilled.other
    have hslot : slotFrame m S (.heap i) = some dir := (hslots _).trans hslot1
    have hempty : ∀ d, d < 768 → ¬Present (m dir d) := by
      intro d hd
      rw [hfilled.low d hd, hzero]
      decide
    have hhalf : KernelHalf m dir := by
      refine ⟨fun d hd1 hd2 => ?_, ?_⟩
      · rw [hfilled.copied d hd1 (by omega)]
        exact h1.good.self.tables d hd1 hd2
      · rw [SelfMapped, hfilled.self]
        exact ⟨present_entry _, frameOf_entry _⟩
    have hgood := hg.newSpace hnew hslot hnodir hhalf hempty
    have hwas : slotFrame s.mem S (.heap i) = none :=
      h.was_none h1 ⟨Nat.le_refl i, Nat.lt_succ_self i⟩
    refine Or.inr ⟨i, dir, rfl, ⟨hslot, hwas, hfree, fun x hx => ?_, hempty, fun f j hf hfd => ?_,
      hpages.cr3, hpages.userVaddr⟩, h1.congr hgood (fun k => ?_) rfl⟩
    · rw [Mm.setMem_mem, hslots, hpages.other x]
      cases x with
      | heap k =>
        rw [← Bool.not_eq_true, inRun_heap]
        intro hc
        exact hx (congrArg Slot.heap (by omega))
      | table => rfl
      | page => rfl
    · rw [Mm.setMem_mem, hfilled.other f j hfd, hpages.data f j hf]
      intro k hk1 hk2 hkf
      obtain rfl : k = i := by omega
      rw [hslot1] at hkf
      exact hfd (Option.some.inj hkf).symm
    · exact (withSpace_slots hnew hempty _).trans (hslots _)

/-- **`create_page_dir` comes back** when its page is granted, and asks for no more. -/
theorem Regions.createPageDir_returns (h : Regions L s S held R) {s1 : Mm} {v : Nat}
    (hpage : Paging.getKernelPages (pallocFrom L) s 1 = some (some v, s1)) :
    ∃ m, Userprog.createPageDir (pallocFrom L) s = some (some v, s1.setMem m) := by
  rcases h.getKernelPages hpage with ⟨hno, -⟩ | ⟨i, hv, hpages, h1⟩
  · cases hno
  obtain rfl := Option.some.inj hv
  obtain ⟨dir, hslot, hfree, -⟩ := hpages.now i (Nat.le_refl i) (Nat.lt_succ_self i)
  obtain ⟨m, hmake, -⟩ := h1.good.createPageDir_eq hpage hslot fun p sp hp => h.good.dir_ne hfree hp
  exact ⟨m, hmake⟩

end OsCore.Paging
