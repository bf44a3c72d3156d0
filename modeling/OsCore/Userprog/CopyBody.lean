import OsCore.Kernel.FreeFrames
import OsCore.Userprog.Directories
import OsCore.Userprog.UserView

/-!
# What `copy_body_stack3` copies (`userprog/fork.c`)

The child's pages are made one at a time. A page of the parent is copied to a buffer in
the kernel's heap, which is mapped in every address space; then the child's directory
is loaded, a page is asked for at the same address and filled from the buffer, and the
parent's directory is loaded again. Only the bits of the parent's bitmap say which
pages there are.

`Copying` is what holds between the rounds: the parent runs, and the directories and
the buffer are on their pages. One round maps one page of the child more, on a frame
that was free, with the bytes of the parent's page, and changes nothing else that is
named anywhere below `0xc0000000` (`Copying.one`). The rounds come to their end when
the pools have as many free frames as there are marked pages and tables for them
(`Copying.returns`).
-/

namespace OsCore.Userprog

open Lib Paging

variable {L : Layout} {S : Spaces} {s s' : Mm}

/-- Body of the inner loop of `copy_body_stack3`: the page at `progVaddr` is copied. -/
def copyOne (alloc : PoolFlags → Mm → Option (Option Nat × Mm))
    (bufPage childDir parentDir progVaddr : Nat) (s : Mm) : Option Mm := do
  let s ← s.copyPage bufPage progVaddr
  let s ← pageDirActivate s childDir
  let (_, s) ← getAPageWithoutOpvaddrbitmap alloc s progVaddr
  let s ← s.copyPage progVaddr bufPage
  pageDirActivate s parentDir

theorem copyBodyStack3_succ (alloc : PoolFlags → Mm → Option (Option Nat × Mm))
    (bufPage childDir parentDir n idx : Nat) (s : Mm) :
    copyBodyStack3 alloc bufPage childDir parentDir (n + 1) idx s =
      if s.userVaddr.bit idx = true then
        (copyOne alloc bufPage childDir parentDir (idx * 4096 + userVaddrStart) s).bind
          (copyBodyStack3 alloc bufPage childDir parentDir n (idx + 1))
      else copyBodyStack3 alloc bufPage childDir parentDir n (idx + 1) s := by
  rw [copyBodyStack3, Bitmap.bitmapScanTest_eq]
  simp only [copyOne, Option.bind_eq_bind, Option.bind_assoc]

/-! ## One page -/

/-- Parent and child, the heap pages of their directories and of the buffer, and the
frames of these. -/
structure Places where
  parent : Nat
  child : Nat
  parentPage : Nat
  childPage : Nat
  bufPage : Nat
  parentDir : Nat
  childDir : Nat
  buffer : Nat

/-- Between the rounds: the parent runs, and directories and buffer are in place. -/
structure Copying (L : Layout) (S : Spaces) (P : Places) (s : Mm) : Prop where
  good : Good L s S noFrame
  parent : S P.parent = some ⟨P.parentDir, true⟩
  child : S P.child = some ⟨P.childDir, true⟩
  ne : P.parent ≠ P.child
  cr3 : s.cr3 = P.parentDir
  parentPage : slotFrame s.mem S (.heap P.parentPage) = some P.parentDir
  childPage : slotFrame s.mem S (.heap P.childPage) = some P.childDir
  bufPage : slotFrame s.mem S (.heap P.bufPage) = some P.buffer
  noDir : NoDir S P.buffer

/-- What one round changes: page `v` of the child is on frame `g`, which was free, and
has the contents of frame `f`. -/
structure CopiedPage (L : Layout) (S : Spaces) (c v f g : Nat) (s s' : Mm) : Prop where
  was : slotFrame s.mem S (.page c v) = none
  slot : slotFrame s'.mem S (.page c v) = some g
  free : ∀ x, slotFrame s.mem S x ≠ some g
  other : ∀ x, x ≠ .page c v → x ≠ .table c (v / 1024) →
    slotFrame s'.mem S x = slotFrame s.mem S x
  table : tableFrame s'.mem S c (v / 1024) ≠ none
  same : ∀ j, s'.mem g j = s.mem f j
  data : ∀ h j, L.IsUser h → h ≠ g → s'.mem h j = s.mem h j
  userVaddr : s'.userVaddr = s.userVaddr
  kernelVaddr : s'.kernelVaddr = s.kernelVaddr
  freeUser : ∃ i, i ∈ s.userPool.free ∧ s'.userPool.free = s.userPool.free.erase i
  freeKernel : (tableFrame s.mem S c (v / 1024) ≠ none → s'.kernelPool.free = s.kernelPool.free) ∧
    (tableFrame s.mem S c (v / 1024) = none →
      ∃ i, i ∈ s.kernelPool.free ∧ s'.kernelPool.free = s.kernelPool.free.erase i)

/-- `memcpy` of a page, between frames that are known. -/
theorem copyPage_eq {dst src f g : Nat} (hsrc : walk s.mem s.cr3 (src / 4096) = some f)
    (hdst : walk s.mem s.cr3 (dst / 4096) = some g) :
    s.copyPage dst src = some (s.setMem (s.mem.copy g f)) := by
  rw [Mm.copyPage, hsrc, hdst]
  rfl

section

variable {P : Places} {v f : Nat}

/-- The child's directory is loaded, with the page in the buffer. -/
theorem Copying.toChild (h : Copying L S P s) (hv : v < 768 * 1024)
    (hf : slotFrame s.mem S (.page P.parent v) = some f) :
    ∃ s2 : Mm, (s.copyPage (kHeapStart + P.bufPage * 4096) (v * 4096)).bind
        (fun s => pageDirActivate s (kHeapStart + P.childPage * 4096)) = some s2 ∧
      Good L s2 S noFrame ∧ s2.cr3 = P.childDir ∧
      (∀ x, slotFrame s2.mem S x = slotFrame s.mem S x) ∧ (∀ j, s2.mem P.buffer j = s.mem f j) ∧
      (∀ g j, g ≠ P.buffer → s2.mem g j = s.mem g j) ∧ s2.userVaddr = s.userVaddr ∧
      s2.kernelVaddr = s.kernelVaddr ∧ s2.userPool = s.userPool ∧ s2.kernelPool = s.kernelPool := by
  have hbuf := heap_mapped h.bufPage
  have hsrc : walk s.mem s.cr3 (v * 4096 / 4096) = some f := by
    rw [Nat.mul_div_cancel _ (by decide), h.cr3]
    exact (walk_page h.parent rfl hv).trans hf
  have hdst : walk s.mem s.cr3 ((kHeapStart + P.bufPage * 4096) / 4096) = some P.buffer := by
    rw [heapAddr_div, walk_heap (S := S) h.good.self hbuf]
    exact h.bufPage
  obtain ⟨hslots, hg1⟩ := h.good.write (m := s.mem.copy P.buffer f) h.bufPage (by simp) h.noDir
    fun g j hg => Phys.copy_ne hg
  have hchild : slotFrame (s.setMem (s.mem.copy P.buffer f)).mem S (.heap P.childPage) =
      some P.childDir := (hslots _).trans h.childPage
  refine ⟨{ s.setMem (s.mem.copy P.buffer f) with cr3 := P.childDir }, ?_,
    hg1.setCr3 (Or.inr ⟨P.child, _, h.child, rfl⟩), rfl, hslots, fun j => Phys.copy_same .., ?_, rfl,
    rfl, rfl, rfl⟩
  · rw [copyPage_eq hsrc hdst, Option.bind_some, hg1.activate (heap_mapped h.childPage) hchild]
  · exact fun g j hg => Phys.copy_ne hg

/-- **One page is copied**, once the child has got a page for it. -/
theorem Copying.one (h : Copying L S P s) (hv : v < 768 * 1024)
    (hf : slotFrame s.mem S (.page P.parent v) = some f) :
    ∃ (s2 : Mm) (second : Mm → Option Mm), Good L s2 S noFrame ∧ s2.cr3 = P.childDir ∧
      (∀ x, slotFrame s2.mem S x = slotFrame s.mem S x) ∧ s2.userPool = s.userPool ∧
      s2.kernelPool = s.kernelPool ∧
      copyOne (pallocFrom L) (kHeapStart + P.bufPage * 4096) (kHeapStart + P.childPage * 4096)
          (kHeapStart + P.parentPage * 4096) (v * 4096) s =
        (getAPageWithoutOpvaddrbitmap (pallocFrom L) s2 (v * 4096)).bind (fun x => second x.2) ∧
      ∀ r s3, getAPageWithoutOpvaddrbitmap (pallocFrom L) s2 (v * 4096) = some (r, s3) →
        ∃ s' g, second s3 = some s' ∧ CopiedPage L S P.child v f g s s' ∧ Copying L S P s' := by
  obtain ⟨s2, hfirst, hg2, hcr2, hslots2, hbuf2, hdata2, huv2, hkv2, hup2, hkp2⟩ := h.toChild hv hf
  refine ⟨s2, fun s => (s.copyPage (v * 4096) (kHeapStart + P.bufPage * 4096)).bind
    fun s => pageDirActivate s (kHeapStart + P.parentPage * 4096), hg2, hcr2, hslots2, hup2, hkp2, ?_,
    fun r s3 hrun => ?_⟩
  · obtain ⟨s1, hs1, hs2⟩ := Option.bind_eq_some_iff.mp hfirst
    simp only [copyOne, Option.bind_eq_bind]
    rw [hs1, Option.bind_some, hs2, Option.bind_some]
  obtain ⟨g, -, hfree, hadd, hg3⟩ := hg2.getAPageWithoutOp h.child rfl hcr2 hv hrun
  have hguser : L.IsUser g := hg3.inPool _ g hadd.slot
  have hbufKernel : L.IsKernel P.buffer := h.good.inPool _ _ h.bufPage
  have hdirKernel : L.IsKernel P.childDir := h.good.inPool _ _ h.childPage
  have hgbuf : g ≠ P.buffer := by
    intro heq
    subst heq
    exact hfree _ ((hslots2 _).trans h.bufPage)
  have hheap : ∀ k, slotFrame s3.mem S (.heap k) = slotFrame s.mem S (.heap k) := fun k =>
    (hadd.other _ (by simp) (by simp)).trans (hslots2 _)
  -- the table of the page is neither the buffer nor a frame of the user pool
  obtain ⟨t, htab, -⟩ := hadd.table
  have htKernel : L.IsKernel t := hg3.inPool _ t htab
  have hbuf3 : ∀ j, s3.mem P.buffer j = s.mem f j := by
    intro j
    rw [hadd.data P.buffer j (fun hc => h.noDir _ _ h.child hc.symm) ?_, hbuf2]
    intro hc
    exact absurd (hg3.inj _ _ _ hc ((hheap _).trans h.bufPage)) (by simp)
  have huser3 : ∀ u j, L.IsUser u → s3.mem u j = s.mem u j := by
    intro u j hu
    have hu1 := hu.1
    have h1 := Layout.kernel_lt_user hbufKernel
    have h2 := Layout.kernel_lt_user hdirKernel
    have h3 := Layout.kernel_lt_user htKernel
    rw [hadd.data u j (show u ≠ P.childDir by omega) ?_, hdata2 u j (by omega)]
    rw [htab]
    intro hc
    have := Option.some.inj hc
    omega
  have hcr3 : s3.cr3 = P.childDir := hadd.cr3.trans hcr2
  have hsrc : walk s3.mem s3.cr3 ((kHeapStart + P.bufPage * 4096) / 4096) = some P.buffer := by
    rw [heapAddr_div, walk_heap (S := S) hg3.self (heap_mapped h.bufPage), hheap]
    exact h.bufPage
  have hdst : walk s3.mem s3.cr3 (v * 4096 / 4096) = some g := by
    rw [Nat.mul_div_cancel _ (by decide), hcr3]
    exact (walk_page h.child rfl hv).trans hadd.slot
  have hnodir : NoDir S g := by
    intro p sp hp hd
    obtain ⟨-, k, hk⟩ := hg3.dir p sp hp
    rw [hd] at hk
    exact absurd (hg3.inj _ _ _ hk hadd.slot) (by simp)
  obtain ⟨hslots4, hg4⟩ := hg3.write (m := s3.mem.copy g P.buffer) hadd.slot (by simp) hnodir
    fun u j hu => Phys.copy_ne hu
  have hparent4 : slotFrame (s3.setMem (s3.mem.copy g P.buffer)).mem S (.heap P.parentPage) =
      some P.parentDir := (hslots4 _).trans ((hheap _).trans h.parentPage)
  have hfreeUser := hadd.free_user hg2 hg3
  have hfreeKernel := hadd.free_kernel hg2 hg3
  have htable2 : tableFrame s2.mem S P.child (v / 1024) = tableFrame s.mem S P.child (v / 1024) :=
    hslots2 (.table P.child (v / 1024))
  rw [hup2] at hfreeUser
  rw [hkp2, htable2] at hfreeKernel
  refine ⟨{ s3.setMem (s3.mem.copy g P.buffer) with cr3 := P.parentDir }, g, ?_,
    ⟨(hslots2 _).symm.trans hadd.was, (hslots4 _).trans hadd.slot, fun x hx => hfree x ((hslots2 x).trans hx), fun x h1 h2 => ?_, ?_,
      fun j => ?_, fun u j hu hug => ?_, hadd.userVaddr.trans huv2,
      hadd.kernelVaddr.trans hkv2, hfreeUser, hfreeKernel⟩,
    ⟨hg4.setCr3 (Or.inr ⟨P.parent, _, h.parent, rfl⟩), h.parent, h.child, h.ne, rfl, hparent4,
      (hslots4 _).trans ((hheap _).trans h.childPage),
      (hslots4 _).trans ((hheap _).trans h.bufPage), h.noDir⟩⟩
  · beta_reduce
    rw [copyPage_eq hsrc hdst, Option.bind_some, hg4.activate (heap_mapped h.parentPage) hparent4]
  · exact (hslots4 x).trans ((hadd.other x h1 h2).trans (hslots2 x))
  · have htab4 : tableFrame (s3.mem.copy g P.buffer) S P.child (v / 1024) = some t :=
      (hslots4 (.table P.child (v / 1024))).trans htab
    show tableFrame (s3.mem.copy g P.buffer) S P.child (v / 1024) ≠ none
    rw [htab4]
    exact Option.some_ne_none t
  · show s3.mem.copy g P.buffer g j = s.mem f j
    rw [Phys.copy_same, hbuf3]
  · show s3.mem.copy g P.buffer u j = s.mem u j
    rw [Phys.copy_ne hug, huser3 u j hu]

/-- What a round does when it comes back. -/
theorem Copying.copied (h : Copying L S P s) (hv : v < 768 * 1024)
    (hrun : copyOne (pallocFrom L) (kHeapStart + P.bufPage * 4096) (kHeapStart + P.childPage * 4096)
      (kHeapStart + P.parentPage * 4096) (v * 4096) s = some s') :
    ∃ f g, slotFrame s.mem S (.page P.parent v) = some f ∧ CopiedPage L S P.child v f g s s' ∧
      Copying L S P s' := by
  -- the page is read, so it is there
  obtain ⟨f, hf⟩ : ∃ f, slotFrame s.mem S (.page P.parent v) = some f := by
    obtain ⟨s1, hcopy, -⟩ := Option.bind_eq_some_iff.mp hrun
    obtain ⟨f, hwalk, -⟩ := Option.bind_eq_some_iff.mp hcopy
    rw [Nat.mul_div_cancel _ (by decide), h.cr3] at hwalk
    exact ⟨f, (walk_page h.parent rfl hv).symm.trans hwalk⟩
  obtain ⟨s2, second, -, -, -, -, -, heq, hafter⟩ := h.one hv hf
  rw [heq] at hrun
  obtain ⟨⟨r, s3⟩, hpage, hsecond⟩ := Option.bind_eq_some_iff.mp hrun
  obtain ⟨t, g, ht, hcopied, hnext⟩ := hafter r s3 hpage
  rw [hsecond] at ht
  obtain rfl := Option.some.inj ht
  exact ⟨f, g, hf, hcopied, hnext⟩

/-- A round comes back when the child has no such page and there are frames. -/
theorem Copying.one_returns (h : Copying L S P s) (hv : v < 768 * 1024)
    (hf : slotFrame s.mem S (.page P.parent v) = some f)
    (hnone : slotFrame s.mem S (.page P.child v) = none) (huser : s.userPool.free.Nonempty)
    (hroom : tableFrame s.mem S P.child (v / 1024) = none → s.kernelPool.free.Nonempty) :
    ∃ s', copyOne (pallocFrom L) (kHeapStart + P.bufPage * 4096) (kHeapStart + P.childPage * 4096)
      (kHeapStart + P.parentPage * 4096) (v * 4096) s = some s' := by
  obtain ⟨s2, second, hg2, hcr2, hslots, hup, hkp, heq, hafter⟩ := h.one hv hf
  have htable : tableFrame s2.mem S P.child (v / 1024) = tableFrame s.mem S P.child (v / 1024) :=
    hslots (.table P.child (v / 1024))
  rw [← hslots] at hnone
  rw [← hup] at huser
  rw [← hkp, ← htable] at hroom
  obtain ⟨r, s3, hpage⟩ := hg2.getAPageWithoutOp_returns h.child rfl hcr2 hv hnone huser hroom
  obtain ⟨t, g, ht, -, -⟩ := hafter r s3 hpage
  refine ⟨t, ?_⟩
  rw [heq, hpage, Option.bind_some]
  exact ht

end

/-! ## All pages -/

/-- The page of bit `i`. -/
def progPage (i : Nat) : Nat := userVaddrStart / 4096 + i

theorem progPage_addr (i : Nat) : i * 4096 + userVaddrStart = progPage i * 4096 := by
  unfold progPage userVaddrStart
  omega

/-- The bits of the map are those of the pages up to `0xc0000000`. -/
theorem progPage_lt {i : Nat} (hi : i < 8 * userBitmapLen) : progPage i < 768 * 1024 := by
  have h8 : 8 * userBitmapLen = 753592 := by decide
  unfold progPage userVaddrStart
  omega

theorem progPage_inj {i j : Nat} (h : progPage i = progPage j) : i = j := by
  unfold progPage at h
  omega

/-- What the rounds for bits `idx` to `idx + n - 1` of bitmap `b` change: the child has
the marked pages, with the contents of the parent's. -/
structure CopiedBits (L : Layout) (S : Spaces) (P : Places) (b : Bitmap) (idx n : Nat) (s s' : Mm) :
    Prop where
  copy : ∀ i, idx ≤ i → i < idx + n → b.bit i = true →
    ∃ f g, slotFrame s.mem S (.page P.parent (progPage i)) = some f ∧
      slotFrame s'.mem S (.page P.child (progPage i)) = some g ∧ ∀ j, s'.mem g j = s.mem f j
  rest : ∀ v, (∀ i, idx ≤ i → i < idx + n → b.bit i = true → v ≠ progPage i) →
    slotFrame s'.mem S (.page P.child v) = slotFrame s.mem S (.page P.child v)
  other : ∀ x, x.of P.child = false → slotFrame s'.mem S x = slotFrame s.mem S x
  data : ∀ x h j, slotFrame s.mem S x = some h → L.IsUser h → s'.mem h j = s.mem h j
  userVaddr : s'.userVaddr = s.userVaddr
  kernelVaddr : s'.kernelVaddr = s.kernelVaddr
  copying : Copying L S P s'

section

variable {P : Places} {n idx : Nat}

theorem CopiedPage.other_of {c v f g : Nat} (h : CopiedPage L S c v f g s s') {x : Slot}
    (hx : x.of c = false) : slotFrame s'.mem S x = slotFrame s.mem S x := by
  refine h.other x ?_ ?_
  · intro heq
    subst heq
    simp [Slot.of] at hx
  · intro heq
    subst heq
    simp [Slot.of] at hx

theorem Copying.page_of_parent (h : Copying L S P s) (v : Nat) :
    (Slot.page P.parent v).of P.child = false := by
  have hne := h.ne
  simpa [Slot.of] using hne

/-- **What `copy_body_stack3` does when it comes back**, by induction on the bits that
are left. -/
theorem Copying.copyBits (hlen : idx + n ≤ 8 * userBitmapLen) (h : Copying L S P s)
    (hrun : copyBodyStack3 (pallocFrom L) (kHeapStart + P.bufPage * 4096)
      (kHeapStart + P.childPage * 4096) (kHeapStart + P.parentPage * 4096) n idx s = some s') :
    CopiedBits L S P s.userVaddr idx n s s' := by
  induction n generalizing idx s with
  | zero =>
    obtain rfl := Option.some.inj hrun
    exact ⟨fun i h1 h2 => absurd h2 (by omega), fun _ _ => rfl, fun _ _ => rfl,
      fun _ _ _ _ _ => rfl, rfl, rfl, h⟩
  | succ n ih =>
    rw [copyBodyStack3_succ] at hrun
    split at hrun
    next hbit =>
      obtain ⟨s1, hone, hrun⟩ := Option.bind_eq_some_iff.mp hrun
      rw [progPage_addr] at hone
      obtain ⟨f0, g0, hf0, hcopied, h1⟩ := h.copied (progPage_lt (by omega)) hone
      have hparent : ∀ v, slotFrame s1.mem S (.page P.parent v) =
          slotFrame s.mem S (.page P.parent v) := fun v =>
        hcopied.other_of (h.page_of_parent v)
      have hall := ih (by omega) h1 hrun
      rw [hcopied.userVaddr] at hall
      have hg0 : L.IsUser g0 := h1.good.inPool _ g0 hcopied.slot
      -- frames that were named are not the new one
      have hdata : ∀ x u j, slotFrame s.mem S x = some u → L.IsUser u → s1.mem u j = s.mem u j := by
        intro x u j hx hu
        apply hcopied.data u j hu
        intro heq
        subst heq
        exact hcopied.free x hx
      have hchild : ∀ v, v ≠ progPage idx → slotFrame s1.mem S (.page P.child v) =
          slotFrame s.mem S (.page P.child v) := fun v hv =>
        hcopied.other _ (by simpa using hv) (by simp)
      refine ⟨fun i hi1 hi2 hb => ?_, fun v hv => ?_, fun x hx => ?_, fun x u j hx hu => ?_,
        hall.userVaddr.trans hcopied.userVaddr, hall.kernelVaddr.trans hcopied.kernelVaddr,
        hall.copying⟩
      · by_cases hi : i = idx
        · subst hi
          refine ⟨f0, g0, hf0, ?_, fun j => ?_⟩
          · rw [hall.rest _ fun k hk1 hk2 _ hc => ?_, hcopied.slot]
            have := progPage_inj hc
            omega
          · rw [hall.data _ g0 j hcopied.slot hg0, hcopied.same]
        · obtain ⟨f, g, hf, hg, hsame⟩ := hall.copy i (by omega) (by omega) hb
          rw [hparent] at hf
          have hfu : L.IsUser f := h.good.inPool _ f hf
          exact ⟨f, g, hf, hg, fun j => (hsame j).trans (hdata _ f j hf hfu)⟩
      · rw [hall.rest v fun i h1 h2 hb => hv i (by omega) (by omega) hb,
          hchild v (hv idx (Nat.le_refl idx) (by omega) hbit)]
      · exact (hall.other x hx).trans (hcopied.other_of hx)
      · have hx1 : slotFrame s1.mem S x = some u := by
          rw [hcopied.other x ?_ ?_, hx]
          · intro heq
            subst heq
            rw [hcopied.was] at hx
            cases hx
          · intro heq
            subst heq
            have hker : L.IsKernel u := h.good.inPool _ u hx
            have := Layout.kernel_lt_user hker
            have := hu.1
            omega
        rw [hall.data x u j hx1 hu, hdata x u j hx hu]
    next hbit =>
      have hall := ih (by omega) h hrun
      refine ⟨fun i hi1 hi2 hb => ?_, fun v hv => ?_, hall.other, hall.data, hall.userVaddr,
        hall.kernelVaddr, hall.copying⟩
      · by_cases hi : i = idx
        · rw [hi] at hb
          exact absurd hb hbit
        · exact hall.copy i (by omega) (by omega) hb
      · exact hall.rest v fun i h1 h2 => hv i (by omega) (by omega)

/-! ## Enough frames -/

/-- The bits from `idx` on that are set, of `n`. -/
def marks (b : Bitmap) (idx n : Nat) : Finset Nat :=
  (Finset.Ico idx (idx + n)).filter fun i => b.bit i = true

theorem mem_marks {b : Bitmap} {i : Nat} :
    i ∈ marks b idx n ↔ (idx ≤ i ∧ i < idx + n) ∧ b.bit i = true := by
  rw [marks, Finset.mem_filter, Finset.mem_Ico]

theorem marks_erase {b : Bitmap} :
    marks b (idx + 1) n = (marks b idx (n + 1)).erase idx := by
  ext i
  rw [Finset.mem_erase, mem_marks, mem_marks]
  constructor
  · intro hin
    obtain ⟨hi, hb⟩ := hin
    exact ⟨by omega, by omega, hb⟩
  · intro hin
    obtain ⟨hne, hi, hb⟩ := hin
    exact ⟨by omega, hb⟩

theorem marks_clear {b : Bitmap} (h : ¬b.bit idx = true) :
    marks b (idx + 1) n = marks b idx (n + 1) := by
  ext i
  rw [mem_marks, mem_marks]
  constructor
  · intro hin
    obtain ⟨hi, hb⟩ := hin
    exact ⟨by omega, hb⟩
  · intro hin
    obtain ⟨hi, hb⟩ := hin
    have hne : i ≠ idx := by
      intro heq
      subst heq
      exact h hb
    exact ⟨by omega, hb⟩

/-- The tables for these pages that process `c` does not have yet. -/
def missing (m : Phys) (S : Spaces) (c : Nat) (b : Bitmap) (idx n : Nat) : Finset Nat :=
  ((marks b idx n).image fun i => progPage i / 1024).filter fun d => tableFrame m S c d = none

theorem mem_missing {m : Phys} {c : Nat} {b : Bitmap} {d : Nat} : d ∈ missing m S c b idx n ↔
    (∃ i ∈ marks b idx n, progPage i / 1024 = d) ∧ tableFrame m S c d = none := by
  rw [missing, Finset.mem_filter, Finset.mem_image]

/-- **`copy_body_stack3` comes back**, as long as no pool runs out of frames. -/
theorem Copying.returns (hlen : idx + n ≤ 8 * userBitmapLen) (h : Copying L S P s)
    (hmapped : ∀ i ∈ marks s.userVaddr idx n,
      ∃ f, slotFrame s.mem S (.page P.parent (progPage i)) = some f)
    (hnew : ∀ i ∈ marks s.userVaddr idx n, slotFrame s.mem S (.page P.child (progPage i)) = none)
    (huser : (marks s.userVaddr idx n).card ≤ s.userPool.free.card)
    (hkernel : (missing s.mem S P.child s.userVaddr idx n).card ≤ s.kernelPool.free.card) :
    ∃ s', copyBodyStack3 (pallocFrom L) (kHeapStart + P.bufPage * 4096)
      (kHeapStart + P.childPage * 4096) (kHeapStart + P.parentPage * 4096) n idx s = some s' := by
  induction n generalizing idx s with
  | zero => exact ⟨s, rfl⟩
  | succ n ih =>
    rw [copyBodyStack3_succ]
    split
    next hbit =>
      have hidx : idx ∈ marks s.userVaddr idx (n + 1) := mem_marks.mpr ⟨by omega, hbit⟩
      obtain ⟨f, hf⟩ := hmapped idx hidx
      have hv : progPage idx < 768 * 1024 := progPage_lt (by omega)
      have hroom : tableFrame s.mem S P.child (progPage idx / 1024) = none →
          s.kernelPool.free.Nonempty := by
        intro hnone
        have hmem : progPage idx / 1024 ∈ missing s.mem S P.child s.userVaddr idx (n + 1) :=
          mem_missing.mpr ⟨⟨idx, hidx, rfl⟩, hnone⟩
        exact Finset.card_pos.mp ((Finset.card_pos.mpr ⟨_, hmem⟩).trans_le hkernel)
      have hsome : s.userPool.free.Nonempty :=
        Finset.card_pos.mp ((Finset.card_pos.mpr ⟨_, hidx⟩).trans_le huser)
      obtain ⟨s1, hone⟩ := h.one_returns hv hf (hnew idx hidx) hsome hroom
      obtain ⟨_, g, -, hcopied, h1⟩ := h.copied hv hone
      rw [progPage_addr, hone, Option.bind_some]
      have hsub : ∀ i ∈ marks s.userVaddr (idx + 1) n, i ≠ idx ∧ i ∈ marks s.userVaddr idx (n + 1) := by
        intro i hi
        rw [marks_erase, Finset.mem_erase] at hi
        exact hi
      have htables : ∀ d, d ≠ progPage idx / 1024 →
          tableFrame s1.mem S P.child d = tableFrame s.mem S P.child d := fun d hd =>
        hcopied.other (.table P.child d) (by simp) (by simpa using hd)
      have hgone : missing s1.mem S P.child s.userVaddr (idx + 1) n ⊆
          (missing s.mem S P.child s.userVaddr idx (n + 1)).erase (progPage idx / 1024) := by
        intro d hd
        obtain ⟨⟨i, hi, hid⟩, hnone⟩ := mem_missing.mp hd
        have hne : d ≠ progPage idx / 1024 := by
          intro heq
          subst heq
          exact hcopied.table hnone
        rw [htables d hne] at hnone
        exact Finset.mem_erase.mpr ⟨hne, mem_missing.mpr ⟨⟨i, (hsub i hi).2, hid⟩, hnone⟩⟩
      refine ih (by omega) h1 (fun i hi => ?_) (fun i hi => ?_) ?_ ?_
      · rw [hcopied.userVaddr] at hi
        rw [hcopied.other_of (h.page_of_parent _)]
        exact hmapped i (hsub i hi).2
      · rw [hcopied.userVaddr] at hi
        have hne : progPage i ≠ progPage idx := fun hc => (hsub i hi).1 (progPage_inj hc)
        rw [hcopied.other _ (by simpa using hne) (by simp)]
        exact hnew i (hsub i hi).2
      · obtain ⟨j, hj, herase⟩ := hcopied.freeUser
        rw [hcopied.userVaddr, marks_erase, Finset.card_erase_of_mem hidx, herase,
          Finset.card_erase_of_mem hj]
        omega
      · rw [hcopied.userVaddr]
        refine (Finset.card_le_card hgone).trans ?_
        by_cases hnone : tableFrame s.mem S P.child (progPage idx / 1024) = none
        · obtain ⟨j, hj, herase⟩ := hcopied.freeKernel.2 hnone
          have hmem : progPage idx / 1024 ∈ missing s.mem S P.child s.userVaddr idx (n + 1) :=
            mem_missing.mpr ⟨⟨idx, hidx, rfl⟩, hnone⟩
          rw [Finset.card_erase_of_mem hmem, herase, Finset.card_erase_of_mem hj]
          omega
        · rw [hcopied.freeKernel.1 hnone]
          exact (Finset.card_erase_le).trans hkernel
    next hbit =>
      rw [← marks_clear hbit] at hmapped hnew huser
      apply ih (by omega) h hmapped hnew huser
      rw [missing, marks_clear hbit]
      exact hkernel

end

/-! ## The call -/

/-- Below `0xc0000000` directory `childDir` is a copy of what `parentDir` was, as far as
pages are marked, and `parentDir` is what it was. -/
structure Copied (parentDir childDir : Nat) (s s' : Mm) : Prop where
  pages : ∀ v, v < 768 * 1024 → ((walk s'.mem childDir v).isSome = true ↔
    ∃ i, v = progPage i ∧ s.userVaddr.bit i = true)
  apart : ∀ v w f, v < 768 * 1024 → w < 768 * 1024 → walk s'.mem childDir v = some f →
    walk s'.mem parentDir w ≠ some f
  contents : ∀ v f g, v < 768 * 1024 → walk s.mem parentDir v = some f →
    walk s'.mem childDir v = some g → ∀ j, s'.mem g j = s.mem f j
  parentPages : ∀ v, v < 768 * 1024 → walk s'.mem parentDir v = walk s.mem parentDir v
  parentData : ∀ v f j, v < 768 * 1024 → walk s.mem parentDir v = some f → s'.mem f j = s.mem f j

/-- The pools have a frame for each marked page, and for each table of one. -/
structure EnoughFrames (s : Mm) : Prop where
  user : (marks s.userVaddr 0 (8 * userBitmapLen)).card ≤ s.userPool.free.card
  kernel : ((marks s.userVaddr 0 (8 * userBitmapLen)).image fun i => progPage i / 1024).card ≤
    s.kernelPool.free.card

/-- The whole loop, for a child that has nothing yet. -/
theorem CopiedBits.whole {P : Places} (h : Copying L S P s)
    (hempty : ∀ v, slotFrame s.mem S (.page P.child v) = none)
    (hall : CopiedBits L S P s.userVaddr 0 (8 * userBitmapLen) s s') :
    Copied P.parentDir P.childDir s s' := by
  have hparent : ∀ v, slotFrame s'.mem S (.page P.parent v) = slotFrame s.mem S (.page P.parent v) :=
    fun v => hall.other _ (h.page_of_parent v)
  have hp : ∀ {m : Phys} {v}, v < 768 * 1024 →
      walk m P.parentDir v = slotFrame m S (.page P.parent v) := walk_page h.parent rfl
  have hc : ∀ {m : Phys} {v}, v < 768 * 1024 →
      walk m P.childDir v = slotFrame m S (.page P.child v) := walk_page h.child rfl
  have hmarked : ∀ {v g}, v < 768 * 1024 → slotFrame s'.mem S (.page P.child v) = some g →
      ∃ i, v = progPage i ∧ i ∈ marks s.userVaddr 0 (8 * userBitmapLen) := by
    intro v g hv hg
    by_contra hno
    rw [hall.rest v, hempty] at hg
    · cases hg
    · intro i h1 h2 hb heq
      subst heq
      exact hno ⟨i, rfl, mem_marks.mpr ⟨⟨h1, h2⟩, hb⟩⟩
  constructor
  case pages =>
    intro v hv
    rw [hc hv]
    constructor
    · intro hsome
      obtain ⟨g, hg⟩ := Option.isSome_iff_exists.mp hsome
      obtain ⟨i, hi, hmem⟩ := hmarked hv hg
      exact ⟨i, hi, (mem_marks.mp hmem).2⟩
    · intro hin
      obtain ⟨i, rfl, hb⟩ := hin
      have hi : i < 8 * userBitmapLen := by
        have h8 : 8 * userBitmapLen = 753592 := by decide
        unfold progPage userVaddrStart at hv
        omega
      obtain ⟨f, g, -, hg, -⟩ := hall.copy i (Nat.zero_le i) (by omega) hb
      rw [hg]
      rfl
  case apart =>
    intro v w f hv hw hvf hwf
    rw [hc hv] at hvf
    rw [hp hw] at hwf
    have := hall.copying.good.inj _ _ f hvf hwf
    exact h.ne (Slot.page.inj this).1.symm
  case contents =>
    intro v f g hv hf hg j
    rw [hp hv] at hf
    rw [hc hv] at hg
    obtain ⟨i, rfl, hmem⟩ := hmarked hv hg
    obtain ⟨hi, hb⟩ := mem_marks.mp hmem
    obtain ⟨f', g', hf', hg', hsame⟩ := hall.copy i hi.1 hi.2 hb
    rw [hf'] at hf
    rw [hg'] at hg
    obtain rfl := Option.some.inj hf
    obtain rfl := Option.some.inj hg
    exact hsame j
  case parentPages =>
    intro v hv
    rw [hp hv, hp hv, hparent]
  case parentData =>
    intro v f j hv hf
    rw [hp hv] at hf
    exact hall.data _ f j hf (h.good.inPool _ f hf)

/-- **`sys_fork` copies the address space.** Parent `q` runs, its bitmap marks mapped
pages only, and buffer, bitmap and directory of the child have been granted. Then
`copy_body_stack3` leaves the child with a copy of just the marked pages, and it comes
back when the pools have frames for them. -/
theorem fork_copies_address_space {q c kq : Nat} {sq : Space} {R : List (Nat × Nat)} {s s1 s2 s3 : Mm}
    {buf bits dir : Nat} (hruns : Runs L S q sq s) (hregions : Regions L s S noFrame R)
    (hpgdir : slotFrame s.mem S (.heap kq) = some sq.dir) (hnew : S c = none)
    (hmarked : ∀ i, i < 8 * userBitmapLen → s.userVaddr.bit i = true →
      (walk s.mem s.cr3 (progPage i)).isSome = true)
    (hbuf : getKernelPages (pallocFrom L) s 1 = some (some buf, s1))
    (hbits : getKernelPages (pallocFrom L) s1 bitmapPgCnt = some (some bits, s2))
    (hdir : createPageDir (pallocFrom L) s2 = some (some dir, s3)) :
    ∃ childDir, addrV2p s3 dir = some (childDir * 4096) ∧ s3.userVaddr = s.userVaddr ∧
      (∀ s', copyBodyStack3 (pallocFrom L) buf dir (kHeapStart + kq * 4096)
        (8 * s3.userVaddr.bytesLen) 0 s3 = some s' → Copied sq.dir childDir s3 s') ∧
      (EnoughFrames s3 → ∃ s', copyBodyStack3 (pallocFrom L) buf dir (kHeapStart + kq * 4096)
        (8 * s3.userVaddr.bytesLen) 0 s3 = some s') := by
  rcases hregions.getKernelPages hbuf with ⟨hno, -⟩ | ⟨kb, hkb, hnew1, h1⟩
  · cases hno
  obtain rfl := Option.some.inj hkb
  rcases h1.getKernelPages hbits with ⟨hno, -⟩ | ⟨ki, -, hnew2, h2⟩
  · cases hno
  rcases h2.createPageDir hnew hdir with ⟨hno, -⟩ | ⟨kc, childDir, hkc, hmade, h3⟩
  · cases hno
  obtain rfl := Option.some.inj hkc
  obtain ⟨fb, hfb1, hfresh, -⟩ := hnew1.now kb (Nat.le_refl kb) (Nat.lt_succ_self kb)
  have hqc : q ≠ c := by
    intro heq
    subst heq
    rw [hruns.space] at hnew
    cases hnew
  have hparent : S q = some ⟨sq.dir, true⟩ := by
    rw [← hruns.alive]
    exact hruns.space
  -- what was mapped before the three requests still is
  have hkeep2 : ∀ {x f}, slotFrame s1.mem S x = some f → slotFrame s2.mem S x = some f :=
    fun hx => h1.keeps hnew2 h2 hx
  have hkeep3 : ∀ {x f}, slotFrame s2.mem S x = some f →
      slotFrame s3.mem (withSpace S c childDir) x = some f := by
    intro x f hx
    rw [withSpace_slots hnew hmade.empty, hmade.other x, hx]
    intro heq
    subst heq
    rw [hmade.was] at hx
    cases hx
  have hkeep : ∀ {x f}, slotFrame s.mem S x = some f →
      slotFrame s3.mem (withSpace S c childDir) x = some f :=
    fun hx => hkeep3 (hkeep2 (hregions.keeps hnew1 h1 hx))
  have huv : s3.userVaddr = s.userVaddr :=
    hmade.userVaddr.trans (hnew2.userVaddr.trans hnew1.userVaddr)
  have hbuffer := hkeep2 hfb1
  obtain ⟨P, hP⟩ : ∃ P : Places, P = ⟨q, c, kq, kc, kb, sq.dir, childDir, fb⟩ := ⟨_, rfl⟩
  have hcopying : Copying L (withSpace S c childDir) P s3 := by
    subst hP
    refine ⟨h3.good, (withSpace_ne hqc _).trans hparent, withSpace_same S c childDir, hqc, ?_,
      hkeep hpgdir, ?_, hkeep3 hbuffer, fun p sp hp hd => ?_⟩
    · exact hmade.cr3.trans (hnew2.cr3.trans (hnew1.cr3.trans hruns.cr3))
    · exact (withSpace_slots hnew hmade.empty _).trans hmade.slot
    · rcases withSpace_some hp with ⟨-, rfl⟩ | ⟨-, hp⟩
      · replace hd : childDir = fb := hd
        rw [← hd] at hbuffer
        exact hmade.free _ hbuffer
      · exact hregions.good.dir_ne hfresh hp hd
  have hempty : ∀ v, slotFrame s3.mem (withSpace S c childDir) (.page c v) = none := by
    intro v
    rw [withSpace_slots hnew hmade.empty, slotFrame, tableFrame, hnew]
    rfl
  have hmapped : ∀ i ∈ marks s3.userVaddr 0 (8 * userBitmapLen),
      ∃ f, slotFrame s3.mem (withSpace S c childDir) (.page q (progPage i)) = some f := by
    intro i hi
    obtain ⟨⟨-, hi⟩, hb⟩ := mem_marks.mp hi
    rw [Nat.zero_add] at hi
    rw [huv] at hb
    obtain ⟨f, hf⟩ := Option.isSome_iff_exists.mp (hmarked i hi hb)
    rw [hruns.cr3, walk_page hruns.space hruns.alive (progPage_lt hi)] at hf
    exact ⟨f, hkeep hf⟩
  have hlen : 8 * s3.userVaddr.bytesLen = 8 * userBitmapLen := by rw [huv, hruns.bitmap]
  rw [hlen]
  subst hP
  refine ⟨childDir, h3.good.addrV2p_heap (heap_mapped hmade.slot) hcopying.childPage, huv,
    fun s' hrun => ?_, fun henough => ?_⟩
  · have hbits := hcopying.copyBits (Nat.zero_add _).le hrun
    exact hbits.whole hcopying hempty
  · have hmissing : (missing s3.mem (withSpace S c childDir) c s3.userVaddr 0
        (8 * userBitmapLen)).card ≤ s3.kernelPool.free.card :=
      (Finset.card_filter_le _ _).trans henough.kernel
    have hnone : ∀ i ∈ marks s3.userVaddr 0 (8 * userBitmapLen),
        slotFrame s3.mem (withSpace S c childDir) (.page c (progPage i)) = none := fun i _ => hempty _
    have hret := hcopying.returns (Nat.zero_add _).le hmapped hnone henough.user hmissing
    exact hret

/-! ## With `init` as the parent -/

theorem init_vaddrBit (i : Nat) : initRuns.mm.kernelVaddr.bit i = decide (i < 26) := by
  by_cases h32 : i < 32
  · have hall : ∀ i, i < 32 → initRuns.mm.kernelVaddr.bit i = decide (i < 26) := by decide
    exact hall i h32
  · have hbyte : initRuns.mm.kernelVaddr.bits (i / 8) = 0 := by
      show (if i / 8 < 3 then (0xff : UInt8) else if i / 8 = 3 then 0x03 else 0) = 0
      rw [if_neg (by omega), if_neg (by omega)]
    have hlt : ¬i < 26 := by omega
    simp [Bitmap.bit, hbyte, hlt]

/-- Only the page of the stack is marked. -/
theorem init_marked {i : Nat} (h : initRuns.mm.userVaddr.bit i = true) : i = 753591 := by
  by_cases hbyte : i / 8 = 94198
  · have hall : ∀ k, k < 8 → (0x80 : UInt8).toNat.testBit k = true → k = 7 := by decide
    have hbits : initRuns.mm.userVaddr.bits (i / 8) = 0x80 := if_pos hbyte
    rw [Bitmap.bit, hbits] at h
    have := hall (i % 8) (Nat.mod_lt i (by decide)) h
    omega
  · have hbits : initRuns.mm.userVaddr.bits (i / 8) = 0 := if_neg hbyte
    rw [Bitmap.bit, hbits] at h
    simp at h

/-- The PCB of init, its bitmap, its directory and the PCB of idle. -/
def initRegions : List (Nat × Nat) := [(0, 1), (1, 23), (24, 1), (25, 1)]

theorem mem_initRegions {k : Nat} : (∃ r ∈ initRegions, InRegion k r) ↔ k < 26 := by
  simp only [initRegions, List.mem_cons, List.not_mem_nil, or_false, exists_eq_or_imp,
    exists_eq_left, InRegion]
  omega

theorem initRuns_regions : Regions smallLayout initRuns.mm initSpaces noFrame initRegions where
  good := initRuns_good
  vlen := by decide
  pos := by decide
  small := by decide
  apart := by
    show initRegions.Pairwise fun a b => a.1 + a.2 ≤ b.1 ∨ b.1 + b.2 ≤ a.1
    decide
  mapped k := by
    rw [mem_initRegions]
    have hslot := init_slotFrame (.heap k)
    simp only [show initRuns.mm.mem = initMem from rfl, hslot, initSlot_heap, exists_and_left,
      exists_eq, and_true]
  marked r hr k hk := by
    rw [init_vaddrBit, decide_eq_true_eq]
    exact mem_initRegions.mp ⟨r, hr, hk⟩
  marks k _ hset := by
    rw [init_vaddrBit, decide_eq_true_eq] at hset
    exact mem_initRegions.mpr hset

/-- The child of init gets a copy of its stack. -/
theorem fork_copies_address_space_init : ∃ s3 s' buf dir childDir,
    copyBodyStack3 (pallocFrom smallLayout) buf dir 0xc0118000 (8 * s3.userVaddr.bytesLen) 0 s3 =
      some s' ∧ addrV2p s3 dir = some (childDir * 4096) ∧ Copied 0x218 childDir s3 s' := by
  -- the buffer, the bitmap and the page of the directory
  have hrun : ((getKernelPages (pallocFrom smallLayout) initRuns.mm 1).bind fun x =>
      (getKernelPages (pallocFrom smallLayout) x.2 bitmapPgCnt).bind fun y =>
        (getKernelPages (pallocFrom smallLayout) y.2 1).map fun z =>
          (x.1, y.1, z.1, z.2.userPool.bytesLen == 480 && !z.2.userPool.bit 1,
            z.2.kernelPool.bytesLen == 480 && !z.2.kernelPool.bit 100)) =
      some (some 0xc011a000, some 0xc011b000, some 0xc0132000, true, true) := by
    decide +kernel
  obtain ⟨⟨r1, s1⟩, h1, hrun⟩ := Option.bind_eq_some_iff.mp hrun
  obtain ⟨⟨r2, s2⟩, h2, hrun⟩ := Option.bind_eq_some_iff.mp hrun
  obtain ⟨⟨r3, s3⟩, hpage, hrun⟩ := Option.map_eq_some_iff.mp hrun
  simp only [Prod.mk.injEq, Bool.and_eq_true, beq_iff_eq, Bool.not_eq_true'] at hrun
  obtain ⟨rfl, rfl, rfl, ⟨hulen, hubit⟩, hklen, hkbit⟩ := hrun
  have hregions : ∃ R, Regions smallLayout s2 initSpaces noFrame R := by
    rcases initRuns_regions.getKernelPages h1 with ⟨hno, -⟩ | ⟨_, -, -, hr1⟩
    · cases hno
    rcases hr1.getKernelPages h2 with ⟨hno, -⟩ | ⟨_, -, -, hr2⟩
    · cases hno
    exact ⟨_, hr2⟩
  obtain ⟨R, hregions⟩ := hregions
  obtain ⟨m, h3⟩ := hregions.createPageDir_returns hpage
  have hpgdir : slotFrame initRuns.mm.mem initSpaces (.heap 0x18) = some 0x218 :=
    (init_slotFrame _).trans (initSlot_heap.mpr (by decide))
  have hmarked : ∀ i, i < 8 * userBitmapLen → initRuns.mm.userVaddr.bit i = true →
      (walk initRuns.mm.mem initRuns.mm.cr3 (progPage i)).isSome = true := by
    intro i _ hb
    rw [init_marked hb]
    decide +kernel
  obtain ⟨childDir, haddr, huv, hcopied, hreturns⟩ := fork_copies_address_space (c := 0xc011a)
    initRuns_runs initRuns_regions hpgdir (by decide) hmarked h1 h2 h3
  have hone : (marks (s3.setMem m).userVaddr 0 (8 * userBitmapLen)).card ≤ 1 := by
    refine (Finset.card_le_card (t := {753591}) fun i hi => ?_).trans (Finset.card_singleton _).le
    rw [Finset.mem_singleton]
    rw [huv] at hi
    exact init_marked (mem_marks.mp hi).2
  have henough : EnoughFrames (s3.setMem m) := by
    refine ⟨hone.trans (Finset.card_pos.mpr ⟨1, ?_⟩),
      (Finset.card_image_le.trans hone).trans (Finset.card_pos.mpr ⟨100, ?_⟩)⟩
    · rw [Mm.setMem_userPool]
      exact Bitmap.mem_free.mpr ⟨by omega, hubit⟩
    · rw [Mm.setMem_kernelPool]
      exact Bitmap.mem_free.mpr ⟨by omega, hkbit⟩
  obtain ⟨s', hs'⟩ := hreturns henough
  exact ⟨s3.setMem m, s', _, _, childDir, hs', haddr, hcopied s' hs'⟩

end OsCore.Userprog
