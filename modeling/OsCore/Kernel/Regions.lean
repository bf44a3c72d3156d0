import OsCore.Kernel.HeapPages
import OsCore.Kernel.KernelPages
import OsCore.Lib.Machine

/-!
# Regions of the kernel's heap (`malloc_page`, `mfree_page`)

A region is the run of heap pages that one `malloc_page(PF_KERNEL, n)` has returned.
Three structures have to say the same about it: the bitmap of the address space, the
entries of the page tables and the pool its frames are from. `Regions` says that they
do, for the regions that are in use; a request adds one (`Regions.malloc`) and
`mfree_page` takes one away (`Regions.free`), whatever the order.

The search for a run of free pages may look one bit past the map, and then the last
page of a region is the one behind it.
-/

namespace OsCore.Paging

open OsCore.Lib

variable {L : Layout} {s s' : Mm} {S : Spaces} {held : Nat → Prop} {R : List (Nat × Nat)}

/-- Page `k` is one of region `r`. -/
def InRegion (k : Nat) (r : Nat × Nat) : Prop := r.1 ≤ k ∧ k < r.1 + r.2

instance (k : Nat) (r : Nat × Nat) : Decidable (InRegion k r) := inferInstanceAs (Decidable (_ ∧ _))

/-- Two regions have no page in common. -/
def Apart (a b : Nat × Nat) : Prop := a.1 + a.2 ≤ b.1 ∨ b.1 + b.2 ≤ a.1

theorem Apart.symm {a b : Nat × Nat} (h : Apart a b) : Apart b a := h.elim Or.inr Or.inl

instance : Std.Symm Apart := ⟨fun _ _ => Apart.symm⟩

/-- The regions in use, and what bitmaps and tables say about them. -/
structure Regions (L : Layout) (s : Mm) (S : Spaces) (held : Nat → Prop) (R : List (Nat × Nat)) :
    Prop where
  good : Good L s S held
  vlen : s.kernelVaddr.bytesLen = L.kbmLength
  pos : ∀ r ∈ R, 0 < r.2
  small : ∀ r ∈ R, r.1 + r.2 ≤ 8 * L.kbmLength + 1
  apart : R.Pairwise Apart
  mapped : ∀ k, (∃ f, slotFrame s.mem S (.heap k) = some f) ↔ ∃ r ∈ R, InRegion k r
  marked : ∀ r ∈ R, ∀ k, InRegion k r → s.kernelVaddr.bit k = true
  marks : ∀ k, k < 8 * L.kbmLength → s.kernelVaddr.bit k = true → ∃ r ∈ R, InRegion k r

theorem bytesLen_setBits {b : Bitmap} {value : Bool} : ∀ {n i : Nat},
    (setBits b i value n).bytesLen = b.bytesLen := by
  intro n
  induction n generalizing b with
  | zero => intro i; rfl
  | succ n ih =>
    intro i
    rw [setBits, ih]
    rfl

/-- The pages the kernel can hand out are far below the last 4 MB. -/
theorem Layout.heap_small (L : Layout) : 8 * L.kbmLength + 1 ≤ heapMax := by
  have h1 := L.kbmLength_le
  have h2 := L.kernelFreePages_lt
  unfold heapMax
  omega

/-- Frames do not depend on the maps of the address space, nor on which of the
directories is in use. -/
theorem Good.reuse (hg : Good L s S held) (kernelVaddr userVaddr : Bitmap) {cr3 : Nat}
    (hcur : cr3 = Paging.kernelDir ∨ ∃ p sp, S p = some sp ∧ cr3 = sp.dir) :
    Good L { s with cr3, kernelVaddr, userVaddr } S held where
  kernelLen := hg.kernelLen
  userLen := hg.userLen
  inj := hg.inj
  heldOut := hg.heldOut
  inPool := hg.inPool
  heldPool := hg.heldPool
  bit := hg.bit
  low := hg.low
  kernelDir := hg.kernelDir
  dir := hg.dir
  dirInj := hg.dirInj
  cur := hcur

theorem Good.setVaddr (hg : Good L s S held) (b : Bitmap) :
    Good L { s with kernelVaddr := b } S held := hg.reuse b s.userVaddr hg.cur

namespace Regions

theorem nodup (h : Regions L s S held R) : R.Nodup := by
  refine List.Pairwise.imp_of_mem (fun {a b} ha _ hab heq => ?_) h.apart
  subst heq
  have := h.pos a ha
  unfold Apart at hab
  omega

theorem apart_of_ne (h : Regions L s S held R) {a b : Nat × Nat} (ha : a ∈ R) (hb : b ∈ R)
    (hne : a ≠ b) : Apart a b := h.apart.forall ha hb hne

/-- The pages of a region are pages of the heap. -/
theorem lt_heapMax (h : Regions L s S held R) {r : Nat × Nat} (hr : r ∈ R) : r.1 + r.2 ≤ heapMax :=
  Nat.le_trans (h.small r hr) L.heap_small

/-- **A request for pages of the heap**: no room for it, or one region more. -/
theorem malloc (h : Regions L s S held R) {n : Nat} {v : Option Nat}
    (hrun : mallocPage (pallocFrom L) .kernel s n = some (v, s')) :
    (v = none ∧ s' = s) ∨ ∃ i, v = some (kHeapStart + i * 4096) ∧
      (∀ k, InRegion k (i, n) → s.kernelVaddr.bit k = false) ∧
      MappedPages S i n { s with kernelVaddr := setBits s.kernelVaddr i true n } s' ∧
      Regions L s' S held ((i, n) :: R) := by
  obtain ⟨hn, hcases⟩ := mallocPage_cases hrun
  rcases hcases with ⟨rfl, rfl⟩ | ⟨i, done, hi, hfree, hloop, rfl⟩
  · exact Or.inl ⟨rfl, rfl⟩
  · have hlen : i + n ≤ 8 * L.kbmLength + 1 := by
      rw [← h.vlen]
      exact hi
    have hmax : i + n ≤ heapMax := Nat.le_trans hlen L.heap_small
    obtain ⟨rfl, hmap, hgood⟩ := (h.good.setVaddr _).mallocHeap hmax hloop
    have hfree' : ∀ k, InRegion k (i, n) → s.kernelVaddr.bit k = false := by
      intro k hin
      obtain ⟨h1, h2⟩ := hin
      have := hfree (k - i) (by dsimp only at h1 h2; omega)
      rwa [show i + (k - i) = k by dsimp only at h1; omega] at this
    have hbit : ∀ k, s'.kernelVaddr.bit k =
        if InRegion k (i, n) then true else s.kernelVaddr.bit k := by
      intro k
      rw [hmap.rest.kernelVaddr]
      exact bit_setBits
    refine Or.inr ⟨i, rfl, hfree', hmap, ?_⟩
    constructor
    case good => exact hgood
    case vlen =>
      rw [hmap.rest.kernelVaddr]
      exact (bytesLen_setBits).trans h.vlen
    case pos =>
      intro r hr
      rcases List.mem_cons.mp hr with rfl | hr
      · exact hn
      · exact h.pos r hr
    case small =>
      intro r hr
      rcases List.mem_cons.mp hr with rfl | hr
      · exact hlen
      · exact h.small r hr
    case apart =>
      refine List.pairwise_cons.mpr ⟨fun r hr => ?_, h.apart⟩
      -- a page of both would be marked and free
      by_contra hc
      unfold Apart at hc
      have hpos := h.pos r hr
      have hin : InRegion (max i r.1) (i, n) ∧ InRegion (max i r.1) r := by
        unfold InRegion
        dsimp only at hc ⊢
        omega
      have := h.marked r hr _ hin.2
      rw [hfree' _ hin.1] at this
      cases this
    case mapped =>
      intro k
      by_cases hk : InRegion k (i, n)
      · refine iff_of_true ?_ ⟨(i, n), List.mem_cons_self, hk⟩
        obtain ⟨f, hf, -⟩ := hmap.now k hk.1 hk.2
        exact ⟨f, hf⟩
      · have hother : slotFrame s'.mem S (.heap k) = slotFrame s.mem S (.heap k) := by
          refine hmap.other _ fun j h1 h2 he => hk ?_
          obtain rfl := Slot.heap.inj he
          exact ⟨h1, h2⟩
        rw [hother, h.mapped k]
        simp only [List.mem_cons, exists_eq_or_imp, hk, false_or]
    case marked =>
      intro r hr k hk
      rw [hbit]
      rcases List.mem_cons.mp hr with rfl | hr
      · rw [if_pos hk]
      · rw [h.marked r hr k hk, ite_self]
    case marks =>
      intro k hk hset
      rw [hbit] at hset
      split at hset
      next hin => exact ⟨(i, n), List.mem_cons_self, hin⟩
      next =>
        obtain ⟨r, hr, hin⟩ := h.marks k hk hset
        exact ⟨r, List.mem_cons_of_mem _ hr, hin⟩

/-- **A region is given back.** -/
theorem free (h : Regions L s S held R) {r : Nat × Nat} (hr : r ∈ R)
    (hdir : ∀ k f, InRegion k r → slotFrame s.mem S (.heap k) = some f → NoDir S f) :
    ∃ t, mfreePage L .kernel s (kHeapStart + r.1 * 4096) r.2 =
        some { t with kernelVaddr := setBits s.kernelVaddr r.1 false r.2 } ∧
      UnmappedPages S r.1 r.2 s t ∧
      Regions L { t with kernelVaddr := setBits s.kernelVaddr r.1 false r.2 } S held (R.erase r) := by
  have hpos := h.pos r hr
  have hmax := h.lt_heapMax hr
  have hmapped : ∀ k, r.1 ≤ k → k < r.1 + r.2 →
      ∃ f, slotFrame s.mem S (.heap k) = some f ∧ NoDir S f := by
    intro k h1 h2
    obtain ⟨f, hf⟩ := (h.mapped k).mpr ⟨r, hr, h1, h2⟩
    exact ⟨f, hf, hdir k f ⟨h1, h2⟩ hf⟩
  obtain ⟨f, hf, -⟩ := hmapped r.1 (Nat.le_refl _) (by omega)
  have hpool := Layout.kernel_addr (h.good.inPool (.heap r.1) f hf)
  obtain ⟨t, hloop, hun, hgood⟩ := h.good.mfreeHeap hmax hmapped
  have haddr : (kHeapStart + r.1 * 4096) % 4096 = 0 := by
    unfold kHeapStart
    omega
  have hidx : (kHeapStart + r.1 * 4096 - kHeapStart) / 4096 = r.1 := by omega
  have hbit : ∀ k, (setBits s.kernelVaddr r.1 false r.2).bit k =
      if InRegion k r then false else s.kernelVaddr.bit k := fun k => bit_setBits
  have hmem : ∀ a, a ∈ R.erase r ↔ a ≠ r ∧ a ∈ R := fun a => h.nodup.mem_erase_iff
  have hout : ∀ a ∈ R.erase r, ∀ k, InRegion k a → ¬InRegion k r := by
    intro a ha k hin hin2
    obtain ⟨h1, h2⟩ := hin
    obtain ⟨h3, h4⟩ := hin2
    obtain ⟨hne, haR⟩ := (hmem a).mp ha
    have := h.apart_of_ne haR hr hne
    unfold Apart at this
    omega
  refine ⟨t, ?_, hun, ?_⟩
  · rw [mfreePage, ensure_pos ⟨hpos, haddr⟩, Option.bind_eq_bind, Option.bind_some,
      h.good.addrV2p_heap (by omega) hf, Option.bind_eq_bind, Option.bind_some,
      ensure_pos ⟨by omega, hpool.2.2⟩, Option.bind_eq_bind, Option.bind_some,
      if_neg (by omega), hloop, Option.bind_some]
    simp only [vaddrRemove, hidx, hun.rest.kernelVaddr, Option.pure_def]
  constructor
  case good => exact hgood.setVaddr _
  case vlen => exact bytesLen_setBits.trans h.vlen
  case pos => exact fun a ha => h.pos a ((hmem a).mp ha).2
  case small => exact fun a ha => h.small a ((hmem a).mp ha).2
  case apart => exact h.apart.sublist List.erase_sublist
  case mapped =>
    intro k
    show (∃ f, slotFrame t.mem S (.heap k) = some f) ↔ _
    rw [hun.slots]
    by_cases hk : InRegion k r
    · rw [if_pos (inRun_heap.mpr hk)]
      apply iff_of_false (by simp)
      intro hin
      obtain ⟨a, ha, hka⟩ := hin
      exact hout a ha k hka hk
    · rw [if_neg (fun hin => hk (inRun_heap.mp hin)), h.mapped k]
      constructor
      · intro hin
        obtain ⟨a, ha, hka⟩ := hin
        exact ⟨a, (hmem a).mpr ⟨fun h => hk (h ▸ hka), ha⟩, hka⟩
      · intro hin
        obtain ⟨a, ha, hka⟩ := hin
        exact ⟨a, ((hmem a).mp ha).2, hka⟩
  case marked =>
    intro a ha k hk
    show (setBits s.kernelVaddr r.1 false r.2).bit k = true
    rw [hbit, if_neg (hout a ha k hk)]
    exact h.marked a ((hmem a).mp ha).2 k hk
  case marks =>
    intro k hk hset
    replace hset : (setBits s.kernelVaddr r.1 false r.2).bit k = true := hset
    rw [hbit] at hset
    split at hset
    next => cases hset
    next hnk =>
      obtain ⟨a, ha, hka⟩ := h.marks k hk hset
      exact ⟨a, (hmem a).mpr ⟨fun h => hnk (h ▸ hka), ha⟩, hka⟩

end Regions

/-! ## Any order of calls -/

/-- Memory management, and the regions that have been returned and not been freed. -/
structure HeapUse where
  mm : Mm
  regions : List (Nat × Nat)

inductive PageCall
  | malloc (n : Nat)
  | mfree (r : Nat × Nat)

def HeapUse.step (L : Layout) (u : HeapUse) : PageCall → Option HeapUse
  | .malloc n => do
    let (v, mm) ← mallocPage (pallocFrom L) .kernel u.mm n
    match v with
    | none => return { u with mm }
    | some vaddr => return ⟨mm, ((vaddr - kHeapStart) / 4096, n) :: u.regions⟩
  | .mfree r => do
    let mm ← mfreePage L .kernel u.mm (kHeapStart + r.1 * 4096) r.2
    return ⟨mm, u.regions.erase r⟩

/-- As the loader and `mem_init` leave it: the tables of the kernel are there, no page
of the heap is mapped, and the bitmaps are clear. -/
structure Booted (L : Layout) (s : Mm) : Prop where
  cr3 : s.cr3 = kernelDir
  half : KernelHalf s.mem kernelDir
  low : ∀ i, i < 256 → Present (s.mem 0x101 i)
  heap : ∀ k, k < heapMax → ¬Present (heapWord s.mem k)
  kernelLen : s.kernelPool.bytesLen = L.kbmLength
  kernelPool : ∀ i, i < 8 * L.kbmLength → s.kernelPool.bit i = false
  userLen : s.userPool.bytesLen = L.ubmLength
  userPool : ∀ i, i < 8 * L.ubmLength → s.userPool.bit i = false
  vaddrLen : s.kernelVaddr.bytesLen = L.kbmLength
  kernelVaddr : ∀ k, k < 8 * L.kbmLength → s.kernelVaddr.bit k = false

/-- Only regions in use are freed. -/
def HeapUse.May (u : HeapUse) : PageCall → Prop
  | .malloc _ => True
  | .mfree r => r ∈ u.regions

def pageMachine (L : Layout) : Machine HeapUse PageCall where
  start u := Booted L u.mm ∧ u.regions = []
  may := HeapUse.May
  step := HeapUse.step L

/-- There are no processes. -/
def noSpaces : Spaces := fun _ => none

theorem Booted.slot_none (h : Booted L s) (x : Slot) : slotFrame s.mem noSpaces x = none := by
  cases x with
  | heap k =>
    simp only [slotFrame]
    split
    next hk => exact entryFrame_eq_none.mpr (h.heap k hk)
    next => rfl
  | table p d => rfl
  | page p v => rfl

/-- At the start nothing is mapped and no region is in use. -/
theorem Booted.regions (h : Booted L s) : Regions L s noSpaces noFrame [] := by
  have hnone := h.slot_none
  have hgood : Good L s noSpaces noFrame := by
    constructor
    case kernelLen => exact h.kernelLen
    case userLen => exact h.userLen
    case inj => simp [hnone]
    case heldOut => simp [hnone]
    case inPool => simp [hnone]
    case heldPool => exact fun f hf => hf.elim
    case bit =>
      intro f hf
      have hclear : frameBit L s f = false := by
        unfold frameBit
        rcases hf with ⟨h1, h2⟩ | ⟨h1, h2⟩
        · rw [if_neg (Nat.not_le.mpr (Layout.kernel_lt_user ⟨h1, h2⟩))]
          exact h.kernelPool _ (by omega)
        · rw [if_pos h1]
          exact h.userPool _ (by omega)
      simp [hclear, hnone, noFrame]
    case low => exact h.low
    case kernelDir => exact h.half
    case dir => exact fun p sp hp => absurd hp (by simp [noSpaces])
    case dirInj => exact fun p q a b hp => absurd hp (by simp [noSpaces])
    case cur => exact Or.inl h.cr3
  constructor
  case good => exact hgood
  case vlen => exact h.vaddrLen
  case pos => exact fun r hr => absurd hr List.not_mem_nil
  case small => exact fun r hr => absurd hr List.not_mem_nil
  case apart => exact List.Pairwise.nil
  case mapped => simp [hnone]
  case marked => exact fun r hr => absurd hr List.not_mem_nil
  case marks =>
    intro k hk hset
    rw [h.kernelVaddr k hk] at hset
    cases hset

theorem noSpaces_noDir (f : Nat) : NoDir noSpaces f := fun _ _ hp => absurd hp (by simp [noSpaces])

/-- **Every run**: the three structures agree. -/
theorem pageMachine_regions {u : HeapUse} (h : (pageMachine L).Reachable u) :
    Regions L u.mm noSpaces noFrame u.regions := by
  refine Machine.Reach.invariant (I := fun u => Regions L u.mm noSpaces noFrame u.regions) ?_ ?_ h
  · intro u hin
    obtain ⟨hboot, hnil⟩ := hin
    rw [hnil]
    exact hboot.regions
  · intro u c u' hu hmay _ hstep
    cases c with
    | malloc n =>
      obtain ⟨⟨v, mm⟩, hrun, hstep⟩ := Option.bind_eq_some_iff.mp hstep
      rcases hu.malloc hrun with ⟨rfl, rfl⟩ | ⟨i, rfl, -, -, hnew⟩
      · obtain rfl := Option.some.inj hstep
        exact hu
      · have hi : (kHeapStart + i * 4096 - kHeapStart) / 4096 = i := by omega
        simp only [hi, Option.pure_def, Option.some.injEq] at hstep
        subst hstep
        exact hnew
    | mfree r =>
      obtain ⟨t, hrun, -, hnew⟩ := hu.free hmay fun _ f _ _ => noSpaces_noDir f
      obtain ⟨mm, hrun', hstep⟩ := Option.bind_eq_some_iff.mp hstep
      rw [hrun] at hrun'
      obtain rfl := Option.some.inj hrun'
      obtain rfl := Option.some.inj hstep
      exact hnew

/-- The entry of heap page `k`, as `pte_ptr` finds it, maps frame `f`. -/
def PteMaps (s : Mm) (k f : Nat) : Prop :=
  ∃ pte, s.load (ptePtr (kHeapStart + k * 4096)) = some pte ∧ Maps pte f

theorem Good.pteMaps_iff (hg : Good L s S held) {k f : Nat} (hk : k < heapMax) :
    PteMaps s k f ↔ slotFrame s.mem S (.heap k) = some f := by
  simp only [PteMaps, (hg.load_heap hk).1, Option.some.injEq, exists_eq_left', slotFrame, if_pos hk,
    entryFrame_eq_some]

/-- The regions in use are disjoint and mapped, no frame is mapped twice, and the bits
of the pool are those of the frames that are mapped. -/
structure PagesAgree (L : Layout) (u : HeapUse) : Prop where
  apart : u.regions.Pairwise Apart
  present : ∀ r ∈ u.regions, ∀ k, InRegion k r → ∃ f, PteMaps u.mm k f
  inj : ∀ j k f, j < heapMax → k < heapMax → PteMaps u.mm j f → PteMaps u.mm k f → j = k
  pool : ∀ i, i < 8 * L.kbmLength →
    (u.mm.kernelPool.bit i = true ↔ ∃ k, k < heapMax ∧ PteMaps u.mm k (0x200 + i))

/-- What `mfree_page` of region `r` clears. -/
structure Freed (L : Layout) (r : Nat × Nat) (s s' : Mm) : Prop where
  vaddr : ∀ k, s'.kernelVaddr.bit k = if InRegion k r then false else s.kernelVaddr.bit k
  pool : ∀ i, i < 8 * L.kbmLength → (s'.kernelPool.bit i = true ↔
    s.kernelPool.bit i = true ∧ ¬∃ k, InRegion k r ∧ PteMaps s k (0x200 + i))
  ptes : ∀ k f, k < heapMax → (PteMaps s' k f ↔ PteMaps s k f ∧ ¬InRegion k r)

/-- Both bitmaps and the entries that are present are as before. -/
structure Restored (L : Layout) (s s' : Mm) : Prop where
  vaddr : ∀ k, s'.kernelVaddr.bit k = s.kernelVaddr.bit k
  pool : ∀ i, i < 8 * L.kbmLength → s'.kernelPool.bit i = s.kernelPool.bit i
  ptes : ∀ k f, k < heapMax → (PteMaps s' k f ↔ PteMaps s k f)

/-- The bit of a frame of the kernel's pool, when there are no processes. -/
theorem Good.poolBit_iff (hg : Good L s noSpaces noFrame) {i : Nat} (hi : i < 8 * L.kbmLength) :
    s.kernelPool.bit i = true ↔ ∃ k, k < heapMax ∧ PteMaps s k (0x200 + i) := by
  have hker : L.IsKernel (0x200 + i) := ⟨by omega, by omega⟩
  have hbit := hg.bit (0x200 + i) (Or.inl hker)
  have hlt := Layout.kernel_lt_user hker
  have hsub : 0x200 + i - 0x200 = i := by omega
  rw [frameBit, if_neg (by omega), hsub] at hbit
  rw [hbit]
  constructor
  · intro hor
    rcases hor with ⟨x, hx⟩ | hf
    · cases x with
      | heap k =>
        by_cases hk : k < heapMax
        · exact ⟨k, hk, (hg.pteMaps_iff hk).mpr hx⟩
        · simp only [slotFrame, if_neg hk] at hx
          cases hx
      | table p d => cases hx
      | page p v => cases hx
    · exact hf.elim
  · intro hin
    obtain ⟨k, hk, hmaps⟩ := hin
    exact Or.inl ⟨.heap k, (hg.pteMaps_iff hk).mp hmaps⟩

/-- **`malloc_page` and `mfree_page` of the kernel, in any order.** Address space, page
tables and pool agree in every state; a region that is freed takes its own bits and
entries with it, and allocating and freeing again leaves everything as it was. -/
theorem kernel_pages_agree (L : Layout) {u : HeapUse} (h : (pageMachine L).Reachable u) :
    PagesAgree L u ∧
    (∀ r ∈ u.regions, ∃ s', mfreePage L .kernel u.mm (kHeapStart + r.1 * 4096) r.2 = some s' ∧
      Freed L r u.mm s') ∧
    ∀ n v s1, mallocPage (pallocFrom L) .kernel u.mm n = some (some v, s1) →
      ∃ s2, mfreePage L .kernel s1 v n = some s2 ∧ Restored L u.mm s2 := by
  have hu := pageMachine_regions h
  have hg := hu.good
  refine ⟨⟨hu.apart, fun r hr k hk => ?_, fun j k f hj hk hjf hkf => ?_, fun i hi => hg.poolBit_iff hi⟩,
    fun r hr => ?_, fun n v s1 hmalloc => ?_⟩
  · have hmax := hu.lt_heapMax hr
    obtain ⟨f, hf⟩ := (hu.mapped k).mpr ⟨r, hr, hk⟩
    exact ⟨f, (hg.pteMaps_iff (by unfold InRegion at hk; omega)).mpr hf⟩
  · rw [hg.pteMaps_iff hj] at hjf
    rw [hg.pteMaps_iff hk] at hkf
    exact Slot.heap.inj (hg.inj _ _ f hjf hkf)
  · obtain ⟨t, hrun, hun, hnew⟩ := hu.free hr fun _ f _ _ => noSpaces_noDir f
    have hptes : ∀ k f, k < heapMax → (PteMaps { t with
        kernelVaddr := setBits u.mm.kernelVaddr r.1 false r.2 } k f ↔
          PteMaps u.mm k f ∧ ¬InRegion k r) := by
      intro k f hk
      rw [hnew.good.pteMaps_iff hk, hg.pteMaps_iff hk]
      show slotFrame t.mem noSpaces (.heap k) = some f ↔ _
      rw [hun.slots]
      by_cases hin : InRegion k r
      · simp [inRun_heap.mpr hin, hin]
      · simp [show ¬(inRun r.1 r.2 (.heap k) = true) from fun hc => hin (inRun_heap.mp hc), hin]
    refine ⟨_, hrun, fun k => bit_setBits, fun i hi => ?_, hptes⟩
    rw [hnew.good.poolBit_iff hi, hg.poolBit_iff hi]
    constructor
    · intro hin
      obtain ⟨k, hk, hmaps⟩ := hin
      obtain ⟨hold, hnot⟩ := (hptes k _ hk).mp hmaps
      refine ⟨⟨k, hk, hold⟩, fun ⟨j, hj, hjmaps⟩ => hnot ?_⟩
      have hjmax : j < heapMax := by
        have := hu.lt_heapMax hr
        unfold InRegion at hj
        omega
      have := hg.inj _ _ _ ((hg.pteMaps_iff hk).mp hold) ((hg.pteMaps_iff hjmax).mp hjmaps)
      rw [Slot.heap.inj this]
      exact hj
    · intro hin
      obtain ⟨⟨k, hk, hold⟩, hnone⟩ := hin
      exact ⟨k, hk, (hptes k _ hk).mpr ⟨hold, fun hin => hnone ⟨k, hin, hold⟩⟩⟩
  · rcases hu.malloc hmalloc with ⟨hnone, -⟩ | ⟨i, hv, hfree, hmap, hu1⟩
    · cases hnone
    obtain rfl := Option.some.inj hv
    have hmem : (i, n) ∈ (i, n) :: u.regions := List.mem_cons_self
    obtain ⟨t, hrun, hun, hnew⟩ := hu1.free hmem fun _ f _ _ => noSpaces_noDir f
    dsimp only at hrun hun hnew
    have hslot : ∀ k, slotFrame t.mem noSpaces (.heap k) = slotFrame u.mm.mem noSpaces (.heap k) := by
      intro k
      rw [hun.slots]
      by_cases hin : InRegion k (i, n)
      · rw [if_pos (inRun_heap.mpr hin)]
        exact (hmap.was k hin.1 hin.2).symm
      · rw [if_neg fun hc => hin (inRun_heap.mp hc)]
        refine hmap.other _ fun j h1 h2 he => hin ?_
        obtain rfl := Slot.heap.inj he
        exact ⟨h1, h2⟩
    have hptes : ∀ k f, k < heapMax → (PteMaps { t with
        kernelVaddr := setBits s1.kernelVaddr i false n } k f ↔ PteMaps u.mm k f) := by
      intro k f hk
      rw [hnew.good.pteMaps_iff hk, hg.pteMaps_iff hk]
      show slotFrame t.mem noSpaces (.heap k) = some f ↔ _
      rw [hslot]
    refine ⟨_, hrun, fun k => ?_, fun j hj => ?_, hptes⟩
    · show (setBits s1.kernelVaddr i false n).bit k = _
      rw [bit_setBits, hmap.rest.kernelVaddr]
      split
      next hin => exact (hfree k hin).symm
      next hin =>
        show (setBits u.mm.kernelVaddr i true n).bit k = _
        rw [bit_setBits, if_neg hin]
    · rw [Bool.eq_iff_iff, hnew.good.poolBit_iff hj, hg.poolBit_iff hj]
      constructor
      · intro hin
        obtain ⟨k, hk, hmaps⟩ := hin
        exact ⟨k, hk, (hptes k _ hk).mp hmaps⟩
      · intro hin
        obtain ⟨k, hk, hmaps⟩ := hin
        exact ⟨k, hk, (hptes k _ hk).mpr hmaps⟩

/-! ## From the start -/

instance (L : Layout) (u : HeapUse) (c : PageCall) : Decidable ((pageMachine L).may u c) :=
  match c with
  | .malloc _ => isTrue trivial
  | .mfree r => inferInstanceAs (Decidable (r ∈ u.regions))

/-- The directory and the first table of the loader. -/
def bootMem : Phys := fun f i =>
  if f = kernelDir then
    if i = 1023 then entry (kernelDir * 4096)
    else if 768 ≤ i then entry ((0x101 + (i - 768)) * 4096)
    else 0
  else if f = 0x101 ∧ i < 0x100 then entry (i * 4096)
  else 0

/-- A machine of 32 MB. -/
def bootMm : Mm where
  mem := bootMem
  cr3 := kernelDir
  kernelPool := ⟨480, Mem.zero⟩
  userPool := ⟨480, Mem.zero⟩
  kernelVaddr := ⟨480, Mem.zero⟩
  userVaddr := ⟨0, Mem.zero⟩

theorem bit_zero (n i : Nat) : (Bitmap.mk n Mem.zero).bit i = false := by
  simp [Bitmap.bit, Mem.zero]

theorem bootMm_booted : Booted ⟨0x2000000⟩ bootMm := by
  constructor
  case cr3 => rfl
  case half =>
    refine ⟨fun d h1 h2 => ?_, ?_⟩
    · show bootMem kernelDir d = _
      rw [bootMem, if_pos rfl, if_neg (by omega), if_pos h1]
    · show Maps (bootMem kernelDir 1023) kernelDir
      rw [bootMem, if_pos rfl, if_pos rfl]
      exact ⟨present_entry _, frameOf_entry _⟩
  case low =>
    intro i hi
    show Present (bootMem 0x101 i)
    rw [bootMem, if_neg (by decide), if_pos ⟨rfl, hi⟩]
    exact present_entry i
  case heap =>
    intro k hk
    have htable : heapTable k ≠ kernelDir := by
      unfold heapTable kernelDir
      omega
    have hindex : ¬(heapTable k = 0x101 ∧ (0x100 + k) % 1024 < 0x100) := by
      unfold heapTable
      omega
    show ¬Present (bootMem (heapTable k) ((0x100 + k) % 1024))
    rw [bootMem, if_neg htable, if_neg hindex]
    decide
  case kernelLen => decide
  case kernelPool => exact fun i _ => bit_zero _ i
  case userLen => decide
  case userPool => exact fun i _ => bit_zero _ i
  case vaddrLen => decide
  case kernelVaddr => exact fun i _ => bit_zero _ i

/-- Two regions are taken and the first is freed. -/
theorem kernel_pages_agree_after_free :
    ∃ u, (pageMachine ⟨0x2000000⟩).Reachable u ∧ u.regions = [(2, 1)] ∧
      PagesAgree ⟨0x2000000⟩ u := by
  have hsome : ((pageMachine ⟨0x2000000⟩).follow (fun _ _ => True) ⟨bootMm, []⟩
      [.malloc 2, .malloc 1, .mfree (0, 2)]).map (·.regions) = some [(2, 1)] := by decide +kernel
  obtain ⟨u, hu, hregions⟩ := Option.map_eq_some_iff.mp hsome
  have hstart : (pageMachine ⟨0x2000000⟩).start ⟨bootMm, []⟩ := ⟨bootMm_booted, rfl⟩
  have hreach : (pageMachine ⟨0x2000000⟩).Reachable u :=
    Machine.reach_of_follow (.start hstart) hu
  exact ⟨u, hreach, hregions, (kernel_pages_agree _ hreach).1⟩

end OsCore.Paging
