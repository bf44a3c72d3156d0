import OsCore.BitmapScan
import OsCore.Fs.Inode
import OsCore.Kernel.FreeFrames
import OsCore.Kernel.HeapRun
import OsCore.Kernel.KernelPages

/-!
# Requests when nothing is left

Five functions hand out what a bitmap counts: `inode_bitmap_alloc`,
`block_bitmap_alloc`, `palloc`, `vaddr_get`, and `sys_malloc` on top of the last two.
Each has a branch for the `-1` of `bitmap_scan`, and answers `-1` or `NULL` there. But
`bitmap_scan` asserts that the map has a byte that is not full before it looks for
that case, so a map without a clear bit ends the system, and the branch is only
reached when a run is asked for that a map with clear bits has not.

A `Request` is a call of one of the five. `RunOut` says that what it asks for is not
there, `Reports` that the call comes back and says so, and `exhaustion_reported_iff`
when it does. For single bits that is never. For pages of the address space it is
when the map has a clear bit and no run, not even one over its end; and `sys_malloc`
also has its own two answers, to sizes it refuses and to more pages than `malloc_page`
asserts.
-/

namespace OsCore.Kernel

open Paging Fs

/-! ## The calls -/

/-- The pages `sys_malloc` asks `malloc_page` for, if it comes to that. -/
def pagesWanted (o : HeapOwner) (h : HeapState) (size : Nat) : Option Nat :=
  if ¬(0 < size ∧ size < o.poolSize) then none
  else if 1024 < size then some (pageCnt size)
  else if listEmpty h.mem (freeList (descAt o.descs (findDesc h.mem o.descs size 7 0))) then some 1
  else none

/-- `sys_malloc(size)` with `malloc_page` under it; the heap of `o` has its pages from
the pool of `pf`. -/
def sysMallocPaged (L : Layout) (pf : PoolFlags) (o : HeapOwner) (h : HeapState) (s : Mm)
    (size : Nat) : Option (Nat × HeapState × Mm) :=
  match pagesWanted o h size with
  | none => (sysMalloc o h size none).map fun (r, h) => (r, h, s)
  | some pgCnt => do
    let (answer, s) ← Paging.mallocPage (pallocFrom L) pf s pgCnt
    let (r, h) ← sysMalloc o h size answer
    return (r, h, s)

/-- A call that allocates. -/
inductive Request
  | inode
  | block
  | frame (pf : PoolFlags)
  | pages (pf : PoolFlags) (pgCnt : Nat)
  | bytes (pf : PoolFlags) (size : Nat)

/-- What the calls work on. -/
structure Resources (p : Partition) where
  vol : Vol p
  mm : Mm
  owner : PoolFlags → HeapOwner
  heap : PoolFlags → HeapState

namespace Resources

variable {p : Partition} (L : Layout) (k : Resources p)

/-- There is no such bit, or no such run of pages; `sys_malloc` has not got the pages
or the frames it needs for this size. -/
def RunOut : Request → Prop
  | .inode => k.vol.inodeBitmap.free = ∅
  | .block => k.vol.blockBitmap.free = ∅
  | .frame pf => (k.mm.pool pf).free = ∅
  | .pages pf pgCnt => 1 ≤ pgCnt ∧
    ¬(k.mm.vaddrMap pf).HasRun pgCnt (8 * (k.mm.vaddrMap pf).bytesLen)
  | .bytes pf size => 0 < size ∧ size < (k.owner pf).poolSize →
    ∃ pgCnt, pagesWanted (k.owner pf) (k.heap pf) size = some pgCnt ∧
      (¬(k.mm.vaddrMap pf).HasRun pgCnt (8 * (k.mm.vaddrMap pf).bytesLen) ∨
        (k.mm.pool pf).free.card < pgCnt)

/-- The call comes back with `-1` or `NULL`. -/
def Reports : Request → Prop
  | .inode => ∃ vol, inodeBitmapAlloc k.vol = some (-1, vol)
  | .block => ∃ vol, blockBitmapAlloc k.vol = some (-1, vol)
  | .frame pf => ∃ mm, pallocFrom L pf k.mm = some (none, mm)
  | .pages pf pgCnt => ∃ mm, vaddrGet pf k.mm pgCnt = some (none, mm)
  | .bytes pf size => ∃ heap mm,
    sysMallocPaged L pf (k.owner pf) (k.heap pf) k.mm size = some (0, heap, mm)

/-- The map of the address space has a clear bit, but `pgCnt` of them in a row neither
in it nor over its end. -/
def NoRunLeft (pf : PoolFlags) (pgCnt : Nat) : Prop :=
  (k.mm.vaddrMap pf).free.Nonempty ∧
    ¬(k.mm.vaddrMap pf).HasRun pgCnt (8 * (k.mm.vaddrMap pf).bytesLen) ∧
    ¬(k.mm.vaddrMap pf).RunsOver pgCnt

/-- The requests that are answered when there is nothing left. -/
def Answered : Request → Prop
  | .inode => False
  | .block => False
  | .frame _ => False
  | .pages pf pgCnt => k.NoRunLeft pf pgCnt
  | .bytes pf size => ¬(0 < size ∧ size < (k.owner pf).poolSize) ∨
    ∃ pgCnt, pagesWanted (k.owner pf) (k.heap pf) size = some pgCnt ∧ pgCnt < 3840 ∧
      k.NoRunLeft pf pgCnt

end Resources

/-! ## Single bits -/

theorem full_of_free {b : Bitmap} (h : b.free = ∅) {i : Nat} (hi : i < 8 * b.bytesLen) :
    b.bit i = true := by
  cases hb : b.bit i with
  | true => rfl
  | false =>
    have hmem : i ∈ b.free := Bitmap.mem_free.mpr ⟨hi, hb⟩
    rw [h] at hmem
    exact absurd hmem (Finset.notMem_empty i)

/-- A map without a clear bit ends the system. -/
theorem bitmapScan_of_free {b : Bitmap} (h : b.free = ∅) (cnt : Nat) : b.bitmapScan cnt = none :=
  Bitmap.bitmapScan_full (fun _ hi => full_of_free h hi) cnt

theorem pallocFrom_of_free {L : Layout} {pf : PoolFlags} {s : Mm} (h : (s.pool pf).free = ∅) :
    pallocFrom L pf s = none := by
  cases pf with
  | kernel =>
    have hscan : s.kernelPool.bitmapScan 1 = none := bitmapScan_of_free h 1
    rw [pallocFrom, palloc, hscan]
    rfl
  | user =>
    have hscan : s.userPool.bitmapScan 1 = none := bitmapScan_of_free h 1
    rw [pallocFrom, palloc, hscan]
    rfl

/-- `palloc` comes back with a frame or not at all. -/
theorem pallocFrom_isSome {L : Layout} {pf : PoolFlags} {s s' : Mm} {r : Option Nat}
    (h : pallocFrom L pf s = some (r, s')) : ∃ phy, r = some phy := by
  cases pf with
  | kernel =>
    obtain ⟨i, hr, -⟩ := pallocFrom_kernel h
    exact ⟨_, hr⟩
  | user =>
    obtain ⟨i, hr, -⟩ := pallocFrom_user h
    exact ⟨_, hr⟩

/-! ## Runs of pages -/

/-- When a scan answers -1. -/
theorem bitmapScan_minus_one_iff {b : Bitmap} {cnt : Nat} (hcnt : 1 ≤ cnt) :
    b.bitmapScan cnt = some (-1) ↔
      b.free.Nonempty ∧ ¬b.HasRun cnt (8 * b.bytesLen) ∧ ¬b.RunsOver cnt := by
  rcases Finset.eq_empty_or_nonempty b.free with hfull | hfree
  · rw [bitmapScan_of_free hfull, hfull]
    exact iff_of_false (fun h => by cases h) fun h => Finset.not_nonempty_empty h.1
  · obtain ⟨k, hk⟩ := hfree
    obtain ⟨hlt, hz⟩ := Bitmap.mem_free.mp hk
    obtain ⟨r, hr, hans⟩ := Bitmap.bitmapScan_run hcnt hlt hz
    have hends := Bitmap.hasRun_scanEnd (b := b) hcnt
    rw [hr, Option.some.injEq]
    constructor
    · intro heq
      subst heq
      rcases hans.either with ⟨-, hno⟩ | ⟨i, hi⟩
      · rw [hends, not_or] at hno
        exact ⟨⟨k, hk⟩, hno⟩
      · omega
    · intro hin
      obtain ⟨-, hno⟩ := hin
      rcases hans.either with ⟨hm1, -⟩ | ⟨i, rfl⟩
      · exact hm1
      · obtain ⟨hle, hclear, -⟩ := hans.found i rfl
        exact absurd (hends.mp ⟨i, hle, hclear⟩) (not_or.mpr hno)

theorem vaddrGet_null_iff {pf : PoolFlags} {s : Mm} {n : Nat} (hn : 1 ≤ n) :
    (∃ s', vaddrGet pf s n = some (none, s')) ↔ (s.vaddrMap pf).bitmapScan n = some (-1) := by
  constructor
  · intro hin
    obtain ⟨s', h⟩ := hin
    rcases vaddrGet_cases hn h with ⟨-, -, hscan⟩ | ⟨-, ⟨v, hv⟩, -⟩
    · exact hscan
    · cases hv
  · intro hscan
    refine ⟨s, ?_⟩
    cases pf with
    | kernel =>
      have hscan : s.kernelVaddr.bitmapScan n = some (-1) := hscan
      rw [vaddrGet, hscan, Option.bind_eq_bind, Option.bind_some, if_pos rfl]
      rfl
    | user =>
      have hscan : s.userVaddr.bitmapScan n = some (-1) := hscan
      rw [vaddrGet, hscan, Option.bind_eq_bind, Option.bind_some, if_pos rfl]
      rfl

/-- The loop of `malloc_page` ends with all its pages or not at all. -/
theorem mallocLoop_done {L : Layout} {pf : PoolFlags} : ∀ {n vaddr : Nat} {s s' : Mm} {done : Bool},
    mallocLoop (pallocFrom L) pf n vaddr s = some (done, s') → done = true := by
  intro n
  induction n with
  | zero =>
    intro vaddr s s' done h
    exact (congrArg Prod.fst (Option.some.inj h)).symm
  | succ n ih =>
    intro vaddr s s' done h
    rw [mallocLoop, Option.bind_eq_bind] at h
    obtain ⟨⟨r, s1⟩, halloc, h⟩ := Option.bind_eq_some_iff.mp h
    obtain ⟨phy, rfl⟩ := pallocFrom_isSome halloc
    obtain ⟨s2, -, h⟩ := Option.bind_eq_some_iff.mp h
    exact ih h

/-- `malloc_page` answers `NULL` when `vaddr_get` does. -/
theorem mallocPage_null_iff {L : Layout} {pf : PoolFlags} {s : Mm} {n : Nat} (hn : 1 ≤ n) :
    (∃ s', Paging.mallocPage (pallocFrom L) pf s n = some (none, s')) ↔
      n < 3840 ∧ (s.vaddrMap pf).bitmapScan n = some (-1) := by
  rw [← vaddrGet_null_iff hn]
  constructor
  · intro hin
    obtain ⟨s', h⟩ := hin
    rw [Paging.mallocPage, Option.bind_eq_bind] at h
    obtain ⟨_, hsize, h⟩ := Option.bind_eq_some_iff.mp h
    obtain ⟨⟨r, s1⟩, hget, h⟩ := Option.bind_eq_some_iff.mp h
    refine ⟨(ensure_eq_some.mp hsize).2, ?_⟩
    cases r with
    | none => exact ⟨s1, hget⟩
    | some v =>
      obtain ⟨⟨done, s2⟩, hloop, h⟩ := Option.bind_eq_some_iff.mp h
      obtain rfl := mallocLoop_done hloop
      have hnull := congrArg Prod.fst (Option.some.inj h)
      cases hnull
  · intro hin
    obtain ⟨hlt, s', hget⟩ := hin
    refine ⟨s', ?_⟩
    rw [Paging.mallocPage, ensure_pos ⟨hn, hlt⟩, Option.bind_eq_bind, Option.bind_some, hget]
    rfl

/-- `vaddr_get` scans its map and leaves the pools alone. -/
theorem vaddrGet_scan {pf : PoolFlags} {s s' : Mm} {n : Nat} {r : Option Nat}
    (h : vaddrGet pf s n = some (r, s')) :
    (∃ x, (s.vaddrMap pf).bitmapScan n = some x) ∧ s'.pool pf = s.pool pf := by
  cases pf with
  | kernel =>
    obtain ⟨x, hscan, h⟩ := Option.bind_eq_some_iff.mp h
    refine ⟨⟨x, hscan⟩, ?_⟩
    split at h
    next =>
      obtain rfl := congrArg Prod.snd (Option.some.inj h)
      rfl
    next =>
      obtain rfl := congrArg Prod.snd (Option.some.inj h)
      rfl
  | user =>
    obtain ⟨x, hscan, h⟩ := Option.bind_eq_some_iff.mp h
    refine ⟨⟨x, hscan⟩, ?_⟩
    split at h
    next =>
      obtain rfl := congrArg Prod.snd (Option.some.inj h)
      rfl
    next =>
      obtain ⟨_, -, h⟩ := Option.bind_eq_some_iff.mp h
      obtain rfl := congrArg Prod.snd (Option.some.inj h)
      rfl

/-- A page that is granted was there, and its frame. -/
theorem mallocPage_one {L : Layout} {pf : PoolFlags} {s s' : Mm} {v : Nat}
    (h : Paging.mallocPage (pallocFrom L) pf s 1 = some (some v, s')) :
    (s.vaddrMap pf).HasRun 1 (8 * (s.vaddrMap pf).bytesLen) ∧ (s.pool pf).free.card ≠ 0 := by
  rw [Paging.mallocPage, Option.bind_eq_bind] at h
  obtain ⟨_, -, h⟩ := Option.bind_eq_some_iff.mp h
  obtain ⟨⟨r, s1⟩, hget, h⟩ := Option.bind_eq_some_iff.mp h
  obtain ⟨⟨x, hscan⟩, hpool⟩ := vaddrGet_scan hget
  constructor
  · obtain ⟨i, -, hi, hclear, -⟩ := Bitmap.bitmapScan_one hscan
    refine ⟨i, hi, fun j hj => ?_⟩
    obtain rfl : j = 0 := by omega
    exact hclear
  · intro hnone
    rw [Finset.card_eq_zero, ← hpool] at hnone
    cases r with
    | none => cases congrArg Prod.fst (Option.some.inj h)
    | some v1 =>
      obtain ⟨⟨done, s2⟩, hloop, -⟩ := Option.bind_eq_some_iff.mp h
      rw [mallocLoop, pallocFrom_of_free hnone] at hloop
      cases hloop

/-! ## `sys_malloc` -/

theorem pageCnt_pos (size : Nat) : 1 ≤ pageCnt size := by
  unfold pageCnt arenaSize
  omega

/-- What `sys_malloc` makes of the pages it wants: without them `NULL`, and many of
them are a pointer. -/
theorem sysMalloc_wanted {o : HeapOwner} {h : HeapState} {size n : Nat}
    (hw : pagesWanted o h size = some n) :
    sysMalloc o h size none = some (0, h) ∧ 1 ≤ n ∧ (n = 1 ∨ ∀ a, ∃ h',
      sysMalloc o h size (some a) = some (a + arenaSize, h')) := by
  unfold pagesWanted at hw
  split at hw
  next => cases hw
  next hsize =>
    split at hw
    next hlarge =>
      obtain rfl := Option.some.inj hw
      refine ⟨?_, pageCnt_pos size, Or.inr fun a => ?_⟩
      · rw [sysMalloc, if_neg hsize, if_pos hlarge]
        rfl
      · rw [sysMalloc, if_neg hsize, if_pos hlarge]
        exact ⟨_, rfl⟩
    next hlarge =>
      split at hw
      next hempty =>
        obtain rfl := Option.some.inj hw
        refine ⟨?_, Nat.le_refl 1, Or.inl rfl⟩
        rw [sysMalloc, if_neg hsize, if_neg hlarge, if_pos hempty]
        rfl
      next => cases hw

theorem pagesWanted_refused {o : HeapOwner} {h : HeapState} {size : Nat}
    (hsize : ¬(0 < size ∧ size < o.poolSize)) : pagesWanted o h size = none ∧
      sysMalloc o h size none = some (0, h) := by
  rw [pagesWanted, if_pos hsize, sysMalloc, if_pos hsize]
  exact ⟨rfl, rfl⟩

/-- `sys_malloc` that wants pages answers `NULL` if `malloc_page` does, and a single
page, or a pointer into many, it answers otherwise. -/
theorem sysMallocPaged_null_iff {L : Layout} {pf : PoolFlags} {o : HeapOwner} {h : HeapState}
    {s : Mm} {size n : Nat} (hw : pagesWanted o h size = some n)
    (hout : ¬(s.vaddrMap pf).HasRun n (8 * (s.vaddrMap pf).bytesLen) ∨
      (s.pool pf).free.card < n) :
    (∃ h' s', sysMallocPaged L pf o h s size = some (0, h', s')) ↔
      ∃ s', Paging.mallocPage (pallocFrom L) pf s n = some (none, s') := by
  obtain ⟨hnull, -, hmany⟩ := sysMalloc_wanted hw
  rw [sysMallocPaged, hw]
  constructor
  · intro hin
    obtain ⟨h', s', hrun⟩ := hin
    obtain ⟨⟨answer, s1⟩, hpage, hrun⟩ := Option.bind_eq_some_iff.mp hrun
    obtain ⟨⟨r, h1⟩, hheap, hrun⟩ := Option.bind_eq_some_iff.mp hrun
    obtain rfl : r = 0 := congrArg Prod.fst (Option.some.inj hrun)
    cases answer with
    | none => exact ⟨s1, hpage⟩
    | some a =>
      rcases hmany with rfl | hmany
      · obtain ⟨hrun1, hcard⟩ := mallocPage_one hpage
        rcases hout with hno | hlt
        · exact absurd hrun1 hno
        · omega
      · obtain ⟨h2, ha⟩ := hmany a
        rw [ha] at hheap
        have hzero := congrArg Prod.fst (Option.some.inj hheap)
        unfold arenaSize at hzero
        dsimp only at hzero
        omega
  · intro hin
    obtain ⟨s', hpage⟩ := hin
    refine ⟨h, s', ?_⟩
    dsimp only
    rw [hpage, Option.bind_eq_bind, Option.bind_some]
    dsimp only
    rw [hnull]
    rfl

/-! ## All of them -/

/-- **When exhaustion is reported.** A call whose resource has run out comes back and
says so exactly if it is `Answered`. -/
theorem exhaustion_reported_iff {p : Partition} (L : Layout) (k : Resources p) (req : Request)
    (hout : k.RunOut req) : k.Reports L req ↔ k.Answered req := by
  cases req with
  | inode =>
    refine iff_of_false ?_ id
    intro hin
    obtain ⟨vol, h⟩ := hin
    rw [inodeBitmapAlloc, bitmapScan_of_free hout] at h
    cases h
  | block =>
    refine iff_of_false ?_ id
    intro hin
    obtain ⟨vol, h⟩ := hin
    rw [blockBitmapAlloc, bitmapScan_of_free hout] at h
    cases h
  | frame pf =>
    refine iff_of_false ?_ id
    intro hin
    obtain ⟨mm, h⟩ := hin
    rw [pallocFrom_of_free hout] at h
    cases h
  | pages pf pgCnt =>
    have hn : 1 ≤ pgCnt := hout.1
    exact (vaddrGet_null_iff hn).trans (bitmapScan_minus_one_iff hn)
  | bytes pf size =>
    by_cases hsize : 0 < size ∧ size < (k.owner pf).poolSize
    · obtain ⟨n, hw, hout⟩ := hout hsize
      obtain ⟨-, hn, -⟩ := sysMalloc_wanted hw
      have hnull := (sysMallocPaged_null_iff (L := L) hw hout).trans (mallocPage_null_iff hn)
      rw [bitmapScan_minus_one_iff hn] at hnull
      refine hnull.trans ⟨fun h => Or.inr ⟨n, hw, h⟩, ?_⟩
      intro hor
      rcases hor with hno | ⟨n', hw', h⟩
      · exact absurd hsize hno
      · obtain rfl := Option.some.inj (hw.symm.trans hw')
        exact h
    · obtain ⟨hw, hnull⟩ := pagesWanted_refused (h := k.heap pf) hsize
      refine iff_of_true ⟨k.heap pf, k.mm, ?_⟩ (Or.inl hsize)
      rw [sysMallocPaged, hw]
      dsimp only
      rw [hnull]
      rfl

/-- A map in which every other page is taken, and maps in which everything is. -/
def spent : Resources blankPartition where
  vol := ⟨Mem.zero, ⟨_, fun _ => 0xff⟩, ⟨_, fun _ => 0xff⟩, rfl, rfl⟩
  mm :=
    { mem := fun _ _ => 0, cr3 := 0x100
      kernelPool := ⟨1, fun _ => 0xff⟩, userPool := ⟨1, fun _ => 0xff⟩
      kernelVaddr := ⟨1, fun _ => 0x55⟩, userVaddr := ⟨1, fun _ => 0xff⟩ }
  owner := fun _ => kernelHeap
  heap := fun _ => ⟨Mem.zero, []⟩

/-- Two pages in a row are not there, and `vaddr_get` says so. -/
theorem exhaustion_reported_iff_two_pages :
    spent.Reports ⟨0x2000000⟩ (.pages .kernel 2) ↔ spent.Answered (.pages .kernel 2) := by
  refine exhaustion_reported_iff ⟨0x2000000⟩ spent (.pages .kernel 2) ⟨by decide, ?_⟩
  intro hin
  obtain ⟨i, hi, hclear⟩ := hin
  have hnone : ∀ i, i < 7 → ¬Bitmap.Clear ⟨1, fun _ => 0x55⟩ i 2 := by decide
  have hi : i + 2 ≤ 8 := hi
  exact hnone i (by omega) hclear

/-- **With all blocks in use** `block_bitmap_alloc` does not come back. -/
theorem exhausted_blocks_fatal : ¬∀ (p : Partition) (L : Layout) (k : Resources p) (req : Request),
    k.RunOut req → k.Reports L req := by
  intro h
  have hfree : spent.vol.blockBitmap.free = ∅ := by
    rw [Finset.eq_empty_iff_forall_notMem]
    intro i hi
    have hbit := (Bitmap.mem_free.mp hi).2
    have hset : spent.vol.blockBitmap.bit i = true := by
      show (0xff : UInt8).toNat.testBit (i % 8) = true
      rw [show (0xff : UInt8).toNat = 2 ^ 8 - 1 from rfl, Nat.testBit_two_pow_sub_one]
      exact decide_eq_true (Nat.mod_lt i (by decide))
    rw [hset] at hbit
    cases hbit
  obtain ⟨vol, hnull⟩ := h blankPartition ⟨0x2000000⟩ spent .block hfree
  rw [blockBitmapAlloc, bitmapScan_of_free hfree] at hnull
  cases hnull

end OsCore.Kernel
