import OsCore.Bitmap
import OsCore.Lib.PageTable

/-!
# Pages (`kernel/memory.c`)

`malloc_page` takes pages of the address space from one bitmap and frames from
another, and enters the frames into the page tables of the running thread, one
page at a time; `mfree_page` undoes it. The page tables are edited through the
last 4 MB of the address space, where the directory maps its own tables:
`pte_ptr` and `pde_ptr` are the addresses there.

Memory is frames of words here, and an access that no page table backs does not
come back (`none`), as for an `ASSERT` that fails. The bitmaps are values of
their own and not part of that memory.

The allocator of frames is an argument of the allocation path, so that what a
refused request leaves behind can be asked about; `pallocFrom` is the code's own.
It halts in `bitmap_scan` when a pool is exhausted, so with it `NULL` is answered
only when the address space has no room.
-/

namespace OsCore.Paging

open OsCore.Lib

/-! ## Memory as `mem_pool_init` leaves it -/

/-- `K_HEAP_START`. -/
def kHeapStart : Nat := 0xc0100000

/-- `USER_VADDR_START`. -/
def userVaddrStart : Nat := 0x8048000

/-- `btmp_bytes_len` of a process: `(0xc0000000 - USER_VADDR_START) / PG_SIZE / 8`. -/
def userBitmapLen : Nat := (0xc0000000 - userVaddrStart) / 4096 / 8

/-- What `mem_pool_init` makes of the memory size, which the loader has left at
`0xb00`: the start of the pools and the lengths of their bitmaps. The page counts
are `uint16_t`. -/
structure Layout where
  allMem : Nat

namespace Layout

def allFreePages (L : Layout) : Nat := (L.allMem + 2 ^ 32 - 0x200000) % 2 ^ 32 / 4096 % 2 ^ 16

def kernelFreePages (L : Layout) : Nat := L.allFreePages / 2

def userFreePages (L : Layout) : Nat := L.allFreePages - L.kernelFreePages

/-- `kernel_pool.phy_addr_start`: behind low memory, the directory and the tables
of the loader. -/
def kernelStart (_ : Layout) : Nat := 0x200000

/-- `user_pool.phy_addr_start`. -/
def userStart (L : Layout) : Nat := L.kernelStart + L.kernelFreePages * 4096

/-- `kbm_length`, of `kernel_pool` and of `kernel_vaddr`. -/
def kbmLength (L : Layout) : Nat := L.kernelFreePages / 8

def ubmLength (L : Layout) : Nat := L.userFreePages / 8

theorem kbmLength_le (L : Layout) : 8 * L.kbmLength ≤ L.kernelFreePages := by
  unfold kbmLength
  omega

theorem kernelFreePages_lt (L : Layout) : L.kernelFreePages < 2 ^ 15 := by
  have : L.allFreePages < 2 ^ 16 := Nat.mod_lt _ (by decide)
  unfold kernelFreePages
  omega

end Layout

/-- `enum pool_flags`. -/
inductive PoolFlags
  | kernel
  | user
  deriving DecidableEq

/-- Memory management as the running thread sees it: the frames, the frame of the
current directory (`cr3`), the bitmaps of the two pools and of the kernel's part
of the address space, and `userprog_vaddr.vaddr_bitmap` of the thread. -/
structure Mm where
  mem : Phys
  cr3 : Nat
  kernelPool : Bitmap
  userPool : Bitmap
  kernelVaddr : Bitmap
  userVaddr : Bitmap

namespace Mm

/-- Read a word. -/
def load (s : Mm) (addr : Nat) : Option Nat := loadWord s.mem s.cr3 addr

/-- Write a word. -/
def store (s : Mm) (addr w : Nat) : Option Mm :=
  (storeWord s.mem s.cr3 addr w).map fun mem => { s with mem }

/-- `memset` of a page with zeros. -/
def clearPage (s : Mm) (addr : Nat) : Option Mm :=
  (walk s.mem s.cr3 (addr / 4096)).map fun f => { s with mem := s.mem.clear f }

/-- `memset` of `n` pages with zeros. -/
def clearPages (addr : Nat) : Nat → Mm → Option Mm
  | 0, s => some s
  | n + 1, s => (s.clearPage addr).bind (clearPages (addr + 4096) n)

/-- `memcpy` of a page. -/
def copyPage (s : Mm) (dst src : Nat) : Option Mm := do
  let f ← walk s.mem s.cr3 (src / 4096)
  let g ← walk s.mem s.cr3 (dst / 4096)
  return { s with mem := s.mem.copy g f }

end Mm

/-! ## Pages of the address space -/

/-- Store `value` in `n` bits from `i` on. -/
def setBits (b : Bitmap) (i : Nat) (value : Bool) : Nat → Bitmap
  | 0 => b
  | n + 1 => setBits (b.bitmapSet i value) (i + 1) value n

/-- `vaddr_get`. -/
def vaddrGet (pf : PoolFlags) (s : Mm) (pgCnt : Nat) : Option (Option Nat × Mm) :=
  match pf with
  | .kernel => do
    let bitIdxStart ← s.kernelVaddr.bitmapScan pgCnt
    if bitIdxStart = -1 then return (none, s)
    let s := { s with kernelVaddr := setBits s.kernelVaddr bitIdxStart.toNat true pgCnt }
    return (some (kHeapStart + bitIdxStart.toNat * 4096), s)
  | .user => do
    let bitIdxStart ← s.userVaddr.bitmapScan pgCnt
    if bitIdxStart = -1 then return (none, s)
    let s := { s with userVaddr := setBits s.userVaddr bitIdxStart.toNat true pgCnt }
    let vaddrStart := userVaddrStart + bitIdxStart.toNat * 4096
    ensure (vaddrStart < 0xc0000000 - 4096)
    return (some vaddrStart, s)

/-- `vaddr_remove`. -/
def vaddrRemove (pf : PoolFlags) (s : Mm) (vaddr pgCnt : Nat) : Mm :=
  match pf with
  | .kernel =>
    { s with kernelVaddr := setBits s.kernelVaddr ((vaddr - kHeapStart) / 4096) false pgCnt }
  | .user =>
    { s with userVaddr := setBits s.userVaddr ((vaddr - userVaddrStart) / 4096) false pgCnt }

/-! ## Frames -/

/-- `palloc`, for a pool that starts at the address `start`. -/
def palloc (start : Nat) (pool : Bitmap) : Option (Option Nat × Bitmap) := do
  let bitIdx ← pool.bitmapScan 1
  if bitIdx = -1 then return (none, pool)
  return (some (bitIdx.toNat * 4096 + start), pool.bitmapSet bitIdx.toNat true)

/-- `palloc` finds the first clear bit and sets it. -/
theorem palloc_spec {start : Nat} {pool b : Bitmap} {r : Option Nat}
    (h : palloc start pool = some (r, b)) : ∃ i, r = some (i * 4096 + start) ∧
      i < 8 * pool.bytesLen ∧ pool.bit i = false ∧ (∀ j, j < i → pool.bit j = true) ∧
      b = pool.bitmapSet i true := by
  obtain ⟨x, hscan, h⟩ := Option.bind_eq_some_iff.mp h
  obtain ⟨i, rfl, hi, hfree, hfirst⟩ := Bitmap.bitmapScan_one hscan
  have hne : ¬(i : Int) = -1 := by omega
  simp only [if_neg hne, Option.pure_def, Option.some.injEq, Prod.mk.injEq,
    Int.toNat_natCast] at h
  exact ⟨i, h.1.symm, hi, hfree, hfirst, h.2.symm⟩

/-- `palloc` from the pool of `pf`. -/
def pallocFrom (L : Layout) (pf : PoolFlags) (s : Mm) : Option (Option Nat × Mm) :=
  match pf with
  | .kernel => (palloc L.kernelStart s.kernelPool).map fun (r, b) => (r, { s with kernelPool := b })
  | .user => (palloc L.userStart s.userPool).map fun (r, b) => (r, { s with userPool := b })

theorem pallocFrom_kernel {L : Layout} {s s' : Mm} {r : Option Nat}
    (h : pallocFrom L .kernel s = some (r, s')) : ∃ i, r = some (i * 4096 + L.kernelStart) ∧
      i < 8 * s.kernelPool.bytesLen ∧ s.kernelPool.bit i = false ∧
      (∀ j, j < i → s.kernelPool.bit j = true) ∧
      s' = { s with kernelPool := s.kernelPool.bitmapSet i true } := by
  obtain ⟨⟨r', b⟩, hp, hb⟩ := Option.map_eq_some_iff.mp h
  simp only [Prod.mk.injEq] at hb
  obtain ⟨rfl, rfl⟩ := hb
  obtain ⟨i, rfl, hi, hfree, hfirst, rfl⟩ := palloc_spec hp
  exact ⟨i, rfl, hi, hfree, hfirst, rfl⟩

theorem pallocFrom_user {L : Layout} {s s' : Mm} {r : Option Nat}
    (h : pallocFrom L .user s = some (r, s')) : ∃ i, r = some (i * 4096 + L.userStart) ∧
      i < 8 * s.userPool.bytesLen ∧ s.userPool.bit i = false ∧
      (∀ j, j < i → s.userPool.bit j = true) ∧
      s' = { s with userPool := s.userPool.bitmapSet i true } := by
  obtain ⟨⟨r', b⟩, hp, hb⟩ := Option.map_eq_some_iff.mp h
  simp only [Prod.mk.injEq] at hb
  obtain ⟨rfl, rfl⟩ := hb
  obtain ⟨i, rfl, hi, hfree, hfirst, rfl⟩ := palloc_spec hp
  exact ⟨i, rfl, hi, hfree, hfirst, rfl⟩

/-- `pfree`; `free_a_phy_page` has the same body. -/
def pfree (L : Layout) (s : Mm) (pgPhyAddr : Nat) : Mm :=
  if L.userStart ≤ pgPhyAddr then
    { s with userPool := s.userPool.bitmapSet ((pgPhyAddr - L.userStart) / 4096) false }
  else { s with kernelPool := s.kernelPool.bitmapSet ((pgPhyAddr - L.kernelStart) / 4096) false }

/-! ## Page tables -/

/-- `pte_ptr`: `0xffc00000 + ((vaddr & 0xffc00000) >> 10) + PTE_IDX(vaddr) * 4`. -/
def ptePtr (vaddr : Nat) : Nat := 0xffc00000 + vaddr / 0x400000 * 4096 + vaddr / 4096 % 1024 * 4

/-- `pde_ptr`: `0xfffff000 + PDE_IDX(vaddr) * 4`. -/
def pdePtr (vaddr : Nat) : Nat := 0xfffff000 + vaddr / 0x400000 * 4

/-- An entry for the frame at `phy`: `phy | PG_US_U | PG_RW_W | PG_P_1`. -/
def entry (phy : Nat) : Nat := phy ||| 4 ||| 2 ||| 1

/-- `addr_v2p`. -/
def addrV2p (s : Mm) (vaddr : Nat) : Option Nat :=
  (s.load (ptePtr vaddr)).map fun pte => frameOf pte * 4096 + vaddr % 4096

/-- `page_table_pte_remove`: `*pte &= ~PG_P_1`. -/
def pageTablePteRemove (s : Mm) (vaddr : Nat) : Option Mm := do
  let pte ← s.load (ptePtr vaddr)
  s.store (ptePtr vaddr) (pte / 2 * 2)

/-! ## Allocation -/

section Allocation

variable (alloc : PoolFlags → Mm → Option (Option Nat × Mm))

/-- `page_table_add`. -/
def pageTableAdd (s : Mm) (vaddr pagePhyaddr : Nat) : Option Mm := do
  let pde ← s.load (pdePtr vaddr)
  if Present pde then
    let pte ← s.load (ptePtr vaddr)
    ensure (¬Present pte)
    s.store (ptePtr vaddr) (entry pagePhyaddr)
  else
    -- tables are always in frames of the kernel's pool
    let (pdePhyaddr, s) ← alloc .kernel s
    let s ← s.store (pdePtr vaddr) (entry (pdePhyaddr.getD 0))
    let s ← s.clearPage (ptePtr vaddr)
    let pte ← s.load (ptePtr vaddr)
    ensure (¬Present pte)
    s.store (ptePtr vaddr) (entry pagePhyaddr)

/-- Loop of `malloc_page`: `cnt` pages from `vaddr` on; `false` where a frame is
missing. -/
def mallocLoop (pf : PoolFlags) : Nat → Nat → Mm → Option (Bool × Mm)
  | 0, _, s => some (true, s)
  | cnt + 1, vaddr, s => do
    let (pagePhyaddr, s) ← alloc pf s
    match pagePhyaddr with
    | none => return (false, s)
    | some phy =>
      let s ← pageTableAdd alloc s vaddr phy
      mallocLoop pf cnt (vaddr + 4096) s

/-- `malloc_page`; `none` inside is `NULL`. -/
def mallocPage (pf : PoolFlags) (s : Mm) (pgCnt : Nat) : Option (Option Nat × Mm) := do
  ensure (0 < pgCnt ∧ pgCnt < 3840)
  let (vaddrStart, s) ← vaddrGet pf s pgCnt
  match vaddrStart with
  | none => return (none, s)
  | some vaddr =>
    let (done, s) ← mallocLoop alloc pf pgCnt vaddr s
    return (if done then some vaddr else none, s)

/-- `get_kernel_pages`. -/
def getKernelPages (s : Mm) (pgCnt : Nat) : Option (Option Nat × Mm) := do
  let (vaddr, s) ← mallocPage alloc .kernel s pgCnt
  match vaddr with
  | none => return (none, s)
  | some v =>
    let s ← s.clearPages v pgCnt
    return (some v, s)

/-- `get_a_page` of a process, for `PF_USER`. The index is an `int32_t` made from
an unsigned difference; divided by the page size it is never negative, so the
`ASSERT` after it holds. -/
def getAPage (s : Mm) (vaddr : Nat) : Option (Option Nat × Mm) := do
  let bitIdx := (vaddr + 2 ^ 32 - userVaddrStart) % 2 ^ 32 / 4096
  let s := { s with userVaddr := s.userVaddr.bitmapSet bitIdx true }
  let (pagePhyaddr, s) ← alloc .user s
  match pagePhyaddr with
  | none => return (none, s)
  | some phy =>
    let s ← pageTableAdd alloc s vaddr phy
    return (some vaddr, s)

/-- `get_a_page_without_opvaddrbitmap`, for `PF_USER`. -/
def getAPageWithoutOpvaddrbitmap (s : Mm) (vaddr : Nat) : Option (Option Nat × Mm) := do
  let (pagePhyaddr, s) ← alloc .user s
  match pagePhyaddr with
  | none => return (none, s)
  | some phy =>
    let s ← pageTableAdd alloc s vaddr phy
    return (some vaddr, s)

end Allocation

/-! ## Release -/

/-- Loop of `mfree_page`: `cnt` pages from `vaddr` on, whose frames are in the
right pool. -/
def mfreeLoop (L : Layout) (inPool : Nat → Bool) : Nat → Nat → Mm → Option Mm
  | 0, _, s => some s
  | cnt + 1, vaddr, s => do
    let pgPhyAddr ← addrV2p s vaddr
    ensure (pgPhyAddr % 4096 = 0 ∧ inPool pgPhyAddr = true)
    let s ← pageTablePteRemove (pfree L s pgPhyAddr) vaddr
    mfreeLoop L inPool cnt (vaddr + 4096) s

/-- `mfree_page`. -/
def mfreePage (L : Layout) (pf : PoolFlags) (s : Mm) (vaddr pgCnt : Nat) : Option Mm := do
  ensure (1 ≤ pgCnt ∧ vaddr % 4096 = 0)
  let pgPhyAddr ← addrV2p s vaddr
  ensure (pgPhyAddr % 4096 = 0 ∧ 0x102000 ≤ pgPhyAddr)
  if L.userStart ≤ pgPhyAddr then
    let s ← mfreeLoop L (fun a => L.userStart ≤ a) pgCnt vaddr s
    return vaddrRemove pf s vaddr pgCnt
  else
    let s ← mfreeLoop L (fun a => L.kernelStart ≤ a ∧ a < L.userStart) pgCnt vaddr s
    return vaddrRemove pf s vaddr pgCnt

end OsCore.Paging
