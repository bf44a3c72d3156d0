import OsCore.Kernel.FrameSteps

/-!
# Laying out the pools (`kernel/memory.c`)

`mem_pool_init` cuts what is behind the first 2 MB in two and puts three bitmaps
behind each other at `MEM_BITMAP_BASE`. Page counts are `uint16_t`, addresses and
lengths `uint32_t`, and so they are here; with 4 GB of memory most of the pages are
cut off by the first of the conversions, and none of the other operations overflows
then (`memPoolInit_layout`).

The bitmaps are bytes of one memory, and `palloc`, `pfree` and `free_a_phy_page` work
on that memory (`Map`, `Pools.bit`). A pool is only told from the other by where the
user pool starts; that is enough since the bits of the kernel's pool stop before it
(`PoolsSound`).
-/

namespace OsCore.Paging.Word

/-! ## The code -/

/-- `MEM_BITMAP_BASE` -/
def memBitmapBase : UInt32 := 0xc009a000

/-- `struct bitmap`, with the address of its bits. -/
structure BitmapAt where
  btmpBytesLen : UInt32
  bits : UInt32

namespace BitmapAt

variable (b : BitmapAt) (mem : Mem)

/-- What is in memory at `bits`. -/
def read : Bitmap := ⟨b.btmpBytesLen.toNat, mem.shift b.bits.toNat⟩

/-- `bitmap_init` -/
def bitmapInit : Mem := mem.fill b.bits.toNat 0 b.btmpBytesLen.toNat

/-- `bitmap_set` -/
def bitmapSet (bitIdx : Nat) (value : Bool) : Mem := fun a =>
  if b.bits.toNat ≤ a then ((b.read mem).bitmapSet bitIdx value).bits (a - b.bits.toNat) else mem a

end BitmapAt

/-- `struct pool`, but for its lock. -/
structure Pool where
  poolBitmap : BitmapAt
  phyAddrStart : UInt32
  poolSize : UInt32

/-- `struct virtual_addr` -/
structure VirtualAddr where
  vaddrBitmap : BitmapAt
  vaddrStart : UInt32

/-- The variables that `mem_pool_init` sets. -/
structure Pools where
  kernelPool : Pool
  userPool : Pool
  kernelVaddr : VirtualAddr

/-- `mem_pool_init`, with the bitmaps it clears. -/
def memPoolInit (allMem : UInt32) (mem : Mem) : Pools × Mem :=
  let pageTableSize : UInt32 := 4096 * 256
  let usedMem : UInt32 := pageTableSize + 0x100000
  let freeMem : UInt32 := allMem - usedMem
  let allFreePages : UInt16 := (freeMem / 4096).toUInt16
  let kernelFreePages : UInt16 := allFreePages / 2
  let userFreePages : UInt16 := allFreePages - kernelFreePages
  let kbmLength : UInt32 := (kernelFreePages / 8).toUInt32
  let ubmLength : UInt32 := (userFreePages / 8).toUInt32
  let kpStart : UInt32 := usedMem
  let upStart : UInt32 := kpStart + kernelFreePages.toUInt32 * 4096
  let kernelPool : Pool :=
    ⟨⟨kbmLength, memBitmapBase⟩, kpStart, kernelFreePages.toUInt32 * 4096⟩
  let userPool : Pool :=
    ⟨⟨ubmLength, memBitmapBase + kbmLength⟩, upStart, userFreePages.toUInt32 * 4096⟩
  let mem := kernelPool.poolBitmap.bitmapInit mem
  let mem := userPool.poolBitmap.bitmapInit mem
  let kernelVaddr : VirtualAddr :=
    ⟨⟨kbmLength, memBitmapBase + kbmLength + ubmLength⟩, 0xc0100000⟩
  let mem := kernelVaddr.vaddrBitmap.bitmapInit mem
  (⟨kernelPool, userPool, kernelVaddr⟩, mem)

/-- `palloc` -/
def palloc (mPool : Pool) (mem : Mem) : Option (Option UInt32 × Mem) := do
  let bitIdx ← (mPool.poolBitmap.read mem).bitmapScan 1
  if bitIdx = -1 then return (none, mem)
  let mem := mPool.poolBitmap.bitmapSet mem bitIdx.toNat true
  return (some (UInt32.ofNat bitIdx.toNat * 4096 + mPool.phyAddrStart), mem)

/-- `pfree` -/
def pfree (P : Pools) (mem : Mem) (pgPhyAddr : UInt32) : Mem :=
  if pgPhyAddr ≥ P.userPool.phyAddrStart then
    let bitIdx := (pgPhyAddr - P.userPool.phyAddrStart) / 4096
    P.userPool.poolBitmap.bitmapSet mem bitIdx.toNat false
  else
    let bitIdx := (pgPhyAddr - P.kernelPool.phyAddrStart) / 4096
    P.kernelPool.poolBitmap.bitmapSet mem bitIdx.toNat false

/-- `free_a_phy_page`, whose body is that of `pfree`. -/
def freeAPhyPage (P : Pools) (mem : Mem) (pgPhyAddr : UInt32) : Mem := pfree P mem pgPhyAddr

/-! ## Three bitmaps -/

/-- The bitmaps. -/
inductive Map
  | kernelPool
  | userPool
  | kernelVaddr
  deriving DecidableEq

/-- The bitmap of a pool. -/
def Map.of : PoolFlags → Map
  | .kernel => .kernelPool
  | .user => .userPool

namespace Pools

variable (P : Pools)

def bitmap : Map → BitmapAt
  | .kernelPool => P.kernelPool.poolBitmap
  | .userPool => P.userPool.poolBitmap
  | .kernelVaddr => P.kernelVaddr.vaddrBitmap

def pool : PoolFlags → Pool
  | .kernel => P.kernelPool
  | .user => P.userPool

/-- How many bits a bitmap has. -/
def bits (w : Map) : Nat := 8 * (P.bitmap w).btmpBytesLen.toNat

/-- A bit of a bitmap, in memory. -/
def bit (mem : Mem) (w : Map) (i : Nat) : Bool := ((P.bitmap w).read mem).bit i

end Pools

/-- In memory `mem'` is `mem` with one bit of one bitmap changed. -/
def ChangesBit (P : Pools) (mem mem' : Mem) (w : Map) (i : Nat) (v : Bool) : Prop :=
  ∀ w' j, j < P.bits w' → P.bit mem' w' j = if w' = w ∧ j = i then v else P.bit mem w' j

/-- `pgPhyAddr` is the frame of bit `i` of a pool: `palloc` finds the bit clear and sets
it, and giving the frame back, at whatever time, clears it. -/
structure Granted (P : Pools) (pf : PoolFlags) (mem mem' : Mem) (pgPhyAddr : UInt32)
    (i : Nat) : Prop where
  lt : i < P.bits (.of pf)
  addr : pgPhyAddr.toNat = (P.pool pf).phyAddrStart.toNat + i * 4096
  clear : P.bit mem (.of pf) i = false
  takes : ChangesBit P mem mem' (.of pf) i true
  gives : ∀ m, pfree P m pgPhyAddr = (P.bitmap (.of pf)).bitmapSet m i false ∧
    freeAPhyPage P m pgPhyAddr = (P.bitmap (.of pf)).bitmapSet m i false ∧
    ChangesBit P m (pfree P m pgPhyAddr) (.of pf) i false
  back : pfree P mem' pgPhyAddr = mem

/-- The pools of a memory of `allMem` bytes are where they should be. -/
structure PoolsSound (P : Pools) (allMem : UInt32) : Prop where
  frames : ∀ pf i, i < P.bits (.of pf) →
    i * 4096 + 4096 ≤ (P.pool pf).poolSize.toNat
  low : 0x200000 ≤ P.kernelPool.phyAddrStart.toNat
  ranges : P.kernelPool.phyAddrStart.toNat + P.kernelPool.poolSize.toNat ≤
    P.userPool.phyAddrStart.toNat
  high : P.userPool.phyAddrStart.toNat + P.userPool.poolSize.toNat ≤ allMem.toNat
  userBits : P.kernelPool.poolBitmap.bits.toNat + P.kernelPool.poolBitmap.btmpBytesLen.toNat ≤
    P.userPool.poolBitmap.bits.toNat
  vaddrBits : P.userPool.poolBitmap.bits.toNat + P.userPool.poolBitmap.btmpBytesLen.toNat ≤
    P.kernelVaddr.vaddrBitmap.bits.toNat
  lastBits : P.kernelVaddr.vaddrBitmap.bits.toNat +
    P.kernelVaddr.vaddrBitmap.btmpBytesLen.toNat ≤ 0xc009e000
  granted : ∀ pf mem addr mem', palloc (P.pool pf) mem = some (some addr, mem') →
    ∃ i, Granted P pf mem mem' addr i

/-! ## Where things are -/

/-- The same layout in natural numbers. -/
def layout (allMem : UInt32) : Layout := ⟨allMem.toNat⟩

/-- What the variables say is what the layout says. -/
structure Laid (P : Pools) (L : Layout) : Prop where
  kernelStart : P.kernelPool.phyAddrStart.toNat = L.kernelStart
  kernelSize : P.kernelPool.poolSize.toNat = L.kernelFreePages * 4096
  kernelLen : P.kernelPool.poolBitmap.btmpBytesLen.toNat = L.kbmLength
  kernelBits : P.kernelPool.poolBitmap.bits.toNat = memBitmapBase.toNat
  userStart : P.userPool.phyAddrStart.toNat = L.userStart
  userSize : P.userPool.poolSize.toNat = L.userFreePages * 4096
  userLen : P.userPool.poolBitmap.btmpBytesLen.toNat = L.ubmLength
  userBits : P.userPool.poolBitmap.bits.toNat = memBitmapBase.toNat + L.kbmLength
  vaddrLen : P.kernelVaddr.vaddrBitmap.btmpBytesLen.toNat = L.kbmLength
  vaddrBits : P.kernelVaddr.vaddrBitmap.bits.toNat =
    memBitmapBase.toNat + L.kbmLength + L.ubmLength
  vaddrStart : P.kernelVaddr.vaddrStart.toNat = kHeapStart

section

variable (allMem : UInt32)

theorem toNat_allFreePages :
    ((allMem - 0x200000) / 4096).toUInt16.toNat = (layout allMem).allFreePages := by
  have hpage : (4096 : UInt32).toNat = 4096 := rfl
  have hused : (0x200000 : UInt32).toNat = 0x200000 := rfl
  have hlt := allMem.toNat_lt
  rw [UInt32.toNat_toUInt16, UInt32.toNat_div, UInt32.toNat_sub, hpage, hused]
  change _ = (allMem.toNat + 2 ^ 32 - 0x200000) % 2 ^ 32 / 4096 % 2 ^ 16
  omega

theorem toNat_kernelFreePages {all : UInt16} {L : Layout} (h : all.toNat = L.allFreePages) :
    (all / 2).toNat = L.kernelFreePages := by
  rw [UInt16.toNat_div, h]
  rfl

theorem toNat_userFreePages {all : UInt16} {L : Layout} (h : all.toNat = L.allFreePages) :
    (all - all / 2).toNat = L.userFreePages := by
  have hle : all / 2 ≤ all := by
    rw [UInt16.le_iff_toNat_le, UInt16.toNat_div]
    exact Nat.div_le_self _ _
  rw [UInt16.toNat_sub_of_le _ _ hle, h, toNat_kernelFreePages h]
  rfl

end

theorem userFreePages_le (L : Layout) : L.userFreePages ≤ 2 ^ 15 := by
  have hall : L.allFreePages < 2 ^ 16 := Nat.mod_lt _ (by decide)
  unfold Layout.userFreePages Layout.kernelFreePages
  omega

/-- `n` pages in bytes. -/
theorem toNat_pages {n : UInt16} : (n.toUInt32 * 4096).toNat = n.toNat * 4096 := by
  have hpage : (4096 : UInt32).toNat = 4096 := rfl
  have hlt := n.toNat_lt
  rw [UInt32.toNat_mul, UInt16.toNat_toUInt32, hpage]
  omega

/-- `n / 8` bytes. -/
theorem toNat_bytes {n : UInt16} : (n / 8).toUInt32.toNat = n.toNat / 8 := by
  rw [UInt16.toNat_toUInt32, UInt16.toNat_div]
  rfl

theorem memPoolInit_laid (allMem : UInt32) (mem : Mem) :
    Laid (memPoolInit allMem mem).1 (layout allMem) := by
  have hused : (4096 * 256 + 0x100000 : UInt32) = 0x200000 := by decide
  have hbase : memBitmapBase.toNat = 0xc009a000 := rfl
  have hstart : (0x200000 : UInt32).toNat = 0x200000 := rfl
  have hall := toNat_allFreePages allMem
  have hk := toNat_kernelFreePages hall
  have hu := toNat_userFreePages hall
  have hklt := (layout allMem).kernelFreePages_lt
  have hule := userFreePages_le (layout allMem)
  simp only [memPoolInit, hused]
  generalize ((allMem - 0x200000) / 4096).toUInt16 = all at hall hk hu ⊢
  refine ⟨rfl, ?_, ?_, rfl, ?_, ?_, ?_, ?_, ?_, ?_, rfl⟩
  · rw [toNat_pages, hk]
  · rw [toNat_bytes, hk]
    rfl
  · rw [UInt32.toNat_add, toNat_pages, hk, hstart, Layout.userStart, Layout.kernelStart]
    omega
  · rw [toNat_pages, hu]
  · rw [toNat_bytes, hu]
    rfl
  · rw [UInt32.toNat_add, toNat_bytes, hk, hbase, Layout.kbmLength]
    omega
  · rw [toNat_bytes, hk]
    rfl
  · rw [UInt32.toNat_add, UInt32.toNat_add, toNat_bytes, toNat_bytes, hk, hu, hbase,
      Layout.kbmLength, Layout.ubmLength]
    omega

/-! ## One bit of the memory -/

section

variable (b : BitmapAt) (mem : Mem) (i : Nat) (v : Bool)

theorem read_bitmapSet : b.read (b.bitmapSet mem i v) = (b.read mem).bitmapSet i v := by
  have hbits : (b.bitmapSet mem i v).shift b.bits.toNat = ((b.read mem).bitmapSet i v).bits := by
    funext a
    rw [Mem.shift, BitmapAt.bitmapSet, if_pos (Nat.le_add_right _ _), Nat.add_sub_cancel_left]
  rw [BitmapAt.read, hbits]
  rfl

/-- A store is to one byte. -/
theorem bitmapSet_out {a : Nat} (ha : a ≠ b.bits.toNat + i / 8) : b.bitmapSet mem i v a = mem a := by
  rw [BitmapAt.bitmapSet]
  split
  next hle =>
    have hne : a - b.bits.toNat ≠ i / 8 := by omega
    have hback : b.bits.toNat + (a - b.bits.toNat) = a := by omega
    change (if a - b.bits.toNat = i / 8 then _ else (b.read mem).bits (a - b.bits.toNat)) = _
    rw [if_neg hne]
    exact congrArg mem hback
  next => rfl

/-- Setting a clear bit and clearing it again leaves memory as it was. -/
theorem bitmapSet_back (h : (b.read mem).bit i = false) :
    b.bitmapSet (b.bitmapSet mem i true) i false = mem := by
  funext a
  by_cases ha : b.bits.toNat ≤ a
  · rw [BitmapAt.bitmapSet, if_pos ha, read_bitmapSet, Bitmap.bitmapSet_clear h]
    exact congrArg mem (Nat.add_sub_cancel' ha)
  · rw [bitmapSet_out b _ _ _ (by omega), bitmapSet_out b _ _ _ (by omega)]

end

variable {P : Pools} {L : Layout}

/-- Two bitmaps share no byte. -/
theorem Laid.apart (h : Laid P L) {w w' : Map} (hne : w' ≠ w) {i j : Nat} (hi : i < P.bits w)
    (hj : j < P.bits w') :
    (P.bitmap w').bits.toNat + j / 8 ≠ (P.bitmap w).bits.toNat + i / 8 := by
  have h1 := h.kernelLen
  have h2 := h.kernelBits
  have h3 := h.userLen
  have h4 := h.userBits
  have h5 := h.vaddrLen
  have h6 := h.vaddrBits
  cases w <;> cases w' <;> simp only [Pools.bits, Pools.bitmap] at hi hj ⊢ <;>
    first | exact absurd rfl hne | omega

/-- **A store changes its own bit** and none of the other bitmaps. -/
theorem Laid.changesBit (h : Laid P L) (mem : Mem) {w : Map} {i : Nat} (hi : i < P.bits w)
    (v : Bool) : ChangesBit P mem ((P.bitmap w).bitmapSet mem i v) w i v := by
  intro w' j hj
  by_cases hw : w' = w
  · rw [hw, Pools.bit, read_bitmapSet, Bitmap.bit_bitmapSet]
    simp [Pools.bit]
  · rw [if_neg fun hc => hw hc.1]
    have hbyte := bitmapSet_out (P.bitmap w) mem i v (h.apart hw hi hj)
    change ((P.bitmap w).bitmapSet mem i v ((P.bitmap w').bits.toNat + j / 8)).toNat.testBit _ =
      (mem ((P.bitmap w').bits.toNat + j / 8)).toNat.testBit _
    rw [hbyte]

/-! ## Frames of the pools -/

/-- The frames of the bits are inside the pool. -/
theorem Laid.frame_le (h : Laid P L) {pf : PoolFlags} {i : Nat} (hi : i < P.bits (.of pf)) :
    i * 4096 + 4096 ≤ (P.pool pf).poolSize.toNat := by
  cases pf with
  | kernel =>
    change i < 8 * P.kernelPool.poolBitmap.btmpBytesLen.toNat at hi
    change _ ≤ P.kernelPool.poolSize.toNat
    rw [h.kernelLen, Layout.kbmLength] at hi
    rw [h.kernelSize]
    omega
  | user =>
    change i < 8 * P.userPool.poolBitmap.btmpBytesLen.toNat at hi
    change _ ≤ P.userPool.poolSize.toNat
    rw [h.userLen, Layout.ubmLength] at hi
    rw [h.userSize]
    omega

/-- No address of a pool is behind the end of the address space. -/
theorem Laid.end_lt (h : Laid P L) (pf : PoolFlags) :
    (P.pool pf).phyAddrStart.toNat + (P.pool pf).poolSize.toNat < 2 ^ 32 := by
  have hk := L.kernelFreePages_lt
  have hu := userFreePages_le L
  have hstart : L.userStart = 0x200000 + L.kernelFreePages * 4096 := rfl
  cases pf with
  | kernel =>
    change P.kernelPool.phyAddrStart.toNat + P.kernelPool.poolSize.toNat < _
    rw [h.kernelStart, h.kernelSize, Layout.kernelStart]
    omega
  | user =>
    change P.userPool.phyAddrStart.toNat + P.userPool.poolSize.toNat < _
    rw [h.userStart, h.userSize, hstart]
    omega

/-- The pool of a frame is found again by the address. -/
theorem Laid.pfree_eq (h : Laid P L) {pf : PoolFlags} {i : Nat} (hi : i < P.bits (.of pf))
    {addr : UInt32} (haddr : addr.toNat = (P.pool pf).phyAddrStart.toNat + i * 4096) (m : Mem) :
    pfree P m addr = (P.bitmap (.of pf)).bitmapSet m i false := by
  have hframe := h.frame_le hi
  have hpage : (4096 : UInt32).toNat = 4096 := rfl
  have hidx : ((addr - (P.pool pf).phyAddrStart) / 4096).toNat = i := by
    have hlt := addr.toNat_lt
    rw [UInt32.toNat_div, UInt32.toNat_sub, haddr, hpage]
    omega
  rw [pfree]
  cases pf with
  | kernel =>
    have hbelow : ¬addr ≥ P.userPool.phyAddrStart := by
      change addr.toNat = P.kernelPool.phyAddrStart.toNat + i * 4096 at haddr
      change _ ≤ P.kernelPool.poolSize.toNat at hframe
      rw [h.kernelSize] at hframe
      rw [ge_iff_le, UInt32.le_iff_toNat_le, haddr, h.kernelStart, h.userStart, Layout.userStart]
      omega
    rw [if_neg hbelow]
    exact congrArg (fun n => P.kernelPool.poolBitmap.bitmapSet m n false) hidx
  | user =>
    have habove : addr ≥ P.userPool.phyAddrStart := by
      change addr.toNat = P.userPool.phyAddrStart.toNat + i * 4096 at haddr
      rw [ge_iff_le, UInt32.le_iff_toNat_le, haddr]
      omega
    rw [if_pos habove]
    exact congrArg (fun n => P.userPool.poolBitmap.bitmapSet m n false) hidx

/-- **What `palloc` grants.** -/
theorem Laid.granted (h : Laid P L) {pf : PoolFlags} {mem mem' : Mem} {addr : UInt32}
    (hrun : palloc (P.pool pf) mem = some (some addr, mem')) :
    ∃ i, Granted P pf mem mem' addr i := by
  have hmap : P.bitmap (.of pf) = (P.pool pf).poolBitmap := by cases pf <;> rfl
  obtain ⟨x, hscan, hrun⟩ := Option.bind_eq_some_iff.mp hrun
  obtain ⟨i, rfl, hi, hclear, -⟩ := Bitmap.bitmapScan_one hscan
  have hne : ¬(i : Int) = -1 := by omega
  simp only [if_neg hne, Option.pure_def, Option.some.injEq, Prod.mk.injEq,
    Int.toNat_natCast] at hrun
  obtain ⟨rfl, rfl⟩ := hrun
  rw [← hmap] at hi hclear ⊢
  have hbit : i < P.bits (.of pf) := hi
  have haddr : (UInt32.ofNat i * 4096 + (P.pool pf).phyAddrStart).toNat =
      (P.pool pf).phyAddrStart.toNat + i * 4096 := by
    have hframe := h.frame_le hbit
    have hend := h.end_lt pf
    have hpage : (4096 : UInt32).toNat = 4096 := rfl
    rw [UInt32.toNat_add, UInt32.toNat_mul, UInt32.toNat_ofNat', hpage]
    omega
  have hfree := h.pfree_eq hbit haddr
  refine ⟨i, hbit, haddr, hclear, h.changesBit mem hbit true, fun m => ⟨hfree m, hfree m, ?_⟩, ?_⟩
  · rw [hfree]
    exact h.changesBit m hbit false
  · rw [hfree]
    exact bitmapSet_back _ _ _ hclear

/-- The pages that are counted are there. -/
theorem userEnd_le {allMem : UInt32} (hmem : 0x200000 ≤ allMem) :
    (layout allMem).userStart + (layout allMem).userFreePages * 4096 ≤ allMem.toNat := by
  have hused : 0x200000 ≤ allMem.toNat := UInt32.le_iff_toNat_le.mp hmem
  have hlt := allMem.toNat_lt
  have hall : (layout allMem).allFreePages =
      (allMem.toNat + 2 ^ 32 - 0x200000) % 2 ^ 32 / 4096 % 2 ^ 16 := rfl
  have hstart : (layout allMem).userStart = 0x200000 + (layout allMem).kernelFreePages * 4096 := rfl
  have huser : (layout allMem).userFreePages =
      (layout allMem).allFreePages - (layout allMem).kernelFreePages := rfl
  have hkernel : (layout allMem).kernelFreePages = (layout allMem).allFreePages / 2 := rfl
  rw [hstart, huser, hkernel, hall]
  omega

/-- **The pools are laid out soundly.** -/
theorem mem_pool_init_sound (allMem : UInt32) (hmem : 0x200000 ≤ allMem) (mem : Mem) :
    PoolsSound (memPoolInit allMem mem).1 allMem := by
  have h := memPoolInit_laid allMem mem
  have hbase : memBitmapBase.toNat = 0xc009a000 := rfl
  have hk := (layout allMem).kernelFreePages_lt
  have hu := userFreePages_le (layout allMem)
  refine ⟨fun pf i hi => h.frame_le hi, ?_, ?_, ?_, ?_, ?_, ?_, fun pf m addr m' hrun =>
    h.granted hrun⟩
  · rw [h.kernelStart]
    exact Nat.le_refl _
  · rw [h.kernelStart, h.kernelSize, h.userStart]
    exact Nat.le_refl _
  · rw [h.userStart, h.userSize]
    exact userEnd_le hmem
  · rw [h.kernelBits, h.kernelLen, h.userBits]
  · rw [h.userBits, h.userLen, h.vaddrBits]
  · rw [h.vaddrBits, h.vaddrLen, hbase, Layout.kbmLength, Layout.ubmLength]
    omega

/-- With 32 MB. -/
theorem mem_pool_init_sound_small :
    PoolsSound (memPoolInit 0x2000000 Mem.zero).1 0x2000000 :=
  mem_pool_init_sound 0x2000000 (by decide) Mem.zero

/-! ## Empty bitmaps -/

theorem bitmapInit_in (b : BitmapAt) (mem : Mem) {k : Nat} (hk : k < b.btmpBytesLen.toNat) :
    b.bitmapInit mem (b.bits.toNat + k) = 0 := by
  rw [BitmapAt.bitmapInit, Mem.fill, Mem.blit_add hk]

/-- Clearing another bitmap leaves a zero. -/
theorem bitmapInit_zero (b : BitmapAt) {mem : Mem} {a : Nat} (ha : mem a = 0) :
    b.bitmapInit mem a = 0 := by
  change (if _ then (0 : UInt8) else mem a) = 0
  rw [ha]
  exact ite_self 0

/-- All bits are clear at first. -/
theorem memPoolInit_clear (allMem : UInt32) (mem : Mem) (w : Map) {i : Nat}
    (hi : i < (memPoolInit allMem mem).1.bits w) :
    (memPoolInit allMem mem).1.bit (memPoolInit allMem mem).2 w i = false := by
  have hbyte : (memPoolInit allMem mem).2
      (((memPoolInit allMem mem).1.bitmap w).bits.toNat + i / 8) = 0 := by
    have hk : i / 8 < ((memPoolInit allMem mem).1.bitmap w).btmpBytesLen.toNat := by
      rw [Pools.bits] at hi
      omega
    cases w with
    | kernelPool => exact bitmapInit_zero _ (bitmapInit_zero _ (bitmapInit_in _ _ hk))
    | userPool => exact bitmapInit_zero _ (bitmapInit_in _ _ hk)
    | kernelVaddr => exact bitmapInit_in _ _ hk
  change ((memPoolInit allMem mem).2 _).toNat.testBit _ = false
  rw [hbyte]
  exact Nat.zero_testBit _

/-! ## The same in natural numbers -/

/-- `palloc` is the `palloc` of `Paging` on the bitmap in memory. -/
theorem Laid.palloc_eq (h : Laid P L) (pf : PoolFlags) (mem : Mem) :
    (palloc (P.pool pf) mem).map (fun r =>
      (r.1.map UInt32.toNat, (P.pool pf).poolBitmap.read r.2)) =
      Paging.palloc (P.pool pf).phyAddrStart.toNat ((P.pool pf).poolBitmap.read mem) := by
  rw [palloc, Paging.palloc]
  cases hscan : ((P.pool pf).poolBitmap.read mem).bitmapScan 1 with
  | none => rfl
  | some x =>
    obtain ⟨i, rfl, hi, -, -⟩ := Bitmap.bitmapScan_one hscan
    have hbit : i < P.bits (.of pf) := by cases pf <;> exact hi
    have hframe := h.frame_le hbit
    have hend := h.end_lt pf
    have hpage : (4096 : UInt32).toNat = 4096 := rfl
    have haddr : (UInt32.ofNat i * 4096 + (P.pool pf).phyAddrStart).toNat =
        i * 4096 + (P.pool pf).phyAddrStart.toNat := by
      rw [UInt32.toNat_add, UInt32.toNat_mul, UInt32.toNat_ofNat', hpage]
      omega
    have hne : ¬(i : Int) = -1 := by omega
    simp only [Option.bind_eq_bind, Option.bind_some, if_neg hne, Option.pure_def,
      Option.map_some, Int.toNat_natCast, read_bitmapSet, haddr]

end OsCore.Paging.Word
