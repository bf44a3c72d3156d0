import OsCore.Bitmap

/-!
# The mounted partition: disk, geometry, block allocation

The disk is flat byte memory: byte `o` of sector `l` is byte `512 * l + o`, so
`ide_read` and `ide_write` (which move whole sectors) are a `shift` and a
`blit` at a multiple of 512. Both assert `lba <= max_lba`; waiting for the
controller is not modelled.

`Partition` is what `partition_format` lays out from `start_lba` and `sec_cnt`:
the super block fields are computed, in its words, from those two numbers, and
the two bounds it needs to make sense are fields of the structure.

`Vol` is the mounted state that block operations share, `disk` plus the two
bitmaps held in memory, whose lengths are fixed by the partition. The main
fact is `blockBitmapAlloc_spec`: an allocation that returns hands out a block
whose bit was clear and sets that bit; nothing else happens.
-/

namespace OsCore.Fs

/-! ## Sectors -/

/-- `max_lba` of the 80 MB disk. -/
def maxLba : Nat := 80 * 1024 * 1024 / 512 - 1

/-- `ide_read`: `secCnt` sectors from `lba` on into the front of `buf`. -/
def ideRead (disk : Mem) (lba : Nat) (buf : Mem) (secCnt : Nat) : Option Mem := do
  ensure (lba ≤ maxLba)
  ensure (0 < secCnt)
  return buf.blit 0 (disk.shift (512 * lba)) (512 * secCnt)

/-- `ide_write`: `secCnt` sectors of `buf` to `lba` on. -/
def ideWrite (disk : Mem) (lba : Nat) (buf : Mem) (secCnt : Nat) : Option Mem := do
  ensure (lba ≤ maxLba)
  ensure (0 < secCnt)
  return disk.blit (512 * lba) buf (512 * secCnt)

theorem ideRead_eq_some {disk buf m : Mem} {lba n : Nat} :
    ideRead disk lba buf n = some m ↔
      lba ≤ maxLba ∧ 0 < n ∧ buf.blit 0 (disk.shift (512 * lba)) (512 * n) = m := by
  simp [ideRead, Option.bind_eq_some_iff, ensure_eq_some]

theorem ideWrite_eq_some {disk buf m : Mem} {lba n : Nat} :
    ideWrite disk lba buf n = some m ↔
      lba ≤ maxLba ∧ 0 < n ∧ disk.blit (512 * lba) buf (512 * n) = m := by
  simp [ideWrite, Option.bind_eq_some_iff, ensure_eq_some]

/-! ## Geometry -/

/-- `DIV_ROUND_UP`. -/
def divRoundUp (x step : Nat) : Nat := (x + step - 1) / step

/-- `sizeof(struct inode)`. -/
def inodeSize : Nat := 76

/-- `sizeof(struct dir_entry)`. -/
def dirEntrySize : Nat := 24

/-- A partition of the disk with room for the file system's own sectors. -/
structure Partition where
  startLba : Nat
  secCnt : Nat
  room : 613 ≤ secCnt
  fits : startLba + secCnt ≤ maxLba + 1

namespace Partition

variable (p : Partition)

def inodeBitmapSects : Nat := divRoundUp 4096 4096

def inodeTableSects : Nat := divRoundUp (inodeSize * 4096) 512

/-- Boot sector, super block, inode bitmap and inode table. -/
def usedSects : Nat := 1 + 1 + inodeBitmapSects + inodeTableSects

def freeSects : Nat := p.secCnt - usedSects

/-- `block_bitmap_bit_len`, after the first estimate of the bitmap's own size. -/
def blockBitmapBitLen : Nat := p.freeSects - divRoundUp p.freeSects 4096

def blockBitmapSects : Nat := divRoundUp p.blockBitmapBitLen 4096

def blockBitmapLba : Nat := p.startLba + 2

def inodeBitmapLba : Nat := p.blockBitmapLba + p.blockBitmapSects

def inodeTableLba : Nat := p.inodeBitmapLba + inodeBitmapSects

def dataStartLba : Nat := p.inodeTableLba + inodeTableSects

theorem inodeTableSects_eq : inodeTableSects = 608 := by decide

theorem inodeBitmapSects_eq : inodeBitmapSects = 1 := by decide

theorem dataStartLba_eq : p.dataStartLba = p.startLba + p.blockBitmapSects + 611 := by
  simp only [dataStartLba, inodeTableLba, inodeBitmapLba, blockBitmapLba, inodeTableSects_eq,
    inodeBitmapSects_eq]
  omega

/-- The metadata ends inside the partition. -/
theorem dataStartLba_le : p.dataStartLba ≤ p.startLba + p.secCnt := by
  have hroom := p.room
  have hs : p.blockBitmapSects ≤ p.freeSects := by
    unfold blockBitmapSects divRoundUp
    have h : p.blockBitmapBitLen ≤ p.freeSects := Nat.sub_le _ _
    omega
  have hf : p.freeSects = p.secCnt - 611 := by
    simp [freeSects, usedSects, inodeTableSects_eq, inodeBitmapSects_eq]
  rw [dataStartLba_eq]
  omega

theorem dataStartLba_le_maxLba : p.dataStartLba ≤ maxLba + 1 :=
  Nat.le_trans p.dataStartLba_le p.fits

theorem blockBitmapSects_le : p.blockBitmapSects ≤ maxLba := by
  have h := p.dataStartLba_le_maxLba
  rw [dataStartLba_eq] at h
  omega

/-- Every block number a bitmap bit can stand for fits a word. -/
theorem block_lt {i : Nat} (h : i < 4096 * p.blockBitmapSects) : p.dataStartLba + i < 2 ^ 31 := by
  have h1 := p.dataStartLba_le_maxLba
  have h2 := p.blockBitmapSects_le
  have h3 : maxLba = 163839 := by decide
  omega

end Partition

/-! ## The mounted volume -/

/-- What block operations share: the disk and the two bitmaps in memory. -/
structure Vol (p : Partition) where
  disk : Mem
  blockBitmap : Bitmap
  inodeBitmap : Bitmap
  blockLen : blockBitmap.bytesLen = p.blockBitmapSects * 512
  inodeLen : inodeBitmap.bytesLen = Partition.inodeBitmapSects * 512

variable {p : Partition}

namespace Vol

/-- `bitmap_set(&part->block_bitmap, i, b)`. -/
def setBlock (v : Vol p) (i : Nat) (b : Bool) : Vol p :=
  { v with blockBitmap := v.blockBitmap.bitmapSet i b, blockLen := v.blockLen }

/-- `bitmap_set(&part->inode_bitmap, i, b)`. -/
def setInode (v : Vol p) (i : Nat) (b : Bool) : Vol p :=
  { v with inodeBitmap := v.inodeBitmap.bitmapSet i b, inodeLen := v.inodeLen }

/-- The sector address `b` has a bit in the block bitmap, and it is set. -/
def Used (v : Vol p) (b : Nat) : Prop :=
  p.dataStartLba ≤ b ∧ b - p.dataStartLba < 4096 * p.blockBitmapSects ∧
    v.blockBitmap.bit (b - p.dataStartLba) = true

instance (v : Vol p) (b : Nat) : Decidable (v.Used b) := inferInstanceAs (Decidable (_ ∧ _ ∧ _))

theorem setBlock_used {v : Vol p} {i b : Nat} {x : Bool} (hi : i < 4096 * p.blockBitmapSects) :
    (v.setBlock i x).Used b ↔ if b = p.dataStartLba + i then x = true else v.Used b := by
  unfold Used setBlock
  dsimp only
  rw [Bitmap.bit_bitmapSet]
  by_cases hb : b = p.dataStartLba + i
  · subst hb
    simp [hi]
  · rw [if_neg hb]
    by_cases hge : p.dataStartLba ≤ b
    · rw [if_neg (by omega)]
    · simp [hge]

end Vol

/-- Which bitmap `bitmap_sync` writes back. -/
inductive BitmapType
  | inodeBitmap
  | blockBitmap

/-- `block_bitmap_alloc`: the address of a free block, now marked. -/
def blockBitmapAlloc (v : Vol p) : Option (Int × Vol p) := do
  let bitIdx ← v.blockBitmap.bitmapScan 1
  if bitIdx = -1 then return (-1, v)
  return (p.dataStartLba + bitIdx, v.setBlock bitIdx.toNat true)

/-- `inode_bitmap_alloc`: a free inode number, now marked. -/
def inodeBitmapAlloc (v : Vol p) : Option (Int × Vol p) := do
  let bitIdx ← v.inodeBitmap.bitmapScan 1
  if bitIdx = -1 then return (-1, v)
  return (bitIdx, v.setInode bitIdx.toNat true)

/-- `bitmap_sync`: write the bitmap sector that holds `bitIdx`. -/
def bitmapSync (v : Vol p) (bitIdx : Nat) (btmp : BitmapType) : Option (Vol p) := do
  let offSec := bitIdx / 4096
  let offSize := offSec * 512
  let (secLba, bits) := match btmp with
    | .inodeBitmap => (p.inodeBitmapLba + offSec, v.inodeBitmap.bits.shift offSize)
    | .blockBitmap => (p.blockBitmapLba + offSec, v.blockBitmap.bits.shift offSize)
  let disk ← ideWrite v.disk secLba bits 1
  return { v with disk }

/-- **One allocation.** The block was free, its bit is the only change. -/
theorem blockBitmapAlloc_spec {v v' : Vol p} {r : Int} (h : blockBitmapAlloc v = some (r, v')) :
    ∃ i : Nat, r = ((p.dataStartLba + i : Nat) : Int) ∧ i < 4096 * p.blockBitmapSects ∧
      v.blockBitmap.bit i = false ∧ (∀ j, j < i → v.blockBitmap.bit j = true) ∧
      v' = v.setBlock i true := by
  simp only [blockBitmapAlloc, Option.bind_eq_bind, Option.bind_eq_some_iff] at h
  obtain ⟨bitIdx, hscan, h⟩ := h
  obtain ⟨i, rfl, hi, hz, hleast⟩ := Bitmap.bitmapScan_one hscan
  rw [v.blockLen] at hi
  rw [if_neg (by omega)] at h
  simp only [Option.pure_def, Option.some.injEq, Prod.mk.injEq] at h
  exact ⟨i, by omega, by omega, hz, hleast, h.2.symm⟩

/-- Syncing a bit of the block bitmap writes one sector of the bitmap's own
region and leaves both maps in memory alone. -/
theorem bitmapSync_block {v v' : Vol p} {i : Nat} (hi : i < 4096 * p.blockBitmapSects)
    (h : bitmapSync v i .blockBitmap = some v') :
    v'.blockBitmap = v.blockBitmap ∧ v'.inodeBitmap = v.inodeBitmap ∧
      ∀ a, a < 512 * p.blockBitmapLba ∨ 512 * p.inodeBitmapLba ≤ a → v'.disk a = v.disk a := by
  simp only [bitmapSync, Option.bind_eq_bind, Option.bind_eq_some_iff, Option.pure_def,
    Option.some.injEq, ideWrite_eq_some] at h
  obtain ⟨d, ⟨-, -, rfl⟩, rfl⟩ := h
  refine ⟨rfl, rfl, fun a ha => Mem.blit_out ?_⟩
  unfold Partition.inodeBitmapLba at ha
  omega

end OsCore.Fs
