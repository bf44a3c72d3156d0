import OsCore.Fs.Dir

/-!
# A fresh file system (`partition_format` of `fs/fs.c`)

`partition_format` writes five regions: super block, block bitmap, inode bitmap, inode
table and the first block of the root directory. How long the block bitmap has to be
depends on how many blocks are left for data, and that on how long the bitmap is. The
code divides twice: the bitmap is first sized for all free sectors, what remains are
the data blocks, and then it is sized again for these (`partition_layout`).

The last sector of the bitmap is longer than the bits in it. The code sets its tail,
from the byte of bit `block_bitmap_bit_len` on, and then clears the bits of that byte
that stand for blocks, with `bit_idx <= block_bitmap_last_bit` where `<` is meant. So
bit `block_bitmap_bit_len` is clear (`freshMap_bit`), and it stands for no block.
Where the bitmap was not made shorter by the second division, it stands for the first
sector behind the partition (`first_sector_behind`). Only where the bits fill their
sectors is the tail in no sector that is written (`fresh_map_right_iff`).
-/

namespace OsCore.Fs

/-! ## The layout -/

/-- `struct super_block` up to its padding. -/
structure SuperBlock where
  magic : Nat
  secCnt : Nat
  inodeCnt : Nat
  partLbaBase : Nat
  blockBitmapLba : Nat
  blockBitmapSects : Nat
  inodeBitmapLba : Nat
  inodeBitmapSects : Nat
  inodeTableLba : Nat
  inodeTableSects : Nat
  dataStartLba : Nat
  rootInodeNo : Nat
  dirEntrySize : Nat

namespace SuperBlock

/-- The thirteen words of the struct. -/
def toWords (sb : SuperBlock) (j : Nat) : Nat :=
  [sb.magic, sb.secCnt, sb.inodeCnt, sb.partLbaBase, sb.blockBitmapLba, sb.blockBitmapSects,
    sb.inodeBitmapLba, sb.inodeBitmapSects, sb.inodeTableLba, sb.inodeTableSects,
    sb.dataStartLba, sb.rootInodeNo, sb.dirEntrySize].getD j 0

/-- The struct as a local: its padding is what was there on the stack. -/
def bytes (sb : SuperBlock) (stack : Mem) : Mem := stack.blit 0 (Mem.ofWords sb.toWords) 52

end SuperBlock

namespace Partition

variable (p : Partition)

/-- The super block `partition_format` fills in. -/
def superBlock : SuperBlock where
  magic := 0x19590318
  secCnt := p.secCnt
  inodeCnt := 4096
  partLbaBase := p.startLba
  blockBitmapLba := p.blockBitmapLba
  blockBitmapSects := p.blockBitmapSects
  inodeBitmapLba := p.inodeBitmapLba
  inodeBitmapSects := inodeBitmapSects
  inodeTableLba := p.inodeTableLba
  inodeTableSects := inodeTableSects
  dataStartLba := p.dataStartLba
  rootInodeNo := 0
  dirEntrySize := Fs.dirEntrySize

/-- The regions in order, each with its first sector and its length: super block,
block bitmap, inode bitmap, inode table, and a sector for each bit of the block
bitmap. -/
def regions : List (Nat × Nat) :=
  let sb := p.superBlock
  [(p.startLba + 1, 1), (sb.blockBitmapLba, sb.blockBitmapSects),
    (sb.inodeBitmapLba, sb.inodeBitmapSects), (sb.inodeTableLba, sb.inodeTableSects),
    (sb.dataStartLba, p.blockBitmapBitLen)]

theorem freeSects_eq : p.freeSects = p.secCnt - 611 := by
  rw [freeSects, usedSects, inodeTableSects_eq, inodeBitmapSects_eq]

/-- The second division asks for no more sectors than the first. -/
theorem blockBitmapSects_le_first : p.blockBitmapSects ≤ divRoundUp p.freeSects 4096 := by
  unfold blockBitmapSects blockBitmapBitLen divRoundUp
  omega

theorem first_le_freeSects : divRoundUp p.freeSects 4096 ≤ p.freeSects := by
  have := p.room
  rw [freeSects_eq]
  unfold divRoundUp
  omega

/-- The data area ends where the partition does, or before. -/
theorem dataEnd_le : p.dataStartLba + p.blockBitmapBitLen ≤ p.startLba + p.secCnt := by
  have h1 := p.blockBitmapSects_le_first
  have h2 := p.first_le_freeSects
  have h3 := p.freeSects_eq
  have h4 := p.room
  rw [dataStartLba_eq]
  unfold blockBitmapBitLen
  omega

/-- There is a block for the root directory. -/
theorem blockBitmapBitLen_pos : 0 < p.blockBitmapBitLen := by
  have := p.room
  unfold blockBitmapBitLen divRoundUp
  rw [freeSects_eq]
  omega

theorem blockBitmapBitLen_le : p.blockBitmapBitLen ≤ 4096 * p.blockBitmapSects := by
  unfold blockBitmapSects divRoundUp
  omega

end Partition

/-- **The layout fits.** The regions follow each other inside the partition, each
block has a bit, and the table has room for 4096 inodes. -/
theorem partition_layout (p : Partition) :
    p.regions.Pairwise (fun a b => a.1 + a.2 ≤ b.1) ∧
      (∀ r ∈ p.regions, p.startLba ≤ r.1 ∧ r.1 + r.2 ≤ p.startLba + p.secCnt) ∧
      p.blockBitmapBitLen ≤ 4096 * p.blockBitmapSects ∧
      4096 * inodeSize ≤ 512 * Partition.inodeTableSects := by
  have hdata := p.dataEnd_le
  have hstart := p.dataStartLba_eq
  have htable := Partition.inodeTableSects_eq
  have hmap := Partition.inodeBitmapSects_eq
  have horder : p.blockBitmapLba = p.startLba + 2 ∧
      p.inodeBitmapLba = p.blockBitmapLba + p.blockBitmapSects ∧
      p.inodeTableLba = p.inodeBitmapLba + Partition.inodeBitmapSects ∧
      p.dataStartLba = p.inodeTableLba + Partition.inodeTableSects := ⟨rfl, rfl, rfl, rfl⟩
  refine ⟨?_, ?_, p.blockBitmapBitLen_le, by decide⟩
  · simp only [Partition.regions, Partition.superBlock, List.pairwise_cons, List.mem_cons,
      List.not_mem_nil, or_false, forall_eq_or_imp, forall_eq, List.Pairwise.nil, and_true]
    refine ⟨⟨?_, ?_, ?_, ?_⟩, ⟨?_, ?_, ?_⟩, ⟨?_, ?_⟩, ?_, ?_⟩
    all_goals first | omega | exact fun _ h => h.elim
  · simp only [Partition.regions, Partition.superBlock, List.mem_cons, List.not_mem_nil, or_false,
      forall_eq_or_imp, forall_eq]
    refine ⟨⟨?_, ?_⟩, ⟨?_, ?_⟩, ⟨?_, ?_⟩, ⟨?_, ?_⟩, ?_, ?_⟩
    all_goals omega

/-! ## The code -/

/-- `while (bit_idx <= block_bitmap_last_bit) buf[byte] &= ~(1 << bit_idx++);`: `n`
more rounds. -/
def clearBits (byte : Nat) : Nat → Nat → Mem → Mem
  | 0, _, buf => buf
  | n + 1, bitIdx, buf =>
    clearBits byte n (bitIdx + 1) fun j =>
      if j = byte then buf j &&& ~~~(Bitmap.mask bitIdx) else buf j

/-- `buf[0] |= 0x01`. -/
def takeFirst (buf : Mem) : Mem := fun j => if j = 0 then buf j ||| 0x01 else buf j

/-- The block bitmap in the buffer. -/
def blockBitmapImage (p : Partition) (buf : Mem) : Mem :=
  let buf := takeFirst buf
  let blockBitmapLastByte := p.blockBitmapBitLen / 8
  let blockBitmapLastBit := p.blockBitmapBitLen % 8
  let lastSize := 512 - blockBitmapLastByte % 512
  let buf := buf.fill blockBitmapLastByte 0xff lastSize
  clearBits blockBitmapLastByte (blockBitmapLastBit + 1) 0 buf

/-- The inode of the root directory. -/
def formattedRoot (p : Partition) : Inode :=
  { (Inode.ofMem Mem.zero 0).setSize (Fs.dirEntrySize * 2) with iNo := 0 }.setSec 0 p.dataStartLba

/-- The entries `.` and `..` of the root directory. -/
def rootEntry (name : List UInt8) : DirEntry := ⟨fun i => name.getD i 0, 0, ftDirectory⟩

/-- `partition_format(part)`. The buffer is more than 1024 bytes long and so comes
zeroed from `sys_malloc`; `stack` is the memory of the local `sb`. -/
def partitionFormat (p : Partition) (stack disk : Mem) : Option Mem := do
  let sb := p.superBlock
  let disk ← ideWrite disk (p.startLba + 1) (sb.bytes stack) 1
  let bufSize := max (max sb.blockBitmapSects sb.inodeBitmapSects) sb.inodeTableSects * 512
  let buf := blockBitmapImage p Mem.zero
  let disk ← ideWrite disk sb.blockBitmapLba buf sb.blockBitmapSects
  let buf := buf.fill 0 0 bufSize
  let buf := takeFirst buf
  let disk ← ideWrite disk sb.inodeBitmapLba buf sb.inodeBitmapSects
  let buf := buf.fill 0 0 bufSize
  let buf := buf.blit 0 (formattedRoot p).bytes inodeSize
  let disk ← ideWrite disk sb.inodeTableLba buf sb.inodeTableSects
  let buf := buf.fill 0 0 bufSize
  let buf := buf.blit 0 (rootEntry [46]).bytes Fs.dirEntrySize
  let buf := buf.blit Fs.dirEntrySize (rootEntry [46, 46]).bytes Fs.dirEntrySize
  ideWrite disk sb.dataStartLba buf 1

/-- The block bitmap as `mount_partition` reads it from disk. -/
def freshMap (p : Partition) (disk : Mem) : Bitmap where
  bytesLen := p.blockBitmapSects * 512
  bits := disk.shift (512 * p.blockBitmapLba)

/-! ## The bits of a fresh map -/

section Image

variable {p : Partition} {len byte n k : Nat} {buf : Mem}

/-- A round clears one bit. -/
theorem clearBits_succ (len : Nat) (hk : k < 8) :
    (⟨len, fun j => if j = byte then buf j &&& ~~~(Bitmap.mask k) else buf j⟩ : Bitmap) =
      (⟨len, buf⟩ : Bitmap).bitmapSet (8 * byte + k) false := by
  rw [Bitmap.bitmapSet, show (8 * byte + k) / 8 = byte by omega,
    show (8 * byte + k) % 8 = k by omega]
  rfl

theorem clearBits_bit : ∀ {n k : Nat} {buf : Mem}, k + n ≤ 8 → ∀ i,
    (⟨len, clearBits byte n k buf⟩ : Bitmap).bit i =
      if 8 * byte + k ≤ i ∧ i < 8 * byte + k + n then false else (⟨len, buf⟩ : Bitmap).bit i := by
  intro n
  induction n with
  | zero =>
    intro k buf _ i
    rw [if_neg (by omega)]
    rfl
  | succ n ih =>
    intro k buf hkn i
    rw [clearBits, ih (by omega), clearBits_succ len (by omega), Bitmap.bit_bitmapSet]
    by_cases hi : i = 8 * byte + k
    · rw [if_neg (by omega), if_pos hi, if_pos (by omega)]
    · by_cases hin : 8 * byte + (k + 1) ≤ i ∧ i < 8 * byte + (k + 1) + n
      · rw [if_pos hin, if_pos (by omega)]
      · rw [if_neg hin, if_neg hi, if_neg (by omega)]

/-- Bits of a byte that is all ones, and of one that is `0x01`. -/
theorem bit_of_byte (len : Nat) (buf : Mem) (i : Nat) :
    (buf (i / 8) = 0xff → (⟨len, buf⟩ : Bitmap).bit i = true) ∧
      (buf (i / 8) = 0 → (⟨len, buf⟩ : Bitmap).bit i = false) ∧
      (buf (i / 8) = 1 → (⟨len, buf⟩ : Bitmap).bit i = decide (i % 8 = 0)) := by
  have hlt : i % 8 < 8 := Nat.mod_lt _ (by decide)
  refine ⟨fun h => ?_, fun h => ?_, fun h => ?_⟩ <;> unfold Bitmap.bit <;> dsimp only <;> rw [h]
  · rw [show (0xff : UInt8).toNat = 2 ^ 8 - 1 from rfl, Nat.testBit_two_pow_sub_one]
    exact decide_eq_true hlt
  · exact Nat.zero_testBit _
  · rw [show (1 : UInt8).toNat = 2 ^ 0 from rfl, Nat.testBit_two_pow]
    exact decide_eq_decide.mpr eq_comm

/-- **The bits that are written.** All up to number `block_bitmap_bit_len` are clear,
that one included; the first is set unless the last byte is the first. -/
theorem blockBitmapImage_bit (p : Partition) {i : Nat} (hi : i < 4096 * p.blockBitmapSects) :
    (⟨len, blockBitmapImage p Mem.zero⟩ : Bitmap).bit i = false ↔
      i ≤ p.blockBitmapBitLen ∧ (1 ≤ i ∨ p.blockBitmapBitLen < 8) := by
  have hsects : p.blockBitmapSects = (p.blockBitmapBitLen + 4095) / 4096 := rfl
  rw [hsects] at hi
  unfold blockBitmapImage
  dsimp only
  rw [clearBits_bit (by omega)]
  generalize p.blockBitmapBitLen = q at *
  by_cases hcleared : 8 * (q / 8) + 0 ≤ i ∧ i < 8 * (q / 8) + 0 + (q % 8 + 1)
  · rw [if_pos hcleared]
    exact iff_of_true rfl (by omega)
  · rw [if_neg hcleared]
    obtain ⟨hff, hzero, hone⟩ := bit_of_byte len
      ((takeFirst Mem.zero).fill (q / 8) 0xff (512 - q / 8 % 512)) i
    rcases Nat.lt_or_ge (i / 8) (q / 8) with hlt | hge
    · -- before the tail
      have hbyte : (takeFirst Mem.zero).fill (q / 8) 0xff (512 - q / 8 % 512) (i / 8) =
          takeFirst Mem.zero (i / 8) := Mem.blit_out (by omega)
      rw [hbyte] at hzero hone
      rcases Nat.eq_zero_or_pos (i / 8) with h0 | hpos
      · rw [hone (by rw [h0]; decide)]
        simp only [decide_eq_false_iff_not]
        omega
      · rw [hzero (by rw [takeFirst, if_neg (by omega)]; rfl)]
        exact iff_of_true rfl (by omega)
    · -- in the tail, which ends where the sector does
      have hbyte : (takeFirst Mem.zero).fill (q / 8) 0xff (512 - q / 8 % 512) (i / 8) = 0xff :=
        Mem.blit_in hge (by omega)
      rw [hff hbyte]
      exact iff_of_false (fun h => Bool.noConfusion h) (by omega)

end Image

/-- **What `partition_format` leaves on disk**: it comes back, and the block bitmap
is the image, which no later write has touched. -/
theorem partitionFormat_spec (p : Partition) (stack disk : Mem) :
    ∃ disk', partitionFormat p stack disk = some disk' ∧
      ∀ j, j < p.blockBitmapSects * 512 →
        (freshMap p disk').bits j = blockBitmapImage p Mem.zero j := by
  have hend := p.dataEnd_le
  have hpos := p.blockBitmapBitLen_pos
  have hfits := p.fits
  have hsects := p.blockBitmapBitLen_le
  have htable := Partition.inodeTableSects_eq
  have hmap := Partition.inodeBitmapSects_eq
  have h1 : p.blockBitmapLba = p.startLba + 2 := rfl
  have h2 : p.inodeBitmapLba = p.blockBitmapLba + p.blockBitmapSects := rfl
  have h3 : p.inodeTableLba = p.inodeBitmapLba + Partition.inodeBitmapSects := rfl
  have h4 : p.dataStartLba = p.inodeTableLba + Partition.inodeTableSects := rfl
  have hwrite : ∀ d lba buf n, lba ≤ maxLba → 0 < n →
      ideWrite d lba buf n = some (d.blit (512 * lba) buf (512 * n)) := fun d lba buf n hl hn =>
    ideWrite_eq_some.mpr ⟨hl, hn, rfl⟩
  simp only [partitionFormat, Partition.superBlock, Option.bind_eq_bind]
  rw [hwrite _ _ _ _ (by omega) (by omega), Option.bind_some,
    hwrite _ _ _ _ (by omega) (by omega), Option.bind_some,
    hwrite _ _ _ _ (by omega) (by omega), Option.bind_some,
    hwrite _ _ _ _ (by omega) (by omega), Option.bind_some,
    hwrite _ _ _ _ (by omega) (by omega)]
  refine ⟨_, rfl, fun j hj => ?_⟩
  have hread : ∀ d, (freshMap p d).bits j = d (512 * p.blockBitmapLba + j) := fun _ => rfl
  rw [hread, Mem.blit_out (by omega), Mem.blit_out (by omega),
    Mem.blit_out (by omega), Mem.blit_add (by omega)]

theorem freshMap_bit {p : Partition} {stack disk disk' : Mem}
    (h : partitionFormat p stack disk = some disk') {i : Nat}
    (hi : i < 4096 * p.blockBitmapSects) :
    (freshMap p disk').bit i = false ↔
      i ≤ p.blockBitmapBitLen ∧ (1 ≤ i ∨ p.blockBitmapBitLen < 8) := by
  obtain ⟨d, hd, hbits⟩ := partitionFormat_spec p stack disk
  obtain rfl : d = disk' := Option.some.inj (hd.symm.trans h)
  have hbit : (⟨p.blockBitmapSects * 512, blockBitmapImage p Mem.zero⟩ : Bitmap).bit i = false ↔
      i ≤ p.blockBitmapBitLen ∧ (1 ≤ i ∨ p.blockBitmapBitLen < 8) := blockBitmapImage_bit p hi
  rw [← hbit]
  unfold Bitmap.bit
  rw [hbits (i / 8) (by omega)]

/-! ## Blocks and sectors behind the partition -/

/-- The clear bits are those of the blocks but the root's. And as long as only bits of
blocks change, no block behind the partition is handed out. -/
structure FreshMapRight (p : Partition) (b : Bitmap) : Prop where
  exact : ∀ i, i < 4096 * p.blockBitmapSects →
    (b.bit i = false ↔ 1 ≤ i ∧ i < p.blockBitmapBitLen)
  inside : ∀ v : Vol p, (∀ i, p.blockBitmapBitLen ≤ i → v.blockBitmap.bit i = b.bit i) →
    ∀ r v', blockBitmapAlloc v = some (r, v') → r < p.startLba + p.secCnt

theorem FreshMapRight.of_exact {p : Partition} {b : Bitmap}
    (h : ∀ i, i < 4096 * p.blockBitmapSects → (b.bit i = false ↔ 1 ≤ i ∧ i < p.blockBitmapBitLen)) :
    FreshMapRight p b := by
  refine ⟨h, fun v hsame r v' halloc => ?_⟩
  obtain ⟨i, rfl, hi, hclear, -, -⟩ := blockBitmapAlloc_spec halloc
  have hend := p.dataEnd_le
  have hlt : i < p.blockBitmapBitLen := by
    by_contra hge
    rw [hsame i (by omega), h i hi] at hclear
    omega
  omega

/-- **When a fresh map is right**: where its bits fill their sectors. -/
theorem fresh_map_right_iff (p : Partition) (stack disk : Mem) :
    ∃ disk', partitionFormat p stack disk = some disk' ∧
      (FreshMapRight p (freshMap p disk') ↔ 4096 ∣ p.blockBitmapBitLen) := by
  obtain ⟨disk', hformat, -⟩ := partitionFormat_spec p stack disk
  have hpos := p.blockBitmapBitLen_pos
  have hsects : p.blockBitmapSects = (p.blockBitmapBitLen + 4095) / 4096 := rfl
  refine ⟨disk', hformat, fun h => ?_, fun hdvd => .of_exact fun i hi => ?_⟩
  · by_contra hnot
    have hin : p.blockBitmapBitLen < 4096 * p.blockBitmapSects := by omega
    have hclear := (freshMap_bit hformat hin).mpr ⟨Nat.le_refl _, by omega⟩
    have := (h.exact _ hin).mp hclear
    omega
  · rw [freshMap_bit hformat hi]
    omega

/-- A block map `b`, with the bits of all blocks set. -/
def takenBlocks (p : Partition) (b : Bitmap) : Bitmap :=
  ⟨p.blockBitmapSects * 512, fun j =>
    if j < p.blockBitmapBitLen / 8 then 0xff
    else if j = p.blockBitmapBitLen / 8 then
      b.bits j ||| UInt8.ofNat (2 ^ (p.blockBitmapBitLen % 8) - 1)
    else b.bits j⟩

theorem takenBlocks_length (p : Partition) (b : Bitmap) :
    (takenBlocks p b).bytesLen = p.blockBitmapSects * 512 := rfl

/-- The inode map of a volume without files. -/
def noInodes : Bitmap := ⟨Partition.inodeBitmapSects * 512, Mem.zero⟩

theorem noInodes_length : noInodes.bytesLen = Partition.inodeBitmapSects * 512 := rfl

/-- A volume whose blocks are all in use, with the map of a fresh file system
otherwise. -/
def takenVol (p : Partition) (b : Bitmap) : Vol p where
  disk := Mem.zero
  blockBitmap := takenBlocks p b
  inodeBitmap := noInodes
  blockLen := takenBlocks_length p b
  inodeLen := noInodes_length

theorem takenVol_bit (p : Partition) (b : Bitmap) (i : Nat) :
    (takenVol p b).blockBitmap.bit i = (decide (i < p.blockBitmapBitLen) || b.bit i) := by
  have hlt : i % 8 < 8 := Nat.mod_lt _ (by decide)
  unfold Bitmap.bit takenVol takenBlocks
  dsimp only
  generalize p.blockBitmapBitLen = q
  split
  next h =>
    rw [show (0xff : UInt8).toNat = 2 ^ 8 - 1 from rfl, Nat.testBit_two_pow_sub_one,
      decide_eq_true hlt, decide_eq_true (by omega), Bool.true_or]
  next h =>
    split
    next he =>
      have hpow : 2 ^ (q % 8) < 2 ^ 8 := Nat.pow_lt_pow_right (by decide) (Nat.mod_lt _ (by decide))
      have hones : (UInt8.ofNat (2 ^ (q % 8) - 1)).toNat = 2 ^ (q % 8) - 1 := by
        rw [UInt8.toNat_ofNat', Nat.mod_eq_of_lt (by omega)]
      rw [UInt8.toNat_or, Nat.testBit_or, hones, Nat.testBit_two_pow_sub_one, Bool.or_comm]
      congr 1
      exact decide_eq_decide.mpr (by omega)
    next he => rw [decide_eq_false (by omega), Bool.false_or]

/-- **The sector behind the partition.** Where the bitmap has the length it was first
given, and its bits do not fill it, the next block after the last is not the
partition's. -/
theorem first_sector_behind {p : Partition} {stack disk disk' : Mem}
    (h : partitionFormat p stack disk = some disk') (hdvd : ¬4096 ∣ p.blockBitmapBitLen)
    (hsame : p.blockBitmapSects = divRoundUp p.freeSects 4096) :
    ∃ v', blockBitmapAlloc (takenVol p (freshMap p disk')) =
      some (((p.startLba + p.secCnt : Nat) : Int), v') := by
  have hsects : p.blockBitmapSects = (p.blockBitmapBitLen + 4095) / 4096 := rfl
  have hin : p.blockBitmapBitLen < 4096 * p.blockBitmapSects := by omega
  have hpos := p.blockBitmapBitLen_pos
  have hclear := (freshMap_bit h hin).mpr ⟨Nat.le_refl _, by omega⟩
  have hbit : (takenVol p (freshMap p disk')).blockBitmap.bit p.blockBitmapBitLen = false := by
    rw [takenVol_bit, hclear, Bool.or_false, decide_eq_false (Nat.lt_irrefl _)]
  have hlen : (takenVol p (freshMap p disk')).blockBitmap.bytesLen = p.blockBitmapSects * 512 := rfl
  have hscan := Bitmap.bitmapScan_one_isSome
    (show p.blockBitmapBitLen < 8 * (takenVol p (freshMap p disk')).blockBitmap.bytesLen by
      rw [hlen]
      omega) hbit
  obtain ⟨r, hr⟩ := Option.isSome_iff_exists.mp hscan
  have hsome : ∃ x v', blockBitmapAlloc (takenVol p (freshMap p disk')) = some (x, v') := by
    rw [blockBitmapAlloc, hr, Option.bind_eq_bind, Option.bind_some]
    split <;> exact ⟨_, _, rfl⟩
  obtain ⟨x, v', halloc⟩ := hsome
  obtain ⟨i, rfl, -, hclear', hleast, -⟩ := blockBitmapAlloc_spec halloc
  have hi : i = p.blockBitmapBitLen := by
    rcases Nat.lt_trichotomy i p.blockBitmapBitLen with hlt | he | hgt
    · rw [takenVol_bit, decide_eq_true hlt, Bool.true_or] at hclear'
      cases hclear'
    · exact he
    · rw [hleast _ hgt] at hbit
      cases hbit
  have hfree := p.freeSects_eq
  have hfirst := p.first_le_freeSects
  have hroom := p.room
  have hstart := p.dataStartLba_eq
  have hlen' : p.blockBitmapBitLen = p.freeSects - divRoundUp p.freeSects 4096 := rfl
  have hsector : p.dataStartLba + i = p.startLba + p.secCnt := by
    rw [hi]
    omega
  exact ⟨v', by rw [halloc, hsector]⟩

theorem tenThousand_room : 613 ≤ 10000 := by decide

theorem tenThousand_fits : 63 + 10000 ≤ maxLba + 1 := by decide

/-- A partition of 10000 sectors behind the first track. -/
def tenThousand : Partition := ⟨63, 10000, tenThousand_room, tenThousand_fits⟩

/-- **Its map has a bit too many**: bit 9386 is clear, and there are 9386 blocks. -/
theorem fresh_map_bit_too_many : ¬∀ (p : Partition) (stack disk disk' : Mem),
    partitionFormat p stack disk = some disk' → FreshMapRight p (freshMap p disk') := by
  intro h
  obtain ⟨disk', hformat, -⟩ := partitionFormat_spec tenThousand Mem.zero Mem.zero
  have hin : 9386 < 4096 * tenThousand.blockBitmapSects := by decide
  have hclear := (freshMap_bit hformat hin).mpr (by decide)
  have := ((h tenThousand Mem.zero Mem.zero disk' hformat).exact 9386 hin).mp hclear
  exact absurd this (by decide)

end OsCore.Fs
