import OsCore.Fs.WriteBlocks

/-!
# Directories (`fs/dir.c`)

A directory is a file whose blocks hold 21 entries of 24 bytes each; an entry
with type `FT_UNKNOWN` is a free slot. `searchDirEntry` and `deleteDirEntry`
collect the block addresses of the whole inode, `syncDirEntry` those of the
direct slots only. Names are C strings: `strEq` walks the two of them the way
`strcmp` does, so a name that fills its sixteen bytes runs on into the fields
behind it.

`deleteDirEntry` counts the indirect blocks with a loop that does not advance
its index. The loop takes fuel here, and `countIndirect_never` says that no
amount of it is enough, so a call that reaches it does not return.
-/

namespace OsCore.Fs

variable {p : Partition}

/-! ## Entries -/

/-- `struct dir_entry`. -/
@[ext] structure DirEntry where
  filename : Fin 16 → UInt8
  iNo : UInt32
  fType : UInt32

/-- `enum file_types`. -/
def ftUnknown : UInt32 := 0

def ftRegular : UInt32 := 1

def ftDirectory : UInt32 := 2

namespace DirEntry

/-- The 24 bytes of the struct. -/
def bytes (de : DirEntry) : Mem := fun i =>
  if h : i < 16 then de.filename ⟨i, h⟩
  else if i < 20 then Mem.byteOf de.iNo.toNat (i - 16)
  else if i < 24 then Mem.byteOf de.fType.toNat (i - 20)
  else 0

/-- The struct found at byte `a`. -/
def ofMem (m : Mem) (a : Nat) : DirEntry where
  filename := fun k => m (a + k)
  iNo := UInt32.ofNat (m.rd32 (a + 16))
  fType := UInt32.ofNat (m.rd32 (a + 20))

theorem ofMem_congr {m m' : Mem} {a a' : Nat} (h : ∀ i, i < 24 → m' (a' + i) = m (a + i)) :
    ofMem m' a' = ofMem m a := by
  have hw : ∀ o, o + 4 ≤ 24 → m'.rd32 (a' + o) = m.rd32 (a + o) := fun o ho =>
    Mem.rd32_congr fun i hi => by rw [Nat.add_assoc, Nat.add_assoc]; exact h _ (by omega)
  refine DirEntry.ext (funext fun k => ?_) ?_ ?_
  · exact h k (by omega)
  · simp only [ofMem, hw 16 (by omega)]
  · simp only [ofMem, hw 20 (by omega)]

/-- **Storing and loading an entry gives it back.** -/
theorem ofMem_bytes {de : DirEntry} {m : Mem} {a : Nat}
    (h : ∀ i, i < 24 → m (a + i) = de.bytes i) : ofMem m a = de := by
  have hno : m.rd32 (a + 16) = de.iNo.toNat := by
    apply Mem.rd32_byteOf (UInt32.toNat_lt _)
    intro i hi
    rw [Nat.add_assoc, h _ (by omega), bytes, dif_neg (by omega), if_pos (by omega),
      Nat.add_sub_cancel_left]
  have hty : m.rd32 (a + 20) = de.fType.toNat := by
    apply Mem.rd32_byteOf (UInt32.toNat_lt _)
    intro i hi
    rw [Nat.add_assoc, h _ (by omega), bytes, dif_neg (by omega), if_neg (by omega),
      if_pos (by omega), Nat.add_sub_cancel_left]
  refine DirEntry.ext (funext fun k => ?_) ?_ ?_
  · have hk := h k (by omega)
    rw [bytes, dif_pos k.isLt] at hk
    exact hk
  · simp only [ofMem, hno, UInt32.ofNat_toNat]
  · simp only [ofMem, hty, UInt32.ofNat_toNat]

theorem bytes_ofMem {m : Mem} {a i : Nat} (hi : i < 24) : (ofMem m a).bytes i = m (a + i) := by
  have hword : ∀ o, (UInt32.ofNat (m.rd32 o)).toNat = m.rd32 o := fun o => by
    rw [UInt32.toNat_ofNat', Nat.mod_eq_of_lt (m.rd32_lt o)]
  unfold bytes
  by_cases h16 : i < 16
  · rw [dif_pos h16]
    rfl
  · rw [dif_neg h16]
    by_cases h20 : i < 20
    · rw [if_pos h20]
      show Mem.byteOf (UInt32.ofNat (m.rd32 (a + 16))).toNat (i - 16) = m (a + i)
      rw [hword, Mem.byteOf_rd32 (by omega)]
      congr 1
      omega
    · rw [if_neg h20, if_pos hi]
      show Mem.byteOf (UInt32.ofNat (m.rd32 (a + 20))).toNat (i - 20) = m (a + i)
      rw [hword, Mem.byteOf_rd32 (by omega)]
      congr 1
      omega

end DirEntry

/-- `!strcmp(a, name)` for a name of non-zero characters. -/
def strEq (a : Mem) : List UInt8 → Bool
  | [] => a 0 == 0
  | c :: cs => a 0 == c && strEq (a.shift 1) cs

/-- `"."`. -/
def dot : List UInt8 := [46]

/-- `".."`. -/
def dotDot : List UInt8 := [46, 46]

/-! ## Block addresses -/

/-- `while (block_idx < 12) all_blocks[block_idx] = i_sectors[block_idx]`. -/
def directBlocks (inode : Inode) : Nat → Nat := copyDirect inode 0 12 fun _ => 0

/-- The direct addresses and, when there is a table, the 128 in it. -/
def allBlocks (v : Vol p) (inode : Inode) : Option (Nat → Nat) :=
  if inode.sec 12 ≠ 0 then readTable v.disk (inode.sec 12) (directBlocks inode)
  else some (directBlocks inode)

/-- The block's position in the bitmap, `lba - data_start_lba` as a `uint32_t`. -/
def blockBit (p : Partition) (lba : Nat) : Nat := (lba + 2 ^ 32 - p.dataStartLba) % 2 ^ 32

/-! ## Searching -/

/-- The first entry of a sector with that name. -/
def matchSlot (buf : Mem) (name : List UInt8) : Option Nat :=
  (List.range 21).find? fun e => strEq (buf.shift (24 * e)) name

/-- `while (block_idx < block_cnt)`: `n` blocks from `blockIdx` on. -/
def searchLoop (v : Vol p) (blocks : Nat → Nat) (name : List UInt8) :
    Nat → Nat → Option (Option DirEntry)
  | 0, _ => some none
  | n + 1, blockIdx =>
    if blocks blockIdx = 0 then searchLoop v blocks name n (blockIdx + 1)
    else do
      let buf ← ideRead v.disk (blocks blockIdx) Mem.zero 1
      match matchSlot buf name with
      | some e => return some (DirEntry.ofMem buf (24 * e))
      | none => searchLoop v blocks name n (blockIdx + 1)

/-- `search_dir_entry`: the entry named `name`, if there is one. -/
def searchDirEntry (v : Vol p) (inode : Inode) (name : List UInt8) : Option (Option DirEntry) := do
  let blocks ← allBlocks v inode
  searchLoop v blocks name 140 0

/-! ## Inserting -/

/-- The first free slot of a sector. -/
def freeSlot (buf : Mem) : Option Nat :=
  (List.range 21).find? fun e => (DirEntry.ofMem buf (24 * e)).fType = ftUnknown

section Insert

variable (alloc : Vol p → Option (Int × Vol p))

/-- The branch for a block that is not there: allocate it (and the table with
it, the first time), and start it with the new entry. -/
def addBlock (pDe : DirEntry) (blockIdx : Nat) (v : Vol p) (inode : Inode) (blocks : Nat → Nat) :
    Option (Bool × Vol p × Inode × (Nat → Nat)) := do
  let (blockLba, v) ← alloc v
  if blockLba = -1 then return (false, v, inode, blocks)
  let v ← bitmapSync v (blockLba.toNat - p.dataStartLba) .blockBitmap
  let (ok, v, inode, blocks) ←
    (if blockIdx < 12 then
      some (true, v, inode.setSec blockIdx blockLba.toNat, setWord blocks blockIdx blockLba.toNat)
    else if blockIdx = 12 then do
      let inode := inode.setSec 12 blockLba.toNat
      let (blockLba, v) ← alloc v
      if blockLba = -1 then
        return (false, v.setBlock (blockBit p (inode.sec 12)) false, inode.setSec 12 0, blocks)
      let v ← bitmapSync v (blockLba.toNat - p.dataStartLba) .blockBitmap
      let blocks := setWord blocks 12 blockLba.toNat
      let disk ← writeTable v.disk (inode.sec 12) blocks
      return (true, { v with disk }, inode, blocks)
    else do
      let blocks := setWord blocks blockIdx blockLba.toNat
      let disk ← writeTable v.disk (inode.sec 12) blocks
      return (true, { v with disk }, inode, blocks) : Option (Bool × Vol p × Inode × (Nat → Nat)))
  if !ok then return (false, v, inode, blocks)
  let disk ← ideWrite v.disk (blocks blockIdx) (Mem.zero.blit 0 pDe.bytes dirEntrySize) 1
  return (true, { v with disk }, inode.setSize (inode.size + dirEntrySize), blocks)

/-- `while (block_idx < 140)`: `n` blocks from `blockIdx` on. -/
def syncLoop (pDe : DirEntry) :
    Nat → Nat → Vol p → Inode → (Nat → Nat) → Option (Bool × Vol p × Inode)
  | 0, _, v, inode, _ => some (false, v, inode)
  | n + 1, blockIdx, v, inode, blocks => do
    let (ok, v, inode, blocks) ←
      (if blocks blockIdx = 0 then addBlock alloc pDe blockIdx v inode blocks
      else some (true, v, inode, blocks))
    if !ok then return (false, v, inode)
    let ioBuf ← ideRead v.disk (blocks blockIdx) Mem.zero 1
    match freeSlot ioBuf with
    | some e =>
      let ioBuf := ioBuf.blit (dirEntrySize * e) pDe.bytes dirEntrySize
      let disk ← ideWrite v.disk (blocks blockIdx) ioBuf 1
      return (true, { v with disk }, inode.setSize (inode.size + dirEntrySize))
    | none => syncLoop pDe n (blockIdx + 1) v inode blocks

/-- `sync_dir_entry` on a given allocator. -/
def syncDirEntryWith (v : Vol p) (dirInode : Inode) (pDe : DirEntry) :
    Option (Bool × Vol p × Inode) := do
  ensure (dirInode.size % dirEntrySize = 0)
  syncLoop alloc pDe 140 0 v dirInode (directBlocks dirInode)

end Insert

/-- `sync_dir_entry(parent_dir, p_de, io_buf)`: the result, and the directory's
inode afterwards. -/
def syncDirEntry (v : Vol p) (dirInode : Inode) (pDe : DirEntry) : Option (Bool × Vol p × Inode) :=
  syncDirEntryWith blockBitmapAlloc v dirInode pDe

/-! ## Deleting -/

/-- One pass over a sector: whether it is the directory's first block, how many
entries it has, and where the one for `inodeNo` is. `n` entries from `e` on. -/
def scanEntries (buf : Mem) (inodeNo : Nat) :
    Nat → Nat → Bool × Nat × Option Nat → Option (Bool × Nat × Option Nat)
  | 0, _, acc => some acc
  | n + 1, e, (isFirst, cnt, found) =>
    let de := DirEntry.ofMem buf (24 * e)
    if de.fType ≠ ftUnknown then
      if strEq (buf.shift (24 * e)) dot then scanEntries buf inodeNo n (e + 1) (true, cnt, found)
      else if strEq (buf.shift (24 * e)) dotDot then
        scanEntries buf inodeNo n (e + 1) (isFirst, cnt, found)
      else if de.iNo.toNat = inodeNo then do
        ensure (found = none)
        scanEntries buf inodeNo n (e + 1) (isFirst, cnt + 1, some e)
      else scanEntries buf inodeNo n (e + 1) (isFirst, cnt + 1, found)
    else scanEntries buf inodeNo n (e + 1) (isFirst, cnt, found)

/-- `while (indirect_block_idx < 140)`, whose body leaves the index alone. -/
def countIndirect (blocks : Nat → Nat) : Nat → Nat → Nat → Option Nat
  | 0, _, _ => none
  | fuel + 1, idx, cnt =>
    if idx < 140 then countIndirect blocks fuel idx (if blocks idx ≠ 0 then cnt + 1 else cnt)
    else some cnt

/-- Give up block `blockIdx` of a directory. -/
def dropBlock (fuel : Nat) (v : Vol p) (inode : Inode) (blocks : Nat → Nat) (blockIdx : Nat) :
    Option (Vol p × Inode) := do
  let blockBitmapIdx := blockBit p (blocks blockIdx)
  let v ← bitmapSync (v.setBlock blockBitmapIdx false) blockBitmapIdx .blockBitmap
  if blockIdx < 12 then return (v, inode.setSec blockIdx 0)
  let indirectBlocks ← countIndirect blocks fuel 12 0
  ensure (1 ≤ indirectBlocks)
  if 1 < indirectBlocks then
    let disk ← writeTable v.disk (inode.sec 12) (setWord blocks blockIdx 0)
    return ({ v with disk }, inode)
  let blockBitmapIdx := blockBit p (inode.sec 12)
  let v ← bitmapSync (v.setBlock blockBitmapIdx false) blockBitmapIdx .blockBitmap
  return (v, inode.setSec 12 0)

/-- `while (block_idx < 140)`: `n` blocks from `blockIdx` on. -/
def deleteLoop (fuel : Nat) (v : Vol p) (inode : Inode) (inodeNo : Nat) (blocks : Nat → Nat) :
    Nat → Nat → Option (Bool × Vol p × Inode)
  | 0, _ => some (false, v, inode)
  | n + 1, blockIdx =>
    if blocks blockIdx = 0 then deleteLoop fuel v inode inodeNo blocks n (blockIdx + 1)
    else do
      let ioBuf ← ideRead v.disk (blocks blockIdx) Mem.zero 1
      let (isFirst, cnt, found) ← scanEntries ioBuf inodeNo 21 0 (false, 0, none)
      match found with
      | none => deleteLoop fuel v inode inodeNo blocks n (blockIdx + 1)
      | some e =>
        ensure (1 ≤ cnt)
        let (v, inode) ←
          (if cnt = 1 ∧ isFirst = false then dropBlock fuel v inode blocks blockIdx
          else do
            let disk ← ideWrite v.disk (blocks blockIdx) (ioBuf.fill (24 * e) 0 dirEntrySize) 1
            return ({ v with disk }, inode) : Option (Vol p × Inode))
        ensure (dirEntrySize ≤ inode.size)
        let inode := inode.setSize (inode.size - dirEntrySize)
        let v ← inodeSync v inode
        return (true, v, inode)

/-- `delete_dir_entry(part, pdir, inode_no, io_buf)`. -/
def deleteDirEntry (fuel : Nat) (v : Vol p) (dirInode : Inode) (inodeNo : Nat) :
    Option (Bool × Vol p × Inode) := do
  let blocks ← allBlocks v dirInode
  deleteLoop fuel v dirInode inodeNo blocks 140 0

/-- **The count never ends.** -/
theorem countIndirect_never (blocks : Nat → Nat) (fuel cnt : Nat) {idx : Nat} (hidx : idx < 140) :
    countIndirect blocks fuel idx cnt = none := by
  induction fuel generalizing cnt with
  | zero => rfl
  | succ fuel ih => rw [countIndirect, if_pos hidx, ih]

end OsCore.Fs
