import OsCore.Fs.Syscalls
import OsCore.Fs.WriteBlocks

/-!
# The buffer of `inode_sync`

`inode_sync` reads and writes the one or two sectors of a slot through an `io_buf` that
its caller has allocated, and only it knows which of the two it is. `file_create`,
`sys_mkdir` and the callers of `delete_dir_entry` allocate two sectors. `file_write`
allocates one, which is what its own loop needs, and passes it on.

The callers are written out here over what they call for `inode_sync`; with the
`inodeSync` of the model they are the functions of the model. `inodeSyncInto` is the
same with an end to the buffer: a transfer that would go beyond it does not come back.
So a caller whose transfers fit is one that the end makes no difference to
(`sync_fits_iff`).
-/

namespace OsCore.Fs

variable {p : Partition}

/-! ## The code -/

/-- `inode_sync` with an `io_buf` of `bufLen` bytes. -/
def inodeSyncInto (bufLen : Nat) (v : Vol p) (inode : Inode) : Option (Vol p) := do
  let pos ← inodeLocate p (inode.no % 256)
  ensure (512 * pos.sects ≤ bufLen)
  inodeSync v inode

section Callers

variable (sync : Vol p → Inode → Option (Vol p))

/-- `file_write(file, buf, count)`. -/
def fileWriteSync (v : Vol p) (f : File) (buf : Mem) (count : Nat) :
    Option (Int × Vol p × File) := do
  let size := f.inode.size
  if (size + count) % 2 ^ 32 > 512 * 140 then return (-1, v, f)
  let (ok, v, inode) ← firstBlock blockBitmapAlloc v f.inode
  if !ok then return (-1, v, { f with inode })
  let fileHasUsedBlocks := size / 512 + 1
  let fileWillUseBlocks := (size + count) % 2 ^ 32 / 512 + 1
  ensure (fileWillUseBlocks ≤ 140)
  let (ok, v, inode, blocks) ←
    collectWrite blockBitmapAlloc v inode fileHasUsedBlocks fileWillUseBlocks
  if !ok then return (-1, v, { f with inode })
  let f := { f with inode, fdPos := UInt32.ofNat (size + 2 ^ 32 - 1) }
  let (v, f, bytesWritten) ← writeLoop blocks buf count count v f 0 true
  let v ← sync v f.inode
  return (toInt32 bytesWritten, v, f)

/-- `file_create` from the free entry `fdIdx` of `file_table` on. -/
def fillSlotSync (k : FileSys p) (t : Nat) (parentDir : DirHandle) (filename : List UInt8)
    (flag : UInt8) (inodeNo fdIdx : Nat) (vol : Vol p) : Option (Int × FileSys p) := do
  let newFileInode := newInode inodeNo
  let newDirEntry ← createDirEntry filename inodeNo ftRegular
  let parent ← k.part.inodeAt (parentDir.inode k.rootDir)
  let (ok, vol, parent) ← syncDirEntryWith blockBitmapAlloc vol parent newDirEntry
  let part := { k.part with vol }.modifyInode (parentDir.inode k.rootDir) fun _ => parent
  if !ok then
    let k := { k with part := { part with vol := vol.setInode inodeNo false } }
    return (-1, k.setSlot fdIdx ⟨0, 0, 0⟩)
  let vol ← sync vol parent
  let vol ← sync vol newFileInode
  let vol ← bitmapSync vol inodeNo .inodeBitmap
  let a := part.brk
  let part : Mounted p :=
    ⟨vol, (a, newFileInode.setOpenCnts 1) :: part.openInodes, a + 1⟩
  let userInodes := if (k.pcb t).isProcess then a :: k.userInodes else k.userInodes
  let k := { k with part, userInodes }.setSlot fdIdx ⟨0, flag.toUInt32, a⟩
  return k.pcbFdInstall t fdIdx

/-- `sys_mkdir` from the inode number on. -/
def makeDirSync (vol : Vol p) (parent : Inode) (dirname : List UInt8) (inodeNo : Nat) :
    Option (Bool × Vol p × Inode) := do
  let newDirInode := newInode inodeNo
  let (blockLba, vol) ← blockBitmapAlloc vol
  if blockLba = -1 then return (false, vol.setInode inodeNo false, parent)
  let newDirInode := newDirInode.setSec 0 blockLba.toNat
  let blockBitmapIdx := blockBit p blockLba.toNat
  ensure (blockBitmapIdx ≠ 0)
  let vol ← bitmapSync vol blockBitmapIdx .blockBitmap
  let ioBuf ← dotEntries inodeNo parent.no
  let disk ← ideWrite vol.disk (newDirInode.sec 0) ioBuf 1
  let newDirInode := newDirInode.setSize (2 * dirEntrySize)
  let newDirEntry ← createDirEntry dirname inodeNo ftDirectory
  let (ok, vol, parent) ←
    syncDirEntryWith blockBitmapAlloc { vol with disk } parent newDirEntry
  if !ok then return (false, vol.setInode inodeNo false, parent)
  let vol ← sync vol parent
  let vol ← sync vol newDirInode
  let vol ← bitmapSync vol inodeNo .inodeBitmap
  return (true, vol, parent)

/-- Loop of `delete_dir_entry`: `n` blocks from `blockIdx` on. -/
def deleteLoopSync (fuel : Nat) (v : Vol p) (inode : Inode) (inodeNo : Nat) (blocks : Nat → Nat) :
    Nat → Nat → Option (Bool × Vol p × Inode)
  | 0, _ => some (false, v, inode)
  | n + 1, blockIdx =>
    if blocks blockIdx = 0 then deleteLoopSync fuel v inode inodeNo blocks n (blockIdx + 1)
    else do
      let ioBuf ← ideRead v.disk (blocks blockIdx) Mem.zero 1
      let (isFirst, cnt, found) ← scanEntries ioBuf inodeNo 21 0 (false, 0, none)
      match found with
      | none => deleteLoopSync fuel v inode inodeNo blocks n (blockIdx + 1)
      | some e =>
        ensure (1 ≤ cnt)
        let (v, inode) ←
          (if cnt = 1 ∧ isFirst = false then dropBlock fuel v inode blocks blockIdx
          else do
            let disk ← ideWrite v.disk (blocks blockIdx) (ioBuf.fill (24 * e) 0 dirEntrySize) 1
            return ({ v with disk }, inode) : Option (Vol p × Inode))
        ensure (dirEntrySize ≤ inode.size)
        let inode := inode.setSize (inode.size - dirEntrySize)
        let v ← sync v inode
        return (true, v, inode)

/-- `delete_dir_entry(part, pdir, inode_no, io_buf)`. -/
def deleteDirEntrySync (fuel : Nat) (v : Vol p) (dirInode : Inode) (inodeNo : Nat) :
    Option (Bool × Vol p × Inode) := do
  let blocks ← allBlocks v dirInode
  deleteLoopSync sync fuel v dirInode inodeNo blocks 140 0

end Callers

/-- `sys_malloc(1024)` of `file_create`. -/
def fileCreateIoBuf : Nat := 1024

/-- `sys_malloc(BLOCK_SIZE)` of `file_write`. -/
def fileWriteIoBuf : Nat := 512

/-- `sys_malloc(SECTOR_SIZE*2)` of `sys_mkdir`. -/
def sysMkdirIoBuf : Nat := 512 * 2

/-- `sys_malloc(SECTOR_SIZE+SECTOR_SIZE)` of `sys_unlink`, for `delete_dir_entry`. -/
def sysUnlinkIoBuf : Nat := 512 + 512

/-- `sys_malloc(SECTOR_SIZE*2)` of `dir_remove`, for `delete_dir_entry`. -/
def dirRemoveIoBuf : Nat := 512 * 2

/-! ## These are the functions of the model -/

theorem fileWriteSync_eq : fileWriteSync (p := p) inodeSync = fileWrite := rfl

theorem fillSlotSync_eq : fillSlotSync (p := p) inodeSync = fillSlotWith blockBitmapAlloc := rfl

theorem makeDirSync_eq : makeDirSync (p := p) inodeSync = makeDirWith blockBitmapAlloc := rfl

theorem deleteLoopSync_eq (fuel : Nat) (v : Vol p) (inode : Inode) (inodeNo : Nat)
    (blocks : Nat → Nat) (n blockIdx : Nat) :
    deleteLoopSync inodeSync fuel v inode inodeNo blocks n blockIdx =
      deleteLoop fuel v inode inodeNo blocks n blockIdx := by
  induction n generalizing blockIdx with
  | zero => rfl
  | succ n ih =>
    unfold deleteLoopSync deleteLoop
    simp only [ih] <;> rfl

theorem deleteDirEntrySync_eq : deleteDirEntrySync (p := p) inodeSync = deleteDirEntry := by
  funext fuel v dirInode inodeNo
  simp only [deleteDirEntrySync, deleteDirEntry, deleteLoopSync_eq]

/-! ## What fits -/

/-- The slot of inode `n` begins in one sector and ends in the next. -/
def Straddles (n : Nat) : Prop := 512 - 76 * n % 512 < 76

instance (n : Nat) : Decidable (Straddles n) := inferInstanceAs (Decidable (_ < _))

theorem inodeLocate_sects (p : Partition) {m : Nat} (hm : m < 4096) : ∃ pos,
    inodeLocate p m = some pos ∧ 512 * pos.sects = if Straddles m then 1024 else 512 := by
  refine ⟨_, by rw [inodeLocate, ensure_pos hm]; rfl, ?_⟩
  unfold InodePosition.sects
  have hiff : 512 - m * inodeSize % 512 < inodeSize ↔ Straddles m := by
    unfold Straddles inodeSize
    rw [Nat.mul_comm]
  by_cases hs : Straddles m
  · rw [if_pos hs, if_pos (decide_eq_true (hiff.mpr hs))]
  · rw [if_neg hs, if_neg (by rw [decide_eq_true_eq, hiff]; exact hs)]

/-- Where the transfer fits, the end of the buffer makes no difference. -/
theorem inodeSyncInto_eq {bufLen : Nat} {v : Vol p} {ino : Inode}
    (h : (if Straddles (ino.no % 256) then 1024 else 512) ≤ bufLen) :
    inodeSyncInto bufLen v ino = inodeSync v ino := by
  obtain ⟨pos, hpos, hsects⟩ := inodeLocate_sects p (show ino.no % 256 < 4096 by omega)
  rw [inodeSyncInto, hpos, Option.bind_eq_bind, Option.bind_some, hsects, ensure_pos h]
  rfl

/-- And where it does not, the call does not come back. -/
theorem inodeSyncInto_none {bufLen : Nat} {v : Vol p} {ino : Inode}
    (hs : Straddles (ino.no % 256)) (h : bufLen < 1024) : inodeSyncInto bufLen v ino = none := by
  obtain ⟨pos, hpos, hsects⟩ := inodeLocate_sects p (show ino.no % 256 < 4096 by omega)
  rw [inodeSyncInto, hpos, Option.bind_eq_bind, Option.bind_some, hsects, if_pos hs,
    ensure_neg (by omega)]
  rfl

/-- A buffer of two sectors takes every slot. -/
theorem inodeSyncInto_two {bufLen : Nat} (h : 1024 ≤ bufLen) :
    inodeSyncInto (p := p) bufLen = inodeSync := by
  funext v ino
  apply inodeSyncInto_eq
  split <;> omega

/-- The inode a write syncs has the number of the file's. -/
theorem fileWriteSync_congr {sync sync' : Vol p → Inode → Option (Vol p)} {v : Vol p} {f : File}
    {buf : Mem} {count : Nat} (h : ∀ v ino, ino.no = f.inode.no → sync v ino = sync' v ino) :
    fileWriteSync sync v f buf count = fileWriteSync sync' v f buf count := by
  unfold fileWriteSync
  dsimp only
  split
  next => rfl
  next =>
    apply Option.bind_congr
    intro r hfirst
    obtain ⟨ok, v1, ino1⟩ := r
    have h1 := (firstBlock_spec hfirst).2.no
    dsimp only
    split
    next => rfl
    next =>
      refine Option.bind_congr fun _ _ => Option.bind_congr fun r hcollect => ?_
      obtain ⟨ok, v2, ino2, blocks⟩ := r
      have h2 := (collectWrite_kept hcollect).2.2
      dsimp only
      split
      next => rfl
      next =>
        apply Option.bind_congr
        intro r hloop
        obtain ⟨v3, f3, bytesWritten⟩ := r
        have h3 := (writeLoop_spec (Nat.zero_le _) hloop).2.2.1
        have hno : f3.inode.no = f.inode.no := by
          rw [h3, Inode.no_setSize]
          exact h2.trans h1
        dsimp only
        rw [h v3 f3.inode hno]

/-- With the end of the buffers enforced, the four callers do on inode `n` what they do
anyway: no `inode_sync` transfers more than was allocated. The inode that is synced is
the file's, the new one as well as its parent, and the directory's. -/
structure SyncsFit (p : Partition) (n : Nat) : Prop where
  write : ∀ (v : Vol p) f buf count, f.inode.no = n →
    fileWriteSync (inodeSyncInto fileWriteIoBuf) v f buf count = fileWrite v f buf count
  create : ∀ (k : FileSys p) t parentDir filename flag fdIdx vol,
    fillSlotSync (inodeSyncInto fileCreateIoBuf) k t parentDir filename flag n fdIdx vol =
      fillSlotWith blockBitmapAlloc k t parentDir filename flag n fdIdx vol
  mkdir : ∀ (vol : Vol p) parent dirname,
    makeDirSync (inodeSyncInto sysMkdirIoBuf) vol parent dirname n =
      makeDirWith blockBitmapAlloc vol parent dirname n
  delete : ∀ bufLen, bufLen = sysUnlinkIoBuf ∨ bufLen = dirRemoveIoBuf →
    ∀ fuel (v : Vol p) dirInode inodeNo, dirInode.no = n →
    deleteDirEntrySync (inodeSyncInto bufLen) fuel v dirInode inodeNo =
      deleteDirEntry fuel v dirInode inodeNo

/-- A map of `sects` sectors without a bit. -/
def zeroBits (sects : Nat) : Bitmap := ⟨sects * 512, Mem.zero⟩

theorem zeroBits_length (sects : Nat) : (zeroBits sects).bytesLen = sects * 512 := rfl

/-- A volume of zeros. -/
def zeroVol (p : Partition) : Vol p where
  disk := Mem.zero
  blockBitmap := zeroBits p.blockBitmapSects
  inodeBitmap := zeroBits Partition.inodeBitmapSects
  blockLen := zeroBits_length p.blockBitmapSects
  inodeLen := zeroBits_length Partition.inodeBitmapSects

/-- An empty file with inode `n`, whose first block is there. -/
def emptyFile (n : Nat) : File := ⟨0, 2, (blankInode n).setSec 0 1⟩

theorem emptyFile_no {n : Nat} (hn : n < 4096) : (emptyFile n).inode.no = n := by
  show (UInt32.ofNat n).toNat = n
  rw [UInt32.toNat_ofNat', Nat.mod_eq_of_lt (by omega)]

/-- A write of no bytes comes to its `inode_sync`. -/
theorem fileWriteSync_empty (sync : Vol p → Inode → Option (Vol p)) (v : Vol p) (n : Nat)
    (buf : Mem) : fileWriteSync sync v (emptyFile n) buf 0 =
      (sync v (emptyFile n).inode).bind fun v =>
        some (0, v, { emptyFile n with fdPos := UInt32.ofNat (2 ^ 32 - 1) }) := by
  have hsize : (emptyFile n).inode.size = 0 := rfl
  have hsec : (emptyFile n).inode.sec 0 = 1 := rfl
  have hfirst : firstBlock blockBitmapAlloc v (emptyFile n).inode =
      some (true, v, (emptyFile n).inode) := by
    rw [firstBlock, if_neg (by rw [hsec]; decide)]
    rfl
  have hcollect : ∃ blocks, collectWrite blockBitmapAlloc v (emptyFile n).inode 1 1 =
      some (true, v, (emptyFile n).inode, blocks) := by
    rw [collectWrite]
    exact ⟨_, rfl⟩
  obtain ⟨blocks, hcollect⟩ := hcollect
  unfold fileWriteSync
  dsimp only
  rw [hsize, if_neg (by decide), hfirst]
  simp only [Option.bind_eq_bind, Option.bind_some, Bool.not_true, Bool.false_eq_true, if_false]
  rw [ensure_pos (by decide), Option.bind_some,
    show (0 + 0) % 2 ^ 32 / 512 + 1 = 1 from rfl, show 0 / 512 + 1 = 1 from rfl, hcollect]
  rfl

/-- **Which writes fit.** All transfers of the four callers stay in their buffers
exactly if the slot `inode_sync` goes to, number `n % 256`, is in one sector. Only
`file_write` is too short for two. -/
theorem sync_fits_iff (p : Partition) {n : Nat} (hn : n < 4096) :
    SyncsFit p n ↔ ¬Straddles (n % 256) := by
  have hno := emptyFile_no hn
  constructor
  · intro h hs
    have hw := h.write (zeroVol p) (emptyFile n) Mem.zero 0 hno
    rw [← fileWriteSync_eq, fileWriteSync_empty, fileWriteSync_empty,
      inodeSyncInto_none (by rwa [hno]) (by decide), inodeSync_eq] at hw
    cases hw
  · intro hs
    refine ⟨fun v f buf count hf => ?_, fun k t parentDir filename flag fdIdx vol => ?_,
      fun vol parent dirname => ?_, fun bufLen hlen fuel v dirInode inodeNo _ => ?_⟩
    · rw [← fileWriteSync_eq]
      refine fileWriteSync_congr fun v' ino hino => inodeSyncInto_eq ?_
      rw [hino, hf, if_neg hs]
      exact Nat.le_refl _
    · rw [inodeSyncInto_two (by decide), fillSlotSync_eq]
    · rw [inodeSyncInto_two (by decide), makeDirSync_eq]
    · rw [inodeSyncInto_two (by rcases hlen with rfl | rfl <;> decide), deleteDirEntrySync_eq]

theorem sync_fits_iff_seven : SyncsFit blankPartition 7 ↔ ¬Straddles (7 % 256) :=
  sync_fits_iff blankPartition (by decide)

/-- **A write to inode 6** goes 512 bytes past its buffer. -/
theorem file_write_past_buffer : ¬∀ (p : Partition) (n : Nat), n < 4096 → SyncsFit p n := by
  intro h
  have hno := emptyFile_no (show 6 < 4096 by decide)
  have hw := (h blankPartition 6 (by decide)).write (zeroVol _) (emptyFile 6) Mem.zero 0 hno
  rw [← fileWriteSync_eq, fileWriteSync_empty, fileWriteSync_empty,
    inodeSyncInto_none (by rw [hno]; decide) (by decide), inodeSync_eq] at hw
  cases hw

end OsCore.Fs
