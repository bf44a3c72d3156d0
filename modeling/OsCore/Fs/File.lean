import OsCore.Fs.Inode

/-!
# Reading and writing regular files (`fs/file.c`)

A file keeps its block addresses in `i_sectors[0..11]` and, past the twelfth,
in a table of 128 words on the block `i_sectors[12]`. `fileWrite` first makes
sure the blocks for the new bytes exist (`firstBlock`, then the four cases of
`collectWrite`), gathering the addresses it will need in `all_blocks`, and then
copies sector by sector (`writeLoop`). `fileRead` gathers the same addresses
by its own four cases (`collectRead`) and copies out.

The allocator is an argument of the write path, so that what a refused request
leaves behind can be asked about; `fileWrite` itself runs on
`blockBitmapAlloc`. Local arrays are word maps: `all_blocks` has 140 entries
and reading past them ends the model (`none`), like a failed `ASSERT`. The
heap is taken to grant the buffers.

The three allocation loops of the source differ in what they store: direct
slots go to `i_sectors` and `all_blocks`, later ones to `all_blocks` only. The
middle one (old data in direct blocks, new data beyond them) decides by index;
in the other two the index decides the same way, so `growLoop` is all three.
-/

namespace OsCore.Fs

variable {p : Partition}

/-- `struct file` with the inode it points to. -/
structure File where
  fdPos : UInt32
  fdFlag : UInt32
  inode : Inode

/-- Reading a word as `int32_t`. -/
def toInt32 (n : Nat) : Int := if n < 2 ^ 31 then n else (n : Int) - 2 ^ 32

/-- `a[i] = x` on a word array. -/
def setWord (a : Nat → Nat) (i x : Nat) : Nat → Nat := fun j => if j = i then x else a j

/-- `ide_read(disk, table, all_blocks+12, 1)`: the 128 words of an indirect table. -/
def readTable (disk : Mem) (table : Nat) (blocks : Nat → Nat) : Option (Nat → Nat) := do
  let m ← ideRead disk table Mem.zero 1
  return fun k => if 12 ≤ k ∧ k < 140 then m.words (k - 12) else blocks k

/-- `ide_write(disk, table, all_blocks+12, 1)`. -/
def writeTable (disk : Mem) (table : Nat) (blocks : Nat → Nat) : Option Mem :=
  ideWrite disk table (Mem.ofWords fun j => blocks (j + 12)) 1

/-! ## Writing -/

section Write

variable (alloc : Vol p → Option (Int × Vol p))

/-- The first write to a file gives it a block. -/
def firstBlock (v : Vol p) (inode : Inode) : Option (Bool × Vol p × Inode) := do
  if inode.sec 0 = 0 then
    let (blockLba, v) ← alloc v
    if blockLba = -1 then return (false, v, inode)
    let inode := inode.setSec 0 blockLba.toNat
    let blockBitmapIdx := blockLba.toNat - p.dataStartLba
    ensure (blockBitmapIdx ≠ 0)
    let v ← bitmapSync v blockBitmapIdx .blockBitmap
    return (true, v, inode)
  return (true, v, inode)

/-- Record block `blockIdx`: a direct one goes to its slot, which must be empty. -/
def installBlock (inode : Inode) (blockIdx blockLba : Nat) : Option Inode := do
  if blockIdx < 12 then
    ensure (inode.sec blockIdx = 0)
    return inode.setSec blockIdx blockLba
  else return inode

/-- `while (block_idx < file_will_use_blocks)`: `n` more blocks from index
`blockIdx` on. -/
def growLoop : Nat → Nat → Vol p → Inode → (Nat → Nat) →
    Option (Bool × Vol p × Inode × (Nat → Nat))
  | 0, _, v, inode, blocks => some (true, v, inode, blocks)
  | n + 1, blockIdx, v, inode, blocks => do
    let (blockLba, v) ← alloc v
    if blockLba = -1 then return (false, v, inode, blocks)
    let inode ← installBlock inode blockIdx blockLba.toNat
    let blocks := setWord blocks blockIdx blockLba.toNat
    let v ← bitmapSync v (blockLba.toNat - p.dataStartLba) .blockBitmap
    growLoop n (blockIdx + 1) v inode blocks

/-- Allocate what is missing and gather the addresses to write to. -/
def collectWrite (v : Vol p) (inode : Inode) (hasUsed willUse : Nat) :
    Option (Bool × Vol p × Inode × (Nat → Nat)) := do
  let blocks : Nat → Nat := fun _ => 0
  if willUse = hasUsed then
    if hasUsed ≤ 12 then
      -- the new bytes stay in the last block
      return (true, v, inode, setWord blocks (hasUsed - 1) (inode.sec (hasUsed - 1)))
    else
      ensure (inode.sec 12 ≠ 0)
      let blocks ← readTable v.disk (inode.sec 12) blocks
      return (true, v, inode, blocks)
  else if willUse ≤ 12 then
    -- situation 1: the direct blocks are enough
    ensure (inode.sec (hasUsed - 1) ≠ 0)
    let blocks := setWord blocks (hasUsed - 1) (inode.sec (hasUsed - 1))
    growLoop alloc (willUse - hasUsed) hasUsed v inode blocks
  else if hasUsed ≤ 12 then
    -- situation 2: from direct blocks into indirect ones
    let blocks := setWord blocks (hasUsed - 1) (inode.sec (hasUsed - 1))
    let (blockLba, v) ← alloc v
    if blockLba = -1 then return (false, v, inode, blocks)
    ensure (inode.sec 12 = 0)
    let inode := inode.setSec 12 blockLba.toNat
    let (ok, v, inode, blocks) ← growLoop alloc (willUse - hasUsed) hasUsed v inode blocks
    if !ok then return (false, v, inode, blocks)
    let disk ← writeTable v.disk (inode.sec 12) blocks
    return (true, { v with disk }, inode, blocks)
  else
    -- situation 3: indirect blocks only
    ensure (inode.sec 12 ≠ 0)
    let blocks ← readTable v.disk (inode.sec 12) blocks
    let (ok, v, inode, blocks) ← growLoop alloc (willUse - hasUsed) hasUsed v inode blocks
    if !ok then return (false, v, inode, blocks)
    let disk ← writeTable v.disk (inode.sec 12) blocks
    return (true, { v with disk }, inode, blocks)

/-- The copy loop. Each round writes at least one byte, so `count` rounds do. -/
def writeLoop (blocks : Nat → Nat) (buf : Mem) (count : Nat) :
    Nat → Vol p → File → Nat → Bool → Option (Vol p × File × Nat)
  | fuel, v, f, bytesWritten, firstWriteBlock =>
    if bytesWritten < count then
      match fuel with
      | 0 => none
      | fuel + 1 => do
        let secIdx := f.inode.size / 512
        ensure (secIdx < 140)
        let secLba := blocks secIdx
        let secOffBytes := f.inode.size % 512
        let secLeftBytes := 512 - secOffBytes
        let sizeLeft := count - bytesWritten
        let chunkSize := if sizeLeft < secLeftBytes then sizeLeft else secLeftBytes
        let ioBuf ← (if firstWriteBlock then ideRead v.disk secLba Mem.zero 1 else some Mem.zero)
        let ioBuf := ioBuf.blit secOffBytes (buf.shift bytesWritten) chunkSize
        let disk ← ideWrite v.disk secLba ioBuf 1
        let f := { f with
          inode := f.inode.setSize (f.inode.size + chunkSize)
          fdPos := f.fdPos + UInt32.ofNat chunkSize }
        writeLoop blocks buf count fuel { v with disk } f (bytesWritten + chunkSize) false
    else some (v, f, bytesWritten)

/-- The chunk of a round is what is left to move, or to the end of the sector. -/
theorem chunkSize_eq (sizeLeft secLeftBytes : Nat) :
    (if sizeLeft < secLeftBytes then sizeLeft else secLeftBytes) =
      min sizeLeft secLeftBytes := by
  split <;> omega

/-- `file_write` on a given allocator. -/
def fileWriteWith (v : Vol p) (f : File) (buf : Mem) (count : Nat) :
    Option (Int × Vol p × File) := do
  let size := f.inode.size
  if (size + count) % 2 ^ 32 > 512 * 140 then return (-1, v, f)
  let (ok, v, inode) ← firstBlock alloc v f.inode
  if !ok then return (-1, v, { f with inode })
  let fileHasUsedBlocks := size / 512 + 1
  let fileWillUseBlocks := (size + count) % 2 ^ 32 / 512 + 1
  ensure (fileWillUseBlocks ≤ 140)
  let (ok, v, inode, blocks) ← collectWrite alloc v inode fileHasUsedBlocks fileWillUseBlocks
  if !ok then return (-1, v, { f with inode })
  let f := { f with inode, fdPos := UInt32.ofNat (size + 2 ^ 32 - 1) }
  let (v, f, bytesWritten) ← writeLoop blocks buf count count v f 0 true
  let v ← inodeSync v f.inode
  return (toInt32 bytesWritten, v, f)

end Write

/-- `file_write(file, buf, count)`. -/
def fileWrite (v : Vol p) (f : File) (buf : Mem) (count : Nat) : Option (Int × Vol p × File) :=
  fileWriteWith blockBitmapAlloc v f buf count

/-! ## Reading -/

/-- `while (block_idx < n) all_blocks[block_idx] = i_sectors[block_idx]`, from
`start`. -/
def copyDirect (inode : Inode) (start n : Nat) (blocks : Nat → Nat) : Nat → Nat :=
  fun k => if start ≤ k ∧ k < n then inode.sec k else blocks k

/-- Gather the addresses to read from. -/
def collectRead (v : Vol p) (inode : Inode) (startIdx endIdx : Nat) : Option (Nat → Nat) := do
  let blocks : Nat → Nat := fun _ => 0
  if startIdx = endIdx then
    if endIdx < 12 then
      return setWord blocks endIdx (inode.sec endIdx)
    else
      readTable v.disk (inode.sec 12) blocks
  else if endIdx < 12 then
    return copyDirect inode startIdx (endIdx + 1) blocks
  else if startIdx < 12 then
    let blocks := copyDirect inode startIdx 12 blocks
    ensure (inode.sec 12 ≠ 0)
    readTable v.disk (inode.sec 12) blocks
  else
    ensure (inode.sec 12 ≠ 0)
    readTable v.disk (inode.sec 12) blocks

/-- The copy loop of `file_read`, into the buffer `dst`. -/
def readLoop (v : Vol p) (blocks : Nat → Nat) (size : Nat) :
    Nat → File → Mem → Nat → Option (File × Mem × Nat)
  | fuel, f, dst, bytesRead =>
    if bytesRead < size then
      match fuel with
      | 0 => none
      | fuel + 1 => do
        let secIdx := f.fdPos.toNat / 512
        ensure (secIdx < 140)
        let secLba := blocks secIdx
        let secOffBytes := f.fdPos.toNat % 512
        let secLeftBytes := 512 - secOffBytes
        let sizeLeft := size - bytesRead
        let chunkSize := if sizeLeft < secLeftBytes then sizeLeft else secLeftBytes
        let ioBuf ← ideRead v.disk secLba Mem.zero 1
        let dst := dst.blit bytesRead (ioBuf.shift secOffBytes) chunkSize
        let f := { f with fdPos := f.fdPos + UInt32.ofNat chunkSize }
        readLoop v blocks size fuel f dst (bytesRead + chunkSize)
    else some (f, dst, bytesRead)

/-- `file_read(file, buf, count)`: the result, the file and the filled buffer. -/
def fileRead (v : Vol p) (f : File) (buf : Mem) (count : Nat) : Option (Int × File × Mem) := do
  let pos := f.fdPos.toNat
  let clamp := (pos + count) % 2 ^ 32 > f.inode.size
  let size := if clamp then (f.inode.size + 2 ^ 32 - pos) % 2 ^ 32 else count
  if clamp ∧ size = 0 then return (-1, f, buf)
  let blockReadStartIdx := pos / 512
  let blockReadEndIdx := (pos + size) % 2 ^ 32 / 512
  ensure (blockReadStartIdx < 139 ∧ blockReadEndIdx < 139)
  let blocks ← collectRead v f.inode blockReadStartIdx blockReadEndIdx
  let (f, buf, bytesRead) ← readLoop v blocks size size f buf 0
  return (toInt32 bytesRead, f, buf)

/-! ## Seeking -/

/-- `enum whence`. -/
inductive Whence
  | seekSet
  | seekCur
  | seekEnd
  deriving DecidableEq, Repr

/-- `fd_local2global`: the index into `file_table`, of `MAX_FILE_OPEN` entries. -/
def fdLocal2global (fdTable : Nat → Int) (localFd : Nat) : Option Nat := do
  let globalFd := fdTable localFd
  ensure (0 ≤ globalFd ∧ globalFd < 32)
  return globalFd.toNat

/-- The body of `sys_lseek`, on the file it found. -/
def lseek (f : File) (offset : Int) (whence : Whence) : Int × File :=
  let fileSize := toInt32 f.inode.size
  let newPos := match whence with
    | .seekSet => offset
    | .seekCur => (toInt32 f.fdPos.toNat + offset).bmod (2 ^ 32)
    | .seekEnd => (fileSize + offset).bmod (2 ^ 32)
  if newPos < 0 ∨ newPos > fileSize - 1 then (-1, f)
  else (newPos, { f with fdPos := UInt32.ofNat newPos.toNat })

/-- `sys_lseek`. Its `ASSERT` on `whence` is the type of the argument. -/
def sysLseek (fdTable : Nat → Int) (fileTable : Nat → File) (fd offset : Int) (whence : Whence) :
    Option (Int × (Nat → File)) := do
  if fd < 0 then return (-1, fileTable)
  let fd ← fdLocal2global fdTable fd.toNat
  let (newPos, f) := lseek (fileTable fd) offset whence
  return (newPos, fun g => if g = fd then f else fileTable g)

end OsCore.Fs
