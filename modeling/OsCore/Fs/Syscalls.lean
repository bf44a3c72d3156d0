import OsCore.Fs.Writers

/-!
# System calls on paths and descriptors (`fs/fs.c`)

Every call that takes a path begins with `search_file`, which leaves the
directory it stopped in open for the caller to close. `sys_open` closes it on all
ways out but one: when it opens a file that is there, the parent stays open. These
directories are in `dirs` with those `sys_opendir` hands out.

What a call finds on the stack is an argument (`Stack`): `search_file` returns an
uninitialised `dir_e` for a path of slashes, and `path_depth_cnt` looks at an
uninitialised name for a path without components.

`Borrowed` is what the search leaves behind: the directory in `parent_dir` has one
user more, and nothing else is different. Out of it come the effects of the calls
on the tables; `sysOpen_cases` and its siblings say which ways there are through
each of them.
-/

namespace OsCore.Fs

open OsCore.Lib

variable {p : Partition}

/-! ## Paths -/

/-- `while (name[0])` in `path_depth_cnt`, where `c` is `name[0]`. -/
def depthLoop : Nat → Option (List UInt8) → UInt8 → Nat → Option Nat
  | 0, _, _, _ => none
  | fuel + 1, path, c, depth =>
    if c = 0 then some depth
    else do
      let (path, name) := parseNext path
      ensure (name.length ≤ 16)
      depthLoop fuel path (name.headD 0) (depth + 1)

/-- `path_depth_cnt`; `c` is what the first byte of `name` is before. -/
def pathDepthCnt (c : UInt8) (pathname : List UInt8) : Option Nat := do
  let (path, name) := pathParse pathname
  ensure (name.length ≤ 16)
  depthLoop (pathname.length + 2) path (name.headD c) 0

/-- `strrchr(path, '/') + 1`. -/
def lastName (path : List UInt8) : List UInt8 := (path.reverse.takeWhile (· != slash)).reverse

/-- What is on the stack where locals go that are not initialised. -/
structure Stack where
  dirE : DirEntry
  name : UInt8
  name' : UInt8

/-- A stack of zero bytes. -/
def noStack : Stack := ⟨⟨fun _ => 0, 0, 0⟩, 0, 0⟩

/-- `/AA`, the path of the file in the small tree. -/
def pathAA : List UInt8 := [47, 65, 65]

/-- An `int` passed as a `uint32_t`. -/
def asUInt (n : Int) : Nat := (n % 2 ^ 32).toNat

/-! ## Files -/

/-- `search_file` on the tables' partition. -/
def FileSys.search (k : FileSys p) (stack : Stack) (pathname : List UInt8) :
    Option (Int × PathSearchRecord × FileSys p) := do
  let (inodeNo, record, part) ← searchFile k.rootDir stack.dirE k.part pathname
  return (inodeNo, record, { k with part })

/-- A `struct dir` that nobody is going to close. -/
def FileSys.keepDir (k : FileSys p) : DirHandle → FileSys p
  | .root => k
  | .opened a => { k with dirs := a :: k.dirs }

/-- `sys_open(pathname, flags)` by task `t`, on a given `file_create`. -/
def sysOpenOn
    (create : FileSys p → Nat → DirHandle → List UInt8 → UInt8 → Grants → Option (Int × FileSys p))
    (k : FileSys p) (t : Nat) (pathname : List UInt8) (flags : UInt8) (heap : Grants)
    (stack : Stack) : Option (Int × FileSys p) := do
  if pathname.getLast? = some slash then return (-1, k)
  ensure (flags ≤ 7)
  let pathnameDepth ← pathDepthCnt stack.name pathname
  let (inodeNo, record, k) ← k.search stack pathname
  let failed := (k.dirClose record.parentDir).map fun k => ((-1 : Int), k)
  if record.fileType = ftDirectory then failed
  else
    let pathSearchedDepth ← pathDepthCnt stack.name' record.searchedPath
    if pathnameDepth ≠ pathSearchedDepth then failed
    else if inodeNo = -1 ∧ flags &&& oCreat = 0 then failed
    else if inodeNo ≠ -1 ∧ flags &&& oCreat ≠ 0 then failed
    else if flags &&& oCreat ≠ 0 then
      let (fd, k) ← create k t record.parentDir (lastName pathname) flags heap
      let k ← k.dirClose record.parentDir
      return (fd, k)
    else
      -- `parent_dir` is not closed here
      fileOpen (k.keepDir record.parentDir) t (asUInt inodeNo) flags

/-- `sys_open(pathname, flags)` by task `t`. -/
def sysOpen (k : FileSys p) (t : Nat) (pathname : List UInt8) (flags : UInt8) (heap : Grants)
    (stack : Stack) : Option (Int × FileSys p) :=
  sysOpenOn fileCreate k t pathname flags heap stack

/-- `sys_close(fd)` by task `t`. A descriptor behind the eight of `fd_table` ends
the model. -/
def sysClose (k : FileSys p) (t : Nat) (fd : Int) : Option (Int × FileSys p) := do
  if fd > 2 then
    ensure (fd < 8)
    let globalFd ← fdLocal2global (k.pcb t).fdTable fd.toNat
    let file := k.fileTable globalFd
    if file.fdFlag = pipeFlag then
      -- the last descriptor of a pipe gives the page back
      let fdPos := file.fdPos - 1
      let fdInode := if fdPos = 0 then 0 else file.fdInode
      return (0, (k.setSlot globalFd { file with fdPos, fdInode }).setFd t fd.toNat (-1))
    else
      let (ret, k) ← fileClose k globalFd
      return (ret, k.setFd t fd.toNat (-1))
  else return (-1, k)

/-! ## Directories -/

/-- `sys_opendir(name)`; `none` for `NULL`. -/
def sysOpendir (k : FileSys p) (name : List UInt8) (stack : Stack) :
    Option (Option DirHandle × FileSys p) := do
  ensure (name.length < 512)
  if name = [slash] then return (some .root, k)
  let (inodeNo, record, k) ← k.search stack name
  if inodeNo ≠ -1 ∧ record.fileType = ftDirectory then
    let (dir, part) ← dirOpen k.part (asUInt inodeNo)
    let k ← { k with part }.dirClose record.parentDir
    return (some dir, k.keepDir dir)
  else
    let k ← k.dirClose record.parentDir
    return (none, k)

/-- `sys_closedir(dir)` for a `dir` that is open. -/
def sysClosedir (k : FileSys p) (dir : DirHandle) : Option (Int × FileSys p) := do
  match dir with
  | .root => return (0, k)
  | .opened a =>
    ensure (a ∈ k.dirs)
    let k ← k.dirClose dir
    return (0, { k with dirs := k.dirs.erase a })

/-- `sys_chdir(path)` by task `t`. -/
def sysChdir (k : FileSys p) (t : Nat) (path : List UInt8) (stack : Stack) :
    Option (Int × FileSys p) := do
  let (inodeNo, record, k) ← k.search stack path
  let (ret, k) : Int × FileSys p :=
    if inodeNo ≠ -1 ∧ record.fileType = ftDirectory then
      let pcb := { k.pcb t with cwdInodeNr := asUInt inodeNo }
      (0, { k with pcb := Function.update k.pcb t pcb })
    else (-1, k)
  let k ← k.dirClose record.parentDir
  return (ret, k)

section Mkdir

variable (inodeAlloc blockAlloc : Vol p → Option (Int × Vol p))

/-- The entries `.` and `..` of a new directory. -/
def dotEntries (inodeNo parentNo : Nat) : Option Mem := do
  let here ← createDirEntry dot inodeNo ftDirectory
  let up ← createDirEntry dotDot parentNo ftDirectory
  return (Mem.zero.blit 0 here.bytes dirEntrySize).blit dirEntrySize up.bytes dirEntrySize

/-- `sys_mkdir` from the inode number on: whether it comes through, and what the
volume and the parent are then. -/
def makeDirWith (vol : Vol p) (parent : Inode) (dirname : List UInt8) (inodeNo : Nat) :
    Option (Bool × Vol p × Inode) := do
  let newDirInode := newInode inodeNo
  let (blockLba, vol) ← blockAlloc vol
  if blockLba = -1 then return (false, vol.setInode inodeNo false, parent)
  let newDirInode := newDirInode.setSec 0 blockLba.toNat
  let blockBitmapIdx := blockBit p blockLba.toNat
  ensure (blockBitmapIdx ≠ 0)
  let vol ← bitmapSync vol blockBitmapIdx .blockBitmap
  let ioBuf ← dotEntries inodeNo parent.no
  let disk ← ideWrite vol.disk (newDirInode.sec 0) ioBuf 1
  let newDirInode := newDirInode.setSize (2 * dirEntrySize)
  let newDirEntry ← createDirEntry dirname inodeNo ftDirectory
  let (ok, vol, parent) ← syncDirEntryWith blockAlloc { vol with disk } parent newDirEntry
  if !ok then return (false, vol.setInode inodeNo false, parent)
  let vol ← inodeSync vol parent
  let vol ← inodeSync vol newDirInode
  let vol ← bitmapSync vol inodeNo .inodeBitmap
  return (true, vol, parent)

/-- `sys_mkdir` on given allocators. -/
def sysMkdirWith (k : FileSys p) (pathname : List UInt8) (heap : Grants) (stack : Stack) :
    Option (Int × FileSys p) := do
  if !heap.ioBuf then return (-1, k)
  let (inodeNo, record, k) ← k.search stack pathname
  let failed := (k.dirClose record.parentDir).map fun k => ((-1 : Int), k)
  if inodeNo ≠ -1 then failed
  else
    let pathnameDepth ← pathDepthCnt stack.name pathname
    let pathSearchedDepth ← pathDepthCnt stack.name' record.searchedPath
    if pathnameDepth ≠ pathSearchedDepth then failed
    else
      -- `strrchr` finds nothing in an empty string
      ensure (record.searchedPath ≠ [])
      let (inodeNo, vol) ← inodeAlloc k.part.vol
      if inodeNo = -1 then
        let k ← (k.setVol vol).dirClose record.parentDir
        return (-1, k)
      else
        let pa := record.parentDir.inode k.rootDir
        let parent ← k.part.inodeAt pa
        let (ok, vol, parent) ←
          makeDirWith blockAlloc vol parent (lastName record.searchedPath) inodeNo.toNat
        let k := { k with part := { k.part with vol }.modifyInode pa fun _ => parent }
        let k ← k.dirClose record.parentDir
        return (if ok then 0 else -1, k)

end Mkdir

/-- `sys_mkdir(pathname)`. -/
def sysMkdir (k : FileSys p) (pathname : List UInt8) (heap : Grants) (stack : Stack) :
    Option (Int × FileSys p) :=
  sysMkdirWith inodeBitmapAlloc blockBitmapAlloc k pathname heap stack

/-! ## Removal -/

/-- `delete_dir_entry` in an open directory. The loop that does not end needs no
fuel. -/
def FileSys.deleteEntry (k : FileSys p) (dir : DirHandle) (inodeNo : Nat) :
    Option (FileSys p) := do
  let inode ← k.part.inodeAt (dir.inode k.rootDir)
  let (_, vol, inode) ← deleteDirEntry 0 k.part.vol inode inodeNo
  return { k with part := { k.part with vol }.modifyInode (dir.inode k.rootDir) fun _ => inode }

/-- `inode_release`. -/
def FileSys.release (k : FileSys p) (inodeNo : Nat) : Option (FileSys p) := do
  let part ← inodeRelease k.part inodeNo
  return { k with part }

/-- The test of `sys_unlink`: some entry of `file_table` is open on `inodeNo`. -/
def FileSys.inUse (k : FileSys p) (inodeNo : Nat) : Bool :=
  (List.range 32).any fun fileIdx => (k.fileTable fileIdx).fdInode ≠ 0 &&
    k.part.noAt (k.fileTable fileIdx).fdInode = some inodeNo

/-- `sys_unlink(pathname)`. -/
def sysUnlink (k : FileSys p) (pathname : List UInt8) (heap : Grants) (stack : Stack) :
    Option (Int × FileSys p) := do
  ensure (pathname.length < 512)
  let (inodeNo, record, k) ← k.search stack pathname
  ensure (inodeNo ≠ 0)
  let failed := (k.dirClose record.parentDir).map fun k => ((-1 : Int), k)
  if inodeNo = -1 then failed
  else if record.fileType = ftDirectory then failed
  else if k.inUse (asUInt inodeNo) then failed
  else if !heap.ioBuf then failed
  else
    let k ← k.deleteEntry record.parentDir (asUInt inodeNo)
    let k ← k.release (asUInt inodeNo)
    let k ← k.dirClose record.parentDir
    return (0, k)

/-- `dir_is_empty`. -/
def dirIsEmpty (inode : Inode) : Bool := inode.size = 2 * dirEntrySize

/-- `dir_remove(parent_dir, child_dir)`, `child` being the struct of the child. -/
def dirRemove (k : FileSys p) (parentDir : DirHandle) (child : Inode) (heap : Grants) :
    Option (Int × FileSys p) := do
  ensure (∀ blockIdx ∈ List.range' 1 12, child.sec blockIdx = 0)
  if !heap.ioBuf then return (-1, k)
  let k ← k.deleteEntry parentDir child.no
  let k ← k.release child.no
  return (0, k)

/-- `sys_rmdir(pathname)`. -/
def sysRmdir (k : FileSys p) (pathname : List UInt8) (heap : Grants) (stack : Stack) :
    Option (Int × FileSys p) := do
  let (inodeNo, record, k) ← k.search stack pathname
  ensure (inodeNo ≠ 0)
  if inodeNo = -1 ∨ record.fileType = ftRegular then
    let k ← k.dirClose record.parentDir
    return (-1, k)
  else
    let (dir, part) ← dirOpen k.part (asUInt inodeNo)
    let k := { k with part }
    let child ← part.inodeAt (dir.inode k.rootDir)
    let (ret, k) ←
      if dirIsEmpty child then dirRemove k record.parentDir child heap else some (-1, k)
    let k ← k.dirClose dir
    let k ← k.dirClose record.parentDir
    return (ret, k)

/-! ## The directory a search leaves open -/

/-- `dir` was opened in `s`, or is the root directory; that is all `st` differs
by. -/
structure Borrowed (s : Mounted p) (dir : DirHandle) (st : Mounted p) : Prop where
  vol : st.vol = s.vol
  root : dir = .root → Same s st
  opened : ∀ a, dir = .opened a → ∃ m, Opens s a m st

theorem Same.borrowed {s st : Mounted p} (h : Same s st) (hvol : st.vol = s.vol) :
    Borrowed s .root st := ⟨hvol, fun _ => h, fun _ ha => by cases ha⟩

theorem Opens.borrowed {s st : Mounted p} {a m : Nat} (h : Opens s a m st) (hvol : st.vol = s.vol) :
    Borrowed s (.opened a) st := by
  refine ⟨hvol, fun hr => (by cases hr), fun b hb => ?_⟩
  obtain rfl : a = b := by simpa using hb
  exact ⟨m, h⟩

theorem Opens.cnt_le {s st : Mounted p} {a m : Nat} (h : Opens s a m st) (b : Nat) :
    st.cnt b ≤ s.cnt b + 1 := by
  rw [h.cnt, Function.update_apply]
  split
  · next hb => rw [hb]
  · omega

theorem Borrowed.steady {s st : Mounted p} {dir : DirHandle} (h : Borrowed s dir st) :
    Steady st := by
  cases dir with
  | root => exact (h.root rfl).steady
  | opened a =>
    obtain ⟨m, ho⟩ := h.opened a rfl
    exact ho.steady

theorem Borrowed.cnt_le {s st : Mounted p} {dir : DirHandle} (h : Borrowed s dir st) (b : Nat) :
    st.cnt b ≤ s.cnt b + 1 := by
  cases dir with
  | root =>
    rw [(h.root rfl).cnt]
    omega
  | opened a =>
    obtain ⟨m, ho⟩ := h.opened a rfl
    exact ho.cnt_le b

theorem dirOpen_opens {s st : Mounted p} {n : Nat} {dir : DirHandle} (hs : Steady s)
    (hroom : ∀ b, s.cnt b + 1 < 2 ^ 32) (h : dirOpen s n = some (dir, st)) :
    ∃ a, dir = .opened a ∧ Opens s a (inodeOf s n).no st ∧ st.vol = s.vol := by
  simp only [dirOpen, Option.bind_eq_bind, Option.bind_eq_some_iff, Prod.exists, Option.pure_def,
    Option.some.injEq, Prod.mk.injEq] at h
  obtain ⟨a, s1, hopen, rfl, rfl⟩ := h
  exact ⟨a, rfl, inodeOpen_opens hs hroom hopen⟩

/-- **Rule for a search.** It keeps what holds of the directory it has open and
the state, if that is kept when one directory is closed and the next one opened. -/
theorem searchFile_keeps {P : DirHandle → Mounted p → Prop}
    (hnext : ∀ {dir dir' : DirHandle} {st s1 st' : Mounted p} {n : Nat}, P dir st →
      dirClose st dir = some s1 → dirOpen s1 n = some (dir', st') → P dir' st')
    {rootDir : Nat} {dirE : DirEntry} {pathname : List UInt8} {n : Int}
    {record : PathSearchRecord} {s s' : Mounted p} (hs : P .root s)
    (h : searchFile rootDir dirE s pathname = some (n, record, s')) : P record.parentDir s' := by
  have hloop : ∀ {fuel : Nat} {subPath : Option (List UInt8)} {name : List UInt8}
      {parentDir : DirHandle} {dirE : DirEntry} {parentInodeNo : Nat}
      {record record' : PathSearchRecord} {st s' : Mounted p} {n : Int},
      P parentDir st → record.parentDir = parentDir →
      searchNames rootDir fuel subPath name parentDir dirE parentInodeNo record st =
        some (n, record', s') → P record'.parentDir s' := by
    intro fuel
    induction fuel with
    | zero =>
      intro subPath name parentDir dirE parentInodeNo record record' st s' n _ _ h
      cases h
    | succ fuel ih =>
      intro subPath name parentDir dirE parentInodeNo record record' st s' n hst hrec h
      rw [searchNames] at h
      by_cases hname : name = []
      · -- the whole path was found, and its directory takes the place of the last one
        simp only [if_pos hname, searchEnd, Option.bind_eq_bind, Option.bind_eq_some_iff,
          Prod.exists, Option.pure_def, Option.some.injEq, Prod.mk.injEq] at h
        obtain ⟨s1, h1, dir', st', h2, -, rfl, rfl⟩ := h
        rw [hrec] at h1
        exact hnext hst h1 h2
      · simp only [if_neg hname, Option.bind_eq_bind, Option.bind_eq_some_iff] at h
        obtain ⟨-, -, -, -, inode, -, found, -, h⟩ := h
        cases found with
        | none =>
          simp only [Option.pure_def, Option.some.injEq, Prod.mk.injEq] at h
          obtain ⟨-, rfl, rfl⟩ := h
          exact hrec.symm ▸ hst
        | some de =>
          by_cases hdir : de.fType = ftDirectory
          · simp only [if_pos hdir, Option.bind_eq_some_iff, Prod.exists] at h
            obtain ⟨s1, h1, dir', st', h2, h⟩ := h
            exact ih (hnext hst h1 h2) rfl h
          · by_cases hreg : de.fType = ftRegular
            · simp only [if_neg hdir, if_pos hreg, Option.pure_def, Option.some.injEq,
                Prod.mk.injEq] at h
              obtain ⟨-, rfl, rfl⟩ := h
              exact hrec.symm ▸ hst
            · simp only [if_neg hdir, if_neg hreg] at h
              refine ih hst ?_ h
              exact hrec
  unfold searchFile at h
  split at h
  · simp only [Option.some.injEq, Prod.mk.injEq] at h
    obtain ⟨-, rfl, rfl⟩ := h
    exact hs
  · simp only [Option.bind_eq_bind, Option.bind_eq_some_iff] at h
    obtain ⟨-, -, h⟩ := h
    exact hloop hs rfl h

section Search

variable {s : Mounted p} (hs : Steady s) (hroom : ∀ b, s.cnt b + 4 < 2 ^ 32)

include hs

/-- Closing it again. -/
theorem Borrowed.dirClose {st s' : Mounted p} {dir : DirHandle} (h : Borrowed s dir st)
    (hclose : Fs.dirClose st dir = some s') : Same s s' ∧ s'.vol = s.vol := by
  cases dir with
  | root =>
    obtain rfl := Option.some.inj hclose
    exact ⟨h.root rfl, h.vol⟩
  | opened a =>
    obtain ⟨m, ho⟩ := h.opened a rfl
    obtain ⟨hc, hvol⟩ := inodeClose_closes ho.steady hclose
    exact ⟨ho.close hs hc, hvol.trans h.vol⟩

include hroom

/-- One directory is closed and another opened. -/
theorem Borrowed.next {st s1 st' : Mounted p} {dir dir' : DirHandle} {n : Nat}
    (h : Borrowed s dir st) (hclose : Fs.dirClose st dir = some s1)
    (hopen : dirOpen s1 n = some (dir', st')) : Borrowed s dir' st' := by
  obtain ⟨hsame, hvol⟩ := h.dirClose hs hclose
  have hroom1 : ∀ b, s1.cnt b + 1 < 2 ^ 32 := fun b => by
    have := hroom b
    rw [hsame.cnt]
    omega
  obtain ⟨a, rfl, ho, hvol'⟩ := dirOpen_opens hsame.steady hroom1 hopen
  exact (hsame.opens ho).borrowed (hvol'.trans hvol)

/-- **A search** opens the directory it returns in the record, and that is all. -/
theorem searchFile_borrowed {rootDir : Nat} {dirE : DirEntry} {pathname : List UInt8} {n : Int}
    {record : PathSearchRecord} {s' : Mounted p}
    (h : searchFile rootDir dirE s pathname = some (n, record, s')) :
    Borrowed s record.parentDir s' :=
  searchFile_keeps (P := Borrowed s) (fun hb hclose hopen => hb.next hs hroom hclose hopen)
    ((Same.refl hs).borrowed rfl) h

end Search

/-! ## The ways through the calls -/

/-- What descriptor `x.2` of task `x.1` stands for. -/
def FileSys.fd (k : FileSys p) (x : Nat × Nat) : Int := (k.pcb x.1).fdTable x.2

/-- A descriptor of a pipe goes, and the page with the last. -/
def FileSlot.drop (f : FileSlot) : FileSlot :=
  { f with fdPos := f.fdPos - 1, fdInode := if f.fdPos - 1 = 0 then 0 else f.fdInode }

section

variable {k k' : FileSys p} {t : Nat} {r : Int}

theorem search_eq {stack : Stack} {pathname : List UInt8} {n : Int} {record : PathSearchRecord}
    (h : k.search stack pathname = some (n, record, k')) :
    ∃ part, searchFile k.rootDir stack.dirE k.part pathname = some (n, record, part) ∧
      k' = { k with part } := by
  simp only [FileSys.search, Option.bind_eq_bind, Option.bind_eq_some_iff, Prod.exists,
    Option.pure_def, Option.some.injEq, Prod.mk.injEq] at h
  obtain ⟨n', record', part, hsearch, rfl, rfl, rfl⟩ := h
  exact ⟨part, hsearch, rfl⟩

theorem dirClose_eq {dir : DirHandle} (h : k.dirClose dir = some k') :
    ∃ part, dirClose k.part dir = some part ∧ k' = { k with part } := by
  cases dir with
  | root =>
    obtain rfl := Option.some.inj h
    exact ⟨k.part, rfl, rfl⟩
  | opened a => exact (FileSys.inodeClose_eq h).2

/-- What `sys_open` turns down when it has looked the path up. -/
def OpenRefused (pathname : List UInt8) (flags : UInt8) (stack : Stack) (n : Int)
    (record : PathSearchRecord) : Prop :=
  record.fileType = ftDirectory ∨
    pathDepthCnt stack.name pathname ≠ pathDepthCnt stack.name' record.searchedPath ∨
    (n = -1 ∧ flags &&& oCreat = 0) ∨ (n ≠ -1 ∧ flags &&& oCreat ≠ 0)

/-- The ways through `sys_open`. -/
inductive OpenCall
    (create : FileSys p → Nat → DirHandle → List UInt8 → UInt8 → Grants → Option (Int × FileSys p))
    (k : FileSys p) (t : Nat) (pathname : List UInt8) (flags : UInt8)
    (heap : Grants) (stack : Stack) (r : Int) (k' : FileSys p) : Prop
  | slash : k' = k → r = -1 → pathname.getLast? = some Fs.slash →
      OpenCall create k t pathname flags heap stack r k'
  | failed (n : Int) (record : PathSearchRecord) (part : Mounted p) :
      searchFile k.rootDir stack.dirE k.part pathname = some (n, record, part) →
      FileSys.dirClose { k with part } record.parentDir = some k' → r = -1 →
      OpenRefused pathname flags stack n record →
      OpenCall create k t pathname flags heap stack r k'
  | created (record : PathSearchRecord) (part : Mounted p) (k2 : FileSys p) :
      pathname.getLast? ≠ some Fs.slash →
      searchFile k.rootDir stack.dirE k.part pathname = some (-1, record, part) →
      flags &&& oCreat ≠ 0 →
      record.fileType ≠ ftDirectory →
      pathDepthCnt stack.name pathname = pathDepthCnt stack.name' record.searchedPath →
      create { k with part } t record.parentDir (lastName pathname) flags heap = some (r, k2) →
      k2.dirClose record.parentDir = some k' →
      OpenCall create k t pathname flags heap stack r k'
  | opened (n : Int) (record : PathSearchRecord) (part : Mounted p) :
      pathname.getLast? ≠ some Fs.slash →
      searchFile k.rootDir stack.dirE k.part pathname = some (n, record, part) →
      n ≠ -1 →
      flags &&& oCreat = 0 →
      record.fileType ≠ ftDirectory →
      pathDepthCnt stack.name pathname = pathDepthCnt stack.name' record.searchedPath →
      fileOpen (FileSys.keepDir { k with part } record.parentDir) t (asUInt n) flags =
        some (r, k') →
      OpenCall create k t pathname flags heap stack r k'

theorem sysOpenOn_cases
    {create : FileSys p → Nat → DirHandle → List UInt8 → UInt8 → Grants → Option (Int × FileSys p)}
    {pathname : List UInt8} {flags : UInt8} {heap : Grants} {stack : Stack}
    (h : sysOpenOn create k t pathname flags heap stack = some (r, k')) :
    OpenCall create k t pathname flags heap stack r k' := by
  unfold sysOpenOn at h
  by_cases hlast : pathname.getLast? = some slash
  · simp only [if_pos hlast, Option.pure_def, Option.some.injEq, Prod.mk.injEq] at h
    exact .slash h.2.symm h.1.symm hlast
  simp only [if_neg hlast, Option.bind_eq_bind, Option.bind_eq_some_iff, Prod.exists] at h
  obtain ⟨-, -, depth, hdepth, n, record, k1, hsearch, h⟩ := h
  obtain ⟨part, hfile, rfl⟩ := search_eq hsearch
  have hfail : (FileSys.dirClose { k with part } record.parentDir).map
      (fun k => ((-1 : Int), k)) = some (r, k') → OpenRefused pathname flags stack n record →
      OpenCall create k t pathname flags heap stack r k' := by
    intro hmap hwhy
    obtain ⟨k2, hclose, heq⟩ := Option.map_eq_some_iff.mp hmap
    obtain ⟨hr, rfl⟩ := Prod.mk.inj heq
    exact .failed n record part hfile hclose hr.symm hwhy
  split at h
  next hdir => exact hfail h (Or.inl hdir)
  next hdir =>
  simp only [Option.bind_eq_some_iff] at h
  obtain ⟨depth', hdepth', h⟩ := h
  split at h
  next hne =>
    refine hfail h (Or.inr (Or.inl ?_))
    rw [hdepth, hdepth']
    exact fun heq => hne (Option.some.inj heq)
  next hne =>
  split at h
  next h1 => exact hfail h (Or.inr (Or.inr (Or.inl h1)))
  next h1 =>
  split at h
  next h2 => exact hfail h (Or.inr (Or.inr (Or.inr h2)))
  next h2 =>
  split at h
  · next hcreat =>
    simp only [Option.bind_eq_some_iff, Prod.exists, Option.pure_def, Option.some.injEq,
      Prod.mk.injEq] at h
    obtain ⟨fd, k2, hcreate, k3, hclose, rfl, rfl⟩ := h
    have hn : n = -1 := by
      by_contra hn
      exact h2 ⟨hn, hcreat⟩
    subst hn
    refine .created record part k2 hlast hfile hcreat hdir ?_ hcreate hclose
    rw [hdepth, hdepth', not_not.mp hne]
  · next hcreat =>
    have hflags := not_not.mp hcreat
    refine .opened n record part hlast hfile (fun hn => h1 ⟨hn, hflags⟩) hflags hdir ?_ h
    rw [hdepth, hdepth', not_not.mp hne]

theorem sysOpen_cases {pathname : List UInt8} {flags : UInt8} {heap : Grants} {stack : Stack}
    (h : sysOpen k t pathname flags heap stack = some (r, k')) :
    OpenCall fileCreate k t pathname flags heap stack r k' :=
  sysOpenOn_cases h

/-- The ways through `sys_close`. -/
inductive CloseCall (k : FileSys p) (t : Nat) (fd : Int) (k' : FileSys p) : Prop
  | std : fd ≤ 2 → k' = k → CloseCall k t fd k'
  | pipe (i g : Nat) : fd = i → 3 ≤ i → i < 8 → k.fd (t, i) = g →
      (k.fileTable g).fdFlag = pipeFlag →
      k' = (k.setSlot g (k.fileTable g).drop).setFd t i (-1) → CloseCall k t fd k'
  | file (i g : Nat) (r : Int) (k1 : FileSys p) : fd = i → 3 ≤ i → i < 8 → k.fd (t, i) = g →
      (k.fileTable g).fdFlag ≠ pipeFlag → fileClose k g = some (r, k1) →
      k' = k1.setFd t i (-1) → CloseCall k t fd k'

theorem sysClose_cases {fd r : Int} (h : sysClose k t fd = some (r, k')) : CloseCall k t fd k' := by
  unfold sysClose at h
  by_cases h2 : fd > 2
  · simp only [if_pos h2, Option.bind_eq_bind, Option.bind_eq_some_iff, fdLocal2global,
      ensure_eq_some, Option.pure_def, Option.some.injEq] at h
    obtain ⟨-, h8, g, ⟨-, ⟨h0, h32⟩, hg⟩, h⟩ := h
    have hi : fd = (fd.toNat : Int) := by omega
    have hfd : k.fd (t, fd.toNat) = g := by
      show (k.pcb t).fdTable fd.toNat = g
      omega
    split at h
    · next hpipe =>
      exact .pipe fd.toNat g hi (by omega) (by omega) hfd hpipe (Prod.mk.inj (Option.some.inj h)).2.symm
    · next hpipe =>
      simp only [Option.bind_eq_some_iff, Prod.exists, Option.some.injEq, Prod.mk.injEq] at h
      obtain ⟨ret, k1, hclose, -, heq⟩ := h
      exact .file fd.toNat g ret k1 hi (by omega) (by omega) hfd hpipe hclose heq.symm
  · simp only [if_neg h2, Option.pure_def, Option.some.injEq, Prod.mk.injEq] at h
    exact .std (by omega) h.2.symm

/-- The end of a call that found nothing to do. -/
theorem failed_eq {dir : DirHandle}
    (h : (k.dirClose dir).map (fun k => ((-1 : Int), k)) = some (r, k')) :
    k.dirClose dir = some k' := by
  obtain ⟨k1, hclose, heq⟩ := Option.map_eq_some_iff.mp h
  obtain ⟨-, rfl⟩ := Prod.mk.inj heq
  exact hclose

/-- The ways through `sys_opendir`. -/
inductive OpendirCall (k : FileSys p) (name : List UInt8) (stack : Stack) (k' : FileSys p) : Prop
  | root : k' = k → OpendirCall k name stack k'
  | failed (n : Int) (record : PathSearchRecord) (part : Mounted p) :
      searchFile k.rootDir stack.dirE k.part name = some (n, record, part) →
      FileSys.dirClose { k with part } record.parentDir = some k' →
      OpendirCall k name stack k'
  | opened (n : Int) (record : PathSearchRecord) (part part' : Mounted p) (dir : DirHandle)
      (k2 : FileSys p) : name ≠ [slash] →
      searchFile k.rootDir stack.dirE k.part name = some (n, record, part) →
      n ≠ -1 → record.fileType = ftDirectory → dirOpen part (asUInt n) = some (dir, part') →
      FileSys.dirClose { k with part := part' } record.parentDir = some k2 →
      k' = k2.keepDir dir → OpendirCall k name stack k'

theorem sysOpendir_cases {name : List UInt8} {stack : Stack} {dir : Option DirHandle}
    (h : sysOpendir k name stack = some (dir, k')) : OpendirCall k name stack k' := by
  simp only [sysOpendir, Option.bind_eq_bind, Option.bind_eq_some_iff] at h
  obtain ⟨-, -, h⟩ := h
  split at h
  · obtain ⟨-, rfl⟩ := Prod.mk.inj (Option.some.inj h)
    exact .root rfl
  next hname =>
  simp only [Option.bind_eq_some_iff, Prod.exists] at h
  obtain ⟨n, record, k1, hsearch, h⟩ := h
  obtain ⟨part, hfile, rfl⟩ := search_eq hsearch
  split at h
  · next hfound =>
    simp only [Option.bind_eq_some_iff, Prod.exists, Option.pure_def, Option.some.injEq,
      Prod.mk.injEq] at h
    obtain ⟨dir, part', hopen, k2, hclose, -, rfl⟩ := h
    exact .opened n record part part' dir k2 hname hfile hfound.1 hfound.2 hopen hclose rfl
  · simp only [Option.bind_eq_some_iff, Option.pure_def, Option.some.injEq, Prod.mk.injEq] at h
    obtain ⟨k2, hclose, -, rfl⟩ := h
    exact .failed n record part hfile hclose

/-- The ways through `sys_chdir`. -/
inductive ChdirCall (k : FileSys p) (t : Nat) (path : List UInt8) (stack : Stack)
    (k' : FileSys p) : Prop
  | failed (n : Int) (record : PathSearchRecord) (part : Mounted p) :
      searchFile k.rootDir stack.dirE k.part path = some (n, record, part) →
      FileSys.dirClose { k with part } record.parentDir = some k' → ChdirCall k t path stack k'
  | moved (n : Int) (record : PathSearchRecord) (part : Mounted p) :
      searchFile k.rootDir stack.dirE k.part path = some (n, record, part) →
      n ≠ -1 → record.fileType = ftDirectory →
      FileSys.dirClose { k with
        part
        pcb := Function.update k.pcb t { k.pcb t with cwdInodeNr := asUInt n } }
          record.parentDir = some k' →
      ChdirCall k t path stack k'

theorem sysChdir_cases {path : List UInt8} {stack : Stack}
    (h : sysChdir k t path stack = some (r, k')) : ChdirCall k t path stack k' := by
  simp only [sysChdir, Option.bind_eq_bind, Option.bind_eq_some_iff, Prod.exists, Option.pure_def,
    Option.some.injEq, Prod.mk.injEq] at h
  obtain ⟨n, record, k1, hsearch, k2, hclose, -, rfl⟩ := h
  obtain ⟨part, hfile, rfl⟩ := search_eq hsearch
  split at hclose
  · next hfound => exact .moved n record part hfile hfound.1 hfound.2 hclose
  · exact .failed n record part hfile hclose

/-- The ways through `sys_mkdir`. -/
inductive MkdirCall (k : FileSys p) (pathname : List UInt8) (stack : Stack)
    (k' : FileSys p) : Prop
  | refused : k' = k → MkdirCall k pathname stack k'
  | failed (n : Int) (record : PathSearchRecord) (part : Mounted p) :
      searchFile k.rootDir stack.dirE k.part pathname = some (n, record, part) →
      FileSys.dirClose { k with part } record.parentDir = some k' → MkdirCall k pathname stack k'
  | made (n pa : Nat) (record : PathSearchRecord) (part : Mounted p) (parent parent' : Inode)
      (ok : Bool) (vol : Vol p) :
      searchFile k.rootDir stack.dirE k.part pathname = some (-1, record, part) → n < 4096 →
      part.vol.inodeBitmap.bit n = false → part.inodeAt pa = some parent →
      makeDirWith blockBitmapAlloc (part.vol.setInode n true) parent
        (lastName record.searchedPath) n = some (ok, vol, parent') →
      FileSys.dirClose { k with part := { part with vol }.modifyInode pa fun _ => parent' }
        record.parentDir = some k' →
      MkdirCall k pathname stack k'

theorem sysMkdir_cases {pathname : List UInt8} {heap : Grants} {stack : Stack}
    (h : sysMkdir k pathname heap stack = some (r, k')) : MkdirCall k pathname stack k' := by
  unfold sysMkdir sysMkdirWith at h
  split at h
  · obtain ⟨-, rfl⟩ := Prod.mk.inj (Option.some.inj h)
    exact .refused rfl
  simp only [Option.bind_eq_bind, Option.bind_eq_some_iff, Prod.exists] at h
  obtain ⟨n, record, k1, hsearch, h⟩ := h
  obtain ⟨part, hfile, rfl⟩ := search_eq hsearch
  by_cases hnew : n ≠ -1
  · rw [if_pos hnew] at h
    exact .failed n record part hfile (failed_eq h)
  rw [if_neg hnew] at h
  obtain rfl := not_not.mp hnew
  obtain ⟨depth, -, h⟩ := Option.bind_eq_some_iff.mp h
  obtain ⟨depth', -, h⟩ := Option.bind_eq_some_iff.mp h
  by_cases hdepth : depth ≠ depth'
  · rw [if_pos hdepth] at h
    exact .failed _ record part hfile (failed_eq h)
  rw [if_neg hdepth] at h
  obtain ⟨-, -, h⟩ := Option.bind_eq_some_iff.mp h
  obtain ⟨⟨no, v1⟩, halloc, h⟩ := Option.bind_eq_some_iff.mp h
  obtain ⟨m, rfl, hm, hfree, -, rfl⟩ := inodeBitmapAlloc_spec halloc
  rw [if_neg (by omega)] at h
  obtain ⟨parent, hparent, h⟩ := Option.bind_eq_some_iff.mp h
  obtain ⟨⟨ok, vol, parent'⟩, hmake, h⟩ := Option.bind_eq_some_iff.mp h
  obtain ⟨k2, hclose, heq⟩ := Option.bind_eq_some_iff.mp h
  obtain ⟨-, rfl⟩ := Prod.mk.inj (Option.some.inj heq)
  exact .made m _ record part parent parent' ok vol hfile hm hfree hparent hmake hclose

/-- The ways through `sys_unlink`. -/
inductive UnlinkCall (k : FileSys p) (pathname : List UInt8) (heap : Grants) (stack : Stack)
    (k' : FileSys p) : Prop
  | failed (n : Int) (record : PathSearchRecord) (part : Mounted p) :
      searchFile k.rootDir stack.dirE k.part pathname = some (n, record, part) →
      FileSys.dirClose { k with part } record.parentDir = some k' →
      UnlinkCall k pathname heap stack k'
  | removed (n : Int) (record : PathSearchRecord) (part : Mounted p) (k2 k3 : FileSys p) :
      searchFile k.rootDir stack.dirE k.part pathname = some (n, record, part) →
      n ≠ -1 → record.fileType ≠ ftDirectory →
      FileSys.inUse { k with part } (asUInt n) = false → heap.ioBuf = true →
      FileSys.deleteEntry { k with part } record.parentDir (asUInt n) = some k2 →
      k2.release (asUInt n) = some k3 → k3.dirClose record.parentDir = some k' →
      UnlinkCall k pathname heap stack k'

theorem sysUnlink_cases {pathname : List UInt8} {heap : Grants} {stack : Stack}
    (h : sysUnlink k pathname heap stack = some (r, k')) : UnlinkCall k pathname heap stack k' := by
  simp only [sysUnlink, Option.bind_eq_bind, Option.bind_eq_some_iff, Prod.exists] at h
  obtain ⟨-, -, n, record, k1, hsearch, -, -, h⟩ := h
  obtain ⟨part, hfile, rfl⟩ := search_eq hsearch
  split at h
  · exact .failed n record part hfile (failed_eq h)
  next hn =>
  split at h
  · exact .failed n record part hfile (failed_eq h)
  next hdir =>
  split at h
  · exact .failed n record part hfile (failed_eq h)
  next huse =>
  split at h
  · exact .failed n record part hfile (failed_eq h)
  next hio =>
  simp only [Option.bind_eq_some_iff, Option.pure_def, Option.some.injEq, Prod.mk.injEq] at h
  obtain ⟨k2, hdelete, k3, hrelease, k4, hclose, -, rfl⟩ := h
  exact .removed n record part k2 k3 hfile hn hdir (Bool.not_eq_true _ ▸ huse) (by simpa using hio)
    hdelete hrelease hclose

/-- The ways through `sys_rmdir`. -/
inductive RmdirCall (k : FileSys p) (pathname : List UInt8) (heap : Grants) (stack : Stack)
    (k' : FileSys p) : Prop
  | failed (n : Int) (record : PathSearchRecord) (part : Mounted p) :
      searchFile k.rootDir stack.dirE k.part pathname = some (n, record, part) →
      FileSys.dirClose { k with part } record.parentDir = some k' →
      RmdirCall k pathname heap stack k'
  | refused (n : Int) (record : PathSearchRecord) (part part' : Mounted p) (dir : DirHandle)
      (k2 : FileSys p) :
      searchFile k.rootDir stack.dirE k.part pathname = some (n, record, part) →
      dirOpen part (asUInt n) = some (dir, part') →
      FileSys.dirClose { k with part := part' } dir = some k2 →
      k2.dirClose record.parentDir = some k' → RmdirCall k pathname heap stack k'
  | removed (n : Int) (record : PathSearchRecord) (part part' : Mounted p) (dir : DirHandle)
      (child : Inode) (k2 k3 k4 : FileSys p) :
      searchFile k.rootDir stack.dirE k.part pathname = some (n, record, part) →
      n ≠ -1 → record.fileType ≠ ftRegular → dirOpen part (asUInt n) = some (dir, part') →
      part'.inodeAt (dir.inode k.rootDir) = some child → dirIsEmpty child = true →
      heap.ioBuf = true →
      FileSys.deleteEntry { k with part := part' } record.parentDir child.no = some k2 →
      k2.release child.no = some k3 → k3.dirClose dir = some k4 →
      k4.dirClose record.parentDir = some k' → RmdirCall k pathname heap stack k'

theorem sysRmdir_cases {pathname : List UInt8} {heap : Grants} {stack : Stack}
    (h : sysRmdir k pathname heap stack = some (r, k')) : RmdirCall k pathname heap stack k' := by
  simp only [sysRmdir, Option.bind_eq_bind, Option.bind_eq_some_iff, Prod.exists] at h
  obtain ⟨n, record, k1, hsearch, -, -, h⟩ := h
  obtain ⟨part, hfile, rfl⟩ := search_eq hsearch
  split at h
  · simp only [Option.bind_eq_some_iff, Option.pure_def, Option.some.injEq, Prod.mk.injEq] at h
    obtain ⟨k2, hclose, -, rfl⟩ := h
    exact .failed n record part hfile hclose
  next hfound =>
  simp only [Option.bind_eq_some_iff, Prod.exists] at h
  obtain ⟨dir, part', hopen, child, hchild, h⟩ := h
  split at h
  · next hempty =>
    simp only [dirRemove, Option.bind_eq_bind, Option.bind_eq_some_iff, Option.pure_def,
      Option.some.injEq, Prod.exists, Prod.mk.injEq] at h
    obtain ⟨ret, k2, ⟨-, -, hremove⟩, k3, hclose1, k4, hclose2, -, rfl⟩ := h
    split at hremove
    · obtain ⟨-, rfl⟩ := Prod.mk.inj (Option.some.inj hremove)
      exact .refused n record part part' dir k3 hfile hopen hclose1 hclose2
    · next hio =>
      simp only [Option.bind_eq_some_iff, Option.some.injEq, Prod.mk.injEq] at hremove
      obtain ⟨k5, hdelete, k6, hrelease, -, rfl⟩ := hremove
      exact .removed n record part part' dir child k5 k6 k3 hfile (fun hn => hfound (Or.inl hn))
        (fun hreg => hfound (Or.inr hreg)) hopen hchild hempty (by simpa using hio) hdelete hrelease
        hclose1 hclose2
  · simp only [Option.bind_eq_some_iff, Option.pure_def, Option.some.injEq, Prod.exists,
      Prod.mk.injEq] at h
    obtain ⟨ret, k2, ⟨-, rfl⟩, k3, hclose1, k4, hclose2, -, rfl⟩ := h
    exact .refused n record part part' dir k3 hfile hopen hclose1 hclose2

end

end OsCore.Fs
