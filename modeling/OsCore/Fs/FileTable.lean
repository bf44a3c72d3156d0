import OsCore.Fs.Path

/-!
# Open files (`fs/file.c`)

An open file is three things deep: a descriptor in a process's `fd_table` is an
index into `file_table`, an entry of `file_table` points to a `struct inode`, and
the struct counts its users. `fileCreate`, `fileOpen` and `fileClose` are the
functions that tie and untie them; what `sys_open` and its siblings add is in the
modules behind this one.

`FileSys` is the state they share. An address stands for one struct, 0 for
`NULL`. `file_create` takes the memory of a new `struct inode` from the heap of
the caller, so a user process gets it from its own; `userInodes` lists these. A
struct is reached through its address here wherever it lies, and `sys_free`, which
`inode_close` calls with `pgdir` cleared, asserts that it is in the kernel heap.

Of each struct in memory the proofs look at two numbers, its inode number `noAt`
and its user count `cnt`. `inode_open` and `inode_close` change one count by one
(`inodeOpen_opens`, `inodeClose_closes`), and a struct goes when its count does.
-/

namespace OsCore.Fs

variable {p : Partition}

/-! ## The state -/

/-- `struct file`, an entry of `file_table`. -/
structure FileSlot where
  fdPos : UInt32
  fdFlag : UInt32
  fdInode : Nat
  deriving DecidableEq, Repr

/-- The fields of a `task_struct` the file system uses; `isProcess` is
`pgdir != NULL`. -/
structure Pcb where
  fdTable : Nat → Int
  cwdInodeNr : Nat
  isProcess : Bool

/-- `cur_part` with the tables above it. `rootDir` is `root_dir.inode`; `dirs` are
the other `struct dir`s that are open, by the addresses of their inodes. -/
structure FileSys (p : Partition) where
  part : Mounted p
  rootDir : Nat
  fileTable : Nat → FileSlot
  userInodes : List Nat
  dirs : List Nat
  live : Finset Nat
  pcb : Nat → Pcb

/-- Which requests the heap grants, where the code asks. -/
structure Grants where
  ioBuf : Bool
  inode : Bool

/-- `flag & O_WRONLY || flag & O_RDWR`. -/
def writes (flag : UInt32) : Bool := flag &&& 1 != 0 || flag &&& 2 != 0

/-- `O_CREAT`. -/
def oCreat : UInt8 := 4

/-- `PIPE_FLAG`. -/
def pipeFlag : UInt32 := 0xFFFF

/-- The flags of `sys_open` are a byte. -/
theorem toUInt32_ne_pipeFlag (flags : UInt8) : flags.toUInt32 ≠ pipeFlag := by
  intro h
  have h1 := congrArg UInt32.toNat h
  have h2 := flags.toNat_lt
  rw [UInt8.toNat_toUInt32] at h1
  rw [h1] at h2
  exact absurd h2 (by decide)

namespace FileSys

variable (k : FileSys p)

/-- The partition's volume is replaced. -/
def setVol (vol : Vol p) : FileSys p := { k with part := { k.part with vol } }

/-- `file_table[g] = f`. -/
def setSlot (g : Nat) (f : FileSlot) : FileSys p :=
  { k with fileTable := Function.update k.fileTable g f }

/-- `fd_table[i] = g` in the PCB of `t`. -/
def setFd (t i : Nat) (g : Int) : FileSys p :=
  let pcb := { k.pcb t with fdTable := Function.update (k.pcb t).fdTable i g }
  { k with pcb := Function.update k.pcb t pcb }

/-- `get_free_slot_in_global`; `none` is its -1. -/
def getFreeSlotInGlobal : Option Nat :=
  (List.range' 3 29).find? fun fdIdx => (k.fileTable fdIdx).fdInode = 0

/-- `pcb_fd_install` by task `t`. -/
def pcbFdInstall (t globalFd : Nat) : Int × FileSys p :=
  match (List.range' 3 5).find? fun localFd => (k.pcb t).fdTable localFd = -1 with
  | some localFd => (localFd, k.setFd t localFd globalFd)
  | none => (-1, k)

/-- The bit of inode number `n`. -/
def bit (n : Nat) : Bool := k.part.vol.inodeBitmap.bit n

/-- `inode_close`, with the assertion of `sys_free`. -/
def inodeClose (a : Nat) : Option (FileSys p) := do
  let inode ← k.part.inodeAt a
  -- the kernel heap begins at `K_HEAP_START`, and every user heap ends below it
  if inode.iOpenCnts = 1 then ensure (a ∉ k.userInodes)
  let part ← Fs.inodeClose k.part a
  return { k with part }

/-- `dir_close`. -/
def dirClose : DirHandle → Option (FileSys p)
  | .root => some k
  | .opened a => k.inodeClose a

end FileSys

/-! ## The functions of `fs/file.c` -/

/-- `create_dir_entry` on an entry of zero bytes. -/
def createDirEntry (filename : List UInt8) (inodeNo : Nat) (fileType : UInt32) :
    Option DirEntry := do
  ensure (filename.length ≤ 16)
  return ⟨fun i => filename.getD i 0, UInt32.ofNat inodeNo, fileType⟩

/-- A `struct inode` as `sys_malloc` grants it and `inode_init` leaves it. -/
def newInode (inodeNo : Nat) : Inode := Inode.inodeInit inodeNo (Inode.ofMem Mem.zero 0)

section Create

variable (inodeAlloc blockAlloc : Vol p → Option (Int × Vol p))

/-- `file_create` from the free entry `fdIdx` of `file_table` on; `vol` has the
bit of `inodeNo` set. -/
def fillSlotWith (k : FileSys p) (t : Nat) (parentDir : DirHandle) (filename : List UInt8)
    (flag : UInt8) (inodeNo fdIdx : Nat) (vol : Vol p) : Option (Int × FileSys p) := do
  let newFileInode := newInode inodeNo
  let newDirEntry ← createDirEntry filename inodeNo ftRegular
  let parent ← k.part.inodeAt (parentDir.inode k.rootDir)
  let (ok, vol, parent) ← syncDirEntryWith blockAlloc vol parent newDirEntry
  let part := { k.part with vol }.modifyInode (parentDir.inode k.rootDir) fun _ => parent
  if !ok then
    -- steps 3 to 1 of the rollback; the struct goes back to the heap it came from
    let k := { k with part := { part with vol := vol.setInode inodeNo false } }
    return (-1, k.setSlot fdIdx ⟨0, 0, 0⟩)
  let vol ← inodeSync vol parent
  let vol ← inodeSync vol newFileInode
  let vol ← bitmapSync vol inodeNo .inodeBitmap
  let a := part.brk
  let part : Mounted p :=
    ⟨vol, (a, newFileInode.setOpenCnts 1) :: part.openInodes, a + 1⟩
  -- `sys_malloc` goes by the `pgdir` of the caller
  let userInodes := if (k.pcb t).isProcess then a :: k.userInodes else k.userInodes
  let k := { k with part, userInodes }.setSlot fdIdx ⟨0, flag.toUInt32, a⟩
  return k.pcbFdInstall t fdIdx

/-- `file_create` on given allocators. -/
def fileCreateWith (k : FileSys p) (t : Nat) (parentDir : DirHandle) (filename : List UInt8)
    (flag : UInt8) (heap : Grants) : Option (Int × FileSys p) := do
  if !heap.ioBuf then return (-1, k)
  let (inodeNo, vol) ← inodeAlloc k.part.vol
  if inodeNo = -1 then return (-1, k.setVol vol)
  let undone := k.setVol (vol.setInode inodeNo.toNat false)
  if !heap.inode then return (-1, undone)
  match k.getFreeSlotInGlobal with
  | none => return (-1, undone)
  | some fdIdx => fillSlotWith blockAlloc k t parentDir filename flag inodeNo.toNat fdIdx vol

end Create

/-- `file_create(parent_dir, filename, flag)` by task `t`. -/
def fileCreate (k : FileSys p) (t : Nat) (parentDir : DirHandle) (filename : List UInt8)
    (flag : UInt8) (heap : Grants) : Option (Int × FileSys p) :=
  fileCreateWith inodeBitmapAlloc blockBitmapAlloc k t parentDir filename flag heap

/-- `fd_inode->write_deny = x`. -/
def Inode.setWriteDeny (ino : Inode) (x : UInt32) : Inode := { ino with writeDeny := x }

/-- `file_open(inode_no, flag)` by task `t`. -/
def fileOpen (k : FileSys p) (t inodeNo : Nat) (flag : UInt8) : Option (Int × FileSys p) :=
  match k.getFreeSlotInGlobal with
  | none => some (-1, k)
  | some fdIdx => do
    let (a, part) ← inodeOpen k.part inodeNo
    let k := { k with part }.setSlot fdIdx ⟨0, flag.toUInt32, a⟩
    if writes flag.toUInt32 then
      let inode ← part.inodeAt a
      if inode.writeDeny = 0 then
        let part := part.modifyInode a fun i => i.setWriteDeny 1
        return { k with part }.pcbFdInstall t fdIdx
      -- the entry of `file_table` stays as it was filled in
      else return (-1, k)
    else return k.pcbFdInstall t fdIdx

/-- `file_close(&file_table[g])`. -/
def fileClose (k : FileSys p) (g : Nat) : Option (Int × FileSys p) := do
  let file := k.fileTable g
  let _ ← k.part.inodeAt file.fdInode
  let k := { k with part := k.part.modifyInode file.fdInode fun i => i.setWriteDeny 0 }
  let k ← k.inodeClose file.fdInode
  return (0, k.setSlot g { file with fdInode := 0 })

/-! ## Users of a struct -/

namespace Mounted

/-- The number of the inode the struct at `a` is of. -/
def noAt (s : Mounted p) (a : Nat) : Option Nat := (s.inodeAt a).map Inode.no

/-- `i_open_cnts` of the struct at `a`, 0 where there is none. -/
def cnt (s : Mounted p) (a : Nat) : Nat := ((s.inodeAt a).map fun i => i.iOpenCnts.toNat).getD 0

theorem noAt_of_inodeAt {s : Mounted p} {a : Nat} {i : Inode} (h : s.inodeAt a = some i) :
    s.noAt a = some i.no := by
  rw [noAt, h, Option.map_some]

theorem cnt_of_inodeAt {s : Mounted p} {a : Nat} {i : Inode} (h : s.inodeAt a = some i) :
    s.cnt a = i.iOpenCnts.toNat := by
  rw [cnt, h, Option.map_some, Option.getD_some]

/-- A write that keeps number and count of the struct keeps both everywhere. -/
theorem noAt_modifyInode (s : Mounted p) (a : Nat) {f : Inode → Inode}
    (h : ∀ i, s.inodeAt a = some i → (f i).iNo = i.iNo) : (s.modifyInode a f).noAt = s.noAt := by
  funext b
  rw [noAt, noAt, inodeAt_modifyInode]
  by_cases hb : b = a
  · rw [if_pos hb, hb]
    cases hat : s.inodeAt a with
    | none => rfl
    | some i =>
      show some (f i).no = some i.no
      rw [Inode.no, Inode.no, h i hat]
  · rw [if_neg hb]

theorem cnt_modifyInode (s : Mounted p) (a : Nat) {f : Inode → Inode}
    (h : ∀ i, s.inodeAt a = some i → (f i).iOpenCnts = i.iOpenCnts) :
    (s.modifyInode a f).cnt = s.cnt := by
  funext b
  rw [cnt, cnt, inodeAt_modifyInode]
  by_cases hb : b = a
  · rw [if_pos hb, hb]
    cases hat : s.inodeAt a with
    | none => rfl
    | some i =>
      show (f i).iOpenCnts.toNat = i.iOpenCnts.toNat
      rw [h i hat]
  · rw [if_neg hb]

theorem mem_modifyInode {s : Mounted p} {a : Nat} {f : Inode → Inode} {e : Nat × Inode}
    (h : e ∈ (s.modifyInode a f).openInodes) :
    ∃ i, (e.1, i) ∈ s.openInodes ∧ (e.2 = i ∨ e.1 = a ∧ e.2 = f i) := by
  obtain ⟨e', he', rfl⟩ := List.mem_map.mp h
  by_cases hea : e'.1 = a
  · rw [if_pos hea]
    exact ⟨e'.2, he', Or.inr ⟨hea, rfl⟩⟩
  · rw [if_neg hea]
    exact ⟨e'.2, he', Or.inl rfl⟩

theorem map_modifyInode (s : Mounted p) (a : Nat) (f : Inode → Inode) :
    (s.modifyInode a f).openInodes.map (·.1) = s.openInodes.map (·.1) := by
  rw [modifyInode, List.map_map]
  apply List.map_congr_left
  intro e _
  show (if e.1 = a then (e.1, f e.2) else e).1 = e.1
  split <;> rfl

end Mounted

namespace Steady

variable {s : Mounted p} (hs : Steady s)

include hs

theorem inodeAt_of_mem {e : Nat × Inode} (he : e ∈ s.openInodes) : s.inodeAt e.1 = some e.2 :=
  Mounted.lookup_of_mem hs.nodup he

theorem cnt_pos_of_mem {e : Nat × Inode} (he : e ∈ s.openInodes) : 0 < s.cnt e.1 := by
  rw [Mounted.cnt_of_inodeAt (hs.inodeAt_of_mem he)]
  exact Nat.pos_of_ne_zero fun h0 =>
    hs.users e he (UInt32.toNat_inj.mp (h0.trans UInt32.toNat_zero.symm))

/-- A struct has users, and what has users is a struct. -/
theorem cnt_eq_zero_iff {a : Nat} : s.cnt a = 0 ↔ s.noAt a = none := by
  rw [Mounted.noAt, Option.map_eq_none_iff]
  constructor
  · intro h
    cases hat : s.inodeAt a with
    | none => rfl
    | some i =>
      have hpos : 0 < s.cnt a := hs.cnt_pos_of_mem (Mounted.lookup_mem hat)
      omega
  · intro h
    rw [Mounted.cnt, h, Option.map_none, Option.getD_none]

theorem lt_brk {a m : Nat} (h : s.noAt a = some m) : a < s.brk := by
  obtain ⟨i, hi, -⟩ := Option.map_eq_some_iff.mp h
  exact hs.below _ (Mounted.lookup_mem hi)

/-- A write through `a` that leaves the struct a user. -/
theorem modifyInode {a : Nat} {f : Inode → Inode}
    (h : ∀ i, s.inodeAt a = some i → (f i).iOpenCnts ≠ 0) : Steady (s.modifyInode a f) := by
  refine ⟨fun e he => ?_, ?_, fun e he => ?_⟩
  · obtain ⟨i, hi, -⟩ := Mounted.mem_modifyInode he
    exact hs.below (e.1, i) hi
  · rw [Mounted.map_modifyInode]
    exact hs.nodup
  · obtain ⟨i, hi, heq | ⟨hea, heq⟩⟩ := Mounted.mem_modifyInode he
    · rw [heq]
      exact hs.users _ hi
    · rw [heq]
      apply h i
      rw [← hea]
      exact hs.inodeAt_of_mem hi

end Steady

/-- `s'` has the structs of `s` with the same users. -/
structure Same (s s' : Mounted p) : Prop where
  steady : Steady s'
  brk : s.brk ≤ s'.brk
  no : s'.noAt = s.noAt
  cnt : s'.cnt = s.cnt

/-- `s'` has one user more, on the struct at `a` with the number `m`. -/
structure Opens (s : Mounted p) (a m : Nat) (s' : Mounted p) : Prop where
  steady : Steady s'
  brk : s.brk ≤ s'.brk
  was : s.noAt a = none ∧ s.brk ≤ a ∨ s.noAt a = some m
  no : s'.noAt = Function.update s.noAt a (some m)
  cnt : s'.cnt = Function.update s.cnt a (s.cnt a + 1)

/-- `s'` has one user less, of the struct at `a`. -/
structure Closes (s : Mounted p) (a : Nat) (s' : Mounted p) : Prop where
  steady : Steady s'
  brk : s.brk ≤ s'.brk
  pos : 0 < s.cnt a
  no : s'.noAt = if s.cnt a = 1 then Function.update s.noAt a none else s.noAt
  cnt : s'.cnt = Function.update s.cnt a (s.cnt a - 1)

theorem Same.refl {s : Mounted p} (hs : Steady s) : Same s s := ⟨hs, Nat.le_refl _, rfl, rfl⟩

theorem Same.trans {s s1 s2 : Mounted p} (h : Same s s1) (h' : Same s1 s2) : Same s s2 :=
  ⟨h'.steady, Nat.le_trans h.brk h'.brk, h'.no.trans h.no, h'.cnt.trans h.cnt⟩

theorem Same.opens {s s1 s2 : Mounted p} {a m : Nat} (h : Same s s1) (h' : Opens s1 a m s2) :
    Opens s a m s2 := by
  obtain ⟨hst, hbrk, hwas, hno, hcnt⟩ := h'
  rw [h.no] at hwas hno
  rw [h.cnt] at hcnt
  exact ⟨hst, Nat.le_trans h.brk hbrk, hwas.imp_left (And.imp_right (Nat.le_trans h.brk)), hno,
    hcnt⟩

theorem Opens.same {s s1 s2 : Mounted p} {a m : Nat} (h : Opens s a m s1) (h' : Same s1 s2) :
    Opens s a m s2 :=
  ⟨h'.steady, Nat.le_trans h.brk h'.brk, h.was, h'.no.trans h.no, h'.cnt.trans h.cnt⟩

theorem Same.closes {s s1 s2 : Mounted p} {a : Nat} (h : Same s s1) (h' : Closes s1 a s2) :
    Closes s a s2 := by
  obtain ⟨hst, hbrk, hpos, hno, hcnt⟩ := h'
  rw [h.cnt] at hpos hno hcnt
  rw [h.no] at hno
  exact ⟨hst, Nat.le_trans h.brk hbrk, hpos, hno, hcnt⟩

theorem Same.of_eq {s s' : Mounted p} (hs : Steady s) (hlist : s'.openInodes = s.openInodes)
    (hbrk : s.brk ≤ s'.brk) : Same s s' := by
  refine ⟨⟨fun e he => ?_, ?_, fun e he => ?_⟩, hbrk, ?_, ?_⟩
  · rw [hlist] at he
    exact Nat.lt_of_lt_of_le (hs.below e he) hbrk
  · rw [hlist]
    exact hs.nodup
  · rw [hlist] at he
    exact hs.users e he
  · funext a
    rw [Mounted.noAt, Mounted.noAt, Mounted.inodeAt, Mounted.inodeAt, hlist]
  · funext a
    rw [Mounted.cnt, Mounted.cnt, Mounted.inodeAt, Mounted.inodeAt, hlist]

/-- A write that touches neither number nor count. -/
theorem Same.modifyInode {s : Mounted p} (hs : Steady s) (a : Nat) {f : Inode → Inode}
    (hno : ∀ i, s.inodeAt a = some i → (f i).iNo = i.iNo)
    (hcnt : ∀ i, s.inodeAt a = some i → (f i).iOpenCnts = i.iOpenCnts) :
    Same s (s.modifyInode a f) := by
  refine ⟨hs.modifyInode fun i hi => ?_, Nat.le_refl _, s.noAt_modifyInode a hno,
    s.cnt_modifyInode a hcnt⟩
  rw [hcnt i hi]
  exact hs.users _ (Mounted.lookup_mem hi)

/-- **What was opened and is closed again is as before.** -/
theorem Opens.close {s s1 s2 : Mounted p} {a m : Nat} (hs : Steady s) (h : Opens s a m s1)
    (h' : Closes s1 a s2) : Same s s2 := by
  have hc : s1.cnt a = s.cnt a + 1 := by rw [h.cnt, Function.update_self]
  refine ⟨h'.steady, Nat.le_trans h.brk h'.brk, ?_, ?_⟩
  · rw [h'.no, hc, h.no]
    by_cases h0 : s.cnt a = 0
    · rw [if_pos (by omega), Function.update_idem, ← hs.cnt_eq_zero_iff.mp h0,
        Function.update_eq_self]
    · rw [if_neg (by omega)]
      have hm : s.noAt a = some m := h.was.resolve_left fun hn => h0 (hs.cnt_eq_zero_iff.mpr hn.1)
      rw [← hm, Function.update_eq_self]
  · rw [h'.cnt, hc, h.cnt, Function.update_idem, Nat.add_sub_cancel, Function.update_eq_self]

theorem Mounted.inodeAt_cons (v : Vol p) (a : Nat) (i : Inode) (l : List (Nat × Inode))
    (brk b : Nat) :
    (Mounted.mk v ((a, i) :: l) brk).inodeAt b =
      if b = a then some i else (Mounted.mk v l brk).inodeAt b := by
  rw [inodeAt_eq_lookup, lookup_cons]
  by_cases h : b = a
  · rw [if_pos h.symm, if_pos h]
  · rw [if_neg (Ne.symm h), if_neg h]
    rfl

/-- A struct that was not in memory joins the list with its first user. -/
theorem Opens.cons {s : Mounted p} (hs : Steady s) {v : Vol p} {i : Inode}
    (hi : i.iOpenCnts = 1) :
    Opens s s.brk i.no ⟨v, (s.brk, i) :: s.openInodes, s.brk + 1⟩ := by
  have hnone : s.noAt s.brk = none := by
    cases h : s.noAt s.brk with
    | none => rfl
    | some m =>
      have := hs.lt_brk h
      omega
  have hzero : s.cnt s.brk = 0 := hs.cnt_eq_zero_iff.mpr hnone
  refine ⟨⟨fun e he => ?_, ?_, fun e he => ?_⟩, Nat.le_succ _,
    Or.inl ⟨hnone, Nat.le_refl _⟩, ?_, ?_⟩
  · rcases List.mem_cons.mp he with rfl | he
    · exact Nat.lt_succ_self _
    · exact Nat.lt_succ_of_lt (hs.below e he)
  · show (s.brk :: s.openInodes.map (·.1)).Nodup
    refine List.nodup_cons.mpr ⟨fun hmem => ?_, hs.nodup⟩
    obtain ⟨e, he, heq⟩ := List.mem_map.mp hmem
    have := hs.below e he
    omega
  · rcases List.mem_cons.mp he with rfl | he
    · show i.iOpenCnts ≠ 0
      rw [hi]
      decide
    · exact hs.users e he
  · funext b
    rw [Mounted.noAt, Mounted.inodeAt_cons, Function.update_apply]
    split <;> rfl
  · funext b
    rw [Mounted.cnt, Mounted.inodeAt_cons, Function.update_apply, hzero]
    split
    · rw [Option.map_some, Option.getD_some, hi]
      rfl
    · rfl

/-- Only a number that has a slot is read from disk. -/
theorem inodeOpen_lt {s : Mounted p} {n : Nat} {r : Nat × Mounted p} (hmiss : s.Misses n)
    (h : inodeOpen s n = some r) : n < 4096 := by
  have hfind : s.openInodes.find? (fun e => e.2.no == n) = none :=
    List.find?_eq_none.mpr fun e he => by simpa using hmiss e he
  simp only [inodeOpen, hfind, inodeLocate, Option.bind_eq_bind, Option.bind_eq_some_iff,
    ensure_eq_some] at h
  obtain ⟨-, ⟨-, hn, -⟩, -⟩ := h
  exact hn

/-- **`inode_open` adds a user** to the struct it returns. -/
theorem inodeOpen_opens {s s' : Mounted p} {n a : Nat} (hs : Steady s)
    (hroom : ∀ b, s.cnt b + 1 < 2 ^ 32) (h : inodeOpen s n = some (a, s')) :
    Opens s a (inodeOf s n).no s' ∧ s'.vol = s.vol := by
  unfold inodeOf
  cases hfind : s.openInodes.find? fun e => e.2.no == n with
  | some e =>
    obtain ⟨b, i⟩ := e
    simp only [inodeOpen, hfind, Option.some.injEq, Prod.mk.injEq] at h
    obtain ⟨rfl, rfl⟩ := h
    have hat : s.inodeAt b = some i := hs.inodeAt_of_mem (List.mem_of_find?_eq_some hfind)
    have hno := Mounted.noAt_of_inodeAt hat
    have hc := Mounted.cnt_of_inodeAt hat
    have hlt := hroom b
    have hset : ∀ j, s.inodeAt b = some j →
        (j.setOpenCnts (j.iOpenCnts.toNat + 1)).iOpenCnts.toNat = s.cnt b + 1 := by
      intro j hj
      obtain rfl : i = j := Option.some.inj (hat.symm.trans hj)
      rw [setOpenCnts_toNat, ← hc, Nat.mod_eq_of_lt hlt]
    refine ⟨⟨hs.modifyInode fun j hj h0 => ?_, Nat.le_refl _, Or.inr hno, ?_, ?_⟩, rfl⟩
    · have hz := hset j hj
      rw [h0, UInt32.toNat_zero] at hz
      omega
    · show _ = Function.update s.noAt b (some i.no)
      rw [← hno, Function.update_eq_self]
      exact s.noAt_modifyInode b fun _ _ => rfl
    · funext c
      rw [Function.update_apply, Mounted.cnt, Mounted.inodeAt_modifyInode]
      by_cases hcb : c = b
      · rw [if_pos hcb, if_pos hcb, hat, Option.map_some, Option.map_some, Option.getD_some]
        exact hset i hat
      · rw [if_neg hcb, if_neg hcb, Mounted.cnt]
  | none =>
    have hmiss : s.Misses n := fun e he => by simpa using List.find?_eq_none.mp hfind e he
    rw [inodeOpen_miss (inodeOpen_lt hmiss h) hmiss, Option.some.injEq, Prod.mk.injEq] at h
    obtain ⟨rfl, rfl⟩ := h
    have hone : ((Inode.ofMem s.vol.disk (p.slotAddr n)).setOpenCnts 1).iOpenCnts = 1 :=
      UInt32.toNat_inj.mp (setOpenCnts_toNat _ 1)
    exact ⟨Opens.cons hs hone, rfl⟩

/-- **`inode_close` takes a user away.** -/
theorem inodeClose_closes {s s' : Mounted p} {a : Nat} (hs : Steady s)
    (h : inodeClose s a = some s') : Closes s a s' ∧ s'.vol = s.vol := by
  simp only [inodeClose, Option.bind_eq_bind, Option.bind_eq_some_iff] at h
  obtain ⟨i, hat, h⟩ := h
  have hc := Mounted.cnt_of_inodeAt hat
  have hpos : 0 < s.cnt a := hs.cnt_pos_of_mem (Mounted.lookup_mem hat)
  have hlt : s.cnt a < 2 ^ 32 := by
    rw [hc]
    exact i.iOpenCnts.toNat_lt
  rw [← hc, show (s.cnt a + 2 ^ 32 - 1) % 2 ^ 32 = s.cnt a - 1 by omega] at h
  by_cases h1 : s.cnt a = 1
  · rw [if_pos (by omega)] at h
    obtain rfl := Option.some.inj h
    have hlook : ∀ b, Mounted.inodeAt
        { s with openInodes := s.openInodes.filter fun e => e.1 != a } b =
          if b = a then none else s.inodeAt b := by
      intro b
      rw [Mounted.inodeAt_eq_lookup, Mounted.lookup_filter hs.nodup]
      by_cases hb : b = a
      · rw [if_pos hb]
        simp [hb]
      · rw [if_neg hb, Mounted.inodeAt_eq_lookup]
        cases Mounted.lookup s.openInodes b with
        | none => rfl
        | some j => exact if_pos (by simpa using hb)
    refine ⟨⟨⟨fun e he => ?_, ?_, fun e he => ?_⟩, Nat.le_refl _, hpos, ?_, ?_⟩, rfl⟩
    · exact hs.below e (List.mem_filter.mp he).1
    · exact (List.filter_sublist.map _).nodup hs.nodup
    · exact hs.users e (List.mem_filter.mp he).1
    · rw [if_pos h1]
      funext b
      rw [Mounted.noAt, hlook, Function.update_apply]
      split <;> rfl
    · funext b
      rw [Mounted.cnt, hlook, Function.update_apply, h1]
      split <;> rfl
  · rw [if_neg (by omega)] at h
    obtain rfl := Option.some.inj h
    have hset : ∀ j : Inode, (j.setOpenCnts (s.cnt a - 1)).iOpenCnts.toNat = s.cnt a - 1 := by
      intro j
      rw [setOpenCnts_toNat, Nat.mod_eq_of_lt (by omega)]
    refine ⟨⟨hs.modifyInode fun j _ h0 => ?_, Nat.le_refl _, hpos, ?_, ?_⟩, rfl⟩
    · have hz := hset j
      rw [h0, UInt32.toNat_zero] at hz
      omega
    · rw [if_neg h1]
      exact s.noAt_modifyInode a fun _ _ => rfl
    · funext b
      rw [Function.update_apply, Mounted.cnt, Mounted.inodeAt_modifyInode]
      by_cases hb : b = a
      · rw [if_pos hb, if_pos hb, hat, Option.map_some, Option.map_some, Option.getD_some, hset]
      · rw [if_neg hb, if_neg hb, Mounted.cnt]

/-! ## What the volume keeps -/

/-- The inode bitmap is as it was, and so are number and count of the inode. -/
structure Kept (v : Vol p) (ino : Inode) (v' : Vol p) (ino' : Inode) : Prop where
  inodes : v'.inodeBitmap = v.inodeBitmap
  no : ino'.iNo = ino.iNo
  cnt : ino'.iOpenCnts = ino.iOpenCnts

theorem syncDirEntry_kept {pDe : DirEntry} {v v' : Vol p} {ino ino' : Inode} {r : Bool}
    (h : syncDirEntry v ino pDe = some (r, v', ino')) : r = true ∧ Kept v ino v' ino' := by
  obtain ⟨hr, hplaced⟩ := syncDirEntry_spec h
  refine ⟨hr, ?_⟩
  cases hplaced with
  | slot k e hk he hfull hnz hmax hfree hv hino =>
    subst hv hino
    exact ⟨rfl, rfl, rfl⟩
  | grown k b e v1 ino1 hk hfull hz hadd he hv hino =>
    have hkept : ino1.iNo = ino.iNo ∧ ino1.iOpenCnts = ino.iOpenCnts := by
      rcases Nat.lt_or_eq_of_le hk with hlt | heq
      · rw [hadd.direct hlt]
        exact ⟨rfl, rfl⟩
      · obtain ⟨t, ht, -⟩ := hadd.indirect heq
        rw [ht]
        exact ⟨rfl, rfl⟩
    subst hv hino
    exact ⟨hadd.inodes, hkept.1, hkept.2⟩

theorem bitmapSync_inodes {v v' : Vol p} {i : Nat} {btmp : BitmapType}
    (h : bitmapSync v i btmp = some v') : v'.inodeBitmap = v.inodeBitmap := by
  simp only [bitmapSync, Option.bind_eq_bind, Option.bind_eq_some_iff, Option.pure_def,
    Option.some.injEq] at h
  obtain ⟨d, -, rfl⟩ := h
  rfl

theorem inodeSync_inodes {v v' : Vol p} {ino : Inode} (h : inodeSync v ino = some v') :
    v'.inodeBitmap = v.inodeBitmap := by
  rw [inodeSync_eq, Option.some.injEq] at h
  subst h
  rfl

/-- **One inode number.** It is the one the scan finds, and its bit is the only
change. -/
theorem inodeBitmapAlloc_spec {v v' : Vol p} {r : Int} (h : inodeBitmapAlloc v = some (r, v')) :
    ∃ n : Nat, r = (n : Int) ∧ n < 4096 ∧ v.inodeBitmap.bit n = false ∧
      v.inodeBitmap.bitmapScan 1 = some (n : Int) ∧ v' = v.setInode n true := by
  simp only [inodeBitmapAlloc, Option.bind_eq_bind, Option.bind_eq_some_iff] at h
  obtain ⟨bitIdx, hscan, h⟩ := h
  obtain ⟨n, rfl, hn, hz, -⟩ := Bitmap.bitmapScan_one hscan
  rw [v.inodeLen, show Partition.inodeBitmapSects = 1 by decide] at hn
  rw [if_neg (by omega)] at h
  simp only [Option.pure_def, Option.some.injEq, Prod.mk.injEq] at h
  exact ⟨n, h.1.symm, by omega, hz, hscan, h.2.symm⟩

theorem bit_setInode (v : Vol p) (n : Nat) (x : Bool) :
    (v.setInode n x).inodeBitmap.bit = Function.update v.inodeBitmap.bit n x := by
  funext j
  rw [Function.update_apply]
  exact Bitmap.bit_bitmapSet v.inodeBitmap n j x

/-- A number taken and given back. -/
theorem bit_setInode_back {v : Vol p} {n : Nat} (h : v.inodeBitmap.bit n = false) :
    ((v.setInode n true).setInode n false).inodeBitmap.bit = v.inodeBitmap.bit := by
  rw [bit_setInode, bit_setInode, Function.update_idem, ← h, Function.update_eq_self]

/-! ## What the functions of `fs/file.c` do -/

section

variable {k k' : FileSys p} {t : Nat} {r : Int}

theorem getFreeSlot_some {g : Nat} (h : k.getFreeSlotInGlobal = some g) :
    3 ≤ g ∧ g < 32 ∧ (k.fileTable g).fdInode = 0 := by
  have hmem := List.mem_of_find?_eq_some h
  have hfree := List.find?_some h
  rw [List.mem_range'_1] at hmem
  exact ⟨hmem.1, by omega, by simpa using hfree⟩

/-- How `pcb_fd_install` ends. -/
inductive Installed (k : FileSys p) (t g : Nat) : Int → FileSys p → Prop
  | full : (∀ i, 3 ≤ i → i < 8 → (k.pcb t).fdTable i ≠ -1) → Installed k t g (-1) k
  | fd (i : Nat) : 3 ≤ i → i < 8 → (k.pcb t).fdTable i = -1 → Installed k t g i (k.setFd t i g)

theorem pcbFdInstall_spec {g : Nat} (h : k.pcbFdInstall t g = (r, k')) : Installed k t g r k' := by
  unfold FileSys.pcbFdInstall at h
  cases hfind : (List.range' 3 5).find? fun localFd => (k.pcb t).fdTable localFd = -1 with
  | none =>
    simp only [hfind, Prod.mk.injEq] at h
    obtain ⟨rfl, rfl⟩ := h
    apply Installed.full
    intro i h3 h8
    have := List.find?_eq_none.mp hfind i (List.mem_range'_1.mpr ⟨h3, by omega⟩)
    simpa using this
  | some i =>
    simp only [hfind, Prod.mk.injEq] at h
    obtain ⟨rfl, rfl⟩ := h
    have hmem := List.mem_range'_1.mp (List.mem_of_find?_eq_some hfind)
    have hfree := List.find?_some hfind
    exact Installed.fd i hmem.1 (by omega) (by simpa using hfree)

/-- Entry `g` of `file_table` now points to the struct at `a`; the caller may have
got a descriptor for it. -/
structure Slotted (k : FileSys p) (t g a : Nat) (flag : UInt8) (k' : FileSys p) : Prop where
  ge : 3 ≤ g
  lt : g < 32
  free : (k.fileTable g).fdInode = 0
  table : k'.fileTable = Function.update k.fileTable g ⟨0, flag.toUInt32, a⟩
  rootDir : k'.rootDir = k.rootDir
  dirs : k'.dirs = k.dirs
  live : k'.live = k.live
  pcb : k'.pcb = k.pcb ∨
    ∃ i, 3 ≤ i ∧ i < 8 ∧ (k.pcb t).fdTable i = -1 ∧ k'.pcb = (k.setFd t i g).pcb

/-- And the struct, numbered `m`, has one user more. -/
structure Filled (k : FileSys p) (t g a m : Nat) (flag : UInt8) (k' : FileSys p) : Prop
    extends Slotted k t g a flag k' where
  opens : Opens k.part a m k'.part

/-- The tables and the counts are as they were; the inode bitmap is `bits`. -/
structure Quiet (k : FileSys p) (bits : Nat → Bool) (k' : FileSys p) : Prop where
  part : Same k.part k'.part
  bits : k'.bit = bits
  table : k'.fileTable = k.fileTable
  rootDir : k'.rootDir = k.rootDir
  userInodes : k'.userInodes = k.userInodes
  dirs : k'.dirs = k.dirs
  live : k'.live = k.live
  pcb : k'.pcb = k.pcb

theorem Quiet.refl (hs : Steady k.part) : Quiet k k.bit k :=
  ⟨Same.refl hs, rfl, rfl, rfl, rfl, rfl, rfl, rfl⟩

/-- The last line of `file_create` and `file_open`. -/
theorem Installed.slotted {g a : Nat} {flag : UInt8} {part : Mounted p} {users : List Nat}
    (hg : 3 ≤ g ∧ g < 32 ∧ (k.fileTable g).fdInode = 0)
    (h : Installed ({ k with part, userInodes := users }.setSlot g ⟨0, flag.toUInt32, a⟩) t g r k') :
    Slotted k t g a flag k' ∧ k'.part = part ∧ k'.userInodes = users := by
  cases h with
  | full _ => exact ⟨⟨hg.1, hg.2.1, hg.2.2, rfl, rfl, rfl, rfl, Or.inl rfl⟩, rfl, rfl⟩
  | fd i h3 h8 hfree =>
    exact ⟨⟨hg.1, hg.2.1, hg.2.2, rfl, rfl, rfl, rfl, Or.inr ⟨i, h3, h8, hfree, rfl⟩⟩, rfl, rfl⟩

/-- **`file_open`.** Without a free entry of `file_table` nothing happens. With
one, the entry is filled, whether or not the caller is then let in. -/
theorem fileOpen_slotted {n : Nat} {flag : UInt8} (h : fileOpen k t n flag = some (r, k')) :
    k.getFreeSlotInGlobal = none ∧ k' = k ∨
      ∃ g a part, k.getFreeSlotInGlobal = some g ∧ Slotted k t g a flag k' ∧
        k'.userInodes = k.userInodes ∧ inodeOpen k.part n = some (a, part) ∧
        (k'.part = part ∨ k'.part = part.modifyInode a fun i => i.setWriteDeny 1) := by
  unfold fileOpen at h
  cases hslot : k.getFreeSlotInGlobal with
  | none =>
    simp only [hslot, Option.some.injEq, Prod.mk.injEq] at h
    exact Or.inl ⟨rfl, h.2.symm⟩
  | some g =>
    simp only [hslot, Option.bind_eq_bind, Option.bind_eq_some_iff, Prod.exists] at h
    obtain ⟨a, part, hopen, h⟩ := h
    have hg := getFreeSlot_some hslot
    refine Or.inr ⟨g, a, part, rfl, ?_⟩
    by_cases hw : writes flag.toUInt32 = true
    · rw [if_pos hw] at h
      simp only [Option.bind_eq_some_iff] at h
      obtain ⟨i, -, h⟩ := h
      by_cases hdeny : i.writeDeny = 0
      · simp only [if_pos hdeny, Option.pure_def, Option.some.injEq] at h
        obtain ⟨hslotted, hpart, huser⟩ := (pcbFdInstall_spec h).slotted hg
        exact ⟨hslotted, huser, hopen, Or.inr hpart⟩
      · simp only [if_neg hdeny, Option.pure_def, Option.some.injEq, Prod.mk.injEq] at h
        obtain ⟨-, rfl⟩ := h
        exact ⟨⟨hg.1, hg.2.1, hg.2.2, rfl, rfl, rfl, rfl, Or.inl rfl⟩, rfl, hopen, Or.inl rfl⟩
    · simp only [if_neg hw, Option.pure_def, Option.some.injEq] at h
      obtain ⟨hslotted, hpart, huser⟩ := (pcbFdInstall_spec h).slotted hg
      exact ⟨hslotted, huser, hopen, Or.inl hpart⟩

/-- The struct in the entry has one user more. -/
theorem fileOpen_spec {n : Nat} {flag : UInt8} (hs : Steady k.part)
    (hroom : ∀ b, k.part.cnt b + 1 < 2 ^ 32) (h : fileOpen k t n flag = some (r, k')) :
    k.getFreeSlotInGlobal = none ∧ k' = k ∨
      ∃ g a, k.getFreeSlotInGlobal = some g ∧ Filled k t g a (inodeOf k.part n).no flag k' ∧
        k'.part.vol = k.part.vol ∧ k'.userInodes = k.userInodes := by
  rcases fileOpen_slotted h with hnone | ⟨g, a, part, hslot, hslotted, huser, hopen, hpart⟩
  · exact Or.inl hnone
  · obtain ⟨ho, hvol⟩ := inodeOpen_opens hs hroom hopen
    have hsame : Same part (part.modifyInode a fun i => i.setWriteDeny 1) :=
      Same.modifyInode ho.steady a (fun _ _ => rfl) fun _ _ => rfl
    refine Or.inr ⟨g, a, hslot, ⟨hslotted, ?_⟩, ?_, huser⟩
    · rcases hpart with heq | heq
      · rw [heq]
        exact ho
      · rw [heq]
        exact ho.same hsame
    · rcases hpart with heq | heq
      · rw [heq, hvol]
      · rw [heq]
        exact hvol

/-- The assertion passed, the rest is `inode_close`. -/
theorem FileSys.inodeClose_eq {a : Nat} (h : k.inodeClose a = some k') :
    (k.part.cnt a = 1 → a ∉ k.userInodes) ∧
      ∃ part, Fs.inodeClose k.part a = some part ∧ k' = { k with part } := by
  simp only [FileSys.inodeClose, Option.bind_eq_bind, Option.bind_eq_some_iff] at h
  obtain ⟨i, hat, h⟩ := h
  rw [Mounted.cnt_of_inodeAt hat]
  by_cases h1 : i.iOpenCnts = 1
  · simp only [if_pos h1, Option.bind_eq_some_iff, ensure_eq_some, Option.pure_def,
      Option.some.injEq] at h
    obtain ⟨-, hmem, part, hclose, rfl⟩ := h
    exact ⟨fun _ => hmem, part, hclose, rfl⟩
  · simp only [if_neg h1, Option.bind_eq_some_iff, Option.pure_def, Option.some.injEq] at h
    obtain ⟨part, hclose, rfl⟩ := h
    exact ⟨fun he => absurd (UInt32.toNat_inj.mp he) h1, part, hclose, rfl⟩

/-- The resources `file_create` asks for are there. -/
def FileSys.CanCreate (k : FileSys p) (heap : Grants) : Prop :=
  heap.ioBuf = true ∧ heap.inode = true ∧ k.getFreeSlotInGlobal ≠ none

/-- A file was made: a new struct with the least free number joins the list, its
bit is set, and an entry of `file_table` filled; `parent` is what the directory's
struct has become. -/
structure Made (k : FileSys p) (t g n : Nat) (flag : UInt8) (k' : FileSys p) : Prop where
  slotted : Slotted k t g k.part.brk flag k'
  scan : k.part.vol.inodeBitmap.bitmapScan 1 = some (n : Int)
  free : k.bit n = false
  lt : n < 4096
  bits : k'.bit = Function.update k.bit n true
  list : ∃ dir parent parent' vol, k.part.inodeAt dir = some parent ∧
    parent'.iNo = parent.iNo ∧ parent'.iOpenCnts = parent.iOpenCnts ∧
    k'.part = ⟨vol, (k.part.brk, (newInode n).setOpenCnts 1) ::
      (k.part.modifyInode dir fun _ => parent').openInodes, k.part.brk + 1⟩
  userInodes : k'.userInodes =
    if (k.pcb t).isProcess then k.part.brk :: k.userInodes else k.userInodes

/-- `file_create` gives up, with the bits of the inode bitmap as they were, or comes
to fill an entry of `file_table`. -/
theorem fileCreate_fills {parentDir : DirHandle} {filename : List UInt8} {flag : UInt8}
    {heap : Grants} (h : fileCreate k t parentDir filename flag heap = some (r, k')) :
    (¬k.CanCreate heap ∧ ∃ vol : Vol p, vol.inodeBitmap.bit = k.bit ∧ k' = k.setVol vol) ∨
      k.CanCreate heap ∧ ∃ g n : Nat, k.getFreeSlotInGlobal = some g ∧
        k.part.vol.inodeBitmap.bitmapScan 1 = some (n : Int) ∧ k.bit n = false ∧ n < 4096 ∧
        fillSlotWith blockBitmapAlloc k t parentDir filename flag n g
          (k.part.vol.setInode n true) = some (r, k') := by
  unfold fileCreate fileCreateWith at h
  by_cases hio : heap.ioBuf = true
  case neg =>
    simp only [hio, Bool.not_false, if_true, Option.pure_def, Option.some.injEq, Prod.mk.injEq] at h
    obtain ⟨-, rfl⟩ := h
    exact Or.inl ⟨fun hcan => hio hcan.1, k.part.vol, rfl, rfl⟩
  simp only [hio, Bool.not_true, Bool.false_eq_true, if_false, Option.bind_eq_bind,
    Option.bind_eq_some_iff, Prod.exists] at h
  obtain ⟨no, v1, halloc, h⟩ := h
  obtain ⟨n, rfl, hn, hz, hscan, rfl⟩ := inodeBitmapAlloc_spec halloc
  have hback : ((k.part.vol.setInode n true).setInode n false).inodeBitmap.bit = k.bit :=
    bit_setInode_back hz
  rw [if_neg (by omega)] at h
  simp only [Int.toNat_natCast] at h
  by_cases hino : heap.inode = true
  case neg =>
    simp only [hino, Bool.not_false, if_true, Option.pure_def, Option.some.injEq,
      Prod.mk.injEq] at h
    obtain ⟨-, rfl⟩ := h
    exact Or.inl ⟨fun hcan => hino hcan.2.1, _, hback, rfl⟩
  simp only [hino, Bool.not_true, Bool.false_eq_true, if_false] at h
  cases hslot : k.getFreeSlotInGlobal with
  | none =>
    simp only [hslot, Option.pure_def, Option.some.injEq, Prod.mk.injEq] at h
    obtain ⟨-, rfl⟩ := h
    exact Or.inl ⟨fun hcan => hcan.2.2 hslot, _, hback, rfl⟩
  | some g =>
    simp only [hslot] at h
    exact Or.inr ⟨⟨hio, hino, by simp [hslot]⟩, g, n, rfl, hscan, hz, hn, h⟩

/-- The entry is filled, the struct of the parent directory changed, and the new
struct put in front of the list. -/
theorem fillSlot_spec {parentDir : DirHandle} {filename : List UInt8} {flag : UInt8} {g n : Nat}
    {v : Vol p} (hslot : k.getFreeSlotInGlobal = some g)
    (h : fillSlotWith blockBitmapAlloc k t parentDir filename flag n g v = some (r, k')) :
    Slotted k t g k.part.brk flag k' ∧ k'.bit = v.inodeBitmap.bit ∧
      (∃ parent parent' vol, k.part.inodeAt (parentDir.inode k.rootDir) = some parent ∧
        parent'.iNo = parent.iNo ∧ parent'.iOpenCnts = parent.iOpenCnts ∧
        k'.part = ⟨vol, (k.part.brk, (newInode n).setOpenCnts 1) ::
          (k.part.modifyInode (parentDir.inode k.rootDir) fun _ => parent').openInodes,
          k.part.brk + 1⟩) ∧
      k'.userInodes = if (k.pcb t).isProcess then k.part.brk :: k.userInodes else k.userInodes := by
  simp only [fillSlotWith, Option.bind_eq_bind, Option.bind_eq_some_iff, Prod.exists] at h
  obtain ⟨de, -, parent, hparent, ok, v2, parent', hsync, h⟩ := h
  obtain ⟨rfl, hkept⟩ := syncDirEntry_kept hsync
  simp only [Bool.not_true, Bool.false_eq_true, if_false, Option.bind_eq_some_iff,
    Option.pure_def, Option.some.injEq] at h
  obtain ⟨v3, h3, v4, h4, v5, h5, h⟩ := h
  have hbits : v5.inodeBitmap = v.inodeBitmap := by
    rw [bitmapSync_inodes h5, inodeSync_inodes h4, inodeSync_inodes h3, hkept.inodes]
  obtain ⟨hslotted, hpart, huser⟩ := (pcbFdInstall_spec h).slotted (getFreeSlot_some hslot)
  refine ⟨hslotted, ?_, ⟨parent, parent', v5, hparent, hkept.no, hkept.cnt, hpart⟩, huser⟩
  unfold FileSys.bit
  rw [hpart]
  funext i
  exact congrArg (·.bit i) hbits

/-- **`file_create`.** It fails and leaves all but the volume alone, the bits of
the inode bitmap included, or it makes the file. -/
theorem fileCreate_made {parentDir : DirHandle} {filename : List UInt8} {flag : UInt8}
    {heap : Grants} (h : fileCreate k t parentDir filename flag heap = some (r, k')) :
    (¬k.CanCreate heap ∧ ∃ vol : Vol p, vol.inodeBitmap.bit = k.bit ∧ k' = k.setVol vol) ∨
      k.CanCreate heap ∧ ∃ g n, Made k t g n flag k' := by
  rcases fileCreate_fills h with hfail | ⟨hcan, g, n, hslot, hscan, hz, hn, hfill⟩
  · exact Or.inl hfail
  · obtain ⟨hslotted, hbits, ⟨parent, parent', vol, hparent, hno, hcnt, hpart⟩, huser⟩ :=
      fillSlot_spec hslot hfill
    rw [bit_setInode] at hbits
    exact Or.inr ⟨hcan, g, n, hslotted, hscan, hz, hn, hbits,
      ⟨_, parent, parent', vol, hparent, hno, hcnt, hpart⟩, huser⟩

theorem Made.filled {g n : Nat} {flag : UInt8} (hs : Steady k.part) (h : Made k t g n flag k') :
    Filled k t g k.part.brk n flag k' := by
  obtain ⟨dir, parent, parent', vol, hparent, hno, hcnt, hpart⟩ := h.list
  have hnum : ((newInode n).setOpenCnts 1).no = n := by
    have := h.lt
    show (UInt32.ofNat n).toNat = n
    rw [UInt32.toNat_ofNat', Nat.mod_eq_of_lt (by omega)]
  have hone : ((newInode n).setOpenCnts 1).iOpenCnts = 1 :=
    UInt32.toNat_inj.mp (setOpenCnts_toNat _ 1)
  have hsame : Same k.part (k.part.modifyInode dir fun _ => parent') := by
    refine Same.modifyInode hs dir (fun i hi => ?_) fun i hi => ?_
    · obtain rfl : parent = i := Option.some.inj (hparent.symm.trans hi)
      exact hno
    · obtain rfl : parent = i := Option.some.inj (hparent.symm.trans hi)
      exact hcnt
  have hopens := hsame.opens (Opens.cons hsame.steady (v := vol) hone)
  rw [hnum] at hopens
  refine ⟨h.slotted, ?_⟩
  rw [hpart]
  exact hopens

/-- **`file_close`** takes the entry's user off its struct and empties the
entry. -/
theorem fileClose_spec {g : Nat} (hs : Steady k.part) (h : fileClose k g = some (r, k')) :
    r = 0 ∧ Closes k.part (k.fileTable g).fdInode k'.part ∧ k'.part.vol = k.part.vol ∧
      k' = { k with part := k'.part }.setSlot g { k.fileTable g with fdInode := 0 } := by
  simp only [fileClose, Option.bind_eq_bind, Option.bind_eq_some_iff, Option.pure_def,
    Option.some.injEq, Prod.mk.injEq] at h
  obtain ⟨-, -, k1, hk1, rfl, rfl⟩ := h
  obtain ⟨-, part, hclose, rfl⟩ := FileSys.inodeClose_eq hk1
  have hsame : Same k.part (k.part.modifyInode (k.fileTable g).fdInode fun i => i.setWriteDeny 0) :=
    Same.modifyInode hs _ (fun _ _ => rfl) fun _ _ => rfl
  obtain ⟨hc, hvol⟩ := inodeClose_closes hsame.steady hclose
  exact ⟨rfl, hsame.closes hc, hvol, rfl⟩

end

end OsCore.Fs
