import OsCore.Fs.Descriptors
import OsCore.Kernel.KernelPages
import OsCore.Userprog.Family

/-!
# What a failed `sys_fork` leaves behind (`userprog/fork.c`)

`sys_fork` asks for kernel pages four times: a page for the PCB of the child, a
buffer, the bitmap of its address space and its page directory. Whenever one of
the requests is refused the function returns `-1` from where it is, and no path
gives back what it has got until then.

So after a `sys_fork` that fails everything is as it was exactly when the first
request was refused (`failed_fork_unchanged`). When the second is, the page of the
PCB is lost; from the third on the buffer and a pid are lost with it.

Tasks go by the page numbers of their PCBs, and a PCB is a value of its own: the
family, the descriptors and the address space of a task are in three records. The
stacks in the page of the PCB are left out.
-/

namespace OsCore.Userprog

open Lib Thread Paging Fs

variable {p : Partition}

/-! ## The code -/

/-- `pgdir` and `userprog_vaddr` of a PCB: the address of the directory, 0 for a
kernel thread, where the bits of the bitmap are, and the bitmap while the task does
not run. That of the running task is in `Mm`. -/
structure Vm where
  pgdir : Nat
  bits : Nat
  vaddrBitmap : Bitmap

/-- What system calls work on; `cur` is the task that runs. -/
structure KernelState (p : Partition) where
  cur : Nat
  mm : Mm
  vm : Nat → Vm
  family : Family
  readyList : List Nat
  fs : FileSys p

/-- `DIV_ROUND_UP((0xc0000000 - USER_VADDR_START) / PG_SIZE / 8, PG_SIZE)`. -/
def bitmapPgCnt : Nat := (userBitmapLen + 4096 - 1) / 4096

/-- `memcpy` of `n` words. -/
def copyWords : Nat → Nat → Nat → Mm → Option Mm
  | _, _, 0, s => some s
  | dst, src, n + 1, s => do
    let w ← s.load src
    let s ← s.store dst w
    copyWords (dst + 4) (src + 4) n s

/-- `page_dir_activate` of a task with this directory. -/
def pageDirActivate (s : Mm) (pgdir : Nat) : Option Mm := do
  if pgdir = 0 then return { s with cr3 := 0x100000 / 4096 }
  let pagedirPhyAddr ← addrV2p s pgdir
  return { s with cr3 := pagedirPhyAddr / 4096 }

section

variable (alloc : PoolFlags → Mm → Option (Option Nat × Mm))

/-- `create_page_dir`. -/
def createPageDir (s : Mm) : Option (Option Nat × Mm) := do
  let (pageDirVaddr, s) ← getKernelPages alloc s 1
  match pageDirVaddr with
  | none => return (none, s)
  | some vaddr =>
    -- entries 768 to 1023 of the directory in use
    let s ← copyWords (vaddr + 0x300 * 4) (0xfffff000 + 0x300 * 4) (1024 / 4) s
    let newPageDirPhyAddr ← addrV2p s vaddr
    let s ← s.store (vaddr + 1023 * 4) (entry newPageDirPhyAddr)
    return (some vaddr, s)

/-- `copy_pcb_vaddrbitmap_stack0`. -/
def copyPcbVaddrbitmapStack0 (k : KernelState p) (child parent : Nat) :
    Option (Int × KernelState p) := do
  let (pid, pidBitmap) ← allocatePid k.family.pidBitmap
  let parentThread := k.family.task parent
  let childThread := { parentThread with pid, status := .ready, parentPid := parentThread.pid }
  let k := { k with
    vm := Function.update k.vm child { k.vm parent with vaddrBitmap := k.mm.userVaddr }
    family := { k.family with
      pidBitmap
      task := Function.update k.family.task child childThread }
    fs := { k.fs with pcb := Function.update k.fs.pcb child (k.fs.pcb parent) } }
  let (vaddrBtmp, mm) ← getKernelPages alloc k.mm bitmapPgCnt
  let k := { k with mm }
  match vaddrBtmp with
  | none => return (-1, k)
  | some bits =>
    ensure (childThread.name.length < 11)
    return (0, { k with
      vm := Function.update k.vm child { k.vm child with bits }
      family := k.family.modify child fun c => { c with name := c.name ++ "_fork".toList } })

/-- Loop of `copy_body_stack3`: `n` pages from bit `idx` of the parent's bitmap on.
The check for bytes of zeros only passes over bits that are clear. -/
def copyBodyStack3 (bufPage childDir parentDir : Nat) : Nat → Nat → Mm → Option Mm
  | 0, _, s => some s
  | n + 1, idx, s =>
    if s.userVaddr.bitmapScanTest idx then do
      let progVaddr := idx * 4096 + userVaddrStart
      let s ← s.copyPage bufPage progVaddr
      let s ← pageDirActivate s childDir
      let (_, s) ← getAPageWithoutOpvaddrbitmap alloc s progVaddr
      let s ← s.copyPage progVaddr bufPage
      let s ← pageDirActivate s parentDir
      copyBodyStack3 bufPage childDir parentDir n (idx + 1) s
    else copyBodyStack3 bufPage childDir parentDir n (idx + 1) s

/-- `copy_process`. -/
def copyProcess (L : Layout) (k : KernelState p) (child parent : Nat) :
    Option (Int × KernelState p) := do
  let (bufPage, mm) ← getKernelPages alloc k.mm 1
  let k := { k with mm }
  match bufPage with
  | none => return (-1, k)
  | some buf =>
    let (r, k) ← copyPcbVaddrbitmapStack0 alloc k child parent
    if r = -1 then return (-1, k)
    let (pgdir, mm) ← createPageDir alloc k.mm
    let k := { k with
      mm
      vm := Function.update k.vm child { k.vm child with pgdir := pgdir.getD 0 } }
    if pgdir = none then return (-1, k)
    let mm ← copyBodyStack3 alloc buf (k.vm child).pgdir (k.vm parent).pgdir
      (8 * k.mm.userVaddr.bytesLen) 0 k.mm
    let fs ← updateInodeOpenCnts parent child 5 3 k.fs
    let mm ← mfreePage L .kernel mm buf 1
    return (0, { k with mm, fs })

/-- `sys_fork`. -/
def sysFork (L : Layout) (k : KernelState p) : Option (Int × KernelState p) := do
  let (page, mm) ← getKernelPages alloc k.mm 1
  let k := { k with mm }
  match page with
  | none => return (-1, k)
  | some vaddr =>
    let child := vaddr / 4096
    ensure ((k.vm k.cur).pgdir ≠ 0)
    let (r, k) ← copyProcess alloc L k child k.cur
    if r = -1 then return (-1, k)
    ensure (child ∉ k.readyList)
    ensure (child ∉ k.family.allList)
    let born := { k.family.task child with forked := true, uid := k.family.nextUid }
    return (born.pid, { k with
      readyList := k.readyList ++ [child]
      family := { k.family with
        allList := k.family.allList ++ [child]
        task := Function.update k.family.task child born
        nextUid := k.family.nextUid + 1 }
      fs := { k.fs with live := insert child k.fs.live } })

end

/-! ## The call that fails -/

/-- The pids, the pools, the lists of tasks, and what counts the users of files and
pipes are what they were: `file_table` and the inodes that are open. -/
structure Unforked (k k' : KernelState p) : Prop where
  pidBitmap : k'.family.pidBitmap = k.family.pidBitmap
  kernelPool : k'.mm.kernelPool = k.mm.kernelPool
  userPool : k'.mm.userPool = k.mm.userPool
  readyList : k'.readyList = k.readyList
  allList : k'.family.allList = k.family.allList
  fileTable : k'.fs.fileTable = k.fs.fileTable
  part : k'.fs.part = k.fs.part

variable {L : Layout} {full : PoolFlags → Mm → Bool}

theorem copyWords_taken : ∀ {n dst src : Nat} {s s' : Mm},
    copyWords dst src n s = some s' → Taken s s' := by
  intro n
  induction n with
  | zero =>
    intro dst src s s' h
    rw [← Option.some.inj h]
    exact .refl s
  | succ n ih =>
    intro dst src s s' h
    obtain ⟨w, -, h⟩ := Option.bind_eq_some_iff.mp h
    obtain ⟨s1, h1, h⟩ := Option.bind_eq_some_iff.mp h
    exact ((taken_keeps ⟨0⟩ fun _ _ => false).store h1).trans (ih h)

theorem createPageDir_taken {s s' : Mm} {r : Option Nat}
    (h : createPageDir (pallocOr L full) s = some (r, s')) : Taken s s' := by
  obtain ⟨⟨v, s1⟩, hpage, h⟩ := Option.bind_eq_some_iff.mp h
  have hfirst := getKernelPages_taken hpage
  cases v with
  | none =>
    simp only [Option.pure_def, Option.some.injEq, Prod.mk.injEq] at h
    obtain ⟨-, rfl⟩ := h
    exact hfirst
  | some v =>
    obtain ⟨s2, hcopy, h⟩ := Option.bind_eq_some_iff.mp h
    obtain ⟨phy, -, h⟩ := Option.bind_eq_some_iff.mp h
    obtain ⟨s3, hself, h⟩ := Option.bind_eq_some_iff.mp h
    simp only [Option.pure_def, Option.some.injEq, Prod.mk.injEq] at h
    obtain ⟨-, rfl⟩ := h
    exact (hfirst.trans (copyWords_taken hcopy)).trans ((taken_keeps L full).store hself)

theorem copyPcb_taken {k k' : KernelState p} {child parent : Nat} {r : Int}
    (h : copyPcbVaddrbitmapStack0 (pallocOr L full) k child parent = some (r, k')) :
    Taken k.mm k'.mm := by
  obtain ⟨⟨pid, b⟩, -, h⟩ := Option.bind_eq_some_iff.mp h
  obtain ⟨⟨v, mm⟩, hpages, h⟩ := Option.bind_eq_some_iff.mp h
  have hgot := getKernelPages_taken hpages
  cases v with
  | none =>
    simp only [Option.pure_def, Option.some.injEq, Prod.mk.injEq] at h
    obtain ⟨-, rfl⟩ := h
    exact hgot
  | some bits =>
    obtain ⟨_, -, h⟩ := Option.bind_eq_some_iff.mp h
    simp only [Option.pure_def, Option.some.injEq, Prod.mk.injEq] at h
    obtain ⟨-, rfl⟩ := h
    exact hgot

/-- A child that cannot be completed keeps its frames. -/
theorem copyProcess_failed {k k' : KernelState p} {child parent : Nat}
    (h : copyProcess (pallocOr L full) L k child parent = some (-1, k')) : Taken k.mm k'.mm := by
  simp only [copyProcess, Option.bind_eq_bind, Option.bind_eq_some_iff, Prod.exists] at h
  obtain ⟨buf, mm, hbuf, h⟩ := h
  have hfirst := getKernelPages_taken hbuf
  cases buf with
  | none =>
    simp only [Option.pure_def, Option.some.injEq, Prod.mk.injEq, true_and] at h
    subst h
    exact hfirst
  | some buf =>
    simp only [Option.bind_eq_some_iff, Prod.exists] at h
    obtain ⟨r, k1, hpcb, h⟩ := h
    have hsecond := hfirst.trans (copyPcb_taken hpcb)
    split at h
    next =>
      simp only [Option.pure_def, Option.some.injEq, Prod.mk.injEq, true_and] at h
      subst h
      exact hsecond
    next =>
      simp only [Option.bind_eq_some_iff, Prod.exists] at h
      obtain ⟨pgdir, mm1, hdir, h⟩ := h
      split at h
      next =>
        simp only [Option.pure_def, Option.some.injEq, Prod.mk.injEq, true_and] at h
        subst h
        exact hsecond.trans (createPageDir_taken hdir)
      next =>
        -- the page directory was the last thing that could be refused
        simp [Option.bind_eq_some_iff] at h

/-- The pid of a child is not `-1`. -/
theorem allocatePid_pos {b b' : Bitmap} {pid : Int} (h : allocatePid b = some (pid, b')) :
    0 < pid := by
  obtain ⟨x, hscan, h⟩ := Option.bind_eq_some_iff.mp h
  obtain ⟨i, rfl, -⟩ := Bitmap.bitmapScan_one hscan
  simp only [Option.pure_def, Option.some.injEq, Prod.mk.injEq] at h
  omega

/-- A child that is completed has a pid. -/
theorem copyProcess_pid {k k' : KernelState p} {child parent : Nat} {r : Int}
    (h : copyProcess (pallocOr L full) L k child parent = some (r, k')) (hr : r ≠ -1) :
    0 < (k'.family.task child).pid := by
  simp only [copyProcess, copyPcbVaddrbitmapStack0, Option.bind_eq_bind, Option.bind_eq_some_iff,
    Prod.exists] at h
  obtain ⟨buf, mm, hbuf, h⟩ := h
  cases buf with
  | none =>
    simp only [Option.pure_def, Option.some.injEq, Prod.mk.injEq] at h
    exact absurd h.1.symm hr
  | some buf =>
    simp only [Option.bind_eq_some_iff, Prod.exists] at h
    obtain ⟨r1, k1, ⟨pid, b, hpid, v, mm1, hpages, hpcb⟩, h⟩ := h
    have hpos := allocatePid_pos hpid
    have hk1 : r1 ≠ -1 → 0 < (k1.family.task child).pid := by
      intro hr1
      cases v with
      | none =>
        simp only [Option.pure_def, Option.some.injEq, Prod.mk.injEq] at hpcb
        exact absurd hpcb.1.symm hr1
      | some bits =>
        simp only [Option.bind_eq_some_iff, Option.pure_def, Option.some.injEq,
          Prod.mk.injEq] at hpcb
        obtain ⟨-, -, -, rfl⟩ := hpcb
        simpa [Family.modify] using hpos
    split at h
    next =>
      simp only [Option.pure_def, Option.some.injEq, Prod.mk.injEq] at h
      exact absurd h.1.symm hr
    next hr1 =>
      simp only [Option.bind_eq_some_iff, Prod.exists] at h
      obtain ⟨pgdir, mm2, hdir, h⟩ := h
      split at h
      next =>
        simp only [Option.pure_def, Option.some.injEq, Prod.mk.injEq] at h
        exact absurd h.1.symm hr
      next =>
        simp only [Option.bind_eq_some_iff, Option.pure_def, Option.some.injEq,
          Prod.mk.injEq] at h
        obtain ⟨-, -, -, -, -, -, -, rfl⟩ := h
        exact hk1 hr1

/-- **A `sys_fork` that fails leaks nothing** exactly when the page for the PCB was
refused, so that it had asked for nothing else. -/
theorem failed_fork_unchanged (L : Layout) (full : PoolFlags → Mm → Bool) {k k' : KernelState p}
    (h : sysFork (pallocOr L full) L k = some (-1, k')) :
    Unforked k k' ↔ ∃ mm, getKernelPages (pallocOr L full) k.mm 1 = some (none, mm) := by
  simp only [sysFork, Option.bind_eq_bind, Option.bind_eq_some_iff, Prod.exists] at h
  obtain ⟨page, mm, hpage, h⟩ := h
  cases page with
  | none =>
    simp only [Option.pure_def, Option.some.injEq, Prod.mk.injEq, true_and] at h
    subst h
    obtain ⟨hkernel, huser⟩ := getKernelPages_refused hpage
    exact ⟨fun _ => ⟨mm, hpage⟩, fun _ => ⟨rfl, hkernel, huser, rfl, rfl, rfl, rfl⟩⟩
  | some vaddr =>
    -- the frame of the PCB stays taken
    obtain ⟨i, -, hgot⟩ := getKernelPages_granted hpage
    obtain ⟨j, hfree, hset⟩ := hgot.frame
    refine iff_of_false (fun hun => ?_) (fun hex => ?_)
    · simp only [Option.bind_eq_some_iff, Prod.exists] at h
      obtain ⟨-, -, r, k1, hcopy, h⟩ := h
      have hbit : k'.mm.kernelPool.bit j = true := by
        split at h
        next hr =>
          subst hr
          simp only [Option.pure_def, Option.some.injEq, Prod.mk.injEq, true_and] at h
          subst h
          exact (copyProcess_failed hcopy).kernel j hset
        next hr =>
          simp only [Option.bind_eq_some_iff, Option.pure_def, Option.some.injEq,
            Prod.mk.injEq] at h
          obtain ⟨-, -, -, -, hpid, -⟩ := h
          have := copyProcess_pid hcopy hr
          omega
      rw [hun.kernelPool, hfree] at hbit
      cases hbit
    · obtain ⟨mm', hnone⟩ := hex
      rw [hpage] at hnone
      cases hnone

/-! ## With `init` as the parent -/

/-- 32 MB. -/
def smallLayout : Layout := ⟨0x2000000⟩

/-- Memory when `init` runs: the loader's directory and the directory of `init`, the
first table of the kernel, with 26 pages of the heap, and the table for the stack
of `init`. -/
def initMem : Phys := fun f i =>
  if f = 0x100 ∨ f = 0x218 then
    if i = 1023 then entry (f * 4096)
    else if 768 ≤ i then entry ((0x101 + (i - 768)) * 4096)
    else if f = 0x218 ∧ i = 767 then entry (0x21a * 4096)
    else 0
  else if f = 0x101 then
    if i < 0x100 then entry (i * 4096)
    else if i < 0x100 + 26 then entry ((0x200 + (i - 0x100)) * 4096)
    else 0
  else if f = 0x21a ∧ i = 1023 then entry (0x1100 * 4096)
  else 0

/-- The pages that `init`, main and idle are on. -/
def initPcb : Nat := 0xc0100
def mainPcb : Nat := 0xc009e
def idlePcb : Nat := 0xc0119

/-- `init` runs. The heap has its PCB, its bitmap, its directory and the PCB of idle;
a page of its own is for its stack. -/
def initRuns : KernelState blankPartition where
  cur := initPcb
  mm := {
    mem := initMem
    cr3 := 0x218
    kernelPool := ⟨480, fun j => if j < 3 then 0xff else if j = 3 then 0x07 else 0⟩
    userPool := ⟨480, fun j => if j = 0 then 0x01 else 0⟩
    kernelVaddr := ⟨480, fun j => if j < 3 then 0xff else if j = 3 then 0x03 else 0⟩
    userVaddr := ⟨userBitmapLen, fun j => if j = 94198 then 0x80 else 0⟩ }
  vm t := if t = initPcb then ⟨0xc0118000, 0xc0101000, ⟨0, Mem.zero⟩⟩ else ⟨0, 0, ⟨0, Mem.zero⟩⟩
  family := {
    allList := [initPcb, mainPcb, idlePcb]
    task := fun t =>
      if t = initPcb then initThread 1 "init".toList true 0
      else if t = mainPcb then initThread 2 "main".toList false 1
      else initThread 3 "idle".toList false 2
    pidBitmap := ⟨128, fun j => if j = 0 then 0x07 else 0⟩
    init := initPcb
    main := mainPcb
    nextUid := 3
    exits := []
    collected := [] }
  readyList := [mainPcb]
  fs := { smallSys with
    live := {initPcb, mainPcb, idlePcb}
    pcb := fun t => ⟨fun i => if i < 3 then i else -1, 0, t == initPcb⟩ }

/-- The first request is refused. -/
theorem failed_fork_unchanged_no_pcb :
    ∃ k', sysFork (pallocOr smallLayout fun _ _ => true) smallLayout initRuns = some (-1, k') ∧
      (Unforked initRuns k' ↔ ∃ mm,
        getKernelPages (pallocOr smallLayout fun _ _ => true) initRuns.mm 1 = some (none, mm)) := by
  have hrun : (sysFork (pallocOr smallLayout fun _ _ => true) smallLayout initRuns).map
      Prod.fst = some (-1) := by decide +kernel
  obtain ⟨⟨r, k'⟩, hk, hr⟩ := Option.map_eq_some_iff.mp hrun
  simp only at hr
  subst hr
  exact ⟨k', hk, failed_fork_unchanged _ _ hk⟩

/-- The third one is, for the bitmap: the page of the PCB, the buffer and pid 4 are
lost. -/
theorem failed_fork_keeps_a_pid :
    ∃ k', sysFork (pallocOr smallLayout fun _ s => s.kernelPool.bit 28) smallLayout initRuns =
        some (-1, k') ∧
      k'.mm.kernelPool.bit 27 = true ∧ k'.mm.kernelPool.bit 28 = true ∧
      k'.family.pidBitmap.bit 3 = true ∧ ¬Unforked initRuns k' := by
  have hrun : (sysFork (pallocOr smallLayout fun _ s => s.kernelPool.bit 28) smallLayout
      initRuns).map (fun x => (x.1, x.2.mm.kernelPool.bit 27, x.2.mm.kernelPool.bit 28,
        x.2.family.pidBitmap.bit 3)) = some (-1, true, true, true) := by decide +kernel
  obtain ⟨⟨r, k'⟩, hk, he⟩ := Option.map_eq_some_iff.mp hrun
  simp only [Prod.mk.injEq] at he
  obtain ⟨rfl, h27, h28, hpid⟩ := he
  refine ⟨k', hk, h27, h28, hpid, fun hun => ?_⟩
  have hbefore : initRuns.family.pidBitmap.bit 3 = false := by decide
  rw [hun.pidBitmap, hbefore] at hpid
  cases hpid

end OsCore.Userprog
