import OsCore.Userprog.Fork

/-!
# Processes begin, take turns and end (`userprog/process.c`, `userprog/wait_exit.c`, `thread/thread.c`)

The rest of what makes and unmakes an address space, on the same state as `sys_fork`:
`process_execute` starts a process from nothing, `schedule` lets another task run with
its own directory, `sys_exit` gives back what a process has below `0xc0000000`, and
`sys_wait` of its parent gives back the directory and the page of the PCB.

Each call is one step, to its end or to the `thread_block` in it. Which task goes on
after that is left open: `switchTo` takes any.
-/

namespace OsCore.Userprog

open Lib Thread Paging Fs

variable {p : Partition}

/-! ## A process begins -/

/-- `process_execute`. Without a page for the PCB or the bitmap it writes to `NULL`,
which ends the model. -/
def processExecute (alloc : PoolFlags → Mm → Option (Option Nat × Mm)) (k : KernelState p)
    (name : List Char) : Option (KernelState p) := do
  let (page, mm) ← getKernelPages alloc k.mm 1
  let vaddr ← page
  let thread := vaddr / 4096
  let (pid, pidBitmap) ← allocatePid k.family.pidBitmap
  let (vaddrBtmp, mm) ← getKernelPages alloc mm bitmapPgCnt
  let bits ← vaddrBtmp
  let (pgdir, mm) ← createPageDir alloc mm
  ensure (thread ∉ k.readyList)
  ensure (thread ∉ k.family.allList)
  let vm : Vm := ⟨pgdir.getD 0, bits, (⟨userBitmapLen, Mem.zero⟩ : Bitmap).bitmapInit⟩
  let task := initThread pid name (pgdir.isSome) k.family.nextUid
  let pcb : Pcb := ⟨fun fd => if fd < 3 then fd else -1, 0, pgdir.isSome⟩
  return { k with
    mm
    vm := Function.update k.vm thread vm
    readyList := k.readyList ++ [thread]
    family := { k.family with
      pidBitmap
      allList := k.family.allList ++ [thread]
      task := Function.update k.family.task thread task
      nextUid := k.family.nextUid + 1 }
    fs := { k.fs with
      pcb := Function.update k.fs.pcb thread pcb
      live := insert thread k.fs.live } }

/-! ## Another task runs -/

/-- `schedule`, when it takes task `next` out of the ready list. -/
def switchTo (k : KernelState p) (next : Nat) : Option (KernelState p) := do
  let readyList :=
    if (k.family.task k.cur).status = .ready then k.readyList ++ [k.cur] else k.readyList
  let vm := Function.update k.vm k.cur { k.vm k.cur with vaddrBitmap := k.mm.userVaddr }
  let mm ← pageDirActivate { k.mm with userVaddr := (vm next).vaddrBitmap } (vm next).pgdir
  return { k with cur := next, mm, vm, readyList := readyList.erase next }

/-! ## A process ends -/

section

variable (L : Layout)

/-- Inner loop of `release_prog_resource`: `n` entries from `pteIdx` on. -/
def releasePtes (firstPteVaddrInPde : Nat) : Nat → Nat → Mm → Option Mm
  | 0, _, s => some s
  | n + 1, pteIdx, s => do
    let pte ← s.load (firstPteVaddrInPde + pteIdx * 4)
    let s := if Present pte then pfree L s (frameOf pte * 4096) else s
    releasePtes firstPteVaddrInPde n (pteIdx + 1) s

/-- Outer loop of `release_prog_resource`: `n` entries of the directory from `pdeIdx`
on. -/
def releasePdes (pgdirVaddr : Nat) : Nat → Nat → Mm → Option Mm
  | 0, _, s => some s
  | n + 1, pdeIdx, s => do
    let pde ← s.load (pgdirVaddr + pdeIdx * 4)
    if Present pde then
      let s ← releasePtes L (ptePtr (pdeIdx * 0x400000)) 1024 0 s
      releasePdes pgdirVaddr n (pdeIdx + 1) (pfree L s (frameOf pde * 4096))
    else releasePdes pgdirVaddr n (pdeIdx + 1) s

/-- The loop over the descriptors in `release_prog_resource`, where task `t` runs: `n`
of them from `fdIdx` on. The page of a pipe goes with its last descriptor. -/
def releaseFds (t : Nat) : Nat → Nat → Mm → FileSys p → Option (Mm × FileSys p)
  | 0, _, s, k => some (s, k)
  | n + 1, fdIdx, s, k =>
    if (k.pcb t).fdTable fdIdx ≠ -1 then do
      let globalFd ← fdLocal2global (k.pcb t).fdTable fdIdx
      let file := k.fileTable globalFd
      if file.fdFlag = pipeFlag then
        let fdPos := file.fdPos - 1
        if fdPos = 0 then
          let s ← mfreePage L .kernel s file.fdInode 1
          releaseFds t n (fdIdx + 1) s (k.setSlot globalFd { file with fdPos, fdInode := 0 })
        else releaseFds t n (fdIdx + 1) s (k.setSlot globalFd { file with fdPos })
      else
        let (_, k) ← sysClose k t fdIdx
        releaseFds t n (fdIdx + 1) s k
    else releaseFds t n (fdIdx + 1) s k

/-- `release_prog_resource` of the task that runs. -/
def releaseProgResource (k : KernelState p) : Option (KernelState p) := do
  let s ← releasePdes L (k.vm k.cur).pgdir 768 0 k.mm
  -- the length of the bitmap is divided without rounding up here
  let bitmapPgCnt := s.userVaddr.bytesLen / 4096
  let s ← mfreePage L .kernel s (k.vm k.cur).bits bitmapPgCnt
  let (s, fs) ← releaseFds L k.cur 5 3 s k.fs
  return { k with mm := s, fs }

/-- `sys_exit`, up to its `schedule`. -/
def sysExit (k : KernelState p) (status : Int) : Option (KernelState p) := do
  let family ← k.family.exitAdopt k.cur status
  let k ← releaseProgResource L { k with family }
  let parent ← k.family.pid2thread (k.family.task k.cur).parentPid
  let woken := (k.family.task parent).status = .waiting
  ensure (woken → parent ∉ k.readyList)
  return { k with
    readyList := if woken then parent :: k.readyList else k.readyList
    family := (k.family.wakeParent parent).hang k.cur status
    fs := { k.fs with live := k.fs.live.erase k.cur } }

/-- `thread_exit(threadOver, false)`. -/
def threadExit (k : KernelState p) (threadOver : Nat) : Option (KernelState p) := do
  let pgdir := (k.vm threadOver).pgdir
  let s ← if pgdir ≠ 0 then mfreePage L .kernel k.mm pgdir 1 else some k.mm
  let s ← if threadOver ≠ k.family.main then mfreePage L .kernel s (threadOver * 4096) 1 else some s
  return { k with
    mm := s
    readyList := k.readyList.erase threadOver
    family := k.family.threadExit threadOver }

/-- One pass through the loop of `sys_wait`. -/
def sysWait (k : KernelState p) : Option (KernelState p) := do
  let k' ← match k.family.findHangingChild (k.family.task k.cur).pid with
    | some child => threadExit L k child
    | none => some k
  return { k' with family := k.family.sysWait k.cur }

end

end OsCore.Userprog
