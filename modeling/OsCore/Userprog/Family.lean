import OsCore.Thread.Scheduler

/-!
# Processes and their parents

`sys_fork`, `sys_exit` and `sys_wait` on `thread_all_list`. System calls run with
interrupts off, so each is one step here, to its end or to the `thread_block` in
it; a task that is woken up in `sys_wait` goes through its loop once more.

A task is named by the address of its PCB, and its pid comes from a bitmap and
goes back to it, so both are used again. `uid` is a ghost that is not: a number
each task has for itself. `exits` and `collected` are the calls of `sys_exit`,
and what calls of `sys_wait` have returned.

`FamilyInv` is the invariant. Its heart is that no task's `parent_pid` names a
task that hangs or has gone: whoever exits has first handed its children to
init, in the same step. `family_invariant` states what follows for every run.
-/

namespace OsCore.Userprog

open Lib Thread

/-! ## The code -/

/-- The fields of a PCB that play a part here. `ready` is also the status of the
task that runs. -/
structure Task where
  pid : Int
  parentPid : Int
  status : TaskStatus
  exitStatus : Int
  name : List Char
  /-- `pgdir != NULL` -/
  isProcess : Bool
  /-- in `thread_block` of `sys_wait`, or woken up there -/
  inWait : Bool
  /-- made by `sys_fork` -/
  forked : Bool
  uid : Nat
  deriving DecidableEq

/-- A call `sys_exit(status)`. -/
structure ExitCall where
  uid : Nat
  pid : Int
  status : Int
  deriving DecidableEq

/-- What a call of `sys_wait` has taken: whose task, on whose call, what the
`parent_pid` was, and the pid and the status handed to the caller. -/
structure Collected where
  uid : Nat
  callerPid : Int
  parentPid : Int
  pid : Int
  status : Int
  deriving DecidableEq

structure Family where
  allList : List Nat
  task : Nat → Task
  pidBitmap : Bitmap
  /-- the first page with a PCB, that of `init`, and that of `main` -/
  init : Nat
  main : Nat
  nextUid : Nat
  exits : List ExitCall
  collected : List Collected

/-- The conversion to `int8_t`. -/
def toI8 (x : Int) : Int := x.bmod 256

/-- `allocate_pid`; `pid_start` is 1. -/
def allocatePid (b : Bitmap) : Option (Int × Bitmap) := do
  let bitIdx ← b.bitmapScan 1
  return (bitIdx + 1, b.bitmapSet bitIdx.toNat true)

def releasePid (b : Bitmap) (pid : Int) : Bitmap := b.bitmapSet (pid - 1).toNat false

namespace Family

variable (s : Family)

def modify (t : Nat) (f : Task → Task) : Family :=
  { s with task := Function.update s.task t (f (s.task t)) }

/-- `list_traversal` of `thread_all_list`. -/
def find (p : Task → Bool) : Option Nat := s.allList.find? fun a => p (s.task a)

def pid2thread (pid : Int) : Option Nat := s.find fun k => k.pid == pid

def findChild (ppid : Int) : Option Nat := s.find fun k => k.parentPid == ppid

def findHangingChild (ppid : Int) : Option Nat :=
  s.find fun k => k.parentPid == ppid && k.status == .hanging

/-- The traversal with `init_adopt_a_child`. -/
def initAdopt (pid : Int) : Family :=
  { s with task := fun a =>
      if a ∈ s.allList ∧ (s.task a).parentPid = pid then { s.task a with parentPid := 1 }
      else s.task a }

/-- `thread_exit(threadOver, false)`. The pid is read from a page that has just been
given back; nothing else has run in between. -/
def threadExit (threadOver : Nat) : Family :=
  { s.modify threadOver (fun k => { k with status := .died }) with
    allList := s.allList.erase threadOver
    pidBitmap := releasePid s.pidBitmap (s.task threadOver).pid }

/-- One pass through the loop of `sys_wait`. -/
def sysWait (t : Nat) : Family :=
  match s.findHangingChild (s.task t).pid with
  | some child =>
    let c := s.task child
    let record : Collected := ⟨c.uid, (s.task t).pid, c.parentPid, c.pid, c.exitStatus⟩
    let s := { s with collected := s.collected ++ [record] }
    (s.threadExit child).modify t fun k => { k with inWait := false }
  | none =>
    match s.findChild (s.task t).pid with
    | none => s.modify t fun k => { k with inWait := false }
    | some _ => s.modify t fun k => { k with status := .waiting, inWait := true }

/-- `sys_exit` up to `release_prog_resource`, which is elsewhere. -/
def exitAdopt (t : Nat) (status : Int) : Option Family := do
  let s := s.modify t fun k => { k with exitStatus := toI8 status }
  ensure ((s.task t).parentPid ≠ -1)
  return s.initAdopt (s.task t).pid

/-- Waking up a parent that waits. -/
def wakeParent (parent : Nat) : Family :=
  if (s.task parent).status = .waiting then s.modify parent fun k => { k with status := .ready }
  else s

/-- `thread_block(TASK_HANGING)`, with a record of the call. -/
def hang (t : Nat) (status : Int) : Family :=
  let call : ExitCall := ⟨(s.task t).uid, (s.task t).pid, status⟩
  { s.modify t (fun k => { k with status := .hanging }) with exits := s.exits ++ [call] }

/-- `sys_exit`. A parent that is not found is a null pointer, and the end. -/
def sysExit (t : Nat) (status : Int) : Option Family := do
  let s ← s.exitAdopt t status
  let parent ← s.pid2thread (s.task t).parentPid
  return (s.wakeParent parent).hang t status

end Family

/-- Which request for memory of `sys_fork` fails, if one does. -/
inductive ForkAnswer
  | ok
  | noPcb
  | noBuffer
  | noBitmap
  | noPageDir
  deriving DecidableEq

namespace Family

variable (s : Family)

/-- `sys_fork` by `t`, with a PCB on `page`. -/
def sysFork (t page : Nat) (answer : ForkAnswer) : Option Family := do
  if answer = .noPcb then return s
  ensure ((s.task t).isProcess = true)
  if answer = .noBuffer then return s
  let parent := s.task t
  let (pid, pidBitmap) ← allocatePid s.pidBitmap
  let s := { s with pidBitmap }
  if answer = .noBitmap then return s
  ensure (parent.name.length < 11)
  if answer = .noPageDir then return s
  let child := { parent with
    pid
    status := .ready
    parentPid := parent.pid
    name := parent.name ++ "_fork".toList
    forked := true
    uid := s.nextUid }
  ensure (page ∉ s.allList)
  return { s with
    allList := s.allList ++ [page]
    task := Function.update s.task page child
    nextUid := s.nextUid + 1 }

/-- `sys_execv` of a program that loads: the process gets its name. -/
def sysExecv (t : Nat) (path : List Char) : Family :=
  s.modify t fun k => { k with name := path.take 15 }

end Family

/-! ## Runs -/

inductive FamilyOp
  | fork (t page : Nat) (answer : ForkAnswer)
  | exit (t : Nat) (status : Int)
  | wait (t : Nat)
  | execv (t : Nat) (path : List Char)
  /-- `main` ends with `thread_exit` -/
  | mainEnds

/-- A process that can make a system call. -/
def Family.CanCall (s : Family) (t : Nat) : Prop :=
  t ∈ s.allList ∧ (s.task t).isProcess = true ∧ (s.task t).status = .ready ∧
    (s.task t).inWait = false

/-- A PCB is put on a page that has none. Init does not exit. -/
def Family.May (s : Family) : FamilyOp → Prop
  | .fork t page _ => s.CanCall t ∧ page ∉ s.allList
  | .exit t _ => s.CanCall t ∧ t ≠ s.init
  | .wait t => t ∈ s.allList ∧ (s.task t).isProcess = true ∧ (s.task t).status = .ready
  | .execv t _ => s.CanCall t
  | .mainEnds => s.main ∈ s.allList ∧ (s.task s.main).forked = false

def Family.step (s : Family) : FamilyOp → Option Family
  | .fork t page answer => s.sysFork t page answer
  | .exit t status => s.sysExit t status
  | .wait t => some (s.sysWait t)
  | .execv t path => some (s.sysExecv t path)
  | .mainEnds => some (s.threadExit s.main)

/-- A task as `init_thread` makes it, in an address space of its own or not. -/
def initThread (pid : Int) (name : List Char) (isProcess : Bool) (uid : Nat) : Task where
  pid
  parentPid := 0
  status := .ready
  exitStatus := 0
  name
  isProcess
  inWait := false
  forked := false
  uid

/-- After `thread_init`: init, main and idle, with the first three pids. -/
def threadInit (init main idle : Nat) : Option Family := do
  let b : Bitmap := ⟨128, Mem.zero⟩
  let (pid1, b) ← allocatePid b
  let (pid2, b) ← allocatePid b
  let (pid3, b) ← allocatePid b
  return {
    allList := [init, main, idle]
    task := fun a =>
      if a = init then initThread pid1 "init".toList true 0
      else if a = main then initThread pid2 "main".toList false 1
      else initThread pid3 "idle".toList false 2
    pidBitmap := b
    init
    main
    nextUid := 3
    exits := []
    collected := [] }

def familyMachine : Machine Family FamilyOp where
  start s := ∃ init main idle, init ≠ main ∧ init ≠ idle ∧ main ≠ idle ∧
    threadInit init main idle = some s
  may := Family.May
  step := Family.step

/-! ## The invariant -/

/-- Pids are different, and taken in the bitmap. -/
structure PidsRight (s : Family) : Prop where
  nodup : s.allList.Nodup
  inj : ∀ a ∈ s.allList, ∀ b ∈ s.allList, (s.task a).pid = (s.task b).pid → a = b
  pos : ∀ a ∈ s.allList, 1 ≤ (s.task a).pid
  bit : ∀ a ∈ s.allList, s.pidBitmap.bit ((s.task a).pid - 1).toNat = true

/-- Who can be somebody's parent. -/
structure ParentsRight (s : Family) : Prop where
  init_mem : s.init ∈ s.allList
  init_pid : (s.task s.init).pid = 1
  init_process : (s.task s.init).isProcess = true
  init_awake : (s.task s.init).status ≠ .hanging
  /-- the parent of a forked task is there, is another task, and does not hang -/
  parent : ∀ a ∈ s.allList, (s.task a).forked = true → ∃ b ∈ s.allList, b ≠ a ∧
    (s.task b).pid = (s.task a).parentPid ∧ (s.task b).isProcess = true ∧
    (s.task b).status ≠ .hanging
  unforked : ∀ a ∈ s.allList, (s.task a).forked = false →
    (s.task a).parentPid = 0 ∧ (s.task a).status ≠ .hanging ∧
      ((s.task a).isProcess = true → a = s.init)
  forked_ne_init : ∀ a ∈ s.allList, (s.task a).forked = true → a ≠ s.init
  main_kernel : (s.task s.main).forked = false → s.main ∈ s.allList →
    (s.task s.main).isProcess = false

/-- The calls that have been made fit the tasks that are there. -/
structure RecordsRight (s : Family) : Prop where
  uid_lt : ∀ a ∈ s.allList, (s.task a).uid < s.nextUid
  uid_inj : ∀ a ∈ s.allList, ∀ b ∈ s.allList, (s.task a).uid = (s.task b).uid → a = b
  exit_lt : ∀ x ∈ s.exits, x.uid < s.nextUid
  exit_nodup : (s.exits.map (·.uid)).Nodup
  exit_hanging : ∀ a ∈ s.allList, ∀ x ∈ s.exits, x.uid = (s.task a).uid →
    (s.task a).status = .hanging
  hanging_exit : ∀ a ∈ s.allList, (s.task a).status = .hanging → ∃ x ∈ s.exits,
    x.uid = (s.task a).uid ∧ x.pid = (s.task a).pid ∧ (s.task a).exitStatus = toI8 x.status
  taken_nodup : (s.collected.map (·.uid)).Nodup
  taken_gone : ∀ e ∈ s.collected, ∀ a ∈ s.allList, (s.task a).uid ≠ e.uid
  taken_right : ∀ e ∈ s.collected, e.callerPid = e.parentPid ∧
    ∃ x ∈ s.exits, x.uid = e.uid ∧ e.pid = x.pid ∧ e.status = toI8 x.status

structure FamilyInv (s : Family) : Prop where
  pids : PidsRight s
  parents : ParentsRight s
  records : RecordsRight s

section

variable {s s' : Family} {t : Nat}

/-- A step that leaves the lists alone, and of each task all but its name, its
place and whether it waits. -/
structure Stirred (s s' : Family) : Prop where
  allList : s'.allList = s.allList
  init : s'.init = s.init
  main : s'.main = s.main
  nextUid : s'.nextUid = s.nextUid
  exits : s'.exits = s.exits
  collected : s'.collected = s.collected
  bits : ∀ i, s.pidBitmap.bit i = true → s'.pidBitmap.bit i = true
  pid : ∀ a, (s'.task a).pid = (s.task a).pid
  parentPid : ∀ a, (s'.task a).parentPid = (s.task a).parentPid
  forked : ∀ a, (s'.task a).forked = (s.task a).forked
  isProcess : ∀ a, (s'.task a).isProcess = (s.task a).isProcess
  uid : ∀ a, (s'.task a).uid = (s.task a).uid
  exitStatus : ∀ a, (s'.task a).exitStatus = (s.task a).exitStatus
  hanging : ∀ a, (s'.task a).status = .hanging ↔ (s.task a).status = .hanging

theorem Stirred.inv (hs : Stirred s s') (h : FamilyInv s) : FamilyInv s' := by
  refine ⟨⟨?_, ?_, ?_, ?_⟩, ⟨?_, ?_, ?_, ?_, ?_, ?_, ?_, ?_⟩,
    ⟨?_, ?_, ?_, ?_, ?_, ?_, ?_, ?_, ?_⟩⟩
  · rw [hs.allList]
    exact h.pids.nodup
  · simpa only [hs.allList, hs.pid] using h.pids.inj
  · simpa only [hs.allList, hs.pid] using h.pids.pos
  · intro a ha
    rw [hs.pid]
    exact hs.bits _ (h.pids.bit a (hs.allList ▸ ha))
  · rw [hs.allList, hs.init]
    exact h.parents.init_mem
  · rw [hs.init, hs.pid]
    exact h.parents.init_pid
  · rw [hs.init, hs.isProcess]
    exact h.parents.init_process
  · rw [hs.init, ne_eq, hs.hanging]
    exact h.parents.init_awake
  · simpa only [hs.allList, hs.pid, hs.parentPid, hs.forked, hs.isProcess, ne_eq, hs.hanging]
      using h.parents.parent
  · simpa only [hs.allList, hs.parentPid, hs.forked, hs.isProcess, hs.init, ne_eq, hs.hanging]
      using h.parents.unforked
  · simpa only [hs.allList, hs.forked, hs.init] using h.parents.forked_ne_init
  · simpa only [hs.allList, hs.forked, hs.isProcess, hs.main] using h.parents.main_kernel
  · simpa only [hs.allList, hs.uid, hs.nextUid] using h.records.uid_lt
  · simpa only [hs.allList, hs.uid] using h.records.uid_inj
  · simpa only [hs.exits, hs.nextUid] using h.records.exit_lt
  · simpa only [hs.exits] using h.records.exit_nodup
  · simpa only [hs.allList, hs.exits, hs.uid, hs.hanging] using h.records.exit_hanging
  · simpa only [hs.allList, hs.exits, hs.uid, hs.pid, hs.exitStatus, hs.hanging]
      using h.records.hanging_exit
  · simpa only [hs.collected] using h.records.taken_nodup
  · simpa only [hs.allList, hs.collected, hs.uid] using h.records.taken_gone
  · simpa only [hs.collected, hs.exits] using h.records.taken_right

/-- Changing the name, the place or the status of one task that does not hang. -/
theorem stirred_modify {f : Task → Task} (hh : (s.task t).status ≠ .hanging)
    (hf : f (s.task t) = { s.task t with
      status := (f (s.task t)).status
      name := (f (s.task t)).name
      inWait := (f (s.task t)).inWait })
    (hst : (f (s.task t)).status ≠ .hanging) : Stirred s (s.modify t f) := by
  have key : ∀ {β : Type} (g : Task → β), g (f (s.task t)) = g (s.task t) →
      ∀ a, g ((s.modify t f).task a) = g (s.task a) := by
    intro β g hg a
    by_cases ha : a = t
    · subst ha
      simpa [Family.modify] using hg
    · simp [Family.modify, ha]
  refine ⟨rfl, rfl, rfl, rfl, rfl, rfl, fun _ hi => hi, key (·.pid) ?_, key (·.parentPid) ?_,
    key (·.forked) ?_, key (·.isProcess) ?_, key (·.uid) ?_, key (·.exitStatus) ?_, ?_⟩
  · rw [hf]
  · rw [hf]
  · rw [hf]
  · rw [hf]
  · rw [hf]
  · rw [hf]
  · intro a
    by_cases ha : a = t
    · subst ha
      simp [Family.modify, hh, hst]
    · simp [Family.modify, ha]

/-! ## A task is taken away -/

/-- Giving a pid back leaves the bits of all other pids. -/
theorem bit_releasePid {b : Bitmap} {p q : Int} (hp : 1 ≤ p) (hq : 1 ≤ q) (hne : q ≠ p)
    (h : b.bit (q - 1).toNat = true) : (releasePid b p).bit (q - 1).toNat = true := by
  rw [releasePid, Bitmap.bit_bitmapSet, if_neg (by omega)]
  exact h

/-- `thread_exit` of a task that is nobody's parent, with the records as they are
afterwards. -/
theorem FamilyInv.remove (h : FamilyInv s) {c : Nat} (hc : c ∈ s.allList) (hinit : c ≠ s.init)
    (hleaf : (s.task c).status = .hanging ∨ (s.task c).isProcess = false)
    {collected : List Collected} (hnodup : (collected.map (·.uid)).Nodup)
    (hgone : ∀ e ∈ collected, ∀ a ∈ s.allList, a ≠ c → (s.task a).uid ≠ e.uid)
    (hright : ∀ e ∈ collected, e.callerPid = e.parentPid ∧
      ∃ x ∈ s.exits, x.uid = e.uid ∧ e.pid = x.pid ∧ e.status = toI8 x.status) :
    FamilyInv (({ s with collected } : Family).threadExit c) := by
  have hmem : ∀ a, a ∈ s.allList.erase c ↔ a ∈ s.allList ∧ a ≠ c := by
    intro a
    rw [h.pids.nodup.mem_erase_iff]
    exact And.comm
  have htask : ∀ a, a ≠ c →
      (({ s with collected } : Family).threadExit c).task a = s.task a := by
    intro a ha
    simp [Family.threadExit, Family.modify, ha]
  have hall : (({ s with collected } : Family).threadExit c).allList = s.allList.erase c := rfl
  refine ⟨⟨?_, ?_, ?_, ?_⟩, ⟨?_, ?_, ?_, ?_, ?_, ?_, ?_, ?_⟩,
    ⟨?_, ?_, h.records.exit_lt, h.records.exit_nodup, ?_, ?_, hnodup, ?_, hright⟩⟩
  · exact h.pids.nodup.erase c
  · intro a ha b hb
    rw [hall, hmem] at ha hb
    rw [htask a ha.2, htask b hb.2]
    exact h.pids.inj a ha.1 b hb.1
  · intro a ha
    rw [hall, hmem] at ha
    rw [htask a ha.2]
    exact h.pids.pos a ha.1
  · intro a ha
    rw [hall, hmem] at ha
    rw [htask a ha.2]
    refine bit_releasePid (h.pids.pos c hc) (h.pids.pos a ha.1) ?_ (h.pids.bit a ha.1)
    intro he
    exact ha.2 (h.pids.inj a ha.1 c hc he)
  · exact (hmem _).mpr ⟨h.parents.init_mem, hinit.symm⟩
  · exact (htask _ hinit.symm) ▸ h.parents.init_pid
  · exact (htask _ hinit.symm) ▸ h.parents.init_process
  · exact (htask _ hinit.symm) ▸ h.parents.init_awake
  · intro a ha hf
    rw [hall, hmem] at ha
    rw [htask a ha.2] at hf ⊢
    obtain ⟨b, hb, hba, hpid, hproc, hst⟩ := h.parents.parent a ha.1 hf
    -- the parent is another task than the one taken away
    have hbc : b ≠ c := by
      intro heq
      subst heq
      rcases hleaf with hl | hl
      · exact hst hl
      · rw [hproc] at hl
        cases hl
    refine ⟨b, (hmem b).mpr ⟨hb, hbc⟩, hba, ?_⟩
    rw [htask b hbc]
    exact ⟨hpid, hproc, hst⟩
  · intro a ha
    rw [hall, hmem] at ha
    rw [htask a ha.2]
    exact h.parents.unforked a ha.1
  · intro a ha
    rw [hall, hmem] at ha
    rw [htask a ha.2]
    exact h.parents.forked_ne_init a ha.1
  · intro hf hm
    have hm' : s.main ∈ s.allList.erase c := hm
    rw [hmem] at hm'
    have ht := htask s.main hm'.2
    exact ht ▸ h.parents.main_kernel (ht ▸ hf) hm'.1
  · intro a ha
    rw [hall, hmem] at ha
    rw [htask a ha.2]
    exact h.records.uid_lt a ha.1
  · intro a ha b hb
    rw [hall, hmem] at ha hb
    rw [htask a ha.2, htask b hb.2]
    exact h.records.uid_inj a ha.1 b hb.1
  · intro a ha
    rw [hall, hmem] at ha
    rw [htask a ha.2]
    exact h.records.exit_hanging a ha.1
  · intro a ha
    rw [hall, hmem] at ha
    rw [htask a ha.2]
    exact h.records.hanging_exit a ha.1
  · intro e he a ha
    rw [hall, hmem] at ha
    rw [htask a ha.2]
    exact hgone e he a ha.1 ha.2

theorem mainEnds_inv (h : FamilyInv s) (hm : s.main ∈ s.allList)
    (hf : (s.task s.main).forked = false) : FamilyInv (s.threadExit s.main) := by
  have hkernel := h.parents.main_kernel hf hm
  have hinit : s.main ≠ s.init := by
    intro he
    rw [he, h.parents.init_process] at hkernel
    cases hkernel
  exact h.remove hm hinit (.inr hkernel) h.records.taken_nodup
    (fun e he a ha _ => h.records.taken_gone e he a ha) h.records.taken_right

/-! ## `sys_wait` -/

theorem findHangingChild_some {p : Int} {c : Nat} (h : s.findHangingChild p = some c) :
    c ∈ s.allList ∧ (s.task c).parentPid = p ∧ (s.task c).status = .hanging := by
  have hp := List.find?_some h
  simp only [Bool.and_eq_true, beq_iff_eq] at hp
  exact ⟨List.mem_of_find?_eq_some h, hp⟩

theorem findHangingChild_none {p : Int} (h : s.findHangingChild p = none) :
    ∀ c ∈ s.allList, (s.task c).status = .hanging → (s.task c).parentPid ≠ p := by
  intro c hc hst hp
  have hn := List.find?_eq_none.mp h c hc
  simp [hst, hp] at hn

/-- The three ways a pass through the loop of `sys_wait` ends. -/
theorem sysWait_cases (s : Family) (t : Nat) :
    (∃ c, s.findHangingChild (s.task t).pid = some c ∧ s.sysWait t =
      (({ s with collected := s.collected ++ [⟨(s.task c).uid, (s.task t).pid,
        (s.task c).parentPid, (s.task c).pid, (s.task c).exitStatus⟩] } : Family).threadExit
          c).modify t fun k => { k with inWait := false }) ∨
    (s.findHangingChild (s.task t).pid = none ∧ s.sysWait t =
      s.modify t fun k => { k with inWait := false }) ∨
    (s.findHangingChild (s.task t).pid = none ∧ s.sysWait t =
      s.modify t fun k => { k with status := .waiting, inWait := true }) := by
  unfold Family.sysWait
  cases hh : s.findHangingChild (s.task t).pid with
  | some c => exact .inl ⟨c, rfl, rfl⟩
  | none =>
    cases s.findChild (s.task t).pid with
    | none => exact .inr (.inl ⟨rfl, rfl⟩)
    | some c => exact .inr (.inr ⟨rfl, rfl⟩)

/-- Taking a hanging child away and recording it. -/
theorem collect_inv (h : FamilyInv s) {c : Nat} {p : Int} (hc : s.findHangingChild p = some c) :
    FamilyInv (({ s with collected := s.collected ++ [⟨(s.task c).uid, p, (s.task c).parentPid,
      (s.task c).pid, (s.task c).exitStatus⟩] } : Family).threadExit c) := by
  obtain ⟨hmem, hp, hst⟩ := findHangingChild_some hc
  obtain ⟨x, hx, hxu, hxp, hxs⟩ := h.records.hanging_exit c hmem hst
  have hinit : c ≠ s.init := by
    intro heq
    subst heq
    exact h.parents.init_awake hst
  refine h.remove hmem hinit (.inl hst) ?_ ?_ ?_
  · rw [List.map_append, List.map_singleton]
    refine List.nodup_append.mpr ⟨h.records.taken_nodup, List.nodup_singleton _, ?_⟩
    intro u hu v hv huv
    obtain ⟨e, he, rfl⟩ := List.mem_map.mp hu
    rw [List.mem_singleton] at hv
    exact h.records.taken_gone e he c hmem (huv.trans hv).symm
  · intro e he a ha hac
    rcases List.mem_append.mp he with he | he
    · exact h.records.taken_gone e he a ha
    · rw [List.mem_singleton] at he
      subst he
      intro hu
      exact hac (h.records.uid_inj a ha c hmem hu)
  · intro e he
    rcases List.mem_append.mp he with he | he
    · exact h.records.taken_right e he
    · rw [List.mem_singleton] at he
      subst he
      exact ⟨hp.symm, x, hx, hxu, hxp.symm, hxs⟩

theorem sysWait_inv (h : FamilyInv s) (hr : (s.task t).status = .ready) :
    FamilyInv (s.sysWait t) := by
  have hnot : (s.task t).status ≠ .hanging := by
    rw [hr]
    decide
  rcases sysWait_cases s t with ⟨c, hc, he⟩ | ⟨_, he⟩ | ⟨_, he⟩
  · rw [he]
    have hct : t ≠ c := by
      intro heq
      subst heq
      exact hnot (findHangingChild_some hc).2.2
    refine (stirred_modify ?_ rfl ?_).inv (collect_inv h hc)
    · simpa [Family.threadExit, Family.modify, hct] using hnot
    · simpa [Family.threadExit, Family.modify, hct] using hnot
  · rw [he]
    exact (stirred_modify hnot rfl hnot).inv h
  · rw [he]
    exact (stirred_modify hnot rfl (by simp)).inv h

/-! ## `sys_fork` -/

theorem allocatePid_spec {b b' : Bitmap} {pid : Int} (h : allocatePid b = some (pid, b')) :
    1 ≤ pid ∧ b.bit (pid - 1).toNat = false ∧ b'.bit (pid - 1).toNat = true ∧
      ∀ i, b.bit i = true → b'.bit i = true := by
  obtain ⟨r, hr, he⟩ := Option.bind_eq_some_iff.mp h
  cases he
  obtain ⟨i, rfl, -, hz, -⟩ := Bitmap.bitmapScan_one hr
  have hi : ((i : Int) + 1 - 1).toNat = i := by omega
  refine ⟨by omega, by rw [hi]; exact hz, ?_, ?_⟩
  · rw [hi, Bitmap.bit_bitmapSet, if_pos (Int.toNat_natCast i).symm]
  · intro j hj
    rw [Bitmap.bit_bitmapSet]
    split
    · rfl
    · exact hj

/-- A state that differs only in the pids taken. -/
theorem stirred_bitmap {b : Bitmap} (hb : ∀ i, s.pidBitmap.bit i = true → b.bit i = true) :
    Stirred s { s with pidBitmap := b } :=
  ⟨rfl, rfl, rfl, rfl, rfl, rfl, hb, fun _ => rfl, fun _ => rfl, fun _ => rfl, fun _ => rfl,
    fun _ => rfl, fun _ => rfl, fun _ => Iff.rfl⟩

/-- A child on a fresh page, with a fresh pid and uid. -/
structure Forked (s : Family) (t page : Nat) (child : Task) (s' : Family) : Prop where
  allList : s'.allList = s.allList ++ [page]
  init : s'.init = s.init
  main : s'.main = s.main
  nextUid : s'.nextUid = s.nextUid + 1
  exits : s'.exits = s.exits
  collected : s'.collected = s.collected
  task : s'.task = Function.update s.task page child
  alloc : allocatePid s.pidBitmap = some (child.pid, s'.pidBitmap)
  parentPid : child.parentPid = (s.task t).pid
  status : child.status = .ready
  forked : child.forked = true
  uid : child.uid = s.nextUid

section

variable {page : Nat} {child : Task}

theorem Forked.mem (hs : Forked s t page child s') (a : Nat) :
    a ∈ s'.allList ↔ a ∈ s.allList ∨ a = page := by
  rw [hs.allList, List.mem_append, List.mem_singleton]

theorem Forked.old (hs : Forked s t page child s') (hpage : page ∉ s.allList) {a : Nat}
    (ha : a ∈ s.allList) : s'.task a = s.task a := by
  have hne : a ≠ page := by
    intro heq
    subst heq
    exact hpage ha
  rw [hs.task, Function.update_of_ne hne]

theorem Forked.new (hs : Forked s t page child s') : s'.task page = child := by
  rw [hs.task]
  exact Function.update_self ..

theorem Forked.pids (hs : Forked s t page child s') (hpage : page ∉ s.allList)
    (h : PidsRight s) : PidsRight s' := by
  obtain ⟨hpos, hclear, hset, hkeep⟩ := allocatePid_spec hs.alloc
  have hfresh : ∀ a ∈ s.allList, (s.task a).pid ≠ child.pid := by
    intro a ha he
    have hb := h.bit a ha
    rw [he, hclear] at hb
    cases hb
  refine ⟨?_, ?_, ?_, ?_⟩
  · rw [hs.allList]
    refine List.nodup_append.mpr ⟨h.nodup, List.nodup_singleton _, ?_⟩
    intro a ha x hx heq
    subst heq
    exact hpage (List.mem_singleton.mp hx ▸ ha)
  · intro a ha x hx he
    rcases (hs.mem a).mp ha with ha | rfl <;> rcases (hs.mem x).mp hx with hx | rfl
    · rw [hs.old hpage ha, hs.old hpage hx] at he
      exact h.inj a ha x hx he
    · rw [hs.old hpage ha, hs.new] at he
      exact absurd he (hfresh a ha)
    · rw [hs.new, hs.old hpage hx] at he
      exact absurd he.symm (hfresh x hx)
    · rfl
  · intro a ha
    rcases (hs.mem a).mp ha with ha | rfl
    · rw [hs.old hpage ha]
      exact h.pos a ha
    · rw [hs.new]
      exact hpos
  · intro a ha
    rcases (hs.mem a).mp ha with ha | rfl
    · rw [hs.old hpage ha]
      exact hkeep _ (h.bit a ha)
    · rw [hs.new]
      exact hset

theorem Forked.parents (hs : Forked s t page child s') (hpage : page ∉ s.allList)
    (h : ParentsRight s) (ht : t ∈ s.allList) (hproc : (s.task t).isProcess = true)
    (hst : (s.task t).status ≠ .hanging) : ParentsRight s' := by
  have hinit : s'.task s'.init = s.task s.init := by
    rw [hs.init]
    exact hs.old hpage h.init_mem
  refine ⟨?_, hinit ▸ h.init_pid, hinit ▸ h.init_process, hinit ▸ h.init_awake, ?_, ?_, ?_, ?_⟩
  · rw [hs.init]
    exact (hs.mem _).mpr (.inl h.init_mem)
  · intro a ha hf
    rcases (hs.mem a).mp ha with ha | rfl
    · rw [hs.old hpage ha] at hf ⊢
      obtain ⟨x, hx, hxa, hrest⟩ := h.parent a ha hf
      refine ⟨x, (hs.mem x).mpr (.inl hx), hxa, ?_⟩
      rw [hs.old hpage hx]
      exact hrest
    · refine ⟨t, (hs.mem t).mpr (.inl ht), fun he => hpage (he ▸ ht), ?_⟩
      rw [hs.new, hs.old hpage ht, hs.parentPid]
      exact ⟨rfl, hproc, hst⟩
  · intro a ha hf
    rcases (hs.mem a).mp ha with ha | rfl
    · rw [hs.old hpage ha] at hf ⊢
      rw [hs.init]
      exact h.unforked a ha hf
    · rw [hs.new, hs.forked] at hf
      cases hf
  · intro a ha hf
    rw [hs.init]
    rcases (hs.mem a).mp ha with ha | rfl
    · rw [hs.old hpage ha] at hf
      exact h.forked_ne_init a ha hf
    · exact fun he => hpage (he.symm ▸ h.init_mem)
  · intro hf hm
    rw [hs.main] at hf hm ⊢
    rcases (hs.mem s.main).mp hm with hm | hm
    · rw [hs.old hpage hm] at hf ⊢
      exact h.main_kernel hf hm
    · rw [hm, hs.new, hs.forked] at hf
      cases hf

theorem Forked.records (hs : Forked s t page child s') (hpage : page ∉ s.allList)
    (h : RecordsRight s) : RecordsRight s' := by
  have huidne : ∀ a ∈ s.allList, (s.task a).uid ≠ child.uid := by
    intro a ha
    have hlt := h.uid_lt a ha
    rw [hs.uid]
    omega
  have hexit : ∀ x ∈ s.exits, x.uid ≠ child.uid := by
    intro x hx
    have hlt := h.exit_lt x hx
    rw [hs.uid]
    omega
  refine ⟨?_, ?_, ?_, ?_, ?_, ?_, ?_, ?_, ?_⟩
  · intro a ha
    rw [hs.nextUid]
    rcases (hs.mem a).mp ha with ha | rfl
    · rw [hs.old hpage ha]
      exact Nat.lt_succ_of_lt (h.uid_lt a ha)
    · rw [hs.new, hs.uid]
      exact Nat.lt_succ_self _
  · intro a ha x hx he
    rcases (hs.mem a).mp ha with ha | rfl <;> rcases (hs.mem x).mp hx with hx | rfl
    · rw [hs.old hpage ha, hs.old hpage hx] at he
      exact h.uid_inj a ha x hx he
    · rw [hs.old hpage ha, hs.new] at he
      exact absurd he (huidne a ha)
    · rw [hs.new, hs.old hpage hx] at he
      exact absurd he.symm (huidne x hx)
    · rfl
  · intro x hx
    rw [hs.exits] at hx
    rw [hs.nextUid]
    exact Nat.lt_succ_of_lt (h.exit_lt x hx)
  · rw [hs.exits]
    exact h.exit_nodup
  · intro a ha x hx he
    rw [hs.exits] at hx
    rcases (hs.mem a).mp ha with ha | rfl
    · rw [hs.old hpage ha] at he ⊢
      exact h.exit_hanging a ha x hx he
    · rw [hs.new] at he
      exact absurd he (hexit x hx)
  · intro a ha hh
    rw [hs.exits]
    rcases (hs.mem a).mp ha with ha | rfl
    · rw [hs.old hpage ha] at hh ⊢
      exact h.hanging_exit a ha hh
    · rw [hs.new, hs.status] at hh
      cases hh
  · rw [hs.collected]
    exact h.taken_nodup
  · intro e he a ha
    rw [hs.collected] at he
    rcases (hs.mem a).mp ha with ha | rfl
    · rw [hs.old hpage ha]
      exact h.taken_gone e he a ha
    · rw [hs.new]
      obtain ⟨-, x, hx, hxe, -⟩ := h.taken_right e he
      rw [← hxe]
      exact (hexit x hx).symm
  · rw [hs.collected, hs.exits]
    exact h.taken_right

end

/-- What `sys_fork` comes to: nothing, a pid that is lost, or a child. -/
theorem sysFork_cases {page : Nat} {answer : ForkAnswer} (h : s.sysFork t page answer = some s') :
    s' = s ∨ (∃ pid b, allocatePid s.pidBitmap = some (pid, b) ∧ s' = { s with pidBitmap := b }) ∨
      ((s.task t).isProcess = true ∧ ∃ child, Forked s t page child s') := by
  simp only [Family.sysFork] at h
  split at h
  · cases h
    exact .inl rfl
  · obtain ⟨_, hproc, h⟩ := Option.bind_eq_some_iff.mp h
    rw [ensure_eq_some] at hproc
    split at h
    · cases h
      exact .inl rfl
    · obtain ⟨⟨pid, b⟩, halloc, h⟩ := Option.bind_eq_some_iff.mp h
      refine .inr ?_
      simp only at h
      split at h
      · cases h
        exact .inl ⟨pid, b, halloc, rfl⟩
      · obtain ⟨_, -, h⟩ := Option.bind_eq_some_iff.mp h
        split at h
        · cases h
          exact .inl ⟨pid, b, halloc, rfl⟩
        · obtain ⟨_, -, h⟩ := Option.bind_eq_some_iff.mp h
          cases h
          exact .inr ⟨hproc, { s.task t with
            pid
            status := .ready
            parentPid := (s.task t).pid
            name := (s.task t).name ++ "_fork".toList
            forked := true
            uid := s.nextUid }, ⟨rfl, rfl, rfl, rfl, rfl, rfl, rfl, halloc, rfl, rfl, rfl, rfl⟩⟩

theorem sysFork_inv (h : FamilyInv s) {page : Nat} {answer : ForkAnswer} (hcall : s.CanCall t)
    (hpage : page ∉ s.allList) (hstep : s.sysFork t page answer = some s') : FamilyInv s' := by
  rcases sysFork_cases hstep with rfl | ⟨pid, b, halloc, rfl⟩ | ⟨hproc, child, hs⟩
  · exact h
  · exact (stirred_bitmap (allocatePid_spec halloc).2.2.2).inv h
  · have hst : (s.task t).status ≠ .hanging := by
      rw [hcall.2.2.1]
      decide
    exact ⟨hs.pids hpage h.pids, hs.parents hpage h.parents hcall.1 hproc hst,
      hs.records hpage h.records⟩

/-! ## `sys_exit` -/

theorem pid2thread_eq (h : FamilyInv s) {a : Nat} (ha : a ∈ s.allList) :
    s.pid2thread (s.task a).pid = some a := by
  cases hf : s.pid2thread (s.task a).pid with
  | none =>
    have hn := List.find?_eq_none.mp hf a ha
    simp at hn
  | some b =>
    have hp := List.find?_some hf
    simp only [beq_iff_eq] at hp
    rw [h.pids.inj b (List.mem_of_find?_eq_some hf) a ha hp]

/-- What `sys_exit` by `t` leaves of each task, where `parent` is its parent. -/
structure Exited (s : Family) (t parent : Nat) (code : Int) (s' : Family) : Prop where
  allList : s'.allList = s.allList
  init : s'.init = s.init
  main : s'.main = s.main
  pidBitmap : s'.pidBitmap = s.pidBitmap
  nextUid : s'.nextUid = s.nextUid
  collected : s'.collected = s.collected
  exits : s'.exits = s.exits ++ [⟨(s.task t).uid, (s.task t).pid, code⟩]
  pid : ∀ a, (s'.task a).pid = (s.task a).pid
  uid : ∀ a, (s'.task a).uid = (s.task a).uid
  forked : ∀ a, (s'.task a).forked = (s.task a).forked
  isProcess : ∀ a, (s'.task a).isProcess = (s.task a).isProcess
  parentPid : ∀ a ∈ s.allList, (s'.task a).parentPid =
    if (s.task a).parentPid = (s.task t).pid then 1 else (s.task a).parentPid
  status : ∀ a, (s'.task a).status = if a = t then .hanging
    else if a = parent ∧ (s.task a).status = .waiting then .ready else (s.task a).status
  exitStatus : ∀ a, (s'.task a).exitStatus = if a = t then toI8 code else (s.task a).exitStatus

/-- The tasks after the traversal of `sys_exit`. -/
theorem exitAdopt_spec (code : Int) (hminus : (s.task t).parentPid ≠ -1) :
    ∃ s₁, s.exitAdopt t code = some s₁ ∧ s₁ = { s with task := fun a => { s.task a with
      exitStatus := if a = t then toI8 code else (s.task a).exitStatus
      parentPid := if a ∈ s.allList ∧ (s.task a).parentPid = (s.task t).pid then 1
        else (s.task a).parentPid } } := by
  have hparent : ((s.modify t fun k => { k with exitStatus := toI8 code }).task t).parentPid ≠ -1 := by
    simpa [Family.modify] using hminus
  refine ⟨_, by simp only [Family.exitAdopt, ensure_pos hparent]; rfl, ?_⟩
  simp only [Family.initAdopt, Family.modify, Family.mk.injEq, true_and, and_true]
  funext a
  by_cases ha : a = t
  · subst ha
    simp only [Function.update_self, if_true]
    split <;> rfl
  · simp only [Function.update_self, Function.update_of_ne ha, if_neg ha]
    split <;> rfl

/-- The tasks after the parent has been woken up and the task hangs. -/
theorem hang_spec {parent : Nat} {code : Int} (hpt : parent ≠ t) :
    (s.wakeParent parent).hang t code = { s with
      exits := s.exits ++ [⟨(s.task t).uid, (s.task t).pid, code⟩]
      task := fun a => { s.task a with
        status := if a = t then .hanging
          else if a = parent ∧ (s.task a).status = .waiting then .ready else (s.task a).status } } := by
  unfold Family.wakeParent
  split
  · next hw =>
    simp only [Family.hang, Family.modify, Function.update_of_ne hpt.symm, Family.mk.injEq, true_and,
      and_true]
    funext a
    by_cases ha : a = t
    · subst ha
      simp only [Function.update_self, if_true]
    · rw [Function.update_of_ne ha, if_neg ha]
      by_cases hap : a = parent
      · subst hap
        rw [Function.update_self, if_pos ⟨rfl, hw⟩]
      · rw [Function.update_of_ne hap, if_neg fun h => hap h.1]
  · next hw =>
    simp only [Family.hang, Family.modify, Family.mk.injEq, true_and, and_true]
    funext a
    by_cases ha : a = t
    · subst ha
      simp only [Function.update_self, if_true]
    · rw [Function.update_of_ne ha, if_neg ha, if_neg]
      intro hin
      obtain ⟨rfl, hwait⟩ := hin
      exact hw hwait

/-- `sys_exit` of a forked task finds its parent. -/
theorem sysExit_spec (h : FamilyInv s) (ht : t ∈ s.allList) (hf : (s.task t).forked = true)
    (code : Int) : ∃ parent s', parent ∈ s.allList ∧ parent ≠ t ∧
      (s.task parent).pid = (s.task t).parentPid ∧ s.pid2thread (s.task t).parentPid = some parent ∧
      s.sysExit t code = some s' ∧ Exited s t parent code s' := by
  obtain ⟨parent, hp, hpt, hpid, -, -⟩ := h.parents.parent t ht hf
  have hfind : s.pid2thread (s.task t).parentPid = some parent := hpid ▸ pid2thread_eq h hp
  have hself : ¬(t ∈ s.allList ∧ (s.task t).parentPid = (s.task t).pid) := by
    intro hin
    obtain ⟨-, he⟩ := hin
    exact hpt (h.pids.inj parent hp t ht (hpid.trans he))
  have hpos := h.pids.pos parent hp
  obtain ⟨s₁, hadopt, hs₁⟩ := exitAdopt_spec (s := s) (t := t) code (by omega)
  -- the search sees the pids there were before
  have hfind₁ : s₁.pid2thread (s₁.task t).parentPid = some parent := by
    rw [← hfind, hs₁]
    simp only [if_neg hself]
    rfl
  refine ⟨parent, (s₁.wakeParent parent).hang t code, hp, hpt, hpid, hfind, ?_, ?_⟩
  · rw [Family.sysExit, hadopt, Option.bind_eq_bind, Option.bind_some, hfind₁]
    rfl
  · rw [hang_spec hpt, hs₁]
    refine ⟨rfl, rfl, rfl, rfl, rfl, rfl, rfl, fun _ => rfl, fun _ => rfl, fun _ => rfl,
      fun _ => rfl, ?_, fun _ => rfl, fun _ => rfl⟩
    intro a ha
    simp only [ha, true_and]

section

variable {parent : Nat} {code : Int}

/-- After `sys_exit` the task hangs, and of the others those that hung before. -/
theorem Exited.hanging_iff (he : Exited s t parent code s') (a : Nat) :
    (s'.task a).status = .hanging ↔ a = t ∨ (s.task a).status = .hanging := by
  rw [he.status]
  by_cases ha : a = t
  · simp [ha]
  · rw [if_neg ha]
    split
    · next hw => simp [ha, hw.2]
    · simp [ha]

theorem Exited.pids (he : Exited s t parent code s') (h : PidsRight s) : PidsRight s' := by
  refine ⟨?_, ?_, ?_, ?_⟩
  · rw [he.allList]
    exact h.nodup
  · simpa only [he.allList, he.pid] using h.inj
  · simpa only [he.allList, he.pid] using h.pos
  · simpa only [he.allList, he.pid, he.pidBitmap] using h.bit

/-- Nobody has the exiting task for a parent any more: its children are init's. -/
theorem Exited.parents (he : Exited s t parent code s') (h : FamilyInv s) (ht : t ∈ s.allList)
    (hf : (s.task t).forked = true) : ParentsRight s' := by
  have hinit := h.parents.forked_ne_init t ht hf
  have hinit_awake : (s'.task s.init).status ≠ .hanging := by
    rw [ne_eq, he.hanging_iff]
    intro hor
    rcases hor with hi | hi
    · exact hinit hi.symm
    · exact h.parents.init_awake hi
  refine ⟨?_, ?_, ?_, ?_, ?_, ?_, ?_, ?_⟩
  · rw [he.allList, he.init]
    exact h.parents.init_mem
  · rw [he.init, he.pid]
    exact h.parents.init_pid
  · rw [he.init, he.isProcess]
    exact h.parents.init_process
  · rw [he.init]
    exact hinit_awake
  · intro a ha hfa
    rw [he.allList] at ha
    rw [he.forked] at hfa
    rw [he.allList, he.parentPid a ha]
    by_cases hpa : (s.task a).parentPid = (s.task t).pid
    · refine ⟨s.init, h.parents.init_mem, (h.parents.forked_ne_init a ha hfa).symm, ?_⟩
      rw [if_pos hpa, he.pid, he.isProcess]
      exact ⟨h.parents.init_pid, h.parents.init_process, hinit_awake⟩
    · obtain ⟨b, hb, hba, hpid, hproc, hst⟩ := h.parents.parent a ha hfa
      refine ⟨b, hb, hba, ?_⟩
      rw [if_neg hpa, he.pid, he.isProcess, ne_eq, he.hanging_iff]
      refine ⟨hpid, hproc, ?_⟩
      intro hor
      rcases hor with rfl | hh
      · exact hpa hpid.symm
      · exact hst hh
  · intro a ha hfa
    rw [he.allList] at ha
    rw [he.forked] at hfa
    have hold := h.parents.unforked a ha hfa
    have hpos := h.pids.pos t ht
    rw [he.parentPid a ha, if_neg (by omega), he.isProcess, he.init, ne_eq, he.hanging_iff]
    refine ⟨hold.1, ?_, hold.2.2⟩
    intro hor
    rcases hor with rfl | hh
    · rw [hf] at hfa
      cases hfa
    · exact hold.2.1 hh
  · simpa only [he.allList, he.forked, he.init] using h.parents.forked_ne_init
  · simpa only [he.allList, he.forked, he.isProcess, he.main] using h.parents.main_kernel

theorem Exited.records (he : Exited s t parent code s') (h : RecordsRight s) (ht : t ∈ s.allList)
    (hst : (s.task t).status ≠ .hanging) : RecordsRight s' := by
  have hnew : ∀ x ∈ s.exits, x.uid ≠ (s.task t).uid := by
    intro x hx hu
    exact hst (h.exit_hanging t ht x hx hu)
  have hmem : ∀ x, x ∈ s'.exits ↔ x ∈ s.exits ∨ x = ⟨(s.task t).uid, (s.task t).pid, code⟩ := by
    intro x
    rw [he.exits, List.mem_append, List.mem_singleton]
  refine ⟨?_, ?_, ?_, ?_, ?_, ?_, ?_, ?_, ?_⟩
  · simpa only [he.allList, he.uid, he.nextUid] using h.uid_lt
  · simpa only [he.allList, he.uid] using h.uid_inj
  · intro x hx
    rw [he.nextUid]
    rcases (hmem x).mp hx with hx | rfl
    · exact h.exit_lt x hx
    · exact h.uid_lt t ht
  · rw [he.exits, List.map_append, List.map_singleton]
    refine List.nodup_append.mpr ⟨h.exit_nodup, List.nodup_singleton _, ?_⟩
    intro u hu v hv huv
    obtain ⟨x, hx, rfl⟩ := List.mem_map.mp hu
    rw [List.mem_singleton] at hv
    exact hnew x hx (huv.trans hv)
  · intro a ha x hx hu
    rw [he.allList] at ha
    rw [he.uid] at hu
    rw [he.hanging_iff]
    rcases (hmem x).mp hx with hx | rfl
    · exact .inr (h.exit_hanging a ha x hx hu)
    · exact .inl (h.uid_inj a ha t ht hu.symm)
  · intro a ha hh
    rw [he.allList] at ha
    rw [he.uid, he.pid, he.exitStatus]
    by_cases hat : a = t
    · subst hat
      exact ⟨_, (hmem _).mpr (.inr rfl), rfl, rfl, if_pos rfl⟩
    · rw [he.hanging_iff] at hh
      obtain ⟨x, hx, hrest⟩ := h.hanging_exit a ha (hh.resolve_left hat)
      rw [if_neg hat]
      exact ⟨x, (hmem x).mpr (.inl hx), hrest⟩
  · rw [he.collected]
    exact h.taken_nodup
  · simpa only [he.allList, he.collected, he.uid] using h.taken_gone
  · intro e hte
    rw [he.collected] at hte
    obtain ⟨hcaller, x, hx, hrest⟩ := h.taken_right e hte
    exact ⟨hcaller, x, (hmem x).mpr (.inl hx), hrest⟩

end

/-- A process other than init that can make a call was forked. -/
theorem CanCall.forked (h : FamilyInv s) (hcall : s.CanCall t) (hinit : t ≠ s.init) :
    (s.task t).forked = true := by
  cases hf : (s.task t).forked with
  | true => rfl
  | false => exact absurd ((h.parents.unforked t hcall.1 hf).2.2 hcall.2.1) hinit

theorem family_step (h : FamilyInv s) {op : FamilyOp} (hmay : s.May op)
    (hstep : s.step op = some s') : FamilyInv s' := by
  cases op with
  | fork t page answer => exact sysFork_inv h hmay.1 hmay.2 hstep
  | exit t code =>
    have hf := CanCall.forked h hmay.1 hmay.2
    obtain ⟨parent, s₁, -, -, -, -, hs₁, he⟩ := sysExit_spec h hmay.1.1 hf code
    cases hs₁.symm.trans hstep
    have hst : (s.task t).status ≠ .hanging := by
      rw [hmay.1.2.2.1]
      decide
    exact ⟨he.pids h.pids, he.parents h hmay.1.1 hf, he.records h.records hmay.1.1 hst⟩
  | wait t =>
    cases hstep
    exact sysWait_inv h hmay.2.2
  | execv t path =>
    cases hstep
    have hst : (s.task t).status ≠ .hanging := by
      rw [hmay.2.2.1]
      decide
    exact (stirred_modify hst rfl hst).inv h
  | mainEnds =>
    cases hstep
    exact mainEnds_inv h hmay.1 hmay.2

/-! ## The start -/

/-- The first three pids and their bits. -/
theorem boot_pids : (do
    let (pid1, b) ← allocatePid ⟨128, Mem.zero⟩
    let (pid2, b) ← allocatePid b
    let (pid3, b) ← allocatePid b
    return ([pid1, pid2, pid3], [b.bit 0, b.bit 1, b.bit 2])) =
      some (([1, 2, 3] : List Int), [true, true, true]) := by
  decide +kernel

theorem threadInit_spec {init main idle : Nat} (h : threadInit init main idle = some s) :
    ∃ b : Bitmap, b.bit 0 = true ∧ b.bit 1 = true ∧ b.bit 2 = true ∧ s = {
      allList := [init, main, idle]
      task := fun a =>
        if a = init then initThread 1 "init".toList true 0
        else if a = main then initThread 2 "main".toList false 1
        else initThread 3 "idle".toList false 2
      pidBitmap := b
      init
      main
      nextUid := 3
      exits := []
      collected := [] } := by
  have hboot := boot_pids
  unfold threadInit at h
  obtain ⟨⟨pid1, b1⟩, h1, h⟩ := Option.bind_eq_some_iff.mp h
  obtain ⟨⟨pid2, b2⟩, h2, h⟩ := Option.bind_eq_some_iff.mp h
  obtain ⟨⟨pid3, b3⟩, h3, h⟩ := Option.bind_eq_some_iff.mp h
  rw [h1, Option.bind_eq_bind, Option.bind_some] at hboot
  simp only [h2, h3, Option.bind_some, Option.pure_def, Option.some.injEq,
    Prod.mk.injEq, List.cons.injEq, and_true] at hboot
  obtain ⟨⟨rfl, rfl, rfl⟩, hb0, hb1, hb2⟩ := hboot
  cases h
  exact ⟨b3, hb0, hb1, hb2, rfl⟩

theorem threadInit_inv {init main idle : Nat} (hm : init ≠ main) (hi : init ≠ idle)
    (hd : main ≠ idle) (h : threadInit init main idle = some s) : FamilyInv s := by
  obtain ⟨b, hb0, hb1, hb2, rfl⟩ := threadInit_spec h
  have hmem : ∀ a, a ∈ [init, main, idle] ↔ a = init ∨ a = main ∨ a = idle := by
    intro a
    simp
  refine ⟨⟨?_, ?_, ?_, ?_⟩, ⟨?_, ?_, ?_, ?_, ?_, ?_, ?_, ?_⟩,
    ⟨?_, ?_, ?_, List.nodup_nil, ?_, ?_, List.nodup_nil, ?_, ?_⟩⟩
  · simp [hm, hi, hd]
  · intro x hx y hy he
    rcases (hmem x).mp hx with rfl | rfl | rfl <;> rcases (hmem y).mp hy with rfl | rfl | rfl <;>
      simp_all [initThread, hm.symm, hi.symm, hd.symm]
  · intro x hx
    rcases (hmem x).mp hx with rfl | rfl | rfl <;> simp [initThread, hm.symm, hi.symm, hd.symm]
  · intro x hx
    rcases (hmem x).mp hx with rfl | rfl | rfl <;>
      simp [initThread, hm.symm, hi.symm, hd.symm, hb0, hb1, hb2]
  · simp
  · simp [initThread]
  · simp [initThread]
  · simp [initThread]
  · intro x hx hf
    rcases (hmem x).mp hx with rfl | rfl | rfl <;>
      simp [initThread, hm.symm, hi.symm, hd.symm] at hf
  · intro x hx _
    rcases (hmem x).mp hx with rfl | rfl | rfl <;> simp [initThread, hm.symm, hi.symm, hd.symm]
  · intro x hx hf
    rcases (hmem x).mp hx with rfl | rfl | rfl <;>
      simp [initThread, hm.symm, hi.symm, hd.symm] at hf
  · intro _ _
    simp [initThread, hm.symm]
  · intro x hx
    rcases (hmem x).mp hx with rfl | rfl | rfl <;> simp [initThread, hm.symm, hi.symm, hd.symm]
  · intro x hx y hy he
    rcases (hmem x).mp hx with rfl | rfl | rfl <;> rcases (hmem y).mp hy with rfl | rfl | rfl <;>
      simp_all [initThread, hm.symm, hi.symm, hd.symm]
  · simp
  · simp
  · intro x hx hh
    rcases (hmem x).mp hx with rfl | rfl | rfl <;>
      simp [initThread, hm.symm, hi.symm, hd.symm] at hh
  · simp
  · simp

theorem familyInv_of_reach {G : Family → FamilyOp → Prop} (h : familyMachine.Reach G s) :
    FamilyInv s := by
  refine Machine.Reach.invariant ?_ ?_ h
  · intro s hin
    obtain ⟨init, main, idle, h1, h2, h3, hinit⟩ := hin
    exact threadInit_inv h1 h2 h3 hinit
  · intro s op s' hinv hmay _ hstep
    exact family_step hinv hmay hstep

end

/-! ## What holds of all runs -/

/-- What is asked of the process family. -/
structure FamilyRight (s : Family) : Prop where
  pids_differ : ∀ a ∈ s.allList, ∀ b ∈ s.allList, (s.task a).pid = (s.task b).pid → a = b
  parent_there : ∀ a ∈ s.allList, (s.task a).forked = true → ∃ b ∈ s.allList,
    (s.task b).pid = (s.task a).parentPid ∧ (s.task b).status ≠ .hanging
  /-- `sys_exit` finds a parent, and comes to its end -/
  exit_returns : ∀ t code, s.May (.exit t code) →
    (∃ b ∈ s.allList, s.pid2thread (s.task t).parentPid = some b) ∧ (s.step (.exit t code)).isSome
  exits_once : (s.exits.map (·.uid)).Nodup
  collected_once : (s.collected.map (·.uid)).Nodup
  /-- it is collected by its parent, which is told its pid and its status -/
  collected_right : ∀ e ∈ s.collected, e.callerPid = e.parentPid ∧
    ∃ x ∈ s.exits, x.uid = e.uid ∧ e.pid = x.pid ∧ e.status = x.status.bmod 256

/-- **The family invariant**, in every state of every run. -/
theorem family_invariant (s : Family) (h : familyMachine.Reachable s) : FamilyRight s := by
  have hinv := familyInv_of_reach h
  refine ⟨hinv.pids.inj, ?_, ?_, hinv.records.exit_nodup, hinv.records.taken_nodup,
    hinv.records.taken_right⟩
  · intro a ha hf
    obtain ⟨b, hb, -, hpid, -, hst⟩ := hinv.parents.parent a ha hf
    exact ⟨b, hb, hpid, hst⟩
  · intro t code hmay
    have hf := CanCall.forked hinv hmay.1 hmay.2
    obtain ⟨b, s', hb, -, -, hfind, hs', -⟩ := sysExit_spec hinv hmay.1.1 hf code
    refine ⟨⟨b, hb, hfind⟩, ?_⟩
    rw [Family.step, hs']
    rfl

instance (s : Family) (t : Nat) : Decidable (s.CanCall t) := by
  unfold Family.CanCall
  infer_instance

instance (s : Family) (op : FamilyOp) : Decidable (familyMachine.may s op) := by
  show Decidable (s.May op)
  cases op <;> unfold Family.May <;> infer_instance

/-- Init's PCB, and the page after it for a child. -/
def initPage : Nat := 0xc0100000

/-- Init forks, the child exits with 511, and init waits. -/
def forkExitWait : List FamilyOp :=
  [.fork initPage 0xc0200000 .ok, .exit 0xc0200000 511, .wait initPage]

/-- The child is collected with its pid and the status -1. -/
theorem family_invariant_one_child :
    ∃ s₀ s, threadInit initPage 0xc009e000 0xc0106000 = some s₀ ∧
      familyMachine.follow (fun _ _ => True) s₀ forkExitWait = some s ∧
      s.collected = [⟨3, 1, 1, 4, -1⟩] ∧ FamilyRight s := by
  have hsome : ((threadInit initPage 0xc009e000 0xc0106000).bind fun s₀ =>
      familyMachine.follow (fun _ _ => True) s₀ forkExitWait).map (·.collected) =
        some [⟨3, 1, 1, 4, -1⟩] := by decide +kernel
  obtain ⟨s, hs, he⟩ := Option.map_eq_some_iff.mp hsome
  obtain ⟨s₀, hs₀, hs⟩ := Option.bind_eq_some_iff.mp hs
  have hreach : familyMachine.Reachable s := Machine.reach_of_follow
    (Machine.Reach.start ⟨_, _, _, by decide, by decide, by decide, hs₀⟩) hs
  exact ⟨s₀, s, hs₀, hs, he, family_invariant s hreach⟩

end OsCore.Userprog
