import OsCore.Bitmap
import OsCore.Lib.Machine

/-!
# The scheduler of `thread.c`

A task is named by the address of its PCB. Its status is changed in six
functions and its place in `thread_ready_list` in five; two of them,
`thread_yield` and `schedule`, append the running task themselves.
`thread_unblock` puts a task at the front. Where nothing is ready, `schedule`
wakes the idle thread up from inside.

The queues are lists here (`List.lean` has the links they are made of). What a
task leaves on its stack when it is switched away from is the interrupt status
it will restore (`saved`): a new task starts with interrupts on.

`Wf` is what holds wherever `schedule` is called, at its entry: the ready list is
the ready tasks, no task but the current one is running, and the idle thread is
running, ready or blocked. From such a state `schedule` never fails and leaves
the current task running (`schedule_spec`); with that each operation is one
short lemma, and `scheduler_invariant` is about all runs from `thread_init`.
-/

namespace OsCore.Thread

open Lib

/-! ## The code -/

inductive TaskStatus
  | running
  | ready
  | blocked
  | waiting
  | hanging
  | died
  deriving DecidableEq, Repr

/-- The states `thread_block` puts a task in. -/
def TaskStatus.Asleep (st : TaskStatus) : Prop := st = .blocked ∨ st = .waiting ∨ st = .hanging

instance (st : TaskStatus) : Decidable st.Asleep := by
  unfold TaskStatus.Asleep
  infer_instance

theorem TaskStatus.Asleep.ne_ready {st : TaskStatus} (h : st.Asleep) : st ≠ .ready := by
  rcases h with h | h | h <;> rw [h] <;> decide

theorem TaskStatus.Asleep.ne_running {st : TaskStatus} (h : st.Asleep) : st ≠ .running := by
  rcases h with h | h | h <;> rw [h] <;> decide

/-- The globals of `thread.c`, the scheduling fields of all PCBs, and the
processor's interrupt flag. A null pointer is 0. -/
structure Sched where
  status : Nat → TaskStatus
  ticks : Nat → Nat
  priority : Nat → Nat
  readyList : List Nat
  allList : List Nat
  /-- `running_thread()` -/
  cur : Nat
  mainThread : Nat
  idleThread : Nat
  intrOn : Bool
  /-- the interrupt status a task restores when it runs on -/
  saved : Nat → Bool

/-- `init_thread`, as far as scheduling goes. -/
def initThread (s : Sched) (t prio : Nat) : Sched :=
  { s with
    status := Function.update s.status t (if t = s.mainThread then .running else .ready)
    priority := Function.update s.priority t (prio % 256)
    ticks := Function.update s.ticks t (prio % 256) }

/-- `thread_start` on the page `t`; `process_execute` queues its task the same
way. -/
def threadStart (s : Sched) (t prio : Nat) : Option Sched := do
  let s := initThread s t prio
  ensure (t ∉ s.readyList)
  let s := { s with readyList := s.readyList ++ [t] }
  ensure (t ∉ s.allList)
  return { s with allList := s.allList ++ [t], saved := Function.update s.saved t true }

def makeMainThread (s : Sched) : Option Sched := do
  let s := initThread { s with mainThread := s.cur } s.cur 31
  ensure (s.cur ∉ s.allList)
  return { s with allList := s.allList ++ [s.cur] }

/-- `thread_init`, run on the stack of `main`, with the pages of `init` and
`idle`. -/
def threadInit (boot : Sched) (init idle : Nat) : Option Sched := do
  let s := { boot with readyList := [], allList := [] }
  let s ← threadStart s init 31
  let s ← makeMainThread s
  let s ← threadStart s idle 10
  return { s with idleThread := idle }

def threadUnblock (s : Sched) (t : Nat) : Option Sched := do
  ensure (s.status t).Asleep
  if s.status t ≠ .ready then
    ensure (t ∉ s.readyList)
    return { s with
      readyList := t :: s.readyList
      status := Function.update s.status t .ready }
  else
    return s

/-- The first part of `schedule`: a task whose time is up goes to the end of the
queue. -/
def requeue (s : Sched) : Option Sched :=
  if s.status s.cur = .running then do
    ensure (s.cur ∉ s.readyList)
    return { s with
      readyList := s.readyList ++ [s.cur]
      ticks := Function.update s.ticks s.cur (s.priority s.cur)
      status := Function.update s.status s.cur .ready }
  else some s

/-- The second part: wake the idle thread up if nothing is ready. -/
def wakeIdle (s : Sched) : Option Sched :=
  if s.readyList = [] then threadUnblock s s.idleThread else some s

/-- The last part: the first ready task is switched to, and goes on with the
interrupt status it had. -/
def switchToNext (s : Sched) : Option Sched :=
  match s.readyList with
  | [] => none
  | next :: rest => some { s with
      readyList := rest
      status := Function.update s.status next .running
      cur := next
      intrOn := s.saved next }

def schedule (s : Sched) : Option Sched := do
  ensure (s.intrOn = false)
  let s ← requeue s
  let s ← wakeIdle s
  switchToNext s

/-- `intr_disable`, with the old status kept by the running task. -/
def intrDisable (s : Sched) : Sched :=
  { s with intrOn := false, saved := Function.update s.saved s.cur s.intrOn }

/-- `intr_timer_handler`: the processor has switched interrupts off. -/
def intrTimerHandler (s : Sched) : Option Sched :=
  if s.ticks s.cur = 0 then schedule (intrDisable s)
  else some { s with ticks := Function.update s.ticks s.cur (s.ticks s.cur - 1) }

/-- `thread_yield` up to its call of `schedule`. -/
def yieldCur (s : Sched) : Option Sched := do
  let s := intrDisable s
  ensure (s.cur ∉ s.readyList)
  return { s with
    readyList := s.readyList ++ [s.cur]
    status := Function.update s.status s.cur .ready }

def threadYield (s : Sched) : Option Sched := do
  let s ← yieldCur s
  schedule s

/-- `thread_block` up to its call of `schedule`. -/
def blockCur (s : Sched) (stat : TaskStatus) : Option Sched := do
  ensure stat.Asleep
  let s := intrDisable s
  return { s with status := Function.update s.status s.cur stat }

def threadBlock (s : Sched) (stat : TaskStatus) : Option Sched := do
  let s ← blockCur s stat
  schedule s

/-- `thread_exit` up to its call of `schedule`. -/
def removeTask (s : Sched) (threadOver : Nat) : Sched :=
  let s := { s with intrOn := false, status := Function.update s.status threadOver .died }
  let s := if threadOver ∈ s.readyList then { s with readyList := s.readyList.erase threadOver } else s
  { s with allList := s.allList.erase threadOver }

def threadExit (s : Sched) (threadOver : Nat) (needSchedule : Bool) : Option Sched :=
  if needSchedule then schedule (removeTask s threadOver) else some (removeTask s threadOver)

/-! ## Runs -/

inductive SchedOp
  | timer
  | yield
  | block (stat : TaskStatus)
  | unblock (t : Nat)
  | start (t prio : Nat)
  | exit (t : Nat) (needSchedule : Bool)
  | setIntr (on : Bool)

def Sched.step (s : Sched) : SchedOp → Option Sched
  | .timer => intrTimerHandler s
  | .yield => threadYield s
  | .block stat => threadBlock s stat
  | .unblock t => threadUnblock s t
  | .start t prio => threadStart s t prio
  | .exit t needSchedule => threadExit s t needSchedule
  | .setIntr on => some { s with intrOn := on }

/-- The calls that are made: the timer interrupts only where it may; the body of
`idle` blocks itself with `TASK_BLOCKED`; a new PCB is on a page that no task
has, and never on that of `main`, which is not in the heap; `sys_wait` takes a
hanging task away without leaving the processor, and `main` ends itself. -/
def Sched.May (s : Sched) : SchedOp → Prop
  | .timer => s.intrOn = true
  | .yield => True
  | .block stat => stat.Asleep ∧ (s.cur = s.idleThread → stat = .blocked)
  | .unblock t => t ∈ s.allList ∧ (s.status t).Asleep
  | .start t _ => t ∉ s.allList ∧ t ≠ s.mainThread
  | .exit t needSchedule =>
    (t ∈ s.allList ∧ s.status t = .hanging ∧ needSchedule = false) ∨
      (t = s.cur ∧ t = s.mainThread ∧ needSchedule = true)
  | .setIntr _ => True

/-- The scheduler, from any `thread_init` on three different pages. -/
def schedMachine : Machine Sched SchedOp where
  start s := ∃ boot init idle, init ≠ boot.cur ∧ init ≠ idle ∧ boot.cur ≠ idle ∧
    init ≠ boot.mainThread ∧ threadInit boot init idle = some s
  may := Sched.May
  step := Sched.step

/-- The state in which an operation calls `schedule`, if it does. -/
def Sched.atSchedule (s : Sched) : SchedOp → Option Sched
  | .timer => if s.ticks s.cur = 0 then some (intrDisable s) else none
  | .yield => yieldCur s
  | .block stat => blockCur s stat
  | .exit t true => some (removeTask s t)
  | _ => none

/-! ## What holds where `schedule` is called -/

/-- The lists and the statuses agree, nothing but the current task is running,
and the idle thread is there and not waiting for anybody. -/
structure Wf (s : Sched) : Prop where
  nodup_all : s.allList.Nodup
  nodup_ready : s.readyList.Nodup
  mem_ready : ∀ t, t ∈ s.readyList ↔ t ∈ s.allList ∧ s.status t = .ready
  running_cur : ∀ t ∈ s.allList, s.status t = .running → t = s.cur
  idle_mem : s.idleThread ∈ s.allList
  idle_status : s.status s.idleThread = .running ∨ s.status s.idleThread = .ready ∨
    s.status s.idleThread = .blocked
  idle_ne_main : s.idleThread ≠ s.mainThread

/-- The invariant between operations: also, the current task is running. -/
structure Sched.Inv (s : Sched) : Prop extends Wf s where
  cur_mem : s.cur ∈ s.allList
  cur_running : s.status s.cur = .running

section

variable {s s' : Sched}

/-- Time slices and interrupts play no part in it. -/
theorem Wf.with_clock (h : Wf s) (ticks : Nat → Nat) (intrOn : Bool) (saved : Nat → Bool) :
    Wf { s with ticks, intrOn, saved } :=
  ⟨h.nodup_all, h.nodup_ready, h.mem_ready, h.running_cur, h.idle_mem, h.idle_status,
    h.idle_ne_main⟩

/-- A running task is not queued. -/
theorem Wf.not_mem_ready (h : Wf s) {t : Nat} (ht : s.status t ≠ .ready) : t ∉ s.readyList := by
  intro hm
  exact ht ((h.mem_ready t).mp hm).2

theorem Sched.Inv.cur_not_ready (h : s.Inv) : s.cur ∉ s.readyList :=
  h.not_mem_ready (by rw [h.cur_running]; decide)

/-- Putting the current task at the end of the queue as ready. -/
theorem Wf.append_cur (h : Wf s) (hc : s.cur ∈ s.allList) (hn : s.cur ∉ s.readyList)
    (ticks : Nat → Nat) :
    Wf { s with
      readyList := s.readyList ++ [s.cur]
      ticks
      status := Function.update s.status s.cur .ready } := by
  refine ⟨h.nodup_all, ?_, ?_, ?_, h.idle_mem, ?_, h.idle_ne_main⟩
  · exact List.nodup_append.mpr ⟨h.nodup_ready, List.nodup_singleton _, by
      intro a ha b hb heq
      subst heq
      exact hn (List.mem_singleton.mp hb ▸ ha)⟩
  · intro t
    by_cases ht : t = s.cur
    · subst ht
      simp [hc]
    · simp [ht, h.mem_ready t]
  · intro t ht hr
    by_cases htc : t = s.cur
    · exact htc
    · exact h.running_cur t ht (by simpa [htc] using hr)
  · by_cases hi : s.idleThread = s.cur
    · right; left
      simp [hi]
    · simpa [hi] using h.idle_status

/-- `thread_unblock` of a sleeping task puts it at the front as ready. -/
theorem threadUnblock_spec (h : Wf s) {t : Nat} (hm : t ∈ s.allList)
    (hst : (s.status t).Asleep) :
    threadUnblock s t = some { s with
      readyList := t :: s.readyList
      status := Function.update s.status t .ready } ∧
    Wf { s with
      readyList := t :: s.readyList
      status := Function.update s.status t .ready } := by
  have hnr := hst.ne_ready
  have hn := h.not_mem_ready hnr
  constructor
  · simp [threadUnblock, ensure_pos hst, hnr, ensure_pos hn]
  · refine ⟨h.nodup_all, List.nodup_cons.mpr ⟨hn, h.nodup_ready⟩, ?_, ?_, h.idle_mem, ?_,
      h.idle_ne_main⟩
    · intro u
      by_cases hu : u = t
      · subst hu
        simp [hm]
      · simp [hu, h.mem_ready u]
    · intro u hu hr
      by_cases hut : u = t
      · subst hut
        simp at hr
      · exact h.running_cur u hu (by simpa [hut] using hr)
    · by_cases hi : s.idleThread = t
      · right; left
        simp [hi]
      · simpa [hi] using h.idle_status

/-! ## `schedule` -/

/-- After the first part of `schedule` no task is running. -/
theorem requeue_spec (h : Wf s) (hc : s.status s.cur = .running → s.cur ∈ s.allList) :
    ∃ s₁, requeue s = some s₁ ∧ Wf s₁ ∧ (∀ t ∈ s₁.allList, s₁.status t ≠ .running) ∧
      s₁.allList = s.allList := by
  by_cases hr : s.status s.cur = .running
  · have hn : s.cur ∉ s.readyList := h.not_mem_ready (by rw [hr]; decide)
    refine ⟨{ s with
      readyList := s.readyList ++ [s.cur]
      ticks := Function.update s.ticks s.cur (s.priority s.cur)
      status := Function.update s.status s.cur .ready }, ?_, h.append_cur (hc hr) hn _, ?_, rfl⟩
    · simp [requeue, hr, ensure_pos hn]
    · intro t ht hrt
      by_cases htc : t = s.cur
      · subst htc
        simp at hrt
      · exact htc (h.running_cur t ht (by simpa [htc] using hrt))
  · refine ⟨s, by rw [requeue, if_neg hr], h, ?_, rfl⟩
    intro t ht hrt
    exact hr (h.running_cur t ht hrt ▸ hrt)

/-- Where nothing is ready and nothing running, the idle thread is blocked. -/
theorem Wf.idle_blocked (h : Wf s) (hr : ∀ t ∈ s.allList, s.status t ≠ .running)
    (he : s.readyList = []) : s.status s.idleThread = .blocked := by
  rcases h.idle_status with hi | hi | hi
  · exact absurd hi (hr _ h.idle_mem)
  · have hm := (h.mem_ready s.idleThread).mpr ⟨h.idle_mem, hi⟩
    rw [he] at hm
    cases hm
  · exact hi

theorem wakeIdle_spec (h : Wf s) (hr : ∀ t ∈ s.allList, s.status t ≠ .running) :
    ∃ s₁, wakeIdle s = some s₁ ∧ Wf s₁ ∧ (∀ t ∈ s₁.allList, s₁.status t ≠ .running) ∧
      s₁.readyList ≠ [] := by
  by_cases he : s.readyList = []
  · have hb := h.idle_blocked hr he
    obtain ⟨hu, hw⟩ := threadUnblock_spec h h.idle_mem (.inl hb)
    refine ⟨_, by rw [wakeIdle, if_pos he, hu], hw, ?_, by simp⟩
    intro t ht hrt
    by_cases hti : t = s.idleThread
    · subst hti
      simp at hrt
    · exact hr t ht (by simpa [hti] using hrt)
  · exact ⟨s, by rw [wakeIdle, if_neg he], h, hr, he⟩

theorem switchToNext_spec (h : Wf s) (hr : ∀ t ∈ s.allList, s.status t ≠ .running)
    (hne : s.readyList ≠ []) : ∃ s₁, switchToNext s = some s₁ ∧ s₁.Inv := by
  obtain ⟨next, rest, he⟩ := List.exists_cons_of_ne_nil hne
  have hnext := (h.mem_ready next).mp (by rw [he]; exact List.mem_cons_self)
  have hnd : (next :: rest).Nodup := he ▸ h.nodup_ready
  have hrest : next ∉ rest := (List.nodup_cons.mp hnd).1
  refine ⟨_, by rw [switchToNext, he], ?_⟩
  refine ⟨⟨h.nodup_all, (List.nodup_cons.mp hnd).2, ?_, ?_, h.idle_mem, ?_, h.idle_ne_main⟩,
    hnext.1, by simp⟩
  · intro t
    by_cases ht : t = next
    · subst ht
      simp [hrest]
    · have hm := h.mem_ready t
      rw [he, List.mem_cons] at hm
      simpa [ht] using hm
  · intro t ht hrt
    by_cases htn : t = next
    · exact htn
    · exact absurd (by simpa [htn] using hrt) (hr t ht)
  · by_cases hi : s.idleThread = next
    · left
      simp [hi]
    · simpa [hi] using h.idle_status

/-- **`schedule` never fails** where it is called with interrupts off, and leaves
the task it has chosen running. -/
theorem schedule_spec (h : Wf s) (hoff : s.intrOn = false)
    (hc : s.status s.cur = .running → s.cur ∈ s.allList) :
    ∃ s', schedule s = some s' ∧ s'.Inv := by
  obtain ⟨s₁, h₁, hw₁, hr₁, -⟩ := requeue_spec h hc
  obtain ⟨s₂, h₂, hw₂, hr₂, hne⟩ := wakeIdle_spec hw₁ hr₁
  obtain ⟨s₃, h₃, hinv⟩ := switchToNext_spec hw₂ hr₂ hne
  exact ⟨s₃, by simp [schedule, ensure_pos hoff, h₁, h₂, h₃], hinv⟩

/-! ## The operations -/

/-- What is left of the invariant when an operation calls `schedule`. -/
structure Callable (s : Sched) : Prop extends Wf s where
  off : s.intrOn = false
  cur_mem : s.status s.cur = .running → s.cur ∈ s.allList

theorem Callable.schedule (h : Callable s) : ∃ s', schedule s = some s' ∧ s'.Inv :=
  schedule_spec h.toWf h.off h.cur_mem

theorem Sched.Inv.intrDisable (h : s.Inv) : Callable (intrDisable s) :=
  ⟨h.toWf.with_clock _ _ _, rfl, fun _ => h.cur_mem⟩

theorem yieldCur_spec (h : s.Inv) : ∃ c, yieldCur s = some c ∧ Callable c := by
  have hd := h.intrDisable
  have hn : (intrDisable s).cur ∉ (intrDisable s).readyList := h.cur_not_ready
  refine ⟨_, by simp only [yieldCur, ensure_pos hn]; rfl,
    ⟨hd.toWf.append_cur h.cur_mem hn (OsCore.Thread.intrDisable s).ticks, rfl,
      fun _ => h.cur_mem⟩⟩

theorem blockCur_spec (h : s.Inv) {stat : TaskStatus} (hst : stat.Asleep)
    (hidle : s.cur = s.idleThread → stat = .blocked) :
    ∃ c, blockCur s stat = some c ∧ Callable c := by
  have hnotready := h.cur_not_ready
  have hne : stat ≠ .ready ∧ stat ≠ .running := ⟨hst.ne_ready, hst.ne_running⟩
  refine ⟨{ intrDisable s with status := Function.update s.status s.cur stat },
    by simp only [blockCur, ensure_pos hst]; rfl,
    ⟨⟨h.nodup_all, h.nodup_ready, ?_, ?_, h.idle_mem, ?_, h.idle_ne_main⟩, rfl, fun _ => h.cur_mem⟩⟩
  · intro t
    by_cases ht : t = s.cur
    · subst ht
      simp [intrDisable, hnotready, hne.1]
    · simpa [intrDisable, ht] using h.mem_ready t
  · intro t ht hrt
    by_cases htc : t = s.cur
    · exact htc
    · exact absurd (h.running_cur t ht (by simpa [intrDisable, htc] using hrt)) htc
  · by_cases hi : s.idleThread = s.cur
    · right; right
      simp [intrDisable, hi, hidle hi.symm]
    · simpa [intrDisable, hi] using h.idle_status

/-- Taking a task that is not queued, and is not the idle thread, off the lists. -/
theorem removeTask_wf (h : Wf s) {threadOver : Nat} (hn : threadOver ∉ s.readyList)
    (hi : threadOver ≠ s.idleThread) : Wf (removeTask s threadOver) := by
  have hmem : ∀ t, t ∈ s.allList.erase threadOver ↔ t ∈ s.allList ∧ t ≠ threadOver := by
    intro t
    rw [h.nodup_all.mem_erase_iff]
    exact And.comm
  simp only [removeTask, if_neg hn]
  refine ⟨h.nodup_all.erase _, h.nodup_ready, ?_, ?_, (hmem _).mpr ⟨h.idle_mem, hi.symm⟩, ?_,
    h.idle_ne_main⟩
  · intro t
    by_cases ht : t = threadOver
    · subst ht
      simp [hn]
    · simpa [ht, hmem] using h.mem_ready t
  · intro t ht hrt
    have hto := ((hmem t).mp ht)
    exact h.running_cur t hto.1 (by simpa [hto.2] using hrt)
  · simpa [hi.symm] using h.idle_status

theorem removeTask_hanging (h : s.Inv) {threadOver : Nat} (hh : s.status threadOver = .hanging) :
    (removeTask s threadOver).Inv := by
  have hn : threadOver ∉ s.readyList := h.not_mem_ready (by rw [hh]; decide)
  have hi : threadOver ≠ s.idleThread := by
    intro heq
    subst heq
    rcases h.idle_status with h | h | h <;> rw [hh] at h <;> cases h
  have hc : s.cur ≠ threadOver := by
    intro heq
    subst heq
    rw [h.cur_running] at hh
    cases hh
  refine ⟨removeTask_wf h.toWf hn hi, ?_, ?_⟩
  · simp only [removeTask, if_neg hn]
    exact (h.nodup_all.mem_erase_iff).mpr ⟨hc, h.cur_mem⟩
  · simp only [removeTask, if_neg hn]
    rw [Function.update_of_ne hc, h.cur_running]

theorem removeTask_main (h : s.Inv) (hm : s.cur = s.mainThread) :
    Callable (removeTask s s.cur) := by
  have hn := h.cur_not_ready
  have hi : s.cur ≠ s.idleThread := hm ▸ h.idle_ne_main.symm
  refine ⟨removeTask_wf h.toWf hn hi, ?_, ?_⟩
  · simp only [removeTask, if_neg hn]
  · intro hr
    simp only [removeTask, if_neg hn, Function.update_self] at hr
    cases hr

/-- `thread_start` on a fresh page queues one more ready task. -/
theorem threadStart_spec (h : Wf s) {t : Nat} (prio : Nat) (hn : t ∉ s.allList)
    (hm : t ≠ s.mainThread) : ∃ s', threadStart s t prio = some s' ∧ Wf s' ∧
      s'.allList = s.allList ++ [t] ∧ s'.cur = s.cur ∧
      (∀ u, u ≠ t → s'.status u = s.status u) := by
  have hr : t ∉ (initThread s t prio).readyList := fun hm => hn ((h.mem_ready t).mp hm).1
  have hn' : t ∉ (initThread s t prio).allList := hn
  have hst : ∀ u, (initThread s t prio).status u = if u = t then .ready else s.status u := by
    intro u
    by_cases hu : u = t
    · subst hu
      simp [initThread, hm]
    · simp [initThread, hu]
  refine ⟨{ initThread s t prio with
      readyList := s.readyList ++ [t]
      allList := s.allList ++ [t]
      saved := Function.update s.saved t true },
    by simp only [threadStart, ensure_pos hr, ensure_pos hn']; rfl,
    ⟨?_, ?_, ?_, ?_, ?_, ?_, h.idle_ne_main⟩, rfl, rfl, fun u hu => by simp [hst, hu]⟩
  · exact List.nodup_append.mpr ⟨h.nodup_all, List.nodup_singleton _, by
      intro a ha b hb heq
      subst heq
      exact hn (List.mem_singleton.mp hb ▸ ha)⟩
  · exact List.nodup_append.mpr ⟨h.nodup_ready, List.nodup_singleton _, by
      intro a ha b hb heq
      subst heq
      exact hr (List.mem_singleton.mp hb ▸ ha)⟩
  · intro u
    by_cases hu : u = t
    · subst hu
      simp [hst]
    · simp [hst, hu, h.mem_ready u]
  · intro u hu hru
    by_cases hut : u = t
    · subst hut
      simp [hst] at hru
    · exact h.running_cur u (by simpa [hut] using hu) (by simpa [hst, hut] using hru)
  · exact List.mem_append_left _ h.idle_mem
  · have hi : s.idleThread ≠ t := fun hi => hn (hi ▸ h.idle_mem)
    simpa [initThread, hst, hi] using h.idle_status

/-! ## All runs -/

/-- `thread_init` leaves `main` running and two tasks ready. -/
theorem threadInit_inv {boot : Sched} {init idle : Nat} (h1 : init ≠ boot.cur) (h2 : init ≠ idle)
    (h3 : boot.cur ≠ idle) (h4 : init ≠ boot.mainThread)
    (h : threadInit boot init idle = some s) : s.Inv := by
  have hs : s.readyList = [init, idle] ∧ s.allList = [init, boot.cur, idle] ∧ s.cur = boot.cur ∧
      s.mainThread = boot.cur ∧ s.idleThread = idle ∧ s.status init = .ready ∧
      s.status boot.cur = .running ∧ s.status idle = .ready := by
    simp [threadInit, threadStart, initThread, makeMainThread, ensure, h1.symm, h2.symm,
      h3.symm, h4] at h
    subst h
    simp [h1, h2, h3]
  obtain ⟨hready, hall, hcur, hmain, hidle, hsi, hsm, hsd⟩ := hs
  refine ⟨⟨?_, ?_, ?_, ?_, ?_, ?_, ?_⟩, ?_, ?_⟩
  · simp [hall, h1, h2, h3]
  · simp [hready, h2]
  · intro t
    rw [hready, hall]
    simp only [List.mem_cons, List.not_mem_nil, or_false]
    constructor
    · intro hor
      rcases hor with rfl | rfl
      · exact ⟨.inl rfl, hsi⟩
      · exact ⟨.inr (.inr rfl), hsd⟩
    · intro hin
      obtain ⟨rfl | rfl | rfl, ht⟩ := hin
      · exact .inl rfl
      · rw [hsm] at ht
        cases ht
      · exact .inr rfl
  · intro t ht hrt
    rw [hall] at ht
    simp only [List.mem_cons, List.not_mem_nil, or_false] at ht
    rcases ht with rfl | rfl | rfl
    · rw [hsi] at hrt
      cases hrt
    · exact hcur.symm
    · rw [hsd] at hrt
      cases hrt
  · simp [hidle, hall]
  · exact .inr (.inl (hidle ▸ hsd))
  · rw [hidle, hmain]
    exact h3.symm
  · simp [hcur, hall]
  · rw [hcur, hsm]

/-- Wherever an operation calls `schedule`, it finds what it needs. -/
theorem atSchedule_callable (h : s.Inv) {op : SchedOp} (hmay : s.May op) {c : Sched}
    (hc : s.atSchedule op = some c) : Callable c := by
  cases op with
  | timer =>
    simp only [Sched.atSchedule] at hc
    split at hc
    · cases hc
      exact h.intrDisable
    · cases hc
  | yield =>
    obtain ⟨c', he, hc'⟩ := yieldCur_spec h
    cases he.symm.trans hc
    exact hc'
  | block stat =>
    obtain ⟨c', he, hc'⟩ := blockCur_spec h hmay.1 hmay.2
    cases he.symm.trans hc
    exact hc'
  | exit t needSchedule =>
    cases needSchedule with
    | true =>
      cases hc
      rcases hmay with ⟨_, _, hn⟩ | ⟨rfl, hm, _⟩
      · cases hn
      · exact removeTask_main h hm
    | false => cases hc
  | unblock t => cases hc
  | start t prio => cases hc
  | setIntr on => cases hc

/-- **No operation fails, and each keeps the invariant.** -/
theorem step_inv (h : s.Inv) {op : SchedOp} (hmay : s.May op) :
    ∃ s', s.step op = some s' ∧ s'.Inv := by
  cases op with
  | timer =>
    by_cases ht : s.ticks s.cur = 0
    · obtain ⟨s', hs', hinv⟩ := h.intrDisable.schedule
      exact ⟨s', by rw [Sched.step, intrTimerHandler, if_pos ht, hs'], hinv⟩
    · have hstep : s.step .timer = some { s with
          ticks := Function.update s.ticks s.cur (s.ticks s.cur - 1) } := if_neg ht
      exact ⟨_, hstep, h.toWf.with_clock _ _ _, h.cur_mem, h.cur_running⟩
  | yield =>
    obtain ⟨c, he, hc⟩ := yieldCur_spec h
    obtain ⟨s', hs', hinv⟩ := hc.schedule
    exact ⟨s', by simp [Sched.step, threadYield, he, hs'], hinv⟩
  | block stat =>
    obtain ⟨c, he, hc⟩ := blockCur_spec h hmay.1 hmay.2
    obtain ⟨s', hs', hinv⟩ := hc.schedule
    exact ⟨s', by simp [Sched.step, threadBlock, he, hs'], hinv⟩
  | unblock t =>
    obtain ⟨he, hw⟩ := threadUnblock_spec h.toWf hmay.1 hmay.2
    have hct : s.cur ≠ t := by
      intro heq
      subst heq
      exact hmay.2.ne_running h.cur_running
    exact ⟨_, he, hw, h.cur_mem, by rw [← h.cur_running]; exact Function.update_of_ne hct _ _⟩
  | start t prio =>
    obtain ⟨s', he, hw, hall, hcur, hst⟩ := threadStart_spec h.toWf prio hmay.1 hmay.2
    refine ⟨s', he, hw, ?_, ?_⟩
    · rw [hcur, hall]
      exact List.mem_append_left _ h.cur_mem
    · rw [hcur, hst _ (fun he => hmay.1 (he ▸ h.cur_mem)), h.cur_running]
  | exit t needSchedule =>
    rcases hmay with ⟨_, hh, rfl⟩ | ⟨rfl, hm, rfl⟩
    · exact ⟨_, by simp [Sched.step, threadExit], removeTask_hanging h hh⟩
    · obtain ⟨s', hs', hinv⟩ := (removeTask_main h hm).schedule
      exact ⟨s', by simp [Sched.step, threadExit, hs'], hinv⟩
  | setIntr on =>
    exact ⟨_, rfl, h.toWf.with_clock _ _ _, h.cur_mem, h.cur_running⟩

/-- Every state of every run keeps the invariant. -/
theorem inv_of_reachable (h : schedMachine.Reachable s) : s.Inv := by
  refine Machine.Reach.invariant ?_ ?_ h
  · intro s hin
    obtain ⟨boot, init, idle, h1, h2, h3, h4, hinit⟩ := hin
    exact threadInit_inv h1 h2 h3 h4 hinit
  · intro s op s' hinv hmay _ hstep
    obtain ⟨s₁, he, hinv'⟩ := step_inv hinv hmay
    cases he.symm.trans hstep
    exact hinv'

end

/-- **The scheduler's invariant.** In every state of every run from
`thread_init`: one task is running, the current one; `thread_ready_list` holds
each ready task once and nothing else; every operation that may follow gets
through all its assertions; and where it calls `schedule`, and that finds nothing
ready, the idle thread is blocked and can be woken up. -/
theorem scheduler_invariant (s : Sched) (h : schedMachine.Reachable s) :
    (s.cur ∈ s.allList ∧ ∀ t ∈ s.allList, s.status t = .running ↔ t = s.cur) ∧
      (∀ t, s.readyList.count t = if t ∈ s.allList ∧ s.status t = .ready then 1 else 0) ∧
      (∀ op, s.May op → (s.step op).isSome) ∧
      (∀ op c, s.May op → s.atSchedule op = some c → ∃ c', requeue c = some c' ∧
        (c'.readyList = [] → c'.status c'.idleThread = .blocked)) := by
  have hinv := inv_of_reachable h
  refine ⟨⟨hinv.cur_mem, fun t ht => ⟨hinv.running_cur t ht, ?_⟩⟩, ?_, ?_, ?_⟩
  · intro heq
    subst heq
    exact hinv.cur_running
  · intro t
    by_cases ht : t ∈ s.readyList
    · rw [if_pos ((hinv.mem_ready t).mp ht)]
      exact List.count_eq_one_of_mem hinv.nodup_ready ht
    · rw [if_neg fun hr => ht ((hinv.mem_ready t).mpr hr)]
      exact List.count_eq_zero.mpr ht
  · intro op hmay
    obtain ⟨s', hs', -⟩ := step_inv hinv hmay
    rw [hs']
    rfl
  · intro op c hmay hc
    have hcall := atSchedule_callable hinv hmay hc
    obtain ⟨c', hc', hw, hr, -⟩ := requeue_spec hcall.toWf hcall.cur_mem
    exact ⟨c', hc', hw.idle_blocked hr⟩

/-- The kernel's stack before `thread_init`. -/
def bootSched : Sched where
  status := fun _ => .died
  ticks := fun _ => 0
  priority := fun _ => 0
  readyList := []
  allList := []
  cur := 0xc009e000
  mainThread := 0
  idleThread := 0
  intrOn := false
  saved := fun _ => false

/-- Right after `thread_init`, `main` is the one that runs. -/
theorem scheduler_invariant_boot :
    ∃ s, threadInit bootSched 0xc0100000 0xc0106000 = some s ∧ s.readyList.count 0xc0106000 = 1 ∧
      ∀ t ∈ s.allList, s.status t = .running ↔ t = 0xc009e000 := by
  have hsome : (threadInit bootSched 0xc0100000 0xc0106000).map
      (fun s => (s.cur, s.readyList.count 0xc0106000)) = some (0xc009e000, 1) := by decide +kernel
  obtain ⟨s, hs, hcur⟩ := Option.map_eq_some_iff.mp hsome
  have hreach : schedMachine.Reachable s := Machine.Reach.start
    ⟨bootSched, 0xc0100000, 0xc0106000, by decide, by decide, by decide, by decide, hs⟩
  have hinv := scheduler_invariant s hreach
  have hcur' : s.cur = 0xc009e000 := congrArg Prod.fst hcur
  exact ⟨s, hs, congrArg Prod.snd hcur, hcur' ▸ hinv.1.2⟩

end OsCore.Thread
