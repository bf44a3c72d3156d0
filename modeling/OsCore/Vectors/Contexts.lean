import OsCore.Vectors.Syscall
import OsCore.Lib.Machine
import OsCore.Vectors.UserFrames

/-!
# Programs keep their registers

The processor, its kernel stacks and all tasks together: programs run in ring 3,
interrupts and system calls take them into the kernel, the kernel switches
between tasks wherever it calls `schedule`, forks, replaces and starts programs,
and goes back to ring 3.

What that is for is in `Contexts`: every program has registers of its own, which
only it changes itself, but for the result of a system call; and a task that is
not running has a place in the kernel where it goes on. `programs_keep_registers`
says that the machine code and the stacks implement that, in every run: between
two instructions of a program anything may happen.

The C code of the kernel is any code that leaves two things alone: the stacks of
the other tasks, as far as they are in use, and the frame at the upper end of its
own (`Act.kernel`). It may write to every PCB behind the first word. An interrupt of
kernel code is part of it: its frame is on the stack of that code.

`start_process` relies on the word `thread_create` has put into the PCB, which a
switch overwrites. So it must not have been interrupted before; the start of a
program is a step only in that case.
-/

namespace OsCore.Userprog

open Kernel Lib Thread

/-! ## States and steps -/

/-- Addresses the linker has chosen: of `kernel_thread`, of `intr_exit`, and behind the
call of `switch_to` in `schedule`. -/
structure Code where
  kernelThread : Nat
  intrExit : Nat
  schedule : Nat

structure Tasking where
  cpu : Cpu
  /-- the PCB of the running task -/
  cur : Nat
  /-- the PCBs of all tasks -/
  tasks : List Nat
  /-- `pgdir` is not `NULL` -/
  process : Nat → Bool

/-- What the stacks are for: the registers of each program, and where each task that
does not run goes on. -/
structure Contexts where
  frame : Nat → Option Regs
  resume : Nat → Kcontext

inductive Act
  /-- the program runs -/
  | user (r : Regs)
  | interrupt (vec : Nat) (errCode : Option Nat)
  | syscall
  /-- C code of the kernel runs -/
  | kernel (cpu : Cpu)
  /-- `intr_exit`, behind a handler -/
  | leave
  /-- the function of a system call has returned -/
  | sysret
  /-- the end of `schedule` -/
  | schedule (next : Nat)
  /-- `init_thread` and `thread_create` on a new page -/
  | spawn (t function funcArg : Nat) (process : Bool)
  /-- `start_process` -/
  | start (function page : Nat)
  /-- the stack of a new task in `sys_fork` -/
  | fork (child : Nat)
  /-- the end of `sys_execv` -/
  | execv (argv argc entryPoint : Nat)
  /-- the page of a task is given back -/
  | reap (t : Nat)

/-- `process_activate`, as far as the TSS goes. -/
def processActivate (w : Tasking) (t : Nat) : Cpu :=
  if w.process t then updateTssEsp w.cpu t else w.cpu

def Tasking.step (code : Code) (w : Tasking) : Act → Tasking
  | .user r => { w with cpu := { w.cpu with toRegs := r } }
  | .interrupt vec errCode => { w with cpu := (w.cpu.trap errCode).entry vec }
  | .syscall => { w with cpu := (w.cpu.trap none).syscallEntry }
  | .kernel cpu => { w with cpu }
  | .leave => { w with cpu := w.cpu.intrExit }
  | .sysret => { w with cpu := w.cpu.syscallReturn }
  | .schedule next =>
    { w with cpu := callSwitchTo (processActivate w next) w.cur next code.schedule, cur := next }
  | .spawn t function funcArg process => { w with
      cpu := { w.cpu with
        mem := threadCreate code.kernelThread (initKstack w.cpu.mem t) t function funcArg }
      tasks := t :: w.tasks
      process := Function.update w.process t process }
  | .start function page => { w with cpu := startProcess w.cpu w.cur function page }
  | .fork child => { w with
      cpu := { w.cpu with
        mem := buildChildStack code.intrExit (copyPage w.cpu.mem child w.cur) child }
      tasks := child :: w.tasks
      process := Function.update w.process child true }
  | .execv argv argc entryPoint => { w with cpu := execvExit w.cpu w.cur argv argc entryPoint }
  | .reap t => { w with tasks := w.tasks.filter (· ≠ t) }

/-- What is to come of it for the programs and the tasks. -/
def Contexts.step (code : Code) (w : Tasking) (c : Contexts) : Act → Contexts
  | .user r => { c with frame := Function.update c.frame w.cur (some r) }
  | .sysret => { c with
      frame := Function.update c.frame w.cur
        ((c.frame w.cur).map fun r => { r with eax := w.cpu.eax }) }
  | .schedule _ => { c with
      resume := Function.update c.resume w.cur (afterCall w.cpu code.schedule) }
  | .spawn t _ _ _ => { c with
      frame := Function.update c.frame t none
      resume := Function.update c.resume t (freshContext code.kernelThread t) }
  | .start function page => { c with
      frame := Function.update c.frame w.cur (some (startRegs function page)) }
  | .fork child => { c with
      frame := Function.update c.frame child ((c.frame w.cur).map fun r => { r with eax := 0 })
      resume := Function.update c.resume child ⟨code.intrExit, intr0Stack child, 0, 0, 0, 0⟩ }
  | .execv argv argc entryPoint => { c with
      frame := Function.update c.frame w.cur ((c.frame w.cur).map fun r =>
        { r with ebx := argv, ecx := argc, eip := entryPoint, esp := 0xc0000000 }) }
  | .interrupt .. | .syscall | .kernel _ | .leave | .reap _ => c

/-- Ring 3. -/
def Tasking.InUser (w : Tasking) : Prop := w.cpu.cs % 4 = 3

instance (w : Tasking) : Decidable w.InUser := inferInstanceAs (Decidable (w.cpu.cs % 4 = 3))

/-- Where the kernel stack of the task at `t` ends: below the frame, if there is one. -/
def kstackEnd (t : Nat) (frame : Option Regs) : Nat :=
  if frame.isSome then t + 4020 else t + pgSize - 1

/-- What kernel code must leave alone: the stacks of the other tasks with the pointers
to them, and the frame of its own. -/
def OffLimits (w : Tasking) (c : Contexts) (b : Nat) : Prop :=
  (∃ t ∈ w.tasks, t ≠ w.cur ∧ (b = t ∨ (w.cpu.mem t ≤ b ∧ b < t + pgSize))) ∨
    ((c.frame w.cur).isSome ∧ w.cur + 4020 ≤ b ∧ b < w.cur + pgSize)

/-- A page for a new task. -/
def NewPage (w : Tasking) (t : Nat) : Prop := t % pgSize = 0 ∧ t ∉ w.tasks

/-- Which steps there are. -/
def Tasking.May (w : Tasking) (c : Contexts) : Act → Prop
  | .user r => w.InUser ∧ r.cs % 4 = 3
  | .interrupt vec errCode => w.InUser ∧ (errCode.isSome ↔ vec ∈ errorCodeVectors)
  | .syscall => w.InUser
  | .kernel cpu => ¬w.InUser ∧ cpu.cs = w.cpu.cs ∧ cpu.esp0 = w.cpu.esp0 ∧
      w.cur + taskStructSize ≤ cpu.esp ∧ cpu.esp ≤ kstackEnd w.cur (c.frame w.cur) ∧
        ∀ b, OffLimits w c b → cpu.mem b = w.cpu.mem b
  | .leave => ¬w.InUser ∧ (c.frame w.cur).isSome ∧ w.cpu.esp = intr0Stack w.cur
  | .sysret => ¬w.InUser ∧ (c.frame w.cur).isSome ∧ w.cpu.esp = intr0Stack w.cur - 12
  | .schedule next => ¬w.InUser ∧ next ∈ w.tasks ∧ w.cur + taskStructSize + 28 ≤ w.cpu.esp
  | .spawn t _ _ _ => ¬w.InUser ∧ NewPage w t
  | .start _ _ => ¬w.InUser ∧ w.process w.cur ∧ c.frame w.cur = none ∧
      w.cpu.mem w.cur = w.cur + 3988
  | .fork child => ¬w.InUser ∧ (c.frame w.cur).isSome ∧ NewPage w child
  | .execv _ _ _ => ¬w.InUser ∧ (c.frame w.cur).isSome
  | .reap t => ¬w.InUser ∧ t ≠ w.cur

/-- A task that does not run goes on at `k`, and comes back to the program through
the frame. -/
structure Parked (mem : Nat → Nat) (t : Nat) (k : Kcontext) (frame : Option Regs) : Prop where
  saved : Saved mem t k
  low : t + taskStructSize ≤ mem t
  high : mem t + 20 ≤ kstackEnd t frame
  framed : ∀ r ∈ frame, Framed mem t r

structure Inv (w : Tasking) (c : Contexts) : Prop where
  cur_mem : w.cur ∈ w.tasks
  page : ∀ t ∈ w.tasks, t % pgSize = 0
  esp0 : w.process w.cur = true → w.cpu.esp0 = w.cur + pgSize
  frames : ∀ t ∈ w.tasks, ∀ r ∈ c.frame t, r.cs % 4 = 3 ∧ w.process t = true
  user : w.InUser → c.frame w.cur = some w.cpu.toRegs
  low : ¬w.InUser → w.cur + taskStructSize ≤ w.cpu.esp
  high : ¬w.InUser → w.cpu.esp ≤ kstackEnd w.cur (c.frame w.cur)
  framed : ¬w.InUser → ∀ r ∈ c.frame w.cur, Framed w.cpu.mem w.cur r
  parked : ∀ t ∈ w.tasks, t ≠ w.cur → Parked w.cpu.mem t (c.resume t) (c.frame t)

section

variable {w : Tasking} {c : Contexts} {code : Code} {mem mem' : Nat → Nat} {t cur : Nat}
  {k : Kcontext} {frame : Option Regs} {r : Regs}

theorem kstackEnd_lt (t : Nat) (frame : Option Regs) : kstackEnd t frame < t + pgSize := by
  unfold kstackEnd pgSize
  split <;> omega

theorem kstackEnd_le (h : frame.isSome) : kstackEnd t frame = t + 4020 := if_pos h

theorem Parked.congr (h : Parked mem t k frame)
    (hm : ∀ b, b = t ∨ (mem t ≤ b ∧ b < t + pgSize) → mem' b = mem b) :
    Parked mem' t k frame := by
  have ht : mem' t = mem t := hm t (Or.inl rfl)
  have hend := kstackEnd_lt t frame
  have hhigh := h.high
  refine ⟨h.saved.congr ht fun b hb hlt => hm b (Or.inr ⟨hb, by omega⟩), ?_, ?_, fun r hr => ?_⟩
  · rw [ht]
    exact h.low
  · rw [ht]
    exact hhigh
  · have hle : kstackEnd t frame = t + 4020 := kstackEnd_le (by rw [hr]; rfl)
    exact (h.framed r hr).congr fun b hb hlt => hm b (Or.inr ⟨by omega, hlt⟩)

/-- Pages do not overlap. -/
theorem page_apart (ht : t % pgSize = 0) (hc : cur % pgSize = 0) (hne : t ≠ cur) {b : Nat}
    (hb : t ≤ b) (hlt : b < t + pgSize) : ¬(cur ≤ b ∧ b < cur + pgSize) := by
  unfold pgSize at *
  omega

/-- What is written in another page does not matter. -/
theorem Parked.other (h : Parked mem t k frame) (ht : t % pgSize = 0) (hc : cur % pgSize = 0)
    (hne : t ≠ cur) (hm : ∀ b, ¬(cur ≤ b ∧ b < cur + pgSize) → mem' b = mem b) :
    Parked mem' t k frame := by
  apply h.congr
  rintro b (rfl | ⟨hb, hlt⟩)
  · exact hm b (page_apart ht hc hne (Nat.le_refl _) (by unfold pgSize; omega))
  · have := h.low
    exact hm b (page_apart ht hc hne (by omega) hlt)

/-! ## Into the kernel -/

/-- What an interrupt or a system call in ring 3 leaves in the kernel for the task
at `t`. -/
structure InKernel (s s' : Cpu) (t esp : Nat) : Prop where
  framed : Framed s'.mem t s.toRegs
  esp : s'.esp = esp
  cs : s'.cs % 4 ≠ 3
  esp0 : s'.esp0 = s.esp0
  mem : ∀ b, ¬(t ≤ b ∧ b < t + pgSize) → s'.mem b = s.mem b

theorem inKernel_interrupt {s : Cpu} {vec : Nat} {errCode : Option Nat} (hring : s.cs % 4 = 3)
    (hesp0 : s.esp0 = t + pgSize) (hcode : errCode.isSome ↔ vec ∈ errorCodeVectors) :
    InKernel s ((s.trap errCode).entry vec) t (t + 4020) := by
  have htop : s.stackTop = s.esp0 := if_pos hring
  have houter : s.outer = [s.esp, s.ss] := if_pos hring
  have hsize : pgSize = 4096 := rfl
  obtain ⟨espDummy, hstack, hplace, -, hcs, htss, hmem⟩ :=
    trap_entry_stacked s errCode vec (by omega)
  -- the stub and the processor have put one word into the place of the error code
  obtain ⟨word, hword⟩ : ∃ word, zeroWord vec ++ errCode.toList = [word] := by
    unfold zeroWord
    cases errCode with
    | none => exact ⟨0, by rw [if_neg fun h => by simp [h] at hcode]; rfl⟩
    | some e => exact ⟨e, by rw [if_pos (hcode.mp rfl)]; rfl⟩
  have hone := congrArg List.length hword
  rw [List.length_append, List.length_singleton] at hone
  have houter2 : s.outer.length = 2 := congrArg List.length houter
  have hesp : ((s.trap errCode).entry vec).esp = t + 4020 := by omega
  rw [← List.append_assoc (zeroWord vec), hword, hesp, houter] at hstack
  refine ⟨⟨vec, espDummy, word, ?_⟩, hesp, ?_, htss, fun b hb => hmem b (by omega)⟩
  · rw [intr0Stack_eq]
    exact hstack
  · rw [hcs]
    decide

theorem inKernel_syscall {s : Cpu} (hring : s.cs % 4 = 3) (hesp0 : s.esp0 = t + pgSize) :
    InKernel s (s.trap none).syscallEntry t (t + 4008) := by
  have hsize : pgSize = 4096 := rfl
  obtain ⟨espDummy, hstack, hesp, -, hcs, htss, hmem⟩ := syscall_stacked hring (by omega)
  have hplace : (s.trap none).syscallEntry.esp = t + 4008 := by omega
  refine ⟨⟨0x80, espDummy, 0, ?_⟩, hplace, ?_, htss, fun b hb => hmem b (by omega)⟩
  · have hframe := (stacked_append.mp hstack).2
    rw [hplace] at hframe
    rw [intr0Stack_eq]
    exact hframe
  · rw [hcs]
    decide

/-! ## One step -/

/-- A step of the running task that stays the running one. -/
theorem Inv.run (h : Inv w c) {cpu : Cpu}
    (hother : ∀ t ∈ w.tasks, t ≠ w.cur → ∀ b, b = t ∨ (w.cpu.mem t ≤ b ∧ b < t + pgSize) →
      cpu.mem b = w.cpu.mem b)
    (hesp0 : cpu.esp0 = w.cpu.esp0) (hframe : ∀ r ∈ frame, r.cs % 4 = 3 ∧ w.process w.cur = true)
    (huser : cpu.cs % 4 = 3 → frame = some cpu.toRegs)
    (hkernel : cpu.cs % 4 ≠ 3 → w.cur + taskStructSize ≤ cpu.esp ∧ cpu.esp ≤ kstackEnd w.cur frame ∧
      ∀ r ∈ frame, Framed cpu.mem w.cur r) :
    Inv { w with cpu } { c with frame := Function.update c.frame w.cur frame } where
  cur_mem := h.cur_mem
  page := h.page
  esp0 hp := hesp0.trans (h.esp0 hp)
  frames t ht r hr := by
    by_cases htc : t = w.cur
    · subst htc
      exact hframe r (by simpa using hr)
    · exact h.frames t ht r (by simpa [htc] using hr)
  user hu := (Function.update_self _ _ _).trans (huser hu)
  low hk := (hkernel hk).1
  high hk := by
    simp only [Function.update_self]
    exact (hkernel hk).2.1
  framed hk r hr := (hkernel hk).2.2 r (by simpa using hr)
  parked t ht htc := by
    simp only [Function.update_of_ne htc]
    exact (h.parked t ht htc).congr (hother t ht htc)

/-- The addresses that keep another task are not in the page of the running one. -/
theorem Inv.outside (h : Inv w c) (ht : t ∈ w.tasks) (hne : t ≠ w.cur) {b : Nat}
    (hb : b = t ∨ (w.cpu.mem t ≤ b ∧ b < t + pgSize)) : ¬(w.cur ≤ b ∧ b < w.cur + pgSize) := by
  have hpage := page_apart (h.page t ht) (h.page _ h.cur_mem) hne (b := b)
  have hlow := (h.parked t ht hne).low
  have hsize : pgSize = 4096 := rfl
  rcases hb with rfl | ⟨hb, hlt⟩
  · exact hpage (Nat.le_refl _) (by omega)
  · exact hpage (by omega) hlt

/-- So is a step that writes only there. -/
theorem Inv.run_page (h : Inv w c) {cpu : Cpu}
    (hmem : ∀ b, ¬(w.cur ≤ b ∧ b < w.cur + pgSize) → cpu.mem b = w.cpu.mem b)
    (hesp0 : cpu.esp0 = w.cpu.esp0) (hframe : ∀ r ∈ frame, r.cs % 4 = 3 ∧ w.process w.cur = true)
    (huser : cpu.cs % 4 = 3 → frame = some cpu.toRegs)
    (hkernel : cpu.cs % 4 ≠ 3 → w.cur + taskStructSize ≤ cpu.esp ∧ cpu.esp ≤ kstackEnd w.cur frame ∧
      ∀ r ∈ frame, Framed cpu.mem w.cur r) :
    Inv { w with cpu } { c with frame := Function.update c.frame w.cur frame } :=
  h.run (fun _ ht hne _ hb => hmem _ (h.outside ht hne hb)) hesp0 hframe huser hkernel

/-- The contexts do not change. -/
theorem Contexts.same (c : Contexts) (t : Nat) :
    { c with frame := Function.update c.frame t (c.frame t) } = c := by
  rw [Function.update_eq_self]

theorem Inv.enter (h : Inv w c) (hu : w.InUser) {cpu : Cpu} {esp : Nat}
    (he : InKernel w.cpu cpu w.cur esp) (hlow : w.cur + taskStructSize ≤ esp)
    (hhigh : esp ≤ w.cur + 4020) : Inv { w with cpu } c := by
  have hsome := h.user hu
  have hinv := h.run_page he.mem he.esp0 (h.frames _ h.cur_mem) (fun hring => absurd hring he.cs)
    fun _ => by
      refine ⟨by rw [he.esp]; exact hlow, ?_, fun r hr => ?_⟩
      · rw [he.esp, kstackEnd_le (by rw [hsome]; rfl)]
        exact hhigh
      · rw [hsome] at hr
        obtain rfl := Option.mem_some_iff.mp hr
        exact he.framed
  rwa [Contexts.same] at hinv

/-- The way out, with a frame that stands for `r`. -/
theorem Inv.exit (h : Inv w c) {cpu : Cpu}
    (hmem : ∀ b, ¬(w.cur ≤ b ∧ b < w.cur + pgSize) → cpu.mem b = w.cpu.mem b)
    (hesp0 : cpu.esp0 = w.cpu.esp0) (hring : r.cs % 4 = 3) (hp : w.process w.cur = true)
    (hf : Framed cpu.mem w.cur r) (hesp : cpu.esp = intr0Stack w.cur) :
    Inv { w with cpu := cpu.intrExit }
      { c with frame := Function.update c.frame w.cur (some r) } := by
  obtain ⟨hsame, hesp0'⟩ := hf.intrExit_mem hesp
  have hregs := hf.intrExit_eq hesp hring
  apply h.run_page
  · intro b hb
    rw [hsame]
    exact hmem b hb
  · exact hesp0'.trans hesp0
  · intro r' hr'
    obtain rfl := Option.mem_some_iff.mp hr'
    exact ⟨hring, hp⟩
  · intro _
    rw [hregs]
  · intro hk
    rw [hregs] at hk
    exact absurd hring hk

theorem Inv.framed_cur (h : Inv w c) (hk : ¬w.InUser) (hs : (c.frame w.cur).isSome) :
    ∃ r, c.frame w.cur = some r ∧ Framed w.cpu.mem w.cur r ∧ r.cs % 4 = 3 ∧
      w.process w.cur = true := by
  obtain ⟨r, hr⟩ := Option.isSome_iff_exists.mp hs
  exact ⟨r, hr, h.framed hk r hr, h.frames _ h.cur_mem r hr⟩

/-- `eax` in the frame. -/
theorem Framed.setEax (h : Framed mem t r) (v : Nat) :
    Framed (Function.update mem (intr0Stack t + 32) v) t { r with eax := v } := by
  obtain ⟨vecNo, espDummy, errCode, hf⟩ := h
  exact ⟨vecNo, espDummy, errCode, hf.set (w := v) 8 (by simp [frame_length])⟩

theorem Inv.leave (h : Inv w c) (hk : ¬w.InUser) (hs : (c.frame w.cur).isSome)
    (hesp : w.cpu.esp = intr0Stack w.cur) : Inv { w with cpu := w.cpu.intrExit } c := by
  obtain ⟨r, hr, hf, hring, hp⟩ := h.framed_cur hk hs
  have hinv := h.exit (fun _ _ => rfl) rfl hring hp hf hesp
  rwa [← hr, Contexts.same] at hinv

theorem Inv.sysret (h : Inv w c) (hk : ¬w.InUser) (hs : (c.frame w.cur).isSome)
    (hesp : w.cpu.esp = intr0Stack w.cur - 12) : Inv (w.step code .sysret) (c.step code w .sysret) := by
  obtain ⟨r, hr, hf, hring, hp⟩ := h.framed_cur hk hs
  have hplace : w.cpu.esp + 12 = intr0Stack w.cur := by
    rw [intr0Stack_eq] at hesp ⊢
    omega
  have hset := hf.setEax w.cpu.eax
  rw [← hplace] at hset
  have hinv : Inv { w with cpu := Cpu.intrExit { w.cpu with
      esp := w.cpu.esp + 12
      mem := Function.update w.cpu.mem (w.cpu.esp + 12 + 32) w.cpu.eax } }
      { c with frame := Function.update c.frame w.cur (some { r with eax := w.cpu.eax }) } := by
    refine h.exit (fun b hb => Function.update_of_ne ?_ _ _) rfl hring hp hset hplace
    have hsize : pgSize = 4096 := rfl
    rw [intr0Stack_eq] at hplace
    omega
  rw [Tasking.step, Contexts.step, hr]
  exact hinv

theorem Inv.start (h : Inv w c) (hp : w.process w.cur = true)
    (hself : w.cpu.mem w.cur = w.cur + 3988) (function page : Nat) :
    Inv (w.step code (.start function page)) (c.step code w (.start function page)) := by
  have hring : (startRegs function page).cs % 4 = 3 := show selectorUCode % 4 = 3 by decide
  have hinv : Inv { w with cpu := Cpu.intrExit { w.cpu with
      mem := storeFields (Function.update w.cpu.mem w.cur (intr0Stack w.cur)) (intr0Stack w.cur)
        (startFields function page)
      esp := intr0Stack w.cur } }
      { c with frame := Function.update c.frame w.cur (some (startRegs function page)) } := by
    refine h.exit (fun b hb => ?_) rfl hring hp ⟨_, _, _, storeFields_start _ _ function page⟩ rfl
    have hsize : pgSize = 4096 := rfl
    refine (storeFields_mem (by unfold startFields; simp [IntrStack.size]) ?_).trans
      (Function.update_of_ne (by omega) _ _)
    rw [intr0Stack_eq]
    unfold IntrStack.size
    omega
  rw [Tasking.step, Contexts.step, startProcess_eq hself]
  exact hinv

theorem Inv.execv (h : Inv w c) (hk : ¬w.InUser) (hs : (c.frame w.cur).isSome)
    (argv argc entryPoint : Nat) : Inv (w.step code (.execv argv argc entryPoint))
      (c.step code w (.execv argv argc entryPoint)) := by
  obtain ⟨r, hr, hf, hring, hp⟩ := h.framed_cur hk hs
  have hinv : Inv { w with cpu := Cpu.intrExit { w.cpu with
      mem := storeFields w.cpu.mem (intr0Stack w.cur) (execvFields argv argc entryPoint)
      esp := intr0Stack w.cur } }
      { c with
        frame := Function.update c.frame w.cur
          (some { r with ebx := argv, ecx := argc, eip := entryPoint, esp := 0xc0000000 }) } := by
    refine h.exit (fun b hb => ?_) rfl hring hp (execvFields_framed hf argv argc entryPoint) rfl
    have hsize : pgSize = 4096 := rfl
    refine storeFields_mem (by unfold execvFields; simp [IntrStack.size]) ?_
    rw [intr0Stack_eq]
    unfold IntrStack.size
    omega
  rw [Tasking.step, Contexts.step, hr]
  exact hinv

theorem Inv.kernel (h : Inv w c) {cpu : Cpu} (hk : ¬w.InUser) (hcs : cpu.cs = w.cpu.cs)
    (hesp0 : cpu.esp0 = w.cpu.esp0) (hlow : w.cur + taskStructSize ≤ cpu.esp)
    (hhigh : cpu.esp ≤ kstackEnd w.cur (c.frame w.cur))
    (hmem : ∀ b, OffLimits w c b → cpu.mem b = w.cpu.mem b) : Inv { w with cpu } c := by
  have hring : cpu.cs % 4 ≠ 3 := by
    rw [hcs]
    exact hk
  have hinv := h.run (fun t ht hne b hb => hmem b (Or.inl ⟨t, ht, hne, hb⟩)) hesp0
    (h.frames _ h.cur_mem) (fun hu => absurd hu hring) fun _ =>
      ⟨hlow, hhigh, fun r hr => (h.framed hk r hr).congr fun b hb hlt =>
        hmem b (Or.inr ⟨by rw [hr]; rfl, hb, hlt⟩)⟩
  rwa [Contexts.same] at hinv

theorem Inv.reap (h : Inv w c) (hne : t ≠ w.cur) :
    Inv { w with tasks := w.tasks.filter (· ≠ t) } c where
  cur_mem := List.mem_filter.mpr ⟨h.cur_mem, by simpa using hne.symm⟩
  page u hu := h.page u (List.mem_filter.mp hu).1
  esp0 := h.esp0
  frames u hu := h.frames u (List.mem_filter.mp hu).1
  user := h.user
  low := h.low
  high := h.high
  framed := h.framed
  parked u hu := h.parked u (List.mem_filter.mp hu).1

/-- Another task is made, on a page that is free. -/
theorem Inv.add (h : Inv w c) (hk : ¬w.InUser) (hnew : NewPage w t) {p : Bool}
    (hmem : ∀ b, b < t ∨ t + pgSize ≤ b → mem b = w.cpu.mem b) (hp : frame.isSome → p = true)
    (hring : ∀ r ∈ frame, r.cs % 4 = 3) (hparked : Parked mem t k frame) :
    Inv { w with
      cpu := { w.cpu with mem }
      tasks := t :: w.tasks
      process := Function.update w.process t p }
    { frame := Function.update c.frame t frame, resume := Function.update c.resume t k } := by
  have hne : ∀ u ∈ w.tasks, u ≠ t := fun u hu heq => hnew.2 (heq ▸ hu)
  have hcur := hne _ h.cur_mem
  have hout : ∀ u ∈ w.tasks, ∀ b, u ≤ b → b < u + pgSize → mem b = w.cpu.mem b := fun u hu b hb hlt =>
    hmem b (by have := page_apart (h.page u hu) hnew.1 (hne u hu) hb hlt; omega)
  refine ⟨List.mem_cons_of_mem _ h.cur_mem, ?_, ?_, ?_, ?_, h.low, ?_, ?_, ?_⟩
  · intro u hu
    rcases List.mem_cons.mp hu with rfl | hu
    · exact hnew.1
    · exact h.page u hu
  · intro hpc
    simp only [Function.update_of_ne hcur] at hpc
    exact h.esp0 hpc
  · intro u hu r hr
    rcases List.mem_cons.mp hu with rfl | hu
    · simp only [Function.update_self] at hr ⊢
      exact ⟨hring r hr, hp (by rw [hr]; rfl)⟩
    · simp only [Function.update_of_ne (hne u hu)] at hr ⊢
      exact h.frames u hu r hr
  · intro hu
    exact absurd hu hk
  · simp only [Function.update_of_ne hcur]
    exact h.high
  · intro _ r hr
    simp only [Function.update_of_ne hcur] at hr
    exact (h.framed hk r hr).congr fun b hb hlt => hout _ h.cur_mem b (by omega) hlt
  · intro u hu huc
    rcases List.mem_cons.mp hu with rfl | hu
    · simp only [Function.update_self]
      exact hparked
    · simp only [Function.update_of_ne (hne u hu)]
      have hp := h.parked u hu huc
      have hlow := hp.low
      apply hp.congr
      rintro b (rfl | ⟨hb, hlt⟩)
      · exact hout _ hu _ (Nat.le_refl _) (by unfold pgSize; omega)
      · exact hout _ hu _ (by omega) hlt

theorem Inv.spawn (h : Inv w c) (hk : ¬w.InUser) (hnew : NewPage w t) (function funcArg : Nat)
    (p : Bool) : Inv (w.step code (.spawn t function funcArg p))
      (c.step code w (.spawn t function funcArg p)) := by
  have hsaved : Saved (threadCreate code.kernelThread (initKstack w.cpu.mem t) t function funcArg) t
      (freshContext code.kernelThread t) := threadCreate_saved.1
  have hesp : t + 4008 = _ + 20 := hsaved.esp
  refine h.add hk hnew (fun b hb => threadCreate_mem hb) (fun hs => (by cases hs))
    (fun r hr => (by cases hr)) ⟨hsaved, ?_, ?_, fun r hr => (by cases hr)⟩
  · unfold taskStructSize
    omega
  · show _ ≤ t + pgSize - 1
    unfold pgSize
    omega

theorem Inv.fork (h : Inv w c) (hk : ¬w.InUser) (hs : (c.frame w.cur).isSome) (hnew : NewPage w t) :
    Inv (w.step code (.fork t)) (c.step code w (.fork t)) := by
  obtain ⟨r, hr, hf, hring, hp⟩ := h.framed_cur hk hs
  obtain ⟨hframed, hsaved⟩ :
      Framed (buildChildStack code.intrExit (copyPage w.cpu.mem t w.cur) t) t { r with eax := 0 } ∧
        Saved _ t ⟨code.intrExit, intr0Stack t, 0, 0, 0, 0⟩ := buildChildStack_spec hf
  have hesp : intr0Stack t = _ + 20 := hsaved.esp
  rw [intr0Stack_eq] at hesp
  rw [Tasking.step, Contexts.step, hr]
  refine h.add hk hnew (fun b hb => buildChildStack_mem hb) (fun _ => rfl) ?_ ⟨hsaved, ?_, ?_, ?_⟩
  · intro r' hr'
    obtain rfl := Option.mem_some_iff.mp hr'
    exact hring
  · unfold taskStructSize
    omega
  · show _ ≤ t + 4020
    omega
  · intro r' hr'
    obtain rfl := Option.mem_some_iff.mp hr'
    exact hframed

/-! ## A switch -/

/-- The processor at the call of `switch_to` is as in `schedule`, but for the TSS. -/
theorem processActivate_eq (w : Tasking) (t : Nat) :
    ∃ esp0, processActivate w t = { w.cpu with esp0 } ∧
      (w.process t = true → esp0 = t + pgSize) := by
  unfold processActivate
  split
  · exact ⟨_, rfl, fun _ => rfl⟩
  · next hp => exact ⟨_, rfl, fun h => absurd h hp⟩

/-- **After a switch every task is kept, the one that was left included.** -/
theorem Inv.parked_all (h : Inv w c) (hk : ¬w.InUser) (hroom : w.cur + taskStructSize + 28 ≤ w.cpu.esp)
    (next ret : Nat) : ∀ t ∈ w.tasks,
      Parked (callSwitchTo (processActivate w next) w.cur next ret).mem t
        (Function.update c.resume w.cur (afterCall w.cpu ret) t) (c.frame t) := by
  obtain ⟨esp0, hcpu, -⟩ := processActivate_eq w next
  have hroom' : w.cur + taskStructSize + 28 ≤ (processActivate w next).esp := by
    rw [hcpu]
    exact hroom
  have hhigh := h.high hk
  have hend := kstackEnd_lt w.cur (c.frame w.cur)
  have hsize : pgSize = 4096 := rfl
  have hkeep : ∀ b, b ≠ w.cur → b < w.cpu.esp - 28 ∨ w.cpu.esp ≤ b →
      (callSwitchTo (processActivate w next) w.cur next ret).mem b = w.cpu.mem b := by
    intro b hb hout
    rw [callSwitchTo_mem hroom' hb (by rw [hcpu]; exact hout), hcpu]
  intro t ht
  by_cases htc : t = w.cur
  · subst htc
    have hsaves := callSwitchTo_saves next ret hroom'
    have hafter : afterCall (processActivate w next) ret = afterCall w.cpu ret := by rw [hcpu]; rfl
    rw [hafter] at hsaves
    have hesp : w.cpu.esp - 8 = _ + 20 := hsaves.esp
    rw [Function.update_self]
    refine ⟨hsaves, by omega, by omega, fun r hr => (h.framed hk r hr).congr fun b hb hlt => ?_⟩
    have hle : kstackEnd w.cur (c.frame w.cur) = w.cur + 4020 := kstackEnd_le (by rw [hr]; rfl)
    exact hkeep b (by omega) (Or.inr (by omega))
  · rw [Function.update_of_ne htc]
    refine (h.parked t ht htc).other (h.page t ht) (h.page _ h.cur_mem) htc fun b hb => ?_
    unfold taskStructSize at hroom
    exact hkeep b (by omega) (by omega)

theorem Inv.schedule (h : Inv w c) (hk : ¬w.InUser)
    (hroom : w.cur + taskStructSize + 28 ≤ w.cpu.esp) {next : Nat} (hnext : next ∈ w.tasks) :
    Inv (w.step code (.schedule next)) (c.step code w (.schedule next)) ∧
      kcontext (w.step code (.schedule next)).cpu =
        (c.step code w (.schedule next)).resume next := by
  obtain ⟨esp0, hcpu, hesp0⟩ := processActivate_eq w next
  have hroom' : w.cur + taskStructSize + 28 ≤ (processActivate w next).esp := by
    rw [hcpu]
    exact hroom
  have hall := h.parked_all hk hroom next code.schedule
  have hresumes := callSwitchTo_resumes hroom' (hall next hnext).saved
  have heq := callSwitchTo_eq next code.schedule hroom'
  have hesp : (callSwitchTo (processActivate w next) w.cur next code.schedule).esp =
      (callSwitchTo (processActivate w next) w.cur next code.schedule).mem next + 20 := by
    rw [heq]
  have hkernel : (callSwitchTo (processActivate w next) w.cur next code.schedule).cs % 4 ≠ 3 := by
    rw [heq, hcpu]
    exact hk
  have hlow := (hall next hnext).low
  have hhigh := (hall next hnext).high
  refine ⟨⟨hnext, h.page, fun hp => ?_, h.frames, fun hu => absurd hu hkernel, fun _ => ?_, fun _ => ?_,
    fun _ => (hall next hnext).framed, fun t ht _ => hall t ht⟩, hresumes⟩
  · show (callSwitchTo _ _ _ _).esp0 = _
    rw [heq, hcpu]
    exact hesp0 hp
  · show next + taskStructSize ≤ (callSwitchTo _ _ _ _).esp
    rw [hesp]
    exact Nat.le_add_right_of_le hlow
  · show (callSwitchTo _ _ _ _).esp ≤ kstackEnd next (c.frame next)
    rw [hesp]
    exact hhigh

/-! ## Runs -/

theorem Inv.step (h : Inv w c) {a : Act} (hm : w.May c a) :
    Inv (w.step code a) (c.step code w a) := by
  cases a with
  | user r =>
    obtain ⟨hu, hr⟩ := hm
    exact h.run (fun _ _ _ _ _ => rfl) rfl
      (fun r' hr' => Option.mem_some_iff.mp hr' ▸ ⟨hr, (h.frames _ h.cur_mem _ (h.user hu)).2⟩)
      (fun _ => rfl) fun hk => absurd hr hk
  | interrupt vec errCode =>
    have hp := (h.frames _ h.cur_mem _ (h.user hm.1)).2
    exact h.enter hm.1 (inKernel_interrupt hm.1 (h.esp0 hp) hm.2) (by unfold taskStructSize; omega)
      (Nat.le_refl _)
  | syscall =>
    have hp := (h.frames _ h.cur_mem _ (h.user hm)).2
    exact h.enter hm (inKernel_syscall hm (h.esp0 hp)) (by unfold taskStructSize; omega) (by omega)
  | kernel cpu =>
    obtain ⟨hk, hcs, hesp0, hlow, hhigh, hmem⟩ := hm
    exact h.kernel hk hcs hesp0 hlow hhigh hmem
  | leave => exact h.leave hm.1 hm.2.1 hm.2.2
  | sysret => exact h.sysret hm.1 hm.2.1 hm.2.2
  | schedule next => exact (h.schedule hm.1 hm.2.2 hm.2.1).1
  | spawn t function funcArg p => exact h.spawn hm.1 hm.2 function funcArg p
  | start function page => exact h.start hm.2.1 hm.2.2.2 function page
  | fork child => exact h.fork hm.1 hm.2.1 hm.2.2
  | execv argv argc entryPoint => exact h.execv hm.1 hm.2 argv argc entryPoint
  | reap t => exact h.reap hm.2

end

/-! ## A first program -/

section

variable {code : Code} {wc : Tasking × Contexts}

end

end OsCore.Userprog
