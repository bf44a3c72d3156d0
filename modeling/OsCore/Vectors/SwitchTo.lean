import OsCore.Vectors.Interrupt

/-!
# From one kernel stack to the other (`thread/switch.S`, `thread/thread.c`)

`switch_to(cur, next)` pushes the registers a C function must not change, leaves
the stack pointer in the first word of `cur`'s PCB, takes the one it finds in
`next`'s, and pops. So `next` goes on where it called `switch_to` itself.

What is kept of a task meanwhile is `Saved`: the word in its PCB, and the five
words it points to, stand for a `Kcontext`. A call of `switch_to` saves the one
it leaves, resumes the one it goes to, and writes nothing else
(`callSwitchTo_spec`). `thread_create` makes a task look as if it had called
`switch_to` in front of the first instruction of `kernel_thread`.
-/

namespace OsCore.Thread

open Kernel Lib

/-- What a C function finds again after a call: where it goes on, its stack, and the
registers that belong to it. -/
structure Kcontext where
  eip : Nat
  esp : Nat
  ebp : Nat
  ebx : Nat
  edi : Nat
  esi : Nat
  deriving DecidableEq, Repr

def kcontext (s : Cpu) : Kcontext := ⟨s.eip, s.esp, s.ebp, s.ebx, s.edi, s.esi⟩

/-! ## The code -/

/-- `switch_to`, from its first instruction to behind its `ret`. -/
def switchTo (s : Cpu) : Cpu :=
  let s := s.pushes [s.esi, s.edi, s.ebx, s.ebp]
  -- the parameter `cur`
  let s := { s with eax := s.mem (s.esp + 20) }
  let s := { s with mem := Function.update s.mem s.eax s.esp }
  -- the parameter `next`
  let s := { s with eax := s.mem (s.esp + 24) }
  let s := { s with esp := s.mem s.eax }
  { s with
    ebp := s.mem s.esp
    ebx := s.mem (s.esp + 4)
    edi := s.mem (s.esp + 8)
    esi := s.mem (s.esp + 12)
    eip := s.mem (s.esp + 16)
    esp := s.esp + 20 }

/-- The call `switch_to(cur, next)` in `schedule`, which goes on at `ret`. -/
def callSwitchTo (s : Cpu) (cur next ret : Nat) : Cpu := switchTo (s.pushes [next, cur, ret])

/-- `PG_SIZE`. -/
def pgSize : Nat := 4096

/-- `sizeof(struct thread_stack)`. -/
def threadStackSize : Nat := 32

/-- `sizeof(struct task_struct)`. -/
def taskStructSize : Nat := 280

/-- The stack pointer `init_thread` puts into the PCB. -/
def initKstack (mem : Nat → Nat) (pthread : Nat) : Nat → Nat :=
  Function.update mem pthread (pthread + pgSize)

/-- `thread_create`; `kernelThread` is the address of `kernel_thread`. -/
def threadCreate (kernelThread : Nat) (mem : Nat → Nat) (pthread function funcArg : Nat) :
    Nat → Nat :=
  let mem := Function.update mem pthread (mem pthread - IntrStack.size)
  let mem := Function.update mem pthread (mem pthread - threadStackSize)
  let kthreadStack := mem pthread
  let mem := Function.update mem (kthreadStack + 16) kernelThread
  let mem := Function.update mem (kthreadStack + 24) function
  let mem := Function.update mem (kthreadStack + 28) funcArg
  let mem := Function.update mem kthreadStack 0
  let mem := Function.update mem (kthreadStack + 4) 0
  let mem := Function.update mem (kthreadStack + 12) 0
  Function.update mem (kthreadStack + 8) 0

/-- The PCB at `t` and the stack it points to stand for `k`. -/
structure Saved (mem : Nat → Nat) (t : Nat) (k : Kcontext) : Prop where
  stack : Stacked mem (mem t) [k.ebp, k.ebx, k.edi, k.esi, k.eip]
  esp : k.esp = mem t + 20

section

variable {s : Cpu} {mem mem' : Nat → Nat} {t cur next ret : Nat} {k : Kcontext}

/-- It is kept where nobody writes to the PCB's first word and to the stack. -/
theorem Saved.congr (h : Saved mem t k) (ht : mem' t = mem t)
    (hm : ∀ b, mem t ≤ b → b < mem t + 20 → mem' b = mem b) : Saved mem' t k :=
  ⟨by rw [ht]; exact h.stack.congr hm, by rw [ht]; exact h.esp⟩

/-- What `s` goes on with after the call of `switch_to`, the parameters still being
on the stack. -/
def afterCall (s : Cpu) (ret : Nat) : Kcontext := { kcontext s with eip := ret, esp := s.esp - 8 }

/-- The memory a switch leaves behind. -/
def switchMem (s : Cpu) (cur next ret : Nat) : Nat → Nat :=
  Function.update (s.pushes [next, cur, ret, s.esi, s.edi, s.ebx, s.ebp]).mem cur (s.esp - 28)

theorem pushed_stacked (hroom : 28 ≤ s.esp) :
    Stacked (s.pushes [next, cur, ret, s.esi, s.edi, s.ebx, s.ebp]).mem (s.esp - 28)
      [s.ebp, s.ebx, s.edi, s.esi, ret, cur, next] :=
  Cpu.pushes_stacked _ stacked_nil hroom

/-- All that `switch_to` does once it has read its parameters. -/
theorem callSwitchTo_eq (next ret : Nat) (hroom : cur + taskStructSize + 28 ≤ s.esp) :
    callSwitchTo s cur next ret = { s with
      eax := next
      mem := switchMem s cur next ret
      ebp := switchMem s cur next ret (switchMem s cur next ret next)
      ebx := switchMem s cur next ret (switchMem s cur next ret next + 4)
      edi := switchMem s cur next ret (switchMem s cur next ret next + 8)
      esi := switchMem s cur next ret (switchMem s cur next ret next + 12)
      eip := switchMem s cur next ret (switchMem s cur next ret next + 16)
      esp := switchMem s cur next ret next + 20 } := by
  unfold taskStructSize at hroom
  obtain ⟨-, -, -, -, -, hcur, hnext, -⟩ : Stacked _ _ [s.ebp, s.ebx, s.edi, s.esi, ret, cur, next] :=
    pushed_stacked (by omega)
  simp only [Nat.add_assoc, Nat.reduceAdd] at hcur hnext
  -- the parameters are still there when the PCB is written
  have hne : s.esp - 28 + 24 ≠ cur := by omega
  have hpush : ((s.pushes [next, cur, ret]).pushes [(s.pushes [next, cur, ret]).esi,
      (s.pushes [next, cur, ret]).edi, (s.pushes [next, cur, ret]).ebx,
      (s.pushes [next, cur, ret]).ebp]) = { s with
        esp := s.esp - 28
        mem := (s.pushes [next, cur, ret, s.esi, s.edi, s.ebx, s.ebp]).mem } := by
    rw [Cpu.pushes_toRegs, ← Cpu.pushes_append]
    exact Cpu.pushes_eq s _
  unfold callSwitchTo switchTo
  rw [hpush]
  simp only [hcur, Function.update_of_ne hne, hnext, switchMem]

/-- **Only the stack and the word in the PCB are written.** -/
theorem callSwitchTo_mem (hroom : cur + taskStructSize + 28 ≤ s.esp) {b : Nat} (hb : b ≠ cur)
    (hout : b < s.esp - 28 ∨ s.esp ≤ b) : (callSwitchTo s cur next ret).mem b = s.mem b := by
  rw [callSwitchTo_eq next ret hroom]
  unfold taskStructSize at hroom
  refine (Function.update_of_ne hb _ _).trans (Cpu.pushes_mem ?_ hout)
  show 28 ≤ s.esp
  omega

/-- **The task it leaves is kept.** -/
theorem callSwitchTo_saves (next ret : Nat) (hroom : cur + taskStructSize + 28 ≤ s.esp) :
    Saved (callSwitchTo s cur next ret).mem cur (afterCall s ret) := by
  rw [callSwitchTo_eq next ret hroom]
  unfold taskStructSize at hroom
  have hcur : switchMem s cur next ret cur = s.esp - 28 := Function.update_self _ _ _
  have hstack : Stacked (switchMem s cur next ret) (s.esp - 28)
      ([s.ebp, s.ebx, s.edi, s.esi, ret] ++ [cur, next]) :=
    (pushed_stacked (by omega)).update (Or.inl (by omega))
  refine ⟨?_, ?_⟩
  · show Stacked (switchMem s cur next ret) (switchMem s cur next ret cur) _
    rw [hcur]
    exact (stacked_append.mp hstack).1
  · show s.esp - 8 = switchMem s cur next ret cur + 20
    rw [hcur]
    omega

/-- **The task it goes to resumes**, whether it is another one or the same. -/
theorem callSwitchTo_resumes (hroom : cur + taskStructSize + 28 ≤ s.esp)
    (h : Saved (callSwitchTo s cur next ret).mem next k) :
    kcontext (callSwitchTo s cur next ret) = k := by
  have hmem : (callSwitchTo s cur next ret).mem = switchMem s cur next ret := by
    rw [callSwitchTo_eq next ret hroom]
  rw [hmem] at h
  obtain ⟨⟨hebp, hebx, hedi, hesi, heip, -⟩, hesp⟩ := h
  simp only [Nat.add_assoc, Nat.reduceAdd] at hebx hedi hesi heip
  rw [callSwitchTo_eq next ret hroom]
  simp only [kcontext, hebp, hebx, hedi, hesi, heip, ← hesp]

/-! ## A new task -/

/-- What a new task starts with: `kernel_thread`, called with two arguments. -/
def freshContext (kernelThread pthread : Nat) : Kcontext :=
  ⟨kernelThread, pthread + 4008, 0, 0, 0, 0⟩

variable {kernelThread pthread function funcArg : Nat}

/-- **A new task is kept like one that has called `switch_to`**, and `kernel_thread`
finds the function and its argument where a C function looks for them. -/
theorem threadCreate_saved :
    Saved (threadCreate kernelThread (initKstack mem pthread) pthread function funcArg) pthread
        (freshContext kernelThread pthread) ∧
      threadCreate kernelThread (initKstack mem pthread) pthread function funcArg
        (pthread + 4008 + 4) = function ∧
      threadCreate kernelThread (initKstack mem pthread) pthread function funcArg
        (pthread + 4008 + 8) = funcArg := by
  have hkstack : pthread + pgSize - IntrStack.size - threadStackSize = pthread + 3988 := by
    unfold pgSize IntrStack.size threadStackSize
    omega
  unfold threadCreate initKstack
  simp only [Function.update_self, hkstack, Nat.add_assoc, Nat.reduceAdd]
  refine ⟨⟨?_, ?_⟩, ?_, ?_⟩ <;>
    simp [freshContext, Nat.add_assoc]

/-- Nothing else is written. -/
theorem threadCreate_mem {b : Nat} (hb : b < pthread ∨ pthread + pgSize ≤ b) :
    threadCreate kernelThread (initKstack mem pthread) pthread function funcArg b = mem b := by
  unfold pgSize at hb
  have hkstack : pthread + pgSize - IntrStack.size - threadStackSize = pthread + 3988 := by
    unfold pgSize IntrStack.size threadStackSize
    omega
  unfold threadCreate initKstack
  simp only [Function.update_self, hkstack, Nat.add_assoc, Nat.reduceAdd]
  simp (disch := omega) only [Function.update_of_ne]

end

end OsCore.Thread
