import OsCore.Vectors.SwitchTo

/-!
# The frame a program comes back through (`process.c`, `fork.c`, `exec.c`)

The frame of an interrupt from ring 3 is at the upper end of the page of the
task's PCB, because `esp0` of the TSS is the end of that page. Three functions
count on it. `start_process` makes up a frame there, and is a program's
way into ring 3; `sys_fork` copies the page and puts the result 0 into the copy's
frame; `sys_execv` changes where the frame leads to.

Each of them is a few words written to the frame, and what the program will
see is what the frame says then.
-/

namespace OsCore.Userprog

open Kernel Lib Thread

/-! ## The code -/

/-- `intr_0_stack` of the task at `t`. -/
def intr0Stack (t : Nat) : Nat := t + pgSize - IntrStack.size

/-- Assignments to fields of the struct at `base`, given by their offsets. -/
def storeFields (mem : Nat → Nat) (base : Nat) (fields : List (Nat × Nat)) : Nat → Nat :=
  fields.foldl (fun m f => Function.update m (base + f.1) f.2) mem

/-- The fields `start_process` sets, from `edi` to `ss`; `page` is what
`get_a_page` has returned for the stack. -/
def startFields (function page : Nat) : List (Nat × Nat) :=
  [(16, 0), (12, 0), (8, 0), (4, 0), (32, 0), (28, 0), (24, 0), (20, 0), (36, 0),
    (40, selectorUData), (44, selectorUData), (48, selectorUData), (56, function),
    (60, selectorUCode), (64, 0x202), (68, page + pgSize), (72, selectorUData)]

/-- `start_process` by the task at `cur`. -/
def startProcess (s : Cpu) (cur function page : Nat) : Cpu :=
  let s := { s with mem := Function.update s.mem cur (s.mem cur + threadStackSize) }
  let procStack := s.mem cur
  let s := { s with mem := storeFields s.mem procStack (startFields function page) }
  { s with esp := procStack }.intrExit

/-- `update_tss_esp`. -/
def updateTssEsp (s : Cpu) (pthread : Nat) : Cpu := { s with esp0 := pthread + pgSize }

/-- `memcpy` of the parent's page, the PCB and the kernel stack. -/
def copyPage (mem : Nat → Nat) (child parent : Nat) : Nat → Nat := fun b =>
  if child ≤ b ∧ b < child + pgSize then mem (b - child + parent) else mem b

/-- `build_child_stack`; `exitAddr` is the address of `intr_exit`. -/
def buildChildStack (exitAddr : Nat) (mem : Nat → Nat) (child : Nat) : Nat → Nat :=
  let intr0 := intr0Stack child
  let mem := Function.update mem (intr0 + 32) 0
  let mem := Function.update mem (intr0 - 4) exitAddr
  let mem := Function.update mem (intr0 - 8) 0
  let mem := Function.update mem (intr0 - 12) 0
  let mem := Function.update mem (intr0 - 16) 0
  let mem := Function.update mem (intr0 - 20) 0
  Function.update mem child (intr0 - 20)

/-- The frame's fields that `sys_execv` sets. -/
def execvFields (argv argc entryPoint : Nat) : List (Nat × Nat) :=
  [(20, argv), (28, argc), (56, entryPoint), (68, 0xc0000000)]

/-- The end of a `sys_execv` that does not fail, by the task at `cur`. -/
def execvExit (s : Cpu) (cur argv argc entryPoint : Nat) : Cpu :=
  let intr0 := intr0Stack cur
  let s := { s with mem := storeFields s.mem intr0 (execvFields argv argc entryPoint) }
  { s with esp := intr0 }.intrExit

/-! ## Frames and fields -/

/-- The frame of `r` is at the upper end of the page of `t`. -/
def Framed (mem : Nat → Nat) (t : Nat) (r : Regs) : Prop :=
  ∃ vecNo espDummy errCode, Stacked mem (intr0Stack t) (r.frame vecNo espDummy errCode).words

section

variable {s : Cpu} {mem mem' : Nat → Nat} {t cur child parent function page exitAddr : Nat}
  {r : Regs}

theorem intr0Stack_eq (t : Nat) : intr0Stack t = t + 4020 := by
  unfold intr0Stack pgSize IntrStack.size
  omega

theorem frame_length (r : Regs) (vecNo espDummy errCode : Nat) :
    (r.frame vecNo espDummy errCode).words.length = 19 := rfl

theorem Framed.congr (h : Framed mem t r) (hm : ∀ b, t + 4020 ≤ b → b < t + pgSize → mem' b = mem b) :
    Framed mem' t r := by
  obtain ⟨vecNo, espDummy, errCode, hf⟩ := h
  rw [intr0Stack_eq] at hf
  refine ⟨vecNo, espDummy, errCode, ?_⟩
  rw [intr0Stack_eq]
  exact hf.congr fun b hb hlt => hm b hb hlt

/-- **What a frame says is what the program sees.** -/
theorem Framed.intrExit_eq (h : Framed s.mem t r) (hesp : s.esp = intr0Stack t)
    (hring : r.cs % 4 = 3) : s.intrExit.toRegs = r := by
  obtain ⟨vecNo, espDummy, errCode, hf⟩ := h
  rw [← hesp] at hf
  exact (Kernel.intrExit_eq (r := r) hf).2.2.2.2 r.esp r.ss hring rfl

theorem Framed.intrExit_mem (h : Framed s.mem t r) (hesp : s.esp = intr0Stack t) :
    s.intrExit.mem = s.mem ∧ s.intrExit.esp0 = s.esp0 := by
  obtain ⟨vecNo, espDummy, errCode, hf⟩ := h
  rw [← hesp] at hf
  obtain ⟨hmem, hesp0, -⟩ := Kernel.intrExit_eq (r := r) hf
  exact ⟨hmem, hesp0⟩

/-- The registers a program starts with. -/
def startRegs (function page : Nat) : Regs where
  eax := 0
  ecx := 0
  edx := 0
  ebx := 0
  esp := page + pgSize
  ebp := 0
  esi := 0
  edi := 0
  ds := selectorUData
  es := selectorUData
  fs := selectorUData
  gs := 0
  eip := function
  cs := selectorUCode
  eflags := 0x202
  ss := selectorUData

theorem storeFields_start (mem : Nat → Nat) (base function page : Nat) :
    Stacked (storeFields mem base (startFields function page)) base
      ((startRegs function page).frame (mem base) 0 (mem (base + 52))).words := by
  simp [storeFields, startFields, startRegs, Regs.frame, IntrStack.words, IntrStack.inner,
    Nat.add_assoc]

/-- Fields lie inside the struct. -/
theorem storeFields_mem {fields : List (Nat × Nat)} (hf : ∀ f ∈ fields, f.1 < IntrStack.size)
    {mem : Nat → Nat} {base b : Nat} (hb : b < base ∨ base + IntrStack.size ≤ b) :
    storeFields mem base fields b = mem b := by
  unfold storeFields
  induction fields generalizing mem with
  | nil => rfl
  | cons f fields ih =>
    have hlt := hf f List.mem_cons_self
    rw [List.foldl_cons, ih fun g hg => hf g (List.mem_cons_of_mem _ hg)]
    exact Function.update_of_ne (by omega) _ _

/-- What `start_process` jumps to `intr_exit` with. -/
theorem startProcess_eq (hk : s.mem cur = cur + 3988) : startProcess s cur function page = { s with
    mem := storeFields (Function.update s.mem cur (intr0Stack cur)) (intr0Stack cur)
      (startFields function page)
    esp := intr0Stack cur }.intrExit := by
  have hbase : s.mem cur + threadStackSize = intr0Stack cur := by
    rw [hk, intr0Stack_eq]
    rfl
  unfold startProcess
  simp only [Function.update_self, hbase]

/-- A copied page has a copy of the frame. -/
theorem copyPage_framed (child : Nat) (h : Framed mem parent r) :
    Framed (copyPage mem child parent) child r := by
  obtain ⟨vecNo, espDummy, errCode, hf⟩ := h
  refine ⟨vecNo, espDummy, errCode, ?_⟩
  rw [intr0Stack_eq] at hf ⊢
  have hcopy : ∀ b, child + 4020 ≤ b → b < child + 4020 + 76 →
      copyPage mem child parent b = mem (b - child + parent) := by
    intro b hb hlt
    exact if_pos ⟨by omega, by unfold pgSize; omega⟩
  have hwords : ∀ {ws : List Nat} {d : Nat}, d + 4 * ws.length ≤ 76 →
      Stacked mem (parent + 4020 + d) ws →
        Stacked (copyPage mem child parent) (child + 4020 + d) ws := by
    intro ws
    induction ws with
    | nil => exact fun _ _ => trivial
    | cons w ws ih =>
      intro d hd hs
      rw [List.length_cons] at hd
      refine ⟨?_, ?_⟩
      · rw [hcopy _ (by omega) (by omega), ← hs.1]
        congr 1
        omega
      · rw [Nat.add_assoc]
        refine ih (by omega) ?_
        rw [← Nat.add_assoc]
        exact hs.2
  exact hwords (d := 0) (by have hlen := frame_length r vecNo espDummy errCode; omega) hf

/-- **The child of a fork** has the parent's frame with a 0 in `eax`, and is kept as a
task that goes on at `intr_exit` with that frame in front of it. -/
theorem buildChildStack_spec (h : Framed mem parent r) :
    Framed (buildChildStack exitAddr (copyPage mem child parent) child) child { r with eax := 0 } ∧
      Saved (buildChildStack exitAddr (copyPage mem child parent) child) child
        ⟨exitAddr, intr0Stack child, 0, 0, 0, 0⟩ := by
  obtain ⟨vecNo, espDummy, errCode, hf⟩ := copyPage_framed child h
  have hset := hf.set (w := 0) 8 (by simp [frame_length])
  unfold buildChildStack
  rw [intr0Stack_eq] at hset ⊢
  refine ⟨⟨vecNo, espDummy, errCode, ?_⟩, ?_, ?_⟩
  · rw [intr0Stack_eq]
    refine Stacked.congr hset fun b hb hlt => ?_
    simp (disch := omega) only [Function.update_of_ne]
  · simp (disch := omega) [Nat.add_assoc]
  · simp

theorem buildChildStack_mem {b : Nat} (hb : b < child ∨ child + pgSize ≤ b) :
    buildChildStack exitAddr (copyPage mem child parent) child b = mem b := by
  unfold pgSize at hb
  have hcopy : copyPage mem child parent b = mem b :=
    if_neg (by unfold pgSize; omega)
  unfold buildChildStack
  rw [intr0Stack_eq]
  simp (disch := omega) only [Function.update_of_ne]
  exact hcopy

/-- **A program that has been replaced** goes on at the entry point, with its
arguments in `ebx` and `ecx` and an empty stack. -/
theorem execvFields_framed (h : Framed mem cur r) (argv argc entryPoint : Nat) :
    Framed (storeFields mem (intr0Stack cur) (execvFields argv argc entryPoint)) cur
      { r with ebx := argv, ecx := argc, eip := entryPoint, esp := 0xc0000000 } := by
  obtain ⟨vecNo, espDummy, errCode, hf⟩ := h
  refine ⟨vecNo, espDummy, errCode, ?_⟩
  have hebx := hf.set (w := argv) 5 (by simp [frame_length])
  have hecx := hebx.set (w := argc) 7 (by simp [frame_length])
  have heip := hecx.set (w := entryPoint) 14 (by simp [frame_length])
  exact heip.set (w := 0xc0000000) 17 (by simp [frame_length])

end

end OsCore.Userprog
