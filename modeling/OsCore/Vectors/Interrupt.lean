import OsCore.Lib.StackWords

/-!
# Into the kernel and out again (`kernel/kernel.S`)

An interrupt saves what it interrupts on a kernel stack: the processor pushes
where it was, the entry stub of the vector pushes the rest, and `intr_exit` pops
all of it. On the way from ring 3 the processor takes the stack from the TSS,
and puts the user's stack pointer on it first. The words so pushed, from the
vector number up, are a `struct intr_stack`.

Between entry and exit the handler runs. What it must do is `FrameKept`: leave the
stack pointer where it was and the frame as it is; registers may hold anything.

The stub of a vector pushes a 0 where the processor pushes no error code, so
that the frame always has the same shape. The table says for which vectors; the
context is restored exactly where the table is right (`interrupt_resumes_iff`).

Registers and memory words are numbers, stack addresses are multiples of four.
-/

namespace OsCore.Kernel

open Lib

/-! ## The processor -/

/-- The registers of a program. -/
structure Regs where
  eax : Nat
  ecx : Nat
  edx : Nat
  ebx : Nat
  esp : Nat
  ebp : Nat
  esi : Nat
  edi : Nat
  ds : Nat
  es : Nat
  fs : Nat
  gs : Nat
  eip : Nat
  cs : Nat
  eflags : Nat
  ss : Nat
  deriving DecidableEq, Repr

/-- The processor, the kernel's memory, and `esp0` of the TSS. -/
structure Cpu extends Regs where
  esp0 : Nat
  mem : Nat → Nat

def selectorKCode : Nat := 1 * 8 + 0

def selectorKStack : Nat := 2 * 8 + 0

def selectorUCode : Nat := 5 * 8 + 3

def selectorUData : Nat := 6 * 8 + 3

/-- The flags behind an interrupt gate: TF, IF, NT, RF and VM are cleared. -/
def gateFlags (eflags : Nat) : Nat := eflags &&& 0xfffcbcff

namespace Cpu

/-- `push w`. -/
def push (s : Cpu) (w : Nat) : Cpu :=
  { s with esp := s.esp - 4, mem := Function.update s.mem (s.esp - 4) w }

/-- One `push` after the other. -/
def pushes (s : Cpu) (ws : List Nat) : Cpu := ws.foldl push s

def pushad (s : Cpu) : Cpu :=
  s.pushes [s.eax, s.ecx, s.edx, s.ebx, s.esp, s.ebp, s.esi, s.edi]

/-- `popad`; the `esp` that was pushed is passed over. -/
def popad (s : Cpu) : Cpu :=
  { s with
    edi := s.mem s.esp
    esi := s.mem (s.esp + 4)
    ebp := s.mem (s.esp + 8)
    ebx := s.mem (s.esp + 16)
    edx := s.mem (s.esp + 20)
    ecx := s.mem (s.esp + 24)
    eax := s.mem (s.esp + 28)
    esp := s.esp + 32 }

/-- `iretd` in the kernel; the stack is changed where it leads to ring 3. -/
def iretd (s : Cpu) : Cpu :=
  let t := { s with
    eip := s.mem s.esp
    cs := s.mem (s.esp + 4)
    eflags := s.mem (s.esp + 8)
    esp := s.esp + 12 }
  if s.mem (s.esp + 4) % 4 = 3 then
    { t with esp := s.mem (s.esp + 12), ss := s.mem (s.esp + 16) }
  else t

/-- What the processor does for an interrupt before the first instruction of
the stub; some exceptions come with an error code. -/
def trap (s : Cpu) (errCode : Option Nat) : Cpu :=
  let t :=
    if s.cs % 4 = 3 then
      { s with esp := s.esp0, ss := selectorKStack }.pushes [s.ss, s.esp]
    else s
  let t := t.pushes ([s.eflags, s.cs, s.eip] ++ errCode.toList)
  { t with cs := selectorKCode, eflags := gateFlags s.eflags }

end Cpu

/-! ## `kernel.S` -/

/-- The vectors with `ERROR_CODE` in the table, the others have `ZERO`. -/
def errorCodeVectors : List Nat :=
  [0x08, 0x0a, 0x0b, 0x0d, 0x0e, 0x11, 0x18, 0x1a, 0x1b, 0x1d, 0x1e]

namespace Cpu

/-- `VECTOR`: the stub up to the call of the handler. Between, it tells both
interrupt controllers that the interrupt is over, out of `al`. -/
def entry (s : Cpu) (vec : Nat) : Cpu :=
  let s := if vec ∈ errorCodeVectors then s else s.push 0
  let s := s.pushes [s.ds, s.es, s.fs, s.gs]
  let s := s.pushad
  let s := { s with eax := s.eax / 256 * 256 + 0x20 }
  s.push vec

def intrExit (s : Cpu) : Cpu :=
  let s := { s with esp := s.esp + 4 }
  let s := s.popad
  let s := { s with
    gs := s.mem s.esp
    fs := s.mem (s.esp + 4)
    es := s.mem (s.esp + 8)
    ds := s.mem (s.esp + 12)
    esp := s.esp + 16 }
  let s := { s with esp := s.esp + 4 }
  s.iretd

end Cpu

/-- `struct intr_stack`. -/
structure IntrStack where
  vecNo : Nat
  edi : Nat
  esi : Nat
  ebp : Nat
  espDummy : Nat
  ebx : Nat
  edx : Nat
  ecx : Nat
  eax : Nat
  gs : Nat
  fs : Nat
  es : Nat
  ds : Nat
  errCode : Nat
  eip : Nat
  cs : Nat
  eflags : Nat
  esp : Nat
  ss : Nat

namespace IntrStack

variable (f : IntrStack)

/-- The part of the frame that is there on the way from ring 0, too. -/
def inner : List Nat :=
  [f.vecNo, f.edi, f.esi, f.ebp, f.espDummy, f.ebx, f.edx, f.ecx, f.eax, f.gs, f.fs, f.es, f.ds,
    f.errCode, f.eip, f.cs, f.eflags]

def words : List Nat := f.inner ++ [f.esp, f.ss]

/-- `sizeof(struct intr_stack)`. -/
def size : Nat := 76

theorem words_length : 4 * f.words.length = size := rfl

/-- The context the frame stands for. -/
def regs : Regs where
  eax := f.eax
  ecx := f.ecx
  edx := f.edx
  ebx := f.ebx
  esp := f.esp
  ebp := f.ebp
  esi := f.esi
  edi := f.edi
  ds := f.ds
  es := f.es
  fs := f.fs
  gs := f.gs
  eip := f.eip
  cs := f.cs
  eflags := f.eflags
  ss := f.ss

end IntrStack

/-- The frame of an interrupt of `r`. -/
def Regs.frame (r : Regs) (vecNo espDummy errCode : Nat) : IntrStack where
  vecNo
  edi := r.edi
  esi := r.esi
  ebp := r.ebp
  espDummy
  ebx := r.ebx
  edx := r.edx
  ecx := r.ecx
  eax := r.eax
  gs := r.gs
  fs := r.fs
  es := r.es
  ds := r.ds
  errCode
  eip := r.eip
  cs := r.cs
  eflags := r.eflags
  esp := r.esp
  ss := r.ss

theorem Regs.frame_regs (r : Regs) (vecNo espDummy errCode : Nat) :
    (r.frame vecNo espDummy errCode).regs = r := rfl

/-! ## Pushing -/

namespace Cpu

variable (s : Cpu) {ws vs : List Nat}

@[simp] theorem pushes_nil : s.pushes [] = s := rfl

@[simp] theorem pushes_cons (w : Nat) : s.pushes (w :: ws) = (s.push w).pushes ws := rfl

theorem pushes_append : s.pushes (ws ++ vs) = (s.pushes ws).pushes vs := List.foldl_append

/-- Nothing but the stack pointer and the stack changes. -/
theorem pushes_eq (ws : List Nat) :
    s.pushes ws = { s with esp := s.esp - 4 * ws.length, mem := (s.pushes ws).mem } := by
  induction ws generalizing s with
  | nil => rfl
  | cons w ws ih =>
    have hesp : s.esp - 4 - 4 * ws.length = s.esp - 4 * (w :: ws).length := by
      rw [List.length_cons]
      omega
    rw [pushes_cons, ih, push, hesp]

theorem pushes_toRegs (ws : List Nat) :
    (s.pushes ws).toRegs = { s.toRegs with esp := s.esp - 4 * ws.length } := by
  rw [pushes_eq]

theorem pushes_esp0 (ws : List Nat) : (s.pushes ws).esp0 = s.esp0 := by
  rw [pushes_eq]

theorem push_eq (w : Nat) : s.push w = s.pushes [w] := rfl

variable {s}

theorem pushes_stacked (ws : List Nat) (h : Stacked s.mem s.esp vs) (hroom : 4 * ws.length ≤ s.esp) :
    Stacked (s.pushes ws).mem (s.esp - 4 * ws.length) (ws.reverse ++ vs) := by
  induction ws generalizing s vs with
  | nil => exact h
  | cons w ws ih =>
    rw [List.length_cons] at hroom
    have hpush : Stacked (s.push w).mem (s.push w).esp (w :: vs) := h.push (by omega)
    have hesp : (s.push w).esp - 4 * ws.length = s.esp - 4 * (w :: ws).length := by
      rw [List.length_cons]
      simp only [push]
      omega
    have hrest := ih hpush (by simp only [push]; omega)
    rwa [hesp, List.append_cons, ← List.reverse_cons] at hrest

/-- The stack above and what lies below stay as they are. -/
theorem pushes_mem (hroom : 4 * ws.length ≤ s.esp) {b : Nat}
    (hb : b < s.esp - 4 * ws.length ∨ s.esp ≤ b) : (s.pushes ws).mem b = s.mem b := by
  induction ws generalizing s with
  | nil => rfl
  | cons w ws ih =>
    rw [List.length_cons] at hroom hb
    have hne : b ≠ s.esp - 4 := by omega
    rw [pushes_cons, ih (by simp only [push]; omega) (by simp only [push]; omega), push]
    exact Function.update_of_ne hne _ _

end Cpu

/-! ## The frame of an interrupt -/

namespace Cpu

variable (s : Cpu)

/-- Where the frame of an interrupt goes: down from here. -/
def stackTop : Nat := if s.cs % 4 = 3 then s.esp0 else s.esp

/-- The stack segment there. -/
def stackSs : Nat := if s.cs % 4 = 3 then selectorKStack else s.ss

/-- What the processor pushes first on the way from ring 3, from below. -/
def outer : List Nat := if s.cs % 4 = 3 then [s.esp, s.ss] else []

end Cpu

/-- The words of the frame from the vector number up to `ds`. -/
def Regs.saved (r : Regs) (vecNo espDummy : Nat) : List Nat :=
  [vecNo, r.edi, r.esi, r.ebp, espDummy, r.ebx, r.edx, r.ecx, r.eax, r.gs, r.fs, r.es, r.ds]

/-- The word a stub with `ZERO` pushes. -/
def zeroWord (vec : Nat) : List Nat := if vec ∈ errorCodeVectors then [] else [0]

section

variable {s t : Cpu} {errCode : Option Nat} {vec : Nat}

/-- The trap is a row of pushes. -/
theorem trap_eq (s : Cpu) (errCode : Option Nat) :
    s.trap errCode = { { s with esp := s.stackTop, ss := s.stackSs }.pushes
      (s.outer.reverse ++ [s.eflags, s.cs, s.eip] ++ errCode.toList) with
        cs := selectorKCode, eflags := gateFlags s.eflags } := by
  unfold Cpu.trap Cpu.stackTop Cpu.stackSs Cpu.outer
  split
  · rw [List.append_assoc, Cpu.pushes_append]
    rfl
  · rfl

/-- The stub is a row of pushes. -/
theorem entry_eq (s : Cpu) (vec : Nat) :
    ∃ eax, s.entry vec = { s.pushes (zeroWord vec ++ [s.ds, s.es, s.fs, s.gs] ++
      [s.eax, s.ecx, s.edx, s.ebx, s.esp - 4 * (zeroWord vec).length - 16, s.ebp, s.esi, s.edi] ++
        [vec]) with eax } := by
  unfold Cpu.entry zeroWord
  split
  · exact ⟨_, rfl⟩
  · exact ⟨_, rfl⟩

/-- What is on the stack after the trap. -/
theorem trap_stacked (s : Cpu) (errCode : Option Nat) (hroom : 24 ≤ s.stackTop) : ∃ mem,
    s.trap errCode = { s with
      esp := s.stackTop - 4 * (s.outer.length + 3 + errCode.toList.length)
      ss := s.stackSs, mem, cs := selectorKCode, eflags := gateFlags s.eflags } ∧
    Stacked mem (s.stackTop - 4 * (s.outer.length + 3 + errCode.toList.length))
      (errCode.toList ++ ([s.eip, s.cs, s.eflags] ++ s.outer)) ∧
    ∀ b, b + 24 < s.stackTop ∨ s.stackTop ≤ b → mem b = s.mem b := by
  have houter : s.outer.length ≤ 2 := by
    unfold Cpu.outer
    split <;> simp
  have herr : errCode.toList.length ≤ 1 := by cases errCode <;> simp
  have hlength : (s.outer.reverse ++ [s.eflags, s.cs, s.eip] ++ errCode.toList).length =
      s.outer.length + 3 + errCode.toList.length := by
    simp
    omega
  have hstack := Cpu.pushes_stacked (s := { s with esp := s.stackTop, ss := s.stackSs })
    (s.outer.reverse ++ [s.eflags, s.cs, s.eip] ++ errCode.toList) stacked_nil
    (by rw [hlength]; show _ ≤ s.stackTop; omega)
  have hwords : (s.outer.reverse ++ [s.eflags, s.cs, s.eip] ++ errCode.toList).reverse ++ [] =
      errCode.toList ++ ([s.eip, s.cs, s.eflags] ++ s.outer) := by
    cases errCode <;> simp
  rw [hwords, hlength] at hstack
  refine ⟨_, ?_, hstack, fun b hb => Cpu.pushes_mem ?_ ?_⟩
  · rw [trap_eq, Cpu.pushes_eq, hlength]
  · rw [hlength]
    show _ ≤ s.stackTop
    omega
  · rw [hlength]
    show b < s.stackTop - _ ∨ s.stackTop ≤ b
    omega

/-- What is on the stack after the stub. -/
theorem entry_stacked (s : Cpu) (vec : Nat) {ws : List Nat} (h : Stacked s.mem s.esp ws)
    (hroom : 56 ≤ s.esp) : ∃ espDummy,
    Stacked (s.entry vec).mem (s.entry vec).esp (s.saved vec espDummy ++ (zeroWord vec ++ ws)) ∧
    (s.entry vec).esp + 4 * (13 + (zeroWord vec).length) = s.esp ∧
    (∃ eax esp mem, s.entry vec = { s with eax, esp, mem }) ∧
    ∀ b, b + 56 < s.esp ∨ s.esp ≤ b → (s.entry vec).mem b = s.mem b := by
  obtain ⟨eax, hentry⟩ := entry_eq s vec
  have hzero : (zeroWord vec).length ≤ 1 := by
    unfold zeroWord
    split <;> simp
  have hrev : (zeroWord vec).reverse = zeroWord vec := by
    unfold zeroWord
    split <;> rfl
  generalize s.esp - 4 * (zeroWord vec).length - 16 = espDummy at hentry
  have hlength : (zeroWord vec ++ [s.ds, s.es, s.fs, s.gs] ++
      [s.eax, s.ecx, s.edx, s.ebx, espDummy, s.ebp, s.esi, s.edi] ++ [vec]).length =
      13 + (zeroWord vec).length := by
    simp
    omega
  have hstack := Cpu.pushes_stacked (zeroWord vec ++ [s.ds, s.es, s.fs, s.gs] ++
    [s.eax, s.ecx, s.edx, s.ebx, espDummy, s.ebp, s.esi, s.edi] ++ [vec]) h
    (by rw [hlength]; omega)
  rw [hlength] at hstack
  refine ⟨espDummy, ?_, ?_, ?_, fun b hb => ?_⟩
  · rw [hentry, Cpu.pushes_eq, hlength]
    simpa [Regs.saved, hrev] using hstack
  · rw [hentry, Cpu.pushes_eq, hlength]
    show s.esp - _ + _ = s.esp
    omega
  · exact ⟨eax, _, _, by rw [hentry, Cpu.pushes_eq]⟩
  · rw [hentry]
    refine Cpu.pushes_mem (by rw [hlength]; omega) ?_
    rw [hlength]
    omega

/-- **What the handler finds from its stack pointer up.** -/
theorem trap_entry_stacked (s : Cpu) (errCode : Option Nat) (vec : Nat) (hroom : 84 ≤ s.stackTop) :
    ∃ espDummy,
    Stacked ((s.trap errCode).entry vec).mem ((s.trap errCode).entry vec).esp
      (s.saved vec espDummy ++ (zeroWord vec ++ (errCode.toList ++ ([s.eip, s.cs, s.eflags] ++
        s.outer)))) ∧
    ((s.trap errCode).entry vec).esp + 4 * (16 + (zeroWord vec).length + errCode.toList.length +
      s.outer.length) = s.stackTop ∧
    ((s.trap errCode).entry vec).ss = s.stackSs ∧
    ((s.trap errCode).entry vec).cs = selectorKCode ∧
    ((s.trap errCode).entry vec).esp0 = s.esp0 ∧
    ∀ b, b + 84 < s.stackTop ∨ s.stackTop ≤ b → ((s.trap errCode).entry vec).mem b = s.mem b := by
  have houter : s.outer.length ≤ 2 := by
    unfold Cpu.outer
    split <;> simp
  have herr : errCode.toList.length ≤ 1 := by cases errCode <;> simp
  obtain ⟨mem, htrap, hafter, hmem⟩ := trap_stacked s errCode (by omega)
  have hesp : (s.trap errCode).esp = s.stackTop - 4 * (s.outer.length + 3 + errCode.toList.length) := by
    rw [htrap]
  have hbefore : Stacked (s.trap errCode).mem (s.trap errCode).esp
      (errCode.toList ++ ([s.eip, s.cs, s.eflags] ++ s.outer)) := by
    rw [htrap]
    exact hafter
  obtain ⟨espDummy, hstack, hplace, ⟨eax, esp, mem', hentry⟩, hbelow⟩ :=
    entry_stacked (s.trap errCode) vec hbefore (by omega)
  have hsaved : (s.trap errCode).saved vec espDummy = s.saved vec espDummy := by rw [htrap]; rfl
  rw [hsaved] at hstack
  refine ⟨espDummy, hstack, by omega, ?_, ?_, ?_, fun b hb => ?_⟩
  · rw [hentry, htrap]
  · rw [hentry, htrap]
  · rw [hentry, htrap]
  · rw [hbelow b (by omega), htrap]
    exact hmem b (by omega)

/-- **The way out pops what the frame says.** -/
theorem intrExit_eq {r : Regs} {vecNo espDummy skipped eip cs eflags : Nat} {rest : List Nat}
    (h : Stacked t.mem t.esp (r.saved vecNo espDummy ++ skipped :: eip :: cs :: eflags :: rest)) :
    t.intrExit.mem = t.mem ∧ t.intrExit.esp0 = t.esp0 ∧ t.intrExit.cs = cs ∧
    (cs % 4 ≠ 3 → t.intrExit.toRegs =
      { r with esp := t.esp + 68, eip, cs, eflags, ss := t.ss }) ∧
    (∀ esp ss, cs % 4 = 3 → rest = [esp, ss] →
      t.intrExit.toRegs = { r with esp, eip, cs, eflags, ss }) := by
  simp only [Regs.saved, List.cons_append, List.nil_append, stacked_cons, Nat.add_assoc,
    Nat.reduceAdd] at h
  obtain ⟨-, hedi, hesi, hebp, -, hebx, hedx, hecx, heax, hgs, hfs, hes, hds, -, heip, hcs, heflags,
    hrest⟩ := h
  by_cases hring : cs % 4 = 3
  · refine ⟨?_, ?_, ?_, fun hne => absurd hring hne, ?_⟩ <;>
      simp only [Cpu.intrExit, Cpu.popad, Cpu.iretd, Nat.add_assoc, Nat.reduceAdd, hedi, hesi, hebp,
        hebx, hedx, hecx, heax, hgs, hfs, hes, hds, heip, hcs, heflags, hring, if_true]
    rintro esp ss - rfl
    simp only [stacked_cons, Nat.add_assoc, Nat.reduceAdd] at hrest
    rw [hrest.1, hrest.2.1]
  · refine ⟨?_, ?_, ?_, fun _ => ?_, fun _ _ hcs3 => absurd hcs3 hring⟩ <;>
      simp only [Cpu.intrExit, Cpu.popad, Cpu.iretd, Nat.add_assoc, Nat.reduceAdd, hedi, hesi, hebp,
        hebx, hedx, hecx, heax, hgs, hfs, hes, hds, heip, hcs, heflags, hring, if_false]

theorem intrExit_eip {r : Regs} {vecNo espDummy skipped eip : Nat} {rest : List Nat}
    (h : Stacked t.mem t.esp (r.saved vecNo espDummy ++ skipped :: eip :: rest)) :
    t.intrExit.eip = eip := by
  simp only [Regs.saved, List.cons_append, List.nil_append, stacked_cons, Nat.add_assoc,
    Nat.reduceAdd] at h
  obtain ⟨-, -, -, -, -, -, -, -, -, -, -, -, -, -, heip, -⟩ := h
  simp only [Cpu.intrExit, Cpu.popad, Cpu.iretd, Nat.add_assoc, Nat.reduceAdd]
  split <;> exact heip

/-- What a handler that has returned has left alone: `s` is where it was called,
and the frame ends at `top`. -/
structure FrameKept (s t : Cpu) (top : Nat) : Prop where
  esp : t.esp = s.esp
  ss : t.ss = s.ss
  frame : ∀ b, s.esp ≤ b → b < top → t.mem b = s.mem b

/-- **An interrupt resumes what it interrupts exactly where the vector's stub is
right about the error code**, whatever the handler does with the registers, with
interrupts from ring 3 and from ring 0. -/
theorem interrupt_resumes_iff (hroom : 84 ≤ s.stackTop) (hne : s.eip ≠ s.cs)
    (hk : FrameKept ((s.trap errCode).entry vec) t s.stackTop) :
    t.intrExit.toRegs = s.toRegs ↔ (errCode.isSome ↔ vec ∈ errorCodeVectors) := by
  obtain ⟨espDummy, hstack, hesp, hss, -⟩ := trap_entry_stacked s errCode vec hroom
  have hframe : Stacked t.mem t.esp (s.saved vec espDummy ++ (zeroWord vec ++ (errCode.toList ++
      ([s.eip, s.cs, s.eflags] ++ s.outer)))) := by
    rw [hk.esp]
    refine hstack.congr fun b hb hlt => hk.frame b hb ?_
    have hlength : (s.saved vec espDummy).length = 13 := rfl
    simp only [List.length_append, hlength, List.length_cons, List.length_nil] at hlt
    omega
  -- with one word for the error code the frame is the right one
  have hgood : ∀ skipped, (zeroWord vec).length + errCode.toList.length = 1 →
      Stacked t.mem t.esp (s.saved vec espDummy ++ skipped :: s.eip :: s.cs :: s.eflags :: s.outer) →
      t.intrExit.toRegs = s.toRegs := by
    intro skipped hone hf
    obtain ⟨-, -, -, hkernel, huser⟩ := intrExit_eq hf
    by_cases hring : s.cs % 4 = 3
    · exact huser s.esp s.ss hring (if_pos hring)
    · have hout : s.outer.length = 0 := congrArg List.length (if_neg hring)
      have htop : s.stackTop = s.esp := if_neg hring
      have hback : t.esp + 68 = s.esp := by
        rw [hk.esp]
        omega
      have hsame : t.ss = s.ss := by
        rw [hk.ss, hss]
        exact if_neg hring
      rw [hkernel hring, hback, hsame]
  unfold zeroWord at hframe hgood
  cases errCode with
  | none =>
    by_cases hv : vec ∈ errorCodeVectors
    · -- the stub has pushed nothing: the way out skips `eip`
      rw [if_pos hv] at hframe
      have heip := intrExit_eip hframe
      have hno : t.intrExit.toRegs ≠ s.toRegs := fun h => hne ((congrArg Regs.eip h).symm.trans heip)
      simp [hno, hv]
    · rw [if_neg hv] at hframe hgood
      simp [hgood 0 rfl hframe, hv]
  | some e =>
    by_cases hv : vec ∈ errorCodeVectors
    · rw [if_pos hv] at hframe hgood
      simp [hgood e rfl hframe, hv]
    · -- the stub has pushed a 0 in front of the code: the code is taken for `eip`
      rw [if_neg hv] at hframe
      obtain ⟨-, -, hcs, -⟩ := intrExit_eq hframe
      have hno : t.intrExit.toRegs ≠ s.toRegs := fun h => hne (hcs.symm.trans (congrArg Regs.cs h))
      simp [hno, hv]

/-- A program in ring 3, with its kernel stack below 4096. -/
def programCpu : Cpu where
  toRegs := ⟨1, 2, 3, 4, 0xbffffff0, 5, 6, 7, selectorUData, selectorUData, selectorUData, 0,
    0x8048000, selectorUCode, 0x202, selectorUData⟩
  esp0 := 4096
  mem := fun _ => 0

theorem interrupt_resumes_iff_timer :
    ((programCpu.trap none).entry 0x20).intrExit.toRegs = programCpu.toRegs ↔
      ((none : Option Nat).isSome ↔ 0x20 ∈ errorCodeVectors) :=
  interrupt_resumes_iff (by decide) (by decide) ⟨rfl, rfl, fun _ _ _ => rfl⟩

end

end OsCore.Kernel
