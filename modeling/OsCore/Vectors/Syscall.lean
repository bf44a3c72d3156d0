import OsCore.Vectors.Interrupt

/-!
# System calls (`lib/user/syscall.c`, `syscall_handler`, `userprog/syscall-init.c`)

A wrapper of the user library loads a number into `eax` and up to three
arguments into `ebx`, `ecx` and `edx`, and executes `int 0x80`. The handler
saves the context like an interrupt's, pushes the three registers as the
arguments of a C function and calls entry `eax` of `syscall_table`; what the
function returns is put into the saved `eax`.

Three lists have to agree for that: the numbers of the wrappers, the places
`syscall_init` fills, and the functions. `UserCall` are the calls of the library,
each with its arguments; `system_call_returns` says that each reaches the function
of its name with these arguments, and comes back with nothing but `eax` changed.

The number is not checked: `syscall_dispatch` says what is called for any `eax`.
-/

namespace OsCore.Kernel

open Lib

/-! ## Numbers and functions -/

/-- `enum SYSCALL_NR`. -/
inductive SyscallNr
  | getpid | write | malloc | free | fork | read | putchar | clear | getcwd | open | close | lseek
  | unlink | mkdir | opendir | closedir | chdir | rmdir | readdir | rewinddir | stat | ps | execv
  | exit | wait | pipe | fdRedirect | help
  deriving DecidableEq, Repr

/-- The functions that `syscall_init` enters. -/
inductive SysFunction
  | sysGetpid | sysWrite | sysMalloc | sysFree | sysFork | sysRead | sysPutchar | clsScreen
  | sysGetcwd | sysOpen | sysClose | sysLseek | sysUnlink | sysMkdir | sysOpendir | sysClosedir
  | sysChdir | sysRmdir | sysReaddir | sysRewinddir | sysStat | sysPs | sysExecv | sysExit | sysWait
  | sysPipe | sysFdRedirect | sysHelp
  deriving DecidableEq, Repr

/-- The value of an enumerator. -/
def SyscallNr.value (n : SyscallNr) : Nat := n.ctorIdx

/-- The assignments of `syscall_init`, in order. -/
def syscallEntries : List (SyscallNr × SysFunction) :=
  [(.getpid, .sysGetpid), (.write, .sysWrite), (.malloc, .sysMalloc), (.free, .sysFree),
    (.fork, .sysFork), (.read, .sysRead), (.putchar, .sysPutchar), (.clear, .clsScreen),
    (.getcwd, .sysGetcwd), (.open, .sysOpen), (.close, .sysClose), (.lseek, .sysLseek),
    (.unlink, .sysUnlink), (.mkdir, .sysMkdir), (.opendir, .sysOpendir), (.closedir, .sysClosedir),
    (.chdir, .sysChdir), (.rmdir, .sysRmdir), (.readdir, .sysReaddir), (.rewinddir, .sysRewinddir),
    (.stat, .sysStat), (.ps, .sysPs), (.execv, .sysExecv), (.exit, .sysExit), (.wait, .sysWait),
    (.pipe, .sysPipe), (.fdRedirect, .sysFdRedirect), (.help, .sysHelp)]

/-- The size of `syscall_table`. -/
def syscallNr : Nat := 32

/-- Where the linker has put the table and the functions. -/
structure Addresses where
  syscallTable : Nat
  address : SysFunction → Nat

variable (l : Addresses)

/-- `syscall_init` on a kernel whose memory is `mem`. -/
def syscallInit (mem : Nat → Nat) : Nat → Nat :=
  syscallEntries.foldl (fun m e => Function.update m (l.syscallTable + 4 * e.1.value) (l.address e.2))
    mem

/-! ## The user library -/

/-- The calls of `syscall.c` with their arguments. -/
inductive UserCall
  | getpid
  | write (fd buf count : Nat)
  | malloc (size : Nat)
  | free (ptr : Nat)
  | fork
  | read (fd buf count : Nat)
  | putchar (charAsci : Nat)
  | clear
  | getcwd (buf size : Nat)
  | open (pathname flag : Nat)
  | close (fd : Nat)
  | lseek (fd offset whence : Nat)
  | unlink (pathname : Nat)
  | mkdir (pathname : Nat)
  | opendir (name : Nat)
  | closedir (dir : Nat)
  | rmdir (pathname : Nat)
  | readdir (dir : Nat)
  | rewinddir (dir : Nat)
  | stat (path buf : Nat)
  | chdir (path : Nat)
  | ps
  | execv (pathname argv : Nat)
  | exit (status : Nat)
  | wait (status : Nat)
  | pipe (pipefd : Nat)
  | fdRedirect (oldLocalFd newLocalFd : Nat)
  | help
  deriving DecidableEq, Repr

/-- `_syscall0`. -/
def syscall0 (nr : SyscallNr) (r : Regs) : Regs := { r with eax := nr.value }

/-- `_syscall1`. -/
def syscall1 (nr : SyscallNr) (arg1 : Nat) (r : Regs) : Regs :=
  { r with eax := nr.value, ebx := arg1 }

/-- `_syscall2`. -/
def syscall2 (nr : SyscallNr) (arg1 arg2 : Nat) (r : Regs) : Regs :=
  { r with eax := nr.value, ebx := arg1, ecx := arg2 }

/-- `_syscall3`. -/
def syscall3 (nr : SyscallNr) (arg1 arg2 arg3 : Nat) (r : Regs) : Regs :=
  { r with eax := nr.value, ebx := arg1, ecx := arg2, edx := arg3 }

namespace UserCall

/-- The registers at the `int 0x80` of the wrapper. -/
def load : UserCall → Regs → Regs
  | getpid => syscall0 .getpid
  | write fd buf count => syscall3 .write fd buf count
  | malloc size => syscall1 .malloc size
  | free ptr => syscall1 .free ptr
  | fork => syscall0 .fork
  | read fd buf count => syscall3 .read fd buf count
  | putchar charAsci => syscall1 .putchar charAsci
  | clear => syscall0 .clear
  | getcwd buf size => syscall2 .getcwd buf size
  | .open pathname flag => syscall2 .open pathname flag
  | close fd => syscall1 .close fd
  | lseek fd offset whence => syscall3 .lseek fd offset whence
  | unlink pathname => syscall1 .unlink pathname
  | mkdir pathname => syscall1 .mkdir pathname
  | opendir name => syscall1 .opendir name
  | closedir dir => syscall1 .closedir dir
  | rmdir pathname => syscall1 .rmdir pathname
  | readdir dir => syscall1 .readdir dir
  | rewinddir dir => syscall1 .rewinddir dir
  | stat path buf => syscall2 .stat path buf
  | chdir path => syscall1 .chdir path
  | ps => syscall0 .ps
  | execv pathname argv => syscall2 .execv pathname argv
  | exit status => syscall1 .exit status
  | wait status => syscall1 .wait status
  | pipe pipefd => syscall1 .pipe pipefd
  | fdRedirect oldLocalFd newLocalFd => syscall2 .fdRedirect oldLocalFd newLocalFd
  | help => syscall0 .help

/-- The kernel function a call is meant for. -/
def function : UserCall → SysFunction
  | getpid => .sysGetpid
  | write .. => .sysWrite
  | malloc _ => .sysMalloc
  | free _ => .sysFree
  | fork => .sysFork
  | read .. => .sysRead
  | putchar _ => .sysPutchar
  | clear => .clsScreen
  | getcwd .. => .sysGetcwd
  | .open .. => .sysOpen
  | close _ => .sysClose
  | lseek .. => .sysLseek
  | unlink _ => .sysUnlink
  | mkdir _ => .sysMkdir
  | opendir _ => .sysOpendir
  | closedir _ => .sysClosedir
  | rmdir _ => .sysRmdir
  | readdir _ => .sysReaddir
  | rewinddir _ => .sysRewinddir
  | stat .. => .sysStat
  | chdir _ => .sysChdir
  | ps => .sysPs
  | execv .. => .sysExecv
  | exit _ => .sysExit
  | wait _ => .sysWait
  | pipe _ => .sysPipe
  | fdRedirect .. => .sysFdRedirect
  | help => .sysHelp

/-- The arguments it is meant to have. -/
def args : UserCall → List Nat
  | getpid | fork | clear | ps | help => []
  | malloc a | free a | putchar a | close a | unlink a | mkdir a | opendir a | closedir a | rmdir a
  | readdir a | rewinddir a | chdir a | exit a | wait a | pipe a => [a]
  | getcwd a b | .open a b | stat a b | execv a b | fdRedirect a b => [a, b]
  | write a b c | read a b c | lseek a b c => [a, b, c]

end UserCall

/-! ## `syscall_handler` -/

namespace Cpu

/-- Up to the call. -/
def syscallEntry (s : Cpu) : Cpu :=
  let s := s.push 0
  let s := s.pushes [s.ds, s.es, s.fs, s.gs]
  let s := s.pushad
  let s := s.push 0x80
  s.pushes [s.edx, s.ecx, s.ebx]

/-- Where `call [syscall_table + eax * 4]` finds the address. -/
def syscallSlot (s : Cpu) : Nat := (l.syscallTable + s.eax * 4) % 2 ^ 32

/-- Behind the call. -/
def syscallReturn (s : Cpu) : Cpu :=
  let s := { s with esp := s.esp + 12 }
  let s := { s with mem := Function.update s.mem (s.esp + 8 * 4) s.eax }
  s.intrExit

end Cpu

/-! ## The table -/

variable {l}

theorem SyscallNr.value_inj {m n : SyscallNr} (h : m.value = n.value) : m = n := by
  cases m <;> cases n <;> first | rfl | exact absurd h (by decide)

theorem SyscallNr.value_lt (n : SyscallNr) : n.value < 28 := by
  cases n <;> decide

/-- Entries that are made for other numbers do not matter. -/
theorem foldl_entries_ne {es : List (SyscallNr × SysFunction)} {n : SyscallNr}
    (h : ∀ e ∈ es, e.1 ≠ n) (mem : Nat → Nat) :
    es.foldl (fun m e => Function.update m (l.syscallTable + 4 * e.1.value) (l.address e.2)) mem
      (l.syscallTable + 4 * n.value) = mem (l.syscallTable + 4 * n.value) := by
  induction es generalizing mem with
  | nil => rfl
  | cons e es ih =>
    rw [List.foldl_cons, ih fun e' he' => h e' (List.mem_cons_of_mem _ he')]
    refine Function.update_of_ne (fun heq => h e List.mem_cons_self ?_) _ _
    exact (SyscallNr.value_inj (by omega)).symm

/-- **Every number has its function.** -/
theorem foldl_entries {es : List (SyscallNr × SysFunction)} (hnodup : (es.map (·.1)).Nodup)
    {n : SyscallNr} {f : SysFunction} (h : (n, f) ∈ es) (mem : Nat → Nat) :
    es.foldl (fun m e => Function.update m (l.syscallTable + 4 * e.1.value) (l.address e.2)) mem
      (l.syscallTable + 4 * n.value) = l.address f := by
  induction es generalizing mem with
  | nil => cases h
  | cons e es ih =>
    rw [List.map_cons, List.nodup_cons] at hnodup
    rw [List.foldl_cons]
    rcases List.mem_cons.mp h with rfl | h
    · rw [foldl_entries_ne fun e' he' heq => hnodup.1 (List.mem_map.mpr ⟨e', he', heq⟩)]
      exact Function.update_self _ _ _
    · exact ih hnodup.2 h _

theorem syscallInit_mem {n : SyscallNr} {f : SysFunction} (h : (n, f) ∈ syscallEntries)
    (mem : Nat → Nat) : syscallInit l mem (l.syscallTable + 4 * n.value) = l.address f :=
  foldl_entries (by decide) h mem

/-- Where the table has no entry, memory is as before. -/
theorem syscallInit_other (mem : Nat → Nat) {b : Nat}
    (h : ∀ n : SyscallNr, b ≠ l.syscallTable + 4 * n.value) : syscallInit l mem b = mem b := by
  unfold syscallInit
  induction syscallEntries generalizing mem with
  | nil => rfl
  | cons e es ih =>
    rw [List.foldl_cons, ih]
    exact Function.update_of_ne (h e.1) _ _

/-- The call's number is that of its function. -/
theorem UserCall.load_entry (c : UserCall) (r : Regs) :
    ∃ n, (n, c.function) ∈ syscallEntries ∧ (c.load r).eax = n.value := by
  cases c <;> exact ⟨_, by simp [syscallEntries, UserCall.function]; rfl, rfl⟩

/-- The arguments are the first of the three registers. -/
theorem UserCall.load_args (c : UserCall) (r : Regs) :
    c.args <+: [(c.load r).ebx, (c.load r).ecx, (c.load r).edx] := by
  cases c <;> simp [UserCall.args, UserCall.load, syscall1, syscall2, syscall3]

/-! ## The handler -/

section

variable {s t : Cpu}

/-- The handler's pushes, one after the other. -/
theorem syscallEntry_eq (s : Cpu) : ∃ espDummy, s.syscallEntry = s.pushes ([0] ++
    [s.ds, s.es, s.fs, s.gs] ++ [s.eax, s.ecx, s.edx, s.ebx, espDummy, s.ebp, s.esi, s.edi] ++
      [0x80] ++ [s.edx, s.ecx, s.ebx]) := by
  unfold Cpu.syscallEntry Cpu.pushad
  simp only [Cpu.push_eq, Cpu.pushes_toRegs, ← Cpu.pushes_append]
  exact ⟨_, rfl⟩

theorem syscallEntry_stacked (s : Cpu) {ws : List Nat} (h : Stacked s.mem s.esp ws)
    (hroom : 68 ≤ s.esp) : ∃ espDummy,
    Stacked s.syscallEntry.mem s.syscallEntry.esp
      ([s.ebx, s.ecx, s.edx] ++ (s.saved 0x80 espDummy ++ 0 :: ws)) ∧
    s.syscallEntry.toRegs = { s.toRegs with esp := s.esp - 68 } ∧ s.syscallEntry.esp0 = s.esp0 ∧
    ∀ b, b + 68 < s.esp ∨ s.esp ≤ b → s.syscallEntry.mem b = s.mem b := by
  obtain ⟨espDummy, hentry⟩ := syscallEntry_eq s
  refine ⟨espDummy, ?_, ?_, ?_, fun b hb => ?_⟩
  · rw [hentry, Cpu.pushes_toRegs]
    exact Cpu.pushes_stacked _ h hroom
  · rw [hentry, Cpu.pushes_toRegs]
    rfl
  · rw [hentry, Cpu.pushes_esp0]
  · rw [hentry]
    apply Cpu.pushes_mem
    · exact hroom
    · show b < s.esp - 68 ∨ s.esp ≤ b
      omega

/-- **What the called function finds**: its arguments, then the frame. -/
theorem syscall_stacked (hring : s.cs % 4 = 3) (hroom : 92 ≤ s.esp0) : ∃ espDummy,
    Stacked (s.trap none).syscallEntry.mem (s.trap none).syscallEntry.esp
      ([s.ebx, s.ecx, s.edx] ++ (s.saved 0x80 espDummy ++ 0 :: s.eip :: s.cs :: s.eflags ::
        [s.esp, s.ss])) ∧
    (s.trap none).syscallEntry.esp = s.esp0 - 88 ∧
    (s.trap none).syscallEntry.eax = s.eax ∧
    (s.trap none).syscallEntry.cs = selectorKCode ∧
    (s.trap none).syscallEntry.esp0 = s.esp0 ∧
    ∀ b, s.esp0 ≤ b ∨ b + 92 < s.esp0 → (s.trap none).syscallEntry.mem b = s.mem b := by
  have htop : s.stackTop = s.esp0 := if_pos hring
  have houter : s.outer = [s.esp, s.ss] := if_pos hring
  obtain ⟨mem, htrap, hafter, hmem⟩ := trap_stacked s none (by omega)
  have hesp : (s.trap none).esp = s.esp0 - 20 := by
    rw [htrap, houter, htop]
    rfl
  have hstack : Stacked (s.trap none).mem (s.trap none).esp
      (s.eip :: s.cs :: s.eflags :: [s.esp, s.ss]) := by
    rw [htrap]
    rw [houter] at hafter ⊢
    exact hafter
  obtain ⟨espDummy, hframe, hregs, htss, hbelow⟩ := syscallEntry_stacked (s.trap none) hstack (by omega)
  have hsaved : (s.trap none).saved 0x80 espDummy = s.saved 0x80 espDummy := by rw [htrap]; rfl
  refine ⟨espDummy, ?_, ?_, ?_, ?_, ?_, fun b hb => ?_⟩
  · rw [hsaved] at hframe
    rw [htrap] at hframe ⊢
    exact hframe
  · rw [hregs]
    show (s.trap none).esp - 68 = s.esp0 - 88
    omega
  · rw [hregs, htrap]
  · rw [hregs, htrap]
  · rw [htss, htrap]
  · rw [hbelow b (by omega), htrap]
    exact hmem b (by omega)

/-- The way back, once the function has returned to the handler. -/
theorem syscallReturn_eq {r : Regs} {vecNo espDummy errCode eip cs eflags esp ss : Nat}
    {args : List Nat} (hargs : args.length = 3) (hring : cs % 4 = 3)
    (h : Stacked t.mem t.esp (args ++ (r.saved vecNo espDummy ++ errCode :: eip :: cs :: eflags ::
      [esp, ss]))) :
    t.syscallReturn.toRegs = { r with eax := t.eax, eip, cs, eflags, esp, ss } := by
  have hframe := (stacked_append.mp h).2
  rw [hargs] at hframe
  have hset := hframe.set (w := t.eax) 8 (by simp [Regs.saved])
  have hplace : t.esp + 4 * 3 + 4 * 8 = t.esp + 12 + 8 * 4 := by omega
  rw [hplace] at hset
  exact (intrExit_eq (r := { r with eax := t.eax }) hset).2.2.2.2 esp ss hring rfl

/-- **A call of the library** reaches the function of its name with its arguments,
and when that returns the program goes on with the result in `eax` and all other
registers as they were. -/
theorem system_call_returns {c : UserCall} {r : Regs} {boot : Nat → Nat} (hload : s.toRegs = c.load r)
    (hring : s.cs % 4 = 3) (hroom : 92 ≤ s.esp0)
    (hmem : ∀ n : SyscallNr, s.mem (l.syscallTable + 4 * n.value) =
      syscallInit l boot (l.syscallTable + 4 * n.value))
    (htable : l.syscallTable + 4 * syscallNr ≤ 2 ^ 32)
    (happart : s.esp0 ≤ l.syscallTable ∨ l.syscallTable + 4 * syscallNr + 92 ≤ s.esp0) :
    (s.trap none).syscallEntry.mem ((s.trap none).syscallEntry.syscallSlot l) =
        l.address c.function ∧
      (∃ rest, Stacked (s.trap none).syscallEntry.mem (s.trap none).syscallEntry.esp
        (c.args ++ rest)) ∧
      ∀ t, FrameKept (s.trap none).syscallEntry t s.esp0 →
        t.syscallReturn.toRegs = { s.toRegs with eax := t.eax } := by
  obtain ⟨espDummy, hstack, hesp, heax, -, -, hframe⟩ := syscall_stacked hring hroom
  refine ⟨?_, ?_, fun t hk => ?_⟩
  · obtain ⟨n, hentry, hnr⟩ := c.load_entry r
    have hlt := n.value_lt
    unfold syscallNr at htable happart
    have hslot : (s.trap none).syscallEntry.syscallSlot l = l.syscallTable + 4 * n.value := by
      unfold Cpu.syscallSlot
      rw [heax, hload, hnr, Nat.mul_comm]
      exact Nat.mod_eq_of_lt (by omega)
    rw [hslot, hframe _ (by omega), hmem, syscallInit_mem hentry]
  · obtain ⟨unused, hargs⟩ := c.load_args r
    rw [hload, ← hargs, List.append_assoc] at hstack
    exact ⟨_, hstack⟩
  · have hkept : Stacked t.mem t.esp ([s.ebx, s.ecx, s.edx] ++ (s.saved 0x80 espDummy ++ 0 ::
        s.eip :: s.cs :: s.eflags :: [s.esp, s.ss])) := by
      rw [hk.esp]
      refine hstack.congr fun b hb hlt => hk.frame b hb ?_
      simp only [hesp, Regs.saved, List.length_append, List.length_cons, List.length_nil] at hlt
      omega
    rw [syscallReturn_eq rfl hring hkept]

/-- A kernel with the table at 8192, and a program in it that calls
`write(1, 4096, 5)`. -/
def sampleAddresses : Addresses := ⟨8192, fun f => 16 * f.ctorIdx⟩

def writeCall : UserCall := .write 1 4096 5

def writingCpu : Cpu where
  toRegs := writeCall.load ⟨0, 0, 9, 0, 0xbffffff0, 0, 0, 0, selectorUData, selectorUData, selectorUData,
    0, 0x8048000, selectorUCode, 0x202, selectorUData⟩
  esp0 := 4096
  mem := syscallInit sampleAddresses fun _ => 0

theorem system_call_returns_write :
    (writingCpu.trap none).syscallEntry.mem
        ((writingCpu.trap none).syscallEntry.syscallSlot sampleAddresses) =
        sampleAddresses.address .sysWrite ∧
      (∃ rest, Stacked (writingCpu.trap none).syscallEntry.mem (writingCpu.trap none).syscallEntry.esp
        ([1, 4096, 5] ++ rest)) ∧
      ∀ t, FrameKept (writingCpu.trap none).syscallEntry t 4096 →
        t.syscallReturn.toRegs = { writingCpu.toRegs with eax := t.eax } :=
  system_call_returns (c := writeCall) (l := sampleAddresses) rfl rfl (by decide) (fun _ => rfl)
    (by decide) (Or.inl (by decide))

/-! ## Any number -/

/-- **The number is not checked**: a function of the table is called exactly for a
number whose low 30 bits are one of the 28 numbers; any other finds a word that
`syscall_init` has not written. -/
theorem syscall_dispatch_iff (l : Addresses) (boot : Nat → Nat) (s : Cpu)
    (htable : l.syscallTable + 4 * syscallNr ≤ 2 ^ 32) :
    ((∃ e ∈ syscallEntries, s.syscallSlot l = l.syscallTable + 4 * e.1.value ∧
        syscallInit l boot (s.syscallSlot l) = l.address e.2) ↔ s.eax % 2 ^ 30 < 28) ∧
      (28 ≤ s.eax % 2 ^ 30 → syscallInit l boot (s.syscallSlot l) = boot (s.syscallSlot l)) := by
  have hslot : ∀ n : SyscallNr, s.syscallSlot l = l.syscallTable + 4 * n.value ↔
      s.eax % 2 ^ 30 = n.value := by
    intro n
    have hlt := n.value_lt
    unfold syscallNr at htable
    unfold Cpu.syscallSlot
    omega
  refine ⟨⟨?_, fun hlt => ?_⟩, fun hge => syscallInit_other _ fun n heq => ?_⟩
  · rintro ⟨e, -, heq, -⟩
    rw [(hslot e.1).mp heq]
    exact e.1.value_lt
  · have hall : ∀ k < 28, ∃ e ∈ syscallEntries, k = e.1.value := by decide
    obtain ⟨e, he, hk⟩ := hall _ hlt
    have heq := (hslot e.1).mpr hk
    exact ⟨e, he, heq, by rw [heq]; exact syscallInit_mem he _⟩
  · have hlt := n.value_lt
    rw [(hslot n).mp heq] at hge
    omega

theorem syscall_dispatch_iff_past_the_end :
    ((∃ e ∈ syscallEntries, ({ writingCpu with eax := 2 ^ 30 + 1 } : Cpu).syscallSlot sampleAddresses =
        sampleAddresses.syscallTable + 4 * e.1.value ∧
        syscallInit sampleAddresses (fun _ => 0)
          (({ writingCpu with eax := 2 ^ 30 + 1 } : Cpu).syscallSlot sampleAddresses) =
            sampleAddresses.address e.2) ↔ (2 ^ 30 + 1) % 2 ^ 30 < 28) ∧
      (28 ≤ (2 ^ 30 + 1) % 2 ^ 30 → syscallInit sampleAddresses (fun _ => 0)
        (({ writingCpu with eax := 2 ^ 30 + 1 } : Cpu).syscallSlot sampleAddresses) =
          (fun _ => 0) (({ writingCpu with eax := 2 ^ 30 + 1 } : Cpu).syscallSlot sampleAddresses)) :=
  syscall_dispatch_iff sampleAddresses (fun _ => 0) { writingCpu with eax := 2 ^ 30 + 1 } (by decide)

end

end OsCore.Kernel
