import OsCore.Fs.Reading
import OsCore.Shell.Pipe

/-!
# Calls on a descriptor (`fs/fs.c`)

`sys_close`, `sys_read`, `sys_write` and `sys_lseek` all come to `fd_local2global`,
which reads `fd_table` at the index it is given and asserts that an entry of
`file_table` is there. What they do before that is all that keeps a bad descriptor
from it, and it differs: a negative one is sent back by all four, the standard ones by
`sys_close`, and the two standard outputs by `sys_read`. So these are rejected
(`bad_fd_rejected_iff`). Any other descriptor that is not open is read outside
`fd_table`, or fails the assertion.

The second subject is `sys_write` to the console. The bytes are copied by their count
and printed up to the first zero byte, out of an array of 1024 bytes that is clear
before. So there must be a byte left for a zero; if there is none, what lies behind
the array decides (`console_write_iff`).
-/

namespace OsCore.Fs

open OsCore.Lib
open Device (Ioqueue)

variable {p : Partition}

/-! ## The code -/

/-- The file system with the pipes by the address of their page, the keyboard's
buffer, and what has been printed. -/
structure Io (p : Partition) where
  fs : FileSys p
  pipes : Nat → Ioqueue
  kbdBuf : Ioqueue
  console : List UInt8

/-- `fd_local2global(local_fd)` by task `t`, inside the eight elements of
`fd_table`. -/
def FileSys.globalFd (k : FileSys p) (t : Nat) (localFd : Int) : Option Nat := do
  ensure (0 ≤ localFd ∧ localFd < 8)
  fdLocal2global (k.pcb t).fdTable localFd.toNat

/-- `is_pipe(local_fd)` -/
def FileSys.isPipe (k : FileSys p) (t : Nat) (localFd : Int) : Option Bool := do
  let globalFd ← k.globalFd t localFd
  return (k.fileTable globalFd).fdFlag == pipeFlag

/-- A call of `file_write` for entry `g` of `file_table`. -/
def FileSys.fileWriteAt (k : FileSys p) (g : Nat) (buf : Mem) (count : Nat) :
    Option (Int × FileSys p) := do
  let file := k.fileTable g
  let inode ← k.part.inodeAt file.fdInode
  let (ret, vol, f) ← fileWrite k.part.vol ⟨file.fdPos, file.fdFlag, inode⟩ buf count
  let part := { k.part with vol }.modifyInode file.fdInode fun _ => f.inode
  return (ret, { k with part }.setSlot g { file with fdPos := f.fdPos })

namespace Io

variable (io : Io p)

/-- `console_put_str(str)`, where `str` has all the bytes up to some zero byte. -/
def consolePutStr (str : List UInt8) : Option (Io p) := do
  ensure (0 ∈ str)
  return { io with console := io.console ++ str.takeWhile (· ≠ 0) }

/-- A text of the source. -/
def print (s : String) : Io p :=
  { io with console := io.console ++ s.toList.map Char.toUInt8 }

def sysClose (t : Nat) (fd : Int) : Option (Int × Io p) :=
  (Fs.sysClose io.fs t fd).map fun (ret, fs) => (ret, { io with fs })

def sysLseek (t : Nat) (fd offset : Int) (whence : Whence) : Option (Int × Io p) :=
  if fd < 0 then some (-1, io.print "sys_lseek: fd error\n")
  else (io.fs.sysLseek t fd offset whence).map fun (ret, fs) => (ret, { io with fs })

/-- The address of the pipe of `fd`. -/
def pipeOf (t : Nat) (fd : Int) : Option Nat := do
  let globalFd ← io.fs.globalFd t fd
  return (io.fs.fileTable globalFd).fdInode

def pipeRead (t : Nat) (fd : Int) (count : Nat) : Option (Int × Mem × Io p) := do
  let a ← io.pipeOf t fd
  let (ret, bytes, ioq) ← Shell.pipeRead (io.pipes a) count
  return (ret, fun i => bytes.getD i 0, { io with pipes := Function.update io.pipes a ioq })

def pipeWrite (t : Nat) (fd : Int) (buf : List UInt8) : Option (Int × Io p) := do
  let a ← io.pipeOf t fd
  let (ret, ioq) ← Shell.pipeWrite (io.pipes a) buf
  return (ret, { io with pipes := Function.update io.pipes a ioq })

/-- `char tmp_buf[1024] = {0}; memcpy(tmp_buf, buf, count);` and the bytes behind. -/
def tmpBuf (buf behind : List UInt8) : Option (List UInt8) := do
  ensure (buf.length ≤ 1024)
  return buf ++ List.replicate (1024 - buf.length) 0 ++ behind

/-- `sys_write(fd, buf, count)` by task `t`, where `buf` has `count` bytes; `behind` is
what lies on the stack behind `tmp_buf`. -/
def sysWrite (behind : List UInt8) (t : Nat) (fd : Int) (buf : List UInt8) :
    Option (Int × Io p) := do
  if fd < 0 then return (-1, io.print "sys_write: fd error\n")
  if fd = 1 then
    if ← io.fs.isPipe t fd then io.pipeWrite t fd buf
    else
      let tmpBuf ← tmpBuf buf behind
      let io ← io.consolePutStr tmpBuf
      return (toInt32 buf.length, io)
  else if ← io.fs.isPipe t fd then io.pipeWrite t fd buf
  else
    let globalFd ← io.fs.globalFd t fd
    if writes (io.fs.fileTable globalFd).fdFlag then
      let (ret, fs) ← io.fs.fileWriteAt globalFd (fun i => buf.getD i 0) buf.length
      return (ret, { io with fs })
    else
      return (-1, io.print
        "sys_write: not allowed to write file without flag O_RDWR or O_WRONLY\n")

/-- `sys_read(fd, buf, count)` by task `t`, into a buffer of zeros. Where the keyboard
has too few keys, the call waits. -/
def sysRead (t : Nat) (fd : Int) (count : Nat) : Option (Int × Mem × Io p) := do
  if fd < 0 ∨ fd = 1 ∨ fd = 2 then return (-1, Mem.zero, io.print "sys_read: fd error\n")
  else if fd = 0 then
    if ← io.fs.isPipe t fd then io.pipeRead t fd count
    else
      let (bytesRead, bytes, kbdBuf) ← Shell.readLoop count 0 io.kbdBuf
      let ret := if bytesRead = 0 then -1 else toInt32 bytesRead
      return (ret, fun i => bytes.getD i 0, { io with kbdBuf })
  else if ← io.fs.isPipe t fd then io.pipeRead t fd count
  else
    let (ret, buf, fs) ← io.fs.sysRead t fd count
    return (ret, buf, { io with fs })

end Io

/-! ## Descriptors that are not open -/

/-- The four calls, with what they are given beside the descriptor. -/
inductive FdCall
  | close
  | read (count : Nat)
  | write (buf behind : List UInt8)
  | lseek (offset : Int) (whence : Whence)

def Io.call (io : Io p) (t : Nat) (fd : Int) : FdCall → Option (Int × Io p)
  | .close => io.sysClose t fd
  | .read count => (io.sysRead t fd count).map fun (ret, _, io) => (ret, io)
  | .write buf behind => io.sysWrite behind t fd buf
  | .lseek offset whence => io.sysLseek t fd offset whence

/-- `fd` is no open descriptor of task `t`. -/
def BadFd (k : FileSys p) (t : Nat) (fd : Int) : Prop :=
  fd < 0 ∨ 8 ≤ fd ∨ (k.pcb t).fdTable fd.toNat = -1

/-- The call returns -1 and changes nothing, though it may print. -/
def Io.Rejects (io : Io p) (t : Nat) (fd : Int) (c : FdCall) : Prop :=
  ∃ io', io.call t fd c = some (-1, io') ∧ io'.fs = io.fs ∧ io'.pipes = io.pipes ∧
    io'.kbdBuf = io.kbdBuf

/-- What each call sends back before it looks at `fd_table`. -/
def FdCall.Filters (fd : Int) : FdCall → Prop
  | .close => fd ≤ 2
  | .read _ => fd < 0 ∨ fd = 1 ∨ fd = 2
  | .write .. => fd < 0
  | .lseek .. => fd < 0

section

variable {io : Io p} {t : Nat} {fd : Int}

/-- Inside `fd_table`, the assertion fails. -/
theorem fdLocal2global_none (hbad : BadFd io.fs t fd) (hpos : 0 ≤ fd) (hlt : fd < 8) :
    fdLocal2global (io.fs.pcb t).fdTable fd.toNat = none := by
  have hfree : (io.fs.pcb t).fdTable fd.toNat = -1 := by
    rcases hbad with hneg | hbig | hfree
    · omega
    · omega
    · exact hfree
  have hassert : ¬ (0 ≤ (io.fs.pcb t).fdTable fd.toNat ∧ (io.fs.pcb t).fdTable fd.toNat < 32) := by
    rw [hfree]
    decide
  rw [fdLocal2global, ensure_neg hassert]
  rfl

theorem isPipe_none (hbad : BadFd io.fs t fd) (hpos : 0 ≤ fd) : io.fs.isPipe t fd = none := by
  rw [FileSys.isPipe, FileSys.globalFd]
  by_cases hlt : fd < 8
  · rw [ensure_pos ⟨hpos, hlt⟩, Option.bind_eq_bind, Option.bind_eq_bind, Option.bind_some,
      fdLocal2global_none hbad hpos hlt]
    rfl
  · rw [ensure_neg (by omega)]
    rfl

/-- A bad descriptor that is let through ends the call. -/
theorem call_none (hbad : BadFd io.fs t fd) {c : FdCall} (hthrough : ¬ c.Filters fd) :
    io.call t fd c = none := by
  cases c with
  | close =>
    have hpos : 2 < fd := Int.not_le.mp hthrough
    rw [Io.call, Io.sysClose, sysClose, if_pos hpos]
    by_cases hlt : fd < 8
    · rw [ensure_pos hlt, fdLocal2global_none hbad (by omega) hlt]
      rfl
    · rw [ensure_neg hlt]
      rfl
  | read count =>
    have hpos : ¬ (fd < 0 ∨ fd = 1 ∨ fd = 2) := hthrough
    rw [Io.call, Io.sysRead, if_neg hpos, isPipe_none hbad (by omega)]
    split <;> rfl
  | write buf behind =>
    have hpos : ¬ fd < 0 := hthrough
    rw [Io.call, Io.sysWrite, if_neg hpos, isPipe_none hbad (by omega)]
    split <;> rfl
  | lseek offset whence =>
    have hpos : ¬ fd < 0 := hthrough
    rw [Io.call, Io.sysLseek, if_neg hpos, FileSys.sysLseek, if_neg hpos]
    by_cases hlt : fd < 8
    · rw [ensure_pos hlt, fdLocal2global_none hbad (by omega) hlt]
      rfl
    · rw [ensure_neg hlt]
      rfl

/-- What a call sends back is rejected. -/
theorem rejects_of_filters {c : FdCall} (h : c.Filters fd) : io.Rejects t fd c := by
  cases c with
  | close =>
    have hlow : ¬ fd > 2 := Int.not_lt.mpr h
    refine ⟨io, ?_, rfl, rfl, rfl⟩
    rw [Io.call, Io.sysClose, sysClose, if_neg hlow]
    rfl
  | read count =>
    have hlow : fd < 0 ∨ fd = 1 ∨ fd = 2 := h
    refine ⟨io.print "sys_read: fd error\n", ?_, rfl, rfl, rfl⟩
    rw [Io.call, Io.sysRead, if_pos hlow]
    rfl
  | write buf behind =>
    have hneg : fd < 0 := h
    refine ⟨io.print "sys_write: fd error\n", ?_, rfl, rfl, rfl⟩
    rw [Io.call, Io.sysWrite, if_pos hneg]
    rfl
  | lseek offset whence =>
    have hneg : fd < 0 := h
    refine ⟨io.print "sys_lseek: fd error\n", ?_, rfl, rfl, rfl⟩
    rw [Io.call, Io.sysLseek, if_pos hneg]

end

/-- **Which bad descriptors are rejected**: the negative ones, and those up to 2 by
`sys_close`, 1 and 2 by `sys_read`. -/
theorem bad_fd_rejected_iff (io : Io p) (t : Nat) (fd : Int) (c : FdCall)
    (hbad : BadFd io.fs t fd) : io.Rejects t fd c ↔ c.Filters fd := by
  constructor
  · intro hrejects
    by_contra hthrough
    obtain ⟨io', hcall, -⟩ := hrejects
    rw [call_none hbad hthrough] at hcall
    cases hcall
  · exact rejects_of_filters

/-- The small system, with a keyboard. -/
def smallIo : Io blankPartition :=
  ⟨smallSys, fun _ => Device.rawQueue, Device.rawQueue, []⟩

theorem bad_fd_rejected_iff_negative : smallIo.Rejects 1 (-1) (.read 10) :=
  (bad_fd_rejected_iff smallIo 1 (-1) (.read 10) (Or.inl (by decide))).mpr (Or.inl (by decide))

/-- A process closes descriptor 3, which is not open: the kernel stops. -/
theorem second_close_stops : ¬ ∀ (io : Io blankPartition) (t : Nat) (fd : Int) (c : FdCall),
    BadFd io.fs t fd → io.Rejects t fd c := by
  intro h
  obtain ⟨io', hcall, -⟩ := h smallIo 1 3 .close (Or.inr (Or.inr rfl))
  have hnone : smallIo.call 1 3 .close = none := rfl
  rw [hnone] at hcall
  cases hcall

/-! ## Writing to the console -/

/-- `sys_write` prints the bytes, no more and no less, and returns their number. -/
def Io.Prints (io : Io p) (behind : List UInt8) (t : Nat) (buf : List UInt8) : Prop :=
  io.sysWrite behind t 1 buf =
    some (toInt32 buf.length, { io with console := io.console ++ buf })

/-- What is printed of bytes that are no zero and what lies behind them. -/
theorem consolePutStr_append (io : Io p) {buf : List UInt8} (hbuf : ∀ c ∈ buf, c ≠ 0)
    (rest : List UInt8) : io.consolePutStr (buf ++ rest) = if 0 ∈ rest then
      some { io with console := io.console ++ (buf ++ rest.takeWhile (· ≠ 0)) } else none := by
  have htake : (buf ++ rest).takeWhile (· ≠ 0) = buf ++ rest.takeWhile (· ≠ 0) :=
    List.takeWhile_append_of_pos fun c hc => by simpa using hbuf c hc
  have hmem : (0 : UInt8) ∈ buf ++ rest ↔ 0 ∈ rest := by
    rw [List.mem_append, or_iff_right]
    exact fun h => hbuf 0 h rfl
  rw [Io.consolePutStr, htake]
  by_cases h : (0 : UInt8) ∈ rest
  · rw [ensure_pos (hmem.mpr h), if_pos h]
    rfl
  · rw [ensure_neg (mt hmem.mp h), if_neg h]
    rfl

/-- The write, where no pipe is behind descriptor 1. -/
theorem sysWrite_console (io : Io p) (behind : List UInt8) (t : Nat) {buf : List UInt8}
    (hconsole : io.fs.isPipe t 1 = some false) (hbuf : ∀ c ∈ buf, c ≠ 0) :
    io.sysWrite behind t 1 buf = (ensure (buf.length ≤ 1024)).bind fun _ =>
      let rest := List.replicate (1024 - buf.length) 0 ++ behind
      if 0 ∈ rest then some (toInt32 buf.length,
        { io with console := io.console ++ (buf ++ rest.takeWhile (· ≠ 0)) }) else none := by
  rw [Io.sysWrite, if_neg (by decide), if_pos rfl, hconsole]
  dsimp only [Option.bind_eq_bind, Option.bind_some]
  rw [if_neg Bool.false_ne_true, Io.tmpBuf]
  by_cases hlen : buf.length ≤ 1024
  · simp only [ensure_pos hlen, Option.bind_eq_bind, Option.bind_some, Option.pure_def]
    rw [List.append_assoc, consolePutStr_append io hbuf]
    split <;> rfl
  · simp only [ensure_neg hlen, Option.bind_eq_bind, Option.bind_none]

/-- The array is full: a byte behind it that is no zero is printed too. -/
theorem full_write_longer (io : Io p) (behind : List UInt8) (t : Nat) {buf : List UInt8} {c : UInt8}
    (hconsole : io.fs.isPipe t 1 = some false) (hbuf : ∀ c ∈ buf, c ≠ 0)
    (hlen : buf.length = 1024) (hc : c ≠ 0) : ¬ io.Prints (c :: behind) t buf := by
  intro h
  have hroom : 1024 - buf.length = 0 := by omega
  rw [Io.Prints, sysWrite_console io _ t hconsole hbuf, ensure_pos hlen.le, Option.bind_some, hroom,
    List.replicate_zero, List.nil_append] at h
  dsimp only at h
  split at h
  · rw [List.takeWhile_cons, if_pos (by simpa using hc), Option.some.injEq, Prod.mk.injEq,
      Io.mk.injEq] at h
    have hbytes := congrArg List.length h.2.2.2.2
    simp only [List.length_append, List.length_cons] at hbytes
    omega
  · cases h

/-- **When a console write emits the bytes given**: where they leave room for a zero in
the array of 1024 bytes, or fill it and there is one behind it. -/
theorem console_write_iff (io : Io p) (behind : List UInt8) (t : Nat) (buf : List UInt8)
    (hconsole : io.fs.isPipe t 1 = some false) (hbuf : ∀ c ∈ buf, c ≠ 0) :
    io.Prints behind t buf ↔
      buf.length < 1024 ∨ buf.length = 1024 ∧ behind.head? = some 0 := by
  rcases Nat.lt_trichotomy buf.length 1024 with hlt | heq | hgt
  · -- the array has a zero behind the bytes
    obtain ⟨n, hn⟩ := Nat.exists_eq_add_of_lt hlt
    have hroom : 1024 - buf.length = n + 1 := by omega
    rw [Io.Prints, sysWrite_console io behind t hconsole hbuf, ensure_pos hlt.le, Option.bind_some,
      hroom, List.replicate_succ, List.cons_append]
    dsimp only
    rw [if_pos List.mem_cons_self, List.takeWhile_cons, if_neg (by decide), List.append_nil]
    exact iff_of_true rfl (Or.inl hlt)
  · have hroom : 1024 - buf.length = 0 := by omega
    have hfull : (buf.length < 1024 ∨ buf.length = 1024 ∧ behind.head? = some 0) ↔
        behind.head? = some 0 := by simp [heq]
    rw [hfull]
    cases behind with
    | nil =>
      rw [Io.Prints, sysWrite_console io [] t hconsole hbuf, ensure_pos heq.le, Option.bind_some,
        hroom]
      exact iff_of_false (fun h => by cases h) (fun h => by cases h)
    | cons c behind =>
      by_cases hc : c = 0
      · rw [hc, Io.Prints, sysWrite_console io _ t hconsole hbuf, ensure_pos heq.le,
          Option.bind_some, hroom, List.replicate_zero, List.nil_append]
        dsimp only
        rw [if_pos List.mem_cons_self, List.takeWhile_cons, if_neg (by decide), List.append_nil]
        exact iff_of_true rfl rfl
      · exact iff_of_false (full_write_longer io behind t hconsole hbuf heq hc)
          fun h => hc (Option.some.inj h)
  · rw [Io.Prints, sysWrite_console io behind t hconsole hbuf, ensure_neg (by omega)]
    exact iff_of_false (fun h => by cases h) (by omega)

theorem small_console : smallIo.fs.isPipe 1 1 = some false := rfl

/-- `hi` -/
theorem console_write_iff_hi : smallIo.Prints [] 1 [104, 105] :=
  (console_write_iff smallIo [] 1 [104, 105] small_console (by decide +kernel)).mpr
    (Or.inl (by decide))

/-- `cat` writes 1024 bytes at a time. A byte that lies behind the array is printed
with them. -/
theorem full_write_prints_more : ¬ ∀ (io : Io blankPartition) (behind : List UInt8) (t : Nat)
    (buf : List UInt8), io.fs.isPipe t 1 = some false → (∀ c ∈ buf, c ≠ 0) →
      io.Prints behind t buf := by
  intro h
  have hbuf : ∀ c ∈ List.replicate 1024 (120 : UInt8), c ≠ 0 := fun c hc => by
    rw [List.eq_of_mem_replicate hc]
    decide
  exact full_write_longer smallIo [0] 1 small_console hbuf List.length_replicate (by decide)
    (h smallIo [33, 0] 1 _ small_console hbuf)

end OsCore.Fs
