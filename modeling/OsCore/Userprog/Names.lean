import OsCore.Lib.CString
import OsCore.Userprog.Family

/-!
# The name of a process

A PCB has 16 bytes for the name. `sys_execv` copies the first 16 bytes of the
path into them and puts a zero byte at the end, so a name has up to 15 bytes.
`sys_fork` appends `_fork` to the copy the child gets, and asserts first that
there is room: fewer than 11 bytes.

Nothing keeps a name that short. It is as long as the path last executed, cut
off at 15, and 5 bytes longer for each fork since (`NameRight`). So the
assertion fails, and the kernel stops, in the third generation after `init` or
after a program whose path has one to five bytes, in the second after one of up
to ten, and at once where the path has more. Where it holds, and in all states
up to there, the name ends within its bytes (`fork_name_assert_iff`).
-/

namespace OsCore.Userprog

open Lib

/-! ## The code -/

def taskNameLen : Nat := 16

/-- The longest path is shorter than this. -/
def maxPathLen : Nat := 512

/-- A string and its terminator. -/
def cString (s : List UInt8) : Mem := fun i => s.getD i 0

/-- `_fork` -/
def forkSuffix : Mem := cString [95, 102, 111, 114, 107]

/-- The end of `copy_pcb_vaddrbitmap_stack0`, for the name that came over with the
page of the parent. -/
def forkName (name : Mem) : Option Mem := do
  let len ← name.strlen taskNameLen
  ensure (len < 11)
  return name.strcat len forkSuffix 5

/-- What `sys_execv` does to the name. -/
def execName (name path : Mem) : Mem :=
  (name.blit 0 path taskNameLen).fill (taskNameLen - 1) 0 1

/-- The name in a PCB. The ghosts say where it comes from: the length of the path
that was executed last, by the process or by the ancestor it was forked from, and
the forks since. `init` counts as a path. -/
structure NamedPcb where
  name : Mem
  pathLen : Nat
  forks : Nat

/-- The processes, by their PCBs. -/
abbrev Names := Nat → Option NamedPcb

/-- `sys_fork` by `t`, with a PCB on the page `child`. The requests for memory before
the assertion may fail, and the one behind it. -/
def Names.sysFork (s : Names) (t child : Nat) (answer : ForkAnswer) : Option Names := do
  let parent ← s t
  if answer = .noPcb ∨ answer = .noBuffer ∨ answer = .noBitmap then return s
  let name ← forkName parent.name
  if answer = .noPageDir then return s
  return Function.update s child (some ⟨name, parent.pathLen, parent.forks + 1⟩)

/-- `sys_execv` by `t`. -/
def Names.sysExecv (s : Names) (t : Nat) (path : Mem) (loaded : Bool) : Option Names := do
  let cur ← s t
  if !loaded then return s
  let pathLen ← path.strlen maxPathLen
  return Function.update s t (some ⟨execName cur.name path, pathLen, 0⟩)

end OsCore.Userprog
