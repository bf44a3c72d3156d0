import OsCore.Fs.Reading
import OsCore.Kernel.AddressSpaces
import OsCore.Userprog.Fork

/-!
# Running a file (`userprog/exec.c`)

`sys_execv` puts the segments of a file over the image of the caller. `load` goes
through the program headers one at a time, and each segment is in memory before the
next header is read. `segment_load` asks for the pages that are not there, seeks and
reads, and looks at the answers of neither of the two.

The loader says what it touches besides: a bit of the address space for each page it
asks for, and the addresses of the bytes it stores (`Touch`). The kernel's own data
is not in this memory, so what the model says of a run ends with the first byte
outside the user space.

Both headers are on the kernel's stack, and the buffers of `file_read` are taken
from the heap of the caller and given back; they are values of their own here, so no
segment is over them. Bytes go into memory in the words it is made of.
-/

namespace OsCore.Userprog

open Lib Paging Fs

variable {p : Partition}

/-! ## Bytes in memory -/

/-- Word `w` with byte `k` replaced. -/
def setByte (w k : Nat) (b : UInt8) : Nat :=
  w / 256 ^ (k + 1) * 256 ^ (k + 1) + b.toNat * 256 ^ k + w % 256 ^ k

/-- Write a byte. -/
def storeByte (s : Mm) (addr : Nat) (b : UInt8) : Option Mm := do
  let w ← s.load addr
  s.store addr (setByte w (addr % 4) b)

/-- `memcpy` to `addr`. -/
def storeBytes : Nat → List UInt8 → Mm → Option Mm
  | _, [], s => some s
  | addr, b :: bs, s => do
    let s ← storeByte s addr b
    storeBytes ((addr + 1) % 2 ^ 32) bs s

/-- What the loader touches: a bit of the bitmap of the address space, or a byte. -/
inductive Touch
  | bit (idx : Nat)
  | byte (addr : Nat)
  deriving DecidableEq, Repr

/-! ## The headers -/

/-- A half word of a header. -/
def rd16 (m : Mem) (a : Nat) : Nat := (m a).toNat + 256 * (m (a + 1)).toNat

/-- `struct Elf32_Ehdr`, as far as `load` looks at it; of `e_ident` the first seven
bytes. -/
structure Ehdr where
  eIdent : List UInt8
  eType : Nat
  eMachine : Nat
  eVersion : Nat
  eEntry : Nat
  ePhoff : Nat
  ePhentsize : Nat
  ePhnum : Nat

/-- `sizeof(struct Elf32_Ehdr)`. -/
def ehdrSize : Nat := 52

def Ehdr.ofMem (m : Mem) : Ehdr where
  eIdent := (List.range 7).map m
  eType := rd16 m 16
  eMachine := rd16 m 18
  eVersion := Mem.rd32 m 20
  eEntry := Mem.rd32 m 24
  ePhoff := Mem.rd32 m 28
  ePhentsize := rd16 m 42
  ePhnum := rd16 m 44

/-- `"\177ELF\1\1\1"`. -/
def elfIdent : List UInt8 := [0x7f, 0x45, 0x4c, 0x46, 1, 1, 1]

/-- `struct Elf32_Phdr`; `load` does not look at `p_memsz`. -/
structure Phdr where
  pType : Nat
  pOffset : Nat
  pVaddr : Nat
  pFilesz : Nat
  pMemsz : Nat
  deriving DecidableEq, Repr

/-- `sizeof(struct Elf32_Phdr)`. -/
def phdrSize : Nat := 32

def Phdr.ofMem (m : Mem) : Phdr where
  pType := Mem.rd32 m 0
  pOffset := Mem.rd32 m 4
  pVaddr := Mem.rd32 m 8
  pFilesz := Mem.rd32 m 16
  pMemsz := Mem.rd32 m 20

/-- What `load` checks of the header of the file. -/
def Ehdr.Valid (h : Ehdr) : Prop :=
  h.eIdent = elfIdent ∧ h.eType = 2 ∧ h.eMachine = 3 ∧ h.eVersion = 1 ∧ h.ePhnum ≤ 1024 ∧
    h.ePhentsize = phdrSize

instance (h : Ehdr) : Decidable h.Valid := inferInstanceAs (Decidable (_ ∧ _))

/-- `PT_LOAD`. -/
def ptLoad : Nat := 1

/-! ## Loading -/

/-- `(*pde & 1) && (*pte & 1)`; without a table the entry is not looked at. -/
def pageThere (s : Mm) (vaddr : Nat) : Option Bool := do
  let pde ← s.load (pdePtr vaddr)
  if Present pde then
    let pte ← s.load (ptePtr vaddr)
    return decide (Present pte)
  else return false

/-- `occupy_pages` of a segment. -/
def occupyPages (filesz vaddr : Nat) : Nat :=
  let sizeInFirstPage := 4096 - vaddr % 4096
  if filesz > sizeInFirstPage then
    (filesz - sizeInFirstPage + 4096 - 1) % 2 ^ 32 / 4096 + 1
  else 1

section

variable (alloc : PoolFlags → Mm → Option (Option Nat × Mm))

/-- `while (page_idx < occupy_pages)`: `n` pages from `vaddrPage` on. The page at
address 0 is granted as `NULL`. -/
def pageLoop : Nat → Nat → Mm → Option (Bool × List Touch × Mm)
  | 0, _, s => some (true, [], s)
  | n + 1, vaddrPage, s => do
    let there ← pageThere s vaddrPage
    if there then pageLoop n ((vaddrPage + 4096) % 2 ^ 32) s
    else
      let (page, s) ← getAPage alloc s vaddrPage
      if page.getD 0 = 0 then return (false, [.bit (pageBit vaddrPage)], s)
      let (ok, log, s) ← pageLoop n ((vaddrPage + 4096) % 2 ^ 32) s
      return (ok, .bit (pageBit vaddrPage) :: log, s)

/-- `segment_load`. -/
def segmentLoad (k : KernelState p) (fd : Int) (offset filesz vaddr : Nat) :
    Option (Bool × List Touch × KernelState p) := do
  let vaddrFirstPage := vaddr / 4096 * 4096
  let (ok, log, mm) ← pageLoop alloc (occupyPages filesz vaddr) vaddrFirstPage k.mm
  let k := { k with mm }
  if !ok then return (false, log, k)
  let (_, fs) ← k.fs.sysLseek k.cur fd (toInt32 offset) .seekSet
  -- `ASSERT(buf != NULL)` in `sys_read`
  ensure (vaddr ≠ 0)
  let (r, buf, fs) ← fs.sysRead k.cur fd filesz
  let mm ← storeBytes vaddr (bytesOf buf r.toNat) k.mm
  let log := log ++ (List.range r.toNat).map fun i => .byte ((vaddr + i) % 2 ^ 32)
  return (true, log, { k with mm, fs })

/-- Loop of `load` over `n` program headers, the first at `progHeaderOffset`; `false`
where it goes to `done` with -1. -/
def headerLoop (fd : Int) : Nat → Nat → KernelState p → Option (Bool × List Touch × KernelState p)
  | 0, _, k => some (true, [], k)
  | n + 1, progHeaderOffset, k => do
    let (_, fs) ← k.fs.sysLseek k.cur fd (toInt32 progHeaderOffset) .seekSet
    let (r, buf, fs) ← fs.sysRead k.cur fd phdrSize
    let k := { k with fs }
    if r ≠ phdrSize then return (false, [], k)
    let progHeader := Phdr.ofMem buf
    let (ok, log, k) ←
      if progHeader.pType = ptLoad then
        segmentLoad alloc k fd progHeader.pOffset progHeader.pFilesz progHeader.pVaddr
      else some (true, [], k)
    if !ok then return (false, log, k)
    let (ok, log', k) ← headerLoop fd n ((progHeaderOffset + phdrSize) % 2 ^ 32) k
    return (ok, log ++ log', k)

/-- `load` between `sys_open` and `done`. -/
def loadFrom (k : KernelState p) (fd : Int) : Option (Int × List Touch × KernelState p) := do
  let (r, buf, fs) ← k.fs.sysRead k.cur fd ehdrSize
  let k := { k with fs }
  if r ≠ ehdrSize then return (-1, [], k)
  let elfHeader := Ehdr.ofMem buf
  if ¬elfHeader.Valid then return (-1, [], k)
  let (ok, log, k) ← headerLoop alloc fd elfHeader.ePhnum elfHeader.ePhoff k
  return (if ok then toInt32 elfHeader.eEntry else -1, log, k)

/-- `load`. -/
def load (k : KernelState p) (pathname : List UInt8) (stack : Stack) :
    Option (Int × List Touch × KernelState p) := do
  let (fd, fs) ← sysOpen k.fs k.cur pathname 0 ⟨true, true⟩ stack
  let k := { k with fs }
  if fd = -1 then return (-1, [], k)
  let (ret, log, k) ← loadFrom alloc k fd
  let (_, fs) ← sysClose k.fs k.cur fd
  return (ret, log, { k with fs })

/-- The registers of `struct intr_stack` that `sys_execv` sets. -/
structure IntrStack where
  ebx : Nat
  ecx : Nat
  eip : Nat
  esp : Nat

/-- `sys_execv(path, argv)`, where `args` are the pointers in front of the `NULL` at
`argv`: the registers it leaves the kernel with, or `none` for -1. -/
def sysExecv (k : KernelState p) (path : List UInt8) (argv : Nat) (args : List Nat)
    (stack : Stack) : Option (Option IntrStack × List Touch × KernelState p) := do
  let (entryPoint, log, k) ← load alloc k path stack
  if entryPoint = -1 then return (none, log, k)
  let name := (path.take 15).map fun b => Char.ofNat b.toNat
  let k := { k with family := k.family.modify k.cur fun c => { c with name } }
  return (some ⟨argv, args.length, asUInt entryPoint, 0xc0000000⟩, log, k)

end

end OsCore.Userprog
