import OsCore.Bitmap
import OsCore.List

/-!
# The heap (`sys_malloc` and `sys_free` in `kernel/memory.c`)

Small requests are cut from one-page arenas of seven block sizes, each with a
free list that runs through the free blocks themselves; a request of more than
1024 bytes gets pages of its own. Either way the memory starts with a
`struct arena` of twelve bytes, and `sys_free` comes back to it by masking the
pointer it is given.

Everything here is bytes in one memory: the arena headers, the seven
descriptors and the links of the free lists. `malloc_page` and `mfree_page` are
seen from outside: the pages handed out and not given back are listed in
`held`, and what `malloc_page` answers is part of each request.
-/

namespace OsCore.Kernel

/-- Whose heap it is, as `sys_malloc` and `sys_free` see it: the descriptors
(`k_block_descs`, or `u_block_desc` of the process), the size of the pool, which
is counted in a `uint16_t` of pages, and the address from which on pointers are
accepted (`K_HEAP_START` for kernel threads). -/
structure HeapOwner where
  descs : Nat
  poolSize : Nat
  base : Nat
  descs_pos : 0 < descs
  descs_le : descs + 168 ≤ 2 ^ 32
  poolSize_le : poolSize ≤ 65535 * 4096

/-- Memory, and the page ranges that `malloc_page` has handed to this heap. -/
structure HeapState where
  mem : Mem
  held : List (Nat × Nat)

/-! ## Pages -/

/-- `malloc_page(pf, pg_cnt)`, when it answers `answer`. -/
def mallocPage (s : HeapState) (answer : Option Nat) (pgCnt : Nat) : Option Nat × HeapState :=
  match answer with
  | none => (none, s)
  | some a => (some a, { s with held := (a, pgCnt) :: s.held })

/-- `mfree_page(pf, vaddr, pg_cnt)`, of pages that were handed out. -/
def mfreePage (s : HeapState) (vaddr pgCnt : Nat) : Option HeapState := do
  ensure ((vaddr, pgCnt) ∈ s.held)
  return { s with held := s.held.erase (vaddr, pgCnt) }

/-! ## Descriptors and arenas -/

/-- `sizeof(struct arena)`: `desc`, `cnt` and `large`. -/
def arenaSize : Nat := 12

/-- `&descs[descIdx]`: a `struct mem_block_desc` has `block_size`,
`blocks_per_arena` and the `free_list`. -/
def descAt (descs descIdx : Nat) : Nat := descs + 24 * descIdx

/-- `&desc->free_list`. -/
def freeList (desc : Nat) : Nat := desc + 8

/-- Loop of `block_desc_init`: `n` descriptors from `descIdx` on. -/
def descInitLoop (descs : Nat) : Nat → Nat → Nat → Mem → Mem
  | 0, _, _, m => m
  | n + 1, descIdx, blockSize, m =>
    let desc := descAt descs descIdx
    let m := m.wr32 desc blockSize
    let m := m.wr32 (desc + 4) ((4096 - arenaSize) / blockSize)
    let m := listInit m (freeList desc)
    descInitLoop descs n (descIdx + 1) (blockSize * 2) m

/-- `block_desc_init`. -/
def blockDescInit (m : Mem) (descs : Nat) : Mem := descInitLoop descs 7 0 16 m

/-- `arena2block`. -/
def arena2block (m : Mem) (a idx : Nat) : Nat := a + arenaSize + idx * m.rd32 (m.rd32 a)

/-- `block2arena`: the page a block lies in. -/
def block2arena (b : Nat) : Nat := b - b % 4096

/-! ## Allocation -/

/-- The first descriptor whose blocks are large enough: `n` descriptors from
`descIdx` on. -/
def findDesc (m : Mem) (descs size : Nat) : Nat → Nat → Nat
  | 0, descIdx => descIdx
  | n + 1, descIdx =>
    if size ≤ m.rd32 (descAt descs descIdx) then descIdx
    else findDesc m descs size n (descIdx + 1)

/-- Cut the arena at `a` into blocks and put them on the free list. A page has
no more than 4096 blocks. -/
def splitLoop (desc a : Nat) : Nat → Nat → Mem → Option Mem
  | 0, _, _ => none
  | fuel + 1, blockIdx, m =>
    if blockIdx < m.rd32 (desc + 4) then do
      let b := arena2block m a blockIdx
      let found ← elemFind m (freeList (m.rd32 a)) b
      ensure (found = false)
      splitLoop desc a fuel (blockIdx + 1) (listAppend m (freeList (m.rd32 a)) b)
    else some m

/-- Make the page at `a` an arena for `desc`. -/
def newArena (m : Mem) (desc a : Nat) : Option Mem :=
  let m := m.fill a 0 4096
  let m := m.wr32 a desc
  let m := m.wr32 (a + 8) 0
  let m := m.wr32 (a + 4) (m.rd32 (desc + 4))
  splitLoop desc a 4096 0 m

/-- Take a block off the free list of `desc`. -/
def takeBlock (m : Mem) (desc : Nat) : Nat × Mem :=
  let (b, m) := listPop m (freeList desc)
  let m := m.fill b 0 (m.rd32 desc)
  let a := block2arena b
  (b, m.wr32 (a + 4) ((m.rd32 (a + 4) + 2 ^ 32 - 1) % 2 ^ 32))

/-- `DIV_ROUND_UP(size + sizeof(struct arena), PG_SIZE)`. -/
def pageCnt (size : Nat) : Nat := (size + arenaSize + 4096 - 1) / 4096

/-- `sys_malloc(size)`; the result 0 is `NULL`. -/
def sysMalloc (o : HeapOwner) (s : HeapState) (size : Nat) (answer : Option Nat) :
    Option (Nat × HeapState) :=
  if ¬(0 < size ∧ size < o.poolSize) then some (0, s)
  else if 1024 < size then
    match mallocPage s answer (pageCnt size) with
    | (some a, s) =>
      let m := s.mem.fill a 0 (pageCnt size * 4096)
      let m := m.wr32 a 0
      let m := m.wr32 (a + 4) (pageCnt size)
      let m := m.wr32 (a + 8) 1
      some (a + arenaSize, { s with mem := m })
    | (none, s) => some (0, s)
  else
    let desc := descAt o.descs (findDesc s.mem o.descs size 7 0)
    if listEmpty s.mem (freeList desc) then
      match mallocPage s answer 1 with
      | (none, s) => some (0, s)
      | (some a, s) => do
        let m ← newArena s.mem desc a
        let (b, m) := takeBlock m desc
        return (b, { s with mem := m })
    else
      let (b, m) := takeBlock s.mem desc
      some (b, { s with mem := m })

/-! ## Release -/

/-- Take all blocks of the arena at `a` off the free list. -/
def unsplitLoop (a : Nat) : Nat → Nat → Mem → Option Mem
  | 0, _, _ => none
  | fuel + 1, blockIdx, m =>
    if blockIdx < m.rd32 (m.rd32 a + 4) then do
      let b := arena2block m a blockIdx
      let found ← elemFind m (freeList (m.rd32 a)) b
      ensure (found = true)
      unsplitLoop a fuel (blockIdx + 1) (listRemove m b)
    else some m

/-- `sys_free(ptr)`. -/
def sysFree (o : HeapOwner) (s : HeapState) (ptr : Nat) : Option HeapState := do
  ensure (ptr ≠ 0)
  ensure (o.base ≤ ptr)
  let a := block2arena ptr
  ensure (s.mem.rd32 (a + 8) = 0 ∨ s.mem.rd32 (a + 8) = 1)
  if s.mem.rd32 a = 0 ∧ s.mem.rd32 (a + 8) = 1 then mfreePage s a (s.mem.rd32 (a + 4))
  else
    let m := listAppend s.mem (freeList (s.mem.rd32 a)) ptr
    let m := m.wr32 (a + 4) ((m.rd32 (a + 4) + 1) % 2 ^ 32)
    if m.rd32 (a + 4) = m.rd32 (m.rd32 a + 4) then do
      let m ← unsplitLoop a 4096 0 m
      mfreePage { s with mem := m } a 1
    else return { s with mem := m }

end OsCore.Kernel
