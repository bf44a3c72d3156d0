import OsCore.Kernel.HeapParts

/-!
# The heaps of processes (`userprog/fork.c`, `kernel/memory.c`)

A process has its own pages below `0xc0000000`; above it all processes see the
same memory, and the block descriptors of a process are there, in its PCB.
`sys_fork` copies the pages and the PCB and then initialises the descriptors of
the child, so the child starts with seven empty free lists. But the arenas it
has copied still point to the descriptors of the parent. A small block that the
child got with the copy and frees goes to the free list of the parent, with
links through the pages of the child.

A process that never does this has a heap in two parts (`ProcOk`): its own,
which is a heap as in `HeapRun`, and the blocks it inherited. Each call is one
step of the two parts (`ProcOk.call`), touches its own pages and its own
descriptors, and so nothing that another process reads (`Done.frame`).
-/

namespace OsCore.Userprog

open OsCore.Kernel

/-! ## Processes -/

/-- The address from which on all processes share their memory. -/
def kernelBase : Nat := 0xc0000000

/-- Where in the `task_struct` the `u_block_desc` are. -/
def uBlockDesc : Nat := 100

/-- The PCBs of all processes, each a page of its own, and the size of the user
pool. -/
structure Pcbs (ι : Type) where
  pcb : ι → Nat
  poolSize : Nat
  kernel : ∀ i, kernelBase ≤ pcb i
  word : ∀ i, pcb i + 4096 ≤ 2 ^ 32
  apart : ∀ i j, i ≠ j → pcb i + 4096 ≤ pcb j ∨ pcb j + 4096 ≤ pcb i
  poolSize_le : poolSize ≤ 65535 * 4096

/-- A process as the owner of a heap. `sys_free` asks only of kernel threads that
a pointer is not below a certain address. -/
def Pcbs.owner {ι : Type} (P : Pcbs ι) (i : ι) : HeapOwner where
  descs := P.pcb i + uBlockDesc
  poolSize := P.poolSize
  base := 0
  descs_pos := Nat.add_pos_right _ (by decide)
  descs_le := by
    have := P.word i
    unfold uBlockDesc
    omega
  poolSize_le := P.poolSize_le

/-- A process: the memory below `0xc0000000`, the pages `malloc_page` gave its
heap, the blocks in use with the sizes asked for, which of them it got by a
`sys_fork`, and what its `sys_malloc`s returned, the last first. -/
structure Proc where
  user : Mem
  held : List (Nat × Nat)
  live : List (Nat × Nat)
  inherited : List Nat
  results : List Nat

/-- The processes there are, and the memory they share. -/
structure World (ι : Type) where
  kernel : Mem
  procs : ι → Option Proc

/-- What a process sees. -/
def view (kernel user : Mem) : Mem := fun a => if a < kernelBase then user a else kernel a

/-- The heap of a process, as its calls see it. -/
def Proc.heap (p : Proc) (kernel : Mem) : HeapRun := ⟨⟨view kernel p.user, p.held⟩, p.live⟩

variable {ι : Type}

section

variable [DecidableEq ι]

/-- Process `i` is `p` now, and has left `m` in the memory it sees. -/
def World.put (w : World ι) (i : ι) (p : Proc) (m : Mem) : World ι where
  kernel := m
  procs j := if j = i then some { p with user := m } else w.procs j

/-! ## Calls -/

/-- A call by a process, with what `malloc_page` answers, or a write by the
program itself. -/
inductive Call
  | malloc (size : Nat) (answer : Option Nat)
  | free (ptr : Nat)
  | store (addr : Nat) (byte : UInt8)

def World.call (P : Pcbs ι) (w : World ι) (i : ι) : Call → Option (World ι)
  | .malloc size answer => do
    let p ← w.procs i
    let (ptr, s) ← sysMalloc (P.owner i) (p.heap w.kernel).state size answer
    return w.put i { p with
      held := s.held
      live := if ptr = 0 then p.live else (ptr, size) :: p.live
      results := ptr :: p.results } s.mem
  | .free ptr => do
    let p ← w.procs i
    let s ← sysFree (P.owner i) (p.heap w.kernel).state ptr
    return w.put i { p with
      held := s.held
      live := p.live.filter (·.1 ≠ ptr)
      inherited := p.inherited.filter (· ≠ ptr) } s.mem
  | .store addr byte => do
    let p ← w.procs i
    let m := view w.kernel p.user
    return w.put i p fun a => if a = addr then byte else m a

/-- `sys_fork` by `parent`, as far as heaps go: the PCB is copied, the
descriptors of the child are initialised, and its pages are a copy. -/
def World.fork (P : Pcbs ι) (w : World ι) (parent child : ι) : Option (World ι) := do
  let p ← w.procs parent
  ensure ((w.procs child).isNone = true)
  let kernel := w.kernel.blit (P.pcb child) (w.kernel.shift (P.pcb parent)) 4096
  let kernel := blockDescInit kernel (P.owner child).descs
  let c : Proc := { p with inherited := p.live.map (·.1), results := [] }
  return { kernel, procs := fun j => if j = child then some c else w.procs j }

/-! ## What a process may ask for -/

/-- The pages of a heap are below `0xc0000000`. -/
def UserPages (a n : Nat) : Prop := a + 4096 * n ≤ kernelBase

/-- The calls a process may make: it frees blocks in use and does not write to
its heap's own bytes, and `malloc_page` answers with fresh pages. -/
def Permitted (P : Pcbs ι) (i : ι) (p : Proc) : Call → Prop
  | .malloc size answer => ∀ a, answer = some a →
      FreshPages (P.owner i) p.held a (pagesAsked size) ∧ UserPages a (pagesAsked size)
  | .free ptr => ptr ∈ p.live.map (·.1)
  | .store addr _ => addr < kernelBase ∧
      ((∃ e ∈ p.held, e.1 ≤ addr ∧ addr < e.1 + 4096 * e.2) →
        ∃ l ∈ p.live, l.1 ≤ addr ∧ addr < l.1 + l.2)

end

/-! ## The heap of one process -/

/-- `p` is process `i`, its own heap is `h` and what it inherited is `old`. -/
structure ProcOk (P : Pcbs ι) (w : World ι) (i : ι) (p : Proc) (h old : Heap) : Prop where
  own : Represents (P.owner i) ⟨⟨view w.kernel p.user, h.ranges⟩, h.live⟩ h
  held : p.held = h.ranges ++ old.ranges
  live : p.live = h.live ++ old.live
  oldOk : old.Ok (P.owner i)
  apart : h.Apart old
  user : ∀ A ∈ h.arenas ++ old.arenas, UserPages A.page A.pages
  inherited : ∀ q ∈ old.used, q ∈ p.inherited
  small : ∀ A ∈ old.arenas, ∀ k, A.cls = some k → ∃ j, (w.procs j).isSome = true ∧
    (view w.kernel p.user).rd32 A.page = descAt (P.owner j).descs k
  large : ∀ A ∈ old.arenas, A.cls = none → (view w.kernel p.user).rd32 A.page = 0 ∧
    (view w.kernel p.user).rd32 (A.page + 4) = A.pages ∧
    (view w.kernel p.user).rd32 (A.page + 8) = 1

@[simp] theorem view_self (m : Mem) : view m m = m := by
  funext a
  exact ite_self _

theorem view_user {k u : Mem} {a : Nat} (h : a < kernelBase) : view k u a = u a := if_pos h

theorem view_kernel {k u : Mem} {a : Nat} (h : kernelBase ≤ a) : view k u a = k a :=
  if_neg (Nat.not_lt.mpr h)

theorem descs_kernel (P : Pcbs ι) (i : ι) : kernelBase ≤ (P.owner i).descs :=
  Nat.le_trans (P.kernel i) (Nat.le_add_right _ _)

section

variable {P : Pcbs ι} {w : World ι} {i : ι} {p : Proc} {h old : Heap}

/-- Both parts together. -/
theorem ProcOk.whole (hp : ProcOk P w i p h old) : (h.append old).Ok (P.owner i) :=
  hp.own.ok.append hp.oldOk hp.apart

/-- The inherited part depends on the headers of its arenas. -/
theorem ProcOk.old_kept (hp : ProcOk P w i p h old) {m : Mem}
    (hm : ∀ A ∈ old.arenas, ∀ b, b < arenaSize → m (A.page + b) = view w.kernel p.user (A.page + b)) :
    (∀ A ∈ old.arenas, ∀ k, A.cls = some k → ∃ j, (w.procs j).isSome = true ∧
      m.rd32 A.page = descAt (P.owner j).descs k) ∧
    ∀ A ∈ old.arenas, A.cls = none →
      m.rd32 A.page = 0 ∧ m.rd32 (A.page + 4) = A.pages ∧ m.rd32 (A.page + 8) = 1 := by
  refine ⟨fun A hA k hk => ?_, fun A hA hc => ?_⟩
  · obtain ⟨j, hj, h0⟩ := hp.small A hA k hk
    exact ⟨j, hj, (header_kept (hm A hA)).1.trans h0⟩
  · obtain ⟨h0, h4, h8⟩ := hp.large A hA hc
    obtain ⟨k0, k4, k8⟩ := header_kept (hm A hA)
    exact ⟨k0.trans h0, k4.trans h4, k8.trans h8⟩

/-- The inherited pages are not the heap's own. -/
theorem ProcOk.old_out (hp : ProcOk P w i p h old) {h' : Heap} (hap : h'.Apart old) {A : Arena}
    (hA : A ∈ old.arenas) {b : Nat} (hb : b < arenaSize) : ¬h'.Within (P.owner i) (A.page + b) := by
  have hplaced := hp.oldOk.placed A hA
  have hsome := hplaced.some
  have hdescs := hplaced.descs
  unfold arenaSize at hb
  intro hor
  rcases hor with hin | ⟨B, hB, hlo, hhi⟩
  · omega
  · have := hap B hB A hA
    unfold PagesApart at this
    omega

end

/-! ## Its calls -/

/-- What a call makes of the two parts. -/
def next (o : HeapOwner) (h old : Heap) : Call → Heap × Heap
  | .malloc size answer => ((h.malloc o size answer).2, old)
  | .free ptr => if ptr ∈ h.used then (h.release ptr, old) else (h, old.release ptr)
  | .store _ _ => (h, old)

/-- What it returns. -/
def returns (o : HeapOwner) (h : Heap) : Call → List Nat
  | .malloc size answer => [(h.malloc o size answer).1]
  | _ => []

/-- Call `c` of process `i` comes back. The process is left with the parts that
`next` says, and nothing that others see has changed but its descriptors. -/
structure Done [DecidableEq ι] (P : Pcbs ι) (w : World ι) (i : ι) (p : Proc) (h old : Heap) (c : Call)
    (w' : World ι) (p' : Proc) : Prop where
  run : w.call P i c = some w'
  proc : w'.procs i = some p'
  others : ∀ j, j ≠ i → w'.procs j = w.procs j
  kernel : ∀ a, kernelBase ≤ a → a < (P.owner i).descs ∨ (P.owner i).descs + 168 ≤ a →
    w'.kernel a = w.kernel a
  ok : ProcOk P w' i p' (next (P.owner i) h old c).1 (next (P.owner i) h old c).2
  results : p'.results = returns (P.owner i) h c ++ p.results

section

variable [DecidableEq ι] {P : Pcbs ι} {w : World ι} {i : ι} {p : Proc} {h old : Heap}

/-- Memory outside a heap that is in user pages, seen from the kernel. -/
theorem kernel_out {o : HeapOwner} {g : Heap} (huser : ∀ A ∈ g.arenas, UserPages A.page A.pages)
    {a : Nat} (ha : kernelBase ≤ a) (hd : a < o.descs ∨ o.descs + 168 ≤ a) : ¬g.Within o a := by
  intro hor
  rcases hor with hin | ⟨A, hA, -, hhi⟩
  · omega
  · have := huser A hA
    unfold UserPages at this
    omega

theorem put_isSome (w : World ι) (p : Proc) (m : Mem) {j : ι} (hj : (w.procs j).isSome = true) :
    ((w.put i p m).procs j).isSome = true := by
  show (if j = i then some _ else w.procs j).isSome = true
  split
  · rfl
  · exact hj

/-- The two parts after a step that leaves `m`. -/
theorem ProcOk.put {p1 : Proc} {m : Mem} {g old' : Heap}
    (hr : Represents (P.owner i) ⟨⟨m, g.ranges⟩, g.live⟩ g) (hold : old'.Ok (P.owner i))
    (hap : g.Apart old') (huser : ∀ A ∈ g.arenas ++ old'.arenas, UserPages A.page A.pages)
    (hsmall : ∀ A ∈ old'.arenas, ∀ k, A.cls = some k → ∃ j, (w.procs j).isSome = true ∧
      m.rd32 A.page = descAt (P.owner j).descs k)
    (hlarge : ∀ A ∈ old'.arenas, A.cls = none →
      m.rd32 A.page = 0 ∧ m.rd32 (A.page + 4) = A.pages ∧ m.rd32 (A.page + 8) = 1)
    (hheld : p1.held = g.ranges ++ old'.ranges) (hlive : p1.live = g.live ++ old'.live)
    (hinh : ∀ q ∈ old'.used, q ∈ p1.inherited) :
    ProcOk P (w.put i p1 m) i { p1 with user := m } g old' := by
  have hview : view (w.put i p1 m).kernel m = m := view_self m
  refine ⟨?_, hheld, hlive, hold, hap, huser, hinh, fun A hA k hk => ?_, fun A hA hc => ?_⟩
  · rw [hview]
    exact hr
  · obtain ⟨j, hj, h0⟩ := hsmall A hA k hk
    rw [hview]
    exact ⟨j, put_isSome w p1 m hj, h0⟩
  · rw [hview]
    exact hlarge A hA hc

/-- A step that leaves the inherited part alone. -/
theorem ProcOk.put_own (hp : ProcOk P w i p h old) {p1 : Proc} {m : Mem} {g : Heap}
    (hr : Represents (P.owner i) ⟨⟨m, g.ranges⟩, g.live⟩ g) (hap : g.Apart old)
    (huser : ∀ A ∈ g.arenas, UserPages A.page A.pages)
    (hm : ∀ A ∈ old.arenas, ∀ b, b < arenaSize → m (A.page + b) = view w.kernel p.user (A.page + b))
    (hheld : p1.held = g.ranges ++ old.ranges) (hlive : p1.live = g.live ++ old.live)
    (hinh : ∀ q ∈ old.used, q ∈ p1.inherited) :
    ProcOk P (w.put i p1 m) i { p1 with user := m } g old := by
  obtain ⟨hsmall, hlarge⟩ := hp.old_kept hm
  refine .put hr hp.oldOk hap (fun A hA => ?_) hsmall hlarge hheld hlive hinh
  rcases List.mem_append.mp hA with hA | hA
  · exact huser A hA
  · exact hp.user A (List.mem_append_right _ hA)

/-- `sys_malloc`. -/
theorem ProcOk.malloc (hp : ProcOk P w i p h old) (hw : w.procs i = some p) {size : Nat}
    {answer : Option Nat} (hmay : Permitted P i p (.malloc size answer)) :
    ∃ w' p', Done P w i p h old (.malloc size answer) w' p' := by
  have hfresh : ∀ a, answer = some a → FreshPages (P.owner i) h.ranges a (pagesAsked size) := by
    intro a ha
    have hf := (hmay a ha).1
    refine ⟨hf.placed, fun e he => hf.apart e ?_⟩
    rw [hp.held]
    exact List.mem_append_left _ he
  obtain ⟨s, hrun, hr, -, hout⟩ := sysMalloc_represents hp.own hfresh
  have hrun' : sysMalloc (P.owner i) (p.heap w.kernel).state size answer =
      some ((h.malloc (P.owner i) size answer).1, { s with held := s.held ++ old.ranges }) := by
    have hst : (p.heap w.kernel).state = ⟨view w.kernel p.user, h.ranges ++ old.ranges⟩ :=
      congrArg (HeapState.mk _) hp.held
    rw [hst]
    exact sysMalloc_extra size answer hrun
  have hheld : s.held = (h.malloc (P.owner i) size answer).2.ranges := hr.held
  have hlive := hr.live
  generalize hmal : h.malloc (P.owner i) size answer = x at hrun' hr hout hheld hlive
  -- the new pages, if any, are fresh
  have hnew : ∀ A ∈ x.2.arenas, A ∈ h.arenas ∨
      ((∀ B ∈ old.arenas, PagesApart A B) ∧ UserPages A.page A.pages) := by
    intro A hA
    rw [← hmal] at hA
    rcases Heap.malloc_arenas hA with hA | ⟨a, ha, hpage, hpages⟩
    · exact Or.inl hA
    · obtain ⟨hf, hu⟩ := hmay a ha
      refine Or.inr ⟨fun B hB => ?_, by rw [hpage, hpages]; exact hu⟩
      have := hf.apart (B.page, B.pages) (by
        rw [hp.held]
        exact List.mem_append_right _ (Heap.mem_ranges.mpr ⟨B, hB, rfl⟩))
      unfold PagesApart
      rw [hpage, hpages]
      exact this
  have hap : x.2.Apart old := fun A hA => by
    rcases hnew A hA with hA | hA
    · exact hp.apart A hA
    · exact hA.1
  have huser : ∀ A ∈ x.2.arenas, UserPages A.page A.pages := fun A hA => by
    rcases hnew A hA with hA | hA
    · exact hp.user A (List.mem_append_left _ hA)
    · exact hA.2
  refine ⟨_, _, ⟨by simp only [World.call, hw, Option.bind_eq_bind, Option.bind_some, hrun']; rfl,
    if_pos rfl, fun j hj => if_neg hj, fun a ha hd => ?_, ?_, by rw [returns, hmal]; rfl⟩⟩
  · show s.mem a = w.kernel a
    rw [hout a (kernel_out huser ha hd)]
    exact view_kernel ha
  · rw [next, hmal]
    refine hp.put_own ?_ hap huser (fun A hA b hb => hout _ (hp.old_out hap hA hb)) ?_ ?_
      hp.inherited
    · exact ⟨hr.ok, hr.busy, hr.rep, rfl, rfl⟩
    · exact congrArg (· ++ old.ranges) hheld
    · dsimp only at hlive ⊢
      rw [← hlive, hp.live]
      split
      · rfl
      · rfl

/-- `sys_free` of a block of its own. -/
theorem ProcOk.free_own (hp : ProcOk P w i p h old) (hw : w.procs i = some p) {ptr : Nat}
    (hptr : ptr ∈ h.used) : ∃ w' p', Done P w i p h old (.free ptr) w' p' := by
  obtain ⟨s, hrun, hr, hfreed, hout⟩ := sysFree_represents hp.own hptr
  have hrun' : sysFree (P.owner i) (p.heap w.kernel).state ptr =
      some { s with held := s.held ++ old.ranges } := by
    have hst : (p.heap w.kernel).state = ⟨view w.kernel p.user, h.ranges ++ old.ranges⟩ :=
      congrArg (HeapState.mk _) hp.held
    rw [hst]
    exact sysFree_extra hrun
  have hnot : ptr ∉ old.used := hp.apart.used hp.own.ok hp.oldOk hptr
  have hstay : ∀ e ∈ old.live, e.1 ≠ ptr := fun e he hc =>
    hnot (List.mem_map.mpr ⟨e, he, hc⟩)
  refine ⟨_, _, ⟨by simp only [World.call, hw, Option.bind_eq_bind, Option.bind_some, hrun']; rfl,
    if_pos rfl, fun j hj => if_neg hj, fun a ha hd => ?_, ?_, ?_⟩⟩
  rotate_right
  · rfl
  · show s.mem a = w.kernel a
    rw [hout a (kernel_out (fun A hA => hp.user A (List.mem_append_left _ hA)) ha hd)]
    exact view_kernel ha
  · rw [next, if_pos hptr]
    refine hp.put_own ⟨hr.ok, hr.busy, hr.rep, rfl, rfl⟩ (fun A hA => hp.apart A (hfreed.arenas hA))
      (fun A hA => hp.user A (List.mem_append_left _ (hfreed.arenas hA)))
      (fun A hA b hb => hout _ (hp.old_out hp.apart hA hb)) ?_ ?_ fun q hq => ?_
    · exact congrArg (· ++ old.ranges) hr.held
    · show p.live.filter _ = _
      rw [hp.live, List.filter_append]
      refine congrArg₂ (· ++ ·) hr.live (List.filter_eq_self.mpr fun e he => ?_)
      exact decide_eq_true (hstay e he)
    · refine List.mem_filter.mpr ⟨hp.inherited q hq, decide_eq_true fun hc => hnot ?_⟩
      exact hc ▸ hq

omit [DecidableEq ι] in
/-- A block of more than 1024 bytes has pages of its own. -/
theorem large_arena {o : HeapOwner} (hok : old.Ok o) {ptr size : Nat} (he : (ptr, size) ∈ old.live)
    (hsize : 1024 < size) : ∃ A ∈ old.arenas, A.cls = none ∧ ptr = A.page + arenaSize := by
  rcases hok.room _ he with ⟨k, ⟨A, hA, hcls, -⟩, hle⟩ | ⟨A, hA, hcls, hptr, -⟩
  · have hk := (hok.small A hA k hcls).1
    have hall : ∀ k, k < 7 → blockSize k ≤ 1024 := by decide
    have := hall k hk
    dsimp only at hle
    omega
  · exact ⟨A, hA, hcls, hptr⟩

/-- `sys_free` of a large block that was inherited. -/
theorem ProcOk.free_old (hp : ProcOk P w i p h old) (hw : w.procs i = some p) {ptr size : Nat}
    (he : (ptr, size) ∈ old.live) (hsize : 1024 < size) :
    ∃ w' p', Done P w i p h old (.free ptr) w' p' := by
  obtain ⟨A, hA, hcls, hptr⟩ := large_arena hp.oldOk he hsize
  obtain ⟨h0, h4, h8⟩ := hp.large A hA hcls
  have hplaced := hp.oldOk.placed A hA
  have hpage : block2arena ptr = A.page := by rw [hptr, Heap.block2arena_header hplaced.aligned]
  have hused : ptr ∈ old.used := List.mem_map.mpr ⟨_, he, rfl⟩
  have hnot : ptr ∉ h.used := hp.apart.symm.used hp.oldOk hp.own.ok hused
  have hrel : old.release ptr = old.dropLarge A.page := by
    rw [Heap.release, hp.oldOk.find_arena hA hpage]
    dsimp only
    rw [hcls]
  have hmem : (A.page, A.pages) ∉ h.ranges := by
    intro hin
    obtain ⟨B, hB, heq⟩ := Heap.mem_ranges.mp hin
    exact hp.apart.page_ne hp.own.ok hp.oldOk hB hA (congrArg Prod.fst heq).symm
  have herase : p.held.erase (A.page, A.pages) = h.ranges ++ (old.dropLarge A.page).ranges := by
    rw [hp.held, List.erase_append_right _ hmem]
    exact congrArg (h.ranges ++ ·) (held_erase hp.oldOk hA)
  have hrun : sysFree (P.owner i) (p.heap w.kernel).state ptr =
      some ⟨view w.kernel p.user, h.ranges ++ (old.dropLarge A.page).ranges⟩ := by
    have hpos := hplaced.pos
    have hin : (A.page, A.pages) ∈ p.held := by
      rw [hp.held]
      exact List.mem_append_right _ (Heap.mem_ranges.mpr ⟨A, hA, rfl⟩)
    rw [sysFree_large (s := (p.heap w.kernel).state) (by omega) (Nat.zero_le ptr) hpage h0 h4 h8 hin]
    exact congrArg (fun l => some (HeapState.mk (view w.kernel p.user) l)) herase
  have hsub : ∀ B ∈ (old.dropLarge A.page).arenas, B ∈ old.arenas := fun B hB =>
    (Heap.mem_others.mp hB).1
  refine ⟨_, _, ⟨by simp only [World.call, hw, Option.bind_eq_bind, Option.bind_some, hrun]; rfl,
    if_pos rfl, fun j hj => if_neg hj, fun a ha _ => view_kernel ha, ?_, ?_⟩⟩
  rotate_right
  · rfl
  rw [next, if_neg hnot, hrel]
  refine .put hp.own (hp.oldOk.dropLarge hA hcls) (fun B hB C hC => hp.apart B hB C (hsub C hC))
    (fun B hB => ?_) (fun B hB => hp.small B (hsub B hB)) (fun B hB => hp.large B (hsub B hB)) rfl ?_
    fun q hq => ?_
  · rcases List.mem_append.mp hB with hB | hB
    · exact hp.user B (List.mem_append_left _ hB)
    · exact hp.user B (List.mem_append_right _ (hsub B hB))
  · show p.live.filter _ = _
    rw [hp.live, List.filter_append, hptr]
    refine congrArg₂ (· ++ ·) (List.filter_eq_self.mpr fun e he => decide_eq_true fun hc => ?_) rfl
    exact hnot (List.mem_map.mpr ⟨e, he, hc.trans hptr.symm⟩)
  · obtain ⟨hq, hne⟩ := Heap.mem_used_filter.mp hq
    refine List.mem_filter.mpr ⟨hp.inherited q hq, decide_eq_true ?_⟩
    rw [hptr]
    exact hne

/-- A write of the program. -/
theorem ProcOk.store (hp : ProcOk P w i p h old) (hw : w.procs i = some p) {addr : Nat} {byte : UInt8}
    (hmay : Permitted P i p (.store addr byte)) :
    ∃ w' p', Done P w i p h old (.store addr byte) w' p' := by
  obtain ⟨huser, hin⟩ := hmay
  have hdescs := descs_kernel P i
  -- what is guarded in the whole heap is not written
  have hout : ∀ a, Guarded (P.owner i) ⟨⟨view w.kernel p.user, (h.append old).ranges⟩,
      (h.append old).live⟩ a → a ≠ addr := by
    rintro a (hd | ⟨⟨e, he, hlo, hhi⟩, hno⟩) rfl
    · omega
    · rw [Heap.ranges_append, ← hp.held] at he
      obtain ⟨l, hl, h1, h2⟩ := hin ⟨e, he, hlo, hhi⟩
      rw [hp.live] at hl
      have := hno l hl
      omega
  have hheader : ∀ A ∈ (h.append old).arenas, ∀ b, b < arenaSize → A.page + b ≠ addr :=
    fun A hA b hb => hout _ (guarded_header hp.whole rfl rfl hA hb)
  refine ⟨_, _, ⟨by simp only [World.call, hw, Option.bind_eq_bind, Option.bind_some]; rfl, if_pos rfl,
    fun j hj => if_neg hj, fun a ha hd => ?_, ?_, ?_⟩⟩
  rotate_right
  · rfl
  · show (if a = addr then byte else view w.kernel p.user a) = w.kernel a
    rw [if_neg (by omega), view_kernel ha]
  · refine hp.put_own (write_represents hp.own fun a ha => if_neg (hout a ?_)) hp.apart
      (fun A hA => hp.user A (List.mem_append_left _ hA))
      (fun A hA b hb => if_neg (hheader A (List.mem_append_right _ hA) b hb)) hp.held hp.live hp.inherited
    rcases ha with hd | ⟨⟨e, he, hlo, hhi⟩, hno⟩
    · exact Or.inl hd
    · refine Or.inr ⟨⟨e, ?_, hlo, hhi⟩, fun l hl => ?_⟩
      · rw [Heap.ranges_append]
        exact List.mem_append_left _ he
      · rcases List.mem_append.mp hl with hl | hl
        · exact hno l hl
        · -- an inherited block is in other pages
          obtain ⟨A, hA, rfl⟩ := Heap.mem_ranges.mp he
          obtain ⟨B, hB, -, h1, h2⟩ := live_bounds hp.oldOk hl
          have := hp.apart A hA B hB
          unfold PagesApart at this
          dsimp only at hlo hhi
          omega

/-- **One call of a process** that frees no small block it inherited. -/
theorem ProcOk.call (hp : ProcOk P w i p h old) (hw : w.procs i = some p) {c : Call}
    (hmay : Permitted P i p c)
    (hspare : ∀ ptr, c = .free ptr → ptr ∈ old.used → ∃ size, (ptr, size) ∈ old.live ∧ 1024 < size) :
    ∃ w' p', Done P w i p h old c w' p' := by
  cases c with
  | malloc size answer => exact hp.malloc hw hmay
  | store addr byte => exact hp.store hw hmay
  | free ptr =>
    by_cases hown : ptr ∈ h.used
    · exact hp.free_own hw hown
    · have hmem : ptr ∈ (h.live ++ old.live).map (·.1) := by
        rw [← hp.live]
        exact hmay
      rw [List.map_append] at hmem
      obtain ⟨size, he, hsize⟩ := hspare ptr rfl ((List.mem_append.mp hmem).resolve_left hown)
      exact hp.free_old hw he hsize

omit [DecidableEq ι] in
/-- What others do is not seen: they write to no user page of the process and not
to its descriptors. -/
theorem ProcOk.frame (hp : ProcOk P w i p h old) {w' : World ι}
    (hk : ∀ a, (P.owner i).descs ≤ a → a < (P.owner i).descs + 168 → w'.kernel a = w.kernel a)
    (hsome : ∀ j, (w.procs j).isSome = true → (w'.procs j).isSome = true) :
    ProcOk P w' i p h old := by
  have huser : ∀ {a}, a < kernelBase → view w'.kernel p.user a = view w.kernel p.user a := by
    intro a ha
    rw [view_user ha, view_user ha]
  have hpage : ∀ A ∈ h.arenas ++ old.arenas, ∀ a, a < A.page + 4096 * A.pages →
      view w'.kernel p.user a = view w.kernel p.user a := by
    intro A hA a ha
    exact huser (Nat.lt_of_lt_of_le ha (hp.user A hA))
  have hdescs := descs_kernel P i
  obtain ⟨hsmall, hlarge⟩ := hp.old_kept (m := view w'.kernel p.user) fun A hA b hb => by
    have := (hp.oldOk.placed A hA).some
    unfold arenaSize at hb
    exact hpage A (List.mem_append_right _ hA) _ (by omega)
  refine ⟨write_represents hp.own fun a ha => ?_, hp.held, hp.live, hp.oldOk, hp.apart, hp.user,
    hp.inherited, fun A hA k hcls => ?_, hlarge⟩
  · rcases ha with ⟨h1, h2⟩ | ⟨⟨e, he, -, hhi⟩, -⟩
    · show view w'.kernel p.user a = view w.kernel p.user a
      rw [view_kernel (by omega), view_kernel (by omega)]
      exact hk a h1 h2
    · obtain ⟨A, hA, rfl⟩ := Heap.mem_ranges.mp he
      exact hpage A (List.mem_append_left _ hA) a hhi
  · obtain ⟨j, hj, hdesc⟩ := hsmall A hA k hcls
    exact ⟨j, hsome j hj, hdesc⟩

omit [DecidableEq ι] in
/-- The descriptors of two processes are in different PCBs. -/
theorem descs_apart (P : Pcbs ι) {i j : ι} (hij : i ≠ j) {a : Nat} (h1 : (P.owner j).descs ≤ a)
    (h2 : a < (P.owner j).descs + 168) : a < (P.owner i).descs ∨ (P.owner i).descs + 168 ≤ a := by
  have := P.apart i j hij
  have hi : (P.owner i).descs = P.pcb i + 100 := rfl
  have hj : (P.owner j).descs = P.pcb j + 100 := rfl
  omega

/-- Processes do not go away. -/
theorem Done.isSome {c : Call} {w' : World ι} {p' : Proc} (hd : Done P w i p h old c w' p') {j : ι}
    (hj : (w.procs j).isSome = true) : (w'.procs j).isSome = true := by
  by_cases hji : j = i
  · rw [hji, hd.proc]
    rfl
  · rwa [hd.others j hji]

/-- A call of one process leaves the others as they are. -/
theorem Done.frame {c : Call} {w' : World ι} {p' : Proc} (hd : Done P w i p h old c w' p') {j : ι}
    (hij : i ≠ j) {q : Proc} {g gold : Heap} (hq : ProcOk P w j q g gold) : ProcOk P w' j q g gold := by
  refine hq.frame (fun a h1 h2 => ?_) fun l hl => hd.isSome hl
  have := descs_kernel P j
  exact hd.kernel a (by omega) (descs_apart P hij h1 h2)

/-! ## Fork -/

/-- No heap at all. -/
def noHeap : Heap := ⟨[], fun _ => [], []⟩

theorem blockDescInit_out (o : HeapOwner) (m : Mem) {a : Nat} (ha : a < o.descs ∨ o.descs + 168 ≤ a) :
    blockDescInit m o.descs a = m a :=
  (descInitLoop_spec o 7 0 m rfl).2 a ha

omit [DecidableEq ι] in
/-- Pages of users can be pages of any process. -/
theorem placed_owner {A : Arena} (j : ι) (hp : Placed (P.owner i) A.page A.pages)
    (hu : UserPages A.page A.pages) : Placed (P.owner j) A.page A.pages :=
  ⟨hp.aligned, hp.pos, Nat.zero_le _, hp.some, hp.word, Or.inl (Nat.le_trans hu (descs_kernel P j))⟩

theorem fork_source {parent child : ι} {w' : World ι} (hrun : w.fork P parent child = some w') :
    ∃ p, w.procs parent = some p := by
  cases hw : w.procs parent with
  | none =>
    rw [World.fork, hw] at hrun
    exact absurd hrun (by simp)
  | some p => exact ⟨p, rfl⟩

/-- **What a `sys_fork` does to the heaps**: all that the parent had is inherited
by the child, and nobody else is touched. -/
theorem fork_ok {parent child : ι} {w' : World ι} (hrun : w.fork P parent child = some w') {p : Proc}
    (hw : w.procs parent = some p) (hp : ProcOk P w parent p h old) :
    parent ≠ child ∧ (∀ j, j ≠ child → w'.procs j = w.procs j) ∧
      (∀ j q g gold, j ≠ child → ProcOk P w j q g gold → ProcOk P w' j q g gold) ∧
      ∃ c, w'.procs child = some c ∧ ProcOk P w' child c noHeap (h.append old) := by
  simp only [World.fork, hw, Option.bind_eq_bind, Option.bind_some, Option.bind_eq_some_iff] at hrun
  obtain ⟨_, hfree, hrun⟩ := hrun
  have hnone : w.procs child = none := by
    by_cases hc : (w.procs child).isNone = true
    · exact Option.isNone_iff_eq_none.mp hc
    · rw [ensure_neg hc] at hfree
      exact absurd hfree (by simp)
  have hne : parent ≠ child := by
    intro hc
    rw [hc, hnone] at hw
    exact absurd hw (by simp)
  obtain ⟨K, hK⟩ : ∃ K, K = w.kernel.blit (P.pcb child) (w.kernel.shift (P.pcb parent)) 4096 := ⟨_, rfl⟩
  rw [← hK] at hrun
  have hkernel : w'.kernel = blockDescInit K (P.owner child).descs := by rw [← Option.some.inj hrun]
  have hchild : w'.procs child = some { p with inherited := p.live.map (·.1), results := [] } := by
    rw [← Option.some.inj hrun]
    exact if_pos rfl
  have hrest : ∀ j, j ≠ child → w'.procs j = w.procs j := fun j hj => by
    rw [← Option.some.inj hrun]
    exact if_neg hj
  have hothers : ∀ j q g gold, j ≠ child → ProcOk P w j q g gold → ProcOk P w' j q g gold := by
    intro j q g gold hj hq
    refine hq.frame (fun a h1 h2 => ?_) fun l hl => ?_
    · -- only the PCB of the child is written
      have hd : (P.owner j).descs = P.pcb j + 100 := rfl
      have hd' : (P.owner child).descs = P.pcb child + 100 := rfl
      have := P.apart child j (Ne.symm hj)
      rw [hkernel, blockDescInit_out _ _ (by omega), hK]
      exact Mem.blit_out (by omega)
    · by_cases hl' : l = child
      · rw [hl', hchild]
        rfl
      · rwa [hrest l hl']
  have hpar := hothers parent p h old hne hp
  refine ⟨hne, hrest, hothers, _, hchild, ?_⟩
  refine ⟨?_, hp.held.trans Heap.ranges_append.symm, hp.live, ?_, fun A hA => absurd hA List.not_mem_nil,
    hp.user, fun q hq => ?_, fun A hA k hk => ?_, fun A hA hc => ?_⟩
  · apply write_represents (init_represents (P.owner child) K)
    intro a ha
    rcases ha with ⟨h1, h2⟩ | ⟨⟨e, he, -⟩, -⟩
    · have := descs_kernel P child
      rw [view_kernel (by omega), hkernel]
    · exact absurd he List.not_mem_nil
  · exact hp.whole.owner fun A hA => placed_owner child (hp.whole.placed A hA) (hp.user A hA)
  · show q ∈ p.live.map (·.1)
    rw [hp.live]
    exact hq
  · rcases List.mem_append.mp hA with hA | hA
    · refine ⟨parent, ?_, (hpar.own.rep.small A hA k hk).1⟩
      rw [hrest parent hne, hw]
      rfl
    · exact hpar.small A hA k hk
  · rcases List.mem_append.mp hA with hA | hA
    · exact hpar.own.rep.large A hA hc
    · exact hpar.large A hA hc

end

end OsCore.Userprog
