import OsCore.Fs.Syscalls

/-!
# Where the structs of open inodes are

The list of open inodes is shared by all processes, so its structs have to be in
the kernel heap. `sys_malloc` goes by the `pgdir` of the caller; `inode_open` sets
it to `NULL` around the request, and `inode_close` around `sys_free`, which asserts
that the struct lies above `K_HEAP_START`. `file_create` makes a struct too, and it
asks as the caller: for a user process the struct comes from the heap of that
process, joins the list, and the assertion stops whoever closes the file last.

`inodes_in_kernel_heap` says that files made by user processes are all there is to
it. The calls are those of `fs/fs.c` that open and close, make and remove; none of
the others makes a struct except through `inode_open`.
-/

namespace OsCore.Fs

open OsCore.Lib

variable {p : Partition}

/-! ## The calls -/

/-- The calls on paths, descriptors and open directories. -/
inductive FsOp
  | sysOpen (t : Nat) (pathname : List UInt8) (flags : UInt8) (heap : Grants) (stack : Stack)
  | sysClose (t : Nat) (fd : Int)
  | sysOpendir (name : List UInt8) (stack : Stack)
  | sysClosedir (dir : DirHandle)
  | sysChdir (t : Nat) (path : List UInt8) (stack : Stack)
  | sysMkdir (pathname : List UInt8) (heap : Grants) (stack : Stack)
  | sysUnlink (pathname : List UInt8) (heap : Grants) (stack : Stack)
  | sysRmdir (pathname : List UInt8) (heap : Grants) (stack : Stack)

namespace FileSys

def fsStep (k : FileSys p) : FsOp → Option (FileSys p)
  | .sysOpen t pathname flags heap stack => (Fs.sysOpen k t pathname flags heap stack).map (·.2)
  | .sysClose t fd => (Fs.sysClose k t fd).map (·.2)
  | .sysOpendir name stack => (Fs.sysOpendir k name stack).map (·.2)
  | .sysClosedir dir => (Fs.sysClosedir k dir).map (·.2)
  | .sysChdir t path stack => (Fs.sysChdir k t path stack).map (·.2)
  | .sysMkdir pathname heap stack => (Fs.sysMkdir k pathname heap stack).map (·.2)
  | .sysUnlink pathname heap stack => (Fs.sysUnlink k pathname heap stack).map (·.2)
  | .sysRmdir pathname heap stack => (Fs.sysRmdir k pathname heap stack).map (·.2)

/-- Every struct on the list is in the kernel heap. -/
def KernelInodes (k : FileSys p) : Prop := ∀ a, k.part.inodeAt a ≠ none → a ∉ k.userInodes

/-- `sys_open` comes to `file_create` and finds what that asks for. -/
def makesFile (k : FileSys p) (pathname : List UInt8) (flags : UInt8) (heap : Grants)
    (stack : Stack) : Bool :=
  pathname.getLast? ≠ some slash && flags &&& oCreat ≠ 0 && decide (k.CanCreate heap) &&
    match searchFile k.rootDir stack.dirE k.part pathname with
    | some (inodeNo, record, _) => inodeNo = -1 && record.fileType ≠ ftDirectory &&
        pathDepthCnt stack.name pathname = pathDepthCnt stack.name' record.searchedPath
    | none => false

end FileSys

section

variable {k k' : FileSys p} {t : Nat} {r : Int}

theorem dirClose_users {dir : DirHandle} (h : k.dirClose dir = some k') :
    k'.userInodes = k.userInodes := by
  obtain ⟨part, -, rfl⟩ := dirClose_eq h
  rfl

theorem keepDir_users (dir : DirHandle) : (k.keepDir dir).userInodes = k.userInodes := by
  cases dir with
  | root => rfl
  | opened a => rfl

theorem deleteEntry_users {dir : DirHandle} {n : Nat} (h : k.deleteEntry dir n = some k') :
    k'.userInodes = k.userInodes := by
  simp only [FileSys.deleteEntry, Option.bind_eq_bind, Option.bind_eq_some_iff, Prod.exists,
    Option.pure_def, Option.some.injEq] at h
  obtain ⟨-, -, -, -, -, -, rfl⟩ := h
  rfl

theorem release_users {n : Nat} (h : k.release n = some k') : k'.userInodes = k.userInodes := by
  simp only [FileSys.release, Option.bind_eq_bind, Option.bind_eq_some_iff, Option.pure_def,
    Option.some.injEq] at h
  obtain ⟨-, -, rfl⟩ := h
  rfl

/-- **Only `file_create` for a user process** takes a struct from a user heap. -/
theorem sysOpen_users {pathname : List UInt8} {flags : UInt8} {heap : Grants} {stack : Stack}
    (hkernel : (k.pcb t).isProcess = true → k.makesFile pathname flags heap stack = false)
    (h : sysOpen k t pathname flags heap stack = some (r, k')) : k'.userInodes = k.userInodes := by
  cases sysOpen_cases h with
  | slash heq => rw [heq]
  | failed n record part _ hclose => exact (dirClose_users hclose).trans rfl
  | created record part k2 hlast hfile hcreat hdir hdepth hcreate hclose =>
    rw [dirClose_users hclose]
    rcases fileCreate_made hcreate with ⟨-, vol, -, rfl⟩ | ⟨hcan, g, n, hmade⟩
    · rfl
    · rw [hmade.userInodes]
      apply if_neg
      intro hproc
      have hmakes : k.makesFile pathname flags heap stack = true := by
        have hcan' : k.CanCreate heap := hcan
        unfold FileSys.makesFile
        rw [hfile]
        simp [hlast, hcreat, hcan', hdir, hdepth]
      rw [hkernel hproc] at hmakes
      cases hmakes
  | opened n record part _ _ _ _ _ _ hopen =>
    rcases fileOpen_slotted hopen with ⟨-, rfl⟩ | ⟨g, a, part', -, -, huser, -⟩
    · exact keepDir_users _
    · exact huser.trans (keepDir_users _)

theorem sysClose_users {fd : Int} (h : sysClose k t fd = some (r, k')) :
    k'.userInodes = k.userInodes := by
  cases sysClose_cases h with
  | std _ heq => rw [heq]
  | pipe _ g _ _ _ _ _ heq => rw [heq]; rfl
  | file _ g ret k1 _ _ _ _ _ hclose heq =>
    simp only [fileClose, Option.bind_eq_bind, Option.bind_eq_some_iff, Option.pure_def,
      Option.some.injEq, Prod.mk.injEq] at hclose
    obtain ⟨-, -, k2, hk2, -, rfl⟩ := hclose
    obtain ⟨-, part, -, rfl⟩ := FileSys.inodeClose_eq hk2
    rw [heq]
    rfl

theorem sysClosedir_users {dir : DirHandle} (h : sysClosedir k dir = some (r, k')) :
    k'.userInodes = k.userInodes := by
  cases dir with
  | root =>
    obtain ⟨-, rfl⟩ := Prod.mk.inj (Option.some.inj h)
    rfl
  | opened a =>
    simp only [sysClosedir, Option.bind_eq_bind, Option.bind_eq_some_iff, Option.pure_def,
      Option.some.injEq, Prod.mk.injEq] at h
    obtain ⟨-, -, k1, hclose, -, rfl⟩ := h
    show k1.userInodes = k.userInodes
    exact dirClose_users hclose

/-- The calls on directories. -/
theorem dirCall_users {op : FsOp} (hstep : k.fsStep op = some k')
    (hopen : ∀ t pathname flags heap stack, op ≠ .sysOpen t pathname flags heap stack) :
    k'.userInodes = k.userInodes := by
  cases op with
  | sysOpen t pathname flags heap stack => exact absurd rfl (hopen t pathname flags heap stack)
  | sysClose t fd =>
    obtain ⟨⟨r, k1⟩, hcall, rfl⟩ := Option.map_eq_some_iff.mp hstep
    exact sysClose_users hcall
  | sysOpendir name stack =>
    obtain ⟨⟨r, k1⟩, hcall, rfl⟩ := Option.map_eq_some_iff.mp hstep
    cases sysOpendir_cases hcall with
    | root heq => exact congrArg _ heq
    | failed n record part _ hclose => exact (dirClose_users hclose).trans rfl
    | opened n record part part' dir k2 _ _ _ _ _ hclose heq =>
      show k1.userInodes = k.userInodes
      rw [heq, keepDir_users, dirClose_users hclose]
  | sysClosedir dir =>
    obtain ⟨⟨r, k1⟩, hcall, rfl⟩ := Option.map_eq_some_iff.mp hstep
    exact sysClosedir_users hcall
  | sysChdir t path stack =>
    obtain ⟨⟨r, k1⟩, hcall, rfl⟩ := Option.map_eq_some_iff.mp hstep
    cases sysChdir_cases hcall with
    | failed n record part _ hclose => exact (dirClose_users hclose).trans rfl
    | moved n record part _ _ _ hclose => exact (dirClose_users hclose).trans rfl
  | sysMkdir pathname heap stack =>
    obtain ⟨⟨r, k1⟩, hcall, rfl⟩ := Option.map_eq_some_iff.mp hstep
    cases sysMkdir_cases hcall with
    | refused heq => exact congrArg _ heq
    | failed n record part _ hclose => exact (dirClose_users hclose).trans rfl
    | made n pa record part parent parent' ok vol _ _ _ _ _ hclose =>
      exact (dirClose_users hclose).trans rfl
  | sysUnlink pathname heap stack =>
    obtain ⟨⟨r, k1⟩, hcall, rfl⟩ := Option.map_eq_some_iff.mp hstep
    cases sysUnlink_cases hcall with
    | failed n record part _ hclose => exact (dirClose_users hclose).trans rfl
    | removed n record part k2 k3 _ _ _ _ _ hdelete hrelease hclose =>
      show k1.userInodes = k.userInodes
      rw [dirClose_users hclose, release_users hrelease, deleteEntry_users hdelete]
  | sysRmdir pathname heap stack =>
    obtain ⟨⟨r, k1⟩, hcall, rfl⟩ := Option.map_eq_some_iff.mp hstep
    cases sysRmdir_cases hcall with
    | failed n record part _ hclose => exact (dirClose_users hclose).trans rfl
    | refused n record part part' dir k2 _ _ hclose hclose' =>
      show k1.userInodes = k.userInodes
      rw [dirClose_users hclose', dirClose_users hclose]
    | removed n record part part' dir child k2 k3 k4 _ _ _ _ _ _ _ hdelete hrelease hclose
        hclose' =>
      show k1.userInodes = k.userInodes
      rw [dirClose_users hclose', dirClose_users hclose, release_users hrelease,
        deleteEntry_users hdelete]

theorem inodeClose_other {s s' : Mounted p} {a b : Nat} (hne : b ≠ a)
    (h : inodeClose s a = some s') : s'.inodeAt b = s.inodeAt b := by
  simp only [inodeClose, Option.bind_eq_bind, Option.bind_eq_some_iff] at h
  obtain ⟨i, -, h⟩ := h
  split at h
  · obtain rfl := Option.some.inj h
    unfold Mounted.inodeAt
    dsimp only
    rw [List.find?_filter]
    refine congrArg _ (congrArg (fun q => s.openInodes.find? q) (funext fun e => ?_))
    by_cases he : e.1 = b
    · simp [he, hne]
    · simp [he]
  · obtain rfl := Option.some.inj h
    rw [Mounted.inodeAt_modifyInode, if_neg hne]

/-- A file a user process makes leaves a struct of its own heap on the list. -/
theorem sysOpen_strays {pathname : List UInt8} {flags : UInt8} {heap : Grants} {stack : Stack}
    (hproc : (k.pcb t).isProcess = true) (hmakes : k.makesFile pathname flags heap stack = true)
    (h : sysOpen k t pathname flags heap stack = some (r, k')) : ¬k'.KernelInodes := by
  unfold FileSys.makesFile at hmakes
  simp only [Bool.and_eq_true, decide_eq_true_eq] at hmakes
  obtain ⟨⟨⟨hlast, hcreat⟩, hcan⟩, hsearch⟩ := hmakes
  split at hsearch
  case h_2 => cases hsearch
  next n record part hfile =>
  simp only [Bool.and_eq_true, decide_eq_true_eq] at hsearch
  obtain ⟨⟨rfl, hdir⟩, hdepth⟩ := hsearch
  -- the conditions leave `sys_open` one way to go
  unfold sysOpen sysOpenOn at h
  rw [if_neg hlast] at h
  obtain ⟨-, -, h⟩ := Option.bind_eq_some_iff.mp h
  obtain ⟨depth, hd, h⟩ := Option.bind_eq_some_iff.mp h
  have hsearch : k.search stack pathname = some (-1, record, { k with part }) := by
    simp [FileSys.search, hfile]
  obtain ⟨x, hx, h⟩ := Option.bind_eq_some_iff.mp h
  obtain rfl := Option.some.inj (hsearch.symm.trans hx)
  dsimp only at h
  rw [if_neg hdir] at h
  obtain ⟨depth', hd', h⟩ := Option.bind_eq_some_iff.mp h
  have hsame : depth = depth' := Option.some.inj (hd.symm.trans (hdepth.trans hd'))
  rw [if_neg (not_not.mpr hsame), if_neg (fun hc => hcreat hc.2), if_neg (fun hc => hc.1 rfl),
    if_pos hcreat] at h
  obtain ⟨⟨fd, k2⟩, hcreate, h⟩ := Option.bind_eq_some_iff.mp h
  obtain ⟨k3, hclose, heq⟩ := Option.bind_eq_some_iff.mp h
  obtain ⟨-, rfl⟩ := Prod.mk.inj (Option.some.inj heq)
  rcases fileCreate_made hcreate with ⟨hcan', -⟩ | ⟨-, g, m, hmade⟩
  · exact absurd hcan hcan'
  obtain ⟨pa, parent, parent', vol, -, -, -, hpart⟩ := hmade.list
  have huser : part.brk ∈ k2.userInodes := by
    rw [hmade.userInodes, if_pos hproc]
    exact List.mem_cons_self
  have hat : k2.part.inodeAt part.brk = some ((newInode m).setOpenCnts 1) := by
    rw [hpart, Mounted.inodeAt_cons, if_pos rfl]
  intro hkernel
  refine hkernel part.brk ?_ (dirClose_users hclose ▸ huser)
  cases hdir : record.parentDir with
  | root =>
    rw [hdir] at hclose
    obtain rfl := Option.some.inj hclose
    rw [hat]
    exact Option.some_ne_none _
  | opened a =>
    rw [hdir] at hclose
    obtain ⟨hassert, part', hinode, rfl⟩ := FileSys.inodeClose_eq hclose
    have hne : part.brk ≠ a := by
      intro he
      subst he
      refine hassert ?_ huser
      rw [Mounted.cnt_of_inodeAt hat]
      exact setOpenCnts_toNat _ 1
    show part'.inodeAt part.brk ≠ none
    rw [inodeClose_other hne hinode, hat]
    exact Option.some_ne_none _

end

/-! ## Runs -/

/-- No process has made a file yet. -/
def NoUserInodes (k : FileSys p) : Prop := k.userInodes = []

/-- Kernel threads and user processes call in any order. -/
def fsMachine (p : Partition) : Machine (FileSys p) FsOp where
  start := NoUserInodes
  may := fun _ _ => True
  step := FileSys.fsStep

/-- No user process makes a file. -/
def KernelMakes (k : FileSys p) : FsOp → Prop
  | .sysOpen t pathname flags heap stack =>
    (k.pcb t).isProcess = true → k.makesFile pathname flags heap stack = false
  | _ => True

theorem fsStep_users {k k' : FileSys p} {op : FsOp} (hmakes : KernelMakes k op)
    (hstep : k.fsStep op = some k') : k'.userInodes = k.userInodes := by
  cases op with
  | sysOpen t pathname flags heap stack =>
    obtain ⟨⟨r, k1⟩, hcall, rfl⟩ := Option.map_eq_some_iff.mp hstep
    exact sysOpen_users hmakes hcall
  | sysClose | sysOpendir | sysClosedir | sysChdir | sysMkdir | sysUnlink | sysRmdir =>
    apply dirCall_users hstep
    intro _ _ _ _ _ heq
    cases heq

/-- `sys_free` takes what is in the kernel heap. -/
theorem inodeClose_passes {k : FileSys p} {a : Nat} (h : a ∉ k.userInodes) :
    k.inodeClose a = (inodeClose k.part a).map fun part => { k with part } := by
  cases hclose : inodeClose k.part a with
  | none =>
    rw [Option.map_none, Option.eq_none_iff_forall_ne_some]
    intro k' hk'
    obtain ⟨-, part, hpart, -⟩ := FileSys.inodeClose_eq hk'
    rw [hclose] at hpart
    cases hpart
  | some part =>
    have hclose' := hclose
    simp only [inodeClose, Option.bind_eq_bind, Option.bind_eq_some_iff] at hclose'
    obtain ⟨i, hi, -⟩ := hclose'
    unfold FileSys.inodeClose
    rw [hi, hclose]
    by_cases h1 : i.iOpenCnts = 1
    · simp [ensure, h]
    · simp [h1]

/-- **The structs on the list of open inodes are in the kernel heap**, and the
assertion in front of `sys_free` lets every `inode_close` through, in every run in
which no user process makes a file. In every state of such a run the next call keeps
it so just if it is not of that kind. -/
theorem inodes_in_kernel_heap (k : FileSys p) (h : (fsMachine p).Reach KernelMakes k) :
    k.KernelInodes ∧
      (∀ a, k.inodeClose a = (inodeClose k.part a).map fun part => { k with part }) ∧
      ∀ op k', k.fsStep op = some k' → (k'.KernelInodes ↔ KernelMakes k op) := by
  have hnone : k.userInodes = [] := by
    refine Machine.Reach.invariant (I := NoUserInodes) (fun _ hk => hk) ?_ h
    intro k op k' hk _ hmakes hstep
    exact (fsStep_users hmakes hstep).trans hk
  have hkernel : ∀ k' : FileSys p, k'.userInodes = [] → k'.KernelInodes := by
    intro k' hk' a _ hmem
    rw [hk'] at hmem
    cases hmem
  refine ⟨hkernel k hnone, fun a => ?_, fun op k' hstep => ⟨fun hk' => ?_, fun hmakes => ?_⟩⟩
  · apply inodeClose_passes
    rw [hnone]
    exact List.not_mem_nil
  · cases op with
    | sysOpen t pathname flags heap stack =>
      intro hproc
      by_contra hmakes
      obtain ⟨⟨r, k1⟩, hcall, rfl⟩ := Option.map_eq_some_iff.mp hstep
      exact sysOpen_strays hproc (Bool.not_eq_false _ ▸ hmakes) hcall hk'
    | _ => exact trivial
  · exact hkernel k' ((fsStep_users hmakes hstep).trans hnone)

/-! ## A kernel thread and a user process -/

instance (k : FileSys p) (op : FsOp) : Decidable ((fsMachine p).may k op) := isTrue trivial

instance (k : FileSys p) (op : FsOp) : Decidable (KernelMakes k op) :=
  match op with
  | .sysOpen t pathname flags heap stack => inferInstanceAs (Decidable ((k.pcb t).isProcess = true →
      k.makesFile pathname flags heap stack = false))
  | .sysClose .. => isTrue trivial
  | .sysOpendir .. => isTrue trivial
  | .sysClosedir .. => isTrue trivial
  | .sysChdir .. => isTrue trivial
  | .sysMkdir .. => isTrue trivial
  | .sysUnlink .. => isTrue trivial
  | .sysRmdir .. => isTrue trivial

theorem small_noUserInodes : NoUserInodes smallSys := rfl

/-- `/B`. -/
def pathB : List UInt8 := [47, 66]

/-- A kernel thread makes `/B`, a user process opens and closes it and makes a
directory; the file goes when both have closed it. -/
def kernelMakesB : List FsOp :=
  [.sysOpen 0 pathB 6 ⟨true, true⟩ noStack, .sysOpen 1 pathB 0 ⟨true, true⟩ noStack,
    .sysMkdir [47, 67] ⟨true, true⟩ noStack, .sysClose 0 3, .sysClose 1 3,
    .sysUnlink pathB ⟨true, true⟩ noStack]

theorem inodes_in_kernel_heap_small :
    ∃ k, (fsMachine blankPartition).follow KernelMakes smallSys kernelMakesB = some k ∧
      k.KernelInodes := by
  have hsome : ((fsMachine blankPartition).follow KernelMakes smallSys kernelMakesB).isSome =
      true := by decide +kernel
  obtain ⟨k, hk⟩ := Option.isSome_iff_exists.mp hsome
  have hreach : (fsMachine blankPartition).Reach KernelMakes k :=
    Machine.reach_of_follow (Machine.Reach.start small_noUserInodes) hk
  exact ⟨k, hk, (inodes_in_kernel_heap k hreach).1⟩

/-- **A struct that `inode_close` cannot free**: a user process has made `/B`, and
the assertion stops it when it closes the file. -/
theorem user_makes_stray_inode :
    ∃ k, (fsMachine blankPartition).Reachable k ∧ ¬k.KernelInodes ∧
      k.fsStep (.sysClose 1 3) = none := by
  have hsome : ((fsMachine blankPartition).follow (fun _ _ => True) smallSys
      [.sysOpen 1 pathB 6 ⟨true, true⟩ noStack]).map (fun k => (k.userInodes,
        (k.part.inodeAt 2).isSome, (k.fsStep (.sysClose 1 3)).isNone)) =
          some ([2], true, true) := by decide +kernel
  obtain ⟨k, hk, he⟩ := Option.map_eq_some_iff.mp hsome
  simp only [Prod.mk.injEq, Option.isNone_iff_eq_none] at he
  obtain ⟨huser, hat, hclose⟩ := he
  have hreach : (fsMachine blankPartition).Reachable k :=
    Machine.reach_of_follow (Machine.Reach.start small_noUserInodes) hk
  refine ⟨k, hreach, fun hkernel => hkernel 2 ?_ ?_, hclose⟩
  · exact Option.isSome_iff_ne_none.mp hat
  · rw [huser]
    exact List.mem_singleton.mpr rfl

end OsCore.Fs
