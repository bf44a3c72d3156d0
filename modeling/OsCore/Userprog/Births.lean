import OsCore.Userprog.PageOwners

/-!
# A process more (`userprog/fork.c`, `userprog/process.c`)

What `sys_fork` and `process_execute` ask for, in order, and where they may be refused.
`CopyRun` is the memory part of `copy_process`: a buffer, the bitmap, the directory, the
pages and the buffer back. What else they write is about the new task only, which is in
no list until the end (`Beside`).

A fork that is refused leaves regions that nobody owns (`Owners.copy_refused`), one that
is not leaves the regions of the child and no more (`Owners.copied`).
-/

namespace OsCore.Userprog

open Lib Thread Paging Fs

variable {p : Partition} {L : Layout} {k k' : KernelState p} {c parent : Nat}

/-- Memory apart, only what is recorded for task `c` may have changed, and how often
files and pipes are open. -/
structure Beside (c : Nat) (k k' : KernelState p) : Prop where
  cur : k'.cur = k.cur
  allList : k'.family.allList = k.family.allList
  main : k'.family.main = k.family.main
  vm : ∀ t, t ≠ c → k'.vm t = k.vm t
  task : ∀ t, t ≠ c → k'.family.task t = k.family.task t
  flags : ∀ g, (k'.fs.fileTable g).fdFlag = (k.fs.fileTable g).fdFlag

/-- Task `c` is listed, and nothing is different for the others. -/
structure Listed (c : Nat) (k k' : KernelState p) : Prop where
  cur : k'.cur = k.cur
  allList : k'.family.allList = k.family.allList ++ [c]
  main : k'.family.main = k.family.main
  vm : ∀ t, t ≠ c → k'.vm t = k.vm t
  task : ∀ t, t ≠ c → k'.family.task t = k.family.task t
  ready : (k'.family.task c).status = .ready
  flags : ∀ g, (k'.fs.fileTable g).fdFlag = (k.fs.fileTable g).fdFlag

/-- The descriptors of `c` are those of `t`, and files and pipes count one user more. -/
def FilesForked (t c : Nat) (f f' : FileSys p) : Prop :=
  ∃ g, updateInodeOpenCnts t c 5 3 { f with pcb := Function.update f.pcb c (f.pcb t) } = some g ∧
    f'.fileTable = g.fileTable ∧ f'.pcb = g.pcb

/-- `copy_process` with directory `parentDir`, on memory: what it comes to, with the
fields of the child's PCB when nothing is refused. -/
inductive CopyRun (L : Layout) (parentDir : Nat) (s : Mm) : Option Vm → Mm → Prop
  | noBuffer {s1 : Mm} : getKernelPages (pallocFrom L) s 1 = some (none, s1) →
      CopyRun L parentDir s none s1
  | noBits {buf : Nat} {s1 s2 : Mm} : getKernelPages (pallocFrom L) s 1 = some (some buf, s1) →
      getKernelPages (pallocFrom L) s1 bitmapPgCnt = some (none, s2) →
      CopyRun L parentDir s none s2
  | noDir {buf bits : Nat} {s1 s2 s3 : Mm} :
      getKernelPages (pallocFrom L) s 1 = some (some buf, s1) →
      getKernelPages (pallocFrom L) s1 bitmapPgCnt = some (some bits, s2) →
      createPageDir (pallocFrom L) s2 = some (none, s3) → CopyRun L parentDir s none s3
  | done {buf bits dir : Nat} {s1 s2 s3 s4 s5 : Mm} :
      getKernelPages (pallocFrom L) s 1 = some (some buf, s1) →
      getKernelPages (pallocFrom L) s1 bitmapPgCnt = some (some bits, s2) →
      createPageDir (pallocFrom L) s2 = some (some dir, s3) →
      copyBodyStack3 (pallocFrom L) buf dir parentDir (8 * s3.userVaddr.bytesLen) 0 s3 = some s4 →
      mfreePage L .kernel s4 buf 1 = some s5 →
      CopyRun L parentDir s (some ⟨dir, bits, s1.userVaddr⟩) s5

/-! ## What the code does -/

theorem setSlot_flags {f : FileSys p} {a : Nat} {e : FileSlot} (h : e.fdFlag = (f.fileTable a).fdFlag)
    (g : Nat) : ((f.setSlot a e).fileTable g).fdFlag = (f.fileTable g).fdFlag := by
  by_cases hg : g = a
  · rw [hg]
    exact (congrArg FileSlot.fdFlag (Function.update_self ..)).trans h
  · exact congrArg FileSlot.fdFlag (Function.update_of_ne hg ..)

/-- The counts of files and pipes go up, and an entry stays what it is. -/
theorem updateInodeOpenCnts_flags {t : Nat} : ∀ {n i : Nat} {f f' : FileSys p},
    updateInodeOpenCnts t c n i f = some f' →
    ∀ g, (f'.fileTable g).fdFlag = (f.fileTable g).fdFlag := by
  intro n
  induction n with
  | zero =>
    intro i f f' h g
    obtain rfl := Option.some.inj h
    rfl
  | succ n ih =>
    intro i f f' h g
    simp only [updateInodeOpenCnts, Option.bind_eq_bind, Option.bind_eq_some_iff, ensure_eq_some,
      exists_const] at h
    obtain ⟨-, h⟩ := h
    split at h
    next => exact ih h g
    next =>
      obtain ⟨e, -, h⟩ := Option.bind_eq_some_iff.mp h
      split at h
      next =>
        have hflags := setSlot_flags (f := f) (a := ((f.pcb c).fdTable i).toNat)
          (e := { f.fileTable ((f.pcb c).fdTable i).toNat with
            fdPos := (f.fileTable ((f.pcb c).fdTable i).toNat).fdPos + 1 }) rfl g
        exact (ih h g).trans hflags
      next => exact ih h g

theorem copyPcb_run {r : Int} (h : copyPcbVaddrbitmapStack0 (pallocFrom L) k c parent = some (r, k')) :
    Beside c k k' ∧ k'.fs = { k.fs with pcb := Function.update k.fs.pcb c (k.fs.pcb parent) } ∧
      ∃ v, getKernelPages (pallocFrom L) k.mm bitmapPgCnt = some (v, k'.mm) ∧
      (r = -1 ∧ v = none ∨ r = 0 ∧ ∃ bits, v = some bits ∧ (k'.vm c).bits = bits ∧
        (k'.vm c).vaddrBitmap = k.mm.userVaddr ∧ (k'.family.task c).status = .ready) := by
  simp only [copyPcbVaddrbitmapStack0, Option.bind_eq_bind, Option.bind_eq_some_iff, Prod.exists] at h
  obtain ⟨pid, b, -, v, mm, hpages, h⟩ := h
  cases v with
  | none =>
    simp only [Option.pure_def, Option.some.injEq, Prod.mk.injEq] at h
    obtain ⟨rfl, rfl⟩ := h
    refine ⟨⟨rfl, rfl, rfl, fun t ht => ?_, fun t ht => ?_, fun _ => rfl⟩, rfl, none, hpages,
      Or.inl ⟨rfl, rfl⟩⟩
    · exact Function.update_of_ne ht ..
    · exact Function.update_of_ne ht ..
  | some bits =>
    simp only [Option.bind_eq_some_iff, Option.pure_def, Option.some.injEq, Prod.mk.injEq] at h
    obtain ⟨-, -, rfl, rfl⟩ := h
    refine ⟨⟨rfl, rfl, rfl, fun t ht => ?_, fun t ht => ?_, fun _ => rfl⟩, rfl, some bits, hpages,
      Or.inr ⟨rfl, bits, rfl, ?_, ?_, ?_⟩⟩
    · exact (Function.update_of_ne ht ..).trans (Function.update_of_ne ht ..)
    · exact (Function.update_of_ne ht ..).trans (Function.update_of_ne ht ..)
    · simp
    · simp
    · simp [Family.modify]

theorem copyProcess_run {r : Int} (hne : parent ≠ c)
    (h : copyProcess (pallocFrom L) L k c parent = some (r, k')) : Beside c k k' ∧
      (r = -1 ∧ CopyRun L (k.vm parent).pgdir k.mm none k'.mm ∨
        r = 0 ∧ CopyRun L (k.vm parent).pgdir k.mm (some (k'.vm c)) k'.mm ∧
          (k'.family.task c).status = .ready ∧ FilesForked parent c k.fs k'.fs) := by
  obtain ⟨⟨buf, mm⟩, hbuf, h⟩ := Option.bind_eq_some_iff.mp h
  cases buf with
  | none =>
    simp only [Option.pure_def, Option.some.injEq, Prod.mk.injEq] at h
    obtain ⟨rfl, rfl⟩ := h
    exact ⟨⟨rfl, rfl, rfl, fun _ _ => rfl, fun _ _ => rfl, fun _ => rfl⟩,
      Or.inl ⟨rfl, .noBuffer hbuf⟩⟩
  | some buf =>
    obtain ⟨⟨r1, k1⟩, hpcb, h⟩ := Option.bind_eq_some_iff.mp h
    obtain ⟨hb, hpcbs, v, hpages, hcases⟩ := copyPcb_run hpcb
    have hbeside : ∀ {k2 : KernelState p}, Beside c k1 k2 → Beside c k k2 := fun h2 =>
      ⟨h2.cur.trans hb.cur, h2.allList.trans hb.allList, h2.main.trans hb.main,
        fun t ht => (h2.vm t ht).trans (hb.vm t ht), fun t ht => (h2.task t ht).trans (hb.task t ht),
        fun g => (h2.flags g).trans (hb.flags g)⟩
    dsimp only at h
    split at h
    next hr =>
      simp only [Option.pure_def, Option.some.injEq, Prod.mk.injEq] at h
      obtain ⟨rfl, rfl⟩ := h
      rcases hcases with ⟨-, rfl⟩ | ⟨h0, -⟩
      · exact ⟨hbeside ⟨rfl, rfl, rfl, fun _ _ => rfl, fun _ _ => rfl, fun _ => rfl⟩,
          Or.inl ⟨rfl, .noBits hbuf hpages⟩⟩
      · rw [h0] at hr
        exact absurd hr (by decide)
    next hr =>
      rcases hcases with ⟨h1, -⟩ | ⟨-, bits, rfl, hbits, hmap, hstatus⟩
      · exact absurd h1 hr
      obtain ⟨⟨pgdir, mm2⟩, hdir, h⟩ := Option.bind_eq_some_iff.mp h
      have hvm : ∀ t, t ≠ c → ∀ v : Vm, Function.update k1.vm c v t = k1.vm t := fun t ht v =>
        Function.update_of_ne ht ..
      cases pgdir with
      | none =>
        simp only [Option.pure_def, Option.some.injEq, Prod.mk.injEq, if_pos] at h
        obtain ⟨rfl, rfl⟩ := h
        exact ⟨hbeside ⟨rfl, rfl, rfl, fun t ht => hvm t ht _, fun _ _ => rfl, fun _ => rfl⟩,
          Or.inl ⟨rfl, .noDir hbuf hpages hdir⟩⟩
      | some dir =>
        simp only [reduceCtorEq, if_false, Option.bind_eq_bind, Option.bind_eq_some_iff,
          Option.pure_def, Option.some.injEq, Prod.mk.injEq] at h
        obtain ⟨mm3, hcopy, fs, hfs, mm4, hfree, rfl, rfl⟩ := h
        refine ⟨hbeside ⟨rfl, rfl, rfl, fun t ht => hvm t ht _, fun _ _ => rfl,
          updateInodeOpenCnts_flags hfs⟩, Or.inr ⟨rfl, ?_, hstatus, fs, ?_, rfl, rfl⟩⟩
        · simp only [Function.update_self, Option.getD_some, Function.update_of_ne hne] at hcopy ⊢
          rw [hb.vm parent hne] at hcopy
          rw [hbits, hmap]
          exact .done hbuf hpages hdir hcopy hfree
        · rw [← hpcbs]
          exact hfs

/-- `sys_fork`: no page for the PCB, a copy that is refused, or a child. -/
theorem sysFork_run {r : Int} (h : sysFork (pallocFrom L) L k = some (r, k')) :
    ∃ page s1, getKernelPages (pallocFrom L) k.mm 1 = some (page, s1) ∧
      (page = none ∧ r = -1 ∧ k' = { k with mm := s1 } ∨ ∃ vaddr, page = some vaddr ∧
        (k.cur ≠ vaddr / 4096 →
          r = -1 ∧ Beside (vaddr / 4096) k k' ∧ CopyRun L (k.vm k.cur).pgdir s1 none k'.mm ∨
          r = (k'.family.task (vaddr / 4096)).pid ∧ Listed (vaddr / 4096) k k' ∧
            CopyRun L (k.vm k.cur).pgdir s1 (some (k'.vm (vaddr / 4096))) k'.mm ∧
            FilesForked k.cur (vaddr / 4096) k.fs k'.fs)) := by
  obtain ⟨⟨page, s1⟩, hpage, h⟩ := Option.bind_eq_some_iff.mp h
  refine ⟨page, s1, hpage, ?_⟩
  cases page with
  | none =>
    simp only [Option.pure_def, Option.some.injEq, Prod.mk.injEq] at h
    exact Or.inl ⟨rfl, h.1.symm, h.2.symm⟩
  | some vaddr =>
    simp only [Option.bind_eq_bind, Option.bind_eq_some_iff, ensure_eq_some, exists_const,
      Prod.exists] at h
    obtain ⟨-, r1, k1, hcopy, h⟩ := h
    refine Or.inr ⟨vaddr, rfl, fun hne => ?_⟩
    obtain ⟨hb, hcases⟩ := copyProcess_run hne hcopy
    split at h
    next hr =>
      simp only [Option.pure_def, Option.some.injEq, Prod.mk.injEq] at h
      obtain ⟨rfl, rfl⟩ := h
      rcases hcases with ⟨-, hcrun⟩ | ⟨h0, -⟩
      · exact Or.inl ⟨rfl, ⟨hb.cur, hb.allList, hb.main, hb.vm, hb.task, hb.flags⟩, hcrun⟩
      · rw [h0] at hr
        exact absurd hr (by decide)
    next hr =>
      simp only [Option.bind_eq_some_iff, ensure_eq_some, exists_const, Option.pure_def,
        Option.some.injEq, Prod.mk.injEq] at h
      obtain ⟨-, -, rfl, rfl⟩ := h
      rcases hcases with ⟨h1, -⟩ | ⟨-, hcrun, hstatus, f, hf, htable, hpcb⟩
      · exact absurd h1 hr
      refine Or.inr ⟨?_, ⟨hb.cur, congrArg (· ++ [vaddr / 4096]) hb.allList, hb.main, hb.vm,
        fun t ht => (Function.update_of_ne ht ..).trans (hb.task t ht), ?_, hb.flags⟩, hcrun,
        f, hf, htable, hpcb⟩
      · dsimp only
        rw [Function.update_self]
      · dsimp only
        rw [Function.update_self]
        exact hstatus

/-- The PCB of the child of task `t`. -/
def Family.childOf (s : Family) (t : Nat) (pid : Int) : Task :=
  { s.task t with
    pid
    status := .ready
    parentPid := (s.task t).pid
    name := (s.task t).name ++ "_fork".toList
    forked := true
    uid := s.nextUid }

/-- `copy_process` when nothing is refused. -/
theorem copyProcess_eq {s1 s2 s3 s4 s5 : Mm} {buf bits dir : Nat} {pid : Int} {pids : Bitmap}
    {fs : FileSys p} (hne : parent ≠ c)
    (hbuf : getKernelPages (pallocFrom L) k.mm 1 = some (some buf, s1))
    (hpid : allocatePid k.family.pidBitmap = some (pid, pids))
    (hbits : getKernelPages (pallocFrom L) s1 bitmapPgCnt = some (some bits, s2))
    (hname : (k.family.task parent).name.length < 11)
    (hdir : createPageDir (pallocFrom L) s2 = some (some dir, s3))
    (hcopy : copyBodyStack3 (pallocFrom L) buf dir (k.vm parent).pgdir (8 * s3.userVaddr.bytesLen) 0
      s3 = some s4)
    (hfs : updateInodeOpenCnts parent c 5 3
      { k.fs with pcb := Function.update k.fs.pcb c (k.fs.pcb parent) } = some fs)
    (hfree : mfreePage L .kernel s4 buf 1 = some s5) :
    copyProcess (pallocFrom L) L k c parent = some (0, { k with
      mm := s5
      vm := Function.update k.vm c ⟨dir, bits, s1.userVaddr⟩
      family := { k.family with
        pidBitmap := pids
        task := Function.update k.family.task c { k.family.task parent with
          pid
          status := .ready
          parentPid := (k.family.task parent).pid
          name := (k.family.task parent).name ++ "_fork".toList } }
      fs }) := by
  have hpgdir : ∀ v : Vm, (Function.update k.vm c v parent) = k.vm parent := fun v =>
    Function.update_of_ne hne ..
  simp only [copyProcess, copyPcbVaddrbitmapStack0, hbuf, hpid, hbits, ensure_pos hname, hdir,
    Family.modify, Option.bind_eq_bind, Option.bind_some, Option.pure_def, Function.update_self,
    Function.update_idem, Option.getD_some, hpgdir, hcopy, hfs, hfree]
  rfl

/-- `sys_fork` when nothing is refused. -/
theorem sysFork_eq {s0 s1 s2 s3 s4 s5 : Mm} {vaddr buf bits dir : Nat} {pid : Int} {pids : Bitmap}
    {fs : FileSys p} (hpage : getKernelPages (pallocFrom L) k.mm 1 = some (some vaddr, s0))
    (hcall : (k.vm k.cur).pgdir ≠ 0) (hne : k.cur ≠ vaddr / 4096)
    (hbuf : getKernelPages (pallocFrom L) s0 1 = some (some buf, s1))
    (hpid : allocatePid k.family.pidBitmap = some (pid, pids))
    (hbits : getKernelPages (pallocFrom L) s1 bitmapPgCnt = some (some bits, s2))
    (hname : (k.family.task k.cur).name.length < 11)
    (hdir : createPageDir (pallocFrom L) s2 = some (some dir, s3))
    (hcopy : copyBodyStack3 (pallocFrom L) buf dir (k.vm k.cur).pgdir (8 * s3.userVaddr.bytesLen) 0
      s3 = some s4)
    (hfs : updateInodeOpenCnts k.cur (vaddr / 4096) 5 3
      { k.fs with pcb := Function.update k.fs.pcb (vaddr / 4096) (k.fs.pcb k.cur) } = some fs)
    (hfree : mfreePage L .kernel s4 buf 1 = some s5) (hready : vaddr / 4096 ∉ k.readyList)
    (hlist : vaddr / 4096 ∉ k.family.allList) :
    sysFork (pallocFrom L) L k = some (pid, { k with
      mm := s5
      vm := Function.update k.vm (vaddr / 4096) ⟨dir, bits, s1.userVaddr⟩
      readyList := k.readyList ++ [vaddr / 4096]
      family := { k.family with
        allList := k.family.allList ++ [vaddr / 4096]
        pidBitmap := pids
        task := Function.update k.family.task (vaddr / 4096) (k.family.childOf k.cur pid)
        nextUid := k.family.nextUid + 1 }
      fs := { fs with live := insert (vaddr / 4096) fs.live } }) := by
  have hcopied := copyProcess_eq (k := { k with mm := s0 }) hne hbuf hpid hbits hname hdir hcopy hfs
    hfree
  rw [sysFork, hpage]
  simp only [Option.bind_eq_bind, Option.bind_some, ensure_pos hcall, hcopied, ensure_pos hready,
    ensure_pos hlist, Option.pure_def, Function.update_self, Function.update_idem]
  rfl

/-- `process_execute`: a page for the PCB, the bitmap, and a directory or none. -/
theorem processExecute_run {name : List Char} (h : processExecute (pallocFrom L) k name = some k') :
    ∃ vaddr bits dir s1 s2, getKernelPages (pallocFrom L) k.mm 1 = some (some vaddr, s1) ∧
      getKernelPages (pallocFrom L) s1 bitmapPgCnt = some (some bits, s2) ∧
      createPageDir (pallocFrom L) s2 = some (dir, k'.mm) ∧ Listed (vaddr / 4096) k k' ∧
      k'.vm (vaddr / 4096) =
        ⟨dir.getD 0, bits, (⟨userBitmapLen, Mem.zero⟩ : Bitmap).bitmapInit⟩ := by
  simp only [processExecute, Option.bind_eq_bind, Option.bind_eq_some_iff, ensure_eq_some, exists_const,
    Option.pure_def, Option.some.injEq, Prod.exists] at h
  obtain ⟨page, s1, hpage, vaddr, rfl, pid, pidBitmap, -, v, s2, hbits, bits, rfl, dir, s3, hdir, -, -,
    rfl⟩ := h
  refine ⟨vaddr, bits, dir, s1, s2, hpage, hbits, hdir, ⟨rfl, rfl, rfl, fun t ht => ?_, fun t ht => ?_,
    ?_, fun _ => rfl⟩, ?_⟩
  · exact Function.update_of_ne ht ..
  · exact Function.update_of_ne ht ..
  · dsimp only
    rw [Function.update_self]
    rfl
  · exact Function.update_self ..

/-! ## Whose pages they are -/

section

variable {s s' : Mm} {T : List Nat} {vm vm' : Nat → Vm} {S : Spaces} {R : List (Nat × Nat)}
  {use : Nat × Nat → Use} {parentDir : Nat}

/-- **`get_kernel_pages`**: no room, or a region more, with the tag it is asked for. -/
theorem Owners.getKernelPages (h : Owners L s T vm S R use) {n : Nat} {v : Option Nat} (u : Nat → Use)
    (hrun : getKernelPages (pallocFrom L) s n = some (v, s')) :
    (v = none ∧ s' = s) ∨ ∃ i, v = some (kHeapStart + i * 4096) ∧ NewPages S i n s s' ∧
      Owners L s' T vm S ((i, n) :: R) (Function.update use (i, n) (u i)) := by
  rcases h.regions.getKernelPages hrun with hno | ⟨i, hv, hpages, hregions⟩
  · exact Or.inl hno
  · exact Or.inr ⟨i, hv, hpages, h.add hpages hregions (u i)⟩

/-- A copy that is refused keeps the pages it has got. -/
theorem Owners.copy_refused (h : Owners L s T vm S R use) (hnew : S c = none)
    (hrun : CopyRun L parentDir s none s') :
    ∃ R' use', Owners L s' T vm S R' use' ∧ s'.cr3 = s.cr3 ∧ s'.userVaddr = s.userVaddr := by
  cases hrun with
  | noBuffer h1 =>
    rcases h.getKernelPages (fun _ => .other) h1 with ⟨-, rfl⟩ | ⟨_, hno, -⟩
    · exact ⟨R, use, h, rfl, rfl⟩
    · cases hno
  | noBits h1 h2 =>
    rcases h.getKernelPages (fun _ => .other) h1 with ⟨hno, -⟩ | ⟨a, -, hp1, ho1⟩
    · cases hno
    rcases ho1.getKernelPages (fun _ => .other) h2 with ⟨-, rfl⟩ | ⟨_, hno, -⟩
    · exact ⟨_, _, ho1, hp1.cr3, hp1.userVaddr⟩
    · cases hno
  | noDir h1 h2 h3 =>
    rcases h.getKernelPages (fun _ => .other) h1 with ⟨hno, -⟩ | ⟨a, -, hp1, ho1⟩
    · cases hno
    rcases ho1.getKernelPages (fun _ => .other) h2 with ⟨hno, -⟩ | ⟨b, -, hp2, ho2⟩
    · cases hno
    rcases ho2.regions.createPageDir hnew h3 with ⟨-, rfl⟩ | ⟨_, _, hno, -⟩
    · exact ⟨_, _, ho2, hp2.cr3.trans hp1.cr3, hp2.userVaddr.trans hp1.userVaddr⟩
    · cases hno

/-- The pages of a child: its bitmap and its directory, and what the copy leaves of
the rest. -/
structure ChildPages (S : Spaces) (c b i dir : Nat) (s s' : Mm) : Prop where
  other : ∀ x, x.of c = false → inRun b bitmapPgCnt x = false → inRun i 1 x = false →
    slotFrame s'.mem (withSpace S c dir) x = slotFrame s.mem S x
  cr3 : s'.cr3 = s.cr3
  userVaddr : s'.userVaddr = s.userVaddr

/-- The three requests of a copy have been met: where the buffer, the bitmap and the
directory are, and everything is in place for the pages. -/
structure Ready (L : Layout) (S : Spaces) (c q dq : Nat) (T : List Nat) (vm' : Nat → Vm)
    (R : List (Nat × Nat)) (s s3 : Mm) (P : Places) (b : Nat) (use' : Nat × Nat → Use) : Prop where
  owners : Owners L s3 T vm' (withSpace S c P.childDir)
    ((P.childPage, 1) :: (b, bitmapPgCnt) :: (P.bufPage, 1) :: R) use'
  buffer : use' (P.bufPage, 1) = .other
  copying : Copying L (withSpace S c P.childDir) P s3
  parent : P.parent = q ∧ P.child = c ∧ P.parentDir = dq
  parentPage : (vm' q).pgdir = kHeapStart + P.parentPage * 4096
  userVaddr : s3.userVaddr = s.userVaddr
  bufNe : (P.bufPage, 1) ≠ (b, bitmapPgCnt) ∧ (P.bufPage, 1) ≠ (P.childPage, 1)
  was : ∀ k, inRun P.bufPage 1 (.heap k) = true → slotFrame s.mem S (.heap k) = none
  other : ∀ x, inRun P.bufPage 1 x = false → inRun b bitmapPgCnt x = false →
    inRun P.childPage 1 x = false → slotFrame s3.mem (withSpace S c P.childDir) x = slotFrame s.mem S x
  empty : ∀ v, slotFrame s3.mem (withSpace S c P.childDir) (.page c v) = none

/-- **The requests of a copy**, when they are met. -/
theorem Owners.ready (h : Owners L s T vm S R use) (hc : c ∈ T ∧ heapPage ≤ c) (hnew : S c = none)
    {q dq : Nat} (hq : S q = some ⟨dq, true⟩) (hcr3 : s.cr3 = dq) {buf bits pgdir : Nat}
    {s1 s2 s3 : Mm} (h1 : Paging.getKernelPages (pallocFrom L) s 1 = some (some buf, s1))
    (h2 : Paging.getKernelPages (pallocFrom L) s1 bitmapPgCnt = some (some bits, s2))
    (h3 : createPageDir (pallocFrom L) s2 = some (some pgdir, s3))
    (hvm : ∀ t, t ≠ c → vm' t = vm t) (hpgdir : (vm' c).pgdir = pgdir) (hbits' : (vm' c).bits = bits) :
    ∃ P b use', Ready L S c q dq T vm' R s s3 P b use' ∧ buf = kHeapStart + P.bufPage * 4096 ∧
      bits = kHeapStart + b * 4096 ∧ pgdir = kHeapStart + P.childPage * 4096 ∧
      s1.userVaddr = s.userVaddr := by
  have hqc : q ≠ c := by
    intro heq
    subst heq
    rw [hq] at hnew
    cases hnew
  rcases h.getKernelPages (fun _ => .other) h1 with ⟨hno, -⟩ | ⟨kb, hbuf, hp1, ho1⟩
  · cases hno
  rcases ho1.getKernelPages (fun _ => .bits c) h2 with ⟨hno, -⟩ | ⟨b, hbits, hp2, ho2⟩
  · cases hno
  rcases ho2.regions.createPageDir hnew h3 with ⟨hno, -⟩ | ⟨i, dir, hdir, hmade, hregions⟩
  · cases hno
  obtain rfl := Option.some.inj hbuf
  obtain rfl := Option.some.inj hbits
  obtain rfl := Option.some.inj hdir
  have ho3 := ho2.newSpace hc hnew ⟨List.mem_cons_self, Function.update_self ..⟩ hmade hregions hvm
    hpgdir hbits'
  have hq3 : withSpace S c dir q = some ⟨dq, true⟩ := (withSpace_ne hqc dir).trans hq
  have hbufNe : (kb, 1) ≠ (b, bitmapPgCnt) ∧ (kb, 1) ≠ (i, 1) := by
    have hnd := hregions.nodup
    simp only [List.nodup_cons, List.mem_cons, not_or] at hnd
    exact ⟨fun he => hnd.2.1.1 he.symm, fun he => hnd.1.2.1 he.symm⟩
  obtain ⟨use3, huse3⟩ : ∃ use3, use3 = Function.update (Function.update (Function.update use (kb, 1)
    .other) (b, bitmapPgCnt) (.bits c)) (i, 1) (.dir c) := ⟨_, rfl⟩
  rw [← huse3] at ho3
  have hother : use3 (kb, 1) = .other := by
    rw [huse3, Function.update_of_ne hbufNe.2, Function.update_of_ne hbufNe.1,
      Function.update_self]
  have hmem : (kb, 1) ∈ (i, 1) :: (b, bitmapPgCnt) :: (kb, 1) :: R := by simp
  obtain ⟨kq, hkq, hslotq, -, -⟩ := ho3.dir q _ hq3
  obtain ⟨fb, hfb⟩ := (ho3.regions.mapped kb).mpr ⟨_, hmem, Nat.le_refl kb, Nat.lt_succ_self kb⟩
  have hcopying : Copying L (withSpace S c dir) ⟨q, c, kq, i, kb, dq, dir, fb⟩ s3 :=
    ⟨ho3.regions.good, hq3, withSpace_same S c dir, hqc,
      hmade.cr3.trans (hp2.cr3.trans (hp1.cr3.trans hcr3)), hslotq,
      (withSpace_slots hnew hmade.empty _).trans hmade.slot, hfb,
      ho3.noDir hmem (fun t sp _ => by rw [hother]; simp) ⟨Nat.le_refl kb, Nat.lt_succ_self kb⟩ hfb⟩
  refine ⟨⟨q, c, kq, i, kb, dq, dir, fb⟩, b, use3, ⟨ho3, hother, hcopying, ⟨rfl, rfl, rfl⟩, hkq,
    hmade.userVaddr.trans (hp2.userVaddr.trans hp1.userVaddr), hbufNe,
    fun k hk => h.regions.was_none ho1.regions (inRun_heap.mp hk), fun x hxa hxb hxi => ?_,
    fun v => ?_⟩, rfl, rfl, rfl, hp1.userVaddr⟩
  · have hne : x ≠ .heap i := by
      intro heq
      subst heq
      simp [inRun] at hxi
    rw [withSpace_slots hnew hmade.empty, hmade.other x hne, hp2.other x hxb, hp1.other x hxa]
  · rw [withSpace_slots hnew hmade.empty, slotFrame, tableFrame, hnew]
    rfl

/-- The buffer can be given back. -/
theorem Ready.free {q dq b : Nat} {P : Places} {s3 s4 : Mm} {use' : Nat × Nat → Use}
    (h : Ready L S c q dq T vm' R s s3 P b use')
    (h4 : CopiedBits L (withSpace S c P.childDir) P s3.userVaddr 0 (8 * userBitmapLen) s3 s4) :
    ∃ s5, mfreePage L .kernel s4 (kHeapStart + P.bufPage * 4096) 1 = some s5 ∧
      Owners L s5 T vm' (withSpace S c P.childDir) ((P.childPage, 1) :: (b, bitmapPgCnt) :: R) use' ∧
      (∀ x, slotFrame s5.mem (withSpace S c P.childDir) x =
        if inRun P.bufPage 1 x then none else slotFrame s4.mem (withSpace S c P.childDir) x) ∧
      s5.cr3 = s4.cr3 ∧ s5.userVaddr = s4.userVaddr := by
  have ho4 := h.owners.keep (h.owners.regions.congr h4.copying.good (fun k => h4.other _ rfl)
    h4.kernelVaddr) fun k => h4.other _ rfl
  have hmem : (P.bufPage, 1) ∈ (P.childPage, 1) :: (b, bitmapPgCnt) :: (P.bufPage, 1) :: R := by simp
  obtain ⟨s5, hfree, ho5, hslots, -, hcr, huv⟩ := ho4.free hmem
    (fun t _ => by rw [h.buffer]; simp) fun t sp _ => by rw [h.buffer]; simp
  rw [List.erase_cons_tail (by simpa using h.bufNe.2.symm),
    List.erase_cons_tail (by simpa using h.bufNe.1.symm), List.erase_cons_head] at ho5
  exact ⟨s5, hfree, ho5, hslots, hcr, huv⟩

/-- **A copy that is not refused** leaves the child its bitmap, its directory and its
pages. The buffer is given back. -/
theorem Owners.copied (h : Owners L s T vm S R use) (hc : c ∈ T ∧ heapPage ≤ c) (hnew : S c = none)
    {q dq : Nat} (hq : S q = some ⟨dq, true⟩) (hcr3 : s.cr3 = dq)
    (hlen : s.userVaddr.bytesLen = userBitmapLen) {v : Vm}
    (hrun : CopyRun L (vm q).pgdir s (some v) s') (hvm : ∀ t, t ≠ c → vm' t = vm t) (hv : vm' c = v) :
    ∃ b i dir use', Owners L s' T vm' (withSpace S c dir) ((i, 1) :: (b, bitmapPgCnt) :: R) use' ∧
      ChildPages S c b i dir s s' ∧ v.bits = kHeapStart + b * 4096 ∧
      v.pgdir = kHeapStart + i * 4096 ∧ v.vaddrBitmap = s.userVaddr := by
  have hqc : q ≠ c := by
    intro heq
    subst heq
    rw [hq] at hnew
    cases hnew
  cases hrun with
  | @done buf bits pgdir s1 s2 s3 s4 s5 h1 h2 h3 h4 h5 =>
    obtain ⟨P, b, use', hready, rfl, rfl, rfl, huv1⟩ :=
      h.ready hc hnew hq hcr3 h1 h2 h3 hvm (by rw [hv]) (by rw [hv])
    have hkq := hready.parentPage
    rw [hvm q hqc] at hkq
    rw [hkq, hready.userVaddr, hlen] at h4
    have hall := hready.copying.copyBits (Nat.zero_add _).le h4
    obtain ⟨s5', hfree, ho5, hslots5, hcr5, huv5⟩ := hready.free hall
    rw [h5] at hfree
    obtain rfl := Option.some.inj hfree
    refine ⟨b, P.childPage, P.childDir, use', ho5, ⟨fun x hx hxb hxi => ?_, ?_, ?_⟩, rfl, rfl, huv1⟩
    · rw [hslots5]
      split
      next hbuf =>
        cases x with
        | heap k => exact (hready.was k hbuf).symm
        | table => cases hbuf
        | page => cases hbuf
      next hbuf =>
        rw [hall.other x (by rw [hready.parent.2.1]; exact hx),
          hready.other x (by simpa using hbuf) hxb hxi]
    · rw [hcr5, hall.copying.cr3, hready.parent.2.2, hcr3]
    · rw [huv5, hall.userVaddr, hready.userVaddr]

/-- **A copy comes back** when its requests are met and the pools have a frame for each
page of the parent and for each table of one. -/
theorem Owners.copy_returns (h : Owners L s T vm S R use) (hc : c ∈ T ∧ heapPage ≤ c)
    (hnew : S c = none) {q dq : Nat} (hq : S q = some ⟨dq, true⟩) (hcr3 : s.cr3 = dq)
    (hlen : s.userVaddr.bytesLen = userBitmapLen) {buf bits pgdir : Nat} {s1 s2 s3 : Mm}
    (h1 : Paging.getKernelPages (pallocFrom L) s 1 = some (some buf, s1))
    (h2 : Paging.getKernelPages (pallocFrom L) s1 bitmapPgCnt = some (some bits, s2))
    (h3 : createPageDir (pallocFrom L) s2 = some (some pgdir, s3))
    (hmapped : ∀ i ∈ marks s.userVaddr 0 (8 * userBitmapLen),
      ∃ f, slotFrame s.mem S (.page q (progPage i)) = some f)
    (huser : (marks s.userVaddr 0 (8 * userBitmapLen)).card ≤ s3.userPool.free.card)
    (hkernel : ((marks s.userVaddr 0 (8 * userBitmapLen)).image fun i => progPage i / 1024).card ≤
      s3.kernelPool.free.card) :
    ∃ s4 s5, copyBodyStack3 (pallocFrom L) buf pgdir (vm q).pgdir (8 * s3.userVaddr.bytesLen) 0 s3 =
      some s4 ∧ mfreePage L .kernel s4 buf 1 = some s5 := by
  have hqc : q ≠ c := by
    intro heq
    subst heq
    rw [hq] at hnew
    cases hnew
  have hself : Function.update vm c ⟨pgdir, bits, s1.userVaddr⟩ c = ⟨pgdir, bits, s1.userVaddr⟩ :=
    Function.update_self ..
  obtain ⟨P, b, use', hready, rfl, rfl, rfl, -⟩ := h.ready hc hnew hq hcr3 h1 h2 h3
    (fun t ht => Function.update_of_ne ht ⟨pgdir, bits, s1.userVaddr⟩ vm) (by rw [hself])
    (by rw [hself])
  have hkq := hready.parentPage
  rw [Function.update_of_ne hqc] at hkq
  have huv := hready.userVaddr
  rw [← huv] at huser hkernel
  have hpages : ∀ i ∈ marks s3.userVaddr 0 (8 * userBitmapLen),
      ∃ f, slotFrame s3.mem (withSpace S c P.childDir) (.page P.parent (progPage i)) = some f := by
    intro i hi
    rw [huv] at hi
    rw [hready.parent.1, hready.other _ rfl rfl rfl]
    exact hmapped i hi
  have hnone : ∀ i ∈ marks s3.userVaddr 0 (8 * userBitmapLen),
      slotFrame s3.mem (withSpace S c P.childDir) (.page P.child (progPage i)) = none := by
    intro i _
    rw [hready.parent.2.1]
    exact hready.empty _
  have hmissing : (missing s3.mem (withSpace S c P.childDir) P.child s3.userVaddr 0
      (8 * userBitmapLen)).card ≤ s3.kernelPool.free.card :=
    (Finset.card_filter_le _ _).trans hkernel
  obtain ⟨s4, h4⟩ := hready.copying.returns (Nat.zero_add _).le hpages hnone huser hmissing
  obtain ⟨s5, h5, -⟩ := hready.free (hready.copying.copyBits (Nat.zero_add _).le h4)
  refine ⟨s4, s5, ?_, h5⟩
  rw [hkq, huv, hlen]
  exact h4

end

end OsCore.Userprog
