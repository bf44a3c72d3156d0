import OsCore.Userprog.Births

/-!
# A process less (`userprog/wait_exit.c`, `thread/thread.c`)

What `sys_exit` and `sys_wait` do to the records of tasks, next to what they give back.
A process that has exited hangs, and only its parent, or init, takes it off the list.
Where no pipe is open its descriptors have no pages of their own.
-/

namespace OsCore.Userprog

open Lib Thread Paging Fs

variable {p : Partition} {L : Layout} {k k' : KernelState p}

/-! ## Files -/

theorem sysClose_flags {f f' : FileSys p} {t : Nat} {fd r : Int} (h : sysClose f t fd = some (r, f'))
    (g : Nat) : (f'.fileTable g).fdFlag = (f.fileTable g).fdFlag := by
  unfold sysClose at h
  split at h
  next =>
    simp only [Option.bind_eq_bind, Option.bind_eq_some_iff, ensure_eq_some, exists_const] at h
    obtain ⟨-, a, -, h⟩ := h
    split at h
    next =>
      simp only [Option.pure_def, Option.some.injEq, Prod.mk.injEq] at h
      obtain ⟨-, rfl⟩ := h
      have hflag := setSlot_flags (f := f) (a := a) (e := { f.fileTable a with
        fdPos := (f.fileTable a).fdPos - 1
        fdInode := if (f.fileTable a).fdPos - 1 = 0 then 0 else (f.fileTable a).fdInode }) rfl g
      exact hflag
    next =>
      simp only [fileClose, Option.bind_eq_bind, Option.bind_eq_some_iff, Option.pure_def,
        Option.some.injEq, Prod.mk.injEq, Prod.exists] at h
      obtain ⟨-, f1, ⟨-, -, f2, hclose, -, rfl⟩, -, rfl⟩ := h
      obtain ⟨-, part, -, rfl⟩ := FileSys.inodeClose_eq hclose
      have hflag := setSlot_flags (f := f) (a := a) (e := { f.fileTable a with fdInode := 0 }) rfl g
      exact hflag
  next =>
    simp only [Option.pure_def, Option.some.injEq, Prod.mk.injEq] at h
    obtain ⟨-, rfl⟩ := h
    rfl

/-- No page goes with the descriptors of task `t`. -/
def NoPages (L : Layout) (f : FileSys p) (t : Nat) : Prop :=
  ∀ s s' f', releaseFds L t 5 3 s f = some (s', f') → s' = s

/-- Without pipes no page goes with the descriptors. -/
theorem releaseFds_noPipes {t : Nat} : ∀ {n i : Nat} {s s' : Mm} {f f' : FileSys p},
    (∀ g, (f.fileTable g).fdFlag ≠ pipeFlag) → releaseFds L t n i s f = some (s', f') →
    s' = s ∧ ∀ g, (f'.fileTable g).fdFlag ≠ pipeFlag := by
  intro n
  induction n with
  | zero =>
    intro i s s' f f' hno h
    simp only [releaseFds, Option.some.injEq, Prod.mk.injEq] at h
    obtain ⟨rfl, rfl⟩ := h
    exact ⟨rfl, hno⟩
  | succ n ih =>
    intro i s s' f f' hno h
    unfold releaseFds at h
    split at h
    next =>
      obtain ⟨g, -, h⟩ := Option.bind_eq_some_iff.mp h
      dsimp only at h
      rw [if_neg (hno g)] at h
      obtain ⟨⟨r, f1⟩, hclose, h⟩ := Option.bind_eq_some_iff.mp h
      exact ih (fun g => by rw [sysClose_flags hclose]; exact hno g) h
    next => exact ih hno h

/-! ## Pipes of a child

A child has its parent's descriptors, and each of them counts as one user more of its
pipe. As long as the pipes count at least one user before, the child's `sys_exit` is
not the last one to let go of any.
-/

/-- How many of the `n` descriptors from `i` on are for entry `g`. -/
def namedBy (fdTable : Nat → Int) (n i g : Nat) : Nat :=
  (List.range' i n).countP fun j => fdTable j == (g : Int)

theorem namedBy_succ (fdTable : Nat → Int) (n i g : Nat) : namedBy fdTable (n + 1) i g =
    namedBy fdTable n (i + 1) g + if fdTable i = (g : Int) then 1 else 0 := by
  rw [namedBy, List.range'_succ, List.countP_cons]
  simp only [beq_iff_eq]
  rfl

theorem namedBy_congr {a b : Nat → Int} {n i g : Nat} (h : ∀ j, i ≤ j → b j = a j) :
    namedBy b n i g = namedBy a n i g := by
  apply List.countP_congr
  intro j hj
  rw [h j (List.mem_range'_1.mp hj).1]

/-- The pipes that `t` has descriptors for count a user, and there is room to count five
more. -/
def PipesHeld (f : FileSys p) (t : Nat) : Prop :=
  ∀ i g : Nat, 3 ≤ i → i < 8 → (f.pcb t).fdTable i = g → (f.fileTable g).fdFlag = pipeFlag →
    0 < (f.fileTable g).fdPos.toNat ∧ (f.fileTable g).fdPos.toNat + 5 < 2 ^ 32

theorem fdLocal2global_eq {fdTable : Nat → Int} {i g : Nat} (h : fdLocal2global fdTable i = some g) :
    fdTable i = g := by
  obtain ⟨_, hr, h⟩ := Option.bind_eq_some_iff.mp h
  have hle := (ensure_eq_some.mp hr).1
  have hg := Option.some.inj h
  omega

/-- The count of a pipe grows with each descriptor of the child. -/
theorem updateInodeOpenCnts_pipes {t c : Nat} : ∀ {n i : Nat} {f f' : FileSys p},
    updateInodeOpenCnts t c n i f = some f' → (f.pcb t).fdTable = (f.pcb c).fdTable →
    f'.pcb = f.pcb ∧ ∀ g : Nat, (f.fileTable g).fdFlag = pipeFlag →
      (f.fileTable g).fdPos.toNat + namedBy (f.pcb c).fdTable n i g < 2 ^ 32 →
      (f'.fileTable g).fdPos.toNat =
        (f.fileTable g).fdPos.toNat + namedBy (f.pcb c).fdTable n i g := by
  intro n
  induction n with
  | zero =>
    intro i f f' h _
    obtain rfl := Option.some.inj h
    exact ⟨rfl, fun g _ _ => rfl⟩
  | succ n ih =>
    intro i f f' h hsame
    simp only [updateInodeOpenCnts, Option.bind_eq_bind, Option.bind_eq_some_iff, ensure_eq_some,
      exists_const] at h
    obtain ⟨-, h⟩ := h
    split at h
    next hfree =>
      obtain ⟨hpcb, hpos⟩ := ih h hsame
      refine ⟨hpcb, fun g hg hlt => ?_⟩
      have hne : ¬(f.pcb c).fdTable i = (g : Int) := by omega
      rw [namedBy_succ, if_neg hne] at hlt ⊢
      exact hpos g hg hlt
    next =>
      obtain ⟨g0, hlocal, h⟩ := Option.bind_eq_some_iff.mp h
      have hfd := fdLocal2global_eq hlocal
      rw [hsame] at hfd
      have hnat : ((f.pcb c).fdTable i).toNat = g0 := by omega
      rw [hnat] at h
      split at h
      next hpipe =>
        obtain ⟨hpcb, hpos⟩ := ih h hsame
        refine ⟨hpcb, fun g hg hlt => ?_⟩
        rw [namedBy_succ] at hlt ⊢
        by_cases hgg : g = g0
        · subst hgg
          rw [if_pos hfd] at hlt ⊢
          have hslot : (f.setSlot g { f.fileTable g with fdPos := (f.fileTable g).fdPos + 1 }).fileTable g =
              { f.fileTable g with fdPos := (f.fileTable g).fdPos + 1 } := Function.update_self ..
          have hone : ((f.fileTable g).fdPos + 1).toNat = (f.fileTable g).fdPos.toNat + 1 := by
            rw [UInt32.toNat_add]
            exact Nat.mod_eq_of_lt (by simp only [UInt32.reduceToNat]; omega)
          have hnext := hpos g (by rw [hslot]; exact hg)
          rw [hslot] at hnext
          have := hnext (show ((f.fileTable g).fdPos + 1).toNat + namedBy (f.pcb c).fdTable n (i + 1) g <
            2 ^ 32 by omega)
          rw [this]
          show ((f.fileTable g).fdPos + 1).toNat + namedBy (f.pcb c).fdTable n (i + 1) g = _
          omega
        · have hne : ¬(f.pcb c).fdTable i = (g : Int) := by omega
          rw [if_neg hne] at hlt ⊢
          have hslot : (f.setSlot g0 { f.fileTable g0 with fdPos := (f.fileTable g0).fdPos + 1 }).fileTable g =
              f.fileTable g := Function.update_of_ne hgg ..
          have hnext := hpos g (by rw [hslot]; exact hg)
          rw [hslot] at hnext
          exact hnext hlt
      next hpipe =>
        obtain ⟨hpcb, hpos⟩ := ih h hsame
        refine ⟨hpcb, fun g hg hlt => ?_⟩
        have hgg : g ≠ g0 := by
          intro heq
          subst heq
          exact hpipe hg
        have hne : ¬(f.pcb c).fdTable i = (g : Int) := by omega
        rw [namedBy_succ, if_neg hne] at hlt ⊢
        exact hpos g hg hlt

/-- `sys_close` of a file changes no count of a pipe and no other descriptor. -/
theorem sysClose_file {f f' : FileSys p} {t i g0 : Nat} {r : Int} (h : sysClose f t i = some (r, f'))
    (hlocal : fdLocal2global (f.pcb t).fdTable i = some g0)
    (hfile : (f.fileTable g0).fdFlag ≠ pipeFlag) :
    (∀ g, (f'.fileTable g).fdPos = (f.fileTable g).fdPos) ∧
      ∀ j, j ≠ i → (f'.pcb t).fdTable j = (f.pcb t).fdTable j := by
  unfold sysClose at h
  split at h
  next =>
    simp only [Int.toNat_natCast, Option.bind_eq_bind, Option.bind_eq_some_iff, ensure_eq_some,
      exists_const, hlocal, Option.some.injEq, exists_eq_left', if_neg hfile, Option.pure_def,
      Prod.mk.injEq, Prod.exists] at h
    obtain ⟨-, _, f1, hclose, -, rfl⟩ := h
    simp only [fileClose, Option.bind_eq_bind, Option.bind_eq_some_iff, Option.pure_def,
      Option.some.injEq, Prod.mk.injEq] at hclose
    obtain ⟨-, -, f2, hclose, -, rfl⟩ := hclose
    obtain ⟨-, part, -, rfl⟩ := FileSys.inodeClose_eq hclose
    refine ⟨fun g => ?_, fun j hj => ?_⟩
    · show (Function.update f.fileTable g0 { f.fileTable g0 with fdInode := 0 } g).fdPos = _
      by_cases hg : g = g0
      · rw [hg, Function.update_self]
      · rw [Function.update_of_ne hg]
    · show (Function.update f.pcb t { f.pcb t with
        fdTable := Function.update (f.pcb t).fdTable i (-1) } t).fdTable j = _
      rw [Function.update_self]
      exact Function.update_of_ne hj ..
  next =>
    simp only [Option.pure_def, Option.some.injEq, Prod.mk.injEq] at h
    obtain ⟨-, rfl⟩ := h
    exact ⟨fun _ => rfl, fun _ _ => rfl⟩

/-- When every pipe counts more users than there are descriptors left, no page goes. -/
theorem releaseFds_held {t : Nat} : ∀ {n i : Nat} {s s' : Mm} {f f' : FileSys p},
    (∀ g, (f.fileTable g).fdFlag = pipeFlag → 0 < namedBy (f.pcb t).fdTable n i g →
      namedBy (f.pcb t).fdTable n i g < (f.fileTable g).fdPos.toNat) →
    releaseFds L t n i s f = some (s', f') → s' = s := by
  intro n
  induction n with
  | zero =>
    intro i s s' f f' _ h
    simp only [releaseFds, Option.some.injEq, Prod.mk.injEq] at h
    exact h.1.symm
  | succ n ih =>
    intro i s s' f f' hheld h
    unfold releaseFds at h
    split at h
    next =>
      obtain ⟨g0, hlocal, h⟩ := Option.bind_eq_some_iff.mp h
      have hfd := fdLocal2global_eq hlocal
      dsimp only at h
      split at h
      next hpipe =>
        have hmany := hheld g0 hpipe
        rw [namedBy_succ, if_pos hfd] at hmany
        have hmore := hmany (Nat.succ_pos _)
        have hone : (1 : UInt32) ≤ (f.fileTable g0).fdPos := by
          rw [UInt32.le_iff_toNat_le]
          simp only [UInt32.reduceToNat]
          omega
        have hsub : ((f.fileTable g0).fdPos - 1).toNat = (f.fileTable g0).fdPos.toNat - 1 :=
          UInt32.toNat_sub_of_le _ _ hone
        have hnot : ¬(f.fileTable g0).fdPos - 1 = 0 := by
          intro hz
          rw [hz] at hsub
          simp only [UInt32.toNat_zero] at hsub
          omega
        rw [if_neg hnot] at h
        refine ih (fun g hg hpos => ?_) h
        by_cases hgg : g = g0
        · subst hgg
          have hslot : (f.setSlot g { f.fileTable g with fdPos := (f.fileTable g).fdPos - 1 }).fileTable g =
              { f.fileTable g with fdPos := (f.fileTable g).fdPos - 1 } := Function.update_self ..
          rw [hslot]
          show namedBy (f.pcb t).fdTable n (i + 1) g < ((f.fileTable g).fdPos - 1).toNat
          omega
        · have hslot : (f.setSlot g0 { f.fileTable g0 with fdPos := (f.fileTable g0).fdPos - 1 }).fileTable g =
              f.fileTable g := Function.update_of_ne hgg ..
          rw [hslot] at hg ⊢
          have hne : ¬(f.pcb t).fdTable i = (g : Int) := by omega
          have hold := hheld g hg
          rw [namedBy_succ, if_neg hne] at hold
          exact hold hpos
      next hfile =>
        obtain ⟨⟨r, f1⟩, hclose, h⟩ := Option.bind_eq_some_iff.mp h
        obtain ⟨hpos, hfds⟩ := sysClose_file hclose hlocal hfile
        refine ih (fun g hg hnamed => ?_) h
        have hcount : namedBy (f1.pcb t).fdTable n (i + 1) g = namedBy (f.pcb t).fdTable n (i + 1) g :=
          namedBy_congr fun j hj => hfds j (by omega)
        rw [sysClose_flags hclose] at hg
        rw [hcount] at hnamed ⊢
        rw [hpos]
        have hold := hheld g hg
        rw [namedBy_succ] at hold
        exact lt_of_le_of_lt (Nat.le_add_right ..) (hold (Nat.lt_of_lt_of_le hnamed (Nat.le_add_right ..)))
    next hfree =>
      refine ih (fun g hg hnamed => ?_) h
      have hold := hheld g hg
      rw [namedBy_succ] at hold
      exact lt_of_le_of_lt (Nat.le_add_right ..) (hold (Nat.lt_of_lt_of_le hnamed (Nat.le_add_right ..)))

/-- **A child gives back no page of a pipe**, whatever descriptors its parent has. -/
theorem forked_noPages {t c : Nat} {f f' : FileSys p} (htc : t ≠ c) (hheld : PipesHeld f t)
    (hf : FilesForked t c f f') : NoPages L f' c := by
  obtain ⟨g', hrun, htable, hpcb⟩ := hf
  have hsame : (Function.update f.pcb c (f.pcb t) t).fdTable =
      (Function.update f.pcb c (f.pcb t) c).fdTable := by
    rw [Function.update_of_ne htc, Function.update_self]
  obtain ⟨hpcbs, hpos⟩ := updateInodeOpenCnts_pipes hrun hsame
  have hfds : (f'.pcb c).fdTable = (f.pcb t).fdTable := by
    rw [hpcb, hpcbs]
    exact congrArg Pcb.fdTable (Function.update_self ..)
  intro s s' f1 hrel
  refine releaseFds_held (fun g hg hnamed => ?_) hrel
  rw [hfds] at hnamed ⊢
  have hflag : (f.fileTable g).fdFlag = pipeFlag := by
    rw [← hg, htable, updateInodeOpenCnts_flags hrun]
  obtain ⟨i, hi, hfd⟩ := List.countP_pos_iff.mp hnamed
  obtain ⟨h3, h8⟩ := List.mem_range'_1.mp hi
  obtain ⟨hpos0, hroom⟩ := hheld i g h3 h8 (by simpa using hfd) hflag
  have hle : namedBy (f.pcb t).fdTable 5 3 g ≤ 5 := List.countP_le_length
  have hnow := hpos g hflag
  dsimp only at hnow
  rw [Function.update_self] at hnow
  rw [htable, hnow (by omega)]
  omega

/-! ## The family -/

/-- The adoption changes no status. -/
theorem exitAdopt_status {s s' : Family} {t : Nat} {code : Int} (h : s.exitAdopt t code = some s') :
    s'.allList = s.allList ∧ s'.main = s.main ∧ ∀ a, (s'.task a).status = (s.task a).status := by
  obtain ⟨_, hminus, h⟩ := Option.bind_eq_some_iff.mp h
  obtain rfl := Option.some.inj h
  have hstatus : ∀ a, ((s.modify t fun k => { k with exitStatus := toI8 code }).task a).status =
      (s.task a).status := by
    intro a
    by_cases ha : a = t
    · rw [ha]
      simp [Family.modify]
    · simp [Family.modify, Function.update_of_ne ha]
  refine ⟨rfl, rfl, fun a => ?_⟩
  rw [← hstatus a, Family.initAdopt]
  dsimp only
  split <;> rfl

/-- After `sys_exit` the task hangs, and of the others those that hung before. -/
theorem hang_status (s : Family) (t parent : Nat) (code : Int) (a : Nat) :
    ((((s.wakeParent parent).hang t code).task a).status = .hanging ↔
      a = t ∨ (s.task a).status = .hanging) := by
  have hwake : ((s.wakeParent parent).task a).status = .hanging ↔ (s.task a).status = .hanging := by
    unfold Family.wakeParent
    split
    next hw =>
      by_cases ha : a = parent
      · subst ha
        simp [Family.modify, hw]
      · simp [Family.modify, Function.update_of_ne ha]
    next => rfl
  by_cases ha : a = t
  · subst ha
    simp [Family.hang, Family.modify]
  · simp [Family.hang, Family.modify, hwake, ha]

theorem hang_allList (s : Family) (t parent : Nat) (code : Int) :
    ((s.wakeParent parent).hang t code).allList = s.allList ∧
      ((s.wakeParent parent).hang t code).main = s.main := by
  unfold Family.wakeParent
  split
  next => exact ⟨rfl, rfl⟩
  next => exact ⟨rfl, rfl⟩

/-! ## The calls -/

/-- What `sys_exit` does to the records of tasks. -/
structure Hung (k k' : KernelState p) : Prop where
  cur : k'.cur = k.cur
  allList : k'.family.allList = k.family.allList
  main : k'.family.main = k.family.main
  vm : k'.vm = k.vm
  status : ∀ t, (k'.family.task t).status = .hanging ↔
    t = k.cur ∨ (k.family.task t).status = .hanging

/-- `sys_exit`: the walk, the bitmap and the descriptors, and the task hangs. -/
theorem sysExit_run {status : Int} (h : sysExit L k status = some k') :
    ∃ s1 s2 fs, releasePdes L (k.vm k.cur).pgdir 768 0 k.mm = some s1 ∧
      mfreePage L .kernel s1 (k.vm k.cur).bits (s1.userVaddr.bytesLen / 4096) = some s2 ∧
      releaseFds L k.cur 5 3 s2 k.fs = some (k'.mm, fs) ∧ k'.fs.fileTable = fs.fileTable ∧
      Hung k k' := by
  simp only [sysExit, releaseProgResource, Option.bind_eq_bind, Option.bind_eq_some_iff, ensure_eq_some,
    exists_const, Option.pure_def, Option.some.injEq, Prod.exists] at h
  obtain ⟨family, hadopt, k1, ⟨s1, hwalk, s2, hfree, s3, fs, hfds, rfl⟩, parent, -, -, rfl⟩ := h
  obtain ⟨hlist, hmain, hst⟩ := exitAdopt_status hadopt
  obtain ⟨hlist2, hmain2⟩ := hang_allList family k.cur parent status
  refine ⟨s1, s2, fs, hwalk, hfree, hfds, rfl, rfl, hlist2.trans hlist, hmain2.trans hmain, rfl,
    fun t => ?_⟩
  rw [← hst t]
  exact hang_status family k.cur parent status t

/-- `thread_exit`: first the directory, then the page of the PCB. -/
theorem threadExit_eq (k : KernelState p) (c : Nat) : threadExit L k c =
    (if (k.vm c).pgdir ≠ 0 then mfreePage L .kernel k.mm (k.vm c).pgdir 1 else some k.mm).bind fun s =>
      (if c ≠ k.family.main then mfreePage L .kernel s (c * 4096) 1 else some s).bind fun mm =>
        some { k with
          mm
          readyList := k.readyList.erase c
          family := k.family.threadExit c } := by
  by_cases hdir : (k.vm c).pgdir ≠ 0
  · by_cases hmain : c ≠ k.family.main
    · simp only [threadExit, if_pos hdir, if_pos hmain]
      rfl
    · simp only [threadExit, if_pos hdir, if_neg hmain]
      rfl
  · by_cases hmain : c ≠ k.family.main
    · simp only [threadExit, if_neg hdir, if_pos hmain]
      rfl
    · simp only [threadExit, if_neg hdir, if_neg hmain]
      rfl

/-- `sys_wait`: there is no child to take off the list, or one that hangs, and its
directory and its PCB are given back. -/
theorem sysWait_run (h : sysWait L k = some k') (hready : (k.family.task k.cur).status ≠ .hanging) :
    k'.cur = k.cur ∧ k'.vm = k.vm ∧ k'.fs = k.fs ∧ k'.family.main = k.family.main ∧
      (k.family.findHangingChild (k.family.task k.cur).pid = none ∧ k'.mm = k.mm ∧
          k'.family.allList = k.family.allList ∧ (∀ t, (k'.family.task t).status = .hanging ↔ (k.family.task t).status = .hanging) ∨
        ∃ c, k.family.findHangingChild (k.family.task k.cur).pid = some c ∧
          k'.family.allList = k.family.allList.erase c ∧
          (∀ t, t ≠ c → ((k'.family.task t).status = .hanging ↔
            (k.family.task t).status = .hanging)) ∧
          ∃ s1, (if (k.vm c).pgdir ≠ 0 then mfreePage L .kernel k.mm (k.vm c).pgdir 1 else some k.mm) =
              some s1 ∧
            (if c ≠ k.family.main then mfreePage L .kernel s1 (c * 4096) 1 else some s1) = some k'.mm) := by
  rcases sysWait_cases k.family k.cur with ⟨c, hc, hw⟩ | ⟨hc, hw⟩ | ⟨hc, hw⟩
  · rw [sysWait, hc] at h
    obtain ⟨k1, hexit, h⟩ := Option.bind_eq_some_iff.mp h
    obtain rfl := Option.some.inj h
    rw [threadExit_eq] at hexit
    obtain ⟨s1, h1, hexit⟩ := Option.bind_eq_some_iff.mp hexit
    obtain ⟨s2, h2, hexit⟩ := Option.bind_eq_some_iff.mp hexit
    obtain rfl := Option.some.inj hexit
    refine ⟨rfl, rfl, rfl, by rw [hw]; rfl, Or.inr ⟨c, hc, by rw [hw]; rfl, fun t ht => ?_, s1, h1,
      h2⟩⟩
    rw [hw]
    by_cases htc : t = k.cur
    · subst htc
      simp [Family.threadExit, Family.modify, Function.update_of_ne ht]
    · simp [Family.threadExit, Family.modify, Function.update_of_ne ht, Function.update_of_ne htc]
  · rw [sysWait, hc] at h
    obtain rfl := Option.some.inj h
    refine ⟨rfl, rfl, rfl, by rw [hw]; rfl, Or.inl ⟨hc, rfl, by rw [hw]; rfl, fun t => ?_⟩⟩
    rw [hw]
    by_cases htc : t = k.cur
    · subst htc
      simp [Family.modify]
    · simp [Family.modify, Function.update_of_ne htc]
  · rw [sysWait, hc] at h
    obtain rfl := Option.some.inj h
    refine ⟨rfl, rfl, rfl, by rw [hw]; rfl, Or.inl ⟨hc, rfl, by rw [hw]; rfl, fun t => ?_⟩⟩
    rw [hw]
    by_cases htc : t = k.cur
    · subst htc
      simp [Family.modify, hready]
    · simp [Family.modify, Function.update_of_ne htc]

end OsCore.Userprog
