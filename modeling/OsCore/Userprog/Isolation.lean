import OsCore.Userprog.ProcessCalls

/-!
# Memory isolation between processes

Any number of processes, in any order of calls. `processMachine` starts with no process
at all, and `Kept` holds in every state of every run. So no frame is ever mapped twice,
and the walk at exit finds the frames of the process and no others
(`memory_isolation`).
-/

namespace OsCore.Userprog

open Lib Thread Paging Fs

variable {p : Partition} {L : Layout} {k : KernelState p} {S : Spaces} {R : List (Nat × Nat)}
  {use : Nat × Nat → Use}

/-! ## The machine -/

/-- No entry of `file_table` is for a pipe. -/
def NoPipes (f : FileSys p) : Prop := ∀ g, (f.fileTable g).fdFlag ≠ pipeFlag

/-- Some pages of the heap may be in use, but there is no process yet, and no pipe. The
PCBs that are there are on pages in use; that of `main` is below the heap. -/
structure NoProcess (L : Layout) (k : KernelState p) : Prop where
  regions : ∃ R, Regions L k.mm noSpaces noFrame R ∧
    ∀ t ∈ k.family.allList, heapPage ≤ t → ∃ j, t = heapPage + j ∧ (j, 1) ∈ R
  nodup : k.family.allList.Nodup
  cur : k.cur ∈ k.family.allList
  main : k.family.main < heapPage
  kernel : ∀ t ∈ k.family.allList, (k.vm t).pgdir = 0 ∧ (k.family.task t).status ≠ .hanging
  noPipes : NoPipes k.fs

def processMachine (p : Partition) (L : Layout) : Machine (KernelState p) ProcessOp where
  start := NoProcess L
  may := KernelState.May
  step := KernelState.step L

/-! ## Every run -/

/-- No process has an address space yet. -/
theorem NoProcess.kept (h : NoProcess L k) : ∃ R use, Kept L noSpaces R use k := by
  obtain ⟨⟨R, hregions, hpcb⟩, hnodup, hcur, hmain, hkernel, -⟩ := h
  have hnone : ∀ {P : Prop} {t : Nat} {sp : Space}, noSpaces t = some sp → P := fun he =>
    absurd he (Option.some_ne_none _).symm
  refine ⟨R, fun r => .pcb (heapPage + r.1), ⟨hregions, fun t ht hge => ?_, fun _ _ => hnone,
    fun _ _ => hnone, fun _ _ => hnone⟩, hnodup, hcur, hmain, fun t ht hp => ?_, fun _ _ => hnone,
    fun t ht hs => ?_, fun _ _ => hnone, fun _ => hnone, fun _ => hnone⟩
  · obtain ⟨j, hj, hR⟩ := hpcb t ht hge
    exact ⟨j, hj, hR, by rw [hj]⟩
  · exact absurd (hkernel t ht).1 hp
  · exact absurd hs (hkernel t ht).2

/-- The book-keeping of pages is right. -/
def PagesRight (L : Layout) (k : KernelState p) : Prop := ∃ S R use, Kept L S R use k

/-- Every call keeps it, when there are no pipes. -/
theorem step_kept {op : ProcessOp} {k' : KernelState p} (h : PagesRight L k ∧ NoPipes k.fs)
    (hmay : k.May op) (hstep : k.step L op = some k') : PagesRight L k' ∧ NoPipes k'.fs := by
  obtain ⟨⟨S, R, use, hkept⟩, hno⟩ := h
  by_cases hop : op.aboutPages = true
  · obtain ⟨mm, rfl, -, hkept'⟩ := hkept.pages hop hmay hstep
    exact ⟨⟨S, R, use, hkept'⟩, hno⟩
  cases op with
  | malloc => exact absurd rfl hop
  | getPage => exact absurd rfl hop
  | mfree => exact absurd rfl hop
  | fork =>
    obtain ⟨⟨r, k1⟩, hrun, hstep⟩ := Option.bind_eq_some_iff.mp hstep
    obtain rfl := Option.some.inj hstep
    obtain ⟨hflags, hcases⟩ := hkept.fork hmay hrun
    refine ⟨?_, fun g => by rw [hflags]; exact hno g⟩
    rcases hcases with ⟨-, R', use', hkept'⟩ | ⟨_, _, _, _, _, use', hkept', -⟩
    · exact ⟨S, R', use', hkept'⟩
    · exact ⟨_, _, use', hkept'⟩
  | exit status =>
    obtain ⟨b, d, use', -, -, hkept', -⟩ :=
      hkept.exit hmay hstep fun s s' f' hfds => (releaseFds_noPipes hno hfds).1
    obtain ⟨s1, s2, fs, -, -, hfds, htable, -⟩ := sysExit_run hstep
    refine ⟨⟨_, _, use', hkept'⟩, fun g => ?_⟩
    rw [htable]
    exact (releaseFds_noPipes hno hfds).2 g
  | wait =>
    obtain ⟨hfs, -, hcases⟩ := hkept.wait hmay hstep
    refine ⟨?_, by rw [hfs]; exact hno⟩
    rcases hcases with ⟨-, -, hkept'⟩ | ⟨_, _, _, -, -, -, hkept', -⟩
    · exact ⟨S, R, use, hkept'⟩
    · exact ⟨_, _, use, hkept'⟩
  | execute name =>
    obtain ⟨hflags, S', R', use', hkept'⟩ := hkept.execute hstep
    exact ⟨⟨S', R', use', hkept'⟩, fun g => by rw [hflags]; exact hno g⟩
  | switchTo next =>
    obtain ⟨hkept', -, -, -, -, -, hfs, -⟩ := hkept.switch hmay.1 hstep
    exact ⟨⟨S, R, use, hkept'⟩, by rw [hfs]; exact hno⟩

theorem processMachine_kept (h : (processMachine p L).Reachable k) :
    PagesRight L k ∧ NoPipes k.fs := by
  refine Machine.Reach.invariant (I := fun k => PagesRight L k ∧ NoPipes k.fs) ?_ ?_ h
  · intro k hk
    exact ⟨⟨noSpaces, hk.kept⟩, hk.noPipes⟩
  · intro k op k' hk hmay _ hstep
    exact step_kept hk hmay hstep

/-! ## Isolation -/

/-- Task `t` is a process, with its directory on frame `d`. -/
structure HasDir (k : KernelState p) (t d : Nat) : Prop where
  listed : t ∈ k.family.allList
  process : (k.vm t).pgdir ≠ 0
  dir : addrV2p k.mm (k.vm t).pgdir = some (d * 4096)

/-- Process `t` has directory `d` and has not exited. -/
structure Lives (k : KernelState p) (t d : Nat) : Prop extends HasDir k t d where
  status : (k.family.task t).status ≠ .hanging

/-- Frame `f` is that of a page below `0xc0000000` in directory `d`, or of a table. -/
def MapsBelow (m : Phys) (d f : Nat) : Prop :=
  (∃ v, v < 768 * 1024 ∧ walk m d v = some f) ∨ ∃ i, i < 768 ∧ entryFrame (m d i) = some f

/-- No frame is mapped twice below `0xc0000000`, in one process or in two, and frames
that are mapped are taken; above, all directories agree; and the walk at exit clears the
bits of the frames of the process that runs, and no others. -/
structure Isolated (L : Layout) (k : KernelState p) : Prop where
  dirs : ∀ t ∈ k.family.allList, (k.vm t).pgdir ≠ 0 → ∃ d, HasDir k t d
  once : ∀ t u d e v w f, Lives k t d → Lives k u e → v < 768 * 1024 → w < 768 * 1024 →
    walk k.mm.mem d v = some f → walk k.mm.mem e w = some f → t = u ∧ v = w
  taken : ∀ t d v f, Lives k t d → v < 768 * 1024 → walk k.mm.mem d v = some f →
    L.IsUser f ∧ frameBit L k.mm f = true
  upper : ∀ t d i, HasDir k t d → 768 ≤ i → i < 1023 → k.mm.mem d i = k.mm.mem kernelDir i
  exit : ∀ d, Lives k k.cur d → ∃ mm, releasePdes L (k.vm k.cur).pgdir 768 0 k.mm = some mm ∧
    mm.mem = k.mm.mem ∧ ∀ f, L.IsFrame f → (frameBit L mm f = true ↔
      frameBit L k.mm f = true ∧ ¬MapsBelow k.mm.mem d f)

/-- The places of a process below `0xc0000000`. -/
theorem mapsBelow_iff {m : Phys} {t d f : Nat} (hsp : S t = some ⟨d, true⟩) :
    MapsBelow m d f ↔ ∃ x, x.of t = true ∧ slotFrame m S x = some f := by
  constructor
  · intro hor
    rcases hor with ⟨v, hv, hw⟩ | ⟨i, hi, he⟩
    · rw [walk_page hsp rfl hv] at hw
      exact ⟨.page t v, by simp [Slot.of], hw⟩
    · rw [← tableFrame_eq hsp rfl hi] at he
      exact ⟨.table t i, by simp [Slot.of], he⟩
  · intro hin
    obtain ⟨x, hx, hf⟩ := hin
    cases x with
    | heap j => simp [Slot.of] at hx
    | table q i =>
      obtain rfl : q = t := by simpa [Slot.of] using hx
      obtain ⟨sp, hs, -, hi, he⟩ := tableFrame_some.mp hf
      rw [hsp] at hs
      obtain rfl := Option.some.inj hs
      exact Or.inr ⟨i, hi, he⟩
    | page q v =>
      obtain rfl : q = t := by simpa [Slot.of] using hx
      obtain ⟨-, -, -, hv⟩ := page_mapped hf
      rw [← walk_page hsp rfl hv] at hf
      exact Or.inl ⟨v, hv, hf⟩

namespace Kept

theorem space_of_dir (h : Kept L S R use k) {t d : Nat} (hd : HasDir k t d) :
    ∃ a, S t = some ⟨d, a⟩ := by
  obtain ⟨⟨dir, a⟩, hsp⟩ := h.space t hd.listed hd.process
  obtain ⟨i, hi, hslot, -⟩ := h.owners.dir t _ hsp
  have haddr := hd.dir
  rw [hi, h.owners.regions.good.addrV2p_heap (heap_mapped hslot) hslot] at haddr
  have : dir = d := by
    have := Option.some.inj haddr
    dsimp only at this
    omega
  subst this
  exact ⟨a, hsp⟩

theorem space_of_lives (h : Kept L S R use k) {t d : Nat} (hl : Lives k t d) :
    S t = some ⟨d, true⟩ := by
  obtain ⟨a, hsp⟩ := h.space_of_dir hl.toHasDir
  have ha := (h.alive t _ hsp).mpr hl.status
  dsimp only at ha
  rw [hsp, ha]

theorem isolated (h : Kept L S R use k) : Isolated L k := by
  have hg := h.owners.regions.good
  constructor
  case dirs =>
    intro t ht hp
    obtain ⟨sp, hsp⟩ := h.space t ht hp
    obtain ⟨i, hi, hslot, -⟩ := h.owners.dir t sp hsp
    exact ⟨sp.dir, ht, hp, by rw [hi, hg.addrV2p_heap (heap_mapped hslot) hslot]⟩
  case once =>
    intro t u d e v w f ht hu hv hw hf1 hf2
    rw [walk_page (h.space_of_lives ht) rfl hv] at hf1
    rw [walk_page (h.space_of_lives hu) rfl hw] at hf2
    exact Slot.page.inj (hg.inj _ _ f hf1 hf2)
  case taken =>
    intro t d v f ht hv hf
    rw [walk_page (h.space_of_lives ht) rfl hv] at hf
    have huser : L.IsUser f := hg.inPool _ f hf
    exact ⟨huser, (hg.bit f (Or.inr huser)).mpr (Or.inl ⟨_, hf⟩)⟩
  case upper =>
    intro t d i ht h1 h2
    obtain ⟨a, hsp⟩ := h.space_of_dir ht
    rw [(hg.dir t _ hsp).1.tables i h1 h2, hg.kernelDir.tables i h1 h2]
  case exit =>
    intro d hl
    have hsp := h.space_of_lives hl
    obtain ⟨i, hi, hslot, -⟩ := h.owners.dir _ _ hsp
    obtain ⟨mm, hwalk, honly, hgood⟩ := hg.release hsp (h.runs _ hsp) hslot
    refine ⟨mm, by rw [hi]; exact hwalk, honly.mem, fun f hf => ?_⟩
    rw [hg.release_bits hgood honly.mem hf, mapsBelow_iff hsp]

end Kept

/-- **Memory isolation between processes**, in every state of every run. -/
theorem memory_isolation (L : Layout) {k : KernelState p} (h : (processMachine p L).Reachable k) :
    Isolated L k := by
  obtain ⟨⟨S, R, use, hkept⟩, -⟩ := processMachine_kept h
  exact hkept.isolated

/-! ## From the start -/

/-- After `mem_init`, with `main` as the only task. -/
def mainRuns : KernelState blankPartition where
  cur := mainPcb
  mm := bootMm
  vm _ := ⟨0, 0, ⟨0, Mem.zero⟩⟩
  family := {
    allList := [mainPcb]
    task := fun _ => initThread 2 "main".toList false 0
    pidBitmap := ⟨128, Mem.zero⟩
    init := initPcb
    main := mainPcb
    nextUid := 1
    exits := []
    collected := [] }
  readyList := []
  fs := { smallSys with live := {mainPcb} }

theorem mainRuns_start : NoProcess smallLayout mainRuns where
  regions := by
    refine ⟨[], bootMm_booted.regions, fun t ht hge => ?_⟩
    obtain rfl := List.mem_singleton.mp ht
    exact absurd hge (by decide)
  nodup := List.nodup_singleton _
  cur := List.mem_singleton_self _
  main := by decide
  kernel t _ := ⟨rfl, by simp [mainRuns, initThread]⟩
  noPipes g := by
    show (0 : UInt32) ≠ pipeFlag
    decide

instance (k : KernelState p) : Decidable k.Calls := inferInstanceAs (Decidable (_ ∧ _))

instance (L : Layout) (k : KernelState p) (op : ProcessOp) : Decidable ((processMachine p L).may k op) :=
  match op with
  | .malloc _ => inferInstanceAs (Decidable k.Calls)
  | .getPage v =>
    inferInstanceAs (Decidable (k.Calls ∧ userVaddrStart ≤ v * 4096 ∧ v < 768 * 1024))
  | .mfree v pgCnt => inferInstanceAs (Decidable (k.Calls ∧ 0 < pgCnt ∧ v + pgCnt ≤ 768 * 1024 ∧
      ∀ i, i < pgCnt → (walk k.mm.mem k.mm.cr3 (v + i)).isSome = true))
  | .fork => inferInstanceAs (Decidable k.Calls)
  | .exit _ => inferInstanceAs (Decidable k.Calls)
  | .wait => inferInstanceAs (Decidable k.Calls)
  | .execute _ => inferInstanceAs (Decidable ((k.family.task k.cur).status = .ready))
  | .switchTo next =>
    inferInstanceAs (Decidable (next ∈ k.family.allList ∧ (k.family.task next).status = .ready))

/-- `init` is started, runs and gets the page of its stack. -/
theorem memory_isolation_init : ∃ k : KernelState blankPartition,
    (processMachine blankPartition smallLayout).Reachable k ∧ Lives k initPcb 0x218 ∧
      walk k.mm.mem 0x218 0xbffff = some 0x1100 ∧ Isolated smallLayout k := by
  have hrun : ((processMachine blankPartition smallLayout).follow (fun _ _ => True) mainRuns
      [.execute "init".toList, .switchTo initPcb, .getPage 0xbffff]).map (fun k =>
        (k.family.allList, (k.vm initPcb).pgdir, addrV2p k.mm (k.vm initPcb).pgdir,
          (k.family.task initPcb).status, walk k.mm.mem 0x218 0xbffff)) =
      some ([mainPcb, initPcb], 0xc0118000, some (0x218 * 4096), .ready, some 0x1100) := by
    decide +kernel
  obtain ⟨k, hk, he⟩ := Option.map_eq_some_iff.mp hrun
  simp only [Prod.mk.injEq] at he
  obtain ⟨hlist, hpgdir, hdir, hstatus, hwalk⟩ := he
  have hreach : (processMachine blankPartition smallLayout).Reachable k :=
    Machine.reach_of_follow (Machine.Reach.start mainRuns_start) hk
  refine ⟨k, hreach, ⟨⟨?_, ?_, hdir⟩, ?_⟩, hwalk, memory_isolation smallLayout hreach⟩
  · rw [hlist]
    decide
  · rw [hpgdir]
    decide
  · rw [hstatus]
    decide

end OsCore.Userprog
