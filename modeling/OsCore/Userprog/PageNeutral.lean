import OsCore.Userprog.Isolation

/-!
# The pages of a process, from `sys_fork` to `sys_wait`

A process is made by `sys_fork`, maps and unmaps pages of its own, exits and is reaped
by a `sys_wait`. Whatever it has asked for should be back in the pools then. It is not:
`sys_fork` rounds the size of the bitmap up to pages, and `release_prog_resource`
divides the same length without rounding up. So one page is left.

The argument is about places for frames. At each step all places but those of the
process are what they were (`Steady` between birth and exit, `Kept.fork`, `Kept.exit`
and `Kept.wait` for the rest), and in the end there is just one place more that is
occupied, the last page of the bitmap (`Life.places`). Since bits are set for the frames
in places, and for no others, the kernel's pool has one bit more (`Life.leaks`).

That there are such lives at all is shown for `init` and a child that exits at once
(`init_child_life`): the requests of the fork are met, the copy comes back, and so do the
switches, the exit and the wait, each by its `…_returns`.
-/

namespace OsCore.Userprog

open Lib Thread Paging Fs

variable {p : Partition} {L : Layout} {k k' : KernelState p} {S : Spaces} {R : List (Nat × Nat)}
  {use : Nat × Nat → Use} {c : Nat}

/-! ## A whole life -/

/-- What may happen while process `c` is there: it asks for pages and gives them back,
tasks take turns, and calls of `sys_wait` find nobody to reap. -/
inductive LifeStep (L : Layout) (c : Nat) (k k' : KernelState p) : Prop
  | pages {op : ProcessOp} : op.aboutPages = true → k.cur = c → k.May op →
      k.step L op = some k' → LifeStep L c k k'
  | switch {next : Nat} : k.May (.switchTo next) → switchTo k next = some k' → LifeStep L c k k'
  | wait : k.Calls → k.family.findHangingChild (k.family.task k.cur).pid = none →
      sysWait L k = some k' → LifeStep L c k k'

/-- Process `c` is made by a `sys_fork` that succeeds, exits, and is reaped. -/
inductive Life (L : Layout) (c : Nat) (k k' : KernelState p) : Prop
  | mk {pid status : Int} {k1 k2 k3 k4 : KernelState p} : k.Calls →
      sysFork (pallocFrom L) L k = some (pid, k1) → pid ≠ -1 →
      k1.family.allList = k.family.allList ++ [c] →
      Relation.ReflTransGen (LifeStep L c) k1 k2 →
      k2.cur = c → k2.Calls → sysExit L k2 status = some k3 →
      Relation.ReflTransGen (LifeStep L c) k3 k4 →
      k4.Calls → k4.family.findHangingChild (k4.family.task k4.cur).pid = some c →
      sysWait L k4 = some k' → Life L c k k'

/-! ## What stays where it was -/

/-- Only places of `c` have changed, and of the PCBs nothing that says where pages are. -/
structure Steady (S : Spaces) (c : Nat) (k k' : KernelState p) : Prop where
  other : ∀ x, x.of c = false → slotFrame k'.mm.mem S x = slotFrame k.mm.mem S x
  pgdir : ∀ t, (k'.vm t).pgdir = (k.vm t).pgdir
  bits : ∀ t, (k'.vm t).bits = (k.vm t).bits
  fs : k'.fs = k.fs

theorem Steady.refl (S : Spaces) (c : Nat) (k : KernelState p) : Steady S c k k :=
  ⟨fun _ _ => rfl, fun _ => rfl, fun _ => rfl, rfl⟩

theorem Steady.trans {k1 k2 k3 : KernelState p} (h1 : Steady S c k1 k2) (h2 : Steady S c k2 k3) :
    Steady S c k1 k3 :=
  ⟨fun x hx => (h2.other x hx).trans (h1.other x hx), fun t => (h2.pgdir t).trans (h1.pgdir t),
    fun t => (h2.bits t).trans (h1.bits t), h2.fs.trans h1.fs⟩

theorem LifeStep.steady (h : LifeStep L c k k') (hkept : Kept L S R use k) :
    Kept L S R use k' ∧ Steady S c k k' := by
  cases h with
  | pages hop hc hmay hstep =>
    obtain ⟨mm, rfl, hl, hkept'⟩ := hkept.pages hop hmay hstep
    rw [hc] at hl
    exact ⟨hkept', hl.other, fun _ => rfl, fun _ => rfl, rfl⟩
  | switch hmay hstep =>
    obtain ⟨hkept', hmem, -, -, -, -, hfs, hfields⟩ := hkept.switch hmay.1 hstep
    exact ⟨hkept', fun x _ => by rw [hmem], fun t => (hfields t).1, fun t => (hfields t).2, hfs⟩
  | wait hc hnone hstep =>
    obtain ⟨hfs, hvm, hcases⟩ := hkept.wait hc hstep
    rcases hcases with ⟨-, hmm, hkept'⟩ | ⟨c', _, _, hsome, -⟩
    · exact ⟨hkept', fun x _ => by rw [hmm], fun t => by rw [hvm], fun t => by rw [hvm], hfs⟩
    · rw [hnone] at hsome
      cases hsome

theorem steady_run {k1 k2 : KernelState p} (h : Relation.ReflTransGen (LifeStep L c) k1 k2)
    (hkept : Kept L S R use k1) : Kept L S R use k2 ∧ Steady S c k1 k2 := by
  induction h with
  | refl => exact ⟨hkept, .refl S c k1⟩
  | tail _ hstep ih =>
    obtain ⟨hkept', hsteady⟩ := hstep.steady ih.1
    exact ⟨hkept', ih.2.trans hsteady⟩

/-! ## From birth to end -/

/-- A page in none of the regions in use is not mapped. -/
theorem unmapped_of_apart {s : Mm} (h : Regions L s S noFrame R) {r : Nat × Nat} {n : Nat}
    (hap : ∀ r' ∈ R, Paging.Apart r r') (hn : InRegion n r) : slotFrame s.mem S (.heap n) = none := by
  cases hold : slotFrame s.mem S (.heap n) with
  | none => rfl
  | some f =>
    obtain ⟨r', hr', hin⟩ := (h.mapped n).mp ⟨f, hold⟩
    have := hap r' hr'
    unfold Paging.Apart at this
    unfold InRegion at hn hin
    omega

/-- **One place more** is occupied at the end of a life. -/
theorem Life.places (h : Life L c k k') (hkept : Kept L S R use k) (hpipes : PipesHeld k.fs k.cur) :
    ∃ R' use' l g, Kept L S R' use' k' ∧ slotFrame k.mm.mem S (.heap l) = none ∧
      slotFrame k'.mm.mem S (.heap l) = some g ∧
      ∀ x, x ≠ .heap l → slotFrame k'.mm.mem S x = slotFrame k.mm.mem S x := by
  obtain ⟨hcalls, hfork, hpid, hlist, hrun1, hcur, hcalls2, hexit, hrun2, hcalls4, hfind, hwait⟩ := h
  rename_i pid status k1 k2 k3 k4
  obtain ⟨-, hcases⟩ := hkept.fork hcalls hfork
  rcases hcases with ⟨hno, -⟩ | ⟨c', j, b, i, dir, use1, hkept1, hchild⟩
  · exact absurd hno hpid
  obtain rfl : c' = c := by
    have := hchild.listed.allList.symm.trans hlist
    simpa using this
  have hfresh : c' ∉ k.family.allList := by
    have hnd := hkept1.nodup
    rw [hlist] at hnd
    exact fun hmem => (List.nodup_append.mp hnd).2.2 c' hmem c' (List.mem_singleton_self c') rfl
  have hne : k.cur ≠ c' := by
    intro he
    rw [← he] at hfresh
    exact hfresh hkept.cur
  -- it lives
  obtain ⟨hkept2, hsteady1⟩ := steady_run hrun1 hkept1
  have hdescr : NoPages L k2.fs k2.cur := by
    rw [hsteady1.fs, hcur]
    exact forked_noPages hne hpipes hchild.files
  -- it exits
  obtain ⟨b', d', use3, hsp, hbits, hkept3, hhung, hslots3⟩ := hkept2.exit hcalls2 hexit hdescr
  rw [hcur] at hsp hbits hkept3 hslots3
  rw [withSpace_same] at hsp
  obtain rfl : dir = d' := congrArg Space.dir (Option.some.inj hsp)
  obtain rfl : b' = b := by
    have h1 := hchild.bits
    rw [hsteady1.bits] at hbits
    omega
  -- it is reaped
  obtain ⟨hkept4, hsteady2⟩ := steady_run hrun2 hkept3
  obtain ⟨-, -, hcases⟩ := hkept4.wait hcalls4 hwait
  rcases hcases with ⟨hnone, -⟩ | ⟨c2, i', j', hsome, hpgdir, hpcb, hkept5, hslots5⟩
  · rw [hfind] at hnone
    cases hnone
  rw [hfind] at hsome
  obtain rfl := Option.some.inj hsome
  obtain rfl : j' = j := by
    have := hchild.pcb
    omega
  obtain rfl : i' = i := by
    have h1 := hchild.pgdir
    rw [hsteady2.pgdir, hhung.vm, hsteady1.pgdir] at hpgdir
    omega
  have hspaces : gone (died (withSpace S c' dir) c' dir) c' = S := by
    funext t
    by_cases ht : t = c'
    · rw [ht, gone_same, hchild.was]
    · rw [gone_ne ht, died_ne ht, withSpace_ne ht]
  rw [hspaces] at hkept5 hslots5
  -- the regions of the process have no page in common, and none with those before
  have hap := hkept1.owners.regions.apart
  rw [List.pairwise_cons, List.pairwise_cons, List.pairwise_cons] at hap
  obtain ⟨hapi, hapb, hapj, -⟩ := hap
  have hregions := hkept.owners.regions
  have hwasi : ∀ n, InRegion n (i', 1) → slotFrame k.mm.mem S (.heap n) = none := fun n =>
    unmapped_of_apart hregions fun r hr => hapi r (by simp [hr])
  have hwasb : ∀ n, InRegion n (b', bitmapPgCnt) → slotFrame k.mm.mem S (.heap n) = none := fun n =>
    unmapped_of_apart hregions fun r hr => hapb r (by simp [hr])
  have hwasj : ∀ n, InRegion n (j', 1) → slotFrame k.mm.mem S (.heap n) = none := fun n =>
    unmapped_of_apart hregions hapj
  have hib := hapi (b', bitmapPgCnt) (by simp)
  have hbj := hapb (j', 1) (by simp)
  have h23 : bitmapPgCnt = 23 := by decide
  rw [h23] at hib hbj hwasb
  unfold Paging.Apart at hib hbj
  dsimp only at hib hbj
  obtain ⟨g, hg⟩ := (hkept1.owners.regions.mapped (b' + 22)).mpr
    ⟨(b', bitmapPgCnt), by simp, by rw [h23]; exact ⟨by dsimp only; omega, by dsimp only; omega⟩⟩
  have hend : ∀ x, x.of c' = false → slotFrame k'.mm.mem S x = if inRun j' 1 x then none
      else if inRun i' 1 x then none else if inRun b' 22 x then none
      else slotFrame k1.mm.mem (withSpace S c' dir) x := by
    intro x hof
    rw [hslots5, hsteady2.other x hof, hslots3, hof, hsteady1.other x hof]
    simp
  have hspaceless : ∀ {x}, x.of c' = true → ∀ m, slotFrame m S x = none := by
    intro x hof m
    cases x with
    | heap n => cases hof
    | table t d =>
      obtain rfl : t = c' := by simpa [Slot.of] using hof
      rw [slotFrame, tableFrame, hchild.was]
      rfl
    | page t v =>
      obtain rfl : t = c' := by simpa [Slot.of] using hof
      rw [slotFrame, tableFrame, hchild.was]
      rfl
  refine ⟨_, use3, b' + 22, g, hkept5, ?_, ?_, fun x hx => ?_⟩
  · exact hwasb _ ⟨by dsimp only; omega, by dsimp only; omega⟩
  · rw [hend _ rfl, hg]
    simp only [inRun_heap]
    rw [if_neg (by omega), if_neg (by omega), if_neg (by omega)]
  · by_cases hof : x.of c' = true
    · rw [hspaceless hof, hspaceless hof]
    have hof : x.of c' = false := by simpa using hof
    rw [hend x hof]
    cases x with
    | heap n =>
      simp only [inRun_heap]
      have hnl : n ≠ b' + 22 := by
        intro heq
        subst heq
        exact hx rfl
      split
      next hj => exact (hwasj n hj).symm
      next hj =>
        split
        next hi => exact (hwasi n hi).symm
        next hi =>
          split
          next hb => exact (hwasb n ⟨hb.1, by dsimp only; omega⟩).symm
          next hb =>
            refine hchild.other _ rfl ?_ ?_ ?_
            · simpa [inRun] using fun h1 => by omega
            · rw [h23]
              simpa [inRun] using fun h1 => by omega
            · simpa [inRun] using fun h1 => by omega
    | table t d => exact hchild.other _ hof rfl rfl rfl
    | page t v => exact hchild.other _ hof rfl rfl rfl

/-! ## Counting -/

/-- As many frames and pages of the heap are in use as were. -/
structure PageNeutral (k k' : KernelState p) : Prop where
  kernelPool : k'.mm.kernelPool.taken.card = k.mm.kernelPool.taken.card
  userPool : k'.mm.userPool.taken.card = k.mm.userPool.taken.card
  kernelVaddr : k'.mm.kernelVaddr.taken.card = k.mm.kernelVaddr.taken.card

section

variable {s s' : Mm} {l g : Nat}

/-- A frame more is named, in a place of the heap: the kernel's pool has a clear bit less. -/
theorem free_kernel_erase (hg : Good L s S noFrame) (hg' : Good L s' S noFrame)
    (hwas : slotFrame s.mem S (.heap l) = none) (hnow : slotFrame s'.mem S (.heap l) = some g)
    (hsame : ∀ x, x ≠ .heap l → slotFrame s'.mem S x = slotFrame s.mem S x) :
    g - 0x200 ∈ s.kernelPool.free ∧ s'.kernelPool.free = s.kernelPool.free.erase (g - 0x200) := by
  obtain ⟨hge, hlt⟩ : L.IsKernel g := hg'.inPool _ _ hnow
  have hgval : 0x200 + (g - 0x200) = g := by omega
  -- nothing else has the frame
  have hother : ∀ x, slotFrame s.mem S x ≠ some g := by
    intro x hx
    have hne : x ≠ .heap l := by
      intro heq
      subst heq
      rw [hwas] at hx
      cases hx
    exact hne (hg'.inj _ _ _ ((hsame x hne).trans hx) hnow)
  refine ⟨hg.mem_free_kernel.mpr ⟨by omega, by rw [hgval]; exact hother⟩, ?_⟩
  ext i
  rw [Finset.mem_erase, hg.mem_free_kernel, hg'.mem_free_kernel]
  constructor
  · intro h
    obtain ⟨hi, hno⟩ := h
    refine ⟨?_, hi, fun x hx => ?_⟩
    · intro hig
      exact hno (.heap l) (hnow.trans (by rw [hig, hgval]))
    · have hne : x ≠ .heap l := by
        intro heq
        subst heq
        rw [hwas] at hx
        cases hx
      exact hno x ((hsame x hne).trans hx)
  · intro h
    obtain ⟨hig, hi, hno⟩ := h
    refine ⟨hi, fun x hx => ?_⟩
    by_cases hxl : x = .heap l
    · rw [hxl, hnow] at hx
      have := Option.some.inj hx
      omega
    · exact hno x ((hsame x hxl).symm.trans hx)

/-- The user pool has the same clear bits. -/
theorem free_user_same (hg : Good L s S noFrame) (hg' : Good L s' S noFrame)
    (hwas : slotFrame s.mem S (.heap l) = none) (hnow : slotFrame s'.mem S (.heap l) = some g)
    (hsame : ∀ x, x ≠ .heap l → slotFrame s'.mem S x = slotFrame s.mem S x) :
    s'.userPool.free = s.userPool.free := by
  have hlt := Layout.kernel_lt_user (show L.IsKernel g from hg'.inPool _ _ hnow)
  ext i
  rw [hg.mem_free_user, hg'.mem_free_user]
  refine and_congr_right fun _ => forall_congr' fun x => not_congr ?_
  by_cases hxl : x = .heap l
  · rw [hxl, hwas, hnow]
    refine iff_of_false (fun he => ?_) (fun he => ?_)
    · have := Option.some.inj he
      omega
    · cases he
  · rw [hsame x hxl]

end

/-- A life leaves one frame more of the kernel's pool in use, and none of the user pool. -/
theorem Life.leaks (h : Life L c k k') (hk : PagesRight L k) (hpipes : PipesHeld k.fs k.cur) :
    k'.mm.kernelPool.taken.card = k.mm.kernelPool.taken.card + 1 ∧
      k'.mm.userPool.taken.card = k.mm.userPool.taken.card := by
  obtain ⟨S, R, use, hkept⟩ := hk
  obtain ⟨R', use', l, g, hkept', hwas, hnow, hsame⟩ := h.places hkept hpipes
  have hg := hkept.owners.regions.good
  have hg' := hkept'.owners.regions.good
  obtain ⟨hmem, herase⟩ := free_kernel_erase hg hg' hwas hnow hsame
  have huser := free_user_same hg hg' hwas hnow hsame
  constructor
  · have h1 := k.mm.kernelPool.card_taken
    have h2 := k'.mm.kernelPool.card_taken
    have hpos := Finset.card_pos.mpr ⟨_, hmem⟩
    rw [herase, Finset.card_erase_of_mem hmem, hg'.kernelLen] at h2
    rw [hg.kernelLen] at h1
    omega
  · have h1 := k.mm.userPool.card_taken
    have h2 := k'.mm.userPool.card_taken
    rw [huser, hg'.userLen] at h2
    rw [hg.userLen] at h1
    omega

/-! ## A child of `init` -/

/-- What the regions are for when `init` runs. -/
def initUse (r : Nat × Nat) : Use :=
  if r = (0, 1) then .pcb initPcb
  else if r = (1, 23) then .bits initPcb
  else if r = (24, 1) then .dir initPcb
  else .pcb idlePcb

theorem initSpaces_some {t : Nat} {sp : Space} (h : initSpaces t = some sp) :
    t = initPcb ∧ sp = ⟨0x218, true⟩ := by
  unfold initSpaces at h
  split at h
  next ht => exact ⟨ht, (Option.some.inj h).symm⟩
  next => cases h

theorem initRuns_kept : Kept smallLayout initSpaces initRegions initUse initRuns := by
  have hlist : ∀ t, t ∈ initRuns.family.allList ↔ t = initPcb ∨ t = mainPcb ∨ t = idlePcb := by
    intro t
    simp [initRuns]
  have hstatus : ∀ t, (initRuns.family.task t).status = .ready := by
    intro t
    show (if t = initPcb then initThread 1 "init".toList true 0
      else if t = mainPcb then initThread 2 "main".toList false 1
      else initThread 3 "idle".toList false 2).status = .ready
    split
    next => rfl
    next =>
      split
      next => rfl
      next => rfl
  have hslot : slotFrame initRuns.mm.mem initSpaces (.heap 24) = some 0x218 :=
    (init_slotFrame _).trans (initSlot_heap.mpr (by decide))
  constructor
  case owners =>
    refine ⟨initRuns_regions, fun t ht hge => ?_, fun t sp ht => ?_, fun t sp ht => ?_,
      fun t sp ht _ => ?_⟩
    · rcases (hlist t).mp ht with rfl | rfl | rfl
      · exact ⟨0, by decide, by decide, rfl⟩
      · exact absurd hge (by decide)
      · exact ⟨25, by decide, by decide, rfl⟩
    · obtain ⟨rfl, -⟩ := initSpaces_some ht
      exact ⟨(hlist _).mpr (Or.inl rfl), by decide⟩
    · obtain ⟨rfl, rfl⟩ := initSpaces_some ht
      exact ⟨24, by decide, hslot, by decide, rfl⟩
    · obtain ⟨rfl, -⟩ := initSpaces_some ht
      exact ⟨1, by decide, by decide, rfl⟩
  case nodup => decide
  case cur => exact (hlist _).mpr (Or.inl rfl)
  case main => decide
  case space =>
    intro t ht hp
    rcases (hlist t).mp ht with rfl | rfl | rfl
    · exact ⟨_, if_pos rfl⟩
    · exact absurd rfl hp
    · exact absurd rfl hp
  case alive =>
    intro t sp ht
    obtain ⟨-, rfl⟩ := initSpaces_some ht
    rw [hstatus]
    decide
  case hanging =>
    intro t _ hs
    rw [hstatus] at hs
    cases hs
  case bitmap =>
    intro t sp ht _ hne
    exact absurd (initSpaces_some ht).1 hne
  case runs =>
    intro sp hsp
    rw [(initSpaces_some hsp).2]
    rfl
  case runsBitmap => exact fun _ _ _ => rfl

/-- The page that the first child of `init` gets for its PCB. -/
def initChild : Nat := 0xc011a

/-- The tasks when `init` has forked. -/
def bornFamily : Family := { initRuns.family with
  allList := initRuns.family.allList ++ [initChild]
  pidBitmap := initRuns.family.pidBitmap.bitmapSet 3 true
  task := Function.update initRuns.family.task initChild (initRuns.family.childOf initPcb 4)
  nextUid := 4 }

/-- The file system when `init` has forked. -/
def bornFs : FileSys blankPartition := { initRuns.fs with
  pcb := Function.update initRuns.fs.pcb initChild (initRuns.fs.pcb initPcb)
  live := insert initChild initRuns.fs.live }

/-- `init` forks. -/
theorem init_forks : ∃ k1 : KernelState blankPartition,
    sysFork (pallocFrom smallLayout) smallLayout initRuns = some (4, k1) ∧ k1.cur = initPcb ∧
      k1.family = bornFamily ∧ k1.fs = bornFs ∧ (k1.vm initChild).pgdir = 0xc0133000 ∧
      (k1.vm initPcb).pgdir = 0xc0118000 := by
  have hrun : ((getKernelPages (pallocFrom smallLayout) initRuns.mm 1).bind fun w =>
      (getKernelPages (pallocFrom smallLayout) w.2 1).bind fun x =>
        (getKernelPages (pallocFrom smallLayout) x.2 bitmapPgCnt).bind fun y =>
          (getKernelPages (pallocFrom smallLayout) y.2 1).map fun z =>
            (w.1, x.1, y.1, z.1, z.2.userPool.bytesLen == 480 && !z.2.userPool.bit 1,
              z.2.kernelPool.bytesLen == 480 && !z.2.kernelPool.bit 100)) =
      some (some 0xc011a000, some 0xc011b000, some 0xc011c000, some 0xc0133000, true, true) := by
    decide +kernel
  obtain ⟨⟨r0, s0⟩, h0, hrun⟩ := Option.bind_eq_some_iff.mp hrun
  obtain ⟨⟨r1, s1⟩, h1, hrun⟩ := Option.bind_eq_some_iff.mp hrun
  obtain ⟨⟨r2, s2⟩, h2, hrun⟩ := Option.bind_eq_some_iff.mp hrun
  obtain ⟨⟨r3, s3⟩, hdir, hrun⟩ := Option.map_eq_some_iff.mp hrun
  simp only [Prod.mk.injEq, Bool.and_eq_true, beq_iff_eq, Bool.not_eq_true'] at hrun
  obtain ⟨rfl, rfl, rfl, rfl, ⟨hulen, hubit⟩, hklen, hkbit⟩ := hrun
  -- the page of the PCB
  rcases initRuns_kept.owners.getKernelPages (fun j => .pcb (heapPage + j)) h0 with
    ⟨hno, -⟩ | ⟨j, hj, hp0, ho0⟩
  · cases hno
  have hj : j = 26 := by
    have := Option.some.inj hj
    unfold kHeapStart at this
    omega
  subst hj
  obtain ⟨-, hnew⟩ := initRuns_kept.owners.fresh_pcb ho0.regions
  have ho := ho0.list rfl List.mem_cons_self (Function.update_self ..) fun _ => mem_snoc
  -- the page of the directory is made one
  have hregions : ∃ R, Regions smallLayout s2 initSpaces noFrame R := by
    rcases ho0.regions.getKernelPages h1 with ⟨hno, -⟩ | ⟨_, -, -, hr1⟩
    · cases hno
    rcases hr1.getKernelPages h2 with ⟨hno, -⟩ | ⟨_, -, -, hr2⟩
    · cases hno
    exact ⟨_, hr2⟩
  obtain ⟨R, hregions⟩ := hregions
  obtain ⟨m, h3⟩ := hregions.createPageDir_returns hdir
  have hmapped : ∀ i ∈ marks s0.userVaddr 0 (8 * userBitmapLen),
      ∃ f, slotFrame s0.mem initSpaces (.page initPcb (progPage i)) = some f := by
    intro i hi
    rw [hp0.userVaddr] at hi
    rw [init_marked (mem_marks.mp hi).2, hp0.other _ rfl]
    have hstack : initSlot (.page initPcb (progPage 753591)) = some 0x1100 := by
      rw [initSlot, if_pos ⟨rfl, by decide⟩]
    exact ⟨0x1100, (init_slotFrame _).trans hstack⟩
  have hone : (marks s0.userVaddr 0 (8 * userBitmapLen)).card ≤ 1 := by
    refine (Finset.card_le_card (t := {753591}) fun i hi => ?_).trans (Finset.card_singleton _).le
    rw [hp0.userVaddr] at hi
    exact Finset.mem_singleton.mpr (init_marked (mem_marks.mp hi).2)
  have huser : 0 < s3.userPool.free.card :=
    Finset.card_pos.mpr ⟨1, Bitmap.mem_free.mpr ⟨by omega, hubit⟩⟩
  have hkernel : 0 < s3.kernelPool.free.card :=
    Finset.card_pos.mpr ⟨100, Bitmap.mem_free.mpr ⟨by omega, hkbit⟩⟩
  obtain ⟨s4, s5, hcopy, hfree⟩ := ho.copy_returns ⟨mem_snoc.mpr (Or.inl rfl), Nat.le_add_right ..⟩
    hnew (if_pos rfl) hp0.cr3 (congrArg Bitmap.bytesLen hp0.userVaddr) h1 h2 h3 hmapped
    (hone.trans huser) ((Finset.card_image_le.trans hone).trans hkernel)
  have hscan : initRuns.family.pidBitmap.bitmapScan 1 = some 3 := by decide
  have hpid : allocatePid initRuns.family.pidBitmap =
      some (4, initRuns.family.pidBitmap.bitmapSet 3 true) := by
    rw [allocatePid, hscan]
    rfl
  have hfs : updateInodeOpenCnts initPcb initChild 5 3 { initRuns.fs with
      pcb := Function.update initRuns.fs.pcb initChild (initRuns.fs.pcb initPcb) } =
      some { initRuns.fs with
        pcb := Function.update initRuns.fs.pcb initChild (initRuns.fs.pcb initPcb) } := rfl
  have hfork := sysFork_eq h0 (by decide) (by decide) h1 hpid h2 (by decide) h3 hcopy hfs hfree
    (by decide) (by decide)
  exact ⟨_, hfork, rfl, rfl, rfl, rfl, rfl⟩

/-- The tasks when the child is about to release what it has. -/
def leavingFamily : Family :=
  (bornFamily.modify initChild fun k => { k with exitStatus := toI8 0 }).initAdopt 4

/-- **A life**: `init` forks, the child exits at once, and `init` waits for it. -/
theorem init_child_life : ∃ k', Life smallLayout initChild initRuns k' := by
  obtain ⟨k1, hfork, hcur1, hfam1, hfs1, hpgdir1, hinit1⟩ := init_forks
  have hcalls : initRuns.Calls := by decide
  obtain ⟨-, hcases⟩ := initRuns_kept.fork hcalls hfork
  rcases hcases with ⟨hno, -⟩ | ⟨c', j, b, i, dir, use1, hkept1, hchild⟩
  · cases hno
  have hc' : c' = initChild := by
    have hlist := hchild.listed.allList
    rw [hfam1] at hlist
    have := List.append_cancel_left hlist
    simpa using this.symm
  subst hc'
  -- the child runs
  have hmem : initChild ∈ k1.family.allList := by
    rw [hfam1]
    decide
  have hready : (k1.family.task initChild).status = .ready := by
    rw [hfam1]
    decide
  obtain ⟨k2, hswitch⟩ := hkept1.switch_returns hmem
  obtain ⟨hkept2, -, -, -, -, hfam2, hfs2, hfields2⟩ := hkept1.switch hmem hswitch
  have hcur2 : k2.cur = initChild := by
    obtain ⟨mm, -, hk⟩ := Option.bind_eq_some_iff.mp hswitch
    exact congrArg KernelState.cur (Option.some.inj hk).symm
  have hcalls2 : k2.Calls := by
    rw [KernelState.Calls, hcur2, (hfields2 _).1, hpgdir1, hfam2, hready]
    decide
  -- it exits
  have hadopt : k2.family.exitAdopt k2.cur 0 = some leavingFamily := by
    rw [hfam2, hfam1, hcur2, Family.exitAdopt, ensure_pos (by decide)]
    rfl
  have hfds : ∀ s, releaseFds smallLayout k2.cur 5 3 s k2.fs = some (s, k2.fs) := by
    intro s
    rw [hfs2, hfs1, hcur2]
    rfl
  have hparent : leavingFamily.pid2thread (leavingFamily.task k2.cur).parentPid = some initPcb := by
    rw [hcur2]
    decide
  obtain ⟨k3, hexit, hfam3, hvm3⟩ := hkept2.exit_returns hcalls2 hadopt hfds hparent
    fun h => absurd h (by decide)
  have hnoPages : NoPages smallLayout k2.fs k2.cur := by
    intro s s' f' hrun
    rw [hfds] at hrun
    exact (congrArg Prod.fst (Option.some.inj hrun)).symm
  obtain ⟨_, d, use3, -, -, hkept3, -⟩ := hkept2.exit hcalls2 hexit hnoPages
  rw [hcur2] at hfam3
  -- and `init` is next
  have hmem3 : initPcb ∈ k3.family.allList := by
    rw [hfam3]
    decide
  have hready3 : (k3.family.task initPcb).status = .ready := by
    rw [hfam3]
    decide
  obtain ⟨k4, hswitch3⟩ := hkept3.switch_returns hmem3
  obtain ⟨hkept4, -, -, -, -, hfam4, -, hfields4⟩ := hkept3.switch hmem3 hswitch3
  have hcur4 : k4.cur = initPcb := by
    obtain ⟨mm, -, hk⟩ := Option.bind_eq_some_iff.mp hswitch3
    exact congrArg KernelState.cur (Option.some.inj hk).symm
  have hcalls4 : k4.Calls := by
    rw [KernelState.Calls, hcur4, (hfields4 _).1, hvm3, (hfields2 _).1, hinit1, hfam4, hready3]
    decide
  have hfind : k4.family.findHangingChild (k4.family.task k4.cur).pid = some initChild := by
    rw [hfam4, hfam3, hcur4]
    decide
  obtain ⟨k', hwait⟩ := hkept4.wait_returns hcalls4
  refine ⟨k', .mk hcalls hfork (by decide) (by rw [hfam1]; rfl) ?_ hcur2 hcalls2 hexit ?_ hcalls4
    hfind hwait⟩
  · exact .single (.switch ⟨hmem, hready⟩ hswitch)
  · exact .single (.switch ⟨hmem3, hready3⟩ hswitch3)

/-- `init` has no descriptors but the standard ones. -/
theorem initRuns_pipes : PipesHeld initRuns.fs initPcb := by
  intro i g h3 _ hfd _
  have hfree : (initRuns.fs.pcb initPcb).fdTable i = -1 := if_neg (by omega)
  rw [hfree] at hfd
  omega

theorem initRuns_pages : PagesRight smallLayout initRuns := ⟨_, _, _, initRuns_kept⟩

/-! ## No life is neutral -/

/-- **Each life leaks a page**: after it the kernel's pool has one frame more in use than
before, and the user pool as many. -/
theorem fork_exit_wait_leaks (hk : PagesRight L k) (hpipes : PipesHeld k.fs k.cur)
    (h : Life L c k k') : ¬PageNeutral k k' ∧
      k'.mm.kernelPool.taken.card = k.mm.kernelPool.taken.card + 1 ∧
      k'.mm.userPool.taken.card = k.mm.userPool.taken.card := by
  obtain ⟨hkernel, huser⟩ := h.leaks hk hpipes
  refine ⟨fun hneutral => ?_, hkernel, huser⟩
  have := hneutral.kernelPool
  omega

theorem fork_exit_wait_leaks_init : ∃ k', Life smallLayout initChild initRuns k' ∧
    ¬PageNeutral initRuns k' ∧
      k'.mm.kernelPool.taken.card = initRuns.mm.kernelPool.taken.card + 1 ∧
      k'.mm.userPool.taken.card = initRuns.mm.userPool.taken.card := by
  obtain ⟨k', h⟩ := init_child_life
  exact ⟨k', h, fork_exit_wait_leaks initRuns_pages initRuns_pipes h⟩

/-- A child of `init` that exits at once. -/
theorem init_child_leaks : ¬∀ k', Life smallLayout initChild initRuns k' →
    PageNeutral initRuns k' := by
  intro hall
  obtain ⟨k', h⟩ := init_child_life
  have hkernel := (h.leaks initRuns_pages initRuns_pipes).1
  have := (hall k' h).kernelPool
  omega

end OsCore.Userprog
