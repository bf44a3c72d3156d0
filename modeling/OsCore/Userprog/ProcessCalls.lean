import OsCore.Lib.Machine
import OsCore.Userprog.Deaths

/-!
# The calls of processes, and what they keep

Pages are asked for one by one or in runs and given back, processes are started and
forked, exit, are waited for and take turns. `ProcessOp` is all of it, with the
scheduler left open: any task that is ready may be next. A request for a frame that
cannot be met ends the run.

`Kept` is the invariant: the regions of the heap have their owners (`Owners`), and what
the PCBs say about directories, bitmaps and exits fits. There is one lemma for each
call, which also says which places for frames it changes: those of the process that
runs, or those of a process that begins or ends.
-/

namespace OsCore.Userprog

open Lib Thread Paging Fs

variable {p : Partition}

/-! ## The calls -/

/-- What the running task asks for; `switchTo` is the scheduler's. -/
inductive ProcessOp
  | malloc (pgCnt : Nat)
  | getPage (v : Nat)
  | mfree (v pgCnt : Nat)
  | fork
  | exit (status : Int)
  | wait
  | execute (name : List Char)
  | switchTo (next : Nat)

/-- `malloc_page`, `get_a_page` and `mfree_page`. -/
def ProcessOp.aboutPages : ProcessOp → Bool
  | .malloc _ => true
  | .getPage _ => true
  | .mfree _ _ => true
  | _ => false

/-- The running task is a process and can make a system call. -/
def KernelState.Calls (k : KernelState p) : Prop :=
  (k.vm k.cur).pgdir ≠ 0 ∧ (k.family.task k.cur).status = .ready

/-- Pages are asked for and given back below `0xc0000000`, and only own pages are given
back. -/
def KernelState.May (k : KernelState p) : ProcessOp → Prop
  | .malloc _ => k.Calls
  | .getPage v => k.Calls ∧ userVaddrStart ≤ v * 4096 ∧ v < 768 * 1024
  | .mfree v pgCnt => k.Calls ∧ 0 < pgCnt ∧ v + pgCnt ≤ 768 * 1024 ∧
      ∀ i, i < pgCnt → (walk k.mm.mem k.mm.cr3 (v + i)).isSome = true
  | .fork => k.Calls
  | .exit _ => k.Calls
  | .wait => k.Calls
  | .execute _ => (k.family.task k.cur).status = .ready
  | .switchTo next => next ∈ k.family.allList ∧ (k.family.task next).status = .ready

def KernelState.step (L : Layout) (k : KernelState p) : ProcessOp → Option (KernelState p)
  | .malloc pgCnt => do
    let (_, mm) ← mallocPage (pallocFrom L) .user k.mm pgCnt
    return { k with mm }
  | .getPage v => do
    let (_, mm) ← getAPage (pallocFrom L) k.mm (v * 4096)
    return { k with mm }
  | .mfree v pgCnt => do
    let mm ← mfreePage L .user k.mm (v * 4096) pgCnt
    return { k with mm }
  | .fork => do
    let (_, k) ← sysFork (pallocFrom L) L k
    return k
  | .exit status => sysExit L k status
  | .wait => sysWait L k
  | .execute name => processExecute (pallocFrom L) k name
  | .switchTo next => switchTo k next

/-! ## The invariant -/

/-- The PCBs and the address spaces fit together. -/
structure Kept (L : Layout) (S : Spaces) (R : List (Nat × Nat)) (use : Nat × Nat → Use)
    (k : KernelState p) : Prop where
  owners : Owners L k.mm k.family.allList k.vm S R use
  nodup : k.family.allList.Nodup
  cur : k.cur ∈ k.family.allList
  main : k.family.main < heapPage
  space : ∀ t ∈ k.family.allList, (k.vm t).pgdir ≠ 0 → ∃ sp, S t = some sp
  alive : ∀ t sp, S t = some sp → (sp.alive = true ↔ (k.family.task t).status ≠ .hanging)
  hanging : ∀ t ∈ k.family.allList, (k.family.task t).status = .hanging → ∃ sp, S t = some sp
  bitmap : ∀ t sp, S t = some sp → sp.alive = true → t ≠ k.cur →
    (k.vm t).vaddrBitmap.bytesLen = userBitmapLen
  runs : ∀ sp, S k.cur = some sp → k.mm.cr3 = sp.dir
  runsBitmap : ∀ sp, S k.cur = some sp → sp.alive = true → k.mm.userVaddr.bytesLen = userBitmapLen

variable {L : Layout} {k k' : KernelState p} {S : Spaces} {R : List (Nat × Nat)}
  {use : Nat × Nat → Use}

namespace Kept

/-- A process that makes a call runs in its own address space. -/
theorem calls (h : Kept L S R use k) (hc : k.Calls) : ∃ d, S k.cur = some ⟨d, true⟩ ∧
    k.mm.cr3 = d ∧ k.mm.userVaddr.bytesLen = userBitmapLen := by
  obtain ⟨⟨d, a⟩, hsp⟩ := h.space _ h.cur hc.1
  have ha : a = true := by
    refine (h.alive _ _ hsp).mpr ?_
    rw [hc.2]
    decide
  subst ha
  exact ⟨d, hsp, h.runs _ hsp, h.runsBitmap _ hsp rfl⟩

/-- A step in the address space of the process that runs. -/
theorem local_step (h : Kept L S R use k) {mm : Mm} (hl : Local S k.cur k.mm mm)
    (hg : Good L mm S noFrame) : Kept L S R use { k with mm } where
  owners := h.owners.local hl hg
  nodup := h.nodup
  cur := h.cur
  main := h.main
  space := h.space
  alive := h.alive
  hanging := h.hanging
  bitmap := h.bitmap
  runs sp hsp := hl.cr3.trans (h.runs sp hsp)
  runsBitmap sp hsp ha := hl.userLen.trans (h.runsBitmap sp hsp ha)

/-- **Pages are asked for or given back**: only the address space of the caller changes. -/
theorem pages (h : Kept L S R use k) {op : ProcessOp} (hop : op.aboutPages = true) (hmay : k.May op)
    (hstep : k.step L op = some k') : ∃ mm, k' = { k with mm } ∧ Local S k.cur k.mm mm ∧
      Kept L S R use k' := by
  have hgood := h.owners.regions.good
  cases op with
  | malloc pgCnt =>
    obtain ⟨⟨r, mm⟩, hrun, hstep⟩ := Option.bind_eq_some_iff.mp hstep
    obtain rfl := Option.some.inj hstep
    obtain ⟨d, hsp, hcr3, hlen⟩ := h.calls hmay
    obtain ⟨hl, hg⟩ := Good.mallocPageUser hsp rfl hcr3 hgood hlen hrun
    exact ⟨mm, rfl, hl, h.local_step hl hg⟩
  | getPage v =>
    obtain ⟨⟨r, mm⟩, hrun, hstep⟩ := Option.bind_eq_some_iff.mp hstep
    obtain rfl := Option.some.inj hstep
    obtain ⟨d, hsp, hcr3, -⟩ := h.calls hmay.1
    obtain ⟨-, -, -, -, hl, hg⟩ := Good.getAPage hsp rfl hcr3 hgood hmay.2.2 hrun
    exact ⟨mm, rfl, hl, h.local_step hl hg⟩
  | mfree v pgCnt =>
    obtain ⟨mm, hrun, hstep⟩ := Option.bind_eq_some_iff.mp hstep
    obtain rfl := Option.some.inj hstep
    obtain ⟨hc, hpos, hv, hmapped⟩ := hmay
    obtain ⟨d, hsp, hcr3, -⟩ := h.calls hc
    have hslots : ∀ j, v ≤ j → j < v + pgCnt →
        ∃ f, slotFrame k.mm.mem S (.page k.cur j) = some f := by
      intro j h1 h2
      obtain ⟨f, hf⟩ := Option.isSome_iff_exists.mp (hmapped (j - v) (by omega))
      rw [hcr3, show v + (j - v) = j by omega, walk_page hsp rfl (by omega)] at hf
      exact ⟨f, hf⟩
    obtain ⟨s', hs', hl, hg⟩ := Good.mfreePageUser hsp rfl hcr3 hgood hpos hslots
    rw [hrun] at hs'
    obtain rfl := Option.some.inj hs'
    exact ⟨mm, rfl, hl, h.local_step hl hg⟩
  | fork => cases hop
  | exit => cases hop
  | wait => cases hop
  | execute => cases hop
  | switchTo => cases hop

/-! ## Processes begin -/

/-- A step that is about task `c` and memory only, where `c` is not listed. -/
theorem beside (h : Kept L S R use k) {c : Nat} (hc : c ∉ k.family.allList) (hb : Beside c k k')
    {R' : List (Nat × Nat)} {use' : Nat × Nat → Use}
    (ho : Owners L k'.mm k.family.allList k.vm S R' use') (hcr3 : k'.mm.cr3 = k.mm.cr3)
    (huv : k'.mm.userVaddr = k.mm.userVaddr) : Kept L S R' use' k' := by
  have hne : ∀ t ∈ k.family.allList, t ≠ c := by
    intro t ht heq
    subst heq
    exact hc ht
  have hspace : ∀ t sp, S t = some sp → t ≠ c := fun t sp ht => hne t (h.owners.listed t sp ht).1
  constructor
  case owners =>
    rw [hb.allList]
    apply ho.congrVm
    intro t sp ht
    rw [hb.vm t (hspace t sp ht)]
    exact ⟨rfl, rfl⟩
  case nodup =>
    rw [hb.allList]
    exact h.nodup
  case cur =>
    rw [hb.allList, hb.cur]
    exact h.cur
  case main =>
    rw [hb.main]
    exact h.main
  case space =>
    intro t ht hp
    rw [hb.allList] at ht
    rw [hb.vm t (hne t ht)] at hp
    exact h.space t ht hp
  case alive =>
    intro t sp ht
    rw [hb.task t (hspace t sp ht)]
    exact h.alive t sp ht
  case hanging =>
    intro t ht hst
    rw [hb.allList] at ht
    rw [hb.task t (hne t ht)] at hst
    exact h.hanging t ht hst
  case bitmap =>
    intro t sp ht ha htc
    rw [hb.cur] at htc
    rw [hb.vm t (hspace t sp ht)]
    exact h.bitmap t sp ht ha htc
  case runs =>
    intro sp hsp
    rw [hb.cur] at hsp
    rw [hcr3]
    exact h.runs sp hsp
  case runsBitmap =>
    intro sp hsp ha
    rw [hb.cur] at hsp
    rw [huv]
    exact h.runsBitmap sp hsp ha

/-- Task `c` is a child of the task that ran: where its PCB, its bitmap and its directory
are, and that no other place for frames has changed. -/
structure Child (S : Spaces) (k : KernelState p) (c j b i dir : Nat) (k' : KernelState p) : Prop where
  pcb : c = heapPage + j
  bits : (k'.vm c).bits = kHeapStart + b * 4096
  pgdir : (k'.vm c).pgdir = kHeapStart + i * 4096
  listed : Listed c k k'
  files : FilesForked k.cur c k.fs k'.fs
  was : S c = none
  other : ∀ x, x.of c = false → inRun j 1 x = false → inRun b bitmapPgCnt x = false →
    inRun i 1 x = false → slotFrame k'.mm.mem (withSpace S c dir) x = slotFrame k.mm.mem S x

/-- A task more, in an address space of its own or not. -/
theorem born (h : Kept L S R use k) {c : Nat} (hc : c ∉ k.family.allList) (hlisted : Listed c k k')
    (hcr3 : k'.mm.cr3 = k.mm.cr3) (huv : k'.mm.userVaddr = k.mm.userVaddr) {S' : Spaces}
    (hS' : ∀ t, t ≠ c → S' t = S t) (hsc : ∀ sp, S' c = some sp → sp.alive = true)
    (hdir : (k'.vm c).pgdir ≠ 0 → ∃ sp, S' c = some sp)
    (hmap : (k'.vm c).vaddrBitmap.bytesLen = userBitmapLen) {R' : List (Nat × Nat)}
    {use' : Nat × Nat → Use}
    (ho : Owners L k'.mm (k.family.allList ++ [c]) k'.vm S' R' use') : Kept L S' R' use' k' := by
  obtain ⟨hcur, hlist, hmain, hvm, htask, hready, -⟩ := hlisted
  have hmem : ∀ t, t ∈ k'.family.allList ↔ t = c ∨ t ∈ k.family.allList := by
    intro t
    rw [hlist, mem_snoc]
  have hne : k.cur ≠ c := by
    intro he
    rw [← he] at hc
    exact hc h.cur
  have hnot : (k'.family.task c).status ≠ .hanging := by
    rw [hready]
    decide
  constructor
  case owners =>
    rw [hlist]
    exact ho
  case nodup =>
    rw [hlist]
    refine List.nodup_append.mpr ⟨h.nodup, List.nodup_singleton c, fun a ha b hb hab => ?_⟩
    rw [hab, List.mem_singleton.mp hb] at ha
    exact hc ha
  case cur =>
    rw [hcur]
    exact (hmem _).mpr (Or.inr h.cur)
  case main =>
    rw [hmain]
    exact h.main
  case space =>
    intro t ht hp
    by_cases htc : t = c
    · rw [htc] at hp ⊢
      exact hdir hp
    · rw [hvm t htc] at hp
      rw [hS' t htc]
      exact h.space t (((hmem t).mp ht).resolve_left htc) hp
  case alive =>
    intro t sp ht
    by_cases htc : t = c
    · rw [htc] at ht ⊢
      exact iff_of_true (hsc sp ht) hnot
    · rw [hS' t htc] at ht
      rw [htask t htc]
      exact h.alive t sp ht
  case hanging =>
    intro t ht hst
    by_cases htc : t = c
    · rw [htc] at hst
      exact absurd hst hnot
    · rw [htask t htc] at hst
      rw [hS' t htc]
      exact h.hanging t (((hmem t).mp ht).resolve_left htc) hst
  case bitmap =>
    intro t sp ht ha htcur
    rw [hcur] at htcur
    by_cases htc : t = c
    · rw [htc]
      exact hmap
    · rw [hS' t htc] at ht
      rw [hvm t htc]
      exact h.bitmap t sp ht ha htcur
  case runs =>
    intro sp hsp
    rw [hcur, hS' _ hne] at hsp
    exact hcr3.trans (h.runs sp hsp)
  case runsBitmap =>
    intro sp hsp ha
    rw [hcur, hS' _ hne] at hsp
    rw [huv]
    exact h.runsBitmap sp hsp ha

theorem page_div (j : Nat) : (kHeapStart + j * 4096) / 4096 = heapPage + j := heapAddr_div j

/-- **`sys_fork`**: a refusal changes no address space, and otherwise there is a child. -/
theorem fork (h : Kept L S R use k) (hc : k.Calls) {r : Int}
    (hrun : sysFork (pallocFrom L) L k = some (r, k')) :
    (∀ g, (k'.fs.fileTable g).fdFlag = (k.fs.fileTable g).fdFlag) ∧
      (r = -1 ∧ (∃ R' use', Kept L S R' use' k') ∨
        ∃ c j b i dir use', Kept L (withSpace S c dir) ((i, 1) :: (b, bitmapPgCnt) :: (j, 1) :: R) use' k' ∧
          Child S k c j b i dir k') := by
  obtain ⟨d, hsp, hcr3, hlen⟩ := h.calls hc
  obtain ⟨page, s1, hpage, hcases⟩ := sysFork_run hrun
  rcases h.owners.getKernelPages (fun j => .pcb (heapPage + j)) hpage with
    ⟨rfl, rfl⟩ | ⟨j, rfl, hp1, ho1⟩
  · rcases hcases with ⟨-, hr, rfl⟩ | ⟨_, hno, -⟩
    · exact ⟨fun _ => rfl, Or.inl ⟨hr, R, use, h⟩⟩
    · cases hno
  rcases hcases with ⟨hno, -⟩ | ⟨vaddr, hv, hcases⟩
  · cases hno
  obtain rfl := Option.some.inj hv
  obtain ⟨hfresh, hnew⟩ := h.owners.fresh_pcb ho1.regions
  rw [page_div] at hcases
  have hne : k.cur ≠ heapPage + j := by
    intro he
    rw [← he] at hfresh
    exact hfresh h.cur
  rcases hcases hne with ⟨hr, hb, hcrun⟩ | ⟨-, hlisted, hcrun, hfiles⟩
  · obtain ⟨R', use', ho', hcr, huv⟩ := ho1.copy_refused hnew hcrun
    exact ⟨hb.flags, Or.inl ⟨hr, R', use',
      h.beside hfresh hb ho' (hcr.trans hp1.cr3) (huv.trans hp1.userVaddr)⟩⟩
  · have ho2 := ho1.list rfl List.mem_cons_self (Function.update_self ..) fun _ => mem_snoc
    have hc2 : heapPage + j ∈ k.family.allList ++ [heapPage + j] ∧ heapPage ≤ heapPage + j :=
      ⟨mem_snoc.mpr (Or.inl rfl), Nat.le_add_right ..⟩
    obtain ⟨b, i, dir, use', ho', hpages, hbits, hpgdir, hmap⟩ := ho2.copied hc2 hnew hsp
      (hp1.cr3.trans hcr3) (by rw [hp1.userVaddr, hlen]) hcrun hlisted.vm rfl
    refine ⟨hlisted.flags, Or.inr ⟨heapPage + j, j, b, i, dir, use', h.born hfresh hlisted
      (hpages.cr3.trans hp1.cr3) (hpages.userVaddr.trans hp1.userVaddr)
      (fun t ht => withSpace_ne ht dir) (fun sp hs => ?_) (fun _ => ⟨_, withSpace_same S _ dir⟩) ?_
      ho', rfl, hbits, hpgdir, hlisted, hfiles, hnew, fun x hx hxj hxb hxi => ?_⟩⟩
    · rw [withSpace_same] at hs
      rw [← Option.some.inj hs]
    · rw [hmap, hp1.userVaddr, hlen]
    · rw [hpages.other x hx hxb hxi, hp1.other x hxj]

/-- **`process_execute`**: a task more, with an address space unless that is refused. -/
theorem execute (h : Kept L S R use k) {name : List Char}
    (hrun : processExecute (pallocFrom L) k name = some k') :
    (∀ g, (k'.fs.fileTable g).fdFlag = (k.fs.fileTable g).fdFlag) ∧
      ∃ S' R' use', Kept L S' R' use' k' := by
  obtain ⟨vaddr, bits, dir, s1, s2, hpage, hbits, hdir, hlisted, hvm⟩ := processExecute_run hrun
  rcases h.owners.getKernelPages (fun j => .pcb (heapPage + j)) hpage with ⟨hno, -⟩ | ⟨j, hj, hp1, ho1⟩
  · cases hno
  obtain rfl := Option.some.inj hj
  obtain ⟨hfresh, hnew⟩ := h.owners.fresh_pcb ho1.regions
  rw [page_div] at hlisted hvm
  rcases ho1.getKernelPages (fun _ => .bits (heapPage + j)) hbits with ⟨hno, -⟩ | ⟨b, hb, hp2, ho2⟩
  · cases hno
  obtain rfl := Option.some.inj hb
  have hbitmap : (j, 1) ≠ (b, bitmapPgCnt) := by
    intro he
    have hnd := ho2.regions.nodup
    rw [← he, List.nodup_cons] at hnd
    exact hnd.1 List.mem_cons_self
  have ho3 := ho2.list rfl (List.mem_cons_of_mem _ List.mem_cons_self)
    ((Function.update_of_ne hbitmap ..).trans (Function.update_self ..)) fun _ => mem_snoc
  have hmap : (k'.vm (heapPage + j)).vaddrBitmap.bytesLen = userBitmapLen := by
    rw [hvm]
    rfl
  rcases ho3.regions.createPageDir hnew hdir with ⟨rfl, hmm⟩ | ⟨i, dir, rfl, hmade, hregions⟩
  · -- the task is a kernel thread
    have ho4 : Owners L s2 (k.family.allList ++ [heapPage + j]) k'.vm S _ _ := ho3.congrVm fun t sp ht => by
      rw [hlisted.vm t (by rintro rfl; rw [hnew] at ht; cases ht)]
      exact ⟨rfl, rfl⟩
    rw [← hmm] at ho4
    refine ⟨hlisted.flags, S, _, _, h.born hfresh hlisted ?_ ?_ (fun _ _ => rfl) (fun sp hs => ?_) (fun hp => ?_) hmap ho4⟩
    · rw [hmm, hp2.cr3, hp1.cr3]
    · rw [hmm, hp2.userVaddr, hp1.userVaddr]
    · rw [hnew] at hs
      cases hs
    · rw [hvm] at hp
      exact absurd rfl hp
  · have ho4 := ho3.newSpace ⟨mem_snoc.mpr (Or.inl rfl), Nat.le_add_right ..⟩ hnew
      ⟨List.mem_cons_self, Function.update_self ..⟩ hmade hregions hlisted.vm (by rw [hvm]; rfl) (by rw [hvm])
    refine ⟨hlisted.flags, _, _, _, h.born hfresh hlisted ?_ ?_ (fun t ht => withSpace_ne ht dir) (fun sp hs => ?_)
      (fun _ => ⟨_, withSpace_same S _ dir⟩) hmap ho4⟩
    · rw [hmade.cr3, hp2.cr3, hp1.cr3]
    · rw [hmade.userVaddr, hp2.userVaddr, hp1.userVaddr]
    · rw [withSpace_same] at hs
      rw [← Option.some.inj hs]

/-! ## Processes end -/

/-- `sys_exit` comes back when the parent is found and the descriptors can be closed. -/
theorem exit_returns (h : Kept L S R use k) (hc : k.Calls) {status : Int} {family : Family}
    {fs : FileSys p} {parent : Nat} (hadopt : k.family.exitAdopt k.cur status = some family)
    (hfds : ∀ s, releaseFds L k.cur 5 3 s k.fs = some (s, fs))
    (hparent : family.pid2thread (family.task k.cur).parentPid = some parent)
    (hready : (family.task parent).status = .waiting → parent ∉ k.readyList) :
    ∃ k', sysExit L k status = some k' ∧
      k'.family = (family.wakeParent parent).hang k.cur status ∧ k'.vm = k.vm := by
  obtain ⟨d, hsp, hcr3, hlen⟩ := h.calls hc
  obtain ⟨_, s1, s2, _, -, hwalk, hfree, -⟩ := h.owners.exit hsp hcr3 hlen
  simp only [sysExit, releaseProgResource, hadopt, hwalk, hfree, hfds, hparent, ensure_pos hready,
    Option.bind_eq_bind, Option.bind_some, Option.pure_def]
  exact ⟨_, rfl, rfl, rfl⟩

/-- **`sys_exit`** of a process whose descriptors have no pages: all its places for
frames are given up, and all pages of its bitmap but the last. -/
theorem exit (h : Kept L S R use k) (hc : k.Calls) {status : Int}
    (hrun : sysExit L k status = some k') (hdescr : NoPages L k.fs k.cur) :
    ∃ b d use', S k.cur = some ⟨d, true⟩ ∧ (k.vm k.cur).bits = kHeapStart + b * 4096 ∧
      Kept L (died S k.cur d) ((b + 22, 1) :: R.erase (b, 23)) use' k' ∧ Hung k k' ∧
      ∀ x, slotFrame k'.mm.mem (died S k.cur d) x =
        if inRun b 22 x then none else if x.of k.cur = true then none else slotFrame k.mm.mem S x := by
  obtain ⟨d, hsp, hcr3, hlen⟩ := h.calls hc
  obtain ⟨s1, s2, fs, hwalk, hfree, hfds, -, hhung⟩ := sysExit_run hrun
  have hmm := hdescr s2 _ fs hfds
  obtain ⟨b, t1, t2, use', hbits, hwalk', hfree', ho, hslots, hcr⟩ := h.owners.exit hsp hcr3 hlen
  rw [hwalk] at hwalk'
  obtain rfl := Option.some.inj hwalk'
  rw [hfree] at hfree'
  obtain rfl := Option.some.inj hfree'
  have hback : ∀ t, (∃ sp, S t = some sp) → ∃ sp, died S k.cur d t = some sp := by
    intro t hin
    obtain ⟨sp, ht⟩ := hin
    by_cases htc : t = k.cur
    · exact ⟨_, by rw [htc, died_same]⟩
    · exact ⟨sp, by rw [died_ne htc, ht]⟩
  refine ⟨b, d, use', hsp, hbits, ?_, hhung, by rw [hmm]; exact hslots⟩
  constructor
  case owners =>
    rw [hmm, hhung.allList, hhung.vm]
    exact ho
  case nodup =>
    rw [hhung.allList]
    exact h.nodup
  case cur =>
    rw [hhung.allList, hhung.cur]
    exact h.cur
  case main =>
    rw [hhung.main]
    exact h.main
  case space =>
    intro t ht hp
    rw [hhung.allList] at ht
    rw [hhung.vm] at hp
    exact hback t (h.space t ht hp)
  case alive =>
    intro t sp ht
    rw [Ne, hhung.status]
    rcases died_some ht with ⟨rfl, rfl⟩ | ⟨htc, ht⟩
    · simp
    · rw [h.alive t sp ht]
      simp [htc]
  case hanging =>
    intro t ht hst
    rw [hhung.allList] at ht
    rcases (hhung.status t).mp hst with rfl | hst
    · exact ⟨_, died_same S k.cur d⟩
    · exact hback t (h.hanging t ht hst)
  case bitmap =>
    intro t sp ht ha htc
    rw [hhung.cur] at htc
    rw [hhung.vm]
    rcases died_some ht with ⟨he, -⟩ | ⟨-, ht⟩
    · exact absurd he htc
    · exact h.bitmap t sp ht ha htc
  case runs =>
    intro sp hs
    rw [hhung.cur, died_same] at hs
    rw [hmm, hcr, ← Option.some.inj hs]
  case runsBitmap =>
    intro sp hs ha
    rw [hhung.cur, died_same] at hs
    rw [← Option.some.inj hs] at ha
    cases ha

/-- A child that hangs has given up its address space, and its directory is not the one
in use. -/
theorem hanging_child (h : Kept L S R use k) (hc : k.Calls) {c : Nat}
    (hfind : k.family.findHangingChild (k.family.task k.cur).pid = some c) :
    ∃ dc, S c = some ⟨dc, false⟩ ∧ k.cur ≠ c ∧ k.mm.cr3 ≠ dc ∧ (k.vm c).pgdir ≠ 0 ∧
      c ≠ k.family.main := by
  obtain ⟨d, hsp, hcr3, -⟩ := h.calls hc
  obtain ⟨hmem, -, hhang⟩ := findHangingChild_some hfind
  obtain ⟨⟨dc, a⟩, hspc⟩ := h.hanging c hmem hhang
  have ha : a = false := by
    cases a with
    | false => rfl
    | true => exact absurd hhang ((h.alive c _ hspc).mp rfl)
  subst ha
  have hcc : k.cur ≠ c := by
    intro he
    rw [← he, hc.2] at hhang
    cases hhang
  obtain ⟨i, hpgdir, -⟩ := h.owners.dir c _ hspc
  refine ⟨dc, hspc, hcc, fun he => ?_, ?_, ?_⟩
  · exact hcc (h.owners.regions.good.dirInj k.cur c _ _ hsp hspc (hcr3.symm.trans he))
  · rw [hpgdir]
    exact heapAddr_ne_zero i
  · have h3 := h.main
    have h4 := (h.owners.listed c _ hspc).2
    omega

/-- `sys_wait` comes back. -/
theorem wait_returns (h : Kept L S R use k) (hc : k.Calls) : ∃ k', sysWait L k = some k' := by
  rw [sysWait]
  cases hfind : k.family.findHangingChild (k.family.task k.cur).pid with
  | none => exact ⟨_, rfl⟩
  | some c =>
    obtain ⟨dc, hspc, -, hcr, hpgdir0, hnm⟩ := h.hanging_child hc hfind
    have hT : ∀ t, t ∈ k.family.allList.erase c ↔ t ≠ c ∧ t ∈ k.family.allList := fun t =>
      h.nodup.mem_erase_iff
    obtain ⟨_, _, s1, s2, -, -, hf1, hf2, -⟩ := h.owners.reap hspc hcr hT
    dsimp only
    rw [threadExit_eq, if_pos hpgdir0, hf1, Option.bind_some, if_pos hnm, hf2]
    exact ⟨_, rfl⟩

/-- **`sys_wait`**: without a child that hangs memory stays as it is; otherwise its
directory and its PCB are given back. -/
theorem wait (h : Kept L S R use k) (hc : k.Calls) (hrun : sysWait L k = some k') :
    k'.fs = k.fs ∧ k'.vm = k.vm ∧
      (k.family.findHangingChild (k.family.task k.cur).pid = none ∧ k'.mm = k.mm ∧ Kept L S R use k' ∨
        ∃ c i j, k.family.findHangingChild (k.family.task k.cur).pid = some c ∧
          (k.vm c).pgdir = kHeapStart + i * 4096 ∧ c = heapPage + j ∧
          Kept L (gone S c) ((R.erase (i, 1)).erase (j, 1)) use k' ∧
          ∀ x, slotFrame k'.mm.mem (gone S c) x =
            if inRun j 1 x then none else if inRun i 1 x then none else slotFrame k.mm.mem S x) := by
  obtain ⟨d, hsp, hcr3, hlen⟩ := h.calls hc
  have hready : (k.family.task k.cur).status ≠ .hanging := by
    rw [hc.2]
    decide
  obtain ⟨hcur, hvm, hfs, hmain, hcases⟩ := sysWait_run hrun hready
  rcases hcases with ⟨hnone, hmm, hlist, hst⟩ | ⟨c, hfind, hlist, hst, s1, h1, h2⟩
  · refine ⟨hfs, hvm, Or.inl ⟨hnone, hmm, ?_⟩⟩
    constructor
    case owners =>
      rw [hmm, hlist, hvm]
      exact h.owners
    case nodup =>
      rw [hlist]
      exact h.nodup
    case cur =>
      rw [hlist, hcur]
      exact h.cur
    case main =>
      rw [hmain]
      exact h.main
    case space =>
      rw [hlist, hvm]
      exact h.space
    case alive =>
      intro t sp ht
      rw [Ne, hst]
      exact h.alive t sp ht
    case hanging =>
      intro t ht hs
      rw [hlist] at ht
      exact h.hanging t ht ((hst t).mp hs)
    case bitmap =>
      rw [hcur, hvm]
      exact h.bitmap
    case runs =>
      rw [hcur, hmm]
      exact h.runs
    case runsBitmap =>
      rw [hcur, hmm]
      exact h.runsBitmap
  · obtain ⟨dc, hspc, hcc, hcr, hpgdir0, hnm⟩ := h.hanging_child hc hfind
    rw [if_pos hpgdir0] at h1
    rw [if_pos hnm] at h2
    have hT : ∀ t, t ∈ k.family.allList.erase c ↔ t ≠ c ∧ t ∈ k.family.allList := fun t =>
      h.nodup.mem_erase_iff
    obtain ⟨i, j, t1, t2, hi, hj, hf1, hf2, ho, hslots, hcr2, huv2⟩ := h.owners.reap hspc hcr hT
    rw [h1] at hf1
    obtain rfl := Option.some.inj hf1
    rw [h2] at hf2
    obtain rfl := Option.some.inj hf2
    refine ⟨hfs, hvm, Or.inr ⟨c, i, j, hfind, hi, hj, ?_, hslots⟩⟩
    constructor
    case owners =>
      rw [hlist, hvm]
      exact ho
    case nodup =>
      rw [hlist]
      exact h.nodup.erase c
    case cur =>
      rw [hlist, hcur]
      exact (hT _).mpr ⟨hcc, h.cur⟩
    case main =>
      rw [hmain]
      exact h.main
    case space =>
      intro t ht hp
      rw [hlist] at ht
      rw [hvm] at hp
      obtain ⟨htc, ht⟩ := (hT t).mp ht
      rw [gone_ne htc]
      exact h.space t ht hp
    case alive =>
      intro t sp ht
      obtain ⟨htc, ht⟩ := gone_some ht
      rw [Ne, hst t htc]
      exact h.alive t sp ht
    case hanging =>
      intro t ht hs
      rw [hlist] at ht
      obtain ⟨htc, ht⟩ := (hT t).mp ht
      rw [gone_ne htc]
      exact h.hanging t ht ((hst t htc).mp hs)
    case bitmap =>
      intro t sp ht ha hne
      rw [hcur] at hne
      rw [hvm]
      exact h.bitmap t sp (gone_some ht).2 ha hne
    case runs =>
      intro sp hs
      rw [hcur] at hs
      rw [hcr2]
      exact h.runs sp (gone_some hs).2
    case runsBitmap =>
      intro sp hs ha
      rw [hcur] at hs
      rw [huv2]
      exact h.runsBitmap sp (gone_some hs).2 ha

/-! ## Processes take turns -/

/-- **`schedule`**: another directory is in use, and everything else is where it was. -/
theorem switch (h : Kept L S R use k) {next : Nat} (hnext : next ∈ k.family.allList)
    (hrun : switchTo k next = some k') : Kept L S R use k' ∧ k'.mm.mem = k.mm.mem ∧
      k'.mm.kernelPool = k.mm.kernelPool ∧ k'.mm.userPool = k.mm.userPool ∧
      k'.mm.kernelVaddr = k.mm.kernelVaddr ∧ k'.family = k.family ∧ k'.fs = k.fs ∧
      ∀ t, (k'.vm t).pgdir = (k.vm t).pgdir ∧ (k'.vm t).bits = (k.vm t).bits := by
  obtain ⟨mm, hact, hk⟩ := Option.bind_eq_some_iff.mp hrun
  obtain rfl := Option.some.inj hk
  obtain ⟨vm, hvm⟩ : ∃ vm, vm = Function.update k.vm k.cur
    { k.vm k.cur with vaddrBitmap := k.mm.userVaddr } := ⟨_, rfl⟩
  rw [← hvm] at hact ⊢
  have hself : vm k.cur = { k.vm k.cur with vaddrBitmap := k.mm.userVaddr } := by
    rw [hvm, Function.update_self]
  have hother : ∀ t, t ≠ k.cur → vm t = k.vm t := by
    intro t ht
    rw [hvm, Function.update_of_ne ht]
  have hfields : ∀ t, (vm t).pgdir = (k.vm t).pgdir ∧ (vm t).bits = (k.vm t).bits := by
    intro t
    by_cases ht : t = k.cur
    · rw [ht, hself]
      exact ⟨rfl, rfl⟩
    · rw [hother t ht]
      exact ⟨rfl, rfl⟩
  have hlen : ∀ t sp, S t = some sp → sp.alive = true → (vm t).vaddrBitmap.bytesLen = userBitmapLen := by
    intro t sp ht ha
    by_cases htc : t = k.cur
    · rw [htc, hself]
      rw [htc] at ht
      exact h.runsBitmap sp ht ha
    · rw [hother t htc]
      exact h.bitmap t sp ht ha htc
  have hgood := h.owners.regions.good.setUserVaddr (vm next).vaddrBitmap
  -- what `page_dir_activate` loads
  have hload : ∃ dir, mm = { k.mm with userVaddr := (vm next).vaddrBitmap, cr3 := dir } ∧
      (dir = kernelDir ∨ ∃ t sp, S t = some sp ∧ dir = sp.dir) ∧ ∀ sp, S next = some sp → dir = sp.dir := by
    by_cases hp : (vm next).pgdir = 0
    · refine ⟨0x100000 / 4096, ?_, Or.inl rfl, fun sp hs => ?_⟩
      · rw [pageDirActivate, if_pos hp] at hact
        exact (Option.some.inj hact).symm
      · obtain ⟨i, hi, -⟩ := h.owners.dir next sp hs
        rw [(hfields next).1, hi] at hp
        exact absurd hp (heapAddr_ne_zero i)
    · obtain ⟨sp, hs⟩ := h.space next hnext (by rw [← (hfields next).1]; exact hp)
      obtain ⟨i, hi, hslot, -⟩ := h.owners.dir next sp hs
      refine ⟨sp.dir, ?_, Or.inr ⟨next, sp, hs, rfl⟩, fun sp' hs' => ?_⟩
      · rw [(hfields next).1, hi, hgood.activate (heap_mapped hslot) hslot] at hact
        exact (Option.some.inj hact).symm
      · rw [hs] at hs'
        rw [Option.some.inj hs']
  obtain ⟨dir, rfl, hdir, hnextdir⟩ := hload
  refine ⟨?_, rfl, rfl, rfl, rfl, rfl, rfl, hfields⟩
  constructor
  case owners =>
    refine (h.owners.keep (h.owners.regions.congr (hgood.setCr3 hdir) (fun _ => rfl) rfl)
      fun _ => rfl).congrVm fun t sp _ => hfields t
  case nodup => exact h.nodup
  case cur => exact hnext
  case main => exact h.main
  case space =>
    intro t ht hp
    replace hp : (vm t).pgdir ≠ 0 := hp
    rw [(hfields t).1] at hp
    exact h.space t ht hp
  case alive => exact h.alive
  case hanging => exact h.hanging
  case bitmap => exact fun t sp ht ha _ => hlen t sp ht ha
  case runs => exact hnextdir
  case runsBitmap => exact hlen next

/-- A task that is listed can be next. -/
theorem switch_returns (h : Kept L S R use k) {next : Nat} (hnext : next ∈ k.family.allList) :
    ∃ k', switchTo k next = some k' := by
  obtain ⟨vm, hvm⟩ : ∃ vm, vm = Function.update k.vm k.cur
    { k.vm k.cur with vaddrBitmap := k.mm.userVaddr } := ⟨_, rfl⟩
  have hpgdir : (vm next).pgdir = (k.vm next).pgdir := by
    rw [hvm]
    by_cases hn : next = k.cur
    · rw [hn, Function.update_self]
    · rw [Function.update_of_ne hn]
  have hact : ∃ mm, pageDirActivate { k.mm with userVaddr := (vm next).vaddrBitmap } (vm next).pgdir =
      some mm := by
    by_cases hp : (vm next).pgdir = 0
    · rw [pageDirActivate, if_pos hp]
      exact ⟨_, rfl⟩
    · obtain ⟨sp, hs⟩ := h.space next hnext (by rw [← hpgdir]; exact hp)
      obtain ⟨i, hi, hslot, -⟩ := h.owners.dir next sp hs
      have hgood := h.owners.regions.good.setUserVaddr (vm next).vaddrBitmap
      rw [hpgdir, hi]
      exact ⟨_, hgood.activate (heap_mapped hslot) hslot⟩
  obtain ⟨mm, hact⟩ := hact
  rw [switchTo, ← hvm, hact]
  exact ⟨_, rfl⟩

end Kept

end OsCore.Userprog
