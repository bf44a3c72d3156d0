import OsCore.Fs.InodeNumbers

/-!
# Who opens must close (`i_open_cnts`)

Every call on a path goes through `search_file`, which opens directories on its way
and leaves the last one open. So a call has to close one directory more than it
opens itself, on each of its ways out, or the count of that directory stays one too
high for good.

`sys_stat`, `sys_chdir`, `sys_mkdir`, `sys_unlink` and `sys_rmdir` all do. So does
`sys_open` when it makes a file, and `sys_opendir`, which for `/` has nothing to
open: the root directory is open from the start and is never closed. `sys_open` of
a file that is there does not close the directory. That goes unnoticed in the root
directory, which the search does not open (`searchFile_one`), and is one user too
many below it (`open_keeps_parent`).
-/

namespace OsCore.Fs

open OsCore.Lib

variable {p : Partition}

/-! ## `sys_stat` -/

/-- `struct stat`. -/
structure Stat where
  stIno : Nat
  stSize : Nat
  stFiletype : UInt32

/-- `sys_stat(path, buf)`, with what is in `buf` afterwards. -/
def sysStat (k : FileSys p) (path : List UInt8) (buf : Stat) (stack : Stack) :
    Option (Int × Stat × FileSys p) := do
  if path = [slash] ∨ path = slash :: dot ∨ path = slash :: dotDot then
    let root ← k.part.inodeAt k.rootDir
    return (0, ⟨0, root.size, ftDirectory⟩, k)
  let (inodeNo, record, k) ← k.search stack path
  if inodeNo ≠ -1 then
    let (a, part) ← inodeOpen k.part (asUInt inodeNo)
    let objInode ← part.inodeAt a
    let k ← { k with part }.inodeClose a
    let k ← k.dirClose record.parentDir
    return (0, ⟨asUInt inodeNo, objInode.size, record.fileType⟩, k)
  else
    let k ← k.dirClose record.parentDir
    return (-1, buf, k)

/-! ## Counts -/

namespace FileSys

variable (k : FileSys p)

/-- The struct at `a` has one user more, and every other as many as before. -/
def RaisedAt (a : Nat) (k' : FileSys p) : Prop :=
  k'.part.cnt = Function.update k.part.cnt a (k.part.cnt a + 1)

/-- All structs have as many users as before. -/
def SameCounts (k' : FileSys p) : Prop := k'.part.cnt = k.part.cnt

/-- One entry of `file_table` was free and is filled, for the struct at `a`. -/
def Fills (flags : UInt8) (a : Nat) (k' : FileSys p) : Prop :=
  ∃ g, (k.fileTable g).fdInode = 0 ∧
    k'.fileTable = Function.update k.fileTable g ⟨0, flags.toUInt32, a⟩

/-- A `sys_open` that succeeds raises the count of its file and no other. -/
def OpenRaisesOne (t : Nat) (pathname : List UInt8) (flags : UInt8) (heap : Grants)
    (stack : Stack) : Prop :=
  ∀ fd k', sysOpen k t pathname flags heap stack = some (fd, k') → fd ≠ -1 →
    ∃ a, k.Fills flags a k' ∧ k.RaisedAt a k'

/-- A `sys_opendir` that succeeds raises the count of its directory and no other. -/
def OpendirRaisesOne (name : List UInt8) (stack : Stack) : Prop :=
  ∀ dir k', sysOpendir k name stack = some (some dir, k') →
    k.RaisedAt (dir.inode k.rootDir) k'

end FileSys

section

variable {k k' : FileSys p} {t : Nat} {r : Int}

theorem fileCreate_refused {parentDir : DirHandle} {filename : List UInt8} {flag : UInt8}
    {heap : Grants} (hcan : ¬k.CanCreate heap)
    (h : fileCreate k t parentDir filename flag heap = some (r, k')) : r = -1 := by
  unfold fileCreate fileCreateWith at h
  by_cases hio : heap.ioBuf = true
  case neg =>
    simp only [hio, Bool.not_false, if_true, Option.pure_def, Option.some.injEq, Prod.mk.injEq] at h
    exact h.1.symm
  simp only [hio, Bool.not_true, Bool.false_eq_true, if_false, Option.bind_eq_bind,
    Option.bind_eq_some_iff, Prod.exists] at h
  obtain ⟨no, v1, halloc, h⟩ := h
  obtain ⟨n, rfl, -⟩ := inodeBitmapAlloc_spec halloc
  rw [if_neg (by omega)] at h
  by_cases hino : heap.inode = true
  case neg =>
    simp only [hino, Bool.not_false, if_true, Option.pure_def, Option.some.injEq,
      Prod.mk.injEq] at h
    exact h.1.symm
  simp only [hino, Bool.not_true, Bool.false_eq_true, if_false] at h
  cases hslot : k.getFreeSlotInGlobal with
  | none =>
    simp only [hslot, Option.pure_def, Option.some.injEq, Prod.mk.injEq] at h
    exact h.1.symm
  | some g => exact absurd ⟨hio, hino, by simp [hslot]⟩ hcan

/-- **A path of one name**: what is not a directory is found in the root directory,
and the search has not opened any other. -/
theorem searchFile_one {rootDir : Nat} {dirE : DirEntry} {s s' : Mounted p} {pathname : List UInt8}
    {n : Int} {record : PathSearchRecord} (hone : (components pathname).length = 1)
    (h : searchFile rootDir dirE s pathname = some (n, record, s'))
    (htype : record.fileType ≠ ftDirectory) : record.parentDir = .root := by
  unfold searchFile at h
  split at h
  · obtain ⟨-, rfl, -⟩ := (by simpa using h : (0 : Int) = n ∧ _ = record ∧ s = s')
    exact absurd rfl htype
  simp only [Option.bind_eq_bind, Option.bind_eq_some_iff] at h
  obtain ⟨-, -, h⟩ := h
  have hparsed := (pathParse_spec pathname).comps
  by_cases hname : (pathParse pathname).2 = []
  · rw [if_pos hname] at hparsed
    rw [hparsed] at hone
    cases hone
  rw [if_neg hname] at hparsed
  -- behind the one name there is no other
  have hlast : (parseNext (pathParse pathname).1).2 = [] := by
    cases hsub : (pathParse pathname).1 with
    | none => rfl
    | some path =>
      have hrest : components path = [] := by
        rw [hparsed, hsub] at hone
        exact List.length_eq_zero_iff.mp (by simpa using hone)
      have hnext := (pathParse_spec path).comps
      rw [hrest] at hnext
      show (pathParse path).2 = []
      by_contra hne
      rw [if_neg hne] at hnext
      cases hnext
  -- a search that has no name left ends in a directory
  have hend : ∀ {fuel subPath dir de no rec st},
      searchNames (p := p) rootDir fuel subPath [] dir de no rec st = some (n, record, s') →
      record.fileType = ftDirectory := by
    intro fuel subPath dir de no rec st hrun
    cases fuel with
    | zero => cases hrun
    | succ fuel =>
      rw [searchNames, if_pos rfl] at hrun
      simp only [searchEnd, Option.bind_eq_bind, Option.bind_eq_some_iff, Prod.exists,
        Option.pure_def, Option.some.injEq, Prod.mk.injEq] at hrun
      obtain ⟨-, -, -, -, -, -, rfl, -⟩ := hrun
      rfl
  rw [searchNames, if_neg hname] at h
  simp only [Option.bind_eq_bind, Option.bind_eq_some_iff] at h
  obtain ⟨-, -, -, -, inode, -, found, -, h⟩ := h
  cases found with
  | none =>
    simp only [Option.pure_def, Option.some.injEq, Prod.mk.injEq] at h
    obtain ⟨-, rfl, -⟩ := h
    rfl
  | some de =>
    simp only [hlast] at h
    by_cases hdir : de.fType = ftDirectory
    · simp only [if_pos hdir, Option.bind_eq_some_iff, Prod.exists] at h
      obtain ⟨_, -, _, _, -, h⟩ := h
      exact absurd (hend h) htype
    · by_cases hreg : de.fType = ftRegular
      · simp only [if_neg hdir, if_pos hreg, Option.pure_def, Option.some.injEq,
          Prod.mk.injEq] at h
        obtain ⟨-, rfl, -⟩ := h
        rfl
      · simp only [if_neg hdir, if_neg hreg] at h
        exact absurd (hend h) htype

/-! ## Call by call -/

variable (hs : Steady k.part) (hroom : ∀ b, k.part.cnt b + 4 < 2 ^ 32)

include hs

theorem sysOpen_made {pathname : List UInt8} {flags : UInt8} {heap : Grants} {part : Mounted p}
    {dir : DirHandle} {k2 : FileSys p} (hb : Borrowed k.part dir part)
    (hcreate : fileCreate { k with part } t dir pathname flags heap = some (r, k2))
    (hclose : k2.dirClose dir = some k') (hr : r ≠ -1) :
    ∃ a, k.Fills flags a k' ∧ k.RaisedAt a k' := by
  have hcan : FileSys.CanCreate { k with part } heap := by
    by_contra hcan
    exact hr (fileCreate_refused hcan hcreate)
  rcases fileCreate_made hcreate with ⟨hno, -⟩ | ⟨-, g, n, hmade⟩
  · exact absurd hcan hno
  have hfilled := hmade.filled hb.steady
  obtain ⟨part', hpart, rfl⟩ := dirClose_eq hclose
  obtain ⟨hopens, -⟩ := hb.close_opens hs hfilled.opens hpart
  exact ⟨part.brk, ⟨g, hfilled.free, hfilled.table⟩, hopens.cnt⟩

include hroom

omit hs in
/-- **A file that is there** gets its user, whatever happens to the directory. -/
theorem sysOpen_found {n : Nat} {flags : UInt8} {part : Mounted p} {dir : DirHandle}
    (hb : Borrowed k.part dir part)
    (hopen : fileOpen (FileSys.keepDir { k with part } dir) t n flags = some (r, k'))
    (hr : r ≠ -1) :
    ∃ a, k.Fills flags a k' ∧
      k'.part.cnt = Function.update part.cnt a (part.cnt a + 1) := by
  have hpart : (FileSys.keepDir { k with part } dir).part = part := by cases dir <;> rfl
  have htable : (FileSys.keepDir { k with part } dir).fileTable = k.fileTable := by
    cases dir <;> rfl
  have hsteady : Steady (FileSys.keepDir { k with part } dir).part := by
    rw [hpart]
    exact hb.steady
  have hroom' : ∀ b, (FileSys.keepDir { k with part } dir).part.cnt b + 1 < 2 ^ 32 := by
    intro b
    have := hb.room hroom b
    rw [hpart]
    omega
  rcases fileOpen_spec hsteady hroom' hopen with ⟨hnone, -⟩ | ⟨g, a, -, hfilled, -, -⟩
  · simp only [fileOpen, hnone, Option.some.injEq, Prod.mk.injEq] at hopen
    exact absurd hopen.1.symm hr
  · have hcnt := hfilled.opens.cnt
    have hfree := hfilled.free
    have htab := hfilled.table
    rw [hpart] at hcnt
    rw [htable] at hfree htab
    exact ⟨a, ⟨g, hfree, htab⟩, hcnt⟩

theorem sysOpendir_raises {name : List UInt8} {stack : Stack} {dir : DirHandle}
    (hname : name ≠ [slash]) (h : sysOpendir k name stack = some (some dir, k')) :
    k.RaisedAt (dir.inode k.rootDir) k' := by
  simp only [sysOpendir, if_neg hname, Option.bind_eq_bind, Option.bind_eq_some_iff,
    Prod.exists] at h
  obtain ⟨-, -, n, record, k1, hsearch, h⟩ := h
  obtain ⟨part, hfile, rfl⟩ := search_eq hsearch
  have hb := searchFile_borrowed hs hroom hfile
  split at h
  · simp only [Option.bind_eq_some_iff, Prod.exists, Option.pure_def, Option.some.injEq,
      Prod.mk.injEq] at h
    obtain ⟨dir', part', hopen, k2, hclose, rfl, rfl⟩ := h
    obtain ⟨a, rfl, ho, -⟩ := dirOpen_opens hb.steady
      (fun b => by have := hb.room hroom b; omega) hopen
    obtain ⟨part2, hpart, rfl⟩ := dirClose_eq hclose
    exact (hb.close_opens hs ho hpart).1.cnt
  · simp only [Option.bind_eq_some_iff, Option.pure_def, Option.some.injEq, Prod.mk.injEq] at h
    obtain ⟨-, -, hnone, -⟩ := h
    cases hnone

theorem sysStat_same {path : List UInt8} {buf buf' : Stat} {stack : Stack}
    (h : sysStat k path buf stack = some (r, buf', k')) : k.SameCounts k' := by
  unfold sysStat at h
  split at h
  · simp only [Option.bind_eq_bind, Option.bind_eq_some_iff, Option.pure_def, Option.some.injEq,
      Prod.mk.injEq] at h
    obtain ⟨-, -, -, -, rfl⟩ := h
    rfl
  simp only [Option.bind_eq_bind, Option.bind_eq_some_iff, Prod.exists] at h
  obtain ⟨n, record, k1, hsearch, h⟩ := h
  obtain ⟨part, hfile, rfl⟩ := search_eq hsearch
  have hb := searchFile_borrowed hs hroom hfile
  split at h
  · simp only [Option.bind_eq_some_iff, Prod.exists, Option.pure_def, Option.some.injEq,
      Prod.mk.injEq] at h
    obtain ⟨a, part', hopen, i, -, k2, hclose, k3, hclose', -, -, rfl⟩ := h
    obtain ⟨ho, -⟩ := inodeOpen_opens hb.steady
      (fun b => by have := hb.room hroom b; omega) hopen
    obtain ⟨-, part2, hpart2, rfl⟩ := FileSys.inodeClose_eq hclose
    obtain ⟨hc, -⟩ := inodeClose_closes ho.steady hpart2
    obtain ⟨part3, hpart3, rfl⟩ := dirClose_eq hclose'
    exact (hb.close_same hs (ho.close hb.steady hc) hpart3).1.cnt
  · simp only [Option.bind_eq_some_iff, Option.pure_def, Option.some.injEq, Prod.mk.injEq] at h
    obtain ⟨k2, hclose, -, -, rfl⟩ := h
    exact (hb.failed hs hclose).part.cnt

theorem sysChdir_same {path : List UInt8} {stack : Stack}
    (h : sysChdir k t path stack = some (r, k')) : k.SameCounts k' := by
  cases sysChdir_cases h with
  | failed n record part hfile hclose =>
    exact ((searchFile_borrowed hs hroom hfile).failed hs hclose).part.cnt
  | moved n record part hfile hn hdir hclose =>
    have hb := searchFile_borrowed hs hroom hfile
    obtain ⟨part', hpart, rfl⟩ := dirClose_eq hclose
    exact (hb.dirClose hs hpart).1.cnt

/-- **`sys_open`** raises the count of its file. Of the others, only that of the
directory the file is in may be different. -/
theorem sysOpen_counts {pathname : List UInt8} {flags : UInt8} {heap : Grants} {stack : Stack}
    (h : sysOpen k t pathname flags heap stack = some (r, k')) (hr : r ≠ -1) :
    ∃ n record part a, searchFile k.rootDir stack.dirE k.part pathname = some (n, record, part) ∧
      k.Fills flags a k' ∧
      (flags &&& oCreat ≠ 0 ∨ (components pathname).length = 1 → k.RaisedAt a k') ∧
      (a ≠ record.parentDir.inode k.rootDir → k'.part.cnt a = k.part.cnt a + 1) ∧
      ∀ b, b ≠ a → b ≠ record.parentDir.inode k.rootDir → k'.part.cnt b = k.part.cnt b := by
  -- where the count of the file is all that changes
  have hraised : ∀ {a : Nat} {d : Nat}, k.RaisedAt a k' →
      (a ≠ d → k'.part.cnt a = k.part.cnt a + 1) ∧
        ∀ b, b ≠ a → b ≠ d → k'.part.cnt b = k.part.cnt b := by
    intro a d ha
    refine ⟨fun _ => ?_, fun b hb _ => ?_⟩
    · rw [ha, Function.update_self]
    · rw [ha, Function.update_of_ne hb]
  cases sysOpen_cases h with
  | slash _ hfail => exact absurd hfail hr
  | failed n record part hfile hclose hfail => exact absurd hfail hr
  | created record part k2 hlast hfile hflags hdir hdepth hcreate hclose =>
    have hb := searchFile_borrowed hs hroom hfile
    obtain ⟨a, hfills, ha⟩ := sysOpen_made hs hb hcreate hclose hr
    exact ⟨-1, record, part, a, hfile, hfills, fun _ => ha, hraised ha⟩
  | opened n record part hlast hfile hn hflags hdir hdepth hopen =>
    have hb := searchFile_borrowed hs hroom hfile
    obtain ⟨a, hfills, hcnt⟩ := sysOpen_found hroom hb hopen hr
    have hroot : record.parentDir = .root → k.RaisedAt a k' := by
      intro hroot
      rw [FileSys.RaisedAt, hcnt, (hb.root hroot).cnt]
    refine ⟨n, record, part, a, hfile, hfills, fun hcase => ?_, ?_⟩
    · exact hroot (searchFile_one (hcase.resolve_left fun hne => hne hflags) hfile hdir)
    · cases hparent : record.parentDir with
      | root => exact hraised (hroot hparent)
      | opened d =>
        obtain ⟨m, ho⟩ := hb.opened d hparent
        show (a ≠ d → _) ∧ ∀ b, b ≠ a → b ≠ d → _
        refine ⟨fun had => ?_, fun b hba hbd => ?_⟩
        · rw [hcnt, Function.update_self, ho.cnt, Function.update_of_ne had]
        · rw [hcnt, Function.update_of_ne hba, ho.cnt, Function.update_of_ne hbd]

end

/-! ## All of them -/

/-- **What the calls on paths do to the counts.** `sys_open` raises that of the file
it makes, or of the file it finds, and no other, but for the directory of a file
that is below the root; `sys_opendir` raises that of the directory, unless that is
`/`, which it returns as it is; and the others leave all counts alone. -/
theorem open_counts_conserved (k : FileSys p) (hs : Steady k.part)
    (hroom : ∀ b, k.part.cnt b + 4 < 2 ^ 32) :
    (∀ t pathname flags heap stack, flags &&& oCreat ≠ 0 ∨ (components pathname).length = 1 →
      k.OpenRaisesOne t pathname flags heap stack) ∧
    (∀ t pathname flags heap stack fd k',
      sysOpen k t pathname flags heap stack = some (fd, k') → fd ≠ -1 →
      ∃ n record part a,
        searchFile k.rootDir stack.dirE k.part pathname = some (n, record, part) ∧
        k.Fills flags a k' ∧
        (a ≠ record.parentDir.inode k.rootDir → k'.part.cnt a = k.part.cnt a + 1) ∧
        ∀ b, b ≠ a → b ≠ record.parentDir.inode k.rootDir → k'.part.cnt b = k.part.cnt b) ∧
    (∀ name stack, name ≠ [slash] → k.OpendirRaisesOne name stack) ∧
    (∀ stack, sysOpendir k [slash] stack = some (some .root, k)) ∧
    (∀ path buf stack r buf' k', sysStat k path buf stack = some (r, buf', k') →
      k.SameCounts k') ∧
    (∀ t path stack r k', sysChdir k t path stack = some (r, k') → k.SameCounts k') ∧
    (∀ pathname heap stack r k', sysMkdir k pathname heap stack = some (r, k') →
      k.SameCounts k') ∧
    (∀ pathname heap stack r k', sysUnlink k pathname heap stack = some (r, k') →
      k.SameCounts k') ∧
    ∀ pathname heap stack r k', sysRmdir k pathname heap stack = some (r, k') →
      k.SameCounts k' := by
  refine ⟨?_, ?_, ?_, fun _ => rfl, ?_, ?_, ?_, ?_, ?_⟩
  · intro t pathname flags heap stack hcase fd k' h hfd
    obtain ⟨n, record, part, a, -, hfills, hone, -⟩ := sysOpen_counts hs hroom h hfd
    exact ⟨a, hfills, hone hcase⟩
  · intro t pathname flags heap stack fd k' h hfd
    obtain ⟨n, record, part, a, hfile, hfills, -, hrest⟩ := sysOpen_counts hs hroom h hfd
    exact ⟨n, record, part, a, hfile, hfills, hrest⟩
  · intro name stack hname dir k' h
    exact sysOpendir_raises hs hroom hname h
  · intro path buf stack r buf' k' h
    exact sysStat_same hs hroom h
  · intro t path stack r k' h
    exact sysChdir_same hs hroom h
  · intro pathname heap stack r k' h
    obtain ⟨bits, hq, -⟩ := sysMkdir_quiet hs hroom h
    exact hq.part.cnt
  · intro pathname heap stack r k' h
    rcases sysUnlink_quiet hs hroom h with hq | ⟨_, _, _, -, -, -, -, -, hq⟩
    · exact hq.part.cnt
    · exact hq.part.cnt
  · intro pathname heap stack r k' h
    rcases sysRmdir_quiet hs hroom h with hq | ⟨_, _, _, _, _, _, -, -, -, -, -, -, -, hq⟩
    · exact hq.part.cnt
    · exact hq.part.cnt

theorem small_room (b : Nat) : smallSys.part.cnt b + 4 < 2 ^ 32 := by
  rw [Mounted.cnt, small_inodeAt]
  split <;> decide

/-- The file of the small tree is opened. -/
theorem open_counts_conserved_small :
    ∃ k', sysOpen smallSys 1 pathAA 0 ⟨true, true⟩ noStack = some (3, k') ∧
      ∃ a, smallSys.Fills 0 a k' ∧ smallSys.RaisedAt a k' := by
  have hsome : (sysOpen smallSys 1 pathAA 0 ⟨true, true⟩ noStack).map (·.1) = some 3 := by
    decide +kernel
  obtain ⟨⟨fd, k'⟩, hopen, hfd⟩ := Option.map_eq_some_iff.mp hsome
  obtain rfl : fd = 3 := hfd
  have hall := (open_counts_conserved smallSys small_steady small_room).1
  exact ⟨k', hopen, hall 1 pathAA 0 ⟨true, true⟩ noStack (Or.inr (by decide)) 3 k' hopen (by decide)⟩

/-- `/a/b`. -/
def pathab : List UInt8 := [47, 97, 47, 98]

/-- `/a/b` is made, in a new directory, and closed. -/
def makeab : List FsOp :=
  [.sysMkdir patha ⟨true, true⟩ noStack, .sysOpen 0 pathab oCreat ⟨true, true⟩ noStack,
    .sysClose 0 3]

/-- **The directory stays open.** `/a/b` is opened, and both the file and `/a` have
one user more; and `sys_opendir("/")` raises nothing. -/
theorem open_keeps_parent :
    (∃ k, (numberMachine blankPartition).Reachable k ∧
      ¬k.OpenRaisesOne 0 pathab 0 ⟨true, true⟩ noStack) ∧
    ¬smallSys.OpendirRaisesOne [slash] noStack := by
  constructor
  · have hsome : ((numberMachine blankPartition).follow (fun _ _ => True) smallSys makeab).map
        (fun k => (k.part.cnt 4, k.part.cnt 5, (sysOpen k 0 pathab 0 ⟨true, true⟩ noStack).map
          fun r => (r.1, r.2.part.cnt 4, r.2.part.cnt 5))) =
        some (0, 0, some (3, 1, 1)) := by decide +kernel
    obtain ⟨k, hk, he⟩ := Option.map_eq_some_iff.mp hsome
    simp only [Prod.mk.injEq] at he
    obtain ⟨h4, h5, hopen⟩ := he
    obtain ⟨⟨fd, k'⟩, hopen, he⟩ := Option.map_eq_some_iff.mp hopen
    simp only [Prod.mk.injEq] at he
    obtain ⟨rfl, h4', h5'⟩ := he
    refine ⟨k, Machine.reach_of_follow (Machine.Reach.start small_booted) hk, fun hall => ?_⟩
    obtain ⟨a, -, ha⟩ := hall 3 k' hopen (by decide)
    -- a struct whose count has changed is the file's
    have honly : ∀ b, k'.part.cnt b ≠ k.part.cnt b → b = a := by
      intro b hb
      by_contra hne
      rw [ha, Function.update_of_ne hne] at hb
      exact hb rfl
    have h4a := honly 4 (by rw [h4, h4']; decide)
    have h5a := honly 5 (by rw [h5, h5']; decide)
    omega
  · intro hall
    have hroot := hall .root smallSys rfl
    have hcnt := congrFun hroot 1
    rw [show (DirHandle.root.inode smallSys.rootDir) = 1 from rfl, Function.update_self] at hcnt
    omega

end OsCore.Fs
