import OsCore.Fs.Cwd
import OsCore.Fs.FailedWrite
import OsCore.Fs.InodePool
import OsCore.Fs.WriteThrough

/-!
# What a failed `sys_mkdir` leaves behind

`sys_mkdir` has a rollback, a `switch` whose cases fall through: case 2 gives the
inode number back, case 1 closes the parent directory. There is no case for the
block that was taken for `.` and `..`, and step 2 is what both later failures are
numbered: the refusal of that block, where nothing more is to be undone, and the
failure of `sync_dir_entry`, where the block stays marked.

The other steps do undo what they should. The inode number goes back to a map
that is what it was bit for bit (`setInode_undo`), and the search and the close of
the parent leave the open inodes as they were. What `sync_dir_entry` does when it
fails is of no consequence here: the block for the dots is lost by then.
-/

namespace OsCore

/-- A bitmap is its length and its bits. -/
theorem Bitmap.eq_of_bit {b c : Bitmap} (hlen : c.bytesLen = b.bytesLen)
    (h : ∀ i, c.bit i = b.bit i) : c = b := by
  obtain ⟨n, m⟩ := b
  obtain ⟨n', m'⟩ := c
  obtain rfl : n' = n := hlen
  congr 1
  funext j
  refine UInt8.toNat_inj.mp (Nat.eq_of_testBit_eq fun k => ?_)
  by_cases hk : k < 8
  · have hbit := h (8 * j + k)
    unfold bit at hbit
    dsimp only at hbit
    rwa [show (8 * j + k) / 8 = j by omega, show (8 * j + k) % 8 = k by omega] at hbit
  · have hbig : ∀ x : UInt8, x.toNat.testBit k = false := fun x => by
      have hlt := x.toNat_lt
      have hpow : 2 ^ 8 ≤ 2 ^ k := Nat.pow_le_pow_right (by decide) (by omega)
      exact Nat.testBit_lt_two_pow (by omega)
    rw [hbig, hbig]

namespace Fs

variable {p : Partition}

/-! ## What is undone -/

/-- `inode_bitmap_alloc`, finding nothing in the states marked `full`. -/
def inodeOr (full : Vol p → Bool) (v : Vol p) : Option (Int × Vol p) :=
  if full v then some (-1, v) else inodeBitmapAlloc v

/-- An inode number refused, or taken as the scan finds it. -/
theorem inodeOr_cases {full : Vol p → Bool} {v v' : Vol p} {r : Int}
    (h : inodeOr full v = some (r, v')) :
    (full v = true ∧ r = -1 ∧ v' = v) ∨
      full v = false ∧ ∃ n : Nat, r = n ∧ v.inodeBitmap.bit n = false ∧ v' = v.setInode n true := by
  unfold inodeOr at h
  cases hfull : full v with
  | true =>
    rw [hfull, if_pos rfl, Option.some.injEq, Prod.mk.injEq] at h
    exact Or.inl ⟨rfl, h.1.symm, h.2.symm⟩
  | false =>
    rw [hfull, if_neg (by decide)] at h
    obtain ⟨n, hr, -, hfree, -, hv⟩ := inodeBitmapAlloc_spec h
    exact Or.inr ⟨rfl, n, hr, hfree, hv⟩

/-- **A number taken and given back** leaves the volume as it was. -/
theorem setInode_undo {v : Vol p} {n : Nat} (h : v.inodeBitmap.bit n = false) :
    (v.setInode n true).setInode n false = v := by
  have hmap : ((v.setInode n true).setInode n false).inodeBitmap = v.inodeBitmap :=
    Bitmap.eq_of_bit rfl fun i => congrFun (bit_setInode_back h) i
  obtain ⟨d, b, i, hb, hi⟩ := v
  unfold Vol.setInode at hmap ⊢
  dsimp only at hmap ⊢
  congr 1

/-- The struct written over with itself. -/
theorem modifyInode_same {s : Mounted p} (hs : (s.openInodes.map (·.1)).Nodup) {a : Nat}
    {i : Inode} (hat : s.inodeAt a = some i) : (s.modifyInode a fun _ => i) = s := by
  obtain ⟨vol, l, brk⟩ := s
  unfold Mounted.modifyInode
  congr 1
  refine (List.map_congr_left fun e he => ?_).trans (List.map_id _)
  by_cases hea : e.1 = a
  · obtain rfl := hea
    have hei : Mounted.inodeAt ⟨vol, l, brk⟩ e.1 = some e.2 := Mounted.lookup_of_mem hs he
    rw [hat] at hei
    rw [if_pos rfl, Option.some.inj hei]
    rfl
  · rw [if_neg hea]
    rfl

/-- An open directory has a new struct, or one user more of an old one. -/
theorem dirOpen_cases {s st : Mounted p} (hs : Steady s) {b m : Nat} {dir : DirHandle}
    (h : dirOpen { s with brk := b } m = some (dir, st)) :
    (∃ i, i.iOpenCnts = 1 ∧ dir = .opened b ∧
        st = { s with openInodes := (b, i) :: s.openInodes, brk := b + 1 }) ∨
      ∃ a i, s.inodeAt a = some i ∧ dir = .opened a ∧
        st = Mounted.modifyInode { s with brk := b } a
          fun i => i.setOpenCnts (i.iOpenCnts.toNat + 1) := by
  simp only [dirOpen, Option.bind_eq_bind, Option.bind_eq_some_iff, Prod.exists, Option.pure_def,
    Option.some.injEq, Prod.mk.injEq] at h
  obtain ⟨a, st', hopen, rfl, rfl⟩ := h
  cases hfind : s.openInodes.find? fun e => e.2.no == m with
  | none =>
    have hmiss : Mounted.Misses { s with brk := b } m := fun e he => by
      simpa using List.find?_eq_none.mp hfind e he
    have hopen' := inodeOpen_miss (inodeOpen_lt hmiss hopen) hmiss
    obtain ⟨rfl, rfl⟩ := Prod.mk.inj (Option.some.inj (hopen.symm.trans hopen'))
    exact Or.inl ⟨_, UInt32.toNat_inj.mp (setOpenCnts_toNat _ 1), rfl, rfl⟩
  | some e =>
    obtain ⟨a0, i0⟩ := e
    rw [inodeOpen, hfind] at hopen
    obtain ⟨rfl, rfl⟩ := Prod.mk.inj (Option.some.inj hopen)
    exact Or.inr ⟨a0, i0, hs.inodeAt_of_mem (List.mem_of_find?_eq_some hfind), rfl, rfl⟩

/-- An open gives a struct an address of its own. -/
theorem dirOpen_nodup {s st : Mounted p} (hs : Steady s) {b m : Nat} (hb : s.brk ≤ b)
    {dir : DirHandle} (h : dirOpen { s with brk := b } m = some (dir, st)) :
    (st.openInodes.map (·.1)).Nodup := by
  rcases dirOpen_cases hs h with ⟨i, -, -, rfl⟩ | ⟨a, i, -, -, rfl⟩
  · rw [List.map_cons, List.nodup_cons]
    refine ⟨fun hmem => ?_, hs.nodup⟩
    obtain ⟨e, he, heq⟩ := List.mem_map.mp hmem
    have hlt := hs.below e he
    dsimp only at heq
    omega
  · rw [Mounted.map_modifyInode]
    exact hs.nodup

theorem searchFile_nodup {s part : Mounted p} (hs : Steady s) {rootDir : Nat} {dirE : DirEntry}
    {path : List UInt8} {n : Int} {record : PathSearchRecord}
    (h : searchFile rootDir dirE s path = some (n, record, part)) :
    (part.openInodes.map (·.1)).Nodup := by
  rcases searchFile_opened hs h with ⟨-, b, -, rfl⟩ | ⟨m, b, hb, hopen⟩
  · exact hs.nodup
  · exact dirOpen_nodup hs hb hopen

/-! ## An entry that is not stored -/

/-- The branch for a missing block keeps what is marked, also where it gives its
table back. -/
theorem addBlock_keeps {full : Vol p → Bool} {pDe : DirEntry} {k : Nat} {v v' : Vol p}
    {ino ino' : Inode} {blocks blocks' : Nat → Nat} {ok : Bool}
    (h : addBlock (allocOr full) pDe k v ino blocks = some (ok, v', ino', blocks')) {b : Nat}
    (hb : v.Used b) : v'.Used b := by
  unfold addBlock at h
  cases hfull : full v with
  | true =>
    simp only [allocOr_full hfull, Option.bind_eq_bind, Option.bind_some, if_true,
      Option.pure_def, Option.some.injEq, Prod.mk.injEq] at h
    obtain ⟨-, rfl, -, -⟩ := h
    exact hb
  | false =>
    simp only [allocOr_grants hfull, Option.bind_eq_bind, Option.bind_eq_some_iff,
      Prod.exists] at h
    obtain ⟨lba, v1, halloc, h⟩ := h
    obtain ⟨hne, hfresh, hgrow, -, hidx, -⟩ := alloc_spec halloc
    rw [if_neg hne] at h
    simp only [Option.bind_eq_some_iff, Prod.exists] at h
    obtain ⟨v2, hsync, ok1, v3, ino3, blocks3, hmid, h⟩ := h
    have hb2 : v2.Used b := (sync_grow hidx hsync).1.mono b (hgrow.mono b hb)
    have hb3 : v3.Used b := by
      by_cases h12 : k < 12
      · rw [if_pos h12, Option.some.injEq, Prod.mk.injEq, Prod.mk.injEq] at hmid
        rw [← hmid.2.1]
        exact hb2
      by_cases he : k = 12
      · rw [if_neg h12, if_pos he] at hmid
        obtain ⟨⟨lba2, v4⟩, halloc2, hmid⟩ := Option.bind_eq_some_iff.mp hmid
        unfold allocOr at halloc2
        split at halloc2
        · -- the table goes back, and `b` is not the table
          obtain ⟨rfl, rfl⟩ := Prod.mk.inj (Option.some.inj halloc2)
          simp only [if_true, Option.pure_def, Option.some.injEq, Prod.mk.injEq] at hmid
          rw [← hmid.2.1, Inode.sec_setSec (by decide) (by have := hfresh.word; omega),
            if_pos rfl, blockBit_eq hfresh.data hidx, Vol.setBlock_used hidx, if_neg]
          · exact hb2
          · intro heq
            have hdata := hfresh.data
            rw [show b = lba.toNat by omega] at hb
            exact hfresh.free hb
        · obtain ⟨hne2, -, hgrow2, -, hidx2, -⟩ := alloc_spec halloc2
          rw [if_neg hne2] at hmid
          simp only [Option.bind_eq_some_iff, Option.pure_def, Option.some.injEq,
            Prod.mk.injEq] at hmid
          obtain ⟨v5, hsync2, d, -, -, rfl, -⟩ := hmid
          exact (sync_grow hidx2 hsync2).1.mono b (hgrow2.mono b hb2)
      · rw [if_neg h12, if_neg he] at hmid
        simp only [Option.bind_eq_some_iff, Option.pure_def, Option.some.injEq,
          Prod.mk.injEq] at hmid
        obtain ⟨d, -, -, rfl, -⟩ := hmid
        exact hb2
    cases ok1 with
    | false =>
      simp only [Bool.not_false, if_true, Option.pure_def, Option.some.injEq, Prod.mk.injEq] at h
      rw [← h.2.1]
      exact hb3
    | true =>
      simp only [Bool.not_true, Bool.false_eq_true, if_false, Option.bind_eq_some_iff,
        Option.pure_def, Option.some.injEq, Prod.mk.injEq] at h
      obtain ⟨d, -, -, rfl, -⟩ := h
      exact hb3

theorem syncLoop_keeps {full : Vol p → Bool} {pDe : DirEntry} : ∀ {n k : Nat} {v v' : Vol p}
    {ino ino' : Inode} {blocks : Nat → Nat} {ok : Bool},
    syncLoop (allocOr full) pDe n k v ino blocks = some (ok, v', ino') →
    ∀ b, v.Used b → v'.Used b := by
  intro n
  induction n with
  | zero =>
    intro k v v' ino ino' blocks ok h b hb
    simp only [syncLoop, Option.some.injEq, Prod.mk.injEq] at h
    rw [← h.2.1]
    exact hb
  | succ n ih =>
    intro k v v' ino ino' blocks ok h b hb
    unfold syncLoop at h
    simp only [Option.bind_eq_bind, Option.bind_eq_some_iff, Prod.exists] at h
    obtain ⟨ok1, v1, ino1, blocks1, hadd, h⟩ := h
    have hb1 : v1.Used b := by
      by_cases hz : blocks k = 0
      · rw [if_pos hz] at hadd
        exact addBlock_keeps hadd hb
      · rw [if_neg hz, Option.some.injEq, Prod.mk.injEq, Prod.mk.injEq] at hadd
        rw [← hadd.2.1]
        exact hb
    cases ok1 with
    | false =>
      simp only [Bool.not_false, if_true, Option.pure_def, Option.some.injEq, Prod.mk.injEq] at h
      rw [← h.2.1]
      exact hb1
    | true =>
      simp only [Bool.not_true, Bool.false_eq_true, if_false, Option.bind_eq_some_iff] at h
      obtain ⟨ioBuf, -, h⟩ := h
      cases hslot : freeSlot ioBuf with
      | some e =>
        rw [hslot] at h
        simp only [Option.bind_eq_some_iff, Option.pure_def, Option.some.injEq,
          Prod.mk.injEq] at h
        obtain ⟨d, -, -, rfl, -⟩ := h
        exact hb1
      | none =>
        rw [hslot] at h
        exact ih h b hb1

theorem syncDirEntry_keeps {full : Vol p → Bool} {pDe : DirEntry} {v v' : Vol p}
    {ino ino' : Inode} {ok : Bool}
    (h : syncDirEntryWith (allocOr full) v ino pDe = some (ok, v', ino')) :
    ∀ b, v.Used b → v'.Used b := by
  unfold syncDirEntryWith at h
  obtain ⟨_, -, h⟩ := Option.bind_eq_some_iff.mp h
  exact syncLoop_keeps h

/-- From the inode number on: the block for the dots is refused, or it is taken
and stays. -/
theorem makeDir_refused {full : Vol p → Bool} {v v' : Vol p} {parent parent' : Inode}
    {dirname : List UInt8} {n : Nat}
    (h : makeDirWith (allocOr full) v parent dirname n = some (false, v', parent')) :
    (full v = true ∧ v' = v.setInode n false ∧ parent' = parent) ∨
      full v = false ∧ ∃ b, ¬v.Used b ∧ v'.Used b := by
  unfold makeDirWith at h
  cases hfull : full v with
  | true =>
    simp only [allocOr_full hfull, Option.bind_eq_bind, Option.bind_some, if_true,
      Option.pure_def, Option.some.injEq, Prod.mk.injEq, true_and] at h
    exact Or.inl ⟨rfl, h.1.symm, h.2.symm⟩
  | false =>
    simp only [allocOr_grants hfull, Option.bind_eq_bind, Option.bind_eq_some_iff,
      Prod.exists] at h
    obtain ⟨lba, v1, halloc, h⟩ := h
    obtain ⟨hne, hfresh, -, -, hidx, -⟩ := alloc_spec halloc
    rw [if_neg hne] at h
    simp only [Option.bind_eq_some_iff, Prod.exists] at h
    obtain ⟨-, -, v2, hsync, ioBuf, -, d, -, e, -, ok, v3, parent2, hentry, h⟩ := h
    rw [blockBit_eq hfresh.data hidx] at hsync
    have hused : v3.Used lba.toNat :=
      syncDirEntry_keeps hentry _ ((sync_grow hidx hsync).1.mono _ hfresh.used)
    cases ok with
    | false =>
      simp only [Bool.not_false, if_true, Option.pure_def, Option.some.injEq, Prod.mk.injEq,
        true_and] at h
      refine Or.inr ⟨rfl, lba.toNat, hfresh.free, ?_⟩
      rw [← h.1]
      exact hused
    | true =>
      simp only [Bool.not_true, Bool.false_eq_true, if_false, Option.bind_eq_some_iff,
        Option.pure_def, Option.some.injEq, Prod.mk.injEq, Bool.true_eq_false, false_and,
        and_false, exists_false] at h

/-! ## The failed call -/

/-- The bitmaps, in memory and on disk, the directories and the open inodes are
what they were. Of the disk everything counts but the contents of free blocks. -/
structure Unmade (k k' : FileSys p) : Prop where
  blocks : k'.part.vol.blockBitmap = k.part.vol.blockBitmap
  inodes : k'.part.vol.inodeBitmap = k.part.vol.inodeBitmap
  disk : ∀ a, (∀ b, a / 512 = p.dataStartLba + b → k.part.vol.Used b) →
    k'.part.vol.disk a = k.part.vol.disk a
  structs : k'.part.openInodes = k.part.openInodes

/-- What keeps `sys_mkdir` from taking a block: no buffer, a path that is there
already or leads nowhere, no inode number, or no block for the dots. -/
def MkdirStops (fullI fullB : Vol p → Bool) (k : FileSys p) (pathname : List UInt8)
    (heap : Grants) (stack : Stack) : Prop :=
  heap.ioBuf = false ∨
    (∃ n record part, searchFile k.rootDir stack.dirE k.part pathname = some (n, record, part) ∧
      (n ≠ -1 ∨
        pathDepthCnt stack.name pathname ≠ pathDepthCnt stack.name' record.searchedPath)) ∨
    fullI k.part.vol = true ∨
    ∃ n v, inodeBitmapAlloc k.part.vol = some (n, v) ∧ fullB v = true

/-- **A failed `sys_mkdir` changes nothing** exactly when it had not got a block
for the new directory. -/
theorem failed_mkdir_unchanged {k k' : FileSys p} (hs : Steady k.part)
    (husers : ∀ a ∈ k.userInodes, a < k.part.brk) (fullI fullB : Vol p → Bool)
    {pathname : List UInt8} {heap : Grants} {stack : Stack}
    (h : sysMkdirWith (inodeOr fullI) (allocOr fullB) k pathname heap stack = some (-1, k')) :
    Unmade k k' ↔ MkdirStops fullI fullB k pathname heap stack := by
  unfold sysMkdirWith at h
  cases hbuf : heap.ioBuf with
  | false =>
    simp only [hbuf, Bool.not_false, if_true, Option.pure_def, Option.some.injEq,
      Prod.mk.injEq, true_and] at h
    subst h
    exact ⟨fun _ => Or.inl hbuf, fun _ => ⟨rfl, rfl, fun _ _ => rfl, rfl⟩⟩
  | true =>
  simp only [hbuf, Bool.not_true, Bool.false_eq_true, if_false, Option.bind_eq_bind,
    Option.bind_eq_some_iff, Prod.exists] at h
  obtain ⟨n, record, k1, hsearch, h⟩ := h
  obtain ⟨part, hfile, rfl⟩ := search_eq hsearch
  obtain ⟨b, -, hclose⟩ := searchFile_closes hs husers hfile k.pcb
  have hvol : part.vol = k.part.vol := (dirClose_vol hclose).symm
  -- what closes the directory of the record has undone the search
  have hundone : ∀ k2, FileSys.dirClose { k with part } record.parentDir = some k2 →
      Unmade k k2 := by
    intro k2 h2
    obtain rfl := Option.some.inj (h2.symm.trans hclose)
    exact ⟨rfl, rfl, fun _ _ => rfl, rfl⟩
  by_cases hnew : n ≠ -1
  · rw [if_pos hnew] at h
    exact ⟨fun _ => Or.inr (Or.inl ⟨n, record, part, hfile, Or.inl hnew⟩),
      fun _ => hundone _ (failed_eq h)⟩
  rw [if_neg hnew] at h
  obtain ⟨depth, hd, h⟩ := Option.bind_eq_some_iff.mp h
  obtain ⟨depth', hd', h⟩ := Option.bind_eq_some_iff.mp h
  by_cases hdepth : depth ≠ depth'
  · rw [if_pos hdepth] at h
    refine ⟨fun _ => Or.inr (Or.inl ⟨n, record, part, hfile, Or.inr ?_⟩),
      fun _ => hundone _ (failed_eq h)⟩
    rw [hd, hd']
    exact fun heq => hdepth (Option.some.inj heq)
  rw [if_neg hdepth] at h
  obtain ⟨_, -, h⟩ := Option.bind_eq_some_iff.mp h
  obtain ⟨⟨no, v1⟩, halloc, h⟩ := Option.bind_eq_some_iff.mp h
  dsimp only at halloc h
  rw [hvol] at halloc
  rcases inodeOr_cases halloc with ⟨hfullI, rfl, rfl⟩ | ⟨hfullI, m, rfl, hfree, rfl⟩
  · -- no inode number
    rw [if_pos rfl] at h
    obtain ⟨k2, h2, heq⟩ := Option.bind_eq_some_iff.mp h
    obtain ⟨-, rfl⟩ := Prod.mk.inj (Option.some.inj heq)
    refine ⟨fun _ => Or.inr (Or.inr (Or.inl hfullI)), fun _ => hundone _ ?_⟩
    rw [← hvol] at h2
    exact h2
  rw [if_neg (by omega)] at h
  obtain ⟨parent, hparent, h⟩ := Option.bind_eq_some_iff.mp h
  obtain ⟨⟨ok, vol, parent'⟩, hmake, h⟩ := Option.bind_eq_some_iff.mp h
  obtain ⟨k2, h2, heq⟩ := Option.bind_eq_some_iff.mp h
  obtain ⟨hr, rfl⟩ := Prod.mk.inj (Option.some.inj heq)
  have hscan : inodeBitmapAlloc k.part.vol = some ((m : Int), k.part.vol.setInode m true) := by
    unfold inodeOr at halloc
    rwa [hfullI, if_neg (by decide)] at halloc
  cases ok with
  | true => simp at hr
  | false =>
    rw [Int.toNat_natCast] at hmake
    rcases makeDir_refused hmake with ⟨hfullB, rfl, rfl⟩ | ⟨hfullB, b, hfresh, hused⟩
    · -- no block for the dots
      refine ⟨fun _ => Or.inr (Or.inr (Or.inr ⟨m, _, hscan, hfullB⟩)), fun _ => hundone _ ?_⟩
      rw [setInode_undo hfree, ← hvol] at h2
      rw [← h2]
      congr 1
      exact congrArg (fun s => { k with part := s })
        (modifyInode_same (searchFile_nodup hs hfile) hparent).symm
    · -- the block for the dots stays
      refine ⟨fun hu => ?_, fun hstops => ?_⟩
      · refine absurd ?_ hfresh
        have hblocks := hu.blocks
        rw [dirClose_vol h2] at hblocks
        unfold Vol.Used at hused ⊢
        rw [show (k.part.vol.setInode m true).blockBitmap = k.part.vol.blockBitmap from rfl,
          ← hblocks]
        exact hused
      · rcases hstops with hio | ⟨n', record', part', hfile', hbad⟩ | hfull | ⟨n', v, hscan', hfull⟩
        · rw [hbuf] at hio
          cases hio
        · obtain ⟨rfl, rfl, rfl⟩ : n = n' ∧ record = record' ∧ part = part' := by
            simpa using hfile.symm.trans hfile'
          rcases hbad with hbad | hbad
          · exact absurd hbad hnew
          · rw [hd, hd'] at hbad
            exact absurd (fun heq => hbad (congrArg some heq)) hdepth
        · rw [hfullI] at hfull
          cases hfull
        · obtain ⟨-, rfl⟩ : (m : Int) = n' ∧ _ = v := by
            simpa using hscan.symm.trans hscan'
          rw [hfullB] at hfull
          cases hfull

/-! ## A directory in need of a second block -/

/-- A root directory of one block with an entry in each slot: the names after the
dots are one letter. -/
def crowdedEntry (e : Nat) : DirEntry :=
  if e < 2 then dotEntry (e + 1)
  else ⟨fun k => if k.val = 0 then UInt8.ofNat (95 + e) else 0, UInt32.ofNat (e - 1), ftRegular⟩

def crowdedSys : FileSys blankPartition :=
  { smallSys with
    part :=
      { smallSys.part with
        vol :=
          { smallSys.part.vol with
            disk := fun a =>
              if a / 512 = 612 ∧ a % 512 < 504 then
                (crowdedEntry (a % 512 / 24)).bytes (a % 512 % 24)
              else 0 }
        openInodes := [(1, (rootInode.setSize 504).setOpenCnts 1)] } }

theorem crowded_steady : Steady crowdedSys.part := by
  refine ⟨fun e he => ?_, by decide, fun e he => ?_⟩
  · rw [List.mem_singleton.mp he]
    decide
  · rw [List.mem_singleton.mp he]
    decide

theorem failed_mkdir_unchanged_no_inode :
    ∃ k', sysMkdirWith (inodeOr fun _ => true) (allocOr fullAfterOne) crowdedSys pathB
        ⟨true, true⟩ noStack = some (-1, k') ∧
      (Unmade crowdedSys k' ↔
        MkdirStops (fun _ => true) fullAfterOne crowdedSys pathB ⟨true, true⟩ noStack) := by
  have hrun : (sysMkdirWith (inodeOr fun _ => true) (allocOr fullAfterOne) crowdedSys pathB
      ⟨true, true⟩ noStack).map (·.1) = some (-1) := by decide +kernel
  obtain ⟨⟨r, k'⟩, hrun, rfl⟩ := Option.map_eq_some_iff.mp hrun
  exact ⟨k', hrun, failed_mkdir_unchanged crowded_steady (by simp [crowdedSys, smallSys]) _ _ hrun⟩

/-- `mkdir /B` gets a block for the dots and none for the directory to grow by. -/
theorem failed_mkdir_keeps_a_block :
    ∃ k', sysMkdirWith (inodeOr fun _ => false) (allocOr fullAfterOne) crowdedSys pathB
        ⟨true, true⟩ noStack = some (-1, k') ∧
      crowdedSys.part.vol.blockBitmap.bit 1 = false ∧ k'.part.vol.blockBitmap.bit 1 = true ∧
      ¬Unmade crowdedSys k' := by
  have hrun : (sysMkdirWith (inodeOr fun _ => false) (allocOr fullAfterOne) crowdedSys pathB
      ⟨true, true⟩ noStack).map (fun r => (r.1, r.2.part.vol.blockBitmap.bit 1)) =
        some (-1, true) := by decide +kernel
  obtain ⟨⟨r, k'⟩, hrun, hval⟩ := Option.map_eq_some_iff.mp hrun
  obtain ⟨rfl, hbit⟩ := Prod.mk.inj hval
  have hfree : crowdedSys.part.vol.blockBitmap.bit 1 = false := by decide +kernel
  refine ⟨k', hrun, hfree, hbit, fun hu => ?_⟩
  rw [hu.blocks, hfree] at hbit
  cases hbit

end Fs
end OsCore
