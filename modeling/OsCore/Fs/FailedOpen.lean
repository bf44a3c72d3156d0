import OsCore.Fs.FailedMkdir
import OsCore.Fs.SharedFiles

/-!
# What a failed `sys_open` leaves behind

A failed call has taken its resources in a fixed order: the inode number, the
struct, an entry of `file_table`, a place in the directory, the open list, a
descriptor. `file_create` numbers its rollback along that order and, as far as it
goes, it undoes what was done; but the memory of the entry is cleared and not
restored, and `pcb_fd_install`, the last step, is not among the numbered ones: by
then the file is in the directory, and it stays there. `file_open` has no rollback
at all. It leaves the entry it has filled, and with it the user it has put on the
inode, and `sys_open` never closes the directory it has searched.

`sync_dir_entry` is followed to the one place where a request of its can fail: the
first missing block of the directory behind full ones (`syncLoop_refused`). When
that is the thirteenth, a table is asked for first. If the block is refused then,
the table goes back and `i_sectors[12]` is cleared, also when another table was
entered there; whether that matters depends on who else has the directory open
(`closed_parent`).
-/

namespace OsCore.Fs

variable {p : Partition}

/-! ## An entry that finds no block -/

/-- The maps as they were, and the disk but for the sectors of the block map. -/
structure Untouched (v v' : Vol p) : Prop where
  blocks : v'.blockBitmap = v.blockBitmap
  inodes : v'.inodeBitmap = v.inodeBitmap
  disk : ∀ a, a < 512 * p.blockBitmapLba ∨ 512 * p.inodeBitmapLba ≤ a → v'.disk a = v.disk a

theorem Untouched.refl (v : Vol p) : Untouched v v := ⟨rfl, rfl, fun _ _ => rfl⟩

/-- And an inode number that was taken before is given back. -/
theorem Untouched.setInode_undo {v v' : Vol p} {n : Nat} (h : Untouched (v.setInode n true) v')
    (hfree : v.inodeBitmap.bit n = false) : Untouched v (v'.setInode n false) := by
  refine ⟨h.blocks, ?_, h.disk⟩
  show v'.inodeBitmap.bitmapSet n false = v.inodeBitmap
  rw [h.inodes]
  exact congrArg Vol.inodeBitmap (Fs.setInode_undo hfree)

/-- The table is granted and the block to go with it is not. -/
def NoSecond (full : Vol p → Bool) (v : Vol p) : Prop :=
  ∃ lba v1 v2, blockBitmapAlloc v = some (lba, v1) ∧
    bitmapSync v1 (lba.toNat - p.dataStartLba) .blockBitmap = some v2 ∧ full v2 = true

/-- The first missing block of the directory is behind full ones and is refused.
`lone` says that a table entered in the inode does not count. -/
def NoRoom (full : Vol p → Bool) (lone : Prop) (v : Vol p) (ino : Inode) : Prop :=
  ∃ k, k ≤ 12 ∧ FullTo v.disk ino k ∧ (k < 12 → ino.sec k = 0) ∧
    (full v = true ∨ k = 12 ∧ (ino.sec 12 = 0 ∨ lone) ∧ NoSecond full v)

/-- There is one first missing block. -/
theorem FullTo.unique {d : Mem} {ino : Inode} {j k : Nat} (hj : FullTo d ino j)
    (hk : FullTo d ino k) (hj12 : j ≤ 12) (hk12 : k ≤ 12) (hj0 : j < 12 → ino.sec j = 0)
    (hk0 : k < 12 → ino.sec k = 0) : j = k := by
  rcases Nat.lt_trichotomy j k with hlt | heq | hgt
  · exact absurd (hj0 (by omega)) (hk j hlt).1
  · exact heq
  · exact absurd (hk0 (by omega)) (hj k hgt).1

theorem setSec_twice (ino : Inode) (k a b : Nat) :
    (ino.setSec k a).setSec k b = ino.setSec k b := by
  unfold Inode.setSec
  congr 1
  funext j
  dsimp only
  split <;> rfl

theorem setSec_same {ino : Inode} {k : Nat} (h : ino.sec k = 0) : ino.setSec k 0 = ino := by
  obtain ⟨a, b, c, d, s, e, f⟩ := ino
  unfold Inode.setSec
  congr 1
  funext j
  dsimp only
  split
  next hj =>
    unfold Inode.sec at h
    rw [dif_pos (by omega)] at h
    apply UInt32.toNat_inj.mp
    rw [show s j = s ⟨k, by omega⟩ from congrArg s (Fin.ext hj), h]
    rfl
  next => rfl

/-- A block that was taken and is given back. -/
theorem setBlock_undo {u v w : Vol p} {r : Int} (h : blockBitmapAlloc v = some (r, u))
    (hw : w.blockBitmap = u.blockBitmap) :
    (w.setBlock (r.toNat - p.dataStartLba) false).blockBitmap = v.blockBitmap := by
  obtain ⟨i, rfl, -, hfree, -, rfl⟩ := blockBitmapAlloc_spec h
  rw [Int.toNat_natCast, Nat.add_sub_cancel_left]
  show w.blockBitmap.bitmapSet i false = v.blockBitmap
  rw [hw]
  show (v.blockBitmap.bitmapSet i true).bitmapSet i false = v.blockBitmap
  refine Bitmap.eq_of_bit rfl fun j => ?_
  rw [Bitmap.bit_bitmapSet, Bitmap.bit_bitmapSet]
  split
  next hj => rw [hj, hfree]
  next => rfl

/-- How the branch for a missing block `k` ends. -/
inductive AddBlock (full : Vol p → Bool) (pDe : DirEntry) (k : Nat) (v v' : Vol p)
    (ino ino' : Inode) (b : Nat) : Bool → Prop
  | first : full v = true → v' = v → ino' = ino → AddBlock full pDe k v v' ino ino' b false
  | second : full v = false → k = 12 → NoSecond full v → Untouched v v' →
      ino' = ino.setSec 12 0 → AddBlock full pDe k v v' ino ino' b false
  | added : full v = false → (k = 12 → ¬NoSecond full v) →
      (∀ i, i < 512 → v'.disk (512 * b + i) = firstSector pDe i) →
      AddBlock full pDe k v v' ino ino' b true

theorem addBlock_refused {full : Vol p → Bool} {pDe : DirEntry} {k : Nat} {v v' : Vol p}
    {ino ino' : Inode} {blocks blocks' : Nat → Nat} {ok : Bool} (hk : k ≤ 12)
    (h : addBlock (allocOr full) pDe k v ino blocks = some (ok, v', ino', blocks')) :
    AddBlock full pDe k v v' ino ino' (blocks' k) ok := by
  unfold addBlock at h
  cases hfull : full v with
  | true =>
    simp only [allocOr_full hfull, Option.bind_eq_bind, Option.bind_some, if_true,
      Option.pure_def, Option.some.injEq, Prod.mk.injEq] at h
    obtain ⟨rfl, rfl, rfl, -⟩ := h
    exact .first hfull rfl rfl
  | false =>
    simp only [allocOr_grants hfull, Option.bind_eq_bind, Option.bind_eq_some_iff,
      Prod.exists] at h
    obtain ⟨lba, v1, halloc, h⟩ := h
    obtain ⟨hne, hfresh, hgrow, -, hidx, -⟩ := alloc_spec halloc
    rw [if_neg hne] at h
    simp only [Option.bind_eq_some_iff, Prod.exists] at h
    obtain ⟨v2, hsync, ok1, v3, ino3, blocks3, hmid, h⟩ := h
    -- what follows a block that was granted for the directory
    have hadded : ok1 = true → (k = 12 → ¬NoSecond full v) →
        AddBlock full pDe k v v' ino ino' (blocks' k) ok := by
      intro hok hsecond
      rw [hok] at h
      simp only [Bool.not_true, Bool.false_eq_true, if_false, Option.bind_eq_some_iff,
        Option.pure_def, Option.some.injEq, Prod.mk.injEq] at h
      obtain ⟨d, hw, rfl, rfl, rfl, rfl⟩ := h
      exact .added hfull hsecond (ideWrite_firstSector hw).2.1
    rcases Nat.lt_or_eq_of_le hk with hlt | rfl
    · rw [if_pos hlt, Option.some.injEq, Prod.mk.injEq] at hmid
      exact hadded hmid.1.symm fun h12 => by omega
    rw [if_neg (by decide), if_pos rfl] at hmid
    obtain ⟨⟨lba2, v4⟩, halloc2, hmid⟩ := Option.bind_eq_some_iff.mp hmid
    have hword : (ino.setSec 12 lba.toNat).sec 12 = lba.toNat := by
      rw [Inode.sec_setSec (by decide) (by have := hfresh.word; omega), if_pos rfl]
    cases hfull2 : full v2 with
    | true =>
      -- the table goes back
      rw [allocOr_full hfull2] at halloc2
      obtain ⟨rfl, rfl⟩ := Prod.mk.inj (Option.some.inj halloc2)
      simp only [if_true, Option.pure_def, Option.some.injEq, Prod.mk.injEq] at hmid
      obtain ⟨rfl, rfl, rfl, -⟩ := hmid
      simp only [Bool.not_false, if_true, Option.pure_def, Option.some.injEq, Prod.mk.injEq] at h
      obtain ⟨rfl, rfl, rfl, -⟩ := h
      obtain ⟨hmap, hino, -⟩ := bitmapSync_block hidx hsync
      have hg := hgrow.trans (sync_grow hidx hsync).1
      refine .second hfull rfl ⟨lba, v1, v2, halloc, hsync, hfull2⟩ ⟨?_, hg.inodes, hg.disk⟩
        (setSec_twice ino 12 _ 0)
      rw [hword, blockBit_eq hfresh.data hidx]
      exact setBlock_undo halloc hmap
    | false =>
      rw [allocOr_grants hfull2] at halloc2
      rw [if_neg (alloc_spec halloc2).1] at hmid
      simp only [Option.bind_eq_some_iff, Option.pure_def, Option.some.injEq,
        Prod.mk.injEq] at hmid
      obtain ⟨-, -, d, -, rfl, -⟩ := hmid
      apply hadded rfl
      intro _ hno
      obtain ⟨lba', v1', v2', halloc', hsync', hfull'⟩ := hno
      obtain ⟨rfl, rfl⟩ := Prod.mk.inj (Option.some.inj (halloc.symm.trans halloc'))
      obtain rfl := Option.some.inj (hsync.symm.trans hsync')
      rw [hfull2] at hfull'
      cases hfull'

/-- How `sync_dir_entry` ends. -/
inductive SyncEnd (full : Vol p → Bool) (v v' : Vol p) (ino ino' : Inode) : Bool → Prop
  | stored : (∀ lone, ¬NoRoom full lone v ino) → SyncEnd full v v' ino ino' true
  | undone : (∀ lone, NoRoom full lone v ino) → Untouched v v' → ino' = ino →
      SyncEnd full v v' ino ino' false
  | cleared : (∀ lone, NoRoom full lone v ino ↔ lone) → Untouched v v' → ino.sec 12 ≠ 0 →
      ino' = ino.setSec 12 0 → SyncEnd full v v' ino ino' false

theorem SyncEnd.untouched {full : Vol p → Bool} {v v' : Vol p} {ino ino' : Inode}
    (h : SyncEnd full v v' ino ino' false) : Untouched v v' := by
  cases h with
  | undone _ hun _ => exact hun
  | cleared _ hun _ _ => exact hun

theorem syncLoop_refused {full : Vol p → Bool} {pDe : DirEntry} {v v' : Vol p} {ino ino' : Inode}
    {ok : Bool} : ∀ {n k : Nat}, k + n = 140 → k ≤ 12 → FullTo v.disk ino k →
    syncLoop (allocOr full) pDe n k v ino (directBlocks ino) = some (ok, v', ino') →
    SyncEnd full v v' ino ino' ok := by
  intro n
  induction n with
  | zero => intro k hsum hk; omega
  | succ n ih =>
    intro k hsum hk hto h
    unfold syncLoop at h
    by_cases hz : directBlocks ino k = 0
    · -- the first missing block
      have hz' : k < 12 → ino.sec k = 0 := fun hlt => by rwa [directBlocks_lt hlt] at hz
      have hroom : ∀ lone, NoRoom full lone v ino ↔
          (full v = true ∨ k = 12 ∧ (ino.sec 12 = 0 ∨ lone) ∧ NoSecond full v) := by
        intro lone
        refine ⟨fun hno => ?_, fun hno => ⟨k, hk, hto, hz', hno⟩⟩
        obtain ⟨j, hj, hjto, hj0, hno⟩ := hno
        obtain rfl := hjto.unique hto hj hk hj0 hz'
        exact hno
      simp only [if_pos hz, Option.bind_eq_bind, Option.bind_eq_some_iff, Prod.exists] at h
      obtain ⟨ok1, v1, ino1, blocks1, hadd, h⟩ := h
      cases addBlock_refused hk hadd with
      | first hfull hv hino =>
        simp only [Bool.not_false, if_true, Option.pure_def, Option.some.injEq,
          Prod.mk.injEq] at h
        obtain ⟨rfl, rfl, rfl⟩ := h
        subst hv
        exact .undone (fun lone => (hroom lone).mpr (Or.inl hfull)) (Untouched.refl _) hino
      | second hfull h12 hno hun hino =>
        simp only [Bool.not_false, if_true, Option.pure_def, Option.some.injEq,
          Prod.mk.injEq] at h
        obtain ⟨rfl, rfl, rfl⟩ := h
        by_cases hsec : ino.sec 12 = 0
        · exact .undone (fun lone => (hroom lone).mpr (Or.inr ⟨h12, Or.inl hsec, hno⟩)) hun
            (hino.trans (setSec_same hsec))
        · refine .cleared (fun lone => ?_) hun hsec hino
          rw [hroom lone]
          refine ⟨fun hor => ?_, fun hl => Or.inr ⟨h12, Or.inr hl, hno⟩⟩
          rcases hor with hf | ⟨-, hs | hl, -⟩
          · rw [hfull] at hf
            cases hf
          · exact absurd hs hsec
          · exact hl
      | added hfull hsecond hsector =>
        simp only [Bool.not_true, Bool.false_eq_true, if_false, Option.bind_eq_some_iff] at h
        obtain ⟨ioBuf, hread, h⟩ := h
        obtain ⟨-, rfl, hbuf⟩ := ideRead_sector hread
        rw [freeSlot_congr fun i hi => (hbuf i hi).trans (hsector i hi)] at h
        split at h
        next e he =>
          simp only [Option.bind_eq_some_iff, Option.pure_def, Option.some.injEq,
            Prod.mk.injEq] at h
          obtain ⟨d, -, rfl, -⟩ := h
          refine .stored fun lone hno => ?_
          rcases (hroom lone).mp hno with hf | ⟨h12, -, hs⟩
          · rw [hfull] at hf
            cases hf
          · exact hsecond h12 hs
        next he => exact absurd he (freeSlot_firstSector pDe)
    · have hlt : k < 12 := Nat.lt_of_le_of_ne hk fun he => hz (directBlocks_ge (by omega))
      simp only [if_neg hz, Option.bind_eq_bind, Option.bind_some, Bool.not_true,
        Bool.false_eq_true, if_false, Option.bind_eq_some_iff] at h
      rw [directBlocks_lt hlt] at hz h
      obtain ⟨ioBuf, hread, h⟩ := h
      obtain ⟨-, rfl, hbuf⟩ := ideRead_sector hread
      split at h
      next e he =>
        -- a free slot in a block that is there
        simp only [Option.bind_eq_some_iff, Option.pure_def, Option.some.injEq,
          Prod.mk.injEq] at h
        obtain ⟨d, -, rfl, -⟩ := h
        obtain ⟨he21, hfree, -⟩ := freeSlot_some he
        rw [ofMem_sector hbuf he21] at hfree
        refine .stored fun lone hno => ?_
        obtain ⟨j, hj, hjto, hj0, -⟩ := hno
        rcases Nat.lt_or_ge k j with hkj | hjk
        · exact (hjto k hkj).2 e he21 hfree
        · rcases Nat.lt_or_eq_of_le hjk with hjk | rfl
          · exact (hto j hjk).1 (hj0 (by omega))
          · exact hz (hj0 hlt)
      next he =>
        refine ih (by omega) hlt (fun j hj => ?_) h
        rcases Nat.lt_or_eq_of_le (Nat.le_of_lt_succ hj) with hj | rfl
        · exact hto j hj
        · refine ⟨hz, fun e he21 => ?_⟩
          rw [← ofMem_sector hbuf he21]
          exact freeSlot_none he he21

theorem syncDirEntry_refused {full : Vol p → Bool} {pDe : DirEntry} {v v' : Vol p}
    {ino ino' : Inode} {ok : Bool}
    (h : syncDirEntryWith (allocOr full) v ino pDe = some (ok, v', ino')) :
    SyncEnd full v v' ino ino' ok := by
  unfold syncDirEntryWith at h
  obtain ⟨-, -, h⟩ := Option.bind_eq_some_iff.mp h
  exact syncLoop_refused (by decide) (by decide) (fun j hj => by omega) h

/-! ## Closing the directory that was searched -/

/-- Nothing a close does depends on the volume. -/
theorem dirClose_setVol {s s' : Mounted p} {dir : DirHandle} (h : dirClose s dir = some s')
    (v : Vol p) : dirClose { s with vol := v } dir = some { s' with vol := v } := by
  cases dir with
  | root =>
    obtain rfl := Option.some.inj h
    rfl
  | opened a =>
    obtain ⟨i, hat, h⟩ := Option.bind_eq_some_iff.mp h
    refine Option.bind_eq_some_iff.mpr ⟨i, hat, ?_⟩
    generalize (i.iOpenCnts.toNat + 2 ^ 32 - 1) % 2 ^ 32 = cnt at h ⊢
    by_cases h0 : cnt = 0
    · rw [if_pos h0] at h ⊢
      obtain rfl := Option.some.inj h
      rfl
    · rw [if_neg h0] at h ⊢
      obtain rfl := Option.some.inj h
      rfl

/-- The search has put its user on the directory it ends in. -/
theorem searchFile_raised {s part : Mounted p} (hs : Steady s) {rootDir : Nat} {dirE : DirEntry}
    {path : List UInt8} {n : Int} {record : PathSearchRecord}
    (h : searchFile rootDir dirE s path = some (n, record, part)) :
    part.openInodes = s.openInodes ↔ record.parentDir = .root := by
  rcases searchFile_opened hs h with ⟨hroot, b, -, rfl⟩ | ⟨m, b, -, hopen⟩
  · exact ⟨fun _ => hroot, fun _ => rfl⟩
  · rcases dirOpen_cases hs hopen with ⟨i, -, hdir, rfl⟩ | ⟨a, i, hat, hdir, rfl⟩
    · refine ⟨fun heq => ?_, fun hroot => ?_⟩
      · exact absurd (congrArg List.length heq) (by simp)
      · rw [hdir] at hroot
        cases hroot
    · refine ⟨fun heq => ?_, fun hroot => ?_⟩
      · have hat' : (Mounted.modifyInode { s with brk := b } a
            fun i => i.setOpenCnts (i.iOpenCnts.toNat + 1)).inodeAt a =
              some (i.setOpenCnts (i.iOpenCnts.toNat + 1)) := by
          rw [Mounted.inodeAt_modifyInode, if_pos rfl]
          show (s.inodeAt a).map _ = _
          rw [hat, Option.map_some]
        rw [Mounted.inodeAt, heq] at hat'
        have hsame := Option.some.inj (hat.symm.trans hat')
        have hcnt : i.iOpenCnts.toNat = _ := congrArg (fun j => j.iOpenCnts.toNat) hsame
        rw [setOpenCnts_toNat] at hcnt
        have hlt := i.iOpenCnts.toNat_lt
        omega
      · rw [hdir] at hroot
        cases hroot

/-- **A table that is lost**: the struct of the searched directory is closed with
`i_sectors[12]` changed. Nobody sees that when the search had opened it. -/
theorem closed_parent {s part s' : Mounted p} (hs : Steady s) {rootDir : Nat} {dirE : DirEntry}
    {path : List UInt8} {n : Int} {record : PathSearchRecord}
    (h : searchFile rootDir dirE s path = some (n, record, part)) {parent parent' : Inode}
    (hat : part.inodeAt (record.parentDir.inode rootDir) = some parent)
    (hcnt : parent'.iOpenCnts = parent.iOpenCnts) (hsec : parent'.sec 12 ≠ parent.sec 12)
    (hclose : dirClose (part.modifyInode (record.parentDir.inode rootDir) fun _ => parent')
      record.parentDir = some s') :
    s'.openInodes = s.openInodes ↔ s.inodeAt (record.parentDir.inode rootDir) = none := by
  have hat' : ∀ a, part.inodeAt a = some parent →
      (part.modifyInode a fun _ => parent').inodeAt a = some parent' := fun a ha => by
    rw [Mounted.inodeAt_modifyInode, if_pos rfl, ha, Option.map_some]
  -- a struct that is there before and after tells the two apart
  have hdiff : ∀ a i i', s.inodeAt a = some i → s'.inodeAt a = some i' → i.sec 12 = parent.sec 12 →
      i'.sec 12 = parent'.sec 12 → (s'.openInodes = s.openInodes ↔ s.inodeAt a = none) := by
    intro a i i' hi hi' h12 h12'
    refine ⟨fun heq => ?_, fun hnone => ?_⟩
    · have hii : s'.inodeAt a = s.inodeAt a := by
        unfold Mounted.inodeAt
        rw [heq]
      rw [hi, hi', Option.some.injEq] at hii
      rw [hii, h12] at h12'
      exact absurd h12'.symm hsec
    · rw [hi] at hnone
      cases hnone
  rcases searchFile_opened hs h with ⟨hroot, b, -, rfl⟩ | ⟨m, b, hb, hopen⟩
  · rw [hroot] at hat hclose ⊢
    obtain rfl := Option.some.inj hclose
    exact hdiff rootDir parent parent' hat (hat' rootDir hat) rfl rfl
  · rcases dirOpen_cases hs hopen with ⟨i, hone, hdir, rfl⟩ | ⟨a, i, hi, hdir, rfl⟩
    · -- the struct is new and goes with its only user
      rw [hdir] at hat hclose ⊢
      have hbelow : ∀ e ∈ s.openInodes, e.1 ≠ b := fun e he => by
        have hlt := hs.below e he
        omega
      have hnone : s.inodeAt b = none := by
        unfold Mounted.inodeAt
        rw [List.find?_eq_none.mpr fun e he => by simpa using hbelow e he]
        rfl
      rw [DirHandle.inode, Mounted.inodeAt_cons, if_pos rfl, Option.some.injEq] at hat
      subst hat
      have hlist : (Mounted.modifyInode
          { s with openInodes := (b, i) :: s.openInodes, brk := b + 1 } b
            fun _ => parent').openInodes.filter (fun e => e.1 != b) = s.openInodes := by
        have hrest : s.openInodes.map (fun e => if e.1 = b then (e.1, parent') else e) =
            s.openInodes :=
          (List.map_congr_left fun e he => if_neg (hbelow e he)).trans (List.map_id _)
        unfold Mounted.modifyInode
        rw [List.map_cons, hrest, if_pos rfl, List.filter_cons_of_neg (by simp),
          List.filter_eq_self]
        intro e he
        simpa using hbelow e he
      refine ⟨fun _ => hnone, fun _ => ?_⟩
      obtain ⟨j, hj, hclose⟩ := Option.bind_eq_some_iff.mp hclose
      have hj' := hat' b (by rw [Mounted.inodeAt_cons, if_pos rfl])
      obtain rfl := Option.some.inj (hj'.symm.trans hj)
      rw [hcnt, hone, if_pos (by decide)] at hclose
      obtain rfl := Option.some.inj hclose
      exact hlist
    · -- another user keeps the struct
      rw [hdir] at hat hclose ⊢
      have hparent : parent = i.setOpenCnts (i.iOpenCnts.toNat + 1) := by
        rw [DirHandle.inode, Mounted.inodeAt_modifyInode, if_pos rfl] at hat
        have hat : (s.inodeAt a).map _ = _ := hat
        rw [hi, Option.map_some] at hat
        exact (Option.some.inj hat).symm
      have hne : i.iOpenCnts.toNat ≠ 0 := fun h0 =>
        hs.users _ (Mounted.lookup_mem hi)
          (UInt32.toNat_inj.mp (h0.trans UInt32.toNat_zero.symm))
      have hstays := inodeClose_stays (hat' a hat) (c := i.iOpenCnts.toNat) (by
        rw [hcnt, hparent, setOpenCnts_toNat, openCnts_back i.iOpenCnts.toNat_lt]) hne
      obtain rfl := Option.some.inj (hstays.symm.trans hclose)
      refine hdiff a i (parent'.setOpenCnts i.iOpenCnts.toNat) hi ?_ ?_ rfl
      · rw [Mounted.inodeAt_modifyInode, if_pos rfl, hat' a hat, Option.map_some]
      · rw [hparent]
        rfl

/-! ## The failed call -/

/-- The tables, the open inodes, both bitmaps and the disk but for the sectors of
the block map are what they were. -/
structure Unopened (t : Nat) (k k' : FileSys p) : Prop where
  table : k'.fileTable = k.fileTable
  fds : (k'.pcb t).fdTable = (k.pcb t).fdTable
  structs : k'.part.openInodes = k.part.openInodes
  vol : Untouched k.part.vol k'.part.vol

/-- What keeps `file_create` from leaving anything behind: it has not filled an
entry of `file_table`, or it clears one that was clear, and the directory had no
place for the file. -/
def CreateStops (fullI fullB : Vol p → Bool) (k : FileSys p) (part : Mounted p) (dir : DirHandle)
    (heap : Grants) : Prop :=
  heap.ioBuf = false ∨ fullI k.part.vol = true ∨ heap.inode = false ∨
    k.getFreeSlotInGlobal = none ∨
    ∃ g n v parent, k.getFreeSlotInGlobal = some g ∧ k.fileTable g = ⟨0, 0, 0⟩ ∧
      inodeBitmapAlloc k.part.vol = some (n, v) ∧
      part.inodeAt (dir.inode k.rootDir) = some parent ∧
      NoRoom fullB (k.part.inodeAt (dir.inode k.rootDir) = none) v parent

/-- What keeps a failing `sys_open` from leaving anything behind: the path is
refused, or the file cannot be created, or there is no entry of `file_table` for a
file in the root directory. -/
def OpenStops (fullI fullB : Vol p → Bool) (k : FileSys p) (pathname : List UInt8) (flags : UInt8)
    (heap : Grants) (stack : Stack) : Prop :=
  pathname.getLast? = some slash ∨
    ∃ n record part, searchFile k.rootDir stack.dirE k.part pathname = some (n, record, part) ∧
      (OpenRefused pathname flags stack n record ∨
        (flags &&& oCreat ≠ 0 ∧ CreateStops fullI fullB k part record.parentDir heap) ∨
        (flags &&& oCreat = 0 ∧ k.getFreeSlotInGlobal = none ∧ record.parentDir = .root))

section

variable {k k' : FileSys p} {t : Nat} {fullI fullB : Vol p → Bool} {flags : UInt8} {heap : Grants}

/-- The ways a creation fails. -/
inductive CreateFailed (fullI fullB : Vol p → Bool) (k : FileSys p) (dir : DirHandle)
    (flags : UInt8) (heap : Grants) (k' : FileSys p) : Prop
  | early : heap.ioBuf = false ∨ fullI k.part.vol = true ∨ heap.inode = false ∨
      k.getFreeSlotInGlobal = none → k' = k → CreateFailed fullI fullB k dir flags heap k'
  | unstored (g n : Nat) (vol : Vol p) (parent parent' : Inode) :
      heap.ioBuf = true → fullI k.part.vol = false → heap.inode = true →
      k.getFreeSlotInGlobal = some g →
      inodeBitmapAlloc k.part.vol = some ((n : Int), k.part.vol.setInode n true) →
      k.part.vol.inodeBitmap.bit n = false →
      k.part.inodeAt (dir.inode k.rootDir) = some parent →
      SyncEnd fullB (k.part.vol.setInode n true) vol parent parent' false →
      k' = FileSys.setSlot { k with
        part := { (k.part.modifyInode (dir.inode k.rootDir) fun _ => parent') with
          vol := vol.setInode n false } } g ⟨0, 0, 0⟩ →
      CreateFailed fullI fullB k dir flags heap k'
  | full (g n : Nat) (parent : Inode) :
      heap.ioBuf = true → fullI k.part.vol = false → heap.inode = true →
      k.getFreeSlotInGlobal = some g →
      inodeBitmapAlloc k.part.vol = some ((n : Int), k.part.vol.setInode n true) →
      k.part.inodeAt (dir.inode k.rootDir) = some parent →
      (∀ lone, ¬NoRoom fullB lone (k.part.vol.setInode n true) parent) →
      (k'.fileTable g).fdInode = k.part.brk →
      CreateFailed fullI fullB k dir flags heap k'

theorem fileCreate_failed {dir : DirHandle} {filename : List UInt8}
    (h : fileCreateWith (inodeOr fullI) (allocOr fullB) k t dir filename flags heap =
      some (-1, k')) : CreateFailed fullI fullB k dir flags heap k' := by
  unfold fileCreateWith at h
  cases hio : heap.ioBuf with
  | false =>
    simp only [hio, Bool.not_false, if_true, Option.pure_def, Option.some.injEq,
      Prod.mk.injEq, true_and] at h
    exact .early (Or.inl hio) h.symm
  | true =>
  simp only [hio, Bool.not_true, Bool.false_eq_true, if_false, Option.bind_eq_bind] at h
  obtain ⟨⟨no, v1⟩, halloc, h⟩ := Option.bind_eq_some_iff.mp h
  dsimp only at h
  rcases inodeOr_cases halloc with ⟨hfullI, rfl, rfl⟩ | ⟨hfullI, n, rfl, hfree, rfl⟩
  · rw [if_pos rfl] at h
    exact .early (Or.inr (Or.inl hfullI)) (Prod.mk.inj (Option.some.inj h)).2.symm
  have hscan : inodeBitmapAlloc k.part.vol = some ((n : Int), k.part.vol.setInode n true) := by
    unfold inodeOr at halloc
    rwa [hfullI, if_neg (by decide)] at halloc
  rw [if_neg (by omega)] at h
  simp only [Int.toNat_natCast, setInode_undo hfree] at h
  cases hino : heap.inode with
  | false =>
    simp only [hino, Bool.not_false, if_true, Option.pure_def, Option.some.injEq,
      Prod.mk.injEq, true_and] at h
    exact .early (Or.inr (Or.inr (Or.inl hino))) h.symm
  | true =>
  simp only [hino, Bool.not_true, Bool.false_eq_true, if_false] at h
  cases hslot : k.getFreeSlotInGlobal with
  | none =>
    simp only [hslot, Option.pure_def, Option.some.injEq, Prod.mk.injEq, true_and] at h
    exact .early (Or.inr (Or.inr (Or.inr hslot))) h.symm
  | some g =>
    simp only [hslot, fillSlotWith, Option.bind_eq_bind, Option.bind_eq_some_iff,
      Prod.exists] at h
    obtain ⟨de, -, parent, hparent, ok, v2, parent', hsync, h⟩ := h
    have hend := syncDirEntry_refused hsync
    cases ok with
    | false =>
      simp only [Bool.not_false, if_true, Option.pure_def, Option.some.injEq, Prod.mk.injEq,
        true_and] at h
      exact .unstored g n v2 parent parent' hio hfullI hino hslot hscan hfree hparent hend h.symm
    | true =>
      cases hend with
      | stored hroom =>
      simp only [Bool.not_true, Bool.false_eq_true, if_false, Option.bind_eq_some_iff,
        Option.pure_def, Option.some.injEq] at h
      obtain ⟨v3, -, v4, -, v5, -, h⟩ := h
      refine .full g n parent hio hfullI hino hslot hscan hparent hroom ?_
      obtain ⟨hslotted, -, -⟩ := (pcbFdInstall_spec h).slotted (getFreeSlot_some hslot)
      rw [hslotted.table, Function.update_self]
      rfl

/-- With everything granted up to the entry of `file_table`. -/
theorem createStops_iff {part : Mounted p} {dir : DirHandle} {g n : Nat} {v : Vol p}
    {parent : Inode} (hio : heap.ioBuf = true) (hfull : fullI k.part.vol = false)
    (hino : heap.inode = true) (hslot : k.getFreeSlotInGlobal = some g)
    (hscan : inodeBitmapAlloc k.part.vol = some ((n : Int), v))
    (hparent : part.inodeAt (dir.inode k.rootDir) = some parent) :
    CreateStops fullI fullB k part dir heap ↔ k.fileTable g = ⟨0, 0, 0⟩ ∧
      NoRoom fullB (k.part.inodeAt (dir.inode k.rootDir) = none) v parent := by
  refine ⟨fun h => ?_, fun ⟨hclear, hroom⟩ =>
    Or.inr (Or.inr (Or.inr (Or.inr ⟨g, n, v, parent, hslot, hclear, hscan, hparent, hroom⟩)))⟩
  rcases h with hf | hf | hf | hf | ⟨g', n', v', parent', hslot', hclear, hscan', hparent', hroom⟩
  · rw [hio] at hf
    cases hf
  · rw [hfull] at hf
    cases hf
  · rw [hino] at hf
    cases hf
  · rw [hslot] at hf
    cases hf
  · obtain rfl := Option.some.inj (hslot.symm.trans hslot')
    obtain ⟨-, rfl⟩ := Prod.mk.inj (Option.some.inj (hscan.symm.trans hscan'))
    obtain rfl := Option.some.inj (hparent.symm.trans hparent')
    exact ⟨hclear, hroom⟩

/-- **A failed `sys_open` changes nothing** exactly when it stops before it fills an
entry of `file_table`, with the searched directory closed, or when the directory
had no place for a new file and what is cleared was clear. -/
theorem failed_open_unchanged (hs : Steady k.part) (hn : NonNull k.part)
    (husers : ∀ a ∈ k.userInodes, a < k.part.brk) (fullI fullB : Vol p → Bool)
    {pathname : List UInt8} {stack : Stack}
    (h : sysOpenOn (fileCreateWith (inodeOr fullI) (allocOr fullB)) k t pathname flags heap stack =
      some (-1, k')) :
    Unopened t k k' ↔ OpenStops fullI fullB k pathname flags heap stack := by
  have hsame : ∀ b, Unopened t k { k with part := { k.part with brk := b } } := fun b =>
    ⟨rfl, rfl, rfl, Untouched.refl _⟩
  -- an entry that was free points to a struct now
  have hfilled : ∀ {g : Nat}, k.getFreeSlotInGlobal = some g → (k'.fileTable g).fdInode ≠ 0 →
      ¬Unopened t k k' := fun hslot hne hu => by
    rw [hu.table] at hne
    exact hne (getFreeSlot_some hslot).2.2
  cases sysOpenOn_cases h with
  | slash heq _ hlast =>
    subst heq
    exact ⟨fun _ => Or.inl hlast, fun _ => hsame _⟩
  | failed n record part hfile hclose _ hwhy =>
    obtain ⟨b, -, hclose'⟩ := searchFile_closes hs husers hfile k.pcb
    obtain rfl := Option.some.inj (hclose'.symm.trans hclose)
    exact ⟨fun _ => Or.inr ⟨n, record, part, hfile, Or.inl hwhy⟩, fun _ => hsame b⟩
  | created record part k2 hlast hfile hcreat hdir hdepth hcreate hclose =>
    obtain ⟨b, -, hclose'⟩ := searchFile_closes hs husers hfile k.pcb
    have hvol : part.vol = k.part.vol := (dirClose_vol hclose').symm
    -- nothing but the creation can stop the call
    have hstops : OpenStops fullI fullB k pathname flags heap stack ↔
        CreateStops fullI fullB k part record.parentDir heap := by
      refine ⟨fun hst => ?_, fun hst => Or.inr ⟨-1, record, part, hfile, Or.inr (Or.inl ⟨hcreat, hst⟩)⟩⟩
      rcases hst with hl | ⟨n, record', part', hfile', hst⟩
      · exact absurd hl hlast
      obtain ⟨rfl, rfl, rfl⟩ : -1 = n ∧ record = record' ∧ part = part' := by
        simpa using hfile.symm.trans hfile'
      rcases hst with (hd | hd | ⟨-, hc⟩ | ⟨hn1, -⟩) | ⟨-, hst⟩ | ⟨hc, -⟩
      · exact absurd hd hdir
      · exact absurd hdepth hd
      · exact absurd hc hcreat
      · exact absurd rfl hn1
      · exact hst
      · exact absurd hc hcreat
    rw [hstops]
    cases fileCreate_failed hcreate with
    | early hwhy heq =>
      subst heq
      obtain rfl := Option.some.inj (hclose'.symm.trans hclose)
      refine ⟨fun _ => ?_, fun _ => hsame b⟩
      rcases hwhy with hio | hfull | hino | hslot
      · exact Or.inl hio
      · exact Or.inr (Or.inl (hvol ▸ hfull))
      · exact Or.inr (Or.inr (Or.inl hino))
      · exact Or.inr (Or.inr (Or.inr (Or.inl hslot)))
    | unstored g n vol parent parent' hio hfull hino hslot hscan hfree hparent hend heq =>
      obtain ⟨part3, hclose3, rfl⟩ := dirClose_eq hclose
      subst heq
      have hslot' : k.getFreeSlotInGlobal = some g := hslot
      have hcond : CreateStops fullI fullB k part record.parentDir heap ↔
          k.fileTable g = ⟨0, 0, 0⟩ ∧
            NoRoom fullB (k.part.inodeAt (record.parentDir.inode k.rootDir) = none)
              (k.part.vol.setInode n true) parent := by
        rw [hvol] at hfull hscan
        refine createStops_iff hio hfull hino hslot' hscan hparent
      obtain ⟨part0, hpart0, heq0⟩ := dirClose_eq hclose'
      obtain rfl : { k.part with brk := b } = part0 := congrArg FileSys.part heq0
      dsimp only at hend hfree hparent hpart0
      rw [hvol] at hend hfree
      have hun := hend.untouched
      have hvol3 : part3.vol = vol.setInode n false := dirClose_vol hclose
      -- what the directory's struct tells is whether there was room
      have hstructs : part3.openInodes = k.part.openInodes ↔
          NoRoom fullB (k.part.inodeAt (record.parentDir.inode k.rootDir) = none)
            (k.part.vol.setInode n true) parent := by
        cases hend with
        | undone hroom _ hino =>
          refine ⟨fun _ => hroom _, fun _ => ?_⟩
          dsimp only [FileSys.setSlot] at hclose3
          rw [hino, modifyInode_same (searchFile_nodup hs hfile) hparent] at hclose3
          obtain rfl := Option.some.inj ((dirClose_setVol hpart0 _).symm.trans hclose3)
          rfl
        | cleared hroom _ hsec hino =>
          rw [hroom]
          have hsec' : parent'.sec 12 ≠ parent.sec 12 := by
            rw [hino, Inode.sec_setSec (by decide) (by decide), if_pos rfl]
            exact Ne.symm hsec
          have hclose4 : dirClose (part.modifyInode (record.parentDir.inode k.rootDir)
              fun _ => parent') record.parentDir = some { part3 with vol := part.vol } :=
            dirClose_setVol hclose3 part.vol
          have hback := closed_parent hs hfile hparent (by rw [hino]; rfl) hsec' hclose4
          exact hback
      rw [hcond, ← hstructs]
      refine ⟨fun hu => ⟨?_, hu.structs⟩, fun ⟨hclear, hopens⟩ => ⟨?_, rfl, hopens, ?_⟩⟩
      · rw [← hu.table]
        exact Function.update_self _ _ _
      · show Function.update k.fileTable g ⟨0, 0, 0⟩ = k.fileTable
        rw [← hclear, Function.update_eq_self]
      · show Untouched k.part.vol part3.vol
        rw [hvol3]
        exact hun.setInode_undo hfree
    | full g n parent hio hfull hino hslot hscan hparent hroom hset =>
      obtain ⟨part3, -, rfl⟩ := dirClose_eq hclose
      refine ⟨fun hu => absurd hu (hfilled hslot ?_), fun hst => ?_⟩
      · rw [show FileSys.fileTable _ g = k2.fileTable g from rfl, hset]
        exact Nat.ne_of_gt (searchFile_nonNull hn hfile).brk
      · dsimp only at hfull hscan
        rw [hvol] at hfull hscan
        rw [createStops_iff hio hfull hino hslot hscan hparent] at hst
        rw [← hvol] at hst
        exact absurd hst.2 (hroom _)
  | opened n record part hlast hfile hn1 hcreat hdir hdepth hopen =>
    have hstops : OpenStops fullI fullB k pathname flags heap stack ↔
        k.getFreeSlotInGlobal = none ∧ record.parentDir = .root := by
      refine ⟨fun hst => ?_, fun hst => Or.inr ⟨n, record, part, hfile, Or.inr (Or.inr ⟨hcreat, hst⟩)⟩⟩
      rcases hst with hl | ⟨n', record', part', hfile', hst⟩
      · exact absurd hl hlast
      obtain ⟨rfl, rfl, rfl⟩ : n = n' ∧ record = record' ∧ part = part' := by
        simpa using hfile.symm.trans hfile'
      rcases hst with (hd | hd | ⟨hn, -⟩ | ⟨-, hc⟩) | ⟨hc, -⟩ | ⟨-, hst⟩
      · exact absurd hd hdir
      · exact absurd hdepth hd
      · exact absurd hn hn1
      · exact absurd hcreat hc
      · exact absurd hcreat hc
      · exact hst
    rw [hstops]
    obtain ⟨hkeep, hpart⟩ := keepDir_tables ({ k with part } : FileSys p) record.parentDir
    dsimp only at hpart
    rcases fileOpen_slotted hopen with ⟨hslot, rfl⟩ | ⟨g, a, part', hslot, hslotted, -, hinode, -⟩
    · have hslot' : k.getFreeSlotInGlobal = none := by
        cases hdir' : record.parentDir with
        | root => rwa [hdir'] at hslot
        | opened a => rwa [hdir'] at hslot
      have hraised := searchFile_raised hs hfile
      rw [← hpart] at hraised
      refine ⟨fun hu => ⟨hslot', hraised.mp hu.structs⟩, fun ⟨_, hroot⟩ => ?_⟩
      refine ⟨hkeep.table, congrArg (fun pcb => (pcb t).fdTable) hkeep.pcb, hraised.mpr hroot, ?_⟩
      obtain ⟨b, -, hclose⟩ := searchFile_closes hs husers hfile k.pcb
      rw [hpart, show part.vol = k.part.vol from (dirClose_vol hclose).symm]
      exact Untouched.refl _
    · have hslot' : k.getFreeSlotInGlobal = some g := by
        cases hdir' : record.parentDir with
        | root => rwa [hdir'] at hslot
        | opened a => rwa [hdir'] at hslot
      refine ⟨fun hu => absurd hu (hfilled hslot' ?_), fun ⟨hnone, _⟩ => ?_⟩
      · rw [hslotted.table, Function.update_self]
        rw [hpart] at hinode
        exact (inodeOpen_nonNull (searchFile_nonNull hn hfile) hinode).1
      · rw [hslot'] at hnone
        cases hnone

end

/-! ## A process with no descriptor left -/

/-- The small tree, where every descriptor of every task is in use. -/
def crammedSys : FileSys blankPartition :=
  { smallSys with pcb := fun _ => ⟨fun i => i, 0, true⟩ }

theorem failed_open_unchanged_no_file :
    ∃ k', sysOpenOn (fileCreateWith (inodeOr fun _ => false) (allocOr fun _ => false)) crammedSys 1
        pathB 0 ⟨true, true⟩ noStack = some (-1, k') ∧
      (Unopened 1 crammedSys k' ↔
        OpenStops (fun _ => false) (fun _ => false) crammedSys pathB 0 ⟨true, true⟩ noStack) := by
  have hrun : (sysOpenOn (fileCreateWith (inodeOr fun _ => false) (allocOr fun _ => false))
      crammedSys 1 pathB 0 ⟨true, true⟩ noStack).map (·.1) = some (-1) := by decide +kernel
  obtain ⟨⟨r, k'⟩, hrun, rfl⟩ := Option.map_eq_some_iff.mp hrun
  have hs : Steady crammedSys.part := small_steady
  have hn : NonNull crammedSys.part := small_nonNull
  exact ⟨k', hrun, failed_open_unchanged hs hn (by simp [crammedSys, smallSys]) _ _ hrun⟩

/-- Making `/B` fails for want of a descriptor; the file is made and stays in
`file_table`. -/
theorem failed_open_keeps_the_file :
    ∃ k', sysOpen crammedSys 1 pathB 6 ⟨true, true⟩ noStack = some (-1, k') ∧
      (k'.fileTable 3).fdInode = 2 ∧ k'.bit 2 = true ∧ ¬Unopened 1 crammedSys k' := by
  have hrun : (sysOpen crammedSys 1 pathB 6 ⟨true, true⟩ noStack).map
      (fun r => (r.1, (r.2.fileTable 3).fdInode, r.2.bit 2)) = some (-1, 2, true) := by
    decide +kernel
  obtain ⟨⟨r, k'⟩, hrun, hval⟩ := Option.map_eq_some_iff.mp hrun
  simp only [Prod.mk.injEq] at hval
  obtain ⟨rfl, hset, hbit⟩ := hval
  refine ⟨k', hrun, hset, hbit, fun hu => ?_⟩
  rw [hu.table] at hset
  exact absurd hset (by decide)

end OsCore.Fs
