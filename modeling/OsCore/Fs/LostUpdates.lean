import OsCore.Fs.DirInsert
import OsCore.Lib.Machine

/-!
# Metadata written by two processes at a time

`inode_sync` and `sync_dir_entry` change a part of a sector: they read the sector,
put the new bytes in, and write it back. The channel is locked during each of the
two transfers and free between them, so another process may write the sector after
it was read; the write-back then puts the old bytes back in place of the other's.

Here every transfer is a step of its own, with whatever the code does between it
and the next. `inodeSyncRead` and `inodeSyncWrite` are the halves of `inode_sync`;
`DirPc.rest` is what `sync_dir_entry` still has to do at each of its transfers, and
a call that is alone does the same as `syncDirEntry` (`dirGo_rest`).

What makes an update disappear is a write-back of stale bytes: a sector that is no
longer what it was when it was read, a new directory block put where another
process has just put one, or a new block that is read before it has been filled.
In every run without these, all that was written is there at the end
(`no_lost_update`); with one of them it need not be (`stale_write_loses_update`).
-/

namespace OsCore.Fs

open OsCore.Lib

variable {p : Partition} {N : Nat}

/-! ## `inode_sync` in two halves -/

/-- `inode_sync` up to the end of its `ide_read`: the position and the sectors. -/
def inodeSyncRead (v : Vol p) (inode : Inode) : Option (InodePosition × Mem) := do
  let inodeNo := inode.no % 256
  let pos ← inodeLocate p inodeNo
  ensure (pos.secLba ≤ p.startLba + p.secCnt)
  let inodeBuf ← ideRead v.disk pos.secLba Mem.zero pos.sects
  return (pos, inodeBuf)

/-- `inode_sync` from there on. -/
def inodeSyncWrite (v : Vol p) (inode : Inode) (pos : InodePosition) (inodeBuf : Mem) :
    Option (Vol p) := do
  let inodeBuf := inodeBuf.blit pos.offSize inode.pureInode.bytes inodeSize
  let disk ← ideWrite v.disk pos.secLba inodeBuf pos.sects
  return { v with disk }

theorem inodeSync_halves (v : Vol p) (inode : Inode) :
    inodeSync v inode =
      (inodeSyncRead v inode).bind fun r => inodeSyncWrite v inode r.1 r.2 := by
  simp only [inodeSync, inodeSyncRead, inodeSyncWrite, Option.bind_eq_bind, Option.bind_assoc,
    Option.pure_def, Option.bind_some]

inductive SyncPc
  | before
  /-- between the transfers, with the sectors as they were read -/
  | between (pos : InodePosition) (inodeBuf : Mem)
  | returned

/-- Processes that write back one inode each. -/
structure SyncState (p : Partition) (N : Nat) where
  vol : Vol p
  inode : Fin N → Inode
  pc : Fin N → SyncPc

def SyncState.go (s : SyncState p N) (t : Fin N) : Option (SyncState p N) :=
  match s.pc t with
  | .before => do
    let (pos, inodeBuf) ← inodeSyncRead s.vol (s.inode t)
    return { s with pc := Function.update s.pc t (.between pos inodeBuf) }
  | .between pos inodeBuf => do
    let vol ← inodeSyncWrite s.vol (s.inode t) pos inodeBuf
    return { s with vol, pc := Function.update s.pc t .returned }
  | .returned => none

/-- Different inodes, none of them begun. -/
def syncMachine (p : Partition) (N : Nat) : Machine (SyncState p N) (Fin N) where
  start s := (∀ t, s.pc t = .before) ∧ (∀ t, (s.inode t).no < 4096) ∧
    ∀ t u, (s.inode t).no = (s.inode u).no → t = u
  may _ _ := True
  step := SyncState.go

/-- The sectors are still what they were when they were read. A number from 256 on
goes to the slot of another inode, whoever else writes. -/
def InodeFresh (s : SyncState p N) (t : Fin N) : Prop :=
  match s.pc t with
  | .before => (s.inode t).no < 256
  | .between pos inodeBuf =>
    ∀ i, i < 512 * pos.sects → s.vol.disk (512 * pos.secLba + i) = inodeBuf i
  | .returned => True

/-- All inodes that have been written back are on disk. -/
def InodesOnDisk (s : SyncState p N) : Prop :=
  ∀ t, match s.pc t with
    | .returned => SlotHolds p s.vol.disk (s.inode t).no (s.inode t).pureInode
    | _ => True

structure SyncInv (s : SyncState p N) : Prop where
  onDisk : InodesOnDisk s
  distinct : ∀ t u, (s.inode t).no = (s.inode u).no → t = u
  /-- a call that has begun is for its own slot -/
  located : ∀ t pos inodeBuf, s.pc t = .between pos inodeBuf →
    (s.inode t).no < 256 ∧ inodeLocate p (s.inode t).no = some pos

/-- **A write-back of fresh sectors is `inode_sync` at once.** -/
theorem inodeSyncWrite_fresh {v v' : Vol p} {ino : Inode} {pos : InodePosition} {inodeBuf : Mem}
    (hn : ino.no < 256) (hpos : inodeLocate p ino.no = some pos)
    (hfresh : ∀ i, i < 512 * pos.sects → v.disk (512 * pos.secLba + i) = inodeBuf i)
    (h : inodeSyncWrite v ino pos inodeBuf = some v') :
    v' = { v with disk := v.disk.blit (p.slotAddr ino.no) ino.pureInode.bytes 76 } := by
  obtain ⟨pos', hpos', haddr, hcover, -, -, -⟩ := inodeLocate_eq p (n := ino.no) (by omega)
  obtain rfl : pos = pos' := Option.some.inj (hpos.symm.trans hpos')
  simp only [inodeSyncWrite, Option.bind_eq_bind, Option.bind_eq_some_iff, Option.pure_def,
    Option.some.injEq, ideWrite_eq_some, inodeSize] at h
  obtain ⟨d, ⟨-, -, rfl⟩, rfl⟩ := h
  rw [Mem.blit_blit _ _ _ hcover hfresh, haddr]

theorem sync_step {s s' : SyncState p N} (h : SyncInv s) {t : Fin N} (hfresh : InodeFresh s t)
    (hgo : s.go t = some s') : SyncInv s' := by
  unfold SyncState.go at hgo
  unfold InodeFresh at hfresh
  cases hpc : s.pc t with
  | returned =>
    rw [hpc] at hgo
    cases hgo
  | before =>
    rw [hpc] at hfresh
    simp only [hpc, Option.bind_eq_bind, Option.bind_eq_some_iff, Prod.exists, Option.pure_def,
      Option.some.injEq] at hgo
    obtain ⟨pos, buf, hread, rfl⟩ := hgo
    have hpos : inodeLocate p (s.inode t).no = some pos := by
      simp only [inodeSyncRead, Nat.mod_eq_of_lt hfresh, Option.bind_eq_bind,
        Option.bind_eq_some_iff, Option.pure_def, Option.some.injEq, Prod.mk.injEq] at hread
      obtain ⟨pos', hpos, -, -, -, -, rfl, -⟩ := hread
      exact hpos
    refine ⟨fun u => ?_, h.distinct, fun u pos' buf' hu => ?_⟩
    · have hu := h.onDisk u
      by_cases hut : u = t
      · simp only [hut, Function.update_self]
      · simpa only [Function.update_of_ne hut] using hu
    · have hu : Function.update s.pc t (.between pos buf) u = .between pos' buf' := hu
      rw [Function.update_apply] at hu
      split at hu
      · next hut =>
        cases hu
        rw [hut]
        exact ⟨hfresh, hpos⟩
      · exact h.located u pos' buf' hu
  | between pos buf =>
    rw [hpc] at hfresh
    simp only [hpc, Option.bind_eq_bind, Option.bind_eq_some_iff, Option.pure_def,
      Option.some.injEq] at hgo
    obtain ⟨vol, hwrite, rfl⟩ := hgo
    obtain ⟨hn, hpos⟩ := h.located t pos buf hpc
    obtain rfl := inodeSyncWrite_fresh hn hpos hfresh hwrite
    refine ⟨fun u => ?_, h.distinct, fun u pos' buf' hu => ?_⟩
    · by_cases hut : u = t
      · rw [hut]
        simp only [Function.update_self]
        exact fun i hi => Mem.blit_add hi
      · have hu := h.onDisk u
        simp only [Function.update_of_ne hut]
        cases hpu : s.pc u with
        | before => trivial
        | between => trivial
        | returned =>
          simp only [hpu] at hu
          intro i hi
          rw [← hu i hi]
          exact blit_slot_ne (fun heq => hut (h.distinct u t heq.symm)) hi
    · have hu : Function.update s.pc t .returned u = .between pos' buf' := hu
      rw [Function.update_apply] at hu
      split at hu
      · cases hu
      · exact h.located u pos' buf' hu

theorem inodesOnDisk_of_reach {s : SyncState p N} (h : (syncMachine p N).Reach InodeFresh s) :
    InodesOnDisk s := by
  have hinv : SyncInv s := by
    refine Machine.Reach.invariant ?_ ?_ h
    · intro s hs
      obtain ⟨hbefore, -, hdistinct⟩ := hs
      refine ⟨fun t => ?_, hdistinct, fun t pos buf ht => ?_⟩
      · rw [hbefore t]
        trivial
      · rw [hbefore t] at ht
        cases ht
    · intro s t s' hinv _ hfresh hgo
      exact sync_step hinv hfresh hgo
  exact hinv.onDisk

/-! ## `sync_dir_entry` transfer by transfer -/

/-- The transfer a process is at; `blocks` is its `all_blocks`. -/
inductive DirPc
  | before
  /-- `bitmap_sync` for the block `lba` that is to become block `k` -/
  | bitmap (k lba : Nat) (blocks : Nat → Nat)
  /-- `bitmap_sync` for the first block behind a new table -/
  | bitmap12 (lba : Nat) (blocks : Nat → Nat)
  /-- `ide_write` of the table -/
  | table (k : Nat) (blocks : Nat → Nat)
  /-- `ide_write` of the new block `k`, with the entry in front -/
  | first (k : Nat) (blocks : Nat → Nat)
  /-- `ide_read` of block `k` -/
  | read (k : Nat) (blocks : Nat → Nat)
  /-- `ide_write` of block `k`, read as `ioBuf`, with the entry in slot `e` -/
  | write (k e : Nat) (ioBuf : Mem) (blocks : Nat → Nat)
  /-- through, with the entry in slot `e` of block `k` -/
  | returned (ok : Bool) (k e : Nat)

/-- Processes that each put one entry into the directory with the struct `inode`,
which they share. -/
structure DirState (p : Partition) (N : Nat) where
  vol : Vol p
  inode : Inode
  entry : Fin N → DirEntry
  pc : Fin N → DirPc

namespace DirState

variable (s : DirState p N) (t : Fin N)

def goto (pc : DirPc) : DirState p N := { s with pc := Function.update s.pc t pc }

/-- `while (block_idx < 140)`, up to the next transfer. -/
def enter (k : Nat) (blocks : Nat → Nat) : Option (DirState p N) :=
  if k < 140 then
    if blocks k = 0 then do
      let (blockLba, vol) ← blockBitmapAlloc s.vol
      if blockLba = -1 then return { s with vol }.goto t (.returned false k 0)
      return { s with vol }.goto t (.bitmap k blockLba.toNat blocks)
    else some (s.goto t (.read k blocks))
  else some (s.goto t (.returned false k 0))

/-- The bitmap is written, and the block enters the inode or the table. -/
def linkBlock (k lba : Nat) (blocks : Nat → Nat) : Option (DirState p N) := do
  let vol ← bitmapSync s.vol (lba - p.dataStartLba) .blockBitmap
  if k < 12 then
    return { s with vol, inode := s.inode.setSec k lba }.goto t (.first k (setWord blocks k lba))
  else if k = 12 then do
    let inode := s.inode.setSec 12 lba
    let (blockLba, vol) ← blockBitmapAlloc vol
    if blockLba = -1 then
      let vol := vol.setBlock (blockBit p (inode.sec 12)) false
      return { s with vol, inode := inode.setSec 12 0 }.goto t (.returned false k 0)
    return { s with vol, inode }.goto t (.bitmap12 blockLba.toNat blocks)
  else
    return { s with vol }.goto t (.table k (setWord blocks k lba))

/-- The transfer of `t` is made, and `t` goes on to the next. -/
def go : Option (DirState p N) :=
  match s.pc t with
  | .before => do
    ensure (s.inode.size % dirEntrySize = 0)
    s.enter t 0 (directBlocks s.inode)
  | .bitmap k lba blocks => s.linkBlock t k lba blocks
  | .bitmap12 lba blocks => do
    let vol ← bitmapSync s.vol (lba - p.dataStartLba) .blockBitmap
    return { s with vol }.goto t (.table 12 (setWord blocks 12 lba))
  | .table k blocks => do
    let disk ← writeTable s.vol.disk (s.inode.sec 12) blocks
    return { s with vol := { s.vol with disk } }.goto t (.first k blocks)
  | .first k blocks => do
    let ioBuf := Mem.zero.blit 0 (s.entry t).bytes dirEntrySize
    let disk ← ideWrite s.vol.disk (blocks k) ioBuf 1
    let inode := s.inode.setSize (s.inode.size + dirEntrySize)
    return { s with vol := { s.vol with disk }, inode }.goto t (.read k blocks)
  | .read k blocks => do
    let ioBuf ← ideRead s.vol.disk (blocks k) Mem.zero 1
    match freeSlot ioBuf with
    | some e => return s.goto t (.write k e ioBuf blocks)
    | none => s.enter t (k + 1) blocks
  | .write k e ioBuf blocks => do
    let ioBuf := ioBuf.blit (dirEntrySize * e) (s.entry t).bytes dirEntrySize
    let disk ← ideWrite s.vol.disk (blocks k) ioBuf 1
    let inode := s.inode.setSize (s.inode.size + dirEntrySize)
    return { s with vol := { s.vol with disk }, inode }.goto t (.returned true k e)
  | .returned _ _ _ => none

end DirState

/-! ### A call that is alone -/

section Alone

variable (pDe : DirEntry)

/-- The loop from the `ide_read` of block `k` on. -/
def readOn (k : Nat) (v : Vol p) (inode : Inode) (blocks : Nat → Nat) :
    Option (Bool × Vol p × Inode) := do
  let ioBuf ← ideRead v.disk (blocks k) Mem.zero 1
  match freeSlot ioBuf with
  | some e =>
    let ioBuf := ioBuf.blit (dirEntrySize * e) pDe.bytes dirEntrySize
    let disk ← ideWrite v.disk (blocks k) ioBuf 1
    return (true, { v with disk }, inode.setSize (inode.size + dirEntrySize))
  | none => syncLoop blockBitmapAlloc pDe (139 - k) (k + 1) v inode blocks

def firstOn (k : Nat) (v : Vol p) (inode : Inode) (blocks : Nat → Nat) :
    Option (Bool × Vol p × Inode) := do
  let disk ← ideWrite v.disk (blocks k) (Mem.zero.blit 0 pDe.bytes dirEntrySize) 1
  readOn pDe k { v with disk } (inode.setSize (inode.size + dirEntrySize)) blocks

def tableOn (k : Nat) (v : Vol p) (inode : Inode) (blocks : Nat → Nat) :
    Option (Bool × Vol p × Inode) := do
  let disk ← writeTable v.disk (inode.sec 12) blocks
  firstOn pDe k { v with disk } inode blocks

/-- What the call still has to do. -/
def DirPc.rest (v : Vol p) (inode : Inode) : DirPc → Option (Bool × Vol p × Inode)
  | .before => syncDirEntry v inode pDe
  | .bitmap k lba blocks => do
    let v ← bitmapSync v (lba - p.dataStartLba) .blockBitmap
    if k < 12 then firstOn pDe k v (inode.setSec k lba) (setWord blocks k lba)
    else if k = 12 then do
      let inode := inode.setSec 12 lba
      let (blockLba, v) ← blockBitmapAlloc v
      if blockLba = -1 then
        return (false, v.setBlock (blockBit p (inode.sec 12)) false, inode.setSec 12 0)
      let v ← bitmapSync v (blockLba.toNat - p.dataStartLba) .blockBitmap
      tableOn pDe 12 v inode (setWord blocks 12 blockLba.toNat)
    else tableOn pDe k v inode (setWord blocks k lba)
  | .bitmap12 lba blocks => do
    let v ← bitmapSync v (lba - p.dataStartLba) .blockBitmap
    tableOn pDe 12 v inode (setWord blocks 12 lba)
  | .table k blocks => tableOn pDe k v inode blocks
  | .first k blocks => firstOn pDe k v inode blocks
  | .read k blocks => readOn pDe k v inode blocks
  | .write k e ioBuf blocks => do
    let ioBuf := ioBuf.blit (dirEntrySize * e) pDe.bytes dirEntrySize
    let disk ← ideWrite v.disk (blocks k) ioBuf 1
    return (true, { v with disk }, inode.setSize (inode.size + dirEntrySize))
  | .returned ok _ _ => some (ok, v, inode)

end Alone

theorem enter_rest {s s' : DirState p N} {t : Fin N} {k : Nat} {blocks : Nat → Nat}
    (h : s.enter t k blocks = some s') :
    syncLoop blockBitmapAlloc (s.entry t) (140 - k) k s.vol s.inode blocks =
      (s'.pc t).rest (s.entry t) s'.vol s'.inode := by
  unfold DirState.enter at h
  by_cases hk : k < 140
  · rw [if_pos hk] at h
    obtain ⟨n, hn⟩ : ∃ n, 140 - k = n + 1 := ⟨139 - k, by omega⟩
    obtain rfl : n = 139 - k := by omega
    rw [hn, syncLoop]
    by_cases hz : blocks k = 0
    · simp only [if_pos hz, Option.bind_eq_bind, Option.bind_eq_some_iff, Prod.exists] at h
      obtain ⟨lba, vol, halloc, h⟩ := h
      have hm1 := (alloc_spec halloc).1
      simp only [if_neg hm1, Option.pure_def, Option.some.injEq] at h
      subst h
      simp only [if_pos hz, addBlock, halloc, Option.bind_eq_bind, Option.bind_some, if_neg hm1,
        DirState.goto, Function.update_self, DirPc.rest, Option.bind_assoc]
      apply Option.bind_congr
      intro v _
      by_cases h12 : k < 12
      · simp only [if_pos h12, Option.bind_some, Bool.not_true, Bool.false_eq_true, if_false,
          firstOn, readOn, Option.bind_eq_bind, Option.bind_assoc, Option.pure_def] <;> rfl
      · by_cases he : k = 12
        · simp only [if_neg h12, if_pos he, Option.bind_assoc]
          apply Option.bind_congr
          intro r _
          obtain ⟨lba2, v2⟩ := r
          by_cases hm2 : lba2 = -1
          · simp only [if_pos hm2, Option.pure_def, Option.bind_some, Bool.not_false, if_true]
          · subst he
            simp only [if_neg hm2, Option.bind_assoc, Option.pure_def, Option.bind_some,
              Bool.not_true, Bool.false_eq_true, if_false, tableOn, firstOn, readOn,
              Option.bind_eq_bind] <;> rfl
        · simp only [if_neg h12, if_neg he, Option.bind_assoc, Option.pure_def, Option.bind_some,
            Bool.not_true, Bool.false_eq_true, if_false, tableOn, firstOn, readOn,
            Option.bind_eq_bind] <;> rfl
    · simp only [if_neg hz, Option.some.injEq] at h
      subst h
      simp only [if_neg hz, Option.bind_eq_bind, Option.bind_some, Bool.not_true,
        Bool.false_eq_true, if_false, DirState.goto, Function.update_self, DirPc.rest, readOn] <;> rfl
  · rw [if_neg hk, Option.some.injEq] at h
    subst h
    have hn : 140 - k = 0 := by omega
    simp only [hn, syncLoop, DirState.goto, Function.update_self, DirPc.rest]

/-- **A transfer and the rest are the whole.** So a process that nobody comes
between does what `syncDirEntry` does. -/
theorem dirGo_rest {s s' : DirState p N} {t : Fin N} (h : s.go t = some s') :
    (s.pc t).rest (s.entry t) s.vol s.inode = (s'.pc t).rest (s.entry t) s'.vol s'.inode := by
  unfold DirState.go at h
  cases hpc : s.pc t with
  | before =>
    simp only [hpc, Option.bind_eq_bind, Option.bind_eq_some_iff] at h
    obtain ⟨u, hu, h⟩ := h
    rw [← enter_rest h, DirPc.rest, syncDirEntry, syncDirEntryWith, hu]
    rfl
  | bitmap k lba blocks =>
    simp only [hpc, DirState.linkBlock, Option.bind_eq_bind, Option.bind_eq_some_iff] at h
    obtain ⟨v, hv, h⟩ := h
    simp only [DirPc.rest, hv, Option.bind_eq_bind, Option.bind_some]
    by_cases h12 : k < 12
    · simp only [if_pos h12, Option.pure_def, Option.some.injEq] at h ⊢
      subst h
      simp only [DirState.goto, Function.update_self]
    · by_cases he : k = 12
      · simp only [if_neg h12, if_pos he, Option.bind_eq_some_iff, Prod.exists] at h ⊢
        obtain ⟨lba2, v2, halloc, h⟩ := h
        have hm := (alloc_spec halloc).1
        simp only [if_neg hm, Option.pure_def, Option.some.injEq] at h
        subst h
        simp only [halloc, Option.bind_some, if_neg hm, DirState.goto, Function.update_self]
      · simp only [if_neg h12, if_neg he, Option.pure_def, Option.some.injEq] at h ⊢
        subst h
        simp only [DirState.goto, Function.update_self]
  | bitmap12 lba blocks =>
    simp only [hpc, Option.bind_eq_bind, Option.bind_eq_some_iff, Option.pure_def,
      Option.some.injEq] at h
    obtain ⟨v, hv, rfl⟩ := h
    simp only [DirPc.rest, hv, Option.bind_eq_bind, Option.bind_some, DirState.goto,
      Function.update_self]
  | table k blocks =>
    simp only [hpc, Option.bind_eq_bind, Option.bind_eq_some_iff, Option.pure_def,
      Option.some.injEq] at h
    obtain ⟨d, hd, rfl⟩ := h
    simp only [DirPc.rest, tableOn, hd, Option.bind_eq_bind, Option.bind_some, DirState.goto,
      Function.update_self]
  | first k blocks =>
    simp only [hpc, Option.bind_eq_bind, Option.bind_eq_some_iff, Option.pure_def,
      Option.some.injEq] at h
    obtain ⟨d, hd, rfl⟩ := h
    simp only [DirPc.rest, firstOn, hd, Option.bind_eq_bind, Option.bind_some, DirState.goto,
      Function.update_self]
  | read k blocks =>
    simp only [hpc, Option.bind_eq_bind, Option.bind_eq_some_iff] at h
    obtain ⟨buf, hbuf, h⟩ := h
    cases hslot : freeSlot buf with
    | some e =>
      simp only [hslot, Option.pure_def, Option.some.injEq] at h
      subst h
      simp only [DirState.goto, Function.update_self, DirPc.rest, readOn, hbuf, hslot,
        Option.bind_eq_bind, Option.bind_some]
    | none =>
      simp only [hslot] at h
      rw [← enter_rest h, show 140 - (k + 1) = 139 - k by omega]
      simp only [DirPc.rest, readOn, hbuf, hslot, Option.bind_eq_bind, Option.bind_some]
  | write k e buf blocks =>
    simp only [hpc, Option.bind_eq_bind, Option.bind_eq_some_iff, Option.pure_def,
      Option.some.injEq] at h
    obtain ⟨d, hd, rfl⟩ := h
    simp only [DirPc.rest, hd, Option.bind_eq_bind, Option.bind_some, DirState.goto,
      Function.update_self, Option.pure_def]
  | returned ok k e =>
    simp only [hpc] at h
    cases h

/-! ### Runs without a stale write-back -/

/-- The directory's direct blocks are taken, and no two are the same. -/
structure Direct (v : Vol p) (inode : Inode) : Prop where
  used : ∀ j, j < 12 → inode.sec j ≠ 0 → v.Used (inode.sec j)
  inj : ∀ j l, j < 12 → l < 12 → inode.sec j ≠ 0 → inode.sec j = inode.sec l → j = l

/-- Live entries, none of them begun. -/
def dirMachine (p : Partition) (N : Nat) : Machine (DirState p N) (Fin N) where
  start s := (∀ t, s.pc t = .before) ∧ (∀ t, (s.entry t).fType ≠ ftUnknown) ∧
    Direct s.vol s.inode
  may _ _ := True
  step := DirState.go

/-- The sector a process is about to fill for the first time. -/
def DirPc.fills : DirPc → Option Nat
  | .first k blocks => some (blocks k)
  | _ => none

/-- A new block enters the inode only where there is none, a block is read only
when nobody is about to fill it, and what is written back is still there. The search
does not leave the direct blocks, behind which `sync_dir_entry` overwrites the
directory's own table, whoever else writes. -/
def DirFresh (s : DirState p N) (t : Fin N) : Prop :=
  match s.pc t with
  | .bitmap k _ _ => s.inode.sec k = 0
  | .read k blocks =>
    (∀ u, (s.pc u).fills ≠ some (blocks k)) ∧
      (k = 11 → ∃ e, e < 21 ∧ (entryAt s.vol.disk (blocks k) e).fType = ftUnknown)
  | .write k _ ioBuf blocks =>
    ∀ i, i < 512 → s.vol.disk (512 * blocks k + i) = ioBuf i
  | _ => True

/-- All entries whose call has returned are in the directory. -/
def EntriesOnDisk (s : DirState p N) : Prop :=
  ∀ t ok k e, s.pc t = .returned ok k e → ok = true ∧ k < 12 ∧ e < 21 ∧
    s.inode.sec k ≠ 0 ∧ entryAt s.vol.disk (s.inode.sec k) e = s.entry t

/-- What a process remembers of the inode: each address is missing or right. -/
def Snap (blocks : Nat → Nat) (inode : Inode) : Prop :=
  ∀ j, j < 12 → blocks j ≠ 0 → blocks j = inode.sec j

/-- A process at block `k`, which is there. -/
structure AtBlock (k : Nat) (blocks : Nat → Nat) (inode : Inode) : Prop where
  lt : k < 12
  snap : Snap blocks inode
  here : blocks k = inode.sec k
  some : inode.sec k ≠ 0

namespace DirPc

/-- What holds of a process at each of its transfers. -/
def Ok (v : Vol p) (inode : Inode) (pDe : DirEntry) : DirPc → Prop
  | .before => True
  | .bitmap k lba blocks => k < 12 ∧ Snap blocks inode ∧ v.Used lba ∧
    ∀ j, j < 12 → inode.sec j ≠ lba
  | .bitmap12 _ _ => False
  | .table _ _ => False
  | .first k blocks => AtBlock k blocks inode
  | .read k blocks => AtBlock k blocks inode
  | .write k e ioBuf blocks => AtBlock k blocks inode ∧ e < 21 ∧
    (DirEntry.ofMem ioBuf (24 * e)).fType = ftUnknown
  | .returned ok k e => ok = true ∧ k < 12 ∧ e < 21 ∧ inode.sec k ≠ 0 ∧
    entryAt v.disk (inode.sec k) e = pDe

/-- The block taken and not yet linked. -/
def reserved : DirPc → Option Nat
  | .bitmap _ lba _ => some lba
  | _ => none

/-- The index of the block linked and not yet filled. -/
def filling : DirPc → Option Nat
  | .first k _ => some k
  | _ => none

/-- The index of the block the entry is going into, or is in. -/
def target : DirPc → Option Nat
  | .first k _ => some k
  | .write k _ _ _ => some k
  | .returned _ k _ => some k
  | _ => none

end DirPc

structure DirInv (s : DirState p N) : Prop where
  typed : ∀ t, (s.entry t).fType ≠ ftUnknown
  direct : Direct s.vol s.inode
  ok : ∀ t, (s.pc t).Ok s.vol s.inode (s.entry t)
  reserved : ∀ t u lba, (s.pc t).reserved = some lba → (s.pc u).reserved = some lba → t = u
  filling : ∀ t u k, (s.pc t).filling = some k → (s.pc u).target = some k → t = u

/-- One process moves; the others are still right about the inode and the disk. -/
theorem DirInv.move {s : DirState p N} (h : DirInv s) {t : Fin N} {vol : Vol p} {inode : Inode}
    {pc : DirPc} (hdirect : Direct vol inode) (hok : pc.Ok vol inode (s.entry t))
    (hothers : ∀ u, u ≠ t → (s.pc u).Ok vol inode (s.entry u))
    (hres : ∀ u lba, u ≠ t → pc.reserved = some lba → (s.pc u).reserved ≠ some lba)
    (hfill : ∀ u k, u ≠ t → pc.filling = some k → (s.pc u).target ≠ some k)
    (htarget : ∀ u k, u ≠ t → pc.target = some k → (s.pc u).filling ≠ some k) :
    DirInv ({ s with vol, inode }.goto t pc) := by
  have hself : ({ s with vol, inode }.goto t pc).pc t = pc := Function.update_self ..
  have hne : ∀ u, u ≠ t → ({ s with vol, inode }.goto t pc).pc u = s.pc u := fun u hu =>
    Function.update_of_ne hu ..
  refine ⟨h.typed, hdirect, fun u => ?_, fun u w lba hu hw => ?_, fun u w k hu hw => ?_⟩
  · by_cases hut : u = t
    · rw [hut, hself]
      exact hok
    · rw [hne u hut]
      exact hothers u hut
  · by_cases hut : u = t
    · by_cases hwt : w = t
      · rw [hut, hwt]
      · rw [hut, hself] at hu
        rw [hne w hwt] at hw
        exact absurd hw (hres w lba hwt hu)
    · rw [hne u hut] at hu
      by_cases hwt : w = t
      · rw [hwt, hself] at hw
        exact absurd hu (hres u lba hut hw)
      · rw [hne w hwt] at hw
        exact h.reserved u w lba hu hw
  · by_cases hut : u = t
    · by_cases hwt : w = t
      · rw [hut, hwt]
      · rw [hut, hself] at hu
        rw [hne w hwt] at hw
        exact absurd hw (hfill w k hwt hu)
    · rw [hne u hut] at hu
      by_cases hwt : w = t
      · rw [hwt, hself] at hw
        exact absurd hu (htarget u k hut hw)
      · rw [hne w hwt] at hw
        exact h.filling u w k hu hw

/-- What `Ok` depends on. -/
theorem DirPc.Ok.mono {v v' : Vol p} {inode inode' : Inode} {pDe : DirEntry} {pc : DirPc}
    (h : pc.Ok v inode pDe) (hused : ∀ b, v.Used b → v'.Used b)
    (hsec : ∀ j, j < 12 → inode.sec j ≠ 0 → inode'.sec j = inode.sec j)
    (hnew : ∀ lba j, pc.reserved = some lba → j < 12 → inode'.sec j ≠ lba)
    (hentry : ∀ ok k e, pc = .returned ok k e → k < 12 → e < 21 → inode.sec k ≠ 0 →
      entryAt v.disk (inode.sec k) e = pDe → entryAt v'.disk (inode.sec k) e = pDe) :
    pc.Ok v' inode' pDe := by
  have hsnap : ∀ {blocks}, Snap blocks inode → Snap blocks inode' := by
    intro blocks hs j hj h0
    have he := hs j hj h0
    rw [hsec j hj (he ▸ h0)]
    exact he
  have hat : ∀ {k blocks}, AtBlock k blocks inode → AtBlock k blocks inode' := by
    intro k blocks ha
    have he := hsec k ha.lt ha.some
    exact ⟨ha.lt, hsnap ha.snap, he ▸ ha.here, he ▸ ha.some⟩
  cases pc with
  | before => trivial
  | bitmap k lba blocks =>
    obtain ⟨hk, hs, hu, -⟩ := h
    exact ⟨hk, hsnap hs, hused lba hu, fun j hj => hnew lba j rfl hj⟩
  | bitmap12 lba blocks => exact h
  | table k blocks => exact h
  | first k blocks => exact hat h
  | read k blocks => exact hat h
  | write k e buf blocks => exact ⟨hat h.1, h.2⟩
  | returned ok k e =>
    obtain ⟨hok, hk, he, h0, hentryAt⟩ := h
    have hk' := hsec k hk h0
    refine ⟨hok, hk, he, hk' ▸ h0, ?_⟩
    rw [hk']
    exact hentry ok k e rfl hk he h0 hentryAt

theorem DirPc.Ok.of_reserved {v : Vol p} {inode : Inode} {pDe : DirEntry} {pc : DirPc} {lba : Nat}
    (h : pc.Ok v inode pDe) (hr : pc.reserved = some lba) :
    v.Used lba ∧ ∀ j, j < 12 → inode.sec j ≠ lba := by
  cases pc with
  | bitmap k lba' blocks =>
    obtain rfl : lba' = lba := Option.some.inj hr
    exact h.2.2
  | _ => cases hr

/-- A block that is being filled, or that an entry goes into, is there. -/
theorem DirPc.Ok.of_target {v : Vol p} {inode : Inode} {pDe : DirEntry} {pc : DirPc} {k : Nat}
    (h : pc.Ok v inode pDe) (hk : pc.target = some k) : k < 12 ∧ inode.sec k ≠ 0 := by
  cases pc with
  | first k' blocks =>
    obtain rfl : k' = k := Option.some.inj hk
    exact ⟨AtBlock.lt h, AtBlock.some h⟩
  | write k' e buf blocks =>
    obtain rfl : k' = k := Option.some.inj hk
    exact ⟨h.1.lt, h.1.some⟩
  | returned ok k' e =>
    obtain rfl : k' = k := Option.some.inj hk
    exact ⟨h.2.1, h.2.2.2.1⟩
  | _ => cases hk

theorem DirPc.target_of_filling {pc : DirPc} {k : Nat} (h : pc.filling = some k) :
    pc.target = some k := by
  cases pc with
  | first k' blocks => exact h
  | _ => cases h

/-- Blocks that are in use lie behind the bitmaps. -/
theorem Grow.entryAt {v v' : Vol p} (h : Grow v v') {b e : Nat} (hb : v.Used b) (he : e < 21) :
    entryAt v'.disk b e = entryAt v.disk b e := by
  have hge := hb.1
  exact entryAt_congr (fun i _ => h.data (by omega)) he

theorem enter_inv {s s' : DirState p N} (h : DirInv s) {t : Fin N} {k : Nat} {blocks : Nat → Nat}
    (hk : k < 12) (hsnap : Snap blocks s.inode) (hgo : s.enter t k blocks = some s') :
    DirInv s' := by
  unfold DirState.enter at hgo
  rw [if_pos (by omega)] at hgo
  by_cases hz : blocks k = 0
  · simp only [if_pos hz, Option.bind_eq_bind, Option.bind_eq_some_iff, Prod.exists] at hgo
    obtain ⟨lba, vol, halloc, hgo⟩ := hgo
    obtain ⟨hm, hfresh, hgrow, -, -, -⟩ := alloc_spec halloc
    simp only [if_neg hm, Option.pure_def, Option.some.injEq] at hgo
    subst hgo
    -- the block is free, so it is neither one of the directory's nor anybody's
    have hsec : ∀ j, j < 12 → s.inode.sec j ≠ lba.toNat := by
      intro j hj he
      have h0 : s.inode.sec j ≠ 0 := he ▸ hfresh.ne_zero
      exact hfresh.free (he ▸ h.direct.used j hj h0)
    refine h.move ⟨fun j hj h0 => hgrow.mono _ (h.direct.used j hj h0), h.direct.inj⟩
      ⟨hk, hsnap, hfresh.used, hsec⟩ (fun u hu => ?_) (fun u b hu hb hub => ?_)
      (fun u j _ hj => by cases hj) (fun u j _ hj => by cases hj)
    · refine (h.ok u).mono hgrow.mono (fun _ _ _ => rfl) (fun b j hb hj => ?_)
        (fun ok j e _ hj he h0 hent => ?_)
      · exact ((h.ok u).of_reserved hb).2 j hj
      · rw [hgrow.entryAt (h.direct.used j hj h0) he]
        exact hent
    · obtain rfl : lba.toNat = b := Option.some.inj hb
      exact hfresh.free ((h.ok u).of_reserved hub).1
  · simp only [if_neg hz, Option.some.injEq] at hgo
    subst hgo
    have hhere := hsnap k hk hz
    show DirInv ({ s with vol := s.vol, inode := s.inode }.goto t (.read k blocks))
    exact h.move h.direct ⟨hk, hsnap, hhere, hhere ▸ hz⟩ (fun u _ => h.ok u)
      (fun u b _ hb => by cases hb) (fun u j _ hj => by cases hj) (fun u j _ hj => by cases hj)

theorem linkBlock_inv {s s' : DirState p N} (h : DirInv s) {t : Fin N} {k lba : Nat}
    {blocks : Nat → Nat} (hpc : s.pc t = .bitmap k lba blocks) (hempty : s.inode.sec k = 0)
    (hgo : s.linkBlock t k lba blocks = some s') : DirInv s' := by
  have hok := h.ok t
  rw [hpc] at hok
  obtain ⟨hk, hsnap, hused, hnew⟩ := hok
  simp only [DirState.linkBlock, if_pos hk, Option.bind_eq_bind, Option.bind_eq_some_iff,
    Option.pure_def, Option.some.injEq] at hgo
  obtain ⟨vol, hsync, rfl⟩ := hgo
  have hge := hused.1
  have hword := p.block_lt hused.2.1
  obtain ⟨hgrow, -⟩ := sync_grow hused.2.1 hsync
  have hsec : ∀ j, (s.inode.setSec k lba).sec j = if j = k then lba else s.inode.sec j :=
    Inode.sec_setSec (by omega) (by omega)
  have hkeep : ∀ j, s.inode.sec j ≠ 0 → (s.inode.setSec k lba).sec j = s.inode.sec j := by
    intro j h0
    rw [hsec, if_neg fun he => h0 (by rw [he]; exact hempty)]
  have hlba : lba ≠ 0 := by
    have := dataStartLba_pos p
    omega
  have hat : AtBlock k (setWord blocks k lba) (s.inode.setSec k lba) := by
    refine ⟨hk, fun j hj h0 => ?_, ?_, ?_⟩
    · rw [hsec, setWord] at *
      by_cases hjk : j = k
      · rw [if_pos hjk, if_pos hjk]
      · rw [if_neg hjk] at h0 ⊢
        rw [if_neg hjk]
        exact hsnap j hj h0
    · rw [hsec, if_pos rfl, setWord, if_pos rfl]
    · rw [hsec, if_pos rfl]
      exact hlba
  refine h.move ⟨fun j hj h0 => ?_, fun j l hj hl h0 he => ?_⟩ hat (fun u hu => ?_)
    (fun u b _ hb => by cases hb) (fun u j hu hj hut => ?_) (fun u j hu hj huf => ?_)
  · rw [hsec] at h0 ⊢
    split at h0
    · next hjk =>
      rw [if_pos hjk]
      exact hgrow.mono _ hused
    · next hjk =>
      rw [if_neg hjk]
      exact hgrow.mono _ (h.direct.used j hj h0)
  · rw [hsec] at h0
    rw [hsec, hsec] at he
    by_cases hjk : j = k
    · by_cases hlk : l = k
      · rw [hjk, hlk]
      · rw [if_pos hjk, if_neg hlk] at he
        exact absurd he.symm (hnew l hl)
    · rw [if_neg hjk] at h0 he
      by_cases hlk : l = k
      · rw [if_pos hlk] at he
        exact absurd he (hnew j hj)
      · rw [if_neg hlk] at he
        exact h.direct.inj j l hj hl h0 he
  · refine (h.ok u).mono hgrow.mono (fun j _ h0 => hkeep j h0) (fun b j hb hj => ?_)
      (fun ok j e _ hj he h0 hent => ?_)
    · rw [hsec]
      split
      · -- two processes do not reserve the same block
        intro hlb
        refine hu (h.reserved u t b hb ?_)
        rw [hpc, ← hlb]
        rfl
      · exact ((h.ok u).of_reserved hb).2 j hj
    · rw [hgrow.entryAt (h.direct.used j hj h0) he]
      exact hent
  · obtain rfl : k = j := Option.some.inj hj
    exact ((h.ok u).of_target hut).2 hempty
  · obtain rfl : k = j := Option.some.inj hj
    exact ((h.ok u).of_target (DirPc.target_of_filling huf)).2 hempty

/-- Filling a new block keeps the entries of the others, which are elsewhere. -/
theorem first_inv {s s' : DirState p N} (h : DirInv s) {t : Fin N} {k : Nat} {blocks : Nat → Nat}
    (hpc : s.pc t = .first k blocks) (hgo : s.go t = some s') : DirInv s' := by
  have hok := h.ok t
  rw [hpc] at hok
  have hat : AtBlock k blocks s.inode := hok
  simp only [DirState.go, hpc, Option.bind_eq_bind, Option.bind_eq_some_iff, Option.pure_def,
    Option.some.injEq] at hgo
  obtain ⟨disk, hwrite, rfl⟩ := hgo
  obtain ⟨-, -, hframe⟩ := ideWrite_firstSector hwrite
  refine h.move ⟨h.direct.used, h.direct.inj⟩ ⟨hat.lt, hat.snap, hat.here, hat.some⟩
    (fun u hu => ?_) (fun u b _ hb => by cases hb) (fun u j _ hj => by cases hj)
    (fun u j _ hj => by cases hj)
  refine (h.ok u).mono (fun b hb => hb) (fun _ _ _ => rfl) (fun b j hb hj => ?_)
    (fun ok j e hret hj he h0 hent => ?_)
  · exact ((h.ok u).of_reserved hb).2 j hj
  · have hjk : j ≠ k := by
      intro hjk
      refine hu (h.filling t u k ?_ ?_).symm
      · rw [hpc]
        rfl
      · rw [hret, hjk]
        rfl
    have hsector : s.inode.sec j ≠ blocks k := by
      rw [hat.here]
      exact fun heq => hjk (h.direct.inj j k hj hat.lt h0 heq)
    rw [← hent]
    exact entryAt_congr (fun i hi => hframe _ (by omega)) he

/-- A block that is read has been filled, so from here on the entry may go into it. -/
theorem read_inv {s s' : DirState p N} (h : DirInv s) {t : Fin N} {k : Nat} {blocks : Nat → Nat}
    (hpc : s.pc t = .read k blocks)
    (hfilled : ∀ u, (s.pc u).fills ≠ some (blocks k))
    (hroom : k = 11 → ∃ e, e < 21 ∧ (entryAt s.vol.disk (blocks k) e).fType = ftUnknown)
    (hgo : s.go t = some s') : DirInv s' := by
  have hok := h.ok t
  rw [hpc] at hok
  have hat : AtBlock k blocks s.inode := hok
  simp only [DirState.go, hpc, Option.bind_eq_bind, Option.bind_eq_some_iff] at hgo
  obtain ⟨ioBuf, hread, hgo⟩ := hgo
  obtain ⟨-, -, hbuf⟩ := ideRead_sector hread
  cases hslot : freeSlot ioBuf with
  | some e =>
    simp only [hslot, Option.pure_def, Option.some.injEq] at hgo
    subst hgo
    obtain ⟨he, hfree, -⟩ := freeSlot_some hslot
    show DirInv ({ s with vol := s.vol, inode := s.inode }.goto t (.write k e ioBuf blocks))
    refine h.move h.direct ⟨hat, he, hfree⟩ (fun u _ => h.ok u) (fun u b _ hb => by cases hb)
      (fun u j _ hj => by cases hj) (fun u j _ hj huf => ?_)
    obtain rfl : k = j := Option.some.inj hj
    cases hu : s.pc u with
    | first k' blocks' =>
      rw [hu] at huf
      obtain rfl : k' = k := Option.some.inj huf
      have hoku := h.ok u
      rw [hu] at hoku
      apply hfilled u
      rw [hu, DirPc.fills, AtBlock.here hoku, hat.here]
    | _ =>
      rw [hu] at huf
      cases huf
  | none =>
    simp only [hslot] at hgo
    refine enter_inv h ?_ hat.snap hgo
    by_contra hlt
    have hk := hat.lt
    obtain ⟨e, he, hfree⟩ := hroom (by omega)
    rw [← ofMem_sector hbuf he] at hfree
    exact freeSlot_none hslot he hfree

/-- A write-back of a sector that has not changed puts the entry into its free slot
and changes nothing else. -/
theorem write_inv {s s' : DirState p N} (h : DirInv s) {t : Fin N} {k e : Nat} {ioBuf : Mem}
    {blocks : Nat → Nat} (hpc : s.pc t = .write k e ioBuf blocks)
    (hfresh : ∀ i, i < 512 → s.vol.disk (512 * blocks k + i) = ioBuf i)
    (hgo : s.go t = some s') : DirInv s' := by
  have hok := h.ok t
  rw [hpc] at hok
  obtain ⟨hat, he, hfree⟩ := hok
  simp only [DirState.go, hpc, Option.bind_eq_bind, Option.bind_eq_some_iff, Option.pure_def,
    Option.some.injEq, ideWrite_eq_some, dirEntrySize] at hgo
  obtain ⟨disk, ⟨-, -, rfl⟩, rfl⟩ := hgo
  rw [Mem.blit_blit _ _ _ (by omega) hfresh, hat.here]
  rw [ofMem_sector (fun i hi => (hfresh i hi).symm) he, hat.here] at hfree
  refine h.move ⟨h.direct.used, h.direct.inj⟩ ⟨rfl, hat.lt, he, hat.some, ?_⟩ (fun u hu => ?_)
    (fun u b _ hb => by cases hb) (fun u j _ hj => by cases hj) (fun u j hu hj huf => ?_)
  · rw [Inode.sec_setSize]
    show entryAt (s.vol.disk.blit _ _ _) _ _ = _
    rw [entryAt_store he he, if_pos ⟨rfl, rfl⟩]
  · refine (h.ok u).mono (fun b hb => hb) (fun _ _ _ => rfl) (fun b j hb hj => ?_)
      (fun ok j e' _ hj he' h0 hent => ?_)
    · exact ((h.ok u).of_reserved hb).2 j hj
    · -- the slot is free, and `u`'s is not
      show entryAt (s.vol.disk.blit _ _ _) _ _ = _
      rw [entryAt_store he he', if_neg, hent]
      intro hin
      obtain ⟨hb, hee⟩ := hin
      rw [hb, hee] at hent
      rw [hent] at hfree
      exact h.typed u hfree
  · obtain rfl : k = j := Option.some.inj hj
    refine hu (h.filling u t k huf ?_)
    rw [hpc]
    rfl

/-- One transfer, whichever it is. -/
theorem dir_step {s s' : DirState p N} (h : DirInv s) {t : Fin N} (hfresh : DirFresh s t)
    (hgo : s.go t = some s') : DirInv s' := by
  unfold DirFresh at hfresh
  have hok := h.ok t
  cases hpc : s.pc t with
  | before =>
    simp only [DirState.go, hpc, Option.bind_eq_bind, Option.bind_eq_some_iff] at hgo
    obtain ⟨-, -, hgo⟩ := hgo
    exact enter_inv h (by decide) (fun j hj _ => directBlocks_lt hj) hgo
  | bitmap k lba blocks =>
    simp only [hpc] at hfresh
    simp only [DirState.go, hpc] at hgo
    exact linkBlock_inv h hpc hfresh hgo
  | bitmap12 lba blocks =>
    rw [hpc] at hok
    exact hok.elim
  | table k blocks =>
    rw [hpc] at hok
    exact hok.elim
  | first k blocks => exact first_inv h hpc hgo
  | read k blocks =>
    simp only [hpc] at hfresh
    exact read_inv h hpc hfresh.1 hfresh.2 hgo
  | write k e buf blocks =>
    simp only [hpc] at hfresh
    exact write_inv h hpc hfresh hgo
  | returned ok k e =>
    simp only [DirState.go, hpc] at hgo
    cases hgo

theorem entriesOnDisk_of_reach {s : DirState p N} (h : (dirMachine p N).Reach DirFresh s) :
    EntriesOnDisk s := by
  have hinv : DirInv s := by
    refine Machine.Reach.invariant ?_ ?_ h
    · intro s hs
      obtain ⟨hbefore, htyped, hdirect⟩ := hs
      refine ⟨htyped, hdirect, fun t => ?_, fun t u lba ht => ?_, fun t u k ht => ?_⟩
      · rw [hbefore t]
        trivial
      · rw [hbefore t] at ht
        cases ht
      · rw [hbefore t] at ht
        cases ht
    · intro s t s' hinv _ hfresh hgo
      exact dir_step hinv hfresh hgo
  intro t ok k e hpc
  have hok := hinv.ok t
  rw [hpc] at hok
  exact hok

/-! ## Both together -/

/-- **Nothing written is lost** in a run without a stale write-back: every inode
whose `inode_sync` has returned is in its slot, and every entry whose
`sync_dir_entry` has returned is in the directory. -/
theorem no_lost_update (p : Partition) (N : Nat) :
    (∀ s : SyncState p N, (syncMachine p N).Reach InodeFresh s → InodesOnDisk s) ∧
      ∀ s : DirState p N, (dirMachine p N).Reach DirFresh s → EntriesOnDisk s :=
  ⟨fun _ h => inodesOnDisk_of_reach h, fun _ h => entriesOnDisk_of_reach h⟩

instance (s : SyncState p N) (t : Fin N) : Decidable ((syncMachine p N).may s t) :=
  isTrue trivial

instance (s : DirState p N) (t : Fin N) : Decidable ((dirMachine p N).may s t) :=
  isTrue trivial

instance (s : SyncState p N) (t : Fin N) : Decidable (InodeFresh s t) := by
  unfold InodeFresh
  cases s.pc t <;> infer_instance

instance (s : DirState p N) (t : Fin N) : Decidable (DirFresh s t) := by
  unfold DirFresh
  cases s.pc t <;> infer_instance

/-- Inodes 1 and 2, which share a sector of the table. -/
def twoInodes : SyncState blankPartition 2 where
  vol := blankVol
  inode := fun t => blankInode (t + 1)
  pc := fun _ => .before

/-- Two regular files for a directory of one block with nothing in it. -/
def twoEntries : DirState blankPartition 2 where
  vol := blankVol.setBlock 0 true
  inode := (blankInode 0).setSec 0 blankPartition.dataStartLba
  entry := fun t => ⟨fun k => if k = 0 then 97 + UInt8.ofNat t else 0, UInt32.ofNat (t + 1), ftRegular⟩
  pc := fun _ => .before

/-- Is the call through? -/
def SyncPc.isReturned : SyncPc → Bool
  | .returned => true
  | _ => false

def DirPc.isReturned : DirPc → Bool
  | .returned _ _ _ => true
  | _ => false

theorem twoInodes_start : (syncMachine blankPartition 2).start twoInodes :=
  ⟨fun _ => rfl, by decide, by decide⟩

theorem twoEntries_start : (dirMachine blankPartition 2).start twoEntries := by
  have hsec : ∀ j, twoEntries.inode.sec j =
      if j = 0 then blankPartition.dataStartLba else (blankInode 0).sec j :=
    Inode.sec_setSec (by decide) (by decide)
  have hzero : ∀ j, j < 12 → (blankInode 0).sec j = 0 := by decide
  -- block 0 is the only one
  have honly : ∀ j, j < 12 → twoEntries.inode.sec j ≠ 0 → j = 0 := by
    intro j hj h0
    by_contra hne
    rw [hsec, if_neg hne] at h0
    exact h0 (hzero j hj)
  refine ⟨fun _ => rfl, by decide, fun j hj h0 => ?_, fun j l hj hl h0 he => ?_⟩
  · rw [honly j hj h0]
    decide
  · rw [honly j hj h0, honly l hl (he ▸ h0)]

/-- Two inodes of one sector, one after the other, and two entries of one block, the
second read only after the first is in place. -/
theorem no_lost_update_in_turn :
    (∃ s, (syncMachine blankPartition 2).follow InodeFresh twoInodes [0, 0, 1, 1] = some s ∧
      (∀ t, (s.pc t).isReturned = true) ∧ InodesOnDisk s) ∧
    ∃ s, (dirMachine blankPartition 2).follow DirFresh twoEntries [0, 1, 0, 0, 1, 1] = some s ∧
      (∀ t, (s.pc t).isReturned = true) ∧ EntriesOnDisk s := by
  have h := no_lost_update blankPartition 2
  have hsync : ((syncMachine blankPartition 2).follow InodeFresh twoInodes [0, 0, 1, 1]).map
      (fun s => decide (∀ t, (s.pc t).isReturned = true)) = some true := by decide +kernel
  have hdir : ((dirMachine blankPartition 2).follow DirFresh twoEntries [0, 1, 0, 0, 1, 1]).map
      (fun s => decide (∀ t, (s.pc t).isReturned = true)) = some true := by decide +kernel
  obtain ⟨s, hs, hret⟩ := Option.map_eq_some_iff.mp hsync
  obtain ⟨s', hs', hret'⟩ := Option.map_eq_some_iff.mp hdir
  exact ⟨⟨s, hs, of_decide_eq_true hret,
      h.1 s (Machine.reach_of_follow (Machine.Reach.start twoInodes_start) hs)⟩,
    s', hs', of_decide_eq_true hret',
      h.2 s' (Machine.reach_of_follow (Machine.Reach.start twoEntries_start) hs')⟩

/-- **Both kinds of update are lost** when the transfers alternate: the second
write-back of the sector puts zeros back where inode 1 was, and both entries take
slot 0 of the block. -/
theorem stale_write_loses_update :
    (∃ s, (syncMachine blankPartition 2).Reachable s ∧ (∀ t, (s.pc t).isReturned = true) ∧
      ¬InodesOnDisk s) ∧
    ∃ s, (dirMachine blankPartition 2).Reachable s ∧ (∀ t, (s.pc t).isReturned = true) ∧
      ∀ k e, k < 12 → e < 21 → entryAt s.vol.disk (s.inode.sec k) e ≠ s.entry 0 := by
  have hsync : ((syncMachine blankPartition 2).follow (fun _ _ => True) twoInodes
      [0, 1, 0, 1]).map (fun s => (decide (∀ t, (s.pc t).isReturned = true),
        decide ((s.inode 0).no = 1), s.vol.disk (blankPartition.slotAddr 1),
        (s.inode 0).pureInode.bytes 0)) = some (true, true, 0, 1) := by decide +kernel
  have hdir : ((dirMachine blankPartition 2).follow (fun _ _ => True) twoEntries
      [0, 1, 0, 1, 0, 1]).map (fun s => (decide (∀ t, (s.pc t).isReturned = true),
        decide (∀ (k : Fin 12) (e : Fin 21),
          (entryAt s.vol.disk (s.inode.sec k) e).iNo ≠ (s.entry 0).iNo))) = some (true, true) := by
    decide +kernel
  obtain ⟨s, hs, he⟩ := Option.map_eq_some_iff.mp hsync
  obtain ⟨s', hs', he'⟩ := Option.map_eq_some_iff.mp hdir
  simp only [Prod.mk.injEq, decide_eq_true_eq] at he he'
  obtain ⟨hret, hno, hzero, hone⟩ := he
  refine ⟨⟨s, Machine.reach_of_follow (Machine.Reach.start twoInodes_start) hs, hret, ?_⟩,
    s', Machine.reach_of_follow (Machine.Reach.start twoEntries_start) hs', he'.1, ?_⟩
  · intro hdisk
    have h0 := hdisk 0
    have hr := hret 0
    cases hpc : s.pc 0 with
    | returned =>
      simp only [hpc, hno] at h0
      have hbyte := h0 0 (by decide)
      rw [Nat.add_zero, hzero, hone] at hbyte
      exact absurd hbyte (by decide)
    | _ =>
      rw [hpc] at hr
      cases hr
  · intro k e hk he hent
    exact he'.2 ⟨k, hk⟩ ⟨e, he⟩ (by rw [hent])

end OsCore.Fs
