import OsCore.Fs.Volume

/-!
# Inodes and the inode table (`fs/inode.c`)

`struct inode` is 76 bytes: nineteen words, of which the open count, the write
lock and the list links mean something in memory only. The table on disk is an
array of these, so slot `n` starts at byte `slotAddr n` and, since 76 does not
divide 512, some slots straddle two sectors. In the flat view of the disk that
detail disappears: reading the one or two sectors, patching 76 bytes and
writing them back is one `blit` of 76 bytes (`inodeSync_eq`,
`inodeDelete_eq`).

`inodeSync` takes the slot number from a `uint8_t`, so an inode numbered 256
or more lands in slot `no % 256`. `inode_sync_slot_iff` says exactly when the
write-back is the one it should be.

Buffers are taken to be as large as what is read into them; whether the
callers' buffers are is a question of its own.
-/

namespace OsCore.Fs

/-- `struct inode`. `writeDeny` is a C `bool`, an `int` here. -/
@[ext] structure Inode where
  iNo : UInt32
  iSize : UInt32
  iOpenCnts : UInt32
  writeDeny : UInt32
  iSectors : Fin 13 → UInt32
  tagPrev : UInt32
  tagNext : UInt32

namespace Inode

/-- The inode number. -/
def no (ino : Inode) : Nat := ino.iNo.toNat

/-- `i_size`. -/
def size (ino : Inode) : Nat := ino.iSize.toNat

/-- `i_sectors[k]`. -/
def sec (ino : Inode) (k : Nat) : Nat := if h : k < 13 then (ino.iSectors ⟨k, h⟩).toNat else 0

/-- `i_sectors[k] = b`. -/
def setSec (ino : Inode) (k b : Nat) : Inode :=
  { ino with iSectors := fun j => if j.val = k then UInt32.ofNat b else ino.iSectors j }

/-- `i_size = n`. -/
def setSize (ino : Inode) (n : Nat) : Inode := { ino with iSize := UInt32.ofNat n }

/-- `i_open_cnts = n`. -/
def setOpenCnts (ino : Inode) (n : Nat) : Inode := { ino with iOpenCnts := UInt32.ofNat n }

theorem size_lt (ino : Inode) : ino.size < 2 ^ 32 := ino.iSize.toNat_lt

theorem sec_lt (ino : Inode) (k : Nat) : ino.sec k < 2 ^ 32 := by
  unfold sec
  split
  · exact UInt32.toNat_lt _
  · decide

theorem sec_ge {ino : Inode} {k : Nat} (h : 13 ≤ k) : ino.sec k = 0 := dif_neg (by omega)

theorem sec_setSec {ino : Inode} {k b : Nat} (hk : k < 13) (hb : b < 2 ^ 32) (j : Nat) :
    (ino.setSec k b).sec j = if j = k then b else ino.sec j := by
  have hmod : (UInt32.ofNat b).toNat = b := by
    rw [UInt32.toNat_ofNat', Nat.mod_eq_of_lt hb]
  unfold sec setSec
  by_cases hj : j < 13
  · by_cases he : j = k
    · simp only [he, dif_pos hk, if_true, hmod]
    · simp only [dif_pos hj, he, if_false]
  · rw [dif_neg hj, dif_neg hj, if_neg (by omega)]

theorem size_setSize {ino : Inode} {n : Nat} (h : n < 2 ^ 32) : (ino.setSize n).size = n := by
  rw [size, setSize, UInt32.toNat_ofNat', Nat.mod_eq_of_lt h]

@[simp] theorem sec_setSize (ino : Inode) (n k : Nat) : (ino.setSize n).sec k = ino.sec k := rfl

@[simp] theorem sec_setOpenCnts (ino : Inode) (n k : Nat) :
    (ino.setOpenCnts n).sec k = ino.sec k := rfl

@[simp] theorem size_setSec (ino : Inode) (k b : Nat) : (ino.setSec k b).size = ino.size := rfl

@[simp] theorem no_setSec (ino : Inode) (k b : Nat) : (ino.setSec k b).no = ino.no := rfl

@[simp] theorem no_setSize (ino : Inode) (n : Nat) : (ino.setSize n).no = ino.no := rfl

@[simp] theorem no_setOpenCnts (ino : Inode) (n : Nat) : (ino.setOpenCnts n).no = ino.no := rfl

/-- The nineteen words of the struct, in order. -/
def toWords (ino : Inode) : Nat → Nat
  | 0 => ino.iNo.toNat
  | 1 => ino.iSize.toNat
  | 2 => ino.iOpenCnts.toNat
  | 3 => ino.writeDeny.toNat
  | 17 => ino.tagPrev.toNat
  | 18 => ino.tagNext.toNat
  | j => ino.sec (j - 4)

/-- The 76 bytes of the struct. -/
def bytes (ino : Inode) : Mem := Mem.ofWords ino.toWords

/-- The struct found at byte `a`. -/
def ofMem (m : Mem) (a : Nat) : Inode where
  iNo := UInt32.ofNat (m.rd32 a)
  iSize := UInt32.ofNat (m.rd32 (a + 4))
  iOpenCnts := UInt32.ofNat (m.rd32 (a + 8))
  writeDeny := UInt32.ofNat (m.rd32 (a + 12))
  iSectors := fun k => UInt32.ofNat (m.rd32 (a + 16 + 4 * k))
  tagPrev := UInt32.ofNat (m.rd32 (a + 68))
  tagNext := UInt32.ofNat (m.rd32 (a + 72))

/-- `pure_inode`: the copy that goes to disk. -/
def pureInode (ino : Inode) : Inode :=
  { ino with iOpenCnts := 0, writeDeny := 0, tagPrev := 0, tagNext := 0 }

/-- `inode_init`. -/
def inodeInit (inodeNo : Nat) (ino : Inode) : Inode :=
  { ino with
    iNo := UInt32.ofNat inodeNo
    iSize := 0
    iOpenCnts := 0
    writeDeny := 0
    iSectors := fun _ => 0 }

theorem toWords_lt (ino : Inode) (j : Nat) : ino.toWords j < 2 ^ 32 := by
  unfold toWords
  split
  all_goals first | exact UInt32.toNat_lt _ | exact ino.sec_lt _

/-- Word `j` of a stored struct. -/
theorem rd32_bytes {ino : Inode} {m : Mem} {a j : Nat}
    (h : ∀ i, i < 76 → m (a + i) = ino.bytes i) (hj : j < 19) :
    m.rd32 (a + 4 * j) = ino.toWords j := by
  rw [← Mem.rd32_ofWords (ino.toWords_lt j)]
  apply Mem.rd32_congr
  intro i hi
  rw [Nat.add_assoc]
  exact h _ (by omega)

/-- **Storing and loading an inode gives it back.** -/
theorem ofMem_bytes {ino : Inode} {m : Mem} {a : Nat}
    (h : ∀ i, i < 76 → m (a + i) = ino.bytes i) : ofMem m a = ino := by
  have hw : ∀ j, j < 19 → m.rd32 (a + 4 * j) = ino.toWords j := fun j hj => rd32_bytes h hj
  have h0 := hw 0 (by omega)
  have h1 := hw 1 (by omega)
  have h2 := hw 2 (by omega)
  have h3 := hw 3 (by omega)
  have h17 := hw 17 (by omega)
  have h18 := hw 18 (by omega)
  simp only [toWords, Nat.reduceMul, Nat.add_zero] at h0 h1 h2 h3 h17 h18
  ext k
  · simp only [ofMem, h0, UInt32.ofNat_toNat]
  · simp only [ofMem, h1, UInt32.ofNat_toNat]
  · simp only [ofMem, h2, UInt32.ofNat_toNat]
  · simp only [ofMem, h3, UInt32.ofNat_toNat]
  · have hk := hw (k + 4) (by omega)
    rw [show a + 4 * (k.val + 4) = a + 16 + 4 * k.val by omega] at hk
    have hword : ino.toWords (k.val + 4) = (ino.iSectors k).toNat := by
      have hne17 : k.val + 4 ≠ 17 := by omega
      have hne18 : k.val + 4 ≠ 18 := by omega
      unfold toWords
      split <;> first | omega | simp [sec]
    simp only [ofMem, hk, hword, UInt32.ofNat_toNat]
  · simp only [ofMem, h17, UInt32.ofNat_toNat]
  · simp only [ofMem, h18, UInt32.ofNat_toNat]

theorem ofMem_congr {m m' : Mem} {a a' : Nat} (h : ∀ i, i < 76 → m' (a' + i) = m (a + i)) :
    ofMem m' a' = ofMem m a := by
  have hw : ∀ o, o + 4 ≤ 76 → m'.rd32 (a' + o) = m.rd32 (a + o) := fun o ho =>
    Mem.rd32_congr fun i hi => by rw [Nat.add_assoc, Nat.add_assoc]; exact h _ (by omega)
  ext k
  · simp only [ofMem, show m'.rd32 a' = m.rd32 a from hw 0 (by omega)]
  · simp only [ofMem, hw 4 (by omega)]
  · simp only [ofMem, hw 8 (by omega)]
  · simp only [ofMem, hw 12 (by omega)]
  · simp only [ofMem, Nat.add_assoc, hw (16 + 4 * k.val) (by omega)]
  · simp only [ofMem, hw 68 (by omega)]
  · simp only [ofMem, hw 72 (by omega)]

end Inode

variable {p : Partition}

/-! ## The table on disk -/

/-- `struct inode_position`. -/
structure InodePosition where
  twoSec : Bool
  secLba : Nat
  offSize : Nat

/-- `inode_locate`. -/
def inodeLocate (p : Partition) (inodeNo : Nat) : Option InodePosition := do
  ensure (inodeNo < 4096)
  let offSize := inodeNo * inodeSize
  let offSec := offSize / 512
  let offSizeInSec := offSize % 512
  let leftInSec := 512 - offSizeInSec
  return { twoSec := leftInSec < inodeSize
           secLba := p.inodeTableLba + offSec
           offSize := offSizeInSec }

/-- Sectors of a slot: two when it straddles a boundary. -/
def InodePosition.sects (pos : InodePosition) : Nat := if pos.twoSec then 2 else 1

/-- `inode_sync`: patch the slot of `inode` on disk. The slot number passes
through a `uint8_t`. -/
def inodeSync (v : Vol p) (inode : Inode) : Option (Vol p) := do
  let inodeNo := inode.no % 256
  let pos ← inodeLocate p inodeNo
  ensure (pos.secLba ≤ p.startLba + p.secCnt)
  let inodeBuf ← ideRead v.disk pos.secLba Mem.zero pos.sects
  let inodeBuf := inodeBuf.blit pos.offSize inode.pureInode.bytes inodeSize
  let disk ← ideWrite v.disk pos.secLba inodeBuf pos.sects
  return { v with disk }

/-- `inode_delete`: clear the slot. -/
def inodeDelete (v : Vol p) (inodeNo : Nat) : Option (Vol p) := do
  ensure (inodeNo < 4096)
  let pos ← inodeLocate p inodeNo
  ensure (pos.secLba ≤ p.startLba + p.secCnt)
  let inodeBuf ← ideRead v.disk pos.secLba Mem.zero pos.sects
  let inodeBuf := inodeBuf.fill pos.offSize 0 inodeSize
  let disk ← ideWrite v.disk pos.secLba inodeBuf pos.sects
  return { v with disk }

/-- First byte of slot `n`. -/
def Partition.slotAddr (p : Partition) (n : Nat) : Nat := 512 * p.inodeTableLba + 76 * n

/-- The table ends where the data area begins. -/
theorem Partition.slotAddr_le (p : Partition) {n : Nat} (hn : n < 4096) :
    p.slotAddr n + 76 ≤ 512 * p.dataStartLba := by
  unfold slotAddr dataStartLba
  rw [inodeTableSects_eq]
  omega

/-- Every slot is found where `slotAddr` says, on sectors the disk has, and the
one or two sectors read cover its 76 bytes. -/
theorem inodeLocate_eq (p : Partition) {n : Nat} (hn : n < 4096) :
    ∃ pos, inodeLocate p n = some pos ∧ 512 * pos.secLba + pos.offSize = p.slotAddr n ∧
      pos.offSize + 76 ≤ 512 * pos.sects ∧ 0 < pos.sects ∧
      pos.secLba ≤ p.startLba + p.secCnt ∧ pos.secLba ≤ maxLba := by
  refine ⟨_, by simp [inodeLocate, hn]; rfl, ?_, ?_, ?_, ?_⟩
  · simp only [Partition.slotAddr, inodeSize]
    omega
  · by_cases h : 512 - n * 76 % 512 < 76
    · simp only [InodePosition.sects, inodeSize, h, decide_true, if_true]
      omega
    · simp only [InodePosition.sects, inodeSize, h, decide_false, Bool.false_eq_true, if_false]
      omega
  · simp only [InodePosition.sects]
    split <;> omega
  · have h := p.dataStartLba_le
    have hfits := p.fits
    simp only [Partition.dataStartLba, Partition.inodeTableSects_eq] at h
    simp only [inodeSize]
    omega

/-- The read-modify-write of a slot is a store of 76 bytes in place. -/
theorem patchSlot_eq (v : Vol p) {n : Nat} (hn : n < 4096) (src : Mem) :
    (do
      let pos ← inodeLocate p n
      ensure (pos.secLba ≤ p.startLba + p.secCnt)
      let inodeBuf ← ideRead v.disk pos.secLba Mem.zero pos.sects
      let inodeBuf := inodeBuf.blit pos.offSize src inodeSize
      let disk ← ideWrite v.disk pos.secLba inodeBuf pos.sects
      return ({ v with disk } : Vol p)) =
      some { v with disk := v.disk.blit (p.slotAddr n) src 76 } := by
  obtain ⟨pos, hpos, haddr, hcover, hsects, hpart, hmax⟩ := inodeLocate_eq p hn
  have hblit := Mem.blit_shift_blit v.disk Mem.zero src (a := 512 * pos.secLba) hcover
  rw [haddr] at hblit
  simp [hpos, hpart, ideRead, ideWrite, hmax, hsects, inodeSize, hblit]

/-- **`inode_sync` is one store**, into slot `no % 256`. -/
theorem inodeSync_eq (v : Vol p) (ino : Inode) :
    inodeSync v ino =
      some { v with disk := v.disk.blit (p.slotAddr (ino.no % 256)) ino.pureInode.bytes 76 } := by
  unfold inodeSync
  exact patchSlot_eq v (Nat.lt_of_lt_of_le (Nat.mod_lt _ (by decide)) (by decide)) _

theorem inodeDelete_eq (v : Vol p) {n : Nat} (hn : n < 4096) :
    inodeDelete v n = some { v with disk := v.disk.fill (p.slotAddr n) 0 76 } := by
  unfold inodeDelete
  rw [ensure_pos hn]
  exact patchSlot_eq v hn _

/-! ## Inodes in memory -/

/-- The partition as the running system sees it: the volume, and the list
`open_inodes` from head to tail, each struct with its address. `brk` is where
the kernel heap puts the next `struct inode`. -/
structure Mounted (p : Partition) where
  vol : Vol p
  openInodes : List (Nat × Inode)
  brk : Nat

namespace Mounted

/-- The struct at address `a`. -/
def inodeAt (s : Mounted p) (a : Nat) : Option Inode :=
  (s.openInodes.find? fun e => e.1 == a).map (·.2)

/-- Write through the pointer `a`. -/
def modifyInode (s : Mounted p) (a : Nat) (f : Inode → Inode) : Mounted p :=
  { s with openInodes := s.openInodes.map fun e => if e.1 = a then (e.1, f e.2) else e }

/-- No struct in memory carries the number `n`. -/
def Misses (s : Mounted p) (n : Nat) : Prop := ∀ e ∈ s.openInodes, e.2.no ≠ n

end Mounted

/-- `inode_open`: from the list, or from the table with a count of one. -/
def inodeOpen (s : Mounted p) (inodeNo : Nat) : Option (Nat × Mounted p) :=
  match s.openInodes.find? fun e => e.2.no == inodeNo with
  | some (a, _) => some (a, s.modifyInode a fun i => i.setOpenCnts (i.iOpenCnts.toNat + 1))
  | none => do
    let pos ← inodeLocate p inodeNo
    let inodeBuf ← ideRead s.vol.disk pos.secLba Mem.zero pos.sects
    let found := (Inode.ofMem inodeBuf pos.offSize).setOpenCnts 1
    return (s.brk, { s with openInodes := (s.brk, found) :: s.openInodes, brk := s.brk + 1 })

/-- `inode_close`: drop the struct with its last user. -/
def inodeClose (s : Mounted p) (a : Nat) : Option (Mounted p) := do
  let inode ← s.inodeAt a
  let cnt := (inode.iOpenCnts.toNat + 2 ^ 32 - 1) % 2 ^ 32
  if cnt = 0 then return { s with openInodes := s.openInodes.filter fun e => e.1 != a }
  return s.modifyInode a fun i => i.setOpenCnts cnt

/-- An open that misses the list loads slot `n`. -/
theorem inodeOpen_miss {s : Mounted p} {n : Nat} (hn : n < 4096) (hmiss : s.Misses n) :
    inodeOpen s n = some (s.brk,
      { s with
        openInodes := (s.brk, (Inode.ofMem s.vol.disk (p.slotAddr n)).setOpenCnts 1) :: s.openInodes
        brk := s.brk + 1 }) := by
  have hfind : s.openInodes.find? (fun e => e.2.no == n) = none := by
    rw [List.find?_eq_none]
    intro e he
    simpa using hmiss e he
  obtain ⟨pos, hpos, haddr, hcover, hsects, -, hmax⟩ := inodeLocate_eq p hn
  have hload : Inode.ofMem (Mem.zero.blit 0 (s.vol.disk.shift (512 * pos.secLba))
      (512 * pos.sects)) pos.offSize = Inode.ofMem s.vol.disk (p.slotAddr n) := by
    apply Inode.ofMem_congr
    intro i hi
    rw [Mem.blit_in (Nat.zero_le _) (by omega), Mem.shift, ← haddr]
    congr 1
    omega
  unfold inodeOpen
  rw [hfind]
  simp only [hpos, Option.bind_eq_bind, Option.bind_some, Option.pure_def,
    (ideRead_eq_some.mpr ⟨hmax, hsects, rfl⟩ :
      ideRead s.vol.disk pos.secLba Mem.zero pos.sects = some _), hload]

/-! ## When a write-back is right -/

/-- Slot `n` of the table on `disk` holds exactly the struct `ino`. -/
def SlotHolds (p : Partition) (disk : Mem) (n : Nat) (ino : Inode) : Prop :=
  ∀ i, i < 76 → disk (p.slotAddr n + i) = ino.bytes i

/-- What `inode_sync(part, ino)` is for: the call returns, slot `ino.no` holds
the inode with its in-memory fields cleared, all other slots and everything
outside the table are as they were, and an `inode_open` that has to go to disk
finds the number, size and sectors again. -/
def SyncOk (v : Vol p) (ino : Inode) : Prop :=
  ∃ v', inodeSync v ino = some v' ∧
    SlotHolds p v'.disk ino.no ino.pureInode ∧
    (∀ j, j < 4096 → j ≠ ino.no → ∀ i, i < 76 →
      v'.disk (p.slotAddr j + i) = v.disk (p.slotAddr j + i)) ∧
    (∀ a, a < 512 * p.inodeTableLba ∨ 512 * (p.inodeTableLba + Partition.inodeTableSects) ≤ a →
      v'.disk a = v.disk a) ∧
    (∀ s : Mounted p, s.vol = v' → s.Misses ino.no →
      ∃ a s' found, inodeOpen s ino.no = some (a, s') ∧ s'.inodeAt a = some found ∧
        found.iNo = ino.iNo ∧ found.iSize = ino.iSize ∧ found.iSectors = ino.iSectors)

/-- A slot that holds an inode is what a missing open returns. -/
theorem inodeOpen_of_slotHolds {s : Mounted p} {ino : Inode} (hn : ino.no < 4096)
    (hmiss : s.Misses ino.no) (h : SlotHolds p s.vol.disk ino.no ino.pureInode) :
    ∃ a s' found, inodeOpen s ino.no = some (a, s') ∧ s'.inodeAt a = some found ∧
      found.iNo = ino.iNo ∧ found.iSize = ino.iSize ∧ found.iSectors = ino.iSectors := by
  refine ⟨_, _, _, inodeOpen_miss hn hmiss, by simp [Mounted.inodeAt]; rfl, ?_⟩
  rw [Inode.ofMem_bytes h]
  exact ⟨rfl, rfl, rfl⟩

/-- Distinct slots do not overlap. -/
theorem slotAddr_disjoint {m n : Nat} (h : m ≠ n) :
    p.slotAddr m + 76 ≤ p.slotAddr n ∨ p.slotAddr n + 76 ≤ p.slotAddr m := by
  unfold Partition.slotAddr
  omega

/-- Reading slot `n` after a store of 76 bytes into slot `m`. -/
theorem blit_slot_ne {d src : Mem} {m n i : Nat} (h : m ≠ n) (hi : i < 76) :
    d.blit (p.slotAddr m) src 76 (p.slotAddr n + i) = d (p.slotAddr n + i) := by
  have := slotAddr_disjoint (p := p) h
  exact Mem.blit_out (by omega)

/-- Storing bytes that are already there changes nothing. -/
theorem blit_slot_same {d : Mem} {n : Nat} {ino : Inode} (h : SlotHolds p d n ino) :
    d.blit (p.slotAddr n) ino.bytes 76 = d := by
  funext a
  by_cases ha : p.slotAddr n ≤ a ∧ a < p.slotAddr n + 76
  · rw [Mem.blit_in ha.1 ha.2, ← h _ (by omega), Nat.add_sub_of_le ha.1]
  · exact Mem.blit_out (by omega)

/-- The write-back reaches the right slot when the number fits a byte. -/
theorem syncOk_of_lt {v : Vol p} {ino : Inode} (h : ino.no < 256) : SyncOk v ino := by
  have hslot : SlotHolds p (v.disk.blit (p.slotAddr ino.no) ino.pureInode.bytes 76) ino.no
      ino.pureInode := fun i hi => Mem.blit_add hi
  refine ⟨_, inodeSync_eq v ino, ?_⟩
  rw [Nat.mod_eq_of_lt h]
  refine ⟨hslot, fun j _ hne i hi => blit_slot_ne (Ne.symm hne) hi, fun a ha => ?_, ?_⟩
  · apply Mem.blit_out
    rw [Partition.inodeTableSects_eq] at ha
    unfold Partition.slotAddr
    omega
  · intro s hs hmiss
    exact inodeOpen_of_slotHolds (by omega) hmiss (by rw [hs]; exact hslot)

/-- With a larger number it can only be right if there was nothing to write. -/
theorem slotHolds_of_syncOk {v : Vol p} {ino : Inode} (hn : 256 ≤ ino.no) (h : SyncOk v ino) :
    SlotHolds p v.disk ino.no ino.pureInode ∧ SlotHolds p v.disk (ino.no % 256) ino.pureInode := by
  have hne : ino.no % 256 ≠ ino.no := by omega
  obtain ⟨v', hsync, hslot, hframe, -, -⟩ := h
  rw [inodeSync_eq, Option.some.injEq] at hsync
  subst hsync
  refine ⟨fun i hi => ?_, fun i hi => ?_⟩
  · rw [← hslot i hi]
    exact (blit_slot_ne hne hi).symm
  · rw [← hframe (ino.no % 256) (by omega) hne i hi]
    exact Mem.blit_add hi

/-- **When `inode_sync` persists its inode.** For every disk and every inode
the table has room for, the write-back is right exactly when the number is
below 256, or both the inode's own slot and slot `no % 256` already hold the
very bytes that are to be written. -/
theorem inode_sync_slot_iff (v : Vol p) (ino : Inode) (hn : ino.no < 4096) :
    SyncOk v ino ↔ ino.no < 256 ∨
      (SlotHolds p v.disk ino.no ino.pureInode ∧
        SlotHolds p v.disk (ino.no % 256) ino.pureInode) := by
  constructor
  · intro h
    rcases Nat.lt_or_ge ino.no 256 with hlt | hge
    · exact Or.inl hlt
    · exact Or.inr (slotHolds_of_syncOk hge h)
  · intro hor
    rcases hor with hlt | ⟨hown, hmod⟩
    · exact syncOk_of_lt hlt
    · have hv := blit_slot_same hmod
      refine ⟨v, by rw [inodeSync_eq, hv], hown, fun _ _ _ _ _ => rfl, fun _ _ => rfl, ?_⟩
      intro s hs hmiss
      exact inodeOpen_of_slotHolds hn hmiss (by rw [hs]; exact hown)

/-- A small partition at the front of the disk, all of it zero bytes. -/
def blankPartition : Partition where
  startLba := 0
  secCnt := 4000
  room := by decide
  fits := by decide

/-- The blank partition mounted, with nothing allocated. -/
def blankVol : Vol blankPartition where
  disk := Mem.zero
  blockBitmap := ⟨blankPartition.blockBitmapSects * 512, Mem.zero⟩
  inodeBitmap := ⟨Partition.inodeBitmapSects * 512, Mem.zero⟩
  blockLen := rfl
  inodeLen := rfl

/-- An inode numbered `n` with nothing in it. -/
def blankInode (n : Nat) : Inode := (Inode.ofMem Mem.zero 0).inodeInit n

theorem inode_sync_slot_iff_seven :
    (blankInode 7).no < 4096 ∧
      (SyncOk blankVol (blankInode 7) ↔ (blankInode 7).no < 256 ∨
        (SlotHolds blankPartition blankVol.disk (blankInode 7).no (blankInode 7).pureInode ∧
          SlotHolds blankPartition blankVol.disk ((blankInode 7).no % 256)
            (blankInode 7).pureInode)) :=
  ⟨by decide, inode_sync_slot_iff blankVol (blankInode 7) (by decide)⟩

/-- Inode 256 of a blank table: slot 0 takes the write, slot 256 stays zero. -/
theorem inode_sync_loses_256 :
    (blankInode 256).no < 4096 ∧ ¬SyncOk blankVol (blankInode 256) := by
  refine ⟨by decide, fun h => ?_⟩
  have hslot := (slotHolds_of_syncOk (by decide) h).1 1 (by decide)
  exact absurd hslot (by decide)

/-! ## Deleting one slot -/

/-- The sectors `inode_delete` reads and writes back are sectors of the table,
for the last slot too. -/
theorem inodeLocate_table {n : Nat} (hn : n < 4096) {pos : InodePosition}
    (hpos : inodeLocate p n = some pos) :
    p.inodeTableLba ≤ pos.secLba ∧
      pos.secLba + pos.sects ≤ p.inodeTableLba + Partition.inodeTableSects := by
  simp only [inodeLocate, inodeSize, ensure_pos hn, Option.bind_eq_bind, Option.bind_some,
    Option.pure_def, Option.some.injEq] at hpos
  subst hpos
  rw [Partition.inodeTableSects_eq]
  refine ⟨Nat.le_add_right _ _, ?_⟩
  -- a slot that straddles a boundary has its end inside the table as well
  by_cases htwo : 512 - n * 76 % 512 < 76
  · simp only [InodePosition.sects, htwo, decide_true, if_true]
    omega
  · simp only [InodePosition.sects, htwo, decide_false, Bool.false_eq_true, if_false]
    omega

/-- **`inode_delete` clears exactly one slot.** On every disk the call is one
read and one write of the same sectors, which belong to the inode table; the
76 bytes of slot `n` become zero, and no other byte of the disk changes, those
of the other slots in the same sectors included. -/
theorem inode_delete_one_slot (v : Vol p) {n : Nat} (hn : n < 4096) :
    ∃ pos v', inodeLocate p n = some pos ∧ inodeDelete v n = some v' ∧
      (p.inodeTableLba ≤ pos.secLba ∧
        pos.secLba + pos.sects ≤ p.inodeTableLba + Partition.inodeTableSects) ∧
      ((ideRead v.disk pos.secLba Mem.zero pos.sects).bind fun inodeBuf =>
        ideWrite v.disk pos.secLba (inodeBuf.fill pos.offSize 0 inodeSize) pos.sects) =
          some v'.disk ∧
      (∀ i, i < inodeSize → v'.disk (p.slotAddr n + i) = 0) ∧
      (∀ a, a < p.slotAddr n ∨ p.slotAddr n + inodeSize ≤ a → v'.disk a = v.disk a) ∧
      (∀ m, m < 4096 → m ≠ n → ∀ i, i < inodeSize →
        v'.disk (p.slotAddr m + i) = v.disk (p.slotAddr m + i)) ∧
      v'.blockBitmap = v.blockBitmap ∧ v'.inodeBitmap = v.inodeBitmap := by
  obtain ⟨pos, hpos, -, -, hsects, hpart, hmax⟩ := inodeLocate_eq p hn
  have hdelete := inodeDelete_eq v hn
  have hsize : inodeSize = 76 := rfl
  refine ⟨pos, { v with disk := v.disk.blit (p.slotAddr n) (fun _ => 0) 76 }, hpos, hdelete,
    inodeLocate_table hn hpos, ?_, fun i hi => ?_, fun a ha => ?_, fun m _ hne i hi => ?_, rfl, rfl⟩
  · simp only [inodeDelete, ensure_pos hn, hpos, ensure_pos hpart, ideRead, ideWrite,
      ensure_pos hmax, ensure_pos hsects, Option.bind_eq_bind, Option.bind_some, Option.pure_def,
      Option.some.injEq] at hdelete ⊢
    exact congrArg Vol.disk hdelete
  · dsimp only
    apply Mem.blit_add
    omega
  · dsimp only
    apply Mem.blit_out
    omega
  · have hdisjoint := slotAddr_disjoint (p := p) hne
    dsimp only
    apply Mem.blit_out
    omega

/-- The last slot of a blank table, which ends with the table. -/
theorem inode_delete_one_slot_last :
    ∃ pos v', inodeLocate blankPartition 4095 = some pos ∧
      inodeDelete blankVol 4095 = some v' ∧
      (blankPartition.inodeTableLba ≤ pos.secLba ∧
        pos.secLba + pos.sects ≤ blankPartition.inodeTableLba + Partition.inodeTableSects) ∧
      ((ideRead blankVol.disk pos.secLba Mem.zero pos.sects).bind fun inodeBuf =>
        ideWrite blankVol.disk pos.secLba (inodeBuf.fill pos.offSize 0 inodeSize) pos.sects) =
          some v'.disk ∧
      (∀ i, i < inodeSize → v'.disk (blankPartition.slotAddr 4095 + i) = 0) ∧
      (∀ a, a < blankPartition.slotAddr 4095 ∨ blankPartition.slotAddr 4095 + inodeSize ≤ a →
        v'.disk a = blankVol.disk a) ∧
      (∀ m, m < 4096 → m ≠ 4095 → ∀ i, i < inodeSize →
        v'.disk (blankPartition.slotAddr m + i) = blankVol.disk (blankPartition.slotAddr m + i)) ∧
      v'.blockBitmap = blankVol.blockBitmap ∧ v'.inodeBitmap = blankVol.inodeBitmap :=
  inode_delete_one_slot blankVol (by decide)

end OsCore.Fs
