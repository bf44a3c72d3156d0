import OsCore.Fs.Syscalls
import Mathlib.Order.Interval.Finset.Nat
import Mathlib.Data.Nat.Count

/-!
# Bitmaps on disk

The two bitmaps live in memory, and `bitmap_sync` writes one of their sectors at
a time. A call that sets or clears a bit is meant to write the sector of that bit
before it is done, so that disk and memory agree again (`Vol.Flushed`).

Sector by sector the argument is short. Setting a bit makes its own sector stale
and no other (`synced_setBlock`), writing a sector back makes it right again
(`synced_sync`), and everything else the calls write goes to sectors behind the
bitmaps (`Apart`). So a site that sets a bit and syncs that bit changes nothing
about the agreement.

One site does not. When a file outgrows its direct blocks, `file_write` takes a
block for the indirect table and moves on to the data blocks without syncing it.
The next block it takes is the next free one, and syncing that writes the table's
bit too if both are in one sector of the map. If they are not, every later block
is in a later sector still, and the table's sector stays as it was
(`growLoop_stale`). `TableSynced` is this condition on the map before the call.
-/

namespace OsCore.Fs

open OsCore.Lib

variable {p : Partition}

/-! ## Sectors -/

/-- Sector `sec` of the block bitmap is on disk what it is in memory. -/
def Vol.Synced (v : Vol p) (sec : Nat) : Prop :=
  ∀ i, i < 512 → v.disk (512 * (p.blockBitmapLba + sec) + i) = v.blockBitmap.bits (512 * sec + i)

/-- The same for the inode bitmap, which is one sector. -/
def Vol.InodesSynced (v : Vol p) : Prop :=
  ∀ i, i < 512 → v.disk (512 * p.inodeBitmapLba + i) = v.inodeBitmap.bits i

/-- Every sector of the block bitmap. -/
def Vol.BlocksSynced (v : Vol p) : Prop := ∀ sec, sec < p.blockBitmapSects → v.Synced sec

/-- The bitmaps on disk are those in memory. -/
structure Vol.Flushed (v : Vol p) : Prop where
  blocks : v.BlocksSynced
  inodes : v.InodesSynced

/-- Both maps are left alone, in memory and on disk. -/
structure Apart (v v' : Vol p) : Prop where
  blocks : v'.blockBitmap = v.blockBitmap
  inodes : v'.inodeBitmap = v.inodeBitmap
  disk : ∀ a, 512 * p.blockBitmapLba ≤ a → a < 512 * p.inodeTableLba → v'.disk a = v.disk a

theorem Apart.refl (v : Vol p) : Apart v v := ⟨rfl, rfl, fun _ _ _ => rfl⟩

theorem Apart.trans {u v w : Vol p} (h1 : Apart u v) (h2 : Apart v w) : Apart u w :=
  ⟨h2.blocks.trans h1.blocks, h2.inodes.trans h1.inodes,
    fun a ha hb => (h2.disk a ha hb).trans (h1.disk a ha hb)⟩

theorem inodeTableLba_eq (p : Partition) :
    p.inodeTableLba = p.blockBitmapLba + p.blockBitmapSects + 1 := by
  unfold Partition.inodeTableLba Partition.inodeBitmapLba
  rw [Partition.inodeBitmapSects_eq]

theorem Apart.synced {v v' : Vol p} (h : Apart v v') {sec : Nat} (hs : sec < p.blockBitmapSects) :
    v'.Synced sec ↔ v.Synced sec := by
  have hend := inodeTableLba_eq p
  have hdisk : ∀ i, i < 512 → v'.disk (512 * (p.blockBitmapLba + sec) + i) =
      v.disk (512 * (p.blockBitmapLba + sec) + i) := fun i hi => h.disk _ (by omega) (by omega)
  unfold Vol.Synced
  rw [h.blocks]
  exact ⟨fun hv i hi => (hdisk i hi).symm.trans (hv i hi), fun hv i hi => (hdisk i hi).trans (hv i hi)⟩

theorem Apart.inodesSynced {v v' : Vol p} (h : Apart v v') :
    v'.InodesSynced ↔ v.InodesSynced := by
  have hend := inodeTableLba_eq p
  have hbm : p.inodeBitmapLba = p.blockBitmapLba + p.blockBitmapSects := rfl
  have hdisk : ∀ i, i < 512 → v'.disk (512 * p.inodeBitmapLba + i) =
      v.disk (512 * p.inodeBitmapLba + i) := fun i hi => h.disk _ (by omega) (by omega)
  unfold Vol.InodesSynced
  rw [h.inodes]
  exact ⟨fun hv i hi => (hdisk i hi).symm.trans (hv i hi), fun hv i hi => (hdisk i hi).trans (hv i hi)⟩

theorem Apart.blocksSynced {v v' : Vol p} (h : Apart v v') : v'.BlocksSynced ↔ v.BlocksSynced :=
  forall₂_congr fun _ hs => h.synced hs

theorem Apart.flushed {v v' : Vol p} (h : Apart v v') : v'.Flushed ↔ v.Flushed :=
  ⟨fun hv => ⟨h.blocksSynced.mp hv.blocks, h.inodesSynced.mp hv.inodes⟩,
    fun hv => ⟨h.blocksSynced.mpr hv.blocks, h.inodesSynced.mpr hv.inodes⟩⟩

/-! ## Writes elsewhere -/

/-- Sector `b` is not one of the bitmaps'. -/
def OffMaps (p : Partition) (b : Nat) : Prop := b < p.blockBitmapLba ∨ p.inodeTableLba ≤ b

theorem offMaps_zero : OffMaps p 0 := Or.inl (Nat.succ_pos _)

theorem offMaps_data {b : Nat} (h : p.dataStartLba ≤ b) : OffMaps p b := by
  refine Or.inr (Nat.le_trans ?_ h)
  exact Nat.le_add_right _ _

theorem OffMaps.apart {v : Vol p} {b : Nat} (h : OffMaps p b) {d : Mem}
    (hd : ∀ a, a / 512 ≠ b → d a = v.disk a) : Apart v { v with disk := d } := by
  refine ⟨rfl, rfl, fun a h1 h2 => hd a fun he => ?_⟩
  rcases h with h | h <;> omega

theorem OffMaps.ideWrite {v : Vol p} {b : Nat} (h : OffMaps p b) {buf d : Mem}
    (hw : ideWrite v.disk b buf 1 = some d) : Apart v { v with disk := d } := by
  obtain ⟨-, -, rfl⟩ := ideWrite_eq_some.mp hw
  exact h.apart fun a ha => Mem.blit_out (by omega)

theorem inodeSync_apart {v v' : Vol p} {ino : Inode} (h : inodeSync v ino = some v') :
    Apart v v' := by
  rw [inodeSync_eq, Option.some.injEq] at h
  subst h
  refine ⟨rfl, rfl, fun a _ hlt => Mem.blit_out (Or.inl ?_)⟩
  unfold Partition.slotAddr
  omega

theorem inodeDelete_apart {v v' : Vol p} {n : Nat} (h : inodeDelete v n = some v') :
    Apart v v' := by
  have hn : n < 4096 := by
    unfold inodeDelete at h
    simp only [Option.bind_eq_bind, Option.bind_eq_some_iff, ensure_eq_some] at h
    exact h.choose_spec.1
  rw [inodeDelete_eq v hn, Option.some.injEq] at h
  subst h
  refine ⟨rfl, rfl, fun a _ hlt => ?_⟩
  show v.disk.blit (p.slotAddr n) (fun _ => 0) 76 a = v.disk a
  refine Mem.blit_out (Or.inl ?_)
  unfold Partition.slotAddr
  omega

/-! ## One bit and its sector -/

theorem bits_setBlock (v : Vol p) {i j : Nat} {x : Bool} (h : j ≠ i / 8) :
    (v.setBlock i x).blockBitmap.bits j = v.blockBitmap.bits j := if_neg h

/-- Setting a bit concerns its own sector only. -/
theorem synced_setBlock (v : Vol p) {i sec : Nat} {x : Bool} (h : sec ≠ i / 4096) :
    (v.setBlock i x).Synced sec ↔ v.Synced sec := by
  have hbits : ∀ o, o < 512 → (v.setBlock i x).blockBitmap.bits (512 * sec + o) =
      v.blockBitmap.bits (512 * sec + o) := fun o ho => bits_setBlock v (by omega)
  unfold Vol.Synced
  apply forall₂_congr
  intro o ho
  rw [hbits o ho]
  exact Iff.rfl

/-- A bit that was clear makes it stale. -/
theorem stale_setBlock {v : Vol p} {i : Nat} (hz : v.blockBitmap.bit i = false)
    (hs : v.Synced (i / 4096)) : ¬(v.setBlock i true).Synced (i / 4096) := by
  intro h
  have hi : 512 * (i / 4096) + i / 8 % 512 = i / 8 := by omega
  have hold := hs (i / 8 % 512) (Nat.mod_lt _ (by decide))
  have hnew := h (i / 8 % 512) (Nat.mod_lt _ (by decide))
  rw [hi] at hold hnew
  -- the disk has one byte, so the bit reads the same in both maps
  have hbyte : (v.setBlock i true).blockBitmap.bits (i / 8) = v.blockBitmap.bits (i / 8) :=
    hnew.symm.trans hold
  have hset : (v.setBlock i true).blockBitmap.bit i = true := by
    show (v.blockBitmap.bitmapSet i true).bit i = true
    rw [Bitmap.bit_bitmapSet, if_pos rfl]
  unfold Bitmap.bit at hset hz
  rw [hbyte, hz] at hset
  cases hset

theorem synced_sync {v v' : Vol p} {i : Nat} (h : bitmapSync v i .blockBitmap = some v') :
    v'.Synced (i / 4096) ∧ (∀ sec, sec ≠ i / 4096 → (v'.Synced sec ↔ v.Synced sec)) ∧
      v'.blockBitmap = v.blockBitmap := by
  simp only [bitmapSync, Option.bind_eq_bind, Option.bind_eq_some_iff, Option.pure_def,
    Option.some.injEq, ideWrite_eq_some] at h
  obtain ⟨d, ⟨-, -, rfl⟩, rfl⟩ := h
  refine ⟨fun o ho => ?_, fun sec hs => forall₂_congr fun o ho => ?_, rfl⟩
  · dsimp only
    rw [Mem.blit_add (by omega), Mem.shift]
    congr 1
    omega
  · dsimp only
    rw [Mem.blit_out (by omega)]

theorem inodesSynced_sync_block {v v' : Vol p} {i : Nat} (hi : i < 4096 * p.blockBitmapSects)
    (h : bitmapSync v i .blockBitmap = some v') : v'.InodesSynced ↔ v.InodesSynced := by
  obtain ⟨-, hin, hd⟩ := bitmapSync_block hi h
  unfold Vol.InodesSynced
  rw [hin]
  apply forall₂_congr
  intro o ho
  rw [hd _ (Or.inr (by omega))]

/-- **A bit and its sync.** -/
theorem Vol.BlocksSynced.mark {v v' : Vol p} {i : Nat} {x : Bool} (hv : v.BlocksSynced)
    (h : bitmapSync (v.setBlock i x) i .blockBitmap = some v') : v'.BlocksSynced := by
  obtain ⟨hown, hrest, -⟩ := synced_sync h
  intro sec hs
  by_cases he : sec = i / 4096
  · rw [he]
    exact hown
  · exact (hrest sec he).mpr ((synced_setBlock v he).mpr (hv sec hs))

theorem Vol.Flushed.mark {v v' : Vol p} {i : Nat} {x : Bool} (hv : v.Flushed)
    (hi : i < 4096 * p.blockBitmapSects)
    (h : bitmapSync (v.setBlock i x) i .blockBitmap = some v') : v'.Flushed :=
  ⟨hv.blocks.mark h, (inodesSynced_sync_block hi h).mpr hv.inodes⟩

/-- The sync of the inode bitmap, which ends `file_create`, `sys_mkdir` and
`inode_release`, writes all of it. -/
theorem Vol.BlocksSynced.flush {v v' : Vol p} {n : Nat} (hv : v.BlocksSynced) (hn : n < 4096)
    (h : bitmapSync v n .inodeBitmap = some v') : v'.Flushed := by
  have hbm : p.inodeBitmapLba = p.blockBitmapLba + p.blockBitmapSects := rfl
  simp only [bitmapSync, Option.bind_eq_bind, Option.bind_eq_some_iff, Option.pure_def,
    Option.some.injEq, ideWrite_eq_some] at h
  obtain ⟨d, ⟨-, -, rfl⟩, rfl⟩ := h
  have h0 : n / 4096 = 0 := by omega
  refine ⟨fun sec hs o ho => ?_, fun o ho => ?_⟩
  · dsimp only
    rw [Mem.blit_out (by omega)]
    exact hv sec hs o ho
  · dsimp only
    rw [h0, Nat.add_zero, Mem.blit_add (by omega), Mem.shift]
    congr 1
    omega

/-! ## Free bits -/

/-- Bit `i` is clear, with `n` clear ones before it. -/
def NthFree (b : Bitmap) (n i : Nat) : Prop :=
  b.bit i = false ∧ Nat.count (fun j => b.bit j = false) i = n

theorem NthFree.unique {b : Bitmap} {n i j : Nat} (hi : NthFree b n i) (hj : NthFree b n j) :
    i = j := Nat.count_injective hi.1 hj.1 (hi.2.trans hj.2.symm)

/-- The bit an allocation takes. -/
theorem nthFree_zero {b : Bitmap} {i : Nat} (hz : b.bit i = false)
    (hleast : ∀ j, j < i → b.bit j = true) : NthFree b 0 i := by
  refine ⟨hz, ?_⟩
  rw [Nat.count_eq_card_filter_range, Finset.card_eq_zero, Finset.filter_eq_empty_iff]
  intro j hj
  rw [hleast j (Finset.mem_range.mp hj)]
  simp

theorem count_bitmapSet {b : Bitmap} {i : Nat} (hz : b.bit i = false) :
    ∀ m, Nat.count (fun j => b.bit j = false) m =
      Nat.count (fun j => (b.bitmapSet i true).bit j = false) m + if i < m then 1 else 0 := by
  intro m
  induction m with
  | zero => rfl
  | succ m ih =>
    rw [Nat.count_succ, Nat.count_succ, ih, Bitmap.bit_bitmapSet]
    by_cases hm : m = i
    · subst hm
      rw [if_pos rfl, if_pos hz, if_neg (by omega), if_neg (by simp), if_pos (by omega)]
    · rw [if_neg hm]
      by_cases hlt : i < m
      · rw [if_pos hlt, if_pos (show i < m + 1 by omega)]
        omega
      · rw [if_neg hlt, if_neg (show ¬i < m + 1 by omega)]
        omega

/-- Once the first free bit is taken, the ones behind it move up. -/
theorem NthFree.after {b : Bitmap} {n i m : Nat} (hm : NthFree b 0 m)
    (h : NthFree (b.bitmapSet m true) n i) : NthFree b (n + 1) i := by
  obtain ⟨hz, hc⟩ := h
  rw [Bitmap.bit_bitmapSet] at hz
  by_cases he : i = m
  · rw [if_pos he] at hz
    cases hz
  · rw [if_neg he] at hz
    refine ⟨hz, ?_⟩
    have hcount := count_bitmapSet hm.1 i
    have hlt : m < i := by
      -- a clear bit before `m` would be counted there
      rcases Nat.lt_or_gt_of_ne he with hlt | hgt
      · have h1 := Nat.count_strict_mono (p := fun j => b.bit j = false) hz hlt
        rw [hm.2] at h1
        omega
      · exact hgt
    rw [if_pos hlt, hc] at hcount
    exact hcount

/-! ## Taking blocks -/

/-- `block_bitmap_alloc`, sector by sector. -/
theorem alloc_takes {v v' : Vol p} {r : Int} (h : blockBitmapAlloc v = some (r, v')) :
    ∃ i, r = ((p.dataStartLba + i : Nat) : Int) ∧ i < 4096 * p.blockBitmapSects ∧
      NthFree v.blockBitmap 0 i ∧ (∀ j, j < i → v.blockBitmap.bit j = true) ∧
      v' = v.setBlock i true := by
  obtain ⟨i, hr, hi, hz, hleast, hv⟩ := blockBitmapAlloc_spec h
  exact ⟨i, hr, hi, nthFree_zero hz hleast, hleast, hv⟩

/-- One round of an allocation loop. -/
theorem take_synced {v v1 v2 : Vol p} {r : Int} (halloc : blockBitmapAlloc v = some (r, v1))
    (hsync : bitmapSync v1 (r.toNat - p.dataStartLba) .blockBitmap = some v2) :
    ∃ i, NthFree v.blockBitmap 0 i ∧ i < 4096 * p.blockBitmapSects ∧
      (∀ j, j < i → v.blockBitmap.bit j = true) ∧ v2.Synced (i / 4096) ∧
      (∀ sec, sec ≠ i / 4096 → (v2.Synced sec ↔ v.Synced sec)) ∧
      v2.blockBitmap = v.blockBitmap.bitmapSet i true ∧
      (v2.InodesSynced ↔ v.InodesSynced) := by
  obtain ⟨i, rfl, hi, hfree, hleast, rfl⟩ := alloc_takes halloc
  rw [Int.toNat_natCast, Nat.add_sub_cancel_left] at hsync
  obtain ⟨hown, hrest, hbm⟩ := synced_sync hsync
  exact ⟨i, hfree, hi, hleast, hown, fun sec hs => (hrest sec hs).trans (synced_setBlock v hs),
    hbm, inodesSynced_sync_block (v := v.setBlock i true) hi hsync⟩

theorem growLoop_succ {n idx : Nat} {v v' : Vol p} {ino ino' : Inode}
    {blocks blocks' : Nat → Nat} {ok : Bool}
    (h : growLoop blockBitmapAlloc (n + 1) idx v ino blocks = some (ok, v', ino', blocks')) :
    ∃ lba v1 ino1 v2, blockBitmapAlloc v = some (lba, v1) ∧
      bitmapSync v1 (lba.toNat - p.dataStartLba) .blockBitmap = some v2 ∧
      growLoop blockBitmapAlloc n (idx + 1) v2 ino1 (setWord blocks idx lba.toNat) =
        some (ok, v', ino', blocks') := by
  simp only [growLoop, Option.bind_eq_bind, Option.bind_eq_some_iff, Prod.exists] at h
  obtain ⟨lba, v1, halloc, h⟩ := h
  rw [if_neg (alloc_spec halloc).1] at h
  simp only [Option.bind_eq_some_iff] at h
  obtain ⟨ino1, -, v2, hsync, hrec⟩ := h
  exact ⟨lba, v1, ino1, v2, halloc, hsync, hrec⟩

/-- The loop syncs what it takes. -/
theorem growLoop_synced : ∀ {n idx : Nat} {v v' : Vol p} {ino ino' : Inode}
    {blocks blocks' : Nat → Nat} {ok : Bool},
    growLoop blockBitmapAlloc n idx v ino blocks = some (ok, v', ino', blocks') →
    (∀ sec, v.Synced sec → v'.Synced sec) ∧ (v'.InodesSynced ↔ v.InodesSynced) := by
  intro n
  induction n with
  | zero =>
    intro idx v v' ino ino' blocks blocks' ok h
    simp only [growLoop, Option.some.injEq, Prod.mk.injEq] at h
    obtain ⟨-, rfl, -, -⟩ := h
    exact ⟨fun _ hs => hs, Iff.rfl⟩
  | succ n ih =>
    intro idx v v' ino ino' blocks blocks' ok h
    obtain ⟨lba, v1, ino1, v2, halloc, hsync, hrec⟩ := growLoop_succ h
    obtain ⟨i, -, -, -, hown, hrest, -, hin⟩ := take_synced halloc hsync
    obtain ⟨hkeep, hin'⟩ := ih hrec
    refine ⟨fun sec hs => hkeep sec ?_, hin'.trans hin⟩
    by_cases he : sec = i / 4096
    · rw [he]
      exact hown
    · exact (hrest sec he).mpr hs

theorem bit_of_take {v v2 : Vol p} {i j : Nat}
    (h : v2.blockBitmap = v.blockBitmap.bitmapSet i true) (hj : v.blockBitmap.bit j = true) :
    v2.blockBitmap.bit j = true := by
  rw [h, Bitmap.bit_bitmapSet]
  split
  · rfl
  · exact hj

/-- **A full sector that is stale stays stale**: the loop takes bits behind it. -/
theorem growLoop_stale (sec : Nat) : ∀ {n idx : Nat} {v v' : Vol p} {ino ino' : Inode}
    {blocks blocks' : Nat → Nat} {ok : Bool},
    (∀ j, j < 4096 * (sec + 1) → v.blockBitmap.bit j = true) → ¬v.Synced sec →
    growLoop blockBitmapAlloc n idx v ino blocks = some (ok, v', ino', blocks') →
    ¬v'.Synced sec := by
  intro n
  induction n with
  | zero =>
    intro idx v v' ino ino' blocks blocks' ok _ hstale h
    simp only [growLoop, Option.some.injEq, Prod.mk.injEq] at h
    obtain ⟨-, rfl, -, -⟩ := h
    exact hstale
  | succ n ih =>
    intro idx v v' ino ino' blocks blocks' ok hfull hstale h
    obtain ⟨lba, v1, ino1, v2, halloc, hsync, hrec⟩ := growLoop_succ h
    obtain ⟨i, hfree, -, -, -, hrest, hbm, -⟩ := take_synced halloc hsync
    have hbehind : 4096 * (sec + 1) ≤ i := by
      apply Nat.le_of_not_lt
      intro hlt
      have := hfree.1
      rw [hfull i hlt] at this
      cases this
    refine ih (fun j hj => bit_of_take hbm (hfull j hj)) ?_ hrec
    rw [hrest sec (by omega)]
    exact hstale

/-- The table's block and the data blocks after it: only the data blocks are
synced. -/
theorem tableThenData {n idx : Nat} {v v1 v' : Vol p} {r : Int} {ino ino' : Inode}
    {blocks blocks' : Nat → Nat} {ok : Bool} (hv : v.BlocksSynced)
    (halloc : blockBitmapAlloc v = some (r, v1))
    (h : growLoop blockBitmapAlloc (n + 1) idx v1 ino blocks = some (ok, v', ino', blocks')) :
    ∃ i j, NthFree v.blockBitmap 0 i ∧ NthFree v.blockBitmap 1 j ∧
      (v'.BlocksSynced ↔ i / 4096 = j / 4096) := by
  obtain ⟨i, -, hi, hfree, hleast, rfl⟩ := alloc_takes halloc
  obtain ⟨lba, v2, ino2, v3, halloc2, hsync, hrec⟩ := growLoop_succ h
  obtain ⟨j, hfree2, -, hleast2, hown, hrest, hbm, -⟩ := take_synced halloc2 hsync
  have hstale := stale_setBlock hfree.1 (hv (i / 4096) (by omega))
  refine ⟨i, j, hfree, hfree.after hfree2, fun hall => ?_, fun he sec hs => ?_⟩
  · apply Decidable.byContradiction
    intro hne
    -- bit `j` is the next free one, so the sector of bit `i` is full
    have hij : i < j := by
      apply Nat.lt_of_not_le
      intro hle
      rcases Nat.lt_or_eq_of_le hle with hlt | rfl
      · have h1 := hfree2.1
        rw [show (v.setBlock i true).blockBitmap.bit j =
          (v.blockBitmap.bitmapSet i true).bit j from rfl, Bitmap.bit_bitmapSet,
          if_neg (by omega), hleast j hlt] at h1
        cases h1
      · exact hne rfl
    refine growLoop_stale (i / 4096) (fun b hb => ?_) ?_ hrec (hall _ (by omega))
    · exact bit_of_take hbm (hleast2 b (by omega))
    · rw [hrest _ (by omega)]
      exact hstale
  · refine (growLoop_synced hrec).1 sec ?_
    by_cases hsec : sec = j / 4096
    · rw [hsec]
      exact hown
    · rw [hrest sec hsec, synced_setBlock v (by omega)]
      exact hv sec hs

/-! ## `file_write` -/

theorem firstBlock_synced {v v' : Vol p} {ino ino' : Inode} {ok : Bool} (hv : v.BlocksSynced)
    (h : firstBlock blockBitmapAlloc v ino = some (ok, v', ino')) :
    v'.BlocksSynced ∧ (v'.InodesSynced ↔ v.InodesSynced) ∧
      ∀ n i, NthFree v'.blockBitmap n i →
        NthFree v.blockBitmap (n + if ino.sec 0 = 0 then 1 else 0) i := by
  unfold firstBlock at h
  split at h
  next h0 =>
    simp only [Option.bind_eq_bind, Option.bind_eq_some_iff, Prod.exists] at h
    obtain ⟨lba, v1, halloc, h⟩ := h
    rw [if_neg (alloc_spec halloc).1] at h
    simp only [Option.bind_eq_some_iff, ensure_eq_some, exists_const, Option.pure_def,
      Option.some.injEq, Prod.mk.injEq] at h
    obtain ⟨-, v2, hsync, -, rfl, -⟩ := h
    obtain ⟨i, hfree, -, -, hown, hrest, hbm, hin⟩ := take_synced halloc hsync
    refine ⟨fun sec hs => ?_, hin, fun n j hj => ?_⟩
    · by_cases he : sec = i / 4096
      · rw [he]
        exact hown
      · exact (hrest sec he).mpr (hv sec hs)
    · rw [if_pos h0]
      rw [hbm] at hj
      exact hfree.after hj
  next h0 =>
    simp only [Option.pure_def, Option.some.injEq, Prod.mk.injEq] at h
    obtain ⟨-, rfl, -⟩ := h
    exact ⟨hv, Iff.rfl, fun n j hj => by rw [if_neg h0]; exact hj⟩

theorem writeTable_apart {v : Vol p} {t : Nat} {blocks : Nat → Nat} {d : Mem}
    (ht : OffMaps p t) (h : writeTable v.disk t blocks = some d) :
    Apart v { v with disk := d } := ht.ideWrite h

/-- The situations of `file_write`. Only in the second, from direct blocks into
indirect ones, is a block taken that is not synced. -/
theorem collectWrite_synced {has will : Nat} {v v' : Vol p} {ino ino' : Inode}
    {blocks : Nat → Nat} {ok : Bool} (hv : v.BlocksSynced) (htab : OffMaps p (ino.sec 12))
    (h : collectWrite blockBitmapAlloc v ino has will = some (ok, v', ino', blocks)) :
    (¬(has ≤ 12 ∧ 12 < will) → v'.BlocksSynced) ∧
      (has ≤ 12 ∧ 12 < will → ∃ i j, NthFree v.blockBitmap 0 i ∧ NthFree v.blockBitmap 1 j ∧
        (v'.BlocksSynced ↔ i / 4096 = j / 4096)) ∧
      (v'.InodesSynced ↔ v.InodesSynced) := by
  unfold collectWrite at h
  dsimp only at h
  split at h
  next hsame =>
    have hno : ¬(has ≤ 12 ∧ 12 < will) := by omega
    have hvol : v' = v := by
      split at h
      · simp only [Option.pure_def, Option.some.injEq, Prod.mk.injEq] at h
        exact h.2.1.symm
      · simp only [Option.bind_eq_bind, Option.bind_eq_some_iff, Option.pure_def,
          Option.some.injEq, Prod.mk.injEq] at h
        obtain ⟨_, _, _, _, -, rfl, -⟩ := h
        rfl
    subst hvol
    exact ⟨fun _ => hv, fun hyes => absurd hyes hno, Iff.rfl⟩
  next hmore =>
  split at h
  next hdirect =>
    have hno : ¬(has ≤ 12 ∧ 12 < will) := by omega
    simp only [Option.bind_eq_bind, Option.bind_eq_some_iff] at h
    obtain ⟨-, -, h⟩ := h
    obtain ⟨hkeep, hin⟩ := growLoop_synced h
    exact ⟨fun _ sec hs => hkeep sec (hv sec hs), fun hyes => absurd hyes hno, hin⟩
  next hbeyond =>
  split at h
  next hhas =>
    have hyes : has ≤ 12 ∧ 12 < will := ⟨hhas, by omega⟩
    simp only [Option.bind_eq_bind, Option.bind_eq_some_iff, Prod.exists] at h
    obtain ⟨lba, v1, halloc, h⟩ := h
    obtain ⟨hm1, hfresh, -⟩ := alloc_spec halloc
    rw [if_neg hm1] at h
    simp only [Option.bind_eq_some_iff, Prod.exists] at h
    obtain ⟨_, _, ok', v2, ino2, blocks2, hloop, h⟩ := h
    obtain ⟨rfl, hg⟩ := growLoop_spec hloop
    simp only [Bool.not_true, Bool.false_eq_true, if_false, Option.bind_eq_some_iff,
      Option.pure_def, Option.some.injEq, Prod.mk.injEq] at h
    obtain ⟨d, hwrite, -, rfl, -, -⟩ := h
    -- the table goes to the block just taken
    have hsec : ino2.sec 12 = lba.toNat := by
      rw [hg.sec, if_neg (by omega), Inode.sec_setSec (by decide) (by have := hfresh.word; omega),
        if_pos rfl]
    have hap := writeTable_apart (v := v2) (by rw [hsec]; exact offMaps_data hfresh.data) hwrite
    obtain ⟨n, hn⟩ : ∃ n, will - has = n + 1 := ⟨will - has - 1, by omega⟩
    rw [hn] at hloop
    obtain ⟨i, j, hi, hj, hiff⟩ := tableThenData hv halloc hloop
    have hin : v1.InodesSynced ↔ v.InodesSynced := by
      obtain ⟨b, -, -, -, -, rfl⟩ := alloc_takes halloc
      exact Iff.rfl
    exact ⟨fun hno => absurd hyes hno, fun _ => ⟨i, j, hi, hj, hap.blocksSynced.trans hiff⟩,
      hap.inodesSynced.trans ((growLoop_synced hloop).2.trans hin)⟩
  next hhas =>
    have hno : ¬(has ≤ 12 ∧ 12 < will) := by omega
    simp only [Option.bind_eq_bind, Option.bind_eq_some_iff, Prod.exists] at h
    obtain ⟨_, _, _, _, ok', v2, ino2, blocks2, hloop, h⟩ := h
    obtain ⟨rfl, hg⟩ := growLoop_spec hloop
    simp only [Bool.not_true, Bool.false_eq_true, if_false, Option.bind_eq_some_iff,
      Option.pure_def, Option.some.injEq, Prod.mk.injEq] at h
    obtain ⟨d, hwrite, -, rfl, -, -⟩ := h
    have hsec : ino2.sec 12 = ino.sec 12 := by rw [hg.sec, if_neg (by omega)]
    have hap := writeTable_apart (v := v2) (by rw [hsec]; exact htab) hwrite
    obtain ⟨hkeep, hin⟩ := growLoop_synced hloop
    exact ⟨fun _ => hap.blocksSynced.mpr fun sec hs => hkeep sec (hv sec hs),
      fun hyes => absurd hyes hno, hap.inodesSynced.trans hin⟩

theorem Held.offMaps {v : Vol p} {ino : Inode} (h : Held v ino) (k : Nat) :
    OffMaps p (slot v.disk ino k) := by
  by_cases h0 : slot v.disk ino k = 0
  · rw [h0]
    exact offMaps_zero
  · exact offMaps_data (h.used k h0).1

/-- The table of a file that grows by `count` bytes is written with the sector
of the first data block behind it: the write does not lead from direct blocks to
indirect ones, or both blocks, the next two free ones once the file has a first
block, have their bits in one sector. -/
def TableSynced (v : Vol p) (ino : Inode) (count : Nat) : Prop :=
  ino.size < 12 * 512 → 12 * 512 ≤ ino.size + count →
    ∀ i j, NthFree v.blockBitmap (if ino.sec 0 = 0 then 1 else 0) i →
      NthFree v.blockBitmap ((if ino.sec 0 = 0 then 1 else 0) + 1) j → i / 4096 = j / 4096

/-- **A write keeps the maps flushed** exactly when the table's block is synced
with the next one. -/
theorem fileWrite_flushed {v v' : Vol p} {f f' : File} {buf : Mem} {count : Nat} {r : Int}
    (hheld : Held v f.inode) (hv : v.Flushed)
    (h : fileWrite v f buf count = some (r, v', f')) (hr : r ≠ -1) :
    v'.Flushed ↔ TableSynced v f.inode count := by
  cases fileWrite_cases h with
  | refused hr' hv' hf' => exact absurd hr' hr
  | written v1 v2 ino1 ino2 blocks d hr' hwill hfirst hcol hw hino hsync =>
    obtain ⟨-, h1⟩ := firstBlock_spec hfirst
    have hheld1 := (h1.extends hheld).held hheld
    obtain ⟨-, h2⟩ := collectWrite_spec (by omega) (by omega) hwill hheld1.table hcol
    have hheld2 := (h2.extends hheld1).held hheld1
    obtain ⟨hv1, hin1, hnth⟩ := firstBlock_synced hv.blocks hfirst
    have htab : OffMaps p (ino1.sec 12) := by
      rw [← slot_table v1.disk]
      exact hheld1.offMaps 140
    obtain ⟨hstay, hcross, hin2⟩ := collectWrite_synced hv1 htab hcol
    -- the copy loop writes blocks of the file, the sync a slot of the inode table
    have hcopy : Apart v2 { v2 with disk := d } := by
      refine ⟨rfl, rfl, fun a ha1 ha2 => hw.frame a fun j a1 a2 he => ?_⟩
      rw [h2.cover _ (by omega) (by omega), ← slot_block _ _ (by omega)] at he
      have hoff := hheld2.offMaps (j / 512)
      rw [he] at hoff
      rcases hoff with hoff | hoff <;> omega
    have hap := hcopy.trans (inodeSync_apart hsync)
    have hino : v'.InodesSynced :=
      hap.inodesSynced.mpr (hin2.mpr (hin1.mpr hv.inodes))
    have hiff : v'.Flushed ↔ v2.BlocksSynced :=
      ⟨fun hf => hap.blocksSynced.mp hf.blocks, fun hb => ⟨hap.blocksSynced.mpr hb, hino⟩⟩
    rw [hiff]
    by_cases hsit : f.inode.size / 512 + 1 ≤ 12 ∧ 12 < (f.inode.size + count) / 512 + 1
    · obtain ⟨i, j, hi, hj, hsame⟩ := hcross hsit
      have hi := hnth 0 i hi
      have hj := hnth 1 j hj
      rw [Nat.zero_add] at hi
      rw [Nat.add_comm] at hj
      rw [hsame]
      refine ⟨fun he _ _ i' j' hi' hj' => ?_, fun ht => ht (by omega) (by omega) i j hi hj⟩
      rw [hi'.unique hi, hj'.unique hj]
      exact he
    · exact ⟨fun _ h1 h2 => absurd ⟨by omega, by omega⟩ hsit, fun _ => hstay hsit⟩

/-! ## Directories -/

/-- A block is taken, synced, and is one of the data area. -/
theorem take_blocksSynced {v v1 v2 : Vol p} {r : Int} (hv : v.BlocksSynced)
    (halloc : blockBitmapAlloc v = some (r, v1))
    (hsync : bitmapSync v1 (r.toNat - p.dataStartLba) .blockBitmap = some v2) :
    v2.BlocksSynced ∧ r ≠ -1 ∧ OffMaps p r.toNat ∧ r.toNat < 2 ^ 32 := by
  obtain ⟨hm1, hfresh, -⟩ := alloc_spec halloc
  obtain ⟨i, -, -, -, hown, hrest, -, -⟩ := take_synced halloc hsync
  refine ⟨fun sec hs => ?_, hm1, offMaps_data hfresh.data, by have := hfresh.word; omega⟩
  by_cases he : sec = i / 4096
  · rw [he]
    exact hown
  · exact (hrest sec he).mpr (hv sec hs)

/-- Both blocks `sync_dir_entry` may take are synced. -/
theorem addBlock_synced {pDe : DirEntry} {k : Nat} {v v' : Vol p} {ino ino' : Inode}
    {blocks blocks' : Nat → Nat} {ok : Bool} (hv : v.BlocksSynced)
    (htab : OffMaps p (ino.sec 12)) (hblocks : ∀ j, OffMaps p (blocks j))
    (h : addBlock blockBitmapAlloc pDe k v ino blocks = some (ok, v', ino', blocks')) :
    v'.BlocksSynced ∧ OffMaps p (ino'.sec 12) ∧ ∀ j, OffMaps p (blocks' j) := by
  unfold addBlock at h
  simp only [Option.bind_eq_bind, Option.bind_eq_some_iff, Prod.exists] at h
  obtain ⟨lba, v1, halloc, h⟩ := h
  rw [if_neg (alloc_spec halloc).1] at h
  simp only [Option.bind_eq_some_iff, Prod.exists] at h
  obtain ⟨v2, hsync, ok1, v3, ino3, blocks3, hmid, h⟩ := h
  obtain ⟨hv2, -, hoff, hword⟩ := take_blocksSynced hv halloc hsync
  have hset : ∀ b, OffMaps p b → ∀ j, OffMaps p (setWord blocks k b j) := by
    intro b hb j
    unfold setWord
    split
    · exact hb
    · exact hblocks j
  -- the three places a new block can go to
  have hplace : ok1 = true ∧ v3.BlocksSynced ∧ OffMaps p (ino3.sec 12) ∧
      ∀ j, OffMaps p (blocks3 j) := by
    by_cases hlt : k < 12
    · rw [if_pos hlt, Option.some.injEq, Prod.mk.injEq, Prod.mk.injEq, Prod.mk.injEq] at hmid
      obtain ⟨rfl, rfl, rfl, rfl⟩ := hmid
      refine ⟨rfl, hv2, ?_, hset _ hoff⟩
      rw [Inode.sec_setSec (by omega) hword, if_neg (by omega)]
      exact htab
    rw [if_neg hlt] at hmid
    by_cases h12 : k = 12
    · subst h12
      rw [if_pos rfl] at hmid
      simp only [Option.bind_eq_some_iff, Prod.exists] at hmid
      obtain ⟨lba2, v4, halloc2, hmid⟩ := hmid
      rw [if_neg (alloc_spec halloc2).1] at hmid
      simp only [Option.bind_eq_some_iff, Option.pure_def, Option.some.injEq,
        Prod.mk.injEq] at hmid
      obtain ⟨v5, hsync2, d, hwrite, rfl, rfl, rfl, rfl⟩ := hmid
      obtain ⟨hv5, -, hoff2, -⟩ := take_blocksSynced hv2 halloc2 hsync2
      have hsec : OffMaps p ((ino.setSec 12 lba.toNat).sec 12) := by
        rw [Inode.sec_setSec (by decide) hword, if_pos rfl]
        exact hoff
      exact ⟨rfl, (writeTable_apart hsec hwrite).blocksSynced.mpr hv5, hsec, hset _ hoff2⟩
    · rw [if_neg h12] at hmid
      simp only [Option.bind_eq_some_iff, Option.pure_def, Option.some.injEq,
        Prod.mk.injEq] at hmid
      obtain ⟨d, hwrite, rfl, rfl, rfl, rfl⟩ := hmid
      exact ⟨rfl, (writeTable_apart htab hwrite).blocksSynced.mpr hv2, htab, hset _ hoff⟩
  obtain ⟨rfl, hv3, htab3, hblocks3⟩ := hplace
  simp only [Bool.not_true, Bool.false_eq_true, if_false, Option.bind_eq_some_iff,
    Option.pure_def, Option.some.injEq, Prod.mk.injEq] at h
  obtain ⟨d, hwrite, -, rfl, rfl, rfl⟩ := h
  exact ⟨((hblocks3 k).ideWrite hwrite).blocksSynced.mpr hv3, htab3, hblocks3⟩

theorem syncLoop_synced {pDe : DirEntry} : ∀ {n k : Nat} {v v' : Vol p} {ino ino' : Inode}
    {blocks : Nat → Nat} {ok : Bool}, v.BlocksSynced → OffMaps p (ino.sec 12) →
    (∀ j, OffMaps p (blocks j)) →
    syncLoop blockBitmapAlloc pDe n k v ino blocks = some (ok, v', ino') → v'.BlocksSynced := by
  intro n
  induction n with
  | zero =>
    intro k v v' ino ino' blocks ok hv _ _ h
    simp only [syncLoop, Option.some.injEq, Prod.mk.injEq] at h
    obtain ⟨-, rfl, -⟩ := h
    exact hv
  | succ n ih =>
    intro k v v' ino ino' blocks ok hv htab hblocks h
    simp only [syncLoop, Option.bind_eq_bind, Option.bind_eq_some_iff, Prod.exists] at h
    obtain ⟨ok1, v1, ino1, blocks1, hblock, h⟩ := h
    -- block `k` is there, or added now
    have hthere : v1.BlocksSynced ∧ OffMaps p (ino1.sec 12) ∧ ∀ j, OffMaps p (blocks1 j) := by
      by_cases h0 : blocks k = 0
      · rw [if_pos h0] at hblock
        exact addBlock_synced hv htab hblocks hblock
      · rw [if_neg h0, Option.some.injEq, Prod.mk.injEq, Prod.mk.injEq, Prod.mk.injEq] at hblock
        obtain ⟨-, rfl, rfl, rfl⟩ := hblock
        exact ⟨hv, htab, hblocks⟩
    obtain ⟨hv1, htab1, hblocks1⟩ := hthere
    split at h
    · simp only [Option.pure_def, Option.some.injEq, Prod.mk.injEq] at h
      obtain ⟨-, rfl, -⟩ := h
      exact hv1
    · simp only [Option.bind_eq_some_iff] at h
      obtain ⟨ioBuf, -, h⟩ := h
      split at h
      · simp only [Option.bind_eq_some_iff, Option.pure_def, Option.some.injEq,
          Prod.mk.injEq] at h
        obtain ⟨d, hwrite, -, rfl, -⟩ := h
        exact ((hblocks1 k).ideWrite hwrite).blocksSynced.mpr hv1
      · exact ih hv1 htab1 hblocks1 h

/-- **Inserting an entry** keeps the block bitmap flushed. -/
theorem syncDirEntry_synced {pDe : DirEntry} {v v' : Vol p} {ino ino' : Inode} {ok : Bool}
    (hv : v.BlocksSynced) (hsec : ∀ k, OffMaps p (ino.sec k))
    (h : syncDirEntry v ino pDe = some (ok, v', ino')) : v'.BlocksSynced := by
  simp only [syncDirEntry, syncDirEntryWith, Option.bind_eq_bind, Option.bind_eq_some_iff] at h
  obtain ⟨-, -, h⟩ := h
  refine syncLoop_synced hv (hsec 12) (fun j => ?_) h
  by_cases hj : j < 12
  · rw [directBlocks_lt hj]
    exact hsec j
  · rw [directBlocks_ge (by omega)]
    exact offMaps_zero

/-- A block of an inode is given back. -/
theorem Vol.Flushed.free {v v' : Vol p} {b : Nat} (hv : v.Flushed) (h1 : p.dataStartLba ≤ b)
    (h2 : b - p.dataStartLba < 4096 * p.blockBitmapSects)
    (h : bitmapSync (v.setBlock (blockBit p b) false) (blockBit p b) .blockBitmap = some v') :
    v'.Flushed := by
  rw [blockBit_eq h1 h2] at h
  exact hv.mark h2 h

theorem deleteLoop_flushed {fuel inodeNo : Nat} {v : Vol p} {ino : Inode} {blocks : Nat → Nat}
    (hheld : Held v ino) (hv : v.Flushed) (hb : ∀ k, k < 140 → blocks k = fileBlock v.disk ino k) :
    ∀ {n k : Nat} {r : Bool} {v' : Vol p} {ino' : Inode}, k + n = 140 →
    deleteLoop fuel v ino inodeNo blocks n k = some (r, v', ino') → v'.Flushed := by
  intro n
  induction n with
  | zero =>
    intro k r v' ino' _ h
    simp only [deleteLoop, Option.some.injEq, Prod.mk.injEq] at h
    obtain ⟨-, rfl, -⟩ := h
    exact hv
  | succ n ih =>
    intro k r v' ino' hsum h
    unfold deleteLoop at h
    by_cases h0 : blocks k = 0
    · rw [if_pos h0] at h
      exact ih (by omega) h
    rw [if_neg h0] at h
    simp only [Option.bind_eq_bind, Option.bind_eq_some_iff, Prod.exists] at h
    obtain ⟨ioBuf, -, isFirst, cnt, found, -, h⟩ := h
    cases found with
    | none => exact ih (by omega) h
    | some e =>
      simp only [Option.bind_eq_some_iff, Prod.exists, Option.pure_def, Option.some.injEq,
        Prod.mk.injEq] at h
      obtain ⟨-, -, v1, ino1, hone, -, -, v2, hsync, -, rfl, -⟩ := h
      have hslot : slot v.disk ino k = blocks k := by
        rw [slot_block _ _ (by omega), hb k (by omega)]
      have hused := hheld.used k (by rw [hslot]; exact h0)
      rw [hslot] at hused
      refine (inodeSync_apart hsync).flushed.mpr ?_
      split at hone
      · simp only [dropBlock, Option.bind_eq_bind, Option.bind_eq_some_iff] at hone
        obtain ⟨v3, hfree, hone⟩ := hone
        split at hone
        · obtain ⟨rfl, -⟩ := Prod.mk.inj (Option.some.inj hone)
          exact hv.free hused.1 hused.2.1 hfree
        · rw [countIndirect_never _ _ _ (by decide)] at hone
          cases hone
      · simp only [Option.bind_eq_some_iff, Option.some.injEq, Prod.mk.injEq] at hone
        obtain ⟨d, hwrite, rfl, -⟩ := hone
        exact ((offMaps_data hused.1).ideWrite hwrite).flushed.mpr hv

/-- **Deleting an entry** keeps the bitmaps flushed. -/
theorem deleteDirEntry_flushed {fuel inodeNo : Nat} {v v' : Vol p} {ino ino' : Inode} {r : Bool}
    (hheld : Held v ino) (hv : v.Flushed)
    (h : deleteDirEntry fuel v ino inodeNo = some (r, v', ino')) : v'.Flushed := by
  simp only [deleteDirEntry, Option.bind_eq_bind, Option.bind_eq_some_iff] at h
  obtain ⟨blocks, hb, h⟩ := h
  exact deleteLoop_flushed hheld hv (fun k _ => congrFun (allBlocks_spec hb) k) (by decide) h

theorem allBlocks_slot {v : Vol p} {ino : Inode} {blocks : Nat → Nat}
    (h : allBlocks v ino = some blocks) {k : Nat} (hk : k < 140) :
    blocks k = slot v.disk ino k := by
  rw [congrFun (allBlocks_spec h) k, slot_block _ _ hk]

theorem freeLoop_flushed {blocks : Nat → Nat} : ∀ {n k : Nat} {v v' : Vol p},
    (∀ j, k ≤ j → j < k + n → blocks j ≠ 0 → p.dataStartLba ≤ blocks j ∧
      blocks j - p.dataStartLba < 4096 * p.blockBitmapSects) →
    v.Flushed → freeLoop blocks n k v = some v' → v'.Flushed := by
  intro n
  induction n with
  | zero =>
    intro k v v' _ hv h
    obtain rfl := Option.some.inj h
    exact hv
  | succ n ih =>
    intro k v v' hb hv h
    unfold freeLoop at h
    have hrest : ∀ j, k + 1 ≤ j → j < k + 1 + n → blocks j ≠ 0 → p.dataStartLba ≤ blocks j ∧
        blocks j - p.dataStartLba < 4096 * p.blockBitmapSects :=
      fun j h1 h2 => hb j (by omega) (by omega)
    by_cases h0 : blocks k = 0
    · rw [if_neg (by simp [h0])] at h
      exact ih hrest hv h
    · rw [if_pos h0] at h
      simp only [Option.bind_eq_bind, Option.bind_eq_some_iff] at h
      obtain ⟨-, -, v1, hsync, h⟩ := h
      obtain ⟨h1, h2⟩ := hb k (Nat.le_refl k) (by omega) h0
      exact ih hrest (hv.free h1 h2 hsync) h

theorem releaseBlocks_flushed {v v' : Vol p} {ino : Inode} (hheld : Held v ino) (hv : v.Flushed)
    (h : releaseBlocks v ino = some v') : v'.Flushed := by
  have hslot : ∀ k {b : Nat}, b = slot v.disk ino k → b ≠ 0 → p.dataStartLba ≤ b ∧
      b - p.dataStartLba < 4096 * p.blockBitmapSects := by
    intro k b hb h0
    rw [hb] at h0 ⊢
    exact ⟨(hheld.used k h0).1, (hheld.used k h0).2.1⟩
  unfold releaseBlocks at h
  by_cases h0 : ino.sec 12 = 0
  · rw [if_neg (by simp [h0])] at h
    refine freeLoop_flushed (fun j _ hj hne => hslot j ?_ hne) hv h
    exact allBlocks_slot (by rw [allBlocks, if_neg (by simp [h0])]) (by omega)
  · rw [if_pos h0] at h
    simp only [Option.bind_eq_bind, Option.bind_eq_some_iff] at h
    obtain ⟨blocks, hread, -, -, v1, hsync, h⟩ := h
    obtain ⟨h1, h2⟩ := hslot 140 (slot_table v.disk ino).symm h0
    refine freeLoop_flushed (fun j _ hj hne => hslot j ?_ hne) (hv.free h1 h2 hsync) h
    exact allBlocks_slot (by rw [allBlocks, if_pos h0]; exact hread) (by omega)

/-- **Releasing an inode**, whose struct is the one an open finds. -/
theorem inodeRelease_flushed {s s' : Mounted p} {n : Nat} (hv : s.vol.Flushed)
    (hheld : ∀ a s1 ino, inodeOpen s n = some (a, s1) → s1.inodeAt a = some ino → ino.no = n →
      s1.vol = s.vol ∧ Held s.vol ino)
    (h : inodeRelease s n = some s') : s'.vol.Flushed := by
  simp only [inodeRelease, Option.bind_eq_bind, Option.bind_eq_some_iff, Prod.exists,
    ensure_eq_some, exists_const] at h
  obtain ⟨a, s1, hopen, ino, hat, hno, v1, h1, v2, h2, v3, h3, hclose⟩ := h
  obtain ⟨hvol, hino⟩ := hheld a s1 ino hopen hat hno
  obtain ⟨-, hvol', -⟩ := inodeClose_touched hclose
  rw [hvol] at h1
  rw [hvol']
  have hn : n < 4096 := by
    unfold inodeDelete at h3
    simp only [Option.bind_eq_bind, Option.bind_eq_some_iff, ensure_eq_some] at h3
    exact h3.choose_spec.1
  refine (inodeDelete_apart h3).flushed.mpr ?_
  refine Vol.BlocksSynced.flush (v := v1.setInode n false) ?_ hn h2
  exact (releaseBlocks_flushed hino hv h1).blocks

end OsCore.Fs
