import OsCore.Fs.BitmapSync
import OsCore.Fs.FileContents

/-!
# How large a file may grow, and how much of it can be read

`file_write` draws its limit three times: a check on the new size that refuses
what exceeds `512 * 140` bytes, an assertion that the new last block is one of
140, and a copy loop that looks up a block for each sector it writes. The second
counts the block *behind* the last byte, so a file that would be full to the last
byte passes the first and fails the second; and since the first is computed in 32
bits, a count that wraps passes both and runs off the list of blocks.

Everything else goes through, as long as the disk has blocks left
(`fileWrite_some`). What that rests on is that the slots a file has not reached
yet are empty (`Spare`), which the allocation loops assert one by one.

`file_read` looks one block further as well, and asserts a bound of 139 rather
than 140 on it.
-/

namespace OsCore.Fs

variable {p : Partition}

/-! ## Free blocks -/

/-- How many bits of the block bitmap stand for sectors of the disk. -/
def Partition.diskBits (p : Partition) : Nat :=
  min (4096 * p.blockBitmapSects) (maxLba + 1 - p.dataStartLba)

/-- The number of free blocks. -/
def Vol.freeBlocks (v : Vol p) : Nat :=
  Nat.count (fun i => v.blockBitmap.bit i = false) p.diskBits

/-- Syncing a bit of the block bitmap finds its sector on the disk. -/
theorem sync_some (v : Vol p) {i : Nat} (hi : i < 4096 * p.blockBitmapSects) :
    ∃ v', bitmapSync v i .blockBitmap = some v' ∧ v'.blockBitmap = v.blockBitmap := by
  have h1 := p.dataStartLba_le_maxLba
  have h2 := p.dataStartLba_eq
  have hlba : p.blockBitmapLba + i / 4096 ≤ maxLba := by
    unfold Partition.blockBitmapLba
    omega
  have hwrite : ideWrite v.disk (p.blockBitmapLba + i / 4096)
      (v.blockBitmap.bits.shift (i / 4096 * 512)) 1 = some _ :=
    ideWrite_eq_some.mpr ⟨hlba, Nat.one_pos, rfl⟩
  simp only [bitmapSync, hwrite, Option.bind_eq_bind, Option.bind_some, Option.pure_def]
  exact ⟨_, rfl, rfl⟩

/-- While a block is free the allocator hands one out, and it is on the disk. -/
theorem alloc_some {v : Vol p} (h : 0 < v.freeBlocks) :
    ∃ (lba : Nat) (v' : Vol p), blockBitmapAlloc v = some ((lba : Int), v') ∧ lba ≤ maxLba ∧
      lba - p.dataStartLba < 4096 * p.blockBitmapSects ∧ v.freeBlocks = v'.freeBlocks + 1 ∧
      (v.blockBitmap.bit 0 = true → lba - p.dataStartLba ≠ 0) := by
  obtain ⟨j, hj, hzero⟩ := Nat.count_ne_iff_exists.mp (Nat.pos_iff_ne_zero.mp h)
  unfold Partition.diskBits at hj
  have hscan := Bitmap.bitmapScan_one_isSome (b := v.blockBitmap) (i := j)
    (by rw [v.blockLen]; omega) hzero
  obtain ⟨bitIdx, hscan⟩ := Option.isSome_iff_exists.mp hscan
  have halloc : ∃ r, blockBitmapAlloc v = some r := by
    unfold blockBitmapAlloc
    rw [hscan]
    simp only [Option.bind_eq_bind, Option.bind_some]
    split <;> exact ⟨_, rfl⟩
  obtain ⟨⟨r, v'⟩, halloc⟩ := halloc
  obtain ⟨i, rfl, hi, hfree, hleast, rfl⟩ := alloc_takes halloc
  -- the first free bit is not behind the one known to be free
  have hij : i ≤ j := by
    rcases Nat.lt_or_ge j i with hlt | hge
    · rw [hleast j hlt] at hzero
      cases hzero
    · exact hge
  have hcount := count_bitmapSet hfree.1 p.diskBits
  rw [if_pos (by unfold Partition.diskBits; omega)] at hcount
  refine ⟨p.dataStartLba + i, v.setBlock i true, halloc, by omega, by omega, hcount,
    fun h0 hi0 => ?_⟩
  have hclear := hfree.1
  rw [show i = 0 by omega, h0] at hclear
  cases hclear

/-! ## Through all stages -/

theorem readTable_some {d : Mem} {t : Nat} (ht : t ≤ maxLba) (b0 : Nat → Nat) :
    ∃ blocks, readTable d t b0 = some blocks := by
  unfold readTable
  rw [ideRead_eq_some.mpr ⟨ht, Nat.one_pos, rfl⟩]
  exact ⟨_, rfl⟩

theorem writeTable_some {d : Mem} {t : Nat} (ht : t ≤ maxLba) (blocks : Nat → Nat) :
    ∃ d', writeTable d t blocks = some d' :=
  ⟨_, ideWrite_eq_some.mpr ⟨ht, Nat.one_pos, rfl⟩⟩

/-- The allocation loop comes through when there are blocks for it and the
direct slots it fills are empty. -/
theorem growLoop_some : ∀ (n idx : Nat) (v : Vol p) (ino : Inode) (blocks : Nat → Nat),
    n ≤ v.freeBlocks → (∀ k, idx ≤ k → k < idx + n → k < 12 → ino.sec k = 0) →
    ∃ v' ino' blocks', growLoop blockBitmapAlloc n idx v ino blocks =
      some (true, v', ino', blocks') ∧ ∀ k, idx ≤ k → k < idx + n → blocks' k ≤ maxLba := by
  intro n
  induction n with
  | zero => exact fun _ _ _ _ _ _ => ⟨_, _, _, rfl, fun k _ _ => by omega⟩
  | succ n ih =>
    intro idx v ino blocks hfree hempty
    obtain ⟨lba, v1, halloc, hmax, hidx, hleft, -⟩ := alloc_some (show 0 < v.freeBlocks by omega)
    obtain ⟨v2, hsync, hbm⟩ := sync_some v1 hidx
    have hinstall : ∃ ino1, installBlock ino idx lba = some ino1 := by
      unfold installBlock
      by_cases h12 : idx < 12
      · rw [if_pos h12, ensure_pos (hempty idx (Nat.le_refl _) (by omega) h12)]
        exact ⟨_, rfl⟩
      · rw [if_neg h12]
        exact ⟨_, rfl⟩
    obtain ⟨ino1, hinstall⟩ := hinstall
    have hsec := (installBlock_spec (by have := p.block_lt hidx; omega) hinstall).1
    have hv2 : v2.freeBlocks = v1.freeBlocks := by
      unfold Vol.freeBlocks
      rw [hbm]
    obtain ⟨v', ino', blocks', hloop, hlast⟩ := ih (idx + 1) v2 ino1
      (setWord blocks idx lba) (by omega) (fun k h1 h2 h12 => by
        rw [hsec, if_neg (by omega)]
        exact hempty k (by omega) (by omega) h12)
    refine ⟨v', ino', blocks', ?_, fun k h1 h2 => ?_⟩
    · unfold growLoop
      simp only [halloc, Option.bind_eq_bind, Option.bind_some, Int.toNat_natCast, hinstall, hsync,
        if_neg (show ¬((lba : Int) = -1) by omega), hloop]
    · rcases Nat.eq_or_lt_of_le h1 with rfl | hlt
      · rw [(growLoop_spec hloop).2.keep idx (Or.inl (by omega)), setWord, if_pos rfl]
        exact hmax
      · exact hlast k hlt (by omega)

/-- The slots behind the last block of a file are empty. -/
structure Spare (ino : Inode) : Prop where
  direct : ∀ k, ino.size / 512 < k → k < 12 → ino.sec k = 0
  table : ino.size / 512 < 12 → ino.sec 12 = 0

/-- The blocks a file has to take to grow by `count` bytes, the table included. -/
def blocksNeeded (ino : Inode) (count : Nat) : Nat :=
  let hasUsed := ino.size / 512 + 1
  let willUse := (ino.size + count) / 512 + 1
  (if ino.sec 0 = 0 then 1 else 0) + (willUse - hasUsed) +
    if hasUsed ≤ 12 ∧ 12 < willUse then 1 else 0

/-- Of a file that has its first block: the other blocks can be had. -/
theorem collectWrite_some {v : Vol p} {ino : Inode} {will : Nat}
    (hle : ino.size / 512 + 1 ≤ will) (hwill : will ≤ 140)
    (hspare : Spare ino) (hlast : ino.size / 512 < 12 → ino.sec (ino.size / 512) ≠ 0)
    (htab : 12 ≤ ino.size / 512 → ino.sec 12 ≠ 0) (hmax : ino.sec 12 ≤ maxLba)
    (hfree : (will - (ino.size / 512 + 1)) +
      (if ino.size / 512 + 1 ≤ 12 ∧ 12 < will then 1 else 0) ≤ v.freeBlocks) :
    ∃ v' ino' blocks, collectWrite blockBitmapAlloc v ino (ino.size / 512 + 1) will =
      some (true, v', ino', blocks) ∧
      ∀ k, ino.size / 512 < k → k < will → blocks k ≤ maxLba := by
  unfold collectWrite
  dsimp only
  by_cases hsame : will = ino.size / 512 + 1
  · rw [if_pos hsame]
    by_cases h12 : ino.size / 512 + 1 ≤ 12
    · rw [if_pos h12]
      exact ⟨_, _, _, rfl, fun k _ _ => by omega⟩
    · obtain ⟨blocks, hread⟩ := readTable_some (d := v.disk) hmax fun _ => 0
      rw [if_neg h12, ensure_pos (htab (by omega)), hread]
      exact ⟨_, _, _, rfl, fun k _ _ => by omega⟩
  · rw [if_neg hsame]
    have hloop : ∀ (u : Vol p) (i : Inode) (b0 : Nat → Nat),
        will - (ino.size / 512 + 1) ≤ u.freeBlocks → (∀ k, k < 12 → i.sec k = ino.sec k) →
        ∃ v' ino' blocks, growLoop blockBitmapAlloc (will - (ino.size / 512 + 1))
          (ino.size / 512 + 1) u i b0 = some (true, v', ino', blocks) ∧
          ∀ k, ino.size / 512 < k → k < will → blocks k ≤ maxLba := by
      intro u i b0 hu hi
      obtain ⟨v', ino', blocks, hl, hb⟩ := growLoop_some _ (ino.size / 512 + 1) u i b0 hu
        (fun k h1 _ h12 => by rw [hi k h12]; exact hspare.direct k h1 h12)
      exact ⟨v', ino', blocks, hl, fun k h1 h2 => hb k h1 (by omega)⟩
    by_cases h12 : will ≤ 12
    · rw [if_pos h12, Nat.add_sub_cancel, ensure_pos (hlast (by omega))]
      rw [if_neg (by omega)] at hfree
      exact hloop v ino _ hfree fun _ _ => rfl
    · rw [if_neg h12]
      by_cases hhas : ino.size / 512 + 1 ≤ 12
      · -- situation 2: one block more, for the table
        rw [if_pos hhas]
        rw [if_pos (by omega)] at hfree
        obtain ⟨lba, v1, halloc, hlba, hidx, hleft, -⟩ :=
          alloc_some (show 0 < v.freeBlocks by omega)
        have hsec : ∀ k, (ino.setSec 12 lba).sec k = if k = 12 then lba else ino.sec k :=
          Inode.sec_setSec (by decide) (by have := p.block_lt hidx; omega)
        obtain ⟨v2, ino2, blocks, hl, hb⟩ := hloop v1 (ino.setSec 12 lba)
          (setWord (fun _ => 0) (ino.size / 512) (ino.sec (ino.size / 512))) (by omega)
          (fun k hk => by rw [hsec, if_neg (by omega)])
        have htable : ino2.sec 12 ≤ maxLba := by
          rw [(growLoop_spec hl).2.sec, if_neg (by omega), hsec, if_pos rfl]
          exact hlba
        obtain ⟨d, hwrite⟩ := writeTable_some (d := v2.disk) htable blocks
        simp only [halloc, Option.bind_eq_bind, Option.bind_some,
          if_neg (show ¬((lba : Int) = -1) by omega), ensure_pos (hspare.table (by omega)),
          Int.toNat_natCast, Nat.add_sub_cancel, hl, Bool.not_true, Bool.false_eq_true, if_false,
          hwrite]
        exact ⟨_, _, _, rfl, hb⟩
      · -- situation 3: the table is there
        rw [if_neg (by omega)] at hfree
        obtain ⟨b0, hread⟩ := readTable_some (d := v.disk) hmax fun _ => 0
        obtain ⟨v2, ino2, blocks, hl, hb⟩ := hloop v ino b0 hfree fun _ _ => rfl
        have htable : ino2.sec 12 ≤ maxLba := by
          rw [(growLoop_spec hl).2.sec, if_neg (by omega)]
          exact hmax
        obtain ⟨d, hwrite⟩ := writeTable_some (d := v2.disk) htable blocks
        rw [if_neg hhas, ensure_pos (htab (by omega))]
        simp only [hread, hl, Bool.not_true, Bool.false_eq_true, if_false, Option.bind_eq_bind,
          Option.bind_some, hwrite]
        exact ⟨_, _, _, rfl, hb⟩

/-- The copy loop comes through when the sectors it writes are on the disk. -/
theorem writeLoop_some {blocks : Nat → Nat} {buf : Mem} {count : Nat} :
    ∀ (fuel : Nat) (v : Vol p) (f : File) (bw : Nat) (first : Bool), count - bw ≤ fuel →
    f.inode.size + (count - bw) ≤ 512 * 140 →
    (∀ j, f.inode.size ≤ j → j < f.inode.size + (count - bw) → blocks (j / 512) ≤ maxLba) →
    ∃ r, writeLoop blocks buf count fuel v f bw first = some r := by
  intro fuel
  induction fuel with
  | zero =>
    intro v f bw first hfuel _ _
    unfold writeLoop
    rw [if_neg (by omega)]
    exact ⟨_, rfl⟩
  | succ fuel ih =>
    intro v f bw first hfuel hroom hblk
    unfold writeLoop
    by_cases hlt : bw < count
    · rw [if_pos hlt]
      have hmin := chunkSize_eq (count - bw) (512 - f.inode.size % 512)
      generalize hc : min (count - bw) (512 - f.inode.size % 512) = c at hmin
      have hmax := hblk f.inode.size (Nat.le_refl _) (by omega)
      obtain ⟨ioBuf, hbuf⟩ : ∃ ioBuf, (if first then
          ideRead v.disk (blocks (f.inode.size / 512)) Mem.zero 1 else some Mem.zero) =
          some ioBuf := by
        cases first with
        | true => exact ⟨_, ideRead_eq_some.mpr ⟨hmax, Nat.one_pos, rfl⟩⟩
        | false => exact ⟨_, rfl⟩
      have hsize : (f.inode.setSize (f.inode.size + c)).size = f.inode.size + c :=
        Inode.size_setSize (by omega)
      have hrest : ∀ d fd, ∃ r, writeLoop blocks buf count fuel { v with disk := d }
          { fdPos := fd, fdFlag := f.fdFlag, inode := f.inode.setSize (f.inode.size + c) }
          (bw + c) false = some r := fun d fd =>
        ih _ _ _ _ (by omega) (by dsimp only; omega) fun j h1 h2 => by
          dsimp only at h1 h2
          exact hblk j (by omega) (by omega)
      simp only [hmin, ensure_pos (show f.inode.size / 512 < 140 by omega), hbuf,
        Option.bind_eq_bind, Option.bind_some, ideWrite_eq_some.mpr ⟨hmax, Nat.one_pos, rfl⟩]
      exact hrest _ _
    · rw [if_neg hlt]
      exact ⟨_, rfl⟩

/-- The first block can be had, and it is not the root directory's. -/
theorem firstBlock_some {v : Vol p} {ino : Inode}
    (hfree : (if ino.sec 0 = 0 then 1 else 0) ≤ v.freeBlocks)
    (hroot : ino.sec 0 = 0 → v.blockBitmap.bit 0 = true) :
    ∃ v' ino', firstBlock blockBitmapAlloc v ino = some (true, v', ino') ∧
      v.freeBlocks = v'.freeBlocks + (if ino.sec 0 = 0 then 1 else 0) ∧
      (ino.sec 0 = 0 → ino'.sec 0 ≤ maxLba) ∧ (ino.sec 0 ≠ 0 → v' = v ∧ ino' = ino) := by
  unfold firstBlock
  by_cases h0 : ino.sec 0 = 0
  · rw [if_pos h0] at hfree
    obtain ⟨lba, v1, halloc, hmax, hidx, hleft, hne⟩ := alloc_some (show 0 < v.freeBlocks by omega)
    obtain ⟨v2, hsync, hbm⟩ := sync_some v1 hidx
    simp only [if_pos h0, halloc, Option.bind_eq_bind, Option.bind_some,
      if_neg (show ¬((lba : Int) = -1) by omega), Int.toNat_natCast, ensure_pos (hne (hroot h0)),
      hsync, Option.pure_def]
    refine ⟨v2, _, rfl, ?_, fun _ => ?_, fun hnz => absurd h0 hnz⟩
    · rw [hleft, Vol.freeBlocks, Vol.freeBlocks, hbm]
    · rw [Inode.sec_setSec (by decide) (by have := p.block_lt hidx; omega), if_pos rfl]
      exact hmax
  · rw [if_neg h0]
    exact ⟨v, ino, rfl, by simp [h0], fun hz => absurd hz h0, fun _ => ⟨rfl, rfl⟩⟩

/-- **A write within the limit goes through**, if the blocks it needs are free
and the sector its first byte goes to is on the disk. -/
theorem fileWrite_some {v : Vol p} {f : File} {buf : Mem} {count : Nat} {content : List UInt8}
    (hheld : Held v f.inode) (hc : Holds v f.inode content) (hs : Spare f.inode)
    (hlim : f.inode.size + count < 512 * 140)
    (hfree : blocksNeeded f.inode count ≤ v.freeBlocks)
    (hroot : f.inode.sec 0 = 0 → v.blockBitmap.bit 0 = true)
    (hlast : count = 0 ∨ fileBlock v.disk f.inode (f.inode.size / 512) ≤ maxLba) :
    ∃ v' f', fileWrite v f buf count = some ((count : Int), v', f') := by
  have hsize := hc.size
  unfold blocksNeeded at hfree
  dsimp only at hfree
  obtain ⟨v1, ino1, hfirst, hleft, hnew, hold⟩ := firstBlock_some
    (show (if f.inode.sec 0 = 0 then 1 else 0) ≤ v.freeBlocks by omega) hroot
  obtain ⟨-, h1⟩ := firstBlock_spec hfirst
  have hv1 := (h1.extends hheld).held hheld
  -- a file of a sector or more has its first block already
  have hnz : 512 ≤ f.inode.size → f.inode.sec 0 ≠ 0 := fun hge h0 => by
    rw [hc.empty h0, List.length_nil] at hsize
    omega
  have hcol : ∃ v2 ino2 blocks, collectWrite blockBitmapAlloc v1 ino1 (f.inode.size / 512 + 1)
      ((f.inode.size + count) / 512 + 1) = some (true, v2, ino2, blocks) ∧
      ∀ k, f.inode.size / 512 < k → k < (f.inode.size + count) / 512 + 1 → blocks k ≤ maxLba := by
    have h := @collectWrite_some _ v1 ino1 ((f.inode.size + count) / 512 + 1)
    rw [h1.size] at h
    refine h (by omega) (by omega) ⟨fun k hk h12 => ?_, fun h12 => ?_⟩ (fun h12 => ?_)
      (fun h12 => ?_) ?_ (by omega)
    · rw [h1.size] at hk
      rw [h1.rest k (by omega)]
      exact hs.direct k hk h12
    · rw [h1.size] at h12
      rw [h1.rest 12 (by decide)]
      exact hs.table h12
    · by_cases h0 : f.inode.size / 512 = 0
      · rw [h0]
        exact h1.nonzero
      · rw [h1.rest _ h0, ← fileBlock_direct v.disk _ h12]
        exact hc.ahead (hnz (by omega)) _ (by omega)
    · rw [h1.rest 12 (by decide)]
      exact table_of_fileBlock h12 (hc.ahead (hnz (by omega)) _ (by omega))
    · rw [h1.rest 12 (by decide)]
      exact hc.table
  obtain ⟨v2, ino2, blocks, hcol, hblk⟩ := hcol
  obtain ⟨-, h2⟩ := collectWrite_spec (by omega) (by omega) (by omega) hv1.table hcol
  have hino2 : ino2.size = f.inode.size := h2.size.trans h1.size
  obtain ⟨⟨v3, f3, bw⟩, hloop⟩ := @writeLoop_some _ blocks buf count count v2
    { f with inode := ino2, fdPos := UInt32.ofNat (f.inode.size + 2 ^ 32 - 1) } 0 true
    (by omega) (by dsimp only; omega) (fun j hj1 hj2 => by
      dsimp only at hj1 hj2
      rw [hino2] at hj1 hj2
      rcases Nat.eq_or_lt_of_le (show f.inode.size / 512 ≤ j / 512 by omega) with heq | hlt
      · -- the sector the first byte goes to
        rw [← heq, h2.cover _ (by omega) (by omega), h2.block _ (by omega), if_neg (by omega)]
        by_cases h0 : f.inode.sec 0 = 0
        · have hzero : f.inode.size = 0 := by rw [hsize, hc.empty h0, List.length_nil]
          rw [hzero, fileBlock_direct _ _ (by decide)]
          exact hnew h0
        · obtain ⟨rfl, rfl⟩ := hold h0
          exact hlast.resolve_left (by omega)
      · exact hblk _ hlt (by omega))
  obtain ⟨hbw, -, -, -⟩ := writeLoop_spec (Nat.zero_le _) hloop
  obtain ⟨v4, hsync⟩ : ∃ v4, inodeSync v3 f3.inode = some v4 := ⟨_, inodeSync_eq v3 f3.inode⟩
  refine ⟨v4, f3, ?_⟩
  unfold fileWrite fileWriteWith
  simp only [Nat.mod_eq_of_lt (show f.inode.size + count < 2 ^ 32 by omega),
    if_neg (show ¬(f.inode.size + count > 512 * 140) by omega), hfirst, hcol, Bool.not_true,
    Bool.false_eq_true, if_false, ensure_pos (show (f.inode.size + count) / 512 + 1 ≤ 140 by omega),
    Option.bind_eq_bind, Option.bind_some, hloop, hsync, Option.pure_def, hbw]
  rw [toInt32, if_pos (by omega)]

/-! ## The limit -/

/-- What passes the check on the size and comes through has passed the
assertion on the last block, in numbers that did not wrap. -/
theorem fileWrite_limit {v v' : Vol p} {f f' : File} {buf : Mem} {count : Nat} {r : Int}
    (h : fileWrite v f buf count = some (r, v', f'))
    (hpass : (f.inode.size + count) % 2 ^ 32 ≤ 512 * 140) :
    f.inode.size + count < 512 * 140 ∧ r = count := by
  unfold fileWrite fileWriteWith at h
  simp only [if_neg (show ¬((f.inode.size + count) % 2 ^ 32 > 512 * 140) by omega),
    Option.bind_eq_bind, Option.bind_eq_some_iff, Prod.exists] at h
  obtain ⟨ok1, v1, ino1, hfirst, h⟩ := h
  obtain ⟨rfl, h1⟩ := firstBlock_spec hfirst
  simp only [Bool.not_true, Bool.false_eq_true, if_false, Option.bind_eq_some_iff,
    ensure_eq_some, exists_const, Prod.exists] at h
  obtain ⟨hwill, ok2, v2, ino2, blocks, hcol, h⟩ := h
  obtain ⟨rfl, hsize⟩ := collectWrite_size hcol
  simp only [Bool.not_true, Bool.false_eq_true, if_false, Option.bind_eq_some_iff,
    Prod.exists, Option.pure_def, Option.some.injEq, Prod.mk.injEq] at h
  obtain ⟨v3, f3, bw, hloop, v4, -, hr, -, -⟩ := h
  obtain ⟨rfl, -, -, hw⟩ := writeLoop_spec (Nat.zero_le _) hloop
  have hroom := hw.room
  dsimp only at hroom
  rw [hsize, h1.size] at hroom
  have hlt := f.inode.size_lt
  refine ⟨by omega, ?_⟩
  rw [← hr, toInt32, if_pos (by omega)]

/-- A first block that is not the root directory's: the root's is taken. -/
theorem firstBlock_root {v v' : Vol p} {ino ino' : Inode} {ok : Bool}
    (h : firstBlock blockBitmapAlloc v ino = some (ok, v', ino')) (h0 : ino.sec 0 = 0) :
    v.blockBitmap.bit 0 = true := by
  unfold firstBlock at h
  simp only [if_pos h0, Option.bind_eq_bind, Option.bind_eq_some_iff, Prod.exists] at h
  obtain ⟨lba, v1, halloc, h⟩ := h
  obtain ⟨i, rfl, -, -, hleast, -⟩ := alloc_takes halloc
  rw [if_neg (by omega)] at h
  simp only [Option.bind_eq_some_iff, ensure_eq_some, exists_const] at h
  exact hleast 0 (by omega)

/-- A write over the limit is refused and leaves everything alone. -/
theorem fileWrite_refused {v : Vol p} {f : File} {buf : Mem} {count : Nat}
    (h : 512 * 140 < f.inode.size + count) (hword : f.inode.size + count < 2 ^ 32) :
    fileWrite v f buf count = some (-1, v, f) := by
  unfold fileWrite fileWriteWith
  dsimp only
  rw [Nat.mod_eq_of_lt hword, if_pos h]
  rfl

/-- The slots behind the last block stay empty. -/
theorem WriteCall.spare {v v' : Vol p} {f f' : File} {buf : Mem} {count : Nat} {r : Int}
    (h : WriteCall v f buf count r v' f') (hheld : Held v f.inode) (hs : Spare f.inode) :
    Spare f'.inode := by
  cases h with
  | refused _ _ hf' => rwa [hf']
  | written v1 v2 ino1 ino2 blocks d _ hwill hfirst hcol _ hino _ =>
    obtain ⟨-, h1⟩ := firstBlock_spec hfirst
    have hv1 := (h1.extends hheld).held hheld
    obtain ⟨-, h2⟩ := collectWrite_spec (by omega) (by omega) hwill hv1.table hcol
    have hsize : f'.inode.size = f.inode.size + count := by
      rw [hino]
      exact Inode.size_setSize (by omega)
    refine ⟨fun k hk h12 => ?_, fun h12 => ?_⟩
    · rw [hsize] at hk
      have hblk := h2.block k (by omega)
      rw [if_neg (by omega), fileBlock_direct _ _ h12, fileBlock_direct _ _ h12] at hblk
      rw [hino, Inode.sec_setSize, hblk, h1.rest k (by omega)]
      exact hs.direct k (by omega) h12
    · rw [hsize] at h12
      rw [hino, Inode.sec_setSize]
      rcases h2.table with htab | ⟨hbig, -, -⟩
      · rw [htab, h1.rest 12 (by decide)]
        exact hs.table (by omega)
      · omega

section Runs

variable {N : Type} [DecidableEq N]

/-- What every successful call keeps, a sequence of them keeps. -/
theorem Store.writes_keeps {P : Store N p → Prop}
    (hstep : ∀ s s' op, P s → s.write op = some s' → P s') :
    ∀ {ops : List (WriteOp N)} {s s' : Store N p}, P s → s.writes ops = some s' → P s' := by
  intro ops
  induction ops with
  | nil =>
    intro s s' hs h
    obtain rfl := Option.some.inj h
    exact hs
  | cons op ops ih =>
    intro s s' hs h
    simp only [Store.writes, List.foldlM_cons, Option.bind_eq_bind, Option.bind_eq_some_iff] at h
    obtain ⟨s1, h1, h⟩ := h
    exact ih (hstep s s1 op hs h1) h

/-- Files that hold what was written to them, with empty slots behind. -/
def Store.Grown (s : Store N p) : Prop :=
  (∃ content, s.Inv content) ∧ ∀ n, Spare (s.inode n)

theorem Store.Grown.write {s s' : Store N p} {op : WriteOp N} (hs : s.Grown)
    (h : s.write op = some s') : s'.Grown := by
  obtain ⟨⟨content, hinv⟩, hspare⟩ := hs
  refine ⟨⟨_, Store.write_inv h hinv⟩, fun n => ?_⟩
  unfold Store.write at h
  simp only [Option.bind_eq_bind, Option.bind_eq_some_iff, Prod.exists, ensure_eq_some,
    exists_const, Option.pure_def, Option.some.injEq] at h
  obtain ⟨r, v', f', hw, -, rfl⟩ := h
  dsimp only
  by_cases hn : n = op.file
  · rw [if_pos hn]
    exact (fileWrite_cases hw).spare (hinv.owned.held rfl) (hspare op.file)
  · rw [if_neg hn]
    exact hspare n

omit [DecidableEq N] in
theorem grown_of_created {s : Store N p} (hnew : ∀ n, Created (s.inode n)) : s.Grown := by
  refine ⟨⟨fun _ => [], ⟨fun _ _ _ hne => absurd ?_ hne, fun _ hne => absurd ?_ hne⟩,
    fun n => (hnew n).holds _⟩, fun n => ⟨fun k _ _ => (hnew n).sec k, fun _ => (hnew n).sec 12⟩⟩
  · exact (hnew _).slot _ _
  · exact (hnew _).slot _ _

theorem Store.writes_grown {s s' : Store N p} {ops : List (WriteOp N)}
    (hnew : ∀ n, Created (s.inode n)) (hrun : s.writes ops = some s') : s'.Grown :=
  Store.writes_keeps (fun _ _ _ hs h => hs.write h) (grown_of_created hnew) hrun

/-- A call of `file_write` refuses and changes nothing, or writes all it was
given and stays within the limit. -/
def WriteOk (v : Vol p) (f : File) (buf : Mem) (count : Nat) : Prop :=
  ∃ r v' f', fileWrite v f buf count = some (r, v', f') ∧
    (r = -1 ∧ v' = v ∧ f' = f ∨
      r = count ∧ f'.inode.size = f.inode.size + count ∧ f'.inode.size ≤ 512 * 140)

/-- The new size is over the limit without wrapping, or it is below: then the
root's block has to be marked when the file takes its first, and the sector the
first byte goes to has to be on the disk. -/
def Admits (v : Vol p) (ino : Inode) (count : Nat) : Prop :=
  512 * 140 < ino.size + count ∧ ino.size + count < 2 ^ 32 ∨
    ino.size + count < 512 * 140 ∧ (ino.sec 0 = 0 → v.blockBitmap.bit 0 = true) ∧
      (count = 0 ∨ fileBlock v.disk ino (ino.size / 512) ≤ maxLba)

/-- **Write admission.** Files are created and written to in any way; one more
call, of any size, with blocks free for it, does what it should exactly when
`Admits` holds: a file of `512 * 140` bytes stops the kernel, and so does a count
that makes the new size wrap. -/
theorem write_admission {s s' : Store N p} {ops : List (WriteOp N)}
    (hnew : ∀ n, Created (s.inode n)) (hrun : s.writes ops = some s') (op : WriteOp N)
    (hcount : op.count < 2 ^ 32)
    (hfree : (s'.inode op.file).size + op.count ≤ 512 * 140 →
      blocksNeeded (s'.inode op.file) op.count ≤ s'.vol.freeBlocks) :
    WriteOk s'.vol ⟨op.fdPos, op.fdFlag, s'.inode op.file⟩ op.buf op.count ↔
      Admits s'.vol (s'.inode op.file) op.count := by
  obtain ⟨⟨content, hinv⟩, hspare⟩ := Store.writes_grown hnew hrun
  have hheld : Held s'.vol (s'.inode op.file) := hinv.owned.held rfl
  have hholds := hinv.holds op.file
  have hroom := hholds.room
  have hsize := hholds.size
  constructor
  · intro h
    obtain ⟨r, v', f', hw, -⟩ := h
    by_cases hbig : 512 * 140 < (s'.inode op.file).size + op.count ∧
        (s'.inode op.file).size + op.count < 2 ^ 32
    · exact Or.inl hbig
    · -- the size check lets it pass
      obtain ⟨hlim, hr⟩ := fileWrite_limit hw (by dsimp only; omega)
      cases fileWrite_cases hw with
      | refused hm1 _ _ => omega
      | written v1 v2 ino1 ino2 blocks d _ _ hfirst _ _ _ _ =>
        refine Or.inr ⟨hlim, firstBlock_root hfirst, ?_⟩
        rcases Nat.eq_zero_or_pos op.count with hzero | hpos
        · exact Or.inl hzero
        · rcases fileWrite_spec hheld hw with ⟨hm1, -, -⟩ | ⟨-, hwritten⟩
          · omega
          · have hreach := hwritten.reach (s'.inode op.file).size (Nat.le_refl _)
              (by dsimp only; omega)
            by_cases h0 : fileBlock s'.vol.disk (s'.inode op.file)
                ((s'.inode op.file).size / 512) = 0
            · rw [h0]
              exact Or.inr (Nat.zero_le _)
            · rw [hwritten.keep _ (Nat.le_refl _) h0] at hreach
              exact Or.inr hreach
  · intro h
    rcases h with ⟨hbig, hword⟩ | ⟨hlim, hroot, hlast⟩
    · exact ⟨-1, _, _, fileWrite_refused hbig hword, Or.inl ⟨rfl, rfl, rfl⟩⟩
    · obtain ⟨v', f', hw⟩ := @fileWrite_some _ s'.vol
        ⟨op.fdPos, op.fdFlag, s'.inode op.file⟩ op.buf op.count _ hheld hholds
        (hspare op.file) hlim (hfree (Nat.le_of_lt hlim)) hroot hlast
      refine ⟨op.count, v', f', hw, Or.inr ⟨rfl, ?_⟩⟩
      rcases fileWrite_spec hheld hw with ⟨hm1, -, -⟩ | ⟨-, hwritten⟩
      · omega
      · have hgrown := hwritten.size
        dsimp only at hgrown ⊢
        omega

/-! ## Reading it back -/

omit [DecidableEq N] in
/-- The copy loop stays within the 140 blocks it has addresses for. -/
theorem readLoop_room {v : Vol p} {blocks : Nat → Nat} {size : Nat} :
    ∀ {fuel : Nat} {f f' : File} {dst dst' : Mem} {br n : Nat}, br < size →
    readLoop v blocks size fuel f dst br = some (f', dst', n) →
    f.fdPos.toNat + (size - br) ≤ 512 * 140 := by
  intro fuel
  induction fuel with
  | zero =>
    intro f f' dst dst' br n hlt h
    unfold readLoop at h
    rw [if_pos hlt] at h
    cases h
  | succ fuel ih =>
    intro f f' dst dst' br n hlt h
    unfold readLoop at h
    rw [if_pos hlt] at h
    simp only [Option.bind_eq_bind, Option.bind_eq_some_iff, ensure_eq_some, exists_const] at h
    obtain ⟨hblk, ioBuf, -, h⟩ := h
    rw [chunkSize_eq] at h
    generalize hc : min (size - br) (512 - f.fdPos.toNat % 512) = c at h
    have hpos : (f.fdPos + UInt32.ofNat c).toNat = f.fdPos.toNat + c := by
      rw [UInt32.toNat_add, UInt32.toNat_ofNat']
      omega
    by_cases hmore : br + c < size
    · have hrest := ih hmore h
      dsimp only at hrest
      omega
    · omega

/-- A call of `file_read` reports the end of the file when asked for bytes
there, and otherwise reads all it can and moves the position by that. -/
def ReadOk (v : Vol p) (f : File) (dst : Mem) (count : Nat) : Prop :=
  ∃ r f' dst', fileRead v f dst count = some (r, f', dst') ∧
    if 0 < count ∧ f.fdPos.toNat = f.inode.size then r = -1
    else r = (min count (f.inode.size - f.fdPos.toNat) : Nat) ∧
      f'.fdPos.toNat = f.fdPos.toNat + min count (f.inode.size - f.fdPos.toNat)

/-- The request does not wrap and, unless the position is at the end already,
the block behind the last byte read is one of the first 139. -/
def Readable (f : File) (count : Nat) : Prop :=
  f.fdPos.toNat + count < 2 ^ 32 ∧
    (0 < count ∧ f.fdPos.toNat = f.inode.size ∨
      f.fdPos.toNat + min count (f.inode.size - f.fdPos.toNat) < 139 * 512)

omit [DecidableEq N] in
/-- What comes through `file_read` has met both of its bounds. -/
theorem readable_of_fileRead {v : Vol p} {f f' : File} {dst dst' : Mem} {count : Nat} {r : Int}
    (h : fileRead v f dst count = some (r, f', dst')) (hpos : f.fdPos.toNat ≤ f.inode.size)
    (hsize : f.inode.size ≤ 512 * 140) (hcount : count < 2 ^ 32) : Readable f count := by
  unfold fileRead at h
  dsimp only at h
  generalize hp : f.fdPos.toNat = pos at h hpos
  by_cases hword : pos + count < 2 ^ 32
  · refine ⟨by rw [hp]; exact hword, ?_⟩
    by_cases heof : 0 < count ∧ pos = f.inode.size
    · exact Or.inl (by rw [hp]; exact heof)
    · have hn : (if (pos + count) % 2 ^ 32 > f.inode.size then
          (f.inode.size + 2 ^ 32 - pos) % 2 ^ 32 else count) = min count (f.inode.size - pos) := by
        split <;> omega
      rw [hn, if_neg (by omega)] at h
      simp only [Option.bind_eq_bind, Option.bind_eq_some_iff, ensure_eq_some, exists_const] at h
      obtain ⟨⟨-, hend⟩, -⟩ := h
      exact Or.inr (by rw [hp]; omega)
  · -- the sum wraps to less than the size, and the whole count is read
    rw [if_neg (show ¬((pos + count) % 2 ^ 32 > f.inode.size) by omega), if_neg (by omega)] at h
    simp only [Option.bind_eq_bind, Option.bind_eq_some_iff, ensure_eq_some, exists_const,
      Prod.exists] at h
    obtain ⟨-, blocks, -, f1, dst1, n, hloop, -⟩ := h
    have hroom := readLoop_room (show 0 < count by omega) hloop
    omega

/-- **Every file that can be written can be read**, up to the bounds of
`Readable`: the writer fills 140 blocks, the reader looks at 139. -/
theorem written_files_readable {s s' : Store N p} {ops : List (WriteOp N)}
    (hnew : ∀ n, Created (s.inode n)) (hrun : s.writes ops = some s') (n : N)
    (fdPos fdFlag : UInt32) (hpos : fdPos.toNat ≤ (s'.inode n).size) (count : Nat)
    (hcount : count < 2 ^ 32) (dst : Mem) :
    ReadOk s'.vol ⟨fdPos, fdFlag, s'.inode n⟩ dst count ↔
      Readable ⟨fdPos, fdFlag, s'.inode n⟩ count := by
  obtain ⟨⟨content, hinv⟩, -⟩ := Store.writes_grown hnew hrun
  have hholds := hinv.holds n
  have hroom := hholds.room
  have hsize := hholds.size
  constructor
  · intro h
    obtain ⟨r, f', dst', hread, -⟩ := h
    exact readable_of_fileRead hread hpos (by dsimp only; omega) hcount
  · intro h
    obtain ⟨hword, hend⟩ := h
    dsimp only at hword hend
    by_cases heof : 0 < count ∧ fdPos.toNat = (s'.inode n).size
    · refine ⟨-1, ⟨fdPos, fdFlag, s'.inode n⟩, dst, ?_, ?_⟩
      · have hclamp : (fdPos.toNat + count) % 2 ^ 32 > (s'.inode n).size := by omega
        have hzero : ((s'.inode n).size + 2 ^ 32 - fdPos.toNat) % 2 ^ 32 = 0 := by omega
        unfold fileRead
        dsimp only
        rw [if_pos hclamp, if_pos ⟨hclamp, hzero⟩]
        rfl
      · rw [if_pos heof]
    · rw [hsize] at hpos heof hend
      obtain ⟨f', hread, hfd, -⟩ := fileRead_within (f := ⟨fdPos, fdFlag, s'.inode n⟩) dst count
        hholds hpos hword (fun _ => by dsimp only; omega) (hend.resolve_left heof)
      refine ⟨_, f', _, hread, ?_⟩
      dsimp only
      rw [hsize, if_neg heof]
      exact ⟨rfl, hfd⟩

end Runs

/-- Bits are free on the small volume of `twoFiles` behind the root's. -/
theorem twoFiles_free : 199 ≤ twoFiles.vol.freeBlocks := by
  have hmono : Nat.count (fun i => twoFiles.vol.blockBitmap.bit i = false) 200 ≤
      twoFiles.vol.freeBlocks := Nat.count_monotone _ (by decide)
  have hcount : Nat.count (fun i => twoFiles.vol.blockBitmap.bit i = false) 200 = 199 := by
    decide +kernel
  omega

theorem write_admission_three_bytes :
    WriteOk twoFiles.vol ⟨0, 0, twoFiles.inode true⟩ (fun _ => 5) 3 ↔
      Admits twoFiles.vol (twoFiles.inode true) 3 :=
  @write_admission blankPartition Bool _ twoFiles twoFiles [] (fun _ => ⟨7, _, rfl⟩) rfl
    ⟨true, 0, 0, fun _ => 5, 3⟩ (by decide) fun _ =>
      Nat.le_trans (by decide) twoFiles_free

/-- An empty file is given exactly as many bytes as a file may have. -/
theorem full_file_stops_the_kernel :
    Created (twoFiles.inode true) ∧ (twoFiles.inode true).size = 0 ∧
      blocksNeeded (twoFiles.inode true) 71680 ≤ twoFiles.vol.freeBlocks ∧
      fileWrite twoFiles.vol ⟨0, 0, twoFiles.inode true⟩ (fun _ => 5) 71680 = none ∧
      ¬WriteOk twoFiles.vol ⟨0, 0, twoFiles.inode true⟩ (fun _ => 5) 71680 := by
  have hnone : fileWrite twoFiles.vol ⟨0, 0, twoFiles.inode true⟩ (fun _ => 5) 71680 = none := by
    cases hw : fileWrite twoFiles.vol ⟨0, 0, twoFiles.inode true⟩ (fun _ => 5) 71680 with
    | none => rfl
    | some r => exact absurd (fileWrite_limit hw (by decide)).1 (by decide)
  refine ⟨⟨7, _, rfl⟩, rfl, Nat.le_trans (by decide) twoFiles_free, hnone, fun h => ?_⟩
  obtain ⟨r, v', f', hw, -⟩ := h
  rw [hnone] at hw
  cases hw

/-- One write of any size below the limit to the first of the two files. -/
theorem twoFiles_write (count : Nat) (hcount : count < 139 * 512 + 512)
    (hfree : blocksNeeded (twoFiles.inode true) count ≤ twoFiles.vol.freeBlocks) :
    ∃ s', twoFiles.writes [⟨true, 0, 0, fun _ => 5, count⟩] = some s' ∧
      (s'.inode true).size = count := by
  obtain ⟨⟨content, hinv⟩, hspare⟩ :=
    grown_of_created (s := twoFiles) fun _ => ⟨7, _, rfl⟩
  have hheld : Held twoFiles.vol (twoFiles.inode true) := hinv.owned.held rfl
  obtain ⟨v', f', hw⟩ := @fileWrite_some _ twoFiles.vol ⟨0, 0, twoFiles.inode true⟩
    (fun _ => 5) count _ hheld (hinv.holds true) (hspare true)
    (by rw [show (twoFiles.inode true).size = 0 from rfl]; omega) hfree (fun _ => by decide)
    (Or.inr (by decide))
  refine ⟨⟨v', fun n => if n = true then f'.inode else twoFiles.inode n⟩, ?_, ?_⟩
  · simp only [Store.writes, List.foldlM_cons, List.foldlM_nil, Store.write, hw,
      Option.bind_eq_bind, Option.bind_some, ensure_pos (show (count : Int) ≠ -1 by omega),
      Option.pure_def]
  · rcases fileWrite_spec hheld hw with ⟨hm1, -, -⟩ | ⟨-, hwritten⟩
    · omega
    · have hsize := hwritten.size
      rw [show (twoFiles.inode true).size = 0 from rfl, Nat.zero_add] at hsize
      exact hsize

theorem written_files_readable_at_the_end :
    ∃ s', twoFiles.writes [⟨true, 0, 0, fun _ => 5, 600⟩] = some s' ∧
      (ReadOk s'.vol ⟨600, 0, s'.inode true⟩ Mem.zero 1 ↔
        Readable ⟨600, 0, s'.inode true⟩ 1) := by
  obtain ⟨s', hrun, hsize⟩ := twoFiles_write 600 (by decide)
    (Nat.le_trans (by decide) twoFiles_free)
  exact ⟨s', hrun, written_files_readable (fun _ => ⟨7, _, rfl⟩) hrun true 600 0
    (by rw [hsize]; decide) 1 (by decide) Mem.zero⟩

/-- The last byte of a file of 139 full blocks. -/
theorem last_byte_unreadable :
    ∃ s', twoFiles.writes [⟨true, 0, 0, fun _ => 5, 71168⟩] = some s' ∧
      (s'.inode true).size = 71168 ∧
      fileRead s'.vol ⟨71167, 0, s'.inode true⟩ Mem.zero 1 = none ∧
      ¬ReadOk s'.vol ⟨71167, 0, s'.inode true⟩ Mem.zero 1 := by
  obtain ⟨s', hrun, hsize⟩ := twoFiles_write 71168 (by decide)
    (Nat.le_trans (by decide) twoFiles_free)
  have hpos : (71167 : UInt32).toNat = 71167 := rfl
  have hnone : fileRead s'.vol ⟨71167, 0, s'.inode true⟩ Mem.zero 1 = none := by
    cases hread : fileRead s'.vol ⟨71167, 0, s'.inode true⟩ Mem.zero 1 with
    | none => rfl
    | some r =>
      obtain ⟨-, hend⟩ := readable_of_fileRead hread (by dsimp only; rw [hsize, hpos]; omega)
        (by dsimp only; rw [hsize]; omega) (by decide)
      dsimp only at hend
      rw [hsize, hpos] at hend
      omega
  refine ⟨s', hrun, hsize, hnone, fun h => ?_⟩
  obtain ⟨r, f', dst', hread, -⟩ := h
  rw [hnone] at hread
  cases hread

end OsCore.Fs
