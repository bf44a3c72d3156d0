import OsCore.Fs.FileContents

/-!
# What a failed write leaves behind

`file_write` asks for its blocks one at a time and returns -1 when a request is
refused, from wherever it is. It has no way back: a block that was granted stays
marked in the bitmap, in memory and on disk, and whatever was entered in
`i_sectors` stays there, whether the file ever reaches that block or not.

So the call leaves nothing behind exactly when nothing had been granted yet
(`failed_write_unchanged`): when the size check refused it, or the very first
request. The argument follows the two places a request can fail in: the file's
first block (`firstBlock_refused`) and the blocks and the table it grows by
(`collectWrite_refused`), each of which has either done nothing or taken a block
that was free.
-/

namespace OsCore.Fs

variable {p : Partition}

/-! ## Requests that may be refused -/

/-- `block_bitmap_alloc`, finding nothing in the states marked `full`. Every
block granted changes the map, so the requests of one call are made in different
states and any pattern of refusals is such a marking. -/
def allocOr (full : Vol p → Bool) (v : Vol p) : Option (Int × Vol p) :=
  if full v then some (-1, v) else blockBitmapAlloc v

theorem allocOr_full {full : Vol p → Bool} {v : Vol p} (h : full v = true) :
    allocOr full v = some (-1, v) := if_pos h

theorem allocOr_grants {full : Vol p → Bool} {v : Vol p} (h : full v = false) :
    allocOr full v = blockBitmapAlloc v := by
  unfold allocOr
  rw [h]
  rfl

/-- No mark is lost on the way, and a block has been taken unless the very first
request was refused. -/
structure Partway (full : Vol p → Bool) (v v' : Vol p) : Prop where
  mono : ∀ b, v.Used b → v'.Used b
  took : full v = false → ∃ b, ¬v.Used b ∧ v'.Used b

/-- A block was granted, and no mark lost since. -/
theorem Partway.of_alloc {full : Vol p → Bool} {v v1 v' : Vol p} {r : Int}
    (h : blockBitmapAlloc v = some (r, v1)) (hmono : ∀ b, v1.Used b → v'.Used b) :
    Partway full v v' := by
  obtain ⟨-, hfresh, hgrow, -⟩ := alloc_spec h
  exact ⟨fun b hb => hmono b (hgrow.mono b hb),
    fun _ => ⟨r.toNat, hfresh.free, hmono _ hfresh.used⟩⟩

/-- An allocation loop that fails has done nothing or has taken a block. -/
theorem growLoop_refused {full : Vol p → Bool} : ∀ {n idx : Nat} {v v' : Vol p}
    {ino ino' : Inode} {blocks blocks' : Nat → Nat} {ok : Bool},
    growLoop (allocOr full) n idx v ino blocks = some (ok, v', ino', blocks') →
    (∀ b, v.Used b → v'.Used b) ∧
      (ok = false → Partway full v v' ∧ (full v = true → v' = v ∧ ino' = ino)) := by
  intro n
  induction n with
  | zero =>
    intro idx v v' ino ino' blocks blocks' ok h
    simp only [growLoop, Option.some.injEq, Prod.mk.injEq] at h
    obtain ⟨rfl, rfl, -, -⟩ := h
    exact ⟨fun _ hb => hb, fun hok => by cases hok⟩
  | succ n ih =>
    intro idx v v' ino ino' blocks blocks' ok h
    unfold growLoop at h
    cases hfull : full v with
    | true =>
      simp only [allocOr_full hfull, Option.bind_eq_bind, Option.bind_some, if_true,
        Option.pure_def, Option.some.injEq, Prod.mk.injEq] at h
      obtain ⟨-, rfl, rfl, -⟩ := h
      refine ⟨fun _ hb => hb, fun _ => ⟨⟨fun _ hb => hb, fun hf => ?_⟩, fun _ => ⟨rfl, rfl⟩⟩⟩
      rw [hfull] at hf
      cases hf
    | false =>
      simp only [allocOr_grants hfull, Option.bind_eq_bind, Option.bind_eq_some_iff,
        Prod.exists] at h
      obtain ⟨lba, v1, halloc, h⟩ := h
      obtain ⟨hne, -, hgrow, -, hidx, -⟩ := alloc_spec halloc
      rw [if_neg hne] at h
      simp only [Option.bind_eq_some_iff] at h
      obtain ⟨ino1, -, v2, hsync, hrec⟩ := h
      obtain ⟨hgrow2, -⟩ := sync_grow hidx hsync
      have hmono : ∀ b, v1.Used b → v'.Used b := fun b hb => (ih hrec).1 b (hgrow2.mono b hb)
      exact ⟨fun b hb => hmono b (hgrow.mono b hb),
        fun _ => ⟨Partway.of_alloc halloc hmono, fun hf => by cases hf⟩⟩

/-- The same for all the ways of gathering blocks. -/
theorem collectWrite_refused {full : Vol p → Bool} {has will : Nat} {v v' : Vol p}
    {ino ino' : Inode} {blocks : Nat → Nat}
    (h : collectWrite (allocOr full) v ino has will = some (false, v', ino', blocks)) :
    Partway full v v' ∧ (full v = true → v' = v ∧ ino' = ino) := by
  unfold collectWrite at h
  dsimp only at h
  split at h
  next hsame =>
    -- nothing is asked for
    split at h
    next =>
      simp only [Option.pure_def, Option.some.injEq, Prod.mk.injEq, Bool.true_eq_false,
        false_and] at h
    next =>
      simp only [Option.bind_eq_bind, Option.bind_eq_some_iff, Option.pure_def,
        Option.some.injEq, Prod.mk.injEq, Bool.true_eq_false, false_and, and_false,
        exists_false] at h
  next hne =>
    split at h
    next h12 =>
      simp only [Option.bind_eq_bind, Option.bind_eq_some_iff] at h
      obtain ⟨-, -, h⟩ := h
      exact (growLoop_refused h).2 rfl
    next h12 =>
      split at h
      next hhas =>
        cases hfull : full v with
        | true =>
          simp only [allocOr_full hfull, Option.bind_eq_bind, Option.bind_some, if_true,
            Option.pure_def, Option.some.injEq, Prod.mk.injEq] at h
          obtain ⟨-, rfl, rfl, -⟩ := h
          refine ⟨⟨fun _ hb => hb, fun hf => ?_⟩, fun _ => ⟨rfl, rfl⟩⟩
          rw [hfull] at hf
          cases hf
        | false =>
          -- the table was granted, one of the blocks was not
          simp only [allocOr_grants hfull, Option.bind_eq_bind, Option.bind_eq_some_iff,
            Prod.exists] at h
          obtain ⟨lba, v1, halloc, h⟩ := h
          rw [if_neg (alloc_spec halloc).1] at h
          simp only [Option.bind_eq_some_iff, Prod.exists] at h
          obtain ⟨-, -, ok, v2, ino2, blocks2, hloop, h⟩ := h
          have hv2 : v' = v2 := by
            cases ok with
            | false =>
              simp only [Bool.not_false, if_true, Option.pure_def, Option.some.injEq,
                Prod.mk.injEq] at h
              exact h.2.1.symm
            | true =>
              simp only [Bool.not_true, Bool.false_eq_true, if_false, Option.bind_eq_some_iff,
                Option.pure_def, Option.some.injEq, Prod.mk.injEq, Bool.true_eq_false, false_and,
                and_false, exists_false] at h
          rw [hv2]
          exact ⟨Partway.of_alloc halloc (growLoop_refused hloop).1, fun hf => by cases hf⟩
      next hhas =>
        simp only [Option.bind_eq_bind, Option.bind_eq_some_iff, Prod.exists] at h
        obtain ⟨-, -, blocks0, -, ok, v2, ino2, blocks2, hloop, h⟩ := h
        cases ok with
        | false =>
          simp only [Bool.not_false, if_true, Option.pure_def, Option.some.injEq,
            Prod.mk.injEq] at h
          obtain ⟨-, rfl, rfl, -⟩ := h
          exact (growLoop_refused hloop).2 rfl
        | true =>
          simp only [Bool.not_true, Bool.false_eq_true, if_false, Option.bind_eq_some_iff,
            Option.pure_def, Option.some.injEq, Prod.mk.injEq, Bool.true_eq_false, false_and,
            and_false, exists_false] at h

/-- The first block of a file: there already, refused, or taken. -/
theorem firstBlock_refused {full : Vol p → Bool} {v v' : Vol p} {ino ino' : Inode} {ok : Bool}
    (h : firstBlock (allocOr full) v ino = some (ok, v', ino')) :
    (v' = v ∧ ino' = ino ∧ (ok = false → full v = true)) ∨
      ok = true ∧ full v = false ∧ Partway full v v' := by
  unfold firstBlock at h
  split at h
  next h0 =>
    cases hfull : full v with
    | true =>
      simp only [allocOr_full hfull, Option.bind_eq_bind, Option.bind_some, if_true,
        Option.pure_def, Option.some.injEq, Prod.mk.injEq] at h
      obtain ⟨-, rfl, rfl⟩ := h
      exact Or.inl ⟨rfl, rfl, fun _ => rfl⟩
    | false =>
      simp only [allocOr_grants hfull, Option.bind_eq_bind, Option.bind_eq_some_iff,
        Prod.exists] at h
      obtain ⟨lba, v1, halloc, h⟩ := h
      obtain ⟨hne, -, -, -, hidx, -⟩ := alloc_spec halloc
      rw [if_neg hne] at h
      simp only [Option.bind_eq_some_iff, Option.pure_def, Option.some.injEq,
        Prod.mk.injEq] at h
      obtain ⟨-, -, v2, hsync, rfl, rfl, -⟩ := h
      exact Or.inr ⟨rfl, rfl, Partway.of_alloc halloc (sync_grow hidx hsync).1.mono⟩
  next h0 =>
    simp only [Option.pure_def, Option.some.injEq, Prod.mk.injEq] at h
    obtain ⟨rfl, rfl, rfl⟩ := h
    exact Or.inl ⟨rfl, rfl, fun hf => by cases hf⟩

/-! ## The failed call -/

/-- The blocks `inode_release` of this inode gives back. -/
def Releases (v : Vol p) (ino : Inode) (b : Nat) : Prop := b ≠ 0 ∧ ∃ k, slot v.disk ino k = b

/-- The file and the block bitmap are what they were. -/
structure Unwritten (v : Vol p) (f : File) (v' : Vol p) (f' : File) : Prop where
  size : f'.inode.size = f.inode.size
  sectors : ∀ k, f'.inode.sec k = f.inode.sec k
  bitmap : v'.blockBitmap = v.blockBitmap
  releases : ∀ b, Releases v' f'.inode b ↔ Releases v f.inode b

theorem Unwritten.of_same {v v' : Vol p} {f f' : File} (hv : v' = v)
    (hf : f'.inode = f.inode) : Unwritten v f v' f' := by
  subst hv
  exact ⟨by rw [hf], fun _ => by rw [hf], rfl, fun _ => by rw [hf]⟩

/-- A block that was taken tells the two bitmaps apart. -/
theorem Unwritten.not_taken {v v' : Vol p} {f f' : File} (h : Unwritten v f v' f')
    {b : Nat} (hfree : ¬v.Used b) (hused : v'.Used b) : False := by
  apply hfree
  unfold Vol.Used at hused ⊢
  rwa [h.bitmap] at hused

/-- **A failed write changes nothing** exactly when it was refused for its size
or at its first request for a block. -/
theorem failed_write_unchanged (full : Vol p → Bool) {v v' : Vol p} {f f' : File} {buf : Mem}
    {count : Nat} (h : fileWriteWith (allocOr full) v f buf count = some (-1, v', f')) :
    Unwritten v f v' f' ↔
      512 * 140 < (f.inode.size + count) % 2 ^ 32 ∨ full v = true := by
  unfold fileWriteWith at h
  dsimp only at h
  split at h
  next hbig =>
    simp only [Option.pure_def, Option.some.injEq, Prod.mk.injEq] at h
    obtain ⟨-, rfl, rfl⟩ := h
    exact ⟨fun _ => Or.inl hbig, fun _ => Unwritten.of_same rfl rfl⟩
  next hsmall =>
    simp only [Option.bind_eq_bind, Option.bind_eq_some_iff, Prod.exists] at h
    obtain ⟨ok1, v1, ino1, hfirst, h⟩ := h
    have hfb := firstBlock_refused hfirst
    cases ok1 with
    | false =>
      simp only [Bool.not_false, if_true, Option.pure_def, Option.some.injEq, Prod.mk.injEq] at h
      obtain ⟨-, rfl, rfl⟩ := h
      obtain ⟨hv, hino, hfull⟩ := hfb.resolve_right fun hr => by cases hr.1
      exact ⟨fun _ => Or.inr (hfull rfl), fun _ => Unwritten.of_same hv hino⟩
    | true =>
      simp only [Bool.not_true, Bool.false_eq_true, if_false, Option.bind_eq_some_iff,
        Prod.exists] at h
      obtain ⟨-, -, ok2, v2, ino2, blocks, hcol, h⟩ := h
      cases ok2 with
      | false =>
        simp only [Bool.not_false, if_true, Option.pure_def, Option.some.injEq,
          Prod.mk.injEq] at h
        obtain ⟨-, rfl, rfl⟩ := h
        obtain ⟨hpart, hnone⟩ := collectWrite_refused hcol
        rcases hfb with ⟨rfl, rfl, -⟩ | ⟨-, hfull, hpart1⟩
        · -- the first request was for a block to grow by
          cases hfull : full v1 with
          | true =>
            obtain ⟨hv, hino⟩ := hnone hfull
            exact ⟨fun _ => Or.inr rfl, fun _ => Unwritten.of_same hv hino⟩
          | false =>
            obtain ⟨b, hfree, hused⟩ := hpart.took hfull
            refine ⟨fun hu => (hu.not_taken hfree hused).elim, fun hc => ?_⟩
            rcases hc with hbig | hf
            · exact absurd hbig hsmall
            · cases hf
        · -- the first block was granted and stays
          obtain ⟨b, hfree, hused⟩ := hpart1.took hfull
          refine ⟨fun hu => (hu.not_taken hfree (hpart.mono b hused)).elim, fun hc => ?_⟩
          rcases hc with hbig | hf
          · exact absurd hbig hsmall
          · rw [hfull] at hf
            cases hf
      | true =>
        -- past the requests the call does not fail
        simp only [Bool.not_true, Bool.false_eq_true, if_false, Option.bind_eq_some_iff,
          Prod.exists, Option.pure_def, Option.some.injEq, Prod.mk.injEq] at h
        obtain ⟨v3, f3, bw, hloop, v4, -, hr, -, -⟩ := h
        obtain ⟨rfl, -, -, hw⟩ := writeLoop_spec (Nat.zero_le _) hloop
        have hroom := hw.room
        unfold toInt32 at hr
        split at hr <;> omega

/-- Two blocks are asked for, the map counts as full once bit 1 is taken. -/
def fullAfterOne (v : Vol blankPartition) : Bool := v.blockBitmap.bit 1

theorem failed_write_unchanged_over_the_limit :
    ∃ v' f', fileWriteWith (allocOr fullAfterOne) twoFiles.vol ⟨0, 0, twoFiles.inode true⟩
        Mem.zero 71681 = some (-1, v', f') ∧
      (Unwritten twoFiles.vol ⟨0, 0, twoFiles.inode true⟩ v' f' ↔
        512 * 140 < ((twoFiles.inode true).size + 71681) % 2 ^ 32 ∨
          fullAfterOne twoFiles.vol = true) := by
  have hrun : fileWriteWith (allocOr fullAfterOne) twoFiles.vol ⟨0, 0, twoFiles.inode true⟩
      Mem.zero 71681 = some (-1, twoFiles.vol, ⟨0, 0, twoFiles.inode true⟩) := by
    unfold fileWriteWith
    dsimp only
    rw [if_pos (by decide)]
    rfl
  exact ⟨_, _, hrun, failed_write_unchanged fullAfterOne hrun⟩

/-- A write of 600 bytes to an empty file that gets the first of its two blocks. -/
theorem failed_write_keeps_a_block :
    ∃ v' f', fileWriteWith (allocOr fullAfterOne) twoFiles.vol ⟨0, 0, twoFiles.inode true⟩
        Mem.zero 600 = some (-1, v', f') ∧
      f'.inode.sec 0 = 613 ∧ v'.blockBitmap.bit 1 = true ∧
      ¬Unwritten twoFiles.vol ⟨0, 0, twoFiles.inode true⟩ v' f' := by
  have hrun : (fileWriteWith (allocOr fullAfterOne) twoFiles.vol ⟨0, 0, twoFiles.inode true⟩
      Mem.zero 600).map (fun r => (r.1, r.2.1.blockBitmap.bit 1, r.2.2.inode.sec 0)) =
      some (-1, true, 613) := by decide +kernel
  obtain ⟨⟨r, v', f'⟩, hrun, hval⟩ := Option.map_eq_some_iff.mp hrun
  simp only [Prod.mk.injEq] at hval
  obtain ⟨rfl, hbit, hsec⟩ := hval
  refine ⟨v', f', hrun, hsec, hbit, fun hu => ?_⟩
  have h0 := hu.sectors 0
  rw [hsec] at h0
  exact absurd h0 (by decide)

end OsCore.Fs
