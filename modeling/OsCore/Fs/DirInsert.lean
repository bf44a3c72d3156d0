import OsCore.Fs.Dir

/-!
# What `sync_dir_entry` does

A call that returns has put the entry in one of two ways (`syncDirEntry_spec`):
into the first free slot of an existing direct block, all earlier ones being
full, or into a block it added. The second way runs on into the first. The new
block is written with the entry in slot 0, and the search for a free slot then
starts in that same block and finds slot 1, so the entry is stored twice and
the size grows by two entries.

The blocks past the twelfth are not looked at. Their addresses are taken to be
zero, so with all direct blocks full a new table replaces the one that is there.
-/

namespace OsCore.Fs

variable {p : Partition}

/-- Entry `e` of the sector `lba`. -/
def entryAt (disk : Mem) (lba e : Nat) : DirEntry := DirEntry.ofMem disk (512 * lba + 24 * e)

/-- The sector has no free slot. -/
def Full (disk : Mem) (lba : Nat) : Prop := ∀ e, e < 21 → (entryAt disk lba e).fType ≠ ftUnknown

theorem entryAt_congr {d d' : Mem} {lba : Nat} (h : ∀ i, i < 512 → d' (512 * lba + i) = d (512 * lba + i))
    {e : Nat} (he : e < 21) : entryAt d' lba e = entryAt d lba e :=
  DirEntry.ofMem_congr fun i hi => by rw [Nat.add_assoc]; exact h _ (by omega)

/-- Entries as seen in a buffer that holds the sector. -/
theorem ofMem_sector {d buf : Mem} {lba : Nat} (h : ∀ i, i < 512 → buf i = d (512 * lba + i))
    {e : Nat} (he : e < 21) : DirEntry.ofMem buf (24 * e) = entryAt d lba e :=
  DirEntry.ofMem_congr fun i hi => by rw [Nat.add_assoc]; exact h _ (by omega)

theorem ideRead_sector {d buf : Mem} {lba : Nat} (h : ideRead d lba Mem.zero 1 = some buf) :
    lba ≤ maxLba ∧ buf = Mem.zero.blit 0 (d.shift (512 * lba)) 512 ∧
      ∀ i, i < 512 → buf i = d (512 * lba + i) := by
  obtain ⟨hmax, -, rfl⟩ := ideRead_eq_some.mp h
  exact ⟨hmax, rfl, fun i hi => by rw [Mem.blit_in (by omega) (by omega), Mem.shift, Nat.sub_zero]⟩

theorem freeSlot_some {buf : Mem} {e : Nat} (h : freeSlot buf = some e) :
    e < 21 ∧ (DirEntry.ofMem buf (24 * e)).fType = ftUnknown ∧
      ∀ e', e' < e → (DirEntry.ofMem buf (24 * e')).fType ≠ ftUnknown := by
  unfold freeSlot at h
  rw [List.find?_range_eq_some] at h
  obtain ⟨hz, he, hlt⟩ := h
  exact ⟨List.mem_range.mp he, by simpa using hz, fun e' h' => by simpa using hlt e' h'⟩

theorem freeSlot_none {buf : Mem} (h : freeSlot buf = none) {e : Nat} (he : e < 21) :
    (DirEntry.ofMem buf (24 * e)).fType ≠ ftUnknown := by
  unfold freeSlot at h
  rw [List.find?_eq_none] at h
  simpa using h e (List.mem_range.mpr he)

/-! ## Adding a block -/

/-- A sector with one entry in front and nothing behind it. -/
def firstSector (pDe : DirEntry) : Mem := Mem.zero.blit 0 pDe.bytes 24

/-- What the branch for a missing block `k ≤ 12` leaves behind. For `k = 12` the
table is new as well. -/
structure Added (pDe : DirEntry) (k : Nat) (v : Vol p) (ino : Inode) (v' : Vol p) (ino' : Inode)
    (b : Nat) : Prop where
  fresh : Fresh v v' b
  max : b ≤ maxLba
  mono : ∀ c, v.Used c → v'.Used c
  inodes : v'.inodeBitmap = v.inodeBitmap
  sector : ∀ i, i < 512 → v'.disk (512 * b + i) = firstSector pDe i
  frame : ∀ a, a < 512 * p.blockBitmapLba ∨ 512 * p.inodeBitmapLba ≤ a → a / 512 ≠ b →
    (k = 12 → a / 512 ≠ ino'.sec 12) → v'.disk a = v.disk a
  direct : k < 12 → ino' = (ino.setSec k b).setSize (ino.size + 24)
  indirect : k = 12 → ∃ t, ino' = (ino.setSec 12 t).setSize (ino.size + 24) ∧ Fresh v v' t ∧
    t ≠ b ∧ t ≤ maxLba ∧ ∀ j, j < 128 → v'.disk.rd32 (512 * t + 4 * j) = if j = 0 then b else 0

theorem ideWrite_firstSector {d d' : Mem} {b : Nat} {pDe : DirEntry}
    (h : ideWrite d b (Mem.zero.blit 0 pDe.bytes dirEntrySize) 1 = some d') :
    b ≤ maxLba ∧ (∀ i, i < 512 → d' (512 * b + i) = firstSector pDe i) ∧
      ∀ a, a / 512 ≠ b → d' a = d a := by
  obtain ⟨hmax, -, rfl⟩ := ideWrite_eq_some.mp h
  exact ⟨hmax, fun i hi => Mem.blit_add (by omega), fun a ha => Mem.blit_out (by omega)⟩

theorem addBlock_spec {pDe : DirEntry} {k : Nat} {v v' : Vol p} {ino ino' : Inode}
    {blocks blocks' : Nat → Nat} {ok : Bool} (hk : k ≤ 12) (hrest : ∀ j, 12 ≤ j → blocks j = 0)
    (h : addBlock blockBitmapAlloc pDe k v ino blocks = some (ok, v', ino', blocks')) :
    ok = true ∧ Added pDe k v ino v' ino' (blocks' k) := by
  unfold addBlock at h
  simp only [Option.bind_eq_bind, Option.bind_eq_some_iff, Prod.exists] at h
  obtain ⟨lba, v1, halloc, h⟩ := h
  obtain ⟨hm1, hfresh, hgrow, -, hidx, -⟩ := alloc_spec halloc
  rw [if_neg hm1] at h
  simp only [Option.bind_eq_some_iff, Prod.exists] at h
  obtain ⟨v2, hsync, ok1, v3, ino3, blocks3, hmid, h⟩ := h
  obtain ⟨hgrow2, -⟩ := sync_grow hidx hsync
  have hg := hgrow.trans hgrow2
  have hf2 := hfresh.mono hgrow2
  rcases Nat.lt_or_eq_of_le hk with hlt | rfl
  · rw [if_pos hlt, Option.some.injEq, Prod.mk.injEq, Prod.mk.injEq, Prod.mk.injEq] at hmid
    obtain ⟨rfl, rfl, rfl, rfl⟩ := hmid
    simp only [Bool.not_true, Bool.false_eq_true, if_false, Option.bind_eq_some_iff,
      Option.pure_def, Option.some.injEq, Prod.mk.injEq] at h
    obtain ⟨d, hw, rfl, rfl, rfl, rfl⟩ := h
    rw [setWord, if_pos rfl] at hw ⊢
    obtain ⟨hmax, hsec, hframe⟩ := ideWrite_firstSector hw
    exact ⟨rfl, ⟨hf2.data, hf2.word, hf2.free, hf2.used⟩, hmax, hg.mono, hg.inodes, hsec,
      fun a ha hb _ => (hframe a hb).trans (hg.disk a ha), fun _ => rfl, fun h12 => by omega⟩
  · rw [if_neg (by omega), if_pos rfl] at hmid
    simp only [Option.bind_eq_some_iff, Prod.exists] at hmid
    obtain ⟨lba2, v4, halloc2, hmid⟩ := hmid
    obtain ⟨hm2, hfresh2, hgrow3, -, hidx2, -⟩ := alloc_spec halloc2
    rw [if_neg hm2] at hmid
    simp only [Option.bind_eq_some_iff, Option.pure_def, Option.some.injEq, Prod.mk.injEq] at hmid
    obtain ⟨v5, hsync2, d, hwt, rfl, rfl, rfl, rfl⟩ := hmid
    obtain ⟨hgrow4, -⟩ := sync_grow hidx2 hsync2
    simp only [Bool.not_true, Bool.false_eq_true, if_false, Option.bind_eq_some_iff,
      Option.pure_def, Option.some.injEq, Prod.mk.injEq] at h
    obtain ⟨d', hw, rfl, rfl, rfl, rfl⟩ := h
    have hsec12 : (ino.setSec 12 lba.toNat).sec 12 = lba.toNat := by
      rw [Inode.sec_setSec (by decide) (by have := hfresh.word; omega), if_pos rfl]
    rw [hsec12] at hwt
    have hb : setWord blocks 12 lba2.toNat 12 = lba2.toNat := if_pos rfl
    rw [hb] at hw ⊢
    obtain ⟨htmax, htframe, htab⟩ := writeTable_spec hwt
    obtain ⟨hmax, hsec, hframe⟩ := ideWrite_firstSector hw
    have hg34 := hgrow3.trans hgrow4
    have hgall := hg.trans hg34
    have hft : Fresh v v5 lba.toNat := hf2.mono hg34
    have hfb : Fresh v v5 lba2.toNat := (hfresh2.mono hgrow4).back hg
    have hne : lba.toNat ≠ lba2.toNat := fun he => hfresh2.free (he ▸ hf2.used)
    refine ⟨rfl, ⟨hfb.data, hfb.word, hfb.free, hfb.used⟩, hmax, hgall.mono, hgall.inodes, hsec,
      fun a ha hab ht => ?_, fun h12 => by omega, fun _ => ⟨lba.toNat, rfl,
        ⟨hft.data, hft.word, hft.free, hft.used⟩, hne, htmax, fun j hj => ?_⟩⟩
    · have ht' : a / 512 ≠ lba.toNat := by
        have := ht rfl
        rwa [Inode.sec_setSize, hsec12] at this
      exact (hframe a hab).trans ((htframe a ht').trans (hgall.disk a ha))
    · have hword : setWord blocks 12 lba2.toNat (j + 12) < 2 ^ 32 := by
        unfold setWord
        split
        · have := hfresh2.word
          omega
        · rw [hrest _ (by omega)]
          decide
      have hj' := htab (j + 12) (by omega) (by omega) hword
      rw [Nat.add_sub_cancel] at hj'
      calc d'.rd32 (512 * lba.toNat + 4 * j)
          = d.rd32 (512 * lba.toNat + 4 * j) :=
            Mem.rd32_congr fun i hi => hframe _ (by omega)
        _ = setWord blocks 12 lba2.toNat (j + 12) := hj'
        _ = if j = 0 then lba2.toNat else 0 := by
            unfold setWord
            by_cases h0 : j = 0
            · rw [if_pos (by omega), if_pos h0]
            · rw [if_neg (by omega), if_neg h0, hrest _ (by omega)]

/-! ## The loop -/

/-- Direct blocks `0..k-1` are there and full. -/
def FullTo (disk : Mem) (ino : Inode) (k : Nat) : Prop :=
  ∀ j, j < k → ino.sec j ≠ 0 ∧ Full disk (ino.sec j)

/-- The two ways a call can end. -/
inductive Placed (pDe : DirEntry) (v : Vol p) (ino : Inode) (v' : Vol p) (ino' : Inode) : Prop
  | slot (k e : Nat) (hk : k < 12) (he : e < 21) (hfull : FullTo v.disk ino k)
      (hnz : ino.sec k ≠ 0) (hmax : ino.sec k ≤ maxLba)
      (hfree : (entryAt v.disk (ino.sec k) e).fType = ftUnknown)
      (hv : v' = { v with disk := v.disk.blit (512 * ino.sec k + 24 * e) pDe.bytes 24 })
      (hino : ino' = ino.setSize (ino.size + 24))
  | grown (k b e : Nat) (v1 : Vol p) (ino1 : Inode) (hk : k ≤ 12) (hfull : FullTo v.disk ino k)
      (hz : k < 12 → ino.sec k = 0) (hadd : Added pDe k v ino v1 ino1 b)
      (he : freeSlot (firstSector pDe) = some e)
      (hv : v' = { v1 with disk := v1.disk.blit (512 * b + 24 * e) pDe.bytes 24 })
      (hino : ino' = ino1.setSize (ino1.size + 24))

theorem directBlocks_lt {ino : Inode} {k : Nat} (h : k < 12) : directBlocks ino k = ino.sec k :=
  if_pos ⟨Nat.zero_le k, h⟩

theorem directBlocks_ge {ino : Inode} {k : Nat} (h : 12 ≤ k) : directBlocks ino k = 0 :=
  if_neg (by omega)

/-- The write of a slot, seen as a store of 24 bytes. -/
theorem blit_entry {d : Mem} {lba e : Nat} (he : e < 21) (src : Mem) :
    d.blit (512 * lba) ((Mem.zero.blit 0 (d.shift (512 * lba)) 512).blit (24 * e) src 24) 512 =
      d.blit (512 * lba + 24 * e) src 24 :=
  Mem.blit_shift_blit d Mem.zero src (by omega)

theorem freeSlot_congr {buf buf' : Mem} (h : ∀ i, i < 512 → buf' i = buf i) :
    freeSlot buf' = freeSlot buf := by
  have heq : ∀ e, e < 21 → DirEntry.ofMem buf' (24 * e) = DirEntry.ofMem buf (24 * e) :=
    fun e he => DirEntry.ofMem_congr fun i hi => h _ (by omega)
  cases hb : freeSlot buf with
  | none =>
    refine List.find?_eq_none.mpr fun e he => ?_
    rw [heq e (List.mem_range.mp he)]
    simpa using freeSlot_none hb (List.mem_range.mp he)
  | some e =>
    obtain ⟨he, hz, hlt⟩ := freeSlot_some hb
    refine List.find?_range_eq_some.mpr ⟨?_, List.mem_range.mpr he, fun e' h' => ?_⟩
    · simpa [heq e he] using hz
    · simpa [heq e' (by omega)] using hlt e' h'

/-- A sector with one entry has room for another. -/
theorem freeSlot_firstSector (pDe : DirEntry) : freeSlot (firstSector pDe) ≠ none := by
  intro h
  apply freeSlot_none h (show 1 < 21 by decide)
  have hz : DirEntry.ofMem (firstSector pDe) (24 * 1) = DirEntry.ofMem Mem.zero 0 :=
    DirEntry.ofMem_congr fun i _ => by rw [firstSector, Mem.blit_out (by omega)]; rfl
  rw [hz]
  decide

theorem syncLoop_spec {pDe : DirEntry} {v v' : Vol p} {ino ino' : Inode} {r : Bool} :
    ∀ {n k : Nat}, k + n = 140 → k ≤ 12 → FullTo v.disk ino k →
    syncLoop blockBitmapAlloc pDe n k v ino (directBlocks ino) = some (r, v', ino') →
    r = true ∧ Placed pDe v ino v' ino' := by
  intro n
  induction n with
  | zero => intro k hsum hk; omega
  | succ n ih =>
    intro k hsum hk hfull h
    unfold syncLoop at h
    by_cases hz : directBlocks ino k = 0
    · simp only [if_pos hz, Option.bind_eq_bind, Option.bind_eq_some_iff, Prod.exists] at h
      obtain ⟨ok, v1, ino1, blocks1, hcall, h⟩ := h
      obtain ⟨rfl, hadd⟩ := addBlock_spec hk (fun j hj => directBlocks_ge hj) hcall
      simp only [Bool.not_true, Bool.false_eq_true, if_false, Option.bind_eq_some_iff] at h
      obtain ⟨ioBuf, hread, h⟩ := h
      obtain ⟨-, rfl, hbuf⟩ := ideRead_sector hread
      have hfree := freeSlot_congr fun i hi => (hbuf i hi).trans (hadd.sector i hi)
      rw [hfree] at h
      split at h
      next e he =>
        simp only [Option.bind_eq_some_iff, Option.pure_def, Option.some.injEq, Prod.mk.injEq,
          ideWrite_eq_some, dirEntrySize] at h
        obtain ⟨d, ⟨-, -, rfl⟩, rfl, rfl, rfl⟩ := h
        refine ⟨rfl, .grown k _ e v1 ino1 hk hfull (fun hlt => ?_) hadd he ?_ rfl⟩
        · rwa [directBlocks_lt hlt] at hz
        · rw [← blit_entry (freeSlot_some he).1]
      next he => exact absurd he (freeSlot_firstSector pDe)
    · have hlt : k < 12 := by
        refine Nat.lt_of_le_of_ne hk fun he => hz ?_
        exact directBlocks_ge (by omega)
      simp only [if_neg hz, Option.bind_eq_bind, Option.bind_some, Bool.not_true,
        Bool.false_eq_true, if_false, Option.bind_eq_some_iff] at h
      rw [directBlocks_lt hlt] at hz h
      obtain ⟨ioBuf, hread, h⟩ := h
      obtain ⟨hmax, rfl, hbuf⟩ := ideRead_sector hread
      split at h
      next e he =>
        simp only [Option.bind_eq_some_iff, Option.pure_def, Option.some.injEq, Prod.mk.injEq,
          ideWrite_eq_some, dirEntrySize] at h
        obtain ⟨d, ⟨-, -, rfl⟩, rfl, rfl, rfl⟩ := h
        obtain ⟨he21, hfree, -⟩ := freeSlot_some he
        rw [ofMem_sector hbuf he21] at hfree
        refine ⟨rfl, .slot k e hlt he21 hfull hz hmax hfree ?_ rfl⟩
        rw [← blit_entry he21]
      next he =>
        refine ih (by omega) hlt (fun j hj => ?_) h
        rcases Nat.lt_or_eq_of_le (Nat.le_of_lt_succ hj) with hj | rfl
        · exact hfull j hj
        · refine ⟨hz, fun e he21 => ?_⟩
          rw [← ofMem_sector hbuf he21]
          exact freeSlot_none he he21

/-- **Where the entry goes.** -/
theorem syncDirEntry_spec {pDe : DirEntry} {v v' : Vol p} {ino ino' : Inode} {r : Bool}
    (h : syncDirEntry v ino pDe = some (r, v', ino')) : r = true ∧ Placed pDe v ino v' ino' := by
  simp only [syncDirEntry, syncDirEntryWith, Option.bind_eq_bind, Option.bind_eq_some_iff] at h
  obtain ⟨-, -, h⟩ := h
  exact syncLoop_spec (by decide) (by decide) (fun j hj => by omega) h

/-! ## The block list after an insertion -/

theorem Added.sec_table {pDe : DirEntry} {k b : Nat} {v v1 : Vol p} {ino ino1 : Inode}
    (h : Added pDe k v ino v1 ino1 b) (hk : k ≤ 12) :
    (k < 12 ∧ ino1.sec 12 = ino.sec 12) ∨
      (k = 12 ∧ Fresh v v1 (ino1.sec 12) ∧ ino1.sec 12 ≠ b ∧ ino1.sec 12 ≤ maxLba) := by
  rcases Nat.lt_or_eq_of_le hk with hlt | heq
  · refine Or.inl ⟨hlt, ?_⟩
    rw [h.direct hlt, Inode.sec_setSize,
      Inode.sec_setSec (by omega) (by have := h.fresh.word; omega), if_neg (by omega)]
  · obtain ⟨t, ht, hft, hne, hmax, -⟩ := h.indirect heq
    have hsec : ino1.sec 12 = t := by
      rw [ht, Inode.sec_setSize, Inode.sec_setSec (by decide) (by have := hft.word; omega),
        if_pos rfl]
    rw [hsec]
    exact Or.inr ⟨heq, hft, hne, hmax⟩

/-- The table is not the new block. -/
theorem Added.table_ne {pDe : DirEntry} {k b : Nat} {v v1 : Vol p} {ino ino1 : Inode}
    (h : Added pDe k v ino v1 ino1 b) (hk : k ≤ 12) (hv : Held v ino) (hnz : ino1.sec 12 ≠ 0) :
    ino1.sec 12 ≠ b := by
  rcases h.sec_table hk with ⟨-, he⟩ | ⟨-, -, hne, -⟩
  · intro hb
    rw [he] at hb hnz
    have hu := hv.used 140 (by rw [slot_table]; exact hnz)
    rw [slot_table, hb] at hu
    exact h.fresh.free hu
  · exact hne

/-- Sectors of old blocks are as they were. -/
theorem Added.sector_old {pDe : DirEntry} {k b c i : Nat} {v v1 : Vol p} {ino ino1 : Inode}
    (h : Added pDe k v ino v1 ino1 b) (hk : k ≤ 12) (hc : v.Used c) (hi : i < 512) :
    v1.disk (512 * c + i) = v.disk (512 * c + i) := by
  have hge := hc.1
  have hbm := inodeBitmapLba_le_dataStart p
  have hdiv : (512 * c + i) / 512 = c := by omega
  refine h.frame _ (Or.inr (by omega)) ?_ fun h12 => ?_
  · rw [hdiv]
    exact fun he => h.fresh.free (he ▸ hc)
  · rw [hdiv]
    rcases h.sec_table hk with ⟨hlt, -⟩ | ⟨-, hft, -, -⟩
    · omega
    · exact fun he => hft.free (he ▸ hc)

/-- **The blocks afterwards**: the new one in its place, and, when the table was
new as well, nothing behind it. -/
theorem Added.block {pDe : DirEntry} {k b : Nat} {v v1 : Vol p} {ino ino1 : Inode}
    (h : Added pDe k v ino v1 ino1 b) (hk : k ≤ 12) (hv : Held v ino) {j : Nat} (hj : j < 140) :
    fileBlock v1.disk ino1 j =
      if j = k then b else if k = 12 ∧ 12 < j then 0 else fileBlock v.disk ino j := by
  have hb32 : b < 2 ^ 32 := by have := h.fresh.word; omega
  rcases Nat.lt_or_eq_of_le hk with hlt | heq
  · rw [if_neg (show ¬(k = 12 ∧ 12 < j) by omega)]
    have hsec : ∀ l, ino1.sec l = if l = k then b else ino.sec l := fun l => by
      rw [h.direct hlt, Inode.sec_setSize, Inode.sec_setSec (by omega) hb32]
    by_cases h12 : j < 12
    · rw [fileBlock_direct _ _ h12, fileBlock_direct _ _ h12, hsec]
    · have ht : ino1.sec 12 = ino.sec 12 := by rw [hsec, if_neg (by omega)]
      rw [if_neg (by omega)]
      by_cases h0 : ino.sec 12 = 0
      · rw [fileBlock_no_table _ (by omega) (ht.trans h0), fileBlock_no_table _ (by omega) h0]
      · have hu := hv.used 140 (by rw [slot_table]; exact h0)
        rw [slot_table] at hu
        rw [fileBlock_indirect _ (by omega) hj (by rw [ht]; exact h0),
          fileBlock_indirect _ (by omega) hj h0, ht]
        apply Mem.rd32_congr
        intro i hi
        rw [Nat.add_assoc]
        exact h.sector_old hk hu (by omega)
  · obtain ⟨t, ht, hft, hne, -, htab⟩ := h.indirect heq
    have hsec : ∀ l, ino1.sec l = if l = 12 then t else ino.sec l := fun l => by
      rw [ht, Inode.sec_setSize, Inode.sec_setSec (by decide) (by have := hft.word; omega)]
    by_cases h12 : j < 12
    · rw [fileBlock_direct _ _ h12, fileBlock_direct _ _ h12, hsec, if_neg (by omega),
        if_neg (by omega), if_neg (by omega)]
    · rw [fileBlock_indirect _ (by omega) hj (by rw [hsec, if_pos rfl]; exact hft.ne_zero), hsec,
        if_pos rfl, htab _ (by omega)]
      by_cases hjk : j = k
      · rw [if_pos (by omega), if_pos hjk]
      · rw [if_neg (by omega), if_neg hjk, if_pos (by omega)]

/-- The addresses collected are the blocks of the inode. -/
theorem allBlocks_spec {v : Vol p} {ino : Inode} {blocks : Nat → Nat}
    (h : allBlocks v ino = some blocks) : blocks = fileBlock v.disk ino := by
  funext k
  unfold allBlocks at h
  by_cases h0 : ino.sec 12 = 0
  · rw [if_neg (not_not_intro h0)] at h
    obtain rfl := Option.some.inj h
    by_cases h12 : k < 12
    · rw [directBlocks_lt h12, fileBlock_direct _ _ h12]
    · rw [directBlocks_ge (by omega), fileBlock_no_table _ (by omega) h0]
  · rw [if_pos h0] at h
    rw [(readTable_spec h).2 k]
    by_cases h12 : k < 12
    · rw [if_neg (by omega), directBlocks_lt h12, fileBlock_direct _ _ h12]
    · by_cases h140 : k < 140
      · rw [if_pos (by omega), fileBlock_indirect _ (by omega) h140 h0]
      · rw [if_neg (by omega), directBlocks_ge (by omega), fileBlock_ge _ _ (by omega)]

/-! ## Entries of a directory -/

/-- An entry found on the sector `lba`, if it is live and the sector is there. -/
def liveEntry (lba : Nat) (de : DirEntry) : Option DirEntry :=
  if lba = 0 ∨ de.fType = ftUnknown then none else some de

/-- The live entry in slot `i`, counted through all blocks. -/
def liveAt (disk : Mem) (ino : Inode) (i : Nat) : Option DirEntry :=
  liveEntry (fileBlock disk ino (i / 21)) (entryAt disk (fileBlock disk ino (i / 21)) (i % 21))

/-- The live entries of a directory, in the order of their slots. -/
def liveEntries (disk : Mem) (ino : Inode) : List DirEntry :=
  (List.range (140 * 21)).filterMap (liveAt disk ino)

/-- A well-formed directory: it holds its blocks, free slots are zero, and the
size counts the live entries. -/
structure DirWf (v : Vol p) (ino : Inode) : Prop where
  held : Held v ino
  free : ∀ k e, k < 140 → e < 21 → fileBlock v.disk ino k ≠ 0 →
    (entryAt v.disk (fileBlock v.disk ino k) e).fType = ftUnknown →
    ∀ i, i < 24 → v.disk (512 * fileBlock v.disk ino k + 24 * e + i) = 0
  size : ino.size = 24 * (liveEntries v.disk ino).length

theorem liveEntry_eq_none {lba : Nat} {de : DirEntry} (h : lba = 0 ∨ de.fType = ftUnknown) :
    liveEntry lba de = none := if_pos h

theorem liveEntry_eq_some {lba : Nat} {de : DirEntry} (h0 : lba ≠ 0) (h : de.fType ≠ ftUnknown) :
    liveEntry lba de = some de := if_neg (by simp [h0, h])

theorem liveEntries_length_le (disk : Mem) (ino : Inode) :
    (liveEntries disk ino).length ≤ 140 * 21 := by
  have := List.length_filterMap_le (liveAt disk ino) (List.range (140 * 21))
  rwa [List.length_range] at this

theorem DirWf.size_le {v : Vol p} {ino : Inode} (h : DirWf v ino) : ino.size ≤ 24 * (140 * 21) := by
  have := liveEntries_length_le v.disk ino
  rw [h.size]
  omega

theorem filterMap_same {α β : Type} {f g : α → Option β} {l : List α} (h : ∀ y ∈ l, g y = f y) :
    l.filterMap g = l.filterMap f := by
  induction l with
  | nil => rfl
  | cons y l ih =>
    rw [List.filterMap_cons, List.filterMap_cons, h y List.mem_cons_self,
      ih fun z hz => h z (List.mem_cons_of_mem _ hz)]

/-- Filling one empty place of a list adds one element. -/
theorem filterMap_fill_perm {α β : Type} {f g : α → Option β} {x : α} {b : β} :
    ∀ {l : List α}, l.Nodup → x ∈ l → f x = none → g x = some b → (∀ y ∈ l, y ≠ x → g y = f y) →
    (l.filterMap g).Perm (b :: l.filterMap f) := by
  intro l
  induction l with
  | nil => intro _ hx; exact absurd hx List.not_mem_nil
  | cons y l ih =>
    intro hnd hx hf hg hrest
    obtain ⟨hy, hnd⟩ := List.nodup_cons.mp hnd
    by_cases hyx : y = x
    · subst hyx
      have hsame : l.filterMap g = l.filterMap f :=
        filterMap_same fun z hz => hrest z (List.mem_cons_of_mem _ hz) fun he => hy (he ▸ hz)
      rw [List.filterMap_cons_some hg, List.filterMap_cons_none hf, hsame]
    · have hxl : x ∈ l := (List.mem_cons.mp hx).resolve_left (Ne.symm hyx)
      have hperm := ih hnd hxl hf hg fun z hz => hrest z (List.mem_cons_of_mem _ hz)
      have hgy := hrest y List.mem_cons_self hyx
      cases hfy : f y with
      | none =>
        rw [List.filterMap_cons_none (hgy.trans hfy), List.filterMap_cons_none hfy]
        exact hperm
      | some c =>
        rw [List.filterMap_cons_some (hgy.trans hfy), List.filterMap_cons_some hfy]
        exact (hperm.cons c).trans (List.Perm.swap b c _)

/-- A store of one entry changes that entry and no other. -/
theorem entryAt_store {d : Mem} {pDe : DirEntry} {lba e lba' e' : Nat} (he : e < 21) (he' : e' < 21) :
    entryAt (d.blit (512 * lba + 24 * e) pDe.bytes 24) lba' e' =
      if lba' = lba ∧ e' = e then pDe else entryAt d lba' e' := by
  by_cases h : lba' = lba ∧ e' = e
  · rw [if_pos h, h.1, h.2]
    exact DirEntry.ofMem_bytes fun i hi => Mem.blit_add hi
  · rw [if_neg h]
    refine DirEntry.ofMem_congr fun i hi => Mem.blit_out ?_
    rcases Nat.lt_trichotomy lba' lba with hlt | heq | hgt
    · omega
    · omega
    · omega

/-- Storing an entry leaves the block addresses of the directory alone. -/
theorem fileBlock_store {v : Vol p} {ino ino' : Inode} {k e : Nat} (hv : Held v ino) (hk : k < 140)
    (hnz : fileBlock v.disk ino k ≠ 0) (he : e < 21) (hsec : ∀ j, ino'.sec j = ino.sec j)
    (src : Mem) (j : Nat) :
    fileBlock (v.disk.blit (512 * fileBlock v.disk ino k + 24 * e) src 24) ino' j =
      fileBlock v.disk ino j := by
  have hne := (hv.block hk hnz).2
  exact fileBlock_congr hsec (fun _ a ha => Mem.blit_out (by omega)) j

/-- **A free slot takes one entry.** -/
theorem liveEntries_store {v : Vol p} {ino ino' : Inode} {k e : Nat} {pDe : DirEntry}
    (hv : Held v ino) (hk : k < 140) (he : e < 21) (hnz : fileBlock v.disk ino k ≠ 0)
    (hfree : (entryAt v.disk (fileBlock v.disk ino k) e).fType = ftUnknown)
    (hnew : pDe.fType ≠ ftUnknown) (hsec : ∀ j, ino'.sec j = ino.sec j) :
    (liveEntries (v.disk.blit (512 * fileBlock v.disk ino k + 24 * e) pDe.bytes 24) ino').Perm
      (pDe :: liveEntries v.disk ino) := by
  have hdiv : (21 * k + e) / 21 = k := by omega
  have hmod : (21 * k + e) % 21 = e := by omega
  refine filterMap_fill_perm List.nodup_range (x := 21 * k + e) (List.mem_range.mpr (by omega))
    ?_ ?_ fun i hi hne => ?_
  · rw [liveAt, hdiv, hmod]
    exact liveEntry_eq_none (Or.inr hfree)
  · rw [liveAt, hdiv, hmod, fileBlock_store hv hk hnz he hsec, entryAt_store he he,
      if_pos ⟨rfl, rfl⟩]
    exact liveEntry_eq_some hnz hnew
  · rw [List.mem_range] at hi
    have hi21 : i % 21 < 21 := Nat.mod_lt _ (by decide)
    rw [liveAt, liveAt, fileBlock_store hv hk hnz he hsec]
    by_cases h0 : fileBlock v.disk ino (i / 21) = 0
    · rw [liveEntry_eq_none (Or.inl h0), liveEntry_eq_none (Or.inl h0)]
    · rw [entryAt_store he hi21, if_neg]
      intro hin
      obtain ⟨hb, he'⟩ := hin
      have := hv.block_inj (by omega) hk h0 hb
      omega

/-! ## A sample directory

The first `n` slots in order hold regular files with two-letter names. Block
`k` is on sector `612 + k`, the table of the indirect ones on sector 752. -/

/-- The entry in slot `i`. -/
def sampleEntry (i : Nat) : DirEntry where
  filename := fun k =>
    if k.val = 0 then UInt8.ofNat (65 + i / 60) else if k.val = 1 then UInt8.ofNat (65 + i % 60) else 0
  iNo := UInt32.ofNat (i + 1)
  fType := ftRegular

def sampleDisk (n : Nat) : Mem := fun a =>
  if 612 ≤ a / 512 ∧ a / 512 < 752 then
    if a % 512 / 24 < 21 ∧ 21 * (a / 512 - 612) + a % 512 / 24 < n then
      (sampleEntry (21 * (a / 512 - 612) + a % 512 / 24)).bytes (a % 512 % 24)
    else 0
  else if a / 512 = 752 then Mem.ofWords (fun j => if 21 * (12 + j) < n then 624 + j else 0) (a % 512)
  else 0

/-- The first 144 blocks are marked. -/
def sampleBitmap : Bitmap := ⟨512, fun a => if a < 18 then 255 else 0⟩

def sampleVol (n : Nat) : Vol blankPartition where
  disk := sampleDisk n
  blockBitmap := sampleBitmap
  inodeBitmap := ⟨512, Mem.zero⟩
  blockLen := by decide
  inodeLen := by decide

def sampleDir (n : Nat) : Inode where
  iNo := 0
  iSize := UInt32.ofNat (24 * n)
  iOpenCnts := 1
  writeDeny := 0
  iSectors := fun k =>
    if k.val < 12 then if 21 * k.val < n then UInt32.ofNat (612 + k.val) else 0
    else if 21 * 12 < n then 752 else 0
  tagPrev := 0
  tagNext := 0

theorem sampleDir_sec {n k : Nat} (hk : k < 12) :
    (sampleDir n).sec k = if 21 * k < n then 612 + k else 0 := by
  have hword : (UInt32.ofNat (612 + k)).toNat = 612 + k := by
    rw [UInt32.toNat_ofNat', Nat.mod_eq_of_lt (by omega)]
  simp only [Inode.sec, sampleDir, dif_pos (show k < 13 by omega), if_pos hk]
  split
  · exact hword
  · rfl

theorem sampleDir_table {n : Nat} : (sampleDir n).sec 12 = if 21 * 12 < n then 752 else 0 := by
  simp only [Inode.sec, sampleDir]
  rw [dif_pos (by decide), if_neg (by decide)]
  split
  · rfl
  · rfl

theorem sample_fileBlock {n k : Nat} (hk : k < 140) :
    fileBlock (sampleDisk n) (sampleDir n) k = if 21 * k < n then 612 + k else 0 := by
  by_cases h12 : k < 12
  · rw [fileBlock_direct _ _ h12, sampleDir_sec h12]
  · by_cases hn : 21 * 12 < n
    · have htab : (sampleDir n).sec 12 = 752 := by rw [sampleDir_table, if_pos hn]
      rw [fileBlock_indirect _ (by omega) hk (by rw [htab]; decide), htab]
      have hread : (sampleDisk n).rd32 (512 * 752 + 4 * (k - 12)) =
          (Mem.ofWords fun j => if 21 * (12 + j) < n then 624 + j else 0).rd32 (4 * (k - 12)) := by
        apply Mem.rd32_congr
        intro i hi
        rw [sampleDisk, if_neg (by omega), if_pos (by omega)]
        congr 1
        omega
      rw [hread, Mem.rd32_ofWords (by split <;> omega)]
      by_cases h : 21 * k < n
      · rw [if_pos (by omega), if_pos h]
        omega
      · rw [if_neg (by omega), if_neg h]
    · rw [fileBlock_no_table _ (by omega) (by rw [sampleDir_table, if_neg hn]), if_neg (by omega)]

theorem sample_entryAt {n k e : Nat} (hk : k < 140) (he : e < 21) :
    entryAt (sampleDisk n) (612 + k) e =
      if 21 * k + e < n then sampleEntry (21 * k + e) else DirEntry.ofMem Mem.zero 0 := by
  have hdiv : ∀ i, i < 24 → (512 * (612 + k) + 24 * e + i) / 512 = 612 + k := fun i hi => by omega
  have hmod : ∀ i, i < 24 → (512 * (612 + k) + 24 * e + i) % 512 = 24 * e + i := fun i hi => by omega
  have hslot : ∀ i, i < 24 → (24 * e + i) / 24 = e := fun i hi => by omega
  have hbyte : ∀ i, i < 24 → (24 * e + i) % 24 = i := fun i hi => by omega
  by_cases h : 21 * k + e < n
  · rw [if_pos h]
    apply DirEntry.ofMem_bytes
    intro i hi
    rw [sampleDisk, hdiv i hi, hmod i hi, hslot i hi, hbyte i hi, if_pos (by omega),
      if_pos (by omega), Nat.add_sub_cancel_left]
  · rw [if_neg h]
    apply DirEntry.ofMem_congr
    intro i hi
    rw [sampleDisk, hdiv i hi, hmod i hi, hslot i hi, if_pos (by omega), if_neg (by omega)]
    rfl

theorem sampleEntry_live (i : Nat) : (sampleEntry i).fType ≠ ftUnknown := by
  show ftRegular ≠ ftUnknown
  decide

theorem zeroEntry_free : (DirEntry.ofMem Mem.zero 0).fType = ftUnknown := by decide

theorem sample_liveAt {n i : Nat} (hi : i < 140 * 21) :
    liveAt (sampleDisk n) (sampleDir n) i = if i < n then some (sampleEntry i) else none := by
  rw [liveAt, sample_fileBlock (by omega)]
  by_cases hb : 21 * (i / 21) < n
  · rw [if_pos hb, sample_entryAt (by omega) (by omega), show 21 * (i / 21) + i % 21 = i by omega]
    by_cases h : i < n
    · rw [if_pos h, if_pos h, liveEntry_eq_some (by omega) (sampleEntry_live i)]
    · rw [if_neg h, if_neg h, liveEntry_eq_none (Or.inr zeroEntry_free)]
  · rw [if_neg hb, if_neg (by omega), liveEntry_eq_none (Or.inl rfl)]

theorem length_filterMap_range {α : Type} (f : Nat → α) (n : Nat) : ∀ m,
    ((List.range m).filterMap fun i => if i < n then some (f i) else none).length = min m n := by
  intro m
  induction m with
  | zero => simp
  | succ m ih =>
    rw [List.range_succ, List.filterMap_append, List.length_append, ih]
    by_cases h : m < n
    · simp [h]
      omega
    · simp [h]
      omega

theorem sample_wf {n : Nat} (hn : n ≤ 140 * 21) : DirWf (sampleVol n) (sampleDir n) := by
  have hslot : ∀ k, slot (sampleDisk n) (sampleDir n) k ≠ 0 →
      slot (sampleDisk n) (sampleDir n) k = 612 + k ∧ k ≤ 140 := by
    intro k hne
    rcases Nat.lt_trichotomy k 140 with hk | rfl | hk
    · rw [slot_block _ _ hk, sample_fileBlock hk] at hne ⊢
      split at hne
      next h => rw [if_pos h]; exact ⟨rfl, by omega⟩
      next => exact absurd rfl hne
    · rw [slot_table, sampleDir_table] at hne ⊢
      split at hne
      next h => rw [if_pos h]; exact ⟨rfl, Nat.le_refl _⟩
      next => exact absurd rfl hne
    · rw [slot, if_neg (by omega), fileBlock_ge _ _ (by omega)] at hne
      exact absurd rfl hne
  refine ⟨⟨fun k l he hne => ?_, fun k hne => ?_⟩, fun k e hk he hne hfree i hi => ?_, ?_⟩
  · have hk := (hslot k hne).1
    have hl := (hslot l (he ▸ hne)).1
    have he' : slot (sampleDisk n) (sampleDir n) k = slot (sampleDisk n) (sampleDir n) l := he
    omega
  · obtain ⟨hk, hle⟩ := hslot k hne
    have hbit : ∀ j, j < 141 → sampleBitmap.bit j = true := by decide
    have hstart : blankPartition.dataStartLba = 612 := by decide
    rw [show (sampleVol n).disk = sampleDisk n from rfl, hk]
    have hlen : blankPartition.blockBitmapSects = 1 := by decide
    refine ⟨by rw [hstart]; omega, by rw [hstart, hlen]; omega, ?_⟩
    rw [hstart, Nat.add_sub_cancel_left]
    exact hbit k (by omega)
  · have hdisk : (sampleVol n).disk = sampleDisk n := rfl
    rw [hdisk, sample_fileBlock hk] at hne hfree ⊢
    split at hne
    next hb =>
      rw [if_pos hb, sample_entryAt hk he] at hfree
      split at hfree
      next => exact absurd hfree (sampleEntry_live _)
      next h =>
        rw [if_pos hb, sampleDisk, if_pos (by omega), if_neg (by omega)]
    next => exact absurd rfl hne
  · have hlen : (liveEntries (sampleDisk n) (sampleDir n)).length = n := by
      unfold liveEntries
      rw [filterMap_same fun i hi => sample_liveAt (List.mem_range.mp hi), length_filterMap_range]
      omega
    show (sampleDir n).size = 24 * (liveEntries (sampleDisk n) (sampleDir n)).length
    rw [hlen]
    show (UInt32.ofNat (24 * n)).toNat = 24 * n
    rw [UInt32.toNat_ofNat', Nat.mod_eq_of_lt (by omega)]

/-! ## One entry, or two -/

/-- Going through the direct blocks from the first on, a free slot comes before
a block that is missing. -/
def FreeSlotFirst (disk : Mem) (ino : Inode) : Prop :=
  ∃ k, k < 12 ∧ (∀ j, j ≤ k → ino.sec j ≠ 0) ∧ ¬Full disk (ino.sec k)

/-- With a free slot ahead the call does not add a block. -/
theorem not_grown {disk : Mem} {ino : Inode} {k : Nat} (hk : k ≤ 12) (hfull : FullTo disk ino k)
    (hz : k < 12 → ino.sec k = 0) : ¬FreeSlotFirst disk ino := by
  intro hin
  obtain ⟨j, hj, hnz, hfree⟩ := hin
  rcases Nat.lt_or_ge j k with hlt | hge
  · exact hfree (hfull j hlt).2
  · exact hnz k hge (hz (by omega))

theorem Added.size {pDe : DirEntry} {k b : Nat} {v v' : Vol p} {ino ino' : Inode}
    (h : Added pDe k v ino v' ino' b) (hk : k ≤ 12) (hsize : ino.size < 2 ^ 31) :
    ino'.size = ino.size + 24 := by
  rcases Nat.lt_or_eq_of_le hk with hlt | heq
  · rw [h.direct hlt]
    exact Inode.size_setSize (by omega)
  · obtain ⟨t, ht, -⟩ := h.indirect heq
    rw [ht]
    exact Inode.size_setSize (by omega)

/-- **When an insertion adds exactly one entry.** On a well-formed directory,
and for any live entry, a `sync_dir_entry` that returns true does so exactly
when it meets a free slot before a missing direct block. -/
theorem sync_dir_entry_adds_one_iff {v v' : Vol p} {ino ino' : Inode} {pDe : DirEntry}
    (hwf : DirWf v ino) (hnew : pDe.fType ≠ ftUnknown)
    (h : syncDirEntry v ino pDe = some (true, v', ino')) :
    ((liveEntries v'.disk ino').Perm (pDe :: liveEntries v.disk ino) ∧
      ino'.size = ino.size + dirEntrySize) ↔ FreeSlotFirst v.disk ino := by
  have hsize := hwf.size_le
  obtain ⟨-, hplaced⟩ := syncDirEntry_spec h
  cases hplaced with
  | slot k e hk he hfull hnz hmax hfree hv hino =>
    subst hv hino
    rw [← fileBlock_direct v.disk ino hk] at hnz hfree
    refine ⟨fun _ => ⟨k, hk, fun j hj => ?_, fun hf => ?_⟩, fun _ => ⟨?_, ?_⟩⟩
    · rcases Nat.lt_or_eq_of_le hj with hlt | rfl
      · exact (hfull j hlt).1
      · rwa [fileBlock_direct _ _ hk] at hnz
    · rw [fileBlock_direct _ _ hk] at hfree
      exact hf e he hfree
    · rw [← fileBlock_direct v.disk ino hk]
      exact liveEntries_store hwf.held (by omega) he hnz hfree hnew fun j => Inode.sec_setSize _ _ _
    · exact Inode.size_setSize (by omega)
  | grown k b e v1 ino1 hk hfull hz hadd he hv hino =>
    have hcond := not_grown hk hfull hz
    have h1 := hadd.size hk (by omega)
    subst hino
    refine ⟨fun hgood => ?_, fun hfree => absurd hfree hcond⟩
    have h2 : (ino1.setSize (ino1.size + 24)).size = ino1.size + 24 :=
      Inode.size_setSize (by omega)
    have h3 := hgood.2
    rw [h2, h1, dirEntrySize] at h3
    omega

theorem sync_dir_entry_adds_one_iff_two_entries :
    ∃ v' ino', DirWf (sampleVol 2) (sampleDir 2) ∧ (sampleEntry 2).fType ≠ ftUnknown ∧
      syncDirEntry (sampleVol 2) (sampleDir 2) (sampleEntry 2) = some (true, v', ino') ∧
      (liveEntries v'.disk ino').Perm (sampleEntry 2 :: liveEntries (sampleVol 2).disk (sampleDir 2)) ∧
      ino'.size = (sampleDir 2).size + dirEntrySize := by
  have hrun : (syncDirEntry (sampleVol 2) (sampleDir 2) (sampleEntry 2)).map (·.1) = some true := by
    decide +kernel
  obtain ⟨⟨r, v', ino'⟩, h, rfl⟩ := Option.map_eq_some_iff.mp hrun
  have hwf := sample_wf (n := 2) (by decide)
  have hfree : FreeSlotFirst (sampleVol 2).disk (sampleDir 2) := by
    refine ⟨0, by decide, fun j hj => ?_, fun hfull => hfull 2 (by decide) (by decide)⟩
    obtain rfl : j = 0 := by omega
    decide
  exact ⟨v', ino', hwf, sampleEntry_live 2, h,
    (sync_dir_entry_adds_one_iff hwf (sampleEntry_live 2) h).mpr hfree⟩

/-- The entry after a full first block: two copies, and 48 bytes more. -/
theorem sync_dir_entry_adds_two :
    ∃ v' ino', DirWf (sampleVol 21) (sampleDir 21) ∧ (sampleEntry 21).fType ≠ ftUnknown ∧
      syncDirEntry (sampleVol 21) (sampleDir 21) (sampleEntry 21) = some (true, v', ino') ∧
      ¬((liveEntries v'.disk ino').Perm
          (sampleEntry 21 :: liveEntries (sampleVol 21).disk (sampleDir 21)) ∧
        ino'.size = (sampleDir 21).size + dirEntrySize) := by
  have hrun : (syncDirEntry (sampleVol 21) (sampleDir 21) (sampleEntry 21)).map
      (fun r => (r.1, r.2.2.size)) = some (true, 552) := by
    decide +kernel
  obtain ⟨⟨r, v', ino'⟩, h, hres⟩ := Option.map_eq_some_iff.mp hrun
  obtain ⟨rfl, hsize⟩ := Prod.mk.inj hres
  refine ⟨v', ino', sample_wf (by decide), sampleEntry_live 21, h, fun hgood => ?_⟩
  have hcount := hgood.2
  dsimp only at hsize
  rw [hsize] at hcount
  exact absurd hcount (by decide)

end OsCore.Fs
