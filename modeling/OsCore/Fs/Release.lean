import OsCore.Fs.DirInsert

/-!
# Giving blocks back

`inode_release` frees every block of an inode and the inode itself;
`delete_dir_entry` frees the block of a directory when the last entry in it
goes. Together with `file_write` and `sync_dir_entry` these are all the
operations that touch block addresses. This module shows that the two here, and
`sync_dir_entry`, meet the contract `Rewrites` of a block operation, and says
what each does to the inode table, where `inode_open` reads from.
-/

namespace OsCore.Fs

variable {p : Partition}

/-! ## Releasing an inode (`fs/inode.c`) -/

/-- `while (block_idx < block_cnt)`: `n` blocks from `blockIdx` on. -/
def freeLoop (blocks : Nat → Nat) : Nat → Nat → Vol p → Option (Vol p)
  | 0, _, v => some v
  | n + 1, blockIdx, v =>
    if blocks blockIdx ≠ 0 then do
      let blockBitmapIdx := blockBit p (blocks blockIdx)
      ensure (0 < blockBitmapIdx)
      let v ← bitmapSync (v.setBlock blockBitmapIdx false) blockBitmapIdx .blockBitmap
      freeLoop blocks n (blockIdx + 1) v
    else freeLoop blocks n (blockIdx + 1) v

/-- The blocks of `inode`: all of them are freed, the table before the others. -/
def releaseBlocks (v : Vol p) (inode : Inode) : Option (Vol p) :=
  if inode.sec 12 ≠ 0 then do
    let blocks ← readTable v.disk (inode.sec 12) (directBlocks inode)
    let blockBitmapIdx := blockBit p (inode.sec 12)
    ensure (0 < blockBitmapIdx)
    let v ← bitmapSync (v.setBlock blockBitmapIdx false) blockBitmapIdx .blockBitmap
    freeLoop blocks 140 0 v
  else freeLoop (directBlocks inode) 12 0 v

/-- `inode_release(part, inode_no)`. -/
def inodeRelease (s : Mounted p) (inodeNo : Nat) : Option (Mounted p) := do
  let (a, s) ← inodeOpen s inodeNo
  let inodeToDel ← s.inodeAt a
  ensure (inodeToDel.no = inodeNo)
  let vol ← releaseBlocks s.vol inodeToDel
  let vol ← bitmapSync (vol.setInode inodeNo false) inodeNo .inodeBitmap
  let vol ← inodeDelete vol inodeNo
  inodeClose { s with vol } a

/-! ## Freed blocks -/

/-- Bits may go clear for blocks in `gone` only; on disk only the block
bitmap's own sectors change. -/
structure Shrinks (gone : Nat → Prop) (v v' : Vol p) : Prop where
  used : ∀ b, v.Used b → ¬gone b → v'.Used b
  disk : ∀ a, a < 512 * p.blockBitmapLba ∨ 512 * p.inodeBitmapLba ≤ a → v'.disk a = v.disk a
  inodes : v'.inodeBitmap = v.inodeBitmap

theorem Shrinks.refl (gone : Nat → Prop) (v : Vol p) : Shrinks gone v v :=
  ⟨fun _ h _ => h, fun _ _ => rfl, rfl⟩

theorem Shrinks.trans {gone : Nat → Prop} {u v w : Vol p} (h1 : Shrinks gone u v)
    (h2 : Shrinks gone v w) : Shrinks gone u w :=
  ⟨fun b hb hg => h2.used b (h1.used b hb hg) hg, fun a ha => (h2.disk a ha).trans (h1.disk a ha),
    h2.inodes.trans h1.inodes⟩

theorem Shrinks.mono {gone gone' : Nat → Prop} {v v' : Vol p} (h : Shrinks gone v v')
    (hg : ∀ b, gone b → gone' b) : Shrinks gone' v v' :=
  ⟨fun b hb hn => h.used b hb fun hb' => hn (hg b hb'), h.disk, h.inodes⟩

/-- The bit of a block in range. -/
theorem blockBit_eq {b : Nat} (h1 : p.dataStartLba ≤ b)
    (h2 : b - p.dataStartLba < 4096 * p.blockBitmapSects) : blockBit p b = b - p.dataStartLba := by
  have hlt := p.block_lt h2
  unfold blockBit
  omega

/-- One `bitmap_set(.., 0)` and its `bitmap_sync`. -/
theorem free_one {v v' : Vol p} {b : Nat} (h1 : p.dataStartLba ≤ b)
    (h2 : b - p.dataStartLba < 4096 * p.blockBitmapSects)
    (h : bitmapSync (v.setBlock (blockBit p b) false) (blockBit p b) .blockBitmap = some v') :
    Shrinks (· = b) v v' := by
  rw [blockBit_eq h1 h2] at h
  obtain ⟨hbm, hin, hd⟩ := bitmapSync_block h2 h
  refine ⟨fun c hc hne => ?_, hd, hin⟩
  have hset := (Vol.setBlock_used (v := v) (b := c) (x := false) h2).mpr (by
    rw [if_neg (by have := hc.1; omega)]
    exact hc)
  unfold Vol.Used at hset ⊢
  rw [hbm]
  exact hset

theorem freeLoop_spec {gone : Nat → Prop} {blocks : Nat → Nat} : ∀ {n k : Nat} {v v' : Vol p},
    (∀ j, k ≤ j → j < k + n → blocks j ≠ 0 → gone (blocks j) ∧ p.dataStartLba ≤ blocks j ∧
      blocks j - p.dataStartLba < 4096 * p.blockBitmapSects) →
    freeLoop blocks n k v = some v' → Shrinks gone v v' := by
  intro n
  induction n with
  | zero =>
    intro k v v' _ h
    obtain rfl := Option.some.inj h
    exact Shrinks.refl _ _
  | succ n ih =>
    intro k v v' hb h
    unfold freeLoop at h
    have hrest : ∀ j, k + 1 ≤ j → j < k + 1 + n → blocks j ≠ 0 → gone (blocks j) ∧
        p.dataStartLba ≤ blocks j ∧ blocks j - p.dataStartLba < 4096 * p.blockBitmapSects :=
      fun j h1 h2 => hb j (by omega) (by omega)
    by_cases h0 : blocks k = 0
    · rw [if_neg (by simp [h0])] at h
      exact ih hrest h
    · rw [if_pos h0] at h
      simp only [Option.bind_eq_bind, Option.bind_eq_some_iff] at h
      obtain ⟨-, -, v1, hsync, h⟩ := h
      obtain ⟨hg, h1, h2⟩ := hb k (Nat.le_refl k) (by omega) h0
      exact ((free_one h1 h2 hsync).mono fun b (he : b = blocks k) => he ▸ hg).trans (ih hrest h)

/-- **All blocks of the inode are freed, no others.** -/
theorem releaseBlocks_spec {v v' : Vol p} {ino : Inode} (hv : Held v ino)
    (h : releaseBlocks v ino = some v') : Shrinks (fun b => ∃ k, slot v.disk ino k = b) v v' := by
  have hslot : ∀ k, slot v.disk ino k ≠ 0 →
      (∃ l, slot v.disk ino l = slot v.disk ino k) ∧ p.dataStartLba ≤ slot v.disk ino k ∧
        slot v.disk ino k - p.dataStartLba < 4096 * p.blockBitmapSects :=
    fun k hk => ⟨⟨k, rfl⟩, (hv.used k hk).1, (hv.used k hk).2.1⟩
  have hdirect : ∀ j, j < 12 → directBlocks ino j = slot v.disk ino j := fun j hj => by
    rw [directBlocks_lt hj, slot_block _ _ (by omega), fileBlock_direct _ _ hj]
  unfold releaseBlocks at h
  by_cases h0 : ino.sec 12 = 0
  · rw [if_neg (by simp [h0])] at h
    refine freeLoop_spec (fun j _ hj hne => ?_) h
    rw [hdirect j (by omega)] at hne ⊢
    exact hslot j hne
  · rw [if_pos h0] at h
    simp only [Option.bind_eq_bind, Option.bind_eq_some_iff] at h
    obtain ⟨blocks, hread, -, -, v1, hsync, h⟩ := h
    obtain ⟨ht, h1, h2⟩ := hslot 140 (by rw [slot_table]; exact h0)
    rw [slot_table] at ht h1 h2
    refine ((free_one h1 h2 hsync).mono fun b (he : b = ino.sec 12) => he ▸ ht).trans
      (freeLoop_spec (fun j _ hj hne => ?_) h)
    have hb : blocks j = slot v.disk ino j := by
      rw [(readTable_spec hread).2 j]
      by_cases h12 : j < 12
      · rw [if_neg (by omega), hdirect j h12]
      · rw [if_pos (by omega), slot_block _ _ (by omega), fileBlock_indirect _ (by omega) (by omega) h0]
    rw [hb] at hne ⊢
    exact hslot j hne

/-! ## The inode table -/

/-- Every slot of the table reads as before, or as an inode numbered `no`. -/
def TableKept (v v' : Vol p) (no : Nat) : Prop :=
  ∀ n, n < 4096 → (∀ i, i < 76 → v'.disk (p.slotAddr n + i) = v.disk (p.slotAddr n + i)) ∨
    (Inode.ofMem v'.disk (p.slotAddr n)).no = no

/-- No byte of the table changes. -/
def TableSame (v v' : Vol p) : Prop :=
  ∀ a, 512 * p.inodeTableLba ≤ a → a < 512 * p.dataStartLba → v'.disk a = v.disk a

theorem TableSame.slot {v v' : Vol p} (h : TableSame v v') {n i : Nat} (hn : n < 4096)
    (hi : i < 76) : v'.disk (p.slotAddr n + i) = v.disk (p.slotAddr n + i) := by
  have hend := p.slotAddr_le hn
  refine h _ ?_ (by omega)
  unfold Partition.slotAddr
  omega

theorem TableSame.kept {v v' : Vol p} (h : TableSame v v') (no : Nat) : TableKept v v' no :=
  fun _ hn => Or.inl fun _ hi => h.slot hn hi

/-- The saved inode is found under its number, in slot `no % 256`. -/
theorem ofMem_saved {d : Mem} {n : Nat} {ino : Inode} (h : SlotHolds p d n ino.pureInode) :
    (Inode.ofMem d (p.slotAddr n)).no = ino.no := by
  rw [Inode.ofMem_bytes h]
  rfl

theorem TableSame.sync {v v1 v' : Vol p} {ino : Inode} (h : TableSame v v1)
    (hs : inodeSync v1 ino = some v') : TableKept v v' ino.no := by
  rw [inodeSync_eq, Option.some.injEq] at hs
  subst hs
  intro n hn
  by_cases he : ino.no % 256 = n
  · refine Or.inr (ofMem_saved fun i hi => ?_)
    rw [← he]
    exact Mem.blit_add hi
  · exact Or.inl fun i hi => (blit_slot_ne he hi).trans (h.slot hn hi)

theorem Shrinks.tableSame {gone : Nat → Prop} {v v' : Vol p} (h : Shrinks gone v v') :
    TableSame v v' := by
  intro a h1 _
  refine h.disk a (Or.inr ?_)
  unfold Partition.inodeTableLba at h1
  omega

theorem Rewrites.refl {v : Vol p} {ino : Inode} (hv : Held v ino) : Rewrites v ino v (some ino) :=
  (Extends.refl v ino).rewrites hv fun _ _ _ => rfl

/-- Writing to the inode's own blocks only, with its slots left alone. -/
theorem Rewrites.congr {v w w' : Vol p} {i j j' : Inode} (h : Rewrites v i w (some j))
    (hu : ∀ b, w'.Used b ↔ w.Used b) (hslot : ∀ k, slot w'.disk j' k = slot w.disk j k)
    (hd : ∀ a, 512 * p.dataStartLba ≤ a → (∀ k, slot w.disk j k ≠ a / 512) →
      w'.disk a = w.disk a) : Rewrites v i w' (some j') := by
  have hf : ∀ b, Fresh v w' b ↔ Fresh v w b := fun b =>
    ⟨fun h => ⟨h.data, h.word, h.free, (hu b).mp h.used⟩,
      fun h => ⟨h.data, h.word, h.free, (hu b).mpr h.used⟩⟩
  refine ⟨fun k => ?_, fun k l he hk => ?_, fun k hk => ?_, fun b hb hi => ?_, fun a ha hi hk => ?_⟩
  · rw [slots_some, hslot, hf]
    exact h.old k
  · rw [slots_some, hslot] at he hk
    rw [slots_some, hslot] at he
    exact h.inj k l he ((hf _).mp hk)
  · rw [slots_some, hslot] at hk ⊢
    exact (hu _).mpr (h.used k hk)
  · exact (hu b).mpr (h.others b hb hi)
  · have hk' : ∀ k, slot w.disk j k ≠ a / 512 := fun k => by
      have := hk k
      rwa [slots_some, hslot] at this
    rw [hd a ha hk']
    exact h.frame a ha hi hk'

/-- Saving the inode leaves its blocks alone. -/
theorem Rewrites.sync {v w w' : Vol p} {i j : Inode} {n : Nat} (h : Rewrites v i w (some j))
    (hs : inodeSync w (j.setSize n) = some w') : Rewrites v i w' (some (j.setSize n)) := by
  rw [inodeSync_eq, Option.some.injEq] at hs
  have hend := p.slotAddr_le (show (j.setSize n).no % 256 < 4096 by omega)
  have hd : ∀ a, 512 * p.dataStartLba ≤ a → w'.disk a = w.disk a := fun a ha => by
    rw [← hs]
    exact Mem.blit_out (by omega)
  refine h.congr (fun b => by rw [← hs]; exact Iff.rfl) ?_ fun a ha _ => hd a ha
  refine slot_congr (fun k => Inode.sec_setSize j n k) fun hne a ha => hd a ?_
  have := (h.used 140 (by rw [slots_some, slot_table]; exact hne)).1
  rw [slots_some, slot_table] at this
  omega

/-- Blocks are freed and the inode gives up some of its slots. -/
theorem Shrinks.rewrites {gone : Nat → Prop} {v v' : Vol p} {ino : Inode} {i' : Option Inode}
    (h : Shrinks gone v v') (hv : Held v ino) (hgone : ∀ b, gone b → ∃ k, slot v.disk ino k = b)
    (hslot : ∀ k, slots v'.disk i' k = 0 ∨
      slots v'.disk i' k = slot v.disk ino k ∧ ¬gone (slot v.disk ino k)) :
    Rewrites v ino v' i' := by
  have hbm := inodeBitmapLba_le_dataStart p
  refine ⟨fun k => ?_, fun k l _ hf => ?_, fun k hk => ?_, fun b hb hi => ?_, fun a ha _ _ => ?_⟩
  · rcases hslot k with h0 | ⟨h1, -⟩
    · exact Or.inl h0
    · exact Or.inr (Or.inl h1)
  · rcases hslot k with h0 | ⟨h1, -⟩
    · exact absurd h0 hf.ne_zero
    · rw [h1] at hf
      exact absurd (hv.used k hf.ne_zero) hf.free
  · rcases hslot k with h0 | ⟨h1, hg⟩
    · exact absurd h0 hk
    · rw [h1] at hk ⊢
      exact h.used _ (hv.used k hk) hg
  · apply h.used b hb
    intro hg
    obtain ⟨k, hk⟩ := hgone b hg
    exact hi k hk
  · exact h.disk a (Or.inr (by omega))

/-- Rewriting one entry in place is a block operation. -/
theorem store_rewrites {v : Vol p} {ino ino' : Inode} {k e : Nat} (hv : Held v ino) (hk : k < 140)
    (he : e < 21) (hnz : fileBlock v.disk ino k ≠ 0) (src : Mem)
    (hsec : ∀ j, ino'.sec j = ino.sec j) :
    Rewrites v ino
      { v with disk := v.disk.blit (512 * fileBlock v.disk ino k + 24 * e) src 24 } (some ino') ∧
    TableSame v { v with disk := v.disk.blit (512 * fileBlock v.disk ino k + 24 * e) src 24 } := by
  obtain ⟨hdata, hne⟩ := hv.block hk hnz
  have hframe : ∀ a, a / 512 ≠ fileBlock v.disk ino k →
      v.disk.blit (512 * fileBlock v.disk ino k + 24 * e) src 24 a = v.disk a :=
    fun a ha => Mem.blit_out (by omega)
  have hslot : ∀ l, slot (v.disk.blit (512 * fileBlock v.disk ino k + 24 * e) src 24) ino' l =
      slot v.disk ino l :=
    slot_congr hsec fun _ a ha => hframe a (by rw [ha]; exact hne.symm)
  have hext : Extends v ino
      { v with disk := v.disk.blit (512 * fileBlock v.disk ino k + 24 * e) src 24 } ino' :=
    (Extends.refl v ino).congr (fun _ => Iff.rfl) hslot
  refine ⟨hext.rewrites hv fun a _ hnone => hframe a ?_, fun a _ h2 => hframe a (by omega)⟩
  have := hnone k
  rw [hslot, slot_block _ _ hk] at this
  exact this.symm

/-- The entry a pass over a sector finds is one of the sector's. -/
theorem scanEntries_found {buf : Mem} {inodeNo : Nat} : ∀ {n k : Nat}
    {acc acc' : Bool × Nat × Option Nat}, (∀ e, acc.2.2 = some e → e < k + n) →
    scanEntries buf inodeNo n k acc = some acc' → ∀ {e : Nat}, acc'.2.2 = some e → e < k + n := by
  intro n
  induction n with
  | zero =>
    intro k acc acc' hacc h
    obtain rfl := Option.some.inj h
    exact fun he => hacc _ he
  | succ n ih =>
    intro k acc acc' hacc h e he
    obtain ⟨isFirst, cnt, found⟩ := acc
    have hnext : ∀ {a : Bool × Nat × Option Nat}, (∀ e, a.2.2 = some e → e < k + 1 + n) →
        scanEntries buf inodeNo n (k + 1) a = some acc' → e < k + (n + 1) :=
      fun ha hs => by have := ih ha hs he; omega
    have hkeep : ∀ f c, ∀ e', ((f, c, found) : Bool × Nat × Option Nat).2.2 = some e' →
        e' < k + 1 + n := fun _ _ e' h' => by have := hacc e' h'; omega
    unfold scanEntries at h
    dsimp only at h
    split at h
    · split at h
      · exact hnext (hkeep _ _) h
      · split at h
        · exact hnext (hkeep _ _) h
        · split at h
          · simp only [Option.bind_eq_bind, Option.bind_eq_some_iff] at h
            obtain ⟨-, -, h⟩ := h
            refine hnext (fun e' h' => ?_) h
            obtain rfl := Option.some.inj h'
            omega
          · exact hnext (hkeep _ _) h
    · exact hnext (hkeep _ _) h

/-- What the directory operations leave of an inode and of the table. -/
structure DirStep (v : Vol p) (ino : Inode) (v' : Vol p) (ino' : Inode) : Prop where
  blocks : Rewrites v ino v' (some ino')
  no : ino'.no = ino.no
  table : TableKept v v' ino.no

/-- The block of a deleted entry goes, or the entry is wiped in place; either
way the inode is saved with its new size. -/
theorem delete_one {fuel : Nat} {v v1 : Vol p} {ino ino1 : Inode} {blocks : Nat → Nat}
    {ioBuf : Mem} {k e cnt : Nat} {isFirst : Bool} (hv : Held v ino) (hk : k < 140) (he : e < 21)
    (hb : blocks k = fileBlock v.disk ino k) (hnz : blocks k ≠ 0)
    (hbuf : ioBuf = Mem.zero.blit 0 (v.disk.shift (512 * blocks k)) 512)
    (h : (if cnt = 1 ∧ isFirst = false then dropBlock fuel v ino blocks k
      else do
        let disk ← ideWrite v.disk (blocks k) (ioBuf.fill (24 * e) 0 dirEntrySize) 1
        return ({ v with disk }, ino)) = some (v1, ino1)) :
    Rewrites v ino v1 (some ino1) ∧ ino1.no = ino.no ∧ TableSame v v1 := by
  have hslot : slot v.disk ino k = blocks k := by rw [slot_block _ _ hk, hb]
  have hused := hv.used k (by rw [hslot]; exact hnz)
  rw [hslot] at hused
  split at h
  next =>
    unfold dropBlock at h
    simp only [Option.bind_eq_bind, Option.bind_eq_some_iff] at h
    obtain ⟨v2, hsync, h⟩ := h
    have hs := free_one hused.1 hused.2.1 hsync
    by_cases h12 : k < 12
    · rw [if_pos h12, Option.pure_def, Option.some.injEq, Prod.mk.injEq] at h
      obtain ⟨rfl, rfl⟩ := h
      refine ⟨hs.rewrites hv (fun b hbg => ⟨k, hslot.trans hbg.symm⟩) fun l => ?_, rfl, hs.tableSame⟩
      -- slot `k` is empty now, the others are not block `k`
      have hsec : ∀ j, (ino.setSec k 0).sec j = if j = k then 0 else ino.sec j :=
        Inode.sec_setSec (by omega) (by decide)
      by_cases hl : l = k
      · subst hl
        exact Or.inl (by rw [slots_some, slot_block _ _ hk, fileBlock_direct _ _ h12, hsec, if_pos rfl])
      · have hsame : slot v2.disk (ino.setSec k 0) l = slot v.disk ino l := by
          have htab : (ino.setSec k 0).sec 12 = ino.sec 12 := by rw [hsec, if_neg (by omega)]
          have hbm := inodeBitmapLba_le_dataStart p
          unfold slot fileBlock
          rw [htab, hsec, if_neg hl]
          split
          · rfl
          · split
            · rfl
            · split
              next hin =>
                have := hv.table hin.2
                exact Mem.rd32_congr fun i _ => hs.disk _ (Or.inr (by omega))
              next => rfl
        rw [slots_some, hsame]
        by_cases h0 : slot v.disk ino l = 0
        · exact Or.inl h0
        · refine Or.inr ⟨rfl, fun hg => hl ?_⟩
          exact hv.inj l k (hg.trans hslot.symm) h0
    · rw [if_neg h12, countIndirect_never _ _ _ (by decide)] at h
      exact absurd h (by simp)
  next =>
    simp only [Option.bind_eq_bind, Option.bind_eq_some_iff, Option.pure_def, Option.some.injEq,
      Prod.mk.injEq, ideWrite_eq_some] at h
    obtain ⟨d, ⟨-, -, rfl⟩, rfl, rfl⟩ := h
    have hstore : v.disk.blit (512 * blocks k) (ioBuf.fill (24 * e) 0 dirEntrySize) (512 * 1) =
        v.disk.blit (512 * blocks k + 24 * e) (fun _ => 0) 24 := by
      rw [hbuf]
      exact blit_entry he _
    rw [hstore, hb]
    obtain ⟨hrw, htab⟩ := store_rewrites hv hk he (hb ▸ hnz) (fun _ => 0) fun _ => rfl
    exact ⟨hrw, rfl, htab⟩

theorem deleteLoop_spec {fuel inodeNo : Nat} {v : Vol p} {ino : Inode} {blocks : Nat → Nat}
    (hv : Held v ino) (hb : ∀ k, k < 140 → blocks k = fileBlock v.disk ino k) :
    ∀ {n k : Nat} {r : Bool} {v' : Vol p} {ino' : Inode}, k + n = 140 →
    deleteLoop fuel v ino inodeNo blocks n k = some (r, v', ino') → DirStep v ino v' ino' := by
  intro n
  induction n with
  | zero =>
    intro k r v' ino' _ h
    simp only [deleteLoop, Option.some.injEq, Prod.mk.injEq] at h
    obtain ⟨-, rfl, rfl⟩ := h
    exact ⟨Rewrites.refl hv, rfl, TableSame.kept (fun _ _ _ => rfl) _⟩
  | succ n ih =>
    intro k r v' ino' hsum h
    unfold deleteLoop at h
    by_cases h0 : blocks k = 0
    · rw [if_pos h0] at h
      exact ih (by omega) h
    · rw [if_neg h0] at h
      simp only [Option.bind_eq_bind, Option.bind_eq_some_iff, Prod.exists] at h
      obtain ⟨ioBuf, hread, isFirst, cnt, found, hscan, h⟩ := h
      cases found with
      | none => exact ih (by omega) h
      | some e =>
        simp only [Option.bind_eq_some_iff, Prod.exists, Option.pure_def, Option.some.injEq,
          Prod.mk.injEq] at h
        obtain ⟨-, -, v1, ino1, hone, -, -, v2, hsync, -, rfl, rfl⟩ := h
        have he : e < 0 + 21 := scanEntries_found (fun _ hf => absurd hf (by simp)) hscan rfl
        obtain ⟨hrw, hno, htab⟩ := delete_one hv (by omega) (by omega) (hb k (by omega)) h0
          (ideRead_sector hread).2.1 hone
        have hno' : (ino1.setSize (ino1.size - dirEntrySize)).no = ino.no := hno
        have hkept := htab.sync hsync
        rw [hno'] at hkept
        exact ⟨hrw.sync hsync, hno', hkept⟩

/-- **Deleting an entry is a block operation.** -/
theorem deleteDirEntry_spec {fuel inodeNo : Nat} {v v' : Vol p} {ino ino' : Inode} {r : Bool}
    (hv : Held v ino) (h : deleteDirEntry fuel v ino inodeNo = some (r, v', ino')) :
    DirStep v ino v' ino' := by
  simp only [deleteDirEntry, Option.bind_eq_bind, Option.bind_eq_some_iff] at h
  obtain ⟨blocks, hb, h⟩ := h
  exact deleteLoop_spec hv (fun k _ => congrFun (allBlocks_spec hb) k) (by decide) h

/-- **Adding a block to a directory is a block operation.** Slot `k` holds the
new block, the table slot may hold a new table, and everything else is as it was
or, behind a new table, empty. -/
theorem Added.rewrites {pDe : DirEntry} {k b : Nat} {v v1 : Vol p} {ino ino1 : Inode}
    (h : Added pDe k v ino v1 ino1 b) (hk : k ≤ 12) (hv : Held v ino) :
    Rewrites v ino v1 (some ino1) := by
  have hslot : ∀ l, l ≠ 140 → slot v1.disk ino1 l =
      if l = k then b else if k = 12 ∧ 12 < l then 0 else slot v.disk ino l := by
    intro l hl
    by_cases hlt : l < 140
    · rw [slot_block _ _ hlt, slot_block _ _ hlt]
      exact h.block hk hv hlt
    · have hz : ∀ d i, slot d i l = 0 := fun d i => by
        rw [slot, if_neg hl, fileBlock_ge _ _ (by omega)]
      rw [hz, hz, if_neg (by omega)]
      split <;> rfl
  have hold : ∀ l, ¬Fresh v v1 (slot v.disk ino l) := fun l hf => hf.free (hv.used l hf.ne_zero)
  have hzero : ¬Fresh v v1 0 := fun hf => hf.ne_zero rfl
  -- the slots that hold a block that was free
  have hnew : ∀ l, Fresh v v1 (slot v1.disk ino1 l) →
      (l = k ∧ slot v1.disk ino1 l = b) ∨ (l = 140 ∧ slot v1.disk ino1 l ≠ b) := by
    intro l hf
    by_cases hl : l = 140
    · subst hl
      refine Or.inr ⟨rfl, ?_⟩
      rw [slot_table] at hf ⊢
      exact h.table_ne hk hv hf.ne_zero
    · rw [hslot l hl] at hf ⊢
      by_cases hlk : l = k
      · exact Or.inl ⟨hlk, if_pos hlk⟩
      · rw [if_neg hlk] at hf
        split at hf
        · exact absurd hf hzero
        · exact absurd hf (hold l)
  have heach : ∀ l, slot v1.disk ino1 l = 0 ∨ slot v1.disk ino1 l = slot v.disk ino l ∨
      Fresh v v1 (slot v1.disk ino1 l) := by
    intro l
    by_cases hl : l = 140
    · subst hl
      rw [slot_table, slot_table]
      rcases h.sec_table hk with ⟨-, he⟩ | ⟨-, hf, -, -⟩
      · exact Or.inr (Or.inl he)
      · exact Or.inr (Or.inr hf)
    · rw [hslot l hl]
      split
      · exact Or.inr (Or.inr h.fresh)
      · split
        · exact Or.inl rfl
        · exact Or.inr (Or.inl rfl)
  refine ⟨heach, fun l m he hf => ?_, fun l hne => ?_, fun c hc _ => h.mono c hc,
    fun a ha _ hne => ?_⟩
  · have hf' : Fresh v v1 (slot v1.disk ino1 m) := by
      rw [slots_some, slots_some] at he
      rw [← he]
      exact hf
    rcases hnew l hf with ⟨rfl, hl⟩ | ⟨rfl, hl⟩
    · rcases hnew m hf' with ⟨rfl, -⟩ | ⟨rfl, hm⟩
      · rfl
      · exact absurd (he.symm.trans hl) hm
    · rcases hnew m hf' with ⟨rfl, hm⟩ | ⟨rfl, -⟩
      · exact absurd (he.trans hm) hl
      · rfl
  · rcases heach l with h0 | h1 | h2
    · exact absurd h0 hne
    · rw [slots_some, h1] at hne ⊢
      exact h.mono _ (hv.used l hne)
    · exact h2.used
  · have hbm := inodeBitmapLba_le_dataStart p
    refine h.frame a (Or.inr (by omega)) ?_ fun _ => ?_
    · have := hne k
      rw [slots_some, hslot k (by omega), if_pos rfl] at this
      exact this.symm
    · have := hne 140
      rw [slots_some, slot_table] at this
      exact this.symm

theorem Added.tableSame {pDe : DirEntry} {k b : Nat} {v v1 : Vol p} {ino ino1 : Inode}
    (h : Added pDe k v ino v1 ino1 b) (hk : k ≤ 12) : TableSame v v1 := by
  intro a h1 h2
  have hdata := h.fresh.data
  have hord : p.inodeBitmapLba ≤ p.inodeTableLba := by
    unfold Partition.inodeTableLba
    omega
  apply h.frame a (Or.inr (by omega)) (by omega)
  intro _
  rcases h.sec_table hk with ⟨hlt, -⟩ | ⟨-, hf, -, -⟩
  · omega
  · have := hf.data
    omega

theorem Added.no {pDe : DirEntry} {k b : Nat} {v v1 : Vol p} {ino ino1 : Inode}
    (h : Added pDe k v ino v1 ino1 b) (hk : k ≤ 12) : ino1.no = ino.no := by
  rcases Nat.lt_or_eq_of_le hk with hlt | heq
  · rw [h.direct hlt]
    rfl
  · obtain ⟨t, ht, -⟩ := h.indirect heq
    rw [ht]
    rfl

/-- **Inserting an entry is a block operation.** -/
theorem syncDirEntry_step {pDe : DirEntry} {v v' : Vol p} {ino ino' : Inode} {r : Bool}
    (hv : Held v ino) (h : syncDirEntry v ino pDe = some (r, v', ino')) :
    DirStep v ino v' ino' := by
  obtain ⟨-, hplaced⟩ := syncDirEntry_spec h
  cases hplaced with
  | slot k e hk he hfull hnz hmax hfree hv' hino =>
    subst hv' hino
    rw [← fileBlock_direct v.disk ino hk] at hnz ⊢
    obtain ⟨hrw, htab⟩ := store_rewrites hv (by omega) he hnz pDe.bytes
      fun j => Inode.sec_setSize ino (ino.size + 24) j
    exact ⟨hrw, rfl, htab.kept _⟩
  | grown k b e v1 ino1 hk hfull hz hadd he hv' hino =>
    have hrw := hadd.rewrites hk hv
    have htab := hadd.tableSame hk
    have he21 := (freeSlot_some he).1
    have hbdata := hadd.fresh.data
    have hframe : ∀ a, a / 512 ≠ b → v1.disk.blit (512 * b + 24 * e) pDe.bytes 24 a = v1.disk a :=
      fun a ha => Mem.blit_out (by omega)
    have hslot : ∀ l, slot (v1.disk.blit (512 * b + 24 * e) pDe.bytes 24)
        (ino1.setSize (ino1.size + 24)) l = slot v1.disk ino1 l :=
      slot_congr (fun j => Inode.sec_setSize _ _ _) fun hnz a ha =>
        hframe a (by rw [ha]; exact hadd.table_ne hk hv hnz)
    have hkslot : slot v1.disk ino1 k = b := by
      rw [slot_block _ _ (by omega), hadd.block hk hv (by omega), if_pos rfl]
    subst hv' hino
    refine ⟨hrw.congr (fun _ => Iff.rfl) hslot fun a _ hne => hframe a ?_, hadd.no hk,
      TableSame.kept (fun a h1 h2 => (hframe a (by omega)).trans (htab a h1 h2)) _⟩
    rw [← hkslot]
    exact (hne k).symm

end OsCore.Fs
