import OsCore.Fs.DirDelete
import OsCore.Fs.FailedMkdir
import OsCore.Fs.WriteLimits

/-!
# Releasing a file

`file_write` enters the blocks it takes in three places: the direct addresses of
the inode, the table on disk, and the address of the table itself.
`inode_release` reads them from there again and frees what it finds. That the
block bitmap is then what it was before the first write comes down to a balance:
in every state between the two, the bits set are those that were set at first
and those of the blocks the inode has (`Recorded`).

A write keeps the balance because nothing it takes goes anywhere else and
because it enters nothing over an address that is there: the inode has no
address behind its end (`Trimmed`). The release frees each of the blocks, none
twice, and passes its assertions since none of them is the block with bit 0,
which was never free.
-/

namespace OsCore.Fs

variable {p : Partition}

/-! ## Blocks taken -/

section Taken

variable {T T' : Nat → Prop} {u v w : Vol p}

/-- The bits set are those set before and those of the blocks in `T`. -/
def Took (T : Nat → Prop) (v v' : Vol p) : Prop :=
  ∀ i, v'.blockBitmap.bit i = true ↔ v.blockBitmap.bit i = true ∨ T (p.dataStartLba + i)

theorem Took.of_same (h : w.blockBitmap = v.blockBitmap) (hT : ∀ b, ¬T b) : Took T v w := by
  intro i
  rw [h]
  exact ⟨Or.inl, fun hi => hi.resolve_right (hT _)⟩

theorem Took.trans (h : Took T u v) (h' : Took T' v w) : Took (fun b => T b ∨ T' b) u w := by
  intro i
  rw [h' i, h i, or_assoc]

theorem Took.congr (h : Took T v w) (hT : ∀ b, T b ↔ T' b) : Took T' v w := by
  intro i
  rw [h i, hT]

end Taken

theorem bitmapSync_blocks {v v' : Vol p} {i : Nat} {btmp : BitmapType}
    (h : bitmapSync v i btmp = some v') : v'.blockBitmap = v.blockBitmap := by
  simp only [bitmapSync, Option.bind_eq_bind, Option.bind_eq_some_iff, Option.pure_def,
    Option.some.injEq] at h
  obtain ⟨d, -, rfl⟩ := h
  rfl

/-- One `block_bitmap_alloc`. -/
theorem alloc_took {v v' w : Vol p} {r : Int} (h : blockBitmapAlloc v = some (r, v'))
    (hw : w.blockBitmap = v'.blockBitmap) : Took (fun b => r.toNat = b) v w := by
  obtain ⟨i, rfl, -, -, -, rfl⟩ := blockBitmapAlloc_spec h
  intro j
  rw [hw, Int.toNat_natCast]
  show (v.blockBitmap.bitmapSet i true).bit j = true ↔ _
  rw [Bitmap.bit_bitmapSet]
  by_cases hj : j = i
  · rw [if_pos hj]
    exact iff_of_true rfl (Or.inr (by omega))
  · rw [if_neg hj]
    exact ⟨Or.inl, fun hi => hi.resolve_right (by omega)⟩

/-- The allocation loop takes the blocks it lists. -/
theorem growLoop_took : ∀ {n idx : Nat} {v v' : Vol p} {ino ino' : Inode}
    {blocks blocks' : Nat → Nat} {ok : Bool},
    growLoop blockBitmapAlloc n idx v ino blocks = some (ok, v', ino', blocks') →
    Took (fun b => ∃ k, idx ≤ k ∧ k < idx + n ∧ blocks' k = b) v v' := by
  intro n
  induction n with
  | zero =>
    intro idx v v' ino ino' blocks blocks' ok h
    simp only [growLoop, Option.some.injEq, Prod.mk.injEq] at h
    obtain ⟨-, rfl, -, -⟩ := h
    apply Took.of_same rfl
    intro b hb
    obtain ⟨k, h1, h2, -⟩ := hb
    omega
  | succ n ih =>
    intro idx v v' ino ino' blocks blocks' ok h
    simp only [growLoop, Option.bind_eq_bind, Option.bind_eq_some_iff, Prod.exists] at h
    obtain ⟨lba, v1, halloc, h⟩ := h
    rw [if_neg (alloc_spec halloc).1] at h
    simp only [Option.bind_eq_some_iff] at h
    obtain ⟨ino1, -, v2, hsync, hrec⟩ := h
    have hhead : blocks' idx = lba.toNat := by
      rw [(growLoop_spec hrec).2.keep idx (Or.inl (by omega)), setWord, if_pos rfl]
    refine ((alloc_took halloc (bitmapSync_blocks hsync)).trans (ih hrec)).congr fun b => ?_
    constructor
    · intro hb
      rcases hb with hb | ⟨k, h1, h2, hb⟩
      · exact ⟨idx, Nat.le_refl _, by omega, hhead.trans hb⟩
      · exact ⟨k, by omega, by omega, hb⟩
    · intro hb
      obtain ⟨k, h1, h2, hb⟩ := hb
      rcases Nat.eq_or_lt_of_le h1 with rfl | hlt
      · exact Or.inl (hhead.symm.trans hb)
      · exact Or.inr ⟨k, hlt, by omega, hb⟩

/-- Gathering blocks for a write takes those it lists, and a table if there is
none. -/
theorem collectWrite_took {has will : Nat} {v v' : Vol p} {ino ino' : Inode}
    {blocks : Nat → Nat} {ok : Bool} (hle : has ≤ will)
    (h : collectWrite blockBitmapAlloc v ino has will = some (ok, v', ino', blocks)) :
    Took (fun b => (∃ k, has ≤ k ∧ k < will ∧ blocks k = b) ∨
      (ino.sec 12 = 0 ∧ ino'.sec 12 ≠ 0 ∧ ino'.sec 12 = b)) v v' ∧
    (ino.sec 12 ≠ 0 → ino'.sec 12 = ino.sec 12) := by
  have hsum : has + (will - has) = will := by omega
  -- nothing but the listed blocks, when the table stays what it is
  have hsame : ino'.sec 12 = ino.sec 12 →
      Took (fun b => ∃ k, has ≤ k ∧ k < will ∧ blocks k = b) v v' →
      Took (fun b => (∃ k, has ≤ k ∧ k < will ∧ blocks k = b) ∨
        (ino.sec 12 = 0 ∧ ino'.sec 12 ≠ 0 ∧ ino'.sec 12 = b)) v v' ∧
      (ino.sec 12 ≠ 0 → ino'.sec 12 = ino.sec 12) := fun h12 ht =>
    ⟨ht.congr fun b => ⟨Or.inl, fun hb => hb.resolve_right fun hn => hn.2.1 (h12.trans hn.1)⟩,
      fun _ => h12⟩
  unfold collectWrite at h
  dsimp only at h
  split at h
  next heq =>
    have hnone : ∀ b, ¬∃ k, has ≤ k ∧ k < will ∧ blocks k = b := by
      intro b hb
      obtain ⟨k, h1, h2, -⟩ := hb
      omega
    split at h
    next =>
      simp only [Option.pure_def, Option.some.injEq, Prod.mk.injEq] at h
      obtain ⟨-, rfl, rfl, -⟩ := h
      exact hsame rfl (Took.of_same rfl hnone)
    next =>
      simp only [Option.bind_eq_bind, Option.bind_eq_some_iff, Option.pure_def,
        Option.some.injEq, Prod.mk.injEq] at h
      obtain ⟨-, -, -, -, -, rfl, rfl, -⟩ := h
      exact hsame rfl (Took.of_same rfl hnone)
  next hne =>
    split at h
    next h12 =>
      simp only [Option.bind_eq_bind, Option.bind_eq_some_iff] at h
      obtain ⟨-, -, h⟩ := h
      have ht := growLoop_took h
      rw [hsum] at ht
      refine hsame ?_ ht
      rw [(growLoop_spec h).2.sec, if_neg (by omega)]
    next h12 =>
      split at h
      next hhas =>
        -- the table comes first
        simp only [Option.bind_eq_bind, Option.bind_eq_some_iff, Prod.exists] at h
        obtain ⟨lba, v1, halloc, h⟩ := h
        obtain ⟨hm1, hfresh, -, -, -, -⟩ := alloc_spec halloc
        rw [if_neg hm1] at h
        simp only [Option.bind_eq_some_iff, ensure_eq_some, Prod.exists, exists_const] at h
        obtain ⟨h0, ok', v2, ino2, blocks2, hloop, h⟩ := h
        obtain ⟨rfl, hg⟩ := growLoop_spec hloop
        have ht := (alloc_took halloc rfl).trans (growLoop_took hloop)
        simp only [Bool.not_true, Bool.false_eq_true, if_false, Option.bind_eq_some_iff,
          Option.pure_def, Option.some.injEq, Prod.mk.injEq] at h
        obtain ⟨d, -, -, rfl, rfl, rfl⟩ := h
        have htab : ino2.sec 12 = lba.toNat := by
          rw [hg.sec, if_neg (by omega), Inode.sec_setSec (by decide)
            (by have hw := hfresh.word; omega), if_pos rfl]
        rw [hsum] at ht
        refine ⟨fun i => (ht i).trans (or_congr_right ?_), fun hnz => absurd h0 hnz⟩
        rw [htab]
        constructor
        · intro hb
          exact hb.symm.imp_right fun hlba => ⟨h0, hfresh.ne_zero, hlba⟩
        · intro hb
          exact (hb.imp_right fun hlba => hlba.2.2).symm
      next hhas =>
        simp only [Option.bind_eq_bind, Option.bind_eq_some_iff, ensure_eq_some, Prod.exists,
          exists_const] at h
        obtain ⟨-, blocks0, -, ok', v2, ino2, blocks2, hloop, h⟩ := h
        obtain ⟨rfl, hg⟩ := growLoop_spec hloop
        have ht := growLoop_took hloop
        simp only [Bool.not_true, Bool.false_eq_true, if_false, Option.bind_eq_some_iff,
          Option.pure_def, Option.some.injEq, Prod.mk.injEq] at h
        obtain ⟨d, -, -, rfl, rfl, rfl⟩ := h
        rw [hsum] at ht
        refine hsame ?_ ht
        rw [hg.sec, if_neg (by omega)]

theorem firstBlock_took {v v' : Vol p} {ino ino' : Inode} {ok : Bool}
    (h : firstBlock blockBitmapAlloc v ino = some (ok, v', ino')) :
    Took (fun b => ino.sec 0 = 0 ∧ ino'.sec 0 = b) v v' := by
  unfold firstBlock at h
  split at h
  next h0 =>
    simp only [Option.bind_eq_bind, Option.bind_eq_some_iff, Prod.exists] at h
    obtain ⟨lba, v1, halloc, h⟩ := h
    obtain ⟨hm1, hfresh, -, -, -, -⟩ := alloc_spec halloc
    rw [if_neg hm1] at h
    simp only [Option.bind_eq_some_iff, ensure_eq_some, exists_const, Option.pure_def,
      Option.some.injEq, Prod.mk.injEq] at h
    obtain ⟨-, v2, hsync, -, rfl, rfl⟩ := h
    refine (alloc_took halloc (bitmapSync_blocks hsync)).congr fun b => ?_
    rw [Inode.sec_setSec (by decide) (by have hw := hfresh.word; omega), if_pos rfl]
    exact ⟨fun hb => ⟨h0, hb⟩, fun hb => hb.2⟩
  next h0 =>
    simp only [Option.pure_def, Option.some.injEq, Prod.mk.injEq] at h
    obtain ⟨-, rfl, -⟩ := h
    exact Took.of_same rfl fun b hb => h0 hb.1

/-! ## Blocks taken and entered -/

/-- What is taken is entered in the inode, and what was entered stays. -/
structure Recorded (v : Vol p) (ino : Inode) (v' : Vol p) (ino' : Inode) : Prop where
  took : Took (Releases v' ino') v v'
  keep : ∀ k, slot v.disk ino k ≠ 0 → slot v'.disk ino' k = slot v.disk ino k

section Recorded

variable {u v w : Vol p} {i j l : Inode}

theorem Recorded.refl (hv : Held v i) : Recorded v i v i := by
  refine ⟨fun b => ⟨Or.inl, fun hb => hb.elim id fun hrel => ?_⟩, fun _ _ => rfl⟩
  obtain ⟨hnz, k, hk⟩ := hrel
  have hused := hv.used k (hk ▸ hnz)
  rw [hk] at hused
  have hbit := hused.2.2
  rwa [Nat.add_sub_cancel_left] at hbit

theorem Recorded.trans (h : Recorded u i v j) (h' : Recorded v j w l) : Recorded u i w l := by
  refine ⟨fun b => ?_, fun k hk => ?_⟩
  · rw [h'.took b, h.took b, or_assoc]
    refine or_congr_right ⟨fun hb => hb.elim (fun hold => ?_) id, Or.inr⟩
    obtain ⟨hnz, k, hk⟩ := hold
    exact ⟨hnz, k, (h'.keep k (hk ▸ hnz)).trans hk⟩
  · have hstays := h.keep k hk
    rw [h'.keep k (hstays ▸ hk), hstays]

/-- What a stage takes is entered in the inode, so it is enough that what it
enters is all it takes. -/
theorem Recorded.of_took {T : Nat → Prop} (hv : Held v i) (hext : Extends v i w j)
    (ht : Took T v w) (hin : ∀ b, T b → Releases w j b)
    (hkeep : ∀ k, slot v.disk i k ≠ 0 → slot w.disk j k = slot v.disk i k) :
    Recorded v i w j := by
  refine ⟨fun b => ?_, hkeep⟩
  rw [ht b]
  refine ⟨fun hb => hb.imp_right (hin _), fun hb => hb.elim Or.inl fun hrel => ?_⟩
  obtain ⟨hnz, k, hk⟩ := hrel
  rw [← hk] at hnz
  rcases hext.each k with hold | hfresh
  · have hbit := (hv.used k (hold ▸ hnz)).2.2
    rw [← hold, hk, Nat.add_sub_cancel_left] at hbit
    exact Or.inl hbit
  · have hbit := hfresh.used.2.2
    rw [hk, Nat.add_sub_cancel_left] at hbit
    exact (ht b).mp hbit

/-- The same bits and the same addresses, on another disk. -/
theorem Recorded.congr {w' : Vol p} {j' : Inode} (h : Recorded v i w j)
    (hbits : w'.blockBitmap = w.blockBitmap) (hslot : ∀ k, slot w'.disk j' k = slot w.disk j k) :
    Recorded v i w' j' := by
  refine ⟨fun b => ?_, fun k hk => (hslot k).trans (h.keep k hk)⟩
  have hrel : ∀ b, Releases w' j' b ↔ Releases w j b := by
    intro b
    unfold Releases
    simp only [hslot]
  rw [hbits, h.took b, hrel]

end Recorded

theorem firstBlock_recorded {v v' : Vol p} {ino ino' : Inode} {ok : Bool} (hv : Held v ino)
    (h : firstBlock blockBitmapAlloc v ino = some (ok, v', ino')) : Recorded v ino v' ino' := by
  obtain ⟨-, h1⟩ := firstBlock_spec h
  refine Recorded.of_took hv (h1.extends hv) (firstBlock_took h) (fun b hb => ?_) fun k hk => ?_
  · refine ⟨hb.2 ▸ h1.nonzero, 0, ?_⟩
    rw [slot_block _ _ (by decide), fileBlock_direct _ _ (by decide)]
    exact hb.2
  · by_cases h0 : k = 0
    · subst h0
      rw [slot_block _ _ (by decide), fileBlock_direct _ _ (by decide)] at hk ⊢
      rw [slot_block _ _ (by decide), fileBlock_direct _ _ (by decide)]
      exact h1.zero.resolve_right fun hnew => hk hnew.1
    · unfold slot
      rw [h1.rest 12 (by decide), h1.block hv h0]

theorem collectWrite_recorded {has will : Nat} {v v' : Vol p} {ino ino' : Inode}
    {blocks : Nat → Nat} {ok : Bool} (h1 : 1 ≤ has) (h2 : has ≤ will) (h3 : will ≤ 140)
    (hv : Held v ino) (hahead : ∀ k, has ≤ k → fileBlock v.disk ino k = 0)
    (h : collectWrite blockBitmapAlloc v ino has will = some (ok, v', ino', blocks)) :
    Recorded v ino v' ino' := by
  obtain ⟨-, hc⟩ := collectWrite_spec h1 h2 h3 hv.table h
  obtain ⟨htook, htable⟩ := collectWrite_took h2 h
  refine Recorded.of_took hv (hc.extends hv) htook (fun b hb => ?_) fun k hk => ?_
  · rcases hb with ⟨k, hk1, hk2, rfl⟩ | ⟨-, hnz, rfl⟩
    · refine ⟨(hc.new k hk1 hk2).ne_zero, k, ?_⟩
      rw [slot_block _ _ (by omega), hc.block k (by omega), if_pos ⟨hk1, hk2⟩]
    · exact ⟨hnz, 140, slot_table _ _⟩
  · by_cases h140 : k = 140
    · subst h140
      rw [slot_table] at hk ⊢
      rw [slot_table, htable hk]
    · have hlt : k < 140 := by
        by_contra hge
        rw [slot, if_neg h140, fileBlock_ge _ _ (by omega)] at hk
        exact hk rfl
      rw [slot_block _ _ hlt] at hk ⊢
      rw [slot_block _ _ hlt, hc.block k hlt, if_neg fun hin => hk (hahead k hin.1)]

/-- No address behind the block the next byte goes to. -/
def Trimmed (v : Vol p) (ino : Inode) : Prop :=
  ∀ k, ino.size / 512 < k → fileBlock v.disk ino k = 0

/-- **A write enters what it takes.** -/
theorem fileWrite_recorded {v v' : Vol p} {f f' : File} {buf : Mem} {count : Nat} {r : Int}
    (hv : Held v f.inode) (ht : Trimmed v f.inode)
    (h : fileWrite v f buf count = some (r, v', f')) (hr : r ≠ -1) :
    Recorded v f.inode v' f'.inode ∧ Trimmed v' f'.inode := by
  cases fileWrite_cases h with
  | refused hrefused => exact absurd hrefused hr
  | written v1 v2 ino1 ino2 blocks d _ hwill hfirst hcol hw hino hsync =>
    obtain ⟨-, h1⟩ := firstBlock_spec hfirst
    have hv1 := (h1.extends hv).held hv
    obtain ⟨-, h2⟩ := collectWrite_spec (by omega) (by omega) hwill hv1.table hcol
    have hv2 := (h2.extends hv1).held hv1
    have hahead : ∀ k, f.inode.size / 512 + 1 ≤ k → fileBlock v1.disk ino1 k = 0 := by
      intro k hk
      rw [h1.block hv (by omega)]
      exact ht k hk
    have hrec := (firstBlock_recorded hv hfirst).trans
      (collectWrite_recorded (by omega) (by omega) hwill hv1 hahead hcol)
    obtain ⟨hbits, -, hdata⟩ := inodeSync_data hsync
    -- neither the bytes of the file nor the inode are written over the table
    have hslot : ∀ k, slot v'.disk f'.inode k = slot v2.disk ino2 k := by
      intro k
      rw [← hw.slot h2 hv2 hwill rfl (Or.inr (by omega)) k, hino]
      refine slot_congr (fun _ => Inode.sec_setSize _ _ _) (fun hne a ha => hdata a ?_) k
      have htab := hv2.table hne
      omega
    refine ⟨hrec.congr hbits hslot, fun k hk => ?_⟩
    rw [hino, Inode.size_setSize (by omega)] at hk
    by_cases hlt : k < 140
    · have hk2 := hslot k
      rw [slot_block _ _ hlt, slot_block _ _ hlt] at hk2
      rw [hk2, h2.block k hlt, if_neg (by omega), hahead k (by omega)]
    · exact fileBlock_ge _ _ (by omega)

/-! ## Blocks freed -/

section Freed

variable {T T' : Nat → Prop} {u v w : Vol p}

/-- The bits set are those set before, without those of the blocks in `T`. -/
def Freed (T : Nat → Prop) (v v' : Vol p) : Prop :=
  ∀ i, v'.blockBitmap.bit i = true ↔ v.blockBitmap.bit i = true ∧ ¬T (p.dataStartLba + i)

theorem Freed.trans (h : Freed T u v) (h' : Freed T' v w) : Freed (fun b => T b ∨ T' b) u w := by
  intro i
  rw [h' i, h i, and_assoc, not_or]

theorem Freed.congr (h : Freed T v w) (hT : ∀ b, p.dataStartLba ≤ b → (T b ↔ T' b)) :
    Freed T' v w := by
  intro i
  rw [h i, hT _ (Nat.le_add_right _ _)]

/-- Freeing what was taken leaves the bits there were, when none of the blocks
taken was set. -/
theorem Took.undo (h : Took T u v) (h' : Freed T v w)
    (hfree : ∀ i, T (p.dataStartLba + i) → u.blockBitmap.bit i = false) :
    w.blockBitmap = u.blockBitmap := by
  apply Bitmap.eq_of_bit (w.blockLen.trans u.blockLen.symm)
  intro i
  rw [Bool.eq_iff_iff, h' i, h i]
  constructor
  · intro hi
    exact hi.1.resolve_right hi.2
  · intro hi
    refine ⟨Or.inl hi, fun ht => ?_⟩
    rw [hfree i ht] at hi
    cases hi

end Freed

/-- One round of the release: a block in use other than the first has a bit that
can be cleared. -/
theorem freeOne_returns {v : Vol p} {b : Nat} (hused : v.Used b) (hb : p.dataStartLba < b)
    (w : Vol p) : 0 < blockBit p b ∧
      ∃ w', bitmapSync (w.setBlock (blockBit p b) false) (blockBit p b) .blockBitmap = some w' ∧
        Freed (b = ·) w w' ∧ w'.inodeBitmap = w.inodeBitmap := by
  have hbit := blockBit_eq hused.1 hused.2.1
  obtain ⟨w', hsync⟩ := bitmapSync_returns hused (w.setBlock (blockBit p b) false)
  refine ⟨by omega, w', hsync, fun i => ?_, (bitmapSync_inodes hsync).trans rfl⟩
  rw [bitmapSync_blocks hsync, hbit]
  show (w.blockBitmap.bitmapSet (b - p.dataStartLba) false).bit i = true ↔ _
  rw [Bitmap.bit_bitmapSet]
  by_cases hi : i = b - p.dataStartLba
  · rw [if_pos hi]
    exact iff_of_false (by decide) fun h => h.2 (by omega)
  · rw [if_neg hi]
    exact ⟨fun h => ⟨h, by omega⟩, fun h => h.1⟩

/-- The loop of the release frees what is listed. -/
theorem freeLoop_returns {v : Vol p} {blocks : Nat → Nat} : ∀ {n k : Nat} {w : Vol p},
    (∀ j, k ≤ j → j < k + n → blocks j ≠ 0 → v.Used (blocks j) ∧ p.dataStartLba < blocks j) →
    ∃ w', freeLoop blocks n k w = some w' ∧
      Freed (fun b => b ≠ 0 ∧ ∃ j, k ≤ j ∧ j < k + n ∧ blocks j = b) w w' ∧
      w'.inodeBitmap = w.inodeBitmap := by
  intro n
  induction n with
  | zero =>
    intro k w _
    refine ⟨w, rfl, fun i => ⟨fun hi => ⟨hi, fun hb => ?_⟩, fun hi => hi.1⟩, rfl⟩
    obtain ⟨-, j, h1, h2, -⟩ := hb
    omega
  | succ n ih =>
    intro k w hblocks
    have hrest : ∀ j, k + 1 ≤ j → j < k + 1 + n → blocks j ≠ 0 →
        v.Used (blocks j) ∧ p.dataStartLba < blocks j := fun j h1 h2 =>
      hblocks j (by omega) (by omega)
    unfold freeLoop
    by_cases h0 : blocks k = 0
    · rw [if_neg (not_not_intro h0)]
      obtain ⟨w', hw', hfreed, hinodes⟩ := ih (w := w) hrest
      refine ⟨w', hw', hfreed.congr fun b _ => ⟨fun hb => ?_, fun hb => ?_⟩, hinodes⟩
      · obtain ⟨hnz, j, h1, h2, hj⟩ := hb
        exact ⟨hnz, j, by omega, by omega, hj⟩
      · obtain ⟨hnz, j, h1, h2, hj⟩ := hb
        have hne : j ≠ k := fun hjk => hnz (by rw [← hj, hjk, h0])
        exact ⟨hnz, j, by omega, by omega, hj⟩
    · obtain ⟨hused, hlt⟩ := hblocks k (Nat.le_refl k) (by omega) h0
      obtain ⟨hpos, w1, hsync, hone, hinodes1⟩ := freeOne_returns hused hlt w
      obtain ⟨w', hw', hfreed, hinodes⟩ := ih (w := w1) hrest
      rw [if_pos h0]
      simp only [ensure_pos hpos, hsync, Option.bind_eq_bind, Option.bind_some]
      refine ⟨w', hw', (hone.trans hfreed).congr fun b _ => ⟨fun hb => ?_, fun hb => ?_⟩,
        hinodes.trans hinodes1⟩
      · rcases hb with rfl | ⟨hnz, j, h1, h2, hj⟩
        · exact ⟨h0, k, Nat.le_refl k, by omega, rfl⟩
        · exact ⟨hnz, j, by omega, by omega, hj⟩
      · obtain ⟨hnz, j, h1, h2, hj⟩ := hb
        rcases Nat.eq_or_lt_of_le h1 with rfl | hjk
        · exact Or.inl hj
        · exact Or.inr ⟨hnz, j, by omega, by omega, hj⟩

/-- **The release frees the blocks of the inode**, each once, and passes its
assertions if none of them is the first of the data area. -/
theorem releaseBlocks_returns {v : Vol p} {ino : Inode} (hv : Held v ino)
    (hmax : ino.sec 12 ≤ maxLba) (hlt : ∀ k, slot v.disk ino k ≠ 0 → p.dataStartLba < slot v.disk ino k) :
    ∃ w, releaseBlocks v ino = some w ∧ Freed (Releases v ino) v w ∧
      w.inodeBitmap = v.inodeBitmap := by
  have hdirect : ∀ j, j < 12 → directBlocks ino j = slot v.disk ino j := fun j hj => by
    rw [directBlocks_lt hj, slot_block _ _ (by omega), fileBlock_direct _ _ hj]
  unfold releaseBlocks
  by_cases h0 : ino.sec 12 = 0
  · rw [if_neg (not_not_intro h0)]
    obtain ⟨w, hw, hfreed, hinodes⟩ := @freeLoop_returns p v (directBlocks ino) 12 0 v
      fun j _ hj hnz => by
        rw [hdirect j (by omega)] at hnz ⊢
        exact ⟨hv.used j hnz, hlt j hnz⟩
    refine ⟨w, hw, hfreed.congr fun b _ => ⟨fun hb => ?_, fun hb => ?_⟩, hinodes⟩
    · obtain ⟨hnz, j, -, hj, hb⟩ := hb
      exact ⟨hnz, j, by rw [← hdirect j (by omega), hb]⟩
    · obtain ⟨hnz, k, hk⟩ := hb
      -- without a table only the direct addresses are there
      have h12 : k < 12 := by
        by_contra hge
        refine hnz (hk.symm.trans ?_)
        unfold slot
        split
        next => exact h0
        next => exact fileBlock_no_table _ (by omega) h0
      exact ⟨hnz, k, Nat.zero_le _, by omega, (hdirect k h12).trans hk⟩
  · rw [if_pos h0]
    obtain ⟨blocks, hread⟩ := readTable_some (d := v.disk) hmax (directBlocks ino)
    have hblocks : ∀ j, j < 140 → blocks j = slot v.disk ino j := by
      intro j hj
      rw [(readTable_spec hread).2 j]
      by_cases h12 : j < 12
      · rw [if_neg (by omega), hdirect j h12]
      · rw [if_pos (by omega), slot_block _ _ hj, fileBlock_indirect _ (by omega) hj h0]
    have htab : slot v.disk ino 140 ≠ 0 := by rwa [slot_table]
    have hused := hv.used 140 htab
    have hfirst := hlt 140 htab
    rw [slot_table] at hused hfirst
    obtain ⟨hpos, v1, hsync, hone, hinodes1⟩ := freeOne_returns hused hfirst v
    obtain ⟨w, hw, hfreed, hinodes⟩ := @freeLoop_returns p v blocks 140 0 v1
      fun j _ hj hnz => by
        rw [hblocks j (by omega)] at hnz ⊢
        exact ⟨hv.used j hnz, hlt j hnz⟩
    simp only [hread, ensure_pos hpos, hsync, Option.bind_eq_bind, Option.bind_some]
    refine ⟨w, hw, (hone.trans hfreed).congr fun b _ => ⟨fun hb => ?_, fun hb => ?_⟩,
      hinodes.trans hinodes1⟩
    · rcases hb with rfl | ⟨hnz, j, -, hj, hb⟩
      · exact ⟨h0, 140, slot_table _ _⟩
      · exact ⟨hnz, j, by rw [← hblocks j (by omega), hb]⟩
    · obtain ⟨hnz, k, hk⟩ := hb
      by_cases h140 : k = 140
      · rw [h140, slot_table] at hk
        exact Or.inl hk
      · have hlt140 : k < 140 := by
          by_contra hge
          rw [slot, if_neg h140, fileBlock_ge _ _ (by omega)] at hk
          exact hnz hk.symm
        exact Or.inr ⟨hnz, k, Nat.zero_le _, by omega, (hblocks k hlt140).trans hk⟩

/-! ## The whole release -/

theorem inodeOpen_vol {s s' : Mounted p} {n a : Nat} (h : inodeOpen s n = some (a, s')) :
    s'.vol = s.vol := by
  unfold inodeOpen at h
  split at h
  next =>
    obtain ⟨-, rfl⟩ := Prod.mk.inj (Option.some.inj h)
    rfl
  next =>
    simp only [Option.bind_eq_bind, Option.bind_eq_some_iff, Option.pure_def, Option.some.injEq,
      Prod.mk.injEq] at h
    obtain ⟨-, -, -, -, -, rfl⟩ := h
    rfl

/-- A struct in memory can be closed, which does nothing to the volume. -/
theorem inodeClose_returns {s : Mounted p} {a : Nat} {i : Inode} (hat : s.inodeAt a = some i) :
    ∃ s', inodeClose s a = some s' ∧ s'.vol = s.vol := by
  unfold inodeClose
  rw [hat, Option.bind_eq_bind, Option.bind_some]
  dsimp only
  split
  next => exact ⟨_, rfl, rfl⟩
  next => exact ⟨_, rfl, rfl⟩

/-- Saving the inode bitmap cannot fail. -/
theorem inodeBitmapSync_returns (v : Vol p) {n : Nat} (hn : n < 4096) :
    ∃ v', bitmapSync v n .inodeBitmap = some v' := by
  have hend := p.dataStartLba_le_maxLba
  have hlba : p.inodeBitmapLba + n / 4096 ≤ maxLba := by
    rw [p.dataStartLba_eq] at hend
    unfold Partition.inodeBitmapLba Partition.blockBitmapLba
    omega
  rw [bitmapSync]
  rw [ideWrite_eq_some.mpr ⟨hlba, by decide, rfl⟩]
  exact ⟨_, rfl⟩

theorem inodeRelease_returns {m m1 : Mounted p} {n a : Nat} {i : Inode} {w : Vol p} (hn : n < 4096)
    (hopen : inodeOpen m n = some (a, m1)) (hat : m1.inodeAt a = some i) (hno : i.no = n)
    (hw : releaseBlocks m.vol i = some w) :
    ∃ m', inodeRelease m n = some m' ∧ m'.vol.blockBitmap = w.blockBitmap ∧
      m'.vol.inodeBitmap = w.inodeBitmap.bitmapSet n false := by
  obtain ⟨w1, hsync⟩ := inodeBitmapSync_returns (w.setInode n false) hn
  obtain ⟨m', hclose, hvol⟩ := inodeClose_returns
    (s := { m1 with vol := { w1 with disk := w1.disk.fill (p.slotAddr n) 0 76 } }) hat
  refine ⟨m', ?_, ?_, ?_⟩
  · simp only [inodeRelease, hopen, hat, ensure_pos hno, inodeOpen_vol hopen, hw, hsync,
      inodeDelete_eq w1 hn, Option.bind_eq_bind, Option.bind_some]
    exact hclose
  · rw [hvol]
    exact (bitmapSync_blocks hsync).trans rfl
  · rw [hvol]
    exact (bitmapSync_inodes hsync).trans rfl

/-- Calls of `file_write` on one file, all of which succeed. -/
theorem Store.writes_recorded : ∀ {ops : List (WriteOp Unit)} {s s' : Store Unit p},
    s.writes ops = some s' → Held s.vol (s.inode ()) → Trimmed s.vol (s.inode ()) →
    Extends s.vol (s.inode ()) s'.vol (s'.inode ()) ∧
      Recorded s.vol (s.inode ()) s'.vol (s'.inode ()) ∧
      (s'.inode ()).no = (s.inode ()).no ∧ s'.vol.inodeBitmap = s.vol.inodeBitmap := by
  intro ops
  induction ops with
  | nil =>
    intro s s' h hv _
    obtain rfl := Option.some.inj h
    exact ⟨Extends.refl _ _, Recorded.refl hv, rfl, rfl⟩
  | cons op ops ih =>
    intro s s' h hv ht
    simp only [Store.writes, List.foldlM_cons, Option.bind_eq_bind, Option.bind_eq_some_iff] at h
    obtain ⟨s1, h1, hrest⟩ := h
    unfold Store.write at h1
    simp only [Option.bind_eq_bind, Option.bind_eq_some_iff, Prod.exists, ensure_eq_some,
      exists_const, Option.pure_def, Option.some.injEq] at h1
    obtain ⟨r, v', f', hw, hr, rfl⟩ := h1
    obtain ⟨hrec, htrim⟩ := fileWrite_recorded hv ht hw hr
    rcases fileWrite_spec hv hw with ⟨hrefused, -, -⟩ | ⟨-, hdone⟩
    · exact absurd hrefused hr
    · obtain ⟨hext, hrec', hno, hinodes⟩ := ih hrest (hdone.ext.held hv) htrim
      exact ⟨hdone.ext.trans hv hext, hrec.trans hrec', hno.trans hdone.no,
        hinodes.trans hdone.inodes⟩

/-- **Releasing a file undoes its allocations exactly.** After any sequence of
successful writes to a new inode, `inode_release` of it comes through. The block
bitmap is what it was before the first write; in the inode bitmap the inode's own
bit is clear and the others are what they were. -/
theorem inode_release_undoes_writes {s s' : Store Unit p} {ops : List (WriteOp Unit)}
    {m m1 : Mounted p} {a : Nat} {i : Inode} (hbit : s.vol.blockBitmap.bit 0 = true)
    (hnew : Created (s.inode ())) (hn : (s.inode ()).no < 4096) (hrun : s.writes ops = some s')
    (hvol : m.vol = s'.vol) (hopen : inodeOpen m (s.inode ()).no = some (a, m1))
    (hat : m1.inodeAt a = some i) (hleft : i.pureInode = (s'.inode ()).pureInode) :
    ∃ m', inodeRelease m (s.inode ()).no = some m' ∧
      m'.vol.blockBitmap = s.vol.blockBitmap ∧
      ∀ j, m'.vol.inodeBitmap.bit j =
        if j = (s.inode ()).no then false else s.vol.inodeBitmap.bit j := by
  have hempty : ∀ k, slot s.vol.disk (s.inode ()) k = 0 := hnew.slot _
  have hinit : s.Inv fun _ => [] :=
    ⟨⟨fun _ _ _ hne => absurd (hempty _) hne, fun _ hne => absurd (hempty _) hne⟩,
      fun _ => hnew.holds _⟩
  have hv : Held s.vol (s.inode ()) := hinit.owned.held rfl
  have htrim : Trimmed s.vol (s.inode ()) := by
    intro k _
    by_cases hlt : k < 140
    · rw [← slot_block _ _ hlt]
      exact hempty k
    · exact fileBlock_ge _ _ (by omega)
  obtain ⟨hext, hrec, hno, hinodes⟩ := Store.writes_recorded hrun hv htrim
  have hv' := hext.held hv
  have hmax : (s'.inode ()).sec 12 ≤ maxLba := ((Store.writes_inv hrun hinit).holds ()).table
  -- every block of the inode was free at first
  have hfresh : ∀ k, slot s'.vol.disk (s'.inode ()) k ≠ 0 →
      Fresh s.vol s'.vol (slot s'.vol.disk (s'.inode ()) k) := by
    intro k hk
    rcases hext.each k with hold | hf
    · exact absurd (hold.trans (hempty k)) hk
    · exact hf
  have hlt : ∀ k, slot s'.vol.disk (s'.inode ()) k ≠ 0 →
      p.dataStartLba < slot s'.vol.disk (s'.inode ()) k := by
    intro k hk
    have hf := hfresh k hk
    rcases Nat.eq_or_lt_of_le hf.data with heq | hgt
    · refine absurd ⟨Nat.le_refl _, ?_, ?_⟩ (heq ▸ hf.free)
      · have hin := hf.used.2.1
        omega
      · rw [Nat.sub_self]
        exact hbit
    · exact hgt
  -- the struct that was opened has the same addresses
  have hsec : ∀ k, i.sec k = (s'.inode ()).sec k := by
    intro k
    show i.pureInode.sec k = (s'.inode ()).pureInode.sec k
    rw [hleft]
  have hslot : ∀ k, slot s'.vol.disk i k = slot s'.vol.disk (s'.inode ()) k :=
    slot_congr hsec fun _ _ _ => rfl
  have hvi : Held s'.vol i := by
    have hfun : slot s'.vol.disk i = slot s'.vol.disk (s'.inode ()) := funext hslot
    unfold Held
    rw [hfun]
    exact hv'
  obtain ⟨w, hw, hfreed, hinodesW⟩ := releaseBlocks_returns hvi (by rw [hsec]; exact hmax)
    fun k hk => by
      rw [hslot] at hk ⊢
      exact hlt k hk
  have hnoi : i.no = (s.inode ()).no := (congrArg Inode.no hleft).trans hno
  obtain ⟨m', hrelease, hblocks, hinodesM⟩ := inodeRelease_returns hn hopen hat hnoi (hvol ▸ hw)
  refine ⟨m', hrelease, ?_, fun j => ?_⟩
  · rw [hblocks]
    have hfreed' : Freed (Releases s'.vol (s'.inode ())) s'.vol w := by
      apply hfreed.congr
      intro b _
      unfold Releases
      simp only [hslot]
    apply hrec.took.undo hfreed'
    intro j hj
    obtain ⟨hnz, k, hk⟩ := hj
    have hf := hfresh k (hk ▸ hnz)
    rw [hk] at hf
    cases hset : s.vol.blockBitmap.bit j with
    | false => rfl
    | true =>
      have hin := hf.used.2.1
      refine absurd ⟨Nat.le_add_right _ _, hin, ?_⟩ hf.free
      rw [Nat.add_sub_cancel_left]
      exact hset
  · rw [hinodesM, hinodesW, hinodes]
    exact Bitmap.bit_bitmapSet _ _ _ _

/-- One new file on a small volume whose first block is taken. -/
def oneFile : Store Unit blankPartition where
  vol := (blankVol.setBlock 0 true).setInode 7 true
  inode _ := blankInode 7

/-- Three bytes, then enough to need a table. -/
def longWrites : List (WriteOp Unit) :=
  [⟨(), 0, 0, fun _ => 1, 3⟩, ⟨(), 0, 0, fun _ => 2, 6500⟩]

theorem inode_release_undoes_writes_thirteen_blocks :
    ∃ s' m', oneFile.writes longWrites = some s' ∧ (s'.inode ()).sec 12 ≠ 0 ∧
      inodeRelease ⟨s'.vol, [(5, s'.inode ())], 6⟩ 7 = some m' ∧
      m'.vol.blockBitmap = oneFile.vol.blockBitmap ∧
      ∀ j, m'.vol.inodeBitmap.bit j = if j = 7 then false else oneFile.vol.inodeBitmap.bit j := by
  have hrun : (oneFile.writes longWrites).map (fun s =>
      decide ((s.inode ()).sec 12 ≠ 0 ∧ (s.inode ()).no = 7)) = some true := by
    decide +kernel
  obtain ⟨s', hs', hend⟩ := Option.map_eq_some_iff.mp hrun
  obtain ⟨htab, hno⟩ := of_decide_eq_true hend
  -- the file is still open, so it is found in memory
  have hopen : inodeOpen ⟨s'.vol, [(5, s'.inode ())], 6⟩ 7 = some (5, ⟨s'.vol,
      [(5, (s'.inode ()).setOpenCnts ((s'.inode ()).iOpenCnts.toNat + 1))], 6⟩) := by
    simp [inodeOpen, hno, Mounted.modifyInode]
  obtain ⟨m', hrelease, hblocks, hinodes⟩ := inode_release_undoes_writes (by decide) ⟨7, _, rfl⟩
    (by decide) hs' rfl hopen rfl rfl
  exact ⟨s', m', hs', htab, hrelease, hblocks, hinodes⟩

end OsCore.Fs
