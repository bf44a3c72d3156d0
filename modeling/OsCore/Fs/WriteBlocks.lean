import OsCore.Fs.Blocks

/-!
# The blocks `file_write` adds

From one allocation (`alloc_spec`) through the allocation loop
(`growLoop_spec`) to the four cases of `collectWrite` (`collectWrite_spec`):
afterwards block `k` of the inode is where it was for `k` outside
`[hasUsed, willUse)` and a block that was free inside that range, no two of the
new blocks (the table among them) are the same, and `all_blocks` lists the
addresses the copy loop is going to use. `writeLoop_spec` says what that loop
does to the disk. `fileWrite_rewrites` puts the pieces together: a write meets
the contract of a block operation.
-/

namespace OsCore.Fs

variable {p : Partition}

/-! ## Taking blocks -/

/-- Blocks are taken, none given back; on disk only the block bitmap's own
sectors change. -/
structure Grow (v v' : Vol p) : Prop where
  mono : ∀ b, v.Used b → v'.Used b
  disk : ∀ a, a < 512 * p.blockBitmapLba ∨ 512 * p.inodeBitmapLba ≤ a → v'.disk a = v.disk a
  inodes : v'.inodeBitmap = v.inodeBitmap

theorem Grow.refl (v : Vol p) : Grow v v := ⟨fun _ h => h, fun _ _ => rfl, rfl⟩

theorem Grow.trans {u v w : Vol p} (h1 : Grow u v) (h2 : Grow v w) : Grow u w :=
  ⟨fun b hb => h2.mono b (h1.mono b hb), fun a ha => (h2.disk a ha).trans (h1.disk a ha),
    h2.inodes.trans h1.inodes⟩

theorem inodeBitmapLba_le_dataStart (p : Partition) : p.inodeBitmapLba ≤ p.dataStartLba := by
  unfold Partition.dataStartLba Partition.inodeTableLba
  omega

theorem Grow.data {v v' : Vol p} (h : Grow v v') {a : Nat} (ha : 512 * p.dataStartLba ≤ a) :
    v'.disk a = v.disk a := by
  have := inodeBitmapLba_le_dataStart p
  exact h.disk a (by omega)

theorem Fresh.mono {u v w : Vol p} {b : Nat} (h : Fresh u v b) (hg : Grow v w) : Fresh u w b :=
  ⟨h.data, h.word, h.free, hg.mono b h.used⟩

/-- Free now, so free before anything was taken. -/
theorem Fresh.back {u v w : Vol p} {b : Nat} (hg : Grow u v) (h : Fresh v w b) : Fresh u w b :=
  ⟨h.data, h.word, fun hu => h.free (hg.mono b hu), h.used⟩

/-- One `block_bitmap_alloc`. -/
theorem alloc_spec {v v' : Vol p} {r : Int} (h : blockBitmapAlloc v = some (r, v')) :
    r ≠ -1 ∧ Fresh v v' r.toNat ∧ Grow v v' ∧ v'.disk = v.disk ∧
      r.toNat - p.dataStartLba < 4096 * p.blockBitmapSects ∧
      ∀ b, v'.Used b ↔ v.Used b ∨ b = r.toNat := by
  obtain ⟨i, rfl, hi, hz, -, rfl⟩ := blockBitmapAlloc_spec h
  have hword := p.block_lt hi
  have hused : ∀ b, (v.setBlock i true).Used b ↔ v.Used b ∨ b = p.dataStartLba + i := by
    intro b
    rw [Vol.setBlock_used hi]
    by_cases hb : b = p.dataStartLba + i <;> simp [hb]
  have hfree : ¬v.Used (p.dataStartLba + i) := fun hu => by
    have h2 := hu.2.2
    rw [Nat.add_sub_cancel_left, hz] at h2
    exact absurd h2 (by simp)
  simp only [Int.toNat_natCast]
  exact ⟨by omega, ⟨by omega, hword, hfree, (hused _).mpr (Or.inr rfl)⟩,
    ⟨fun b hb => (hused b).mpr (Or.inl hb), fun _ _ => rfl, rfl⟩, rfl, by omega, hused⟩

/-- One `bitmap_sync` of the block bitmap. -/
theorem sync_grow {v v' : Vol p} {i : Nat} (hi : i < 4096 * p.blockBitmapSects)
    (h : bitmapSync v i .blockBitmap = some v') : Grow v v' ∧ ∀ b, v'.Used b ↔ v.Used b := by
  obtain ⟨hb, hin, hd⟩ := bitmapSync_block hi h
  have hused : ∀ b, v'.Used b ↔ v.Used b := fun b => by simp only [Vol.Used, hb]
  exact ⟨⟨fun b h => (hused b).mpr h, hd, hin⟩, hused⟩

theorem installBlock_spec {ino ino' : Inode} {idx b : Nat} (hb : b < 2 ^ 32)
    (h : installBlock ino idx b = some ino') :
    (∀ k, ino'.sec k = if k = idx ∧ k < 12 then b else ino.sec k) ∧
      (idx < 12 → ino.sec idx = 0) ∧ ino'.size = ino.size ∧ ino'.no = ino.no := by
  unfold installBlock at h
  by_cases hlt : idx < 12
  · simp only [hlt, if_true, Option.bind_eq_bind, Option.bind_eq_some_iff, ensure_eq_some,
      Option.pure_def, Option.some.injEq, exists_const] at h
    obtain ⟨h0, rfl⟩ := h
    refine ⟨fun k => ?_, fun _ => h0, rfl, rfl⟩
    rw [Inode.sec_setSec (by omega) hb]
    by_cases hk : k = idx <;> simp [hk, hlt]
  · simp only [hlt, if_false, Option.pure_def, Option.some.injEq] at h
    subst h
    exact ⟨fun k => by rw [if_neg (by omega)], fun h => absurd h hlt, rfl, rfl⟩

/-- What `n` rounds of the allocation loop from index `idx` on leave behind. -/
structure GrowLoop (idx n : Nat) (v : Vol p) (ino : Inode) (blocks : Nat → Nat)
    (v' : Vol p) (ino' : Inode) (blocks' : Nat → Nat) : Prop where
  grow : Grow v v'
  new : ∀ k, idx ≤ k → k < idx + n → Fresh v v' (blocks' k)
  inj : ∀ k l, idx ≤ k → k < idx + n → idx ≤ l → l < idx + n → blocks' k = blocks' l → k = l
  keep : ∀ k, k < idx ∨ idx + n ≤ k → blocks' k = blocks k
  sec : ∀ k, ino'.sec k = if idx ≤ k ∧ k < idx + n ∧ k < 12 then blocks' k else ino.sec k
  empty : ∀ k, idx ≤ k → k < idx + n → k < 12 → ino.sec k = 0
  size : ino'.size = ino.size
  no : ino'.no = ino.no

theorem growLoop_spec : ∀ {n idx : Nat} {v v' : Vol p} {ino ino' : Inode}
    {blocks blocks' : Nat → Nat} {ok : Bool},
    growLoop blockBitmapAlloc n idx v ino blocks = some (ok, v', ino', blocks') →
    ok = true ∧ GrowLoop idx n v ino blocks v' ino' blocks' := by
  intro n
  induction n with
  | zero =>
    intro idx v v' ino ino' blocks blocks' ok h
    simp only [growLoop, Option.some.injEq, Prod.mk.injEq] at h
    obtain ⟨rfl, rfl, rfl, rfl⟩ := h
    exact ⟨rfl, Grow.refl v, fun k _ _ => by omega, fun k _ _ _ => by omega, fun _ _ => rfl,
      fun k => by rw [if_neg (by omega)], fun k _ _ => by omega, rfl, rfl⟩
  | succ n ih =>
    intro idx v v' ino ino' blocks blocks' ok h
    simp only [growLoop, Option.bind_eq_bind, Option.bind_eq_some_iff, Prod.exists] at h
    obtain ⟨lba, v1, halloc, h⟩ := h
    obtain ⟨hne, hfresh, hgrow, -, hidx, -⟩ := alloc_spec halloc
    rw [if_neg hne] at h
    simp only [Option.bind_eq_some_iff] at h
    obtain ⟨ino1, hino1, v2, hsync, hrec⟩ := h
    obtain ⟨hgrow2, -⟩ := sync_grow hidx hsync
    obtain ⟨hok, hr⟩ := ih hrec
    obtain ⟨hsec1, hempty1, hsize1, hno1⟩ :=
      installBlock_spec (by have := hfresh.word; omega) hino1
    have hhead : blocks' idx = lba.toNat := by
      rw [hr.keep idx (Or.inl (by omega)), setWord, if_pos rfl]
    have hg12 := hgrow.trans hgrow2
    have hused1 : v2.Used (blocks' idx) := hhead ▸ hgrow2.mono _ hfresh.used
    refine ⟨hok, hg12.trans hr.grow, fun k h1 h2 => ?_, fun k l h1 h2 h3 h4 he => ?_,
      fun k hk => ?_, fun k => ?_, fun k h1 h2 h3 => ?_, hr.size.trans hsize1, hr.no.trans hno1⟩
    · rcases Nat.eq_or_lt_of_le h1 with rfl | hlt
      · rw [hhead]
        exact (hfresh.mono hgrow2).mono hr.grow
      · exact (hr.new k hlt (by omega)).back hg12
    · -- this round's block is taken when the later ones are chosen
      rcases Nat.eq_or_lt_of_le h1 with rfl | hk
      · rcases Nat.eq_or_lt_of_le h3 with rfl | hl
        · rfl
        · exact absurd (he ▸ hused1) (hr.new l hl (by omega)).free
      · rcases Nat.eq_or_lt_of_le h3 with rfl | hl
        · exact absurd (he.symm ▸ hused1) (hr.new k hk (by omega)).free
        · exact hr.inj k l hk (by omega) hl (by omega) he
    · rw [hr.keep k (by omega), setWord, if_neg (by omega)]
    · rw [hr.sec k, hsec1 k]
      by_cases hk : k = idx
      · subst hk
        by_cases h12 : k < 12 <;> simp [h12, hhead]
      · by_cases hin : idx + 1 ≤ k ∧ k < idx + 1 + n ∧ k < 12
        · rw [if_pos hin, if_pos (by omega)]
        · rw [if_neg hin, if_neg (by omega), if_neg (by omega)]
    · rcases Nat.eq_or_lt_of_le h1 with rfl | hlt
      · exact hempty1 h3
      · have := hr.empty k hlt (by omega) h3
        rw [hsec1, if_neg (by omega)] at this
        exact this

/-! ## The indirect table -/

theorem readTable_spec {d : Mem} {t : Nat} {blocks blocks' : Nat → Nat}
    (h : readTable d t blocks = some blocks') :
    t ≤ maxLba ∧ ∀ k, blocks' k =
      if 12 ≤ k ∧ k < 140 then d.rd32 (512 * t + 4 * (k - 12)) else blocks k := by
  simp only [readTable, Option.bind_eq_bind, Option.bind_eq_some_iff, ideRead_eq_some,
    Option.pure_def, Option.some.injEq] at h
  obtain ⟨m, ⟨hmax, -, rfl⟩, rfl⟩ := h
  refine ⟨hmax, fun k => ?_⟩
  dsimp only
  by_cases hk : 12 ≤ k ∧ k < 140
  · rw [if_pos hk, if_pos hk, Mem.words, ← Mem.rd32_shift d]
    exact Mem.rd32_congr fun i hi => by rw [Mem.blit_in (by omega) (by omega), Nat.sub_zero]
  · rw [if_neg hk, if_neg hk]

theorem writeTable_spec {d d' : Mem} {t : Nat} {blocks : Nat → Nat}
    (h : writeTable d t blocks = some d') :
    t ≤ maxLba ∧ (∀ a, a / 512 ≠ t → d' a = d a) ∧
      ∀ k, 12 ≤ k → k < 140 → blocks k < 2 ^ 32 → d'.rd32 (512 * t + 4 * (k - 12)) = blocks k := by
  simp only [writeTable, ideWrite_eq_some] at h
  obtain ⟨hmax, -, rfl⟩ := h
  refine ⟨hmax, fun a ha => Mem.blit_out (by omega), fun k h1 h2 hw => ?_⟩
  have hk : k - 12 + 12 = k := by omega
  calc (d.blit (512 * t) (Mem.ofWords fun j => blocks (j + 12)) (512 * 1)).rd32
          (512 * t + 4 * (k - 12))
      = (Mem.ofWords fun j => blocks (j + 12)).rd32 (4 * (k - 12)) :=
        Mem.rd32_congr fun i hi => by rw [Nat.add_assoc, Mem.blit_add (by omega)]
    _ = blocks (k - 12 + 12) := Mem.rd32_ofWords (by rw [hk]; exact hw)
    _ = blocks k := by rw [hk]

/-! ## The four cases -/

/-- What `collectWrite` leaves behind. -/
structure Collect (has will : Nat) (v : Vol p) (ino : Inode) (v' : Vol p) (ino' : Inode)
    (blocks : Nat → Nat) : Prop where
  mono : ∀ b, v.Used b → v'.Used b
  inodes : v'.inodeBitmap = v.inodeBitmap
  disk : ∀ a, a < 512 * p.blockBitmapLba ∨ 512 * p.inodeBitmapLba ≤ a →
    (ino'.sec 12 ≠ 0 → a / 512 ≠ ino'.sec 12) → v'.disk a = v.disk a
  block : ∀ k, k < 140 → fileBlock v'.disk ino' k =
    if has ≤ k ∧ k < will then blocks k else fileBlock v.disk ino k
  new : ∀ k, has ≤ k → k < will → Fresh v v' (blocks k)
  inj : ∀ k l, has ≤ k → k < will → has ≤ l → l < will → blocks k = blocks l → k = l
  table : ino'.sec 12 = ino.sec 12 ∨
    (12 < will ∧ Fresh v v' (ino'.sec 12) ∧ ∀ k, has ≤ k → k < will → blocks k ≠ ino'.sec 12)
  onDisk : 12 < will → ino'.sec 12 ≠ 0 ∧ ino'.sec 12 ≤ maxLba
  listed : ∀ k, k < 140 → blocks k = 0 ∨ blocks k = fileBlock v'.disk ino' k
  cover : ∀ k, has ≤ k + 1 → k < will → blocks k = fileBlock v'.disk ino' k
  size : ino'.size = ino.size
  no : ino'.no = ino.no

/-- Everything stays in the last block. -/
theorem collect_same {has : Nat} {v : Vol p} {ino : Inode} {blocks : Nat → Nat}
    (hb : ∀ k, k < 140 → blocks k = 0 ∨ blocks k = fileBlock v.disk ino k)
    (hlast : blocks (has - 1) = fileBlock v.disk ino (has - 1))
    (htab : 12 < has → ino.sec 12 ≠ 0 ∧ ino.sec 12 ≤ maxLba) :
    Collect has has v ino v ino blocks where
  mono _ h := h
  inodes := rfl
  disk _ _ _ := rfl
  block k _ := by rw [if_neg (by omega)]
  new k h1 h2 := by omega
  inj k l h1 h2 := by omega
  table := Or.inl rfl
  onDisk := htab
  listed := hb
  cover k h1 h2 := by rw [show k = has - 1 by omega]; exact hlast
  size := rfl
  no := rfl

/-- Situation 1: direct blocks only. -/
theorem collect_direct {has will : Nat} {v v' : Vol p} {ino ino' : Inode} {blocks : Nat → Nat}
    (h1 : 1 ≤ has) (h2 : has ≤ will) (h3 : will ≤ 12)
    (htab : ino.sec 12 ≠ 0 → p.dataStartLba ≤ ino.sec 12)
    (h : GrowLoop has (will - has) v ino (setWord (fun _ => 0) (has - 1) (ino.sec (has - 1)))
      v' ino' blocks) : Collect has will v ino v' ino' blocks := by
  have h12 : ino'.sec 12 = ino.sec 12 := by rw [h.sec, if_neg (by omega)]
  have hblock : ∀ k, k < 140 → fileBlock v'.disk ino' k =
      if has ≤ k ∧ k < will then blocks k else fileBlock v.disk ino k := by
    intro k hk
    by_cases hlt : k < 12
    · rw [fileBlock_direct _ _ hlt, fileBlock_direct _ _ hlt, h.sec]
      by_cases hin : has ≤ k ∧ k < will
      · rw [if_pos hin, if_pos (by omega)]
      · rw [if_neg hin, if_neg (by omega)]
    · rw [if_neg (by omega)]
      by_cases h0 : ino.sec 12 = 0
      · rw [fileBlock_no_table _ (by omega) (h12.trans h0), fileBlock_no_table _ (by omega) h0]
      · have hd := htab h0
        rw [fileBlock_indirect _ (by omega) hk (h12 ▸ h0), fileBlock_indirect _ (by omega) hk h0,
          h12]
        exact Mem.rd32_congr fun i hi => h.grow.data (by omega)
  have hlast : blocks (has - 1) = ino.sec (has - 1) := by
    rw [h.keep _ (Or.inl (by omega)), setWord, if_pos rfl]
  have hcover : ∀ k, has ≤ k + 1 → k < will → blocks k = fileBlock v'.disk ino' k := by
    intro k hk1 hk2
    rw [hblock k (by omega)]
    by_cases hin : has ≤ k
    · rw [if_pos ⟨hin, hk2⟩]
    · rw [if_neg (by omega), show k = has - 1 by omega, hlast, fileBlock_direct _ _ (by omega)]
  exact {
    mono := h.grow.mono
    inodes := h.grow.inodes
    disk := fun a ha _ => h.grow.disk a ha
    block := hblock
    new := fun k hk1 hk2 => h.new k hk1 (by omega)
    inj := fun k l a1 a2 a3 a4 he => h.inj k l a1 (by omega) a3 (by omega) he
    table := Or.inl h12
    onDisk := fun hgt => by omega
    listed := fun k _ => by
      by_cases hin : has ≤ k + 1 ∧ k < will
      · exact Or.inr (hcover k hin.1 hin.2)
      · rw [h.keep k (by omega), setWord, if_neg (by omega)]
        exact Or.inl rfl
    cover := hcover
    size := h.size
    no := h.no }

/-- The table has just been written from `all_blocks`, whose entries past the
direct ones are the new blocks or what the old inode had there. -/
theorem collect_table {has will : Nat} {v v1 v2 : Vol p} {ino ino1 ino2 : Inode} {d : Mem}
    {blocks0 blocks : Nat → Nat} (h2 : has ≤ will) (h3 : 12 < will)
    (h4 : will ≤ 140) (hg : Grow v v1)
    (h : GrowLoop has (will - has) v1 ino1 blocks0 v2 ino2 blocks)
    (hw : writeTable v2.disk (ino2.sec 12) blocks = some d)
    (hsec : ∀ k, k < 12 → ino1.sec k = ino.sec k) (hsize : ino1.size = ino.size)
    (hno : ino1.no = ino.no) (hnz : ino1.sec 12 ≠ 0)
    (hold : ∀ k, k < has ∨ will ≤ k → 12 ≤ k → k < 140 → blocks0 k = fileBlock v.disk ino k)
    (hlast : has ≤ 12 → blocks0 (has - 1) = ino.sec (has - 1))
    (hzero : ∀ k, k < 12 → k + 1 ≠ has → blocks0 k = 0)
    (htab : ino1.sec 12 = ino.sec 12 ∨ Fresh v v1 (ino1.sec 12)) :
    Collect has will v ino { v2 with disk := d } ino2 blocks := by
  obtain ⟨hmax, hframe, hentry⟩ := writeTable_spec hw
  have h12 : ino2.sec 12 = ino1.sec 12 := by rw [h.sec, if_neg (by omega)]
  have hg2 := hg.trans h.grow
  have hnew : ∀ k, has ≤ k → k < will → Fresh v v2 (blocks k) :=
    fun k a1 a2 => (h.new k a1 (by omega)).back hg
  have hkeep : ∀ k, k < has ∨ will ≤ k → blocks k = blocks0 k := fun k hk => h.keep k (by omega)
  have hword : ∀ k, 12 ≤ k → k < 140 → blocks k < 2 ^ 32 := by
    intro k a1 a2
    by_cases hin : has ≤ k ∧ k < will
    · have := (hnew k hin.1 hin.2).word
      omega
    · rw [hkeep k (by omega), hold k (by omega) a1 a2]
      exact fileBlock_lt _ _ _
  have hblock : ∀ k, k < 140 → fileBlock d ino2 k =
      if has ≤ k ∧ k < will then blocks k else fileBlock v.disk ino k := by
    intro k hk
    by_cases hlt : k < 12
    · rw [fileBlock_direct _ _ hlt, fileBlock_direct _ _ hlt, h.sec, hsec k hlt]
      by_cases hin : has ≤ k ∧ k < will
      · rw [if_pos hin, if_pos (by omega)]
      · rw [if_neg hin, if_neg (by omega)]
    · rw [fileBlock_indirect _ (by omega) hk (h12 ▸ hnz), hentry k (by omega) hk (hword k (by omega) hk)]
      by_cases hin : has ≤ k ∧ k < will
      · rw [if_pos hin]
      · rw [if_neg hin, hkeep k (by omega), hold k (by omega) (by omega) hk]
  have hcover : ∀ k, has ≤ k + 1 → k < will → blocks k = fileBlock d ino2 k := by
    intro k hk1 hk2
    rw [hblock k (by omega)]
    by_cases hin : has ≤ k
    · rw [if_pos ⟨hin, hk2⟩]
    · rw [if_neg (by omega), hkeep k (by omega)]
      by_cases hlt : k < 12
      · rw [fileBlock_direct _ _ hlt, show k = has - 1 by omega]
        exact hlast (by omega)
      · exact hold k (by omega) (by omega) (by omega)
  exact {
    mono := hg2.mono
    inodes := hg2.inodes
    disk := fun a ha hne => (hframe a (hne (h12 ▸ hnz))).trans (hg2.disk a ha)
    block := hblock
    new := fun k a1 a2 => ⟨(hnew k a1 a2).data, (hnew k a1 a2).word, (hnew k a1 a2).free,
      (hnew k a1 a2).used⟩
    inj := fun k l a1 a2 a3 a4 he => h.inj k l a1 (by omega) a3 (by omega) he
    table := by
      rw [h12]
      rcases htab with hsame | hf
      · exact Or.inl hsame
      · refine Or.inr ⟨h3, ⟨hf.data, hf.word, hf.free, h.grow.mono _ hf.used⟩, fun k a1 a2 he => ?_⟩
        exact (h.new k a1 (by omega)).free (he ▸ hf.used)
    onDisk := fun _ => ⟨h12 ▸ hnz, hmax⟩
    listed := fun k hk => by
      by_cases hin : has ≤ k + 1 ∧ k < will
      · exact Or.inr (hcover k hin.1 hin.2)
      · by_cases hlt : k < 12
        · exact Or.inl ((hkeep k (by omega)).trans (hzero k hlt (by omega)))
        · apply Or.inr
          rw [hblock k hk, if_neg (by omega), hkeep k (by omega)]
          exact hold k (by omega) (by omega) hk
    cover := hcover
    size := h.size.trans hsize
    no := h.no.trans hno }

/-- **Blocks for a write.** -/
theorem collectWrite_spec {has will : Nat} {v v' : Vol p} {ino ino' : Inode}
    {blocks : Nat → Nat} {ok : Bool} (h1 : 1 ≤ has) (h2 : has ≤ will) (h3 : will ≤ 140)
    (htab : ino.sec 12 ≠ 0 → p.dataStartLba ≤ ino.sec 12)
    (h : collectWrite blockBitmapAlloc v ino has will = some (ok, v', ino', blocks)) :
    ok = true ∧ Collect has will v ino v' ino' blocks := by
  unfold collectWrite at h
  dsimp only at h
  split at h
  next hsame =>
    subst hsame
    split at h
    next h12 =>
      simp only [Option.pure_def, Option.some.injEq, Prod.mk.injEq] at h
      obtain ⟨rfl, rfl, rfl, rfl⟩ := h
      refine ⟨rfl, collect_same (fun k _ => ?_) ?_ (fun hgt => by omega)⟩
      · by_cases hk : k = will - 1
        · rw [setWord, if_pos hk, hk, fileBlock_direct _ _ (by omega)]
          exact Or.inr rfl
        · exact Or.inl (if_neg hk)
      · rw [setWord, if_pos rfl, fileBlock_direct _ _ (by omega)]
    next h12 =>
      simp only [Option.bind_eq_bind, Option.bind_eq_some_iff, ensure_eq_some, Option.pure_def,
        Option.some.injEq, Prod.mk.injEq, exists_const] at h
      obtain ⟨hnz, blocks', hread, rfl, rfl, rfl, rfl⟩ := h
      obtain ⟨hmax, hread⟩ := readTable_spec hread
      have hb : ∀ k, 12 ≤ k → k < 140 → blocks' k = fileBlock v.disk ino k := fun k a1 a2 => by
        rw [hread, if_pos ⟨a1, a2⟩, fileBlock_indirect _ a1 a2 hnz]
      refine ⟨rfl, collect_same (fun k hk => ?_) (hb _ (by omega) (by omega)) fun _ => ⟨hnz, hmax⟩⟩
      by_cases h12' : 12 ≤ k
      · exact Or.inr (hb k h12' hk)
      · exact Or.inl (by rw [hread, if_neg (by omega)])
  next hne =>
    split at h
    next h12 =>
      simp only [Option.bind_eq_bind, Option.bind_eq_some_iff, ensure_eq_some, exists_const] at h
      obtain ⟨-, h⟩ := h
      obtain ⟨hok, hg⟩ := growLoop_spec h
      exact ⟨hok, collect_direct h1 h2 h12 htab hg⟩
    next h12 =>
      split at h
      next hhas =>
        simp only [Option.bind_eq_bind, Option.bind_eq_some_iff, Prod.exists] at h
        obtain ⟨lba, v1, halloc, h⟩ := h
        obtain ⟨hm1, hfresh, hgrow, -, -, -⟩ := alloc_spec halloc
        rw [if_neg hm1] at h
        simp only [Option.bind_eq_some_iff, ensure_eq_some, Prod.exists, exists_const] at h
        obtain ⟨h0, ok', v2, ino2, blocks2, hloop, h⟩ := h
        obtain ⟨rfl, hg⟩ := growLoop_spec hloop
        simp only [Bool.not_true, Bool.false_eq_true, if_false, Option.bind_eq_some_iff,
          Option.pure_def, Option.some.injEq, Prod.mk.injEq] at h
        obtain ⟨d, hw, rfl, rfl, rfl, rfl⟩ := h
        have hb32 : lba.toNat < 2 ^ 32 := by have := hfresh.word; omega
        have h12' : (ino.setSec 12 lba.toNat).sec 12 = lba.toNat := by
          rw [Inode.sec_setSec (by decide) hb32, if_pos rfl]
        refine ⟨rfl, collect_table h2 (by omega) h3 hgrow hg hw (fun k hk => ?_) rfl rfl ?_
          (fun k hk a1 a2 => ?_) (fun _ => if_pos rfl) (fun k _ hk => if_neg (by omega)) ?_⟩
        · rw [Inode.sec_setSec (by decide) hb32, if_neg (by omega)]
        · rw [h12']
          exact hfresh.ne_zero
        · rw [setWord, if_neg (by omega), fileBlock_no_table _ a1 h0]
        · rw [h12']
          exact Or.inr hfresh
      next hhas =>
        simp only [Option.bind_eq_bind, Option.bind_eq_some_iff, ensure_eq_some, Prod.exists,
          exists_const] at h
        obtain ⟨hnz, blocks0, hread, ok', v2, ino2, blocks2, hloop, h⟩ := h
        obtain ⟨rfl, hg⟩ := growLoop_spec hloop
        simp only [Bool.not_true, Bool.false_eq_true, if_false, Option.bind_eq_some_iff,
          Option.pure_def, Option.some.injEq, Prod.mk.injEq] at h
        obtain ⟨d, hw, rfl, rfl, rfl, rfl⟩ := h
        obtain ⟨-, hread⟩ := readTable_spec hread
        refine ⟨rfl, collect_table h2 (by omega) h3 (Grow.refl v) hg hw (fun _ _ => rfl) rfl rfl
          hnz (fun k _ a1 a2 => ?_) (fun hle => by omega) (fun k hk _ => ?_) (Or.inl rfl)⟩
        · rw [hread, if_pos ⟨a1, a2⟩, fileBlock_indirect _ a1 a2 hnz]
        · rw [hread, if_neg (by omega)]

/-! ## The copy loop -/

/-- What the copy loop does with `n` bytes left, at size `s`: byte `j` of the
file goes to block `j / 512`, and only those blocks are written. When two bytes
of the range fall in one sector only if they fall in one block (`Apart`), the
bytes stay where they were put, and the first sector keeps its old front. -/
structure Written (blocks : Nat → Nat) (buf : Mem) (bw n s : Nat) (first : Bool) (d d' : Mem) :
    Prop where
  room : 0 < n → s + n ≤ 512 * 140
  reach : ∀ j, s ≤ j → j < s + n → blocks (j / 512) ≤ maxLba
  frame : ∀ a, (∀ j, s ≤ j → j < s + n → blocks (j / 512) ≠ a / 512) → d' a = d a
  bytes : (∀ i j, s ≤ i → i < s + n → s ≤ j → j < s + n →
      blocks (i / 512) = blocks (j / 512) → i / 512 = j / 512) →
    (∀ j, s ≤ j → j < s + n → d' (512 * blocks (j / 512) + j % 512) = buf (bw + (j - s))) ∧
    (first = true → ∀ o, o < s % 512 →
      d' (512 * blocks (s / 512) + o) = d (512 * blocks (s / 512) + o))

/-- The sector written in one round, read at offset `o`. -/
theorem sector_blit {d : Mem} {lba o c : Nat} {src : Mem} {first : Bool} {buf : Mem}
    (hbuf : (if first then ideRead d lba Mem.zero 1 else some Mem.zero) = some buf) {i : Nat}
    (hi : i < 512) :
    d.blit (512 * lba) (buf.blit o src c) (512 * 1) (512 * lba + i) =
      if o ≤ i ∧ i < o + c then src (i - o) else if first then d (512 * lba + i) else 0 := by
  rw [Mem.blit_add (by omega)]
  by_cases hin : o ≤ i ∧ i < o + c
  · rw [if_pos hin, Mem.blit_in hin.1 hin.2]
  · rw [if_neg hin, Mem.blit_out (by omega)]
    cases first with
    | true =>
      obtain ⟨-, -, rfl⟩ := ideRead_eq_some.mp hbuf
      rw [Mem.blit_in (by omega) (by omega), Mem.shift, Nat.sub_zero, if_pos rfl]
    | false =>
      obtain rfl := Option.some.inj hbuf
      rfl

/-- One round of the loop, then the rest. -/
theorem Written.cons {blocks : Nat → Nat} {buf ioBuf : Mem} {bw n s c : Nat} {first : Bool}
    {d d' : Mem} (hn : 0 < n) (hroom : s / 512 < 140)
    (hc : c = min n (512 - s % 512))
    (hbuf : (if first then ideRead d (blocks (s / 512)) Mem.zero 1 else some Mem.zero) = some ioBuf)
    (hmax : blocks (s / 512) ≤ maxLba)
    (h : Written blocks buf (bw + c) (n - c) (s + c) false
      (d.blit (512 * blocks (s / 512)) (ioBuf.blit (s % 512) (buf.shift bw) c) (512 * 1)) d') :
    Written blocks buf bw n s first d d' := by
  have hcn : c ≤ n := by omega
  have hc0 : 0 < c := by omega
  have hc512 : s % 512 + c ≤ 512 := by omega
  -- bytes of this round are in the first block, later ones are not
  have hhere : ∀ j, s ≤ j → j < s + c → j / 512 = s / 512 := fun j a1 a2 => by omega
  have hlater : ∀ j, s + c ≤ j → j < s + c + (n - c) → j / 512 ≠ s / 512 := fun j a1 a2 => by
    omega
  refine ⟨fun _ => ?_, fun j a1 a2 => ?_, fun a ha => ?_, fun hinj => ?_⟩
  · by_cases hnc : 0 < n - c
    · have := h.room hnc
      omega
    · omega
  · by_cases hj : j < s + c
    · rw [hhere j a1 hj]
      exact hmax
    · exact h.reach j (by omega) (by omega)
  · have hne := ha s (by omega) (by omega)
    rw [h.frame a fun j a1 a2 => ha j (by omega) (by omega)]
    exact Mem.blit_out (by omega)
  · have hrest := (h.bytes fun i j a1 a2 a3 a4 => hinj i j (by omega) (by omega) (by omega)
      (by omega)).1
    have hkeep : ∀ i, i < 512 → d' (512 * blocks (s / 512) + i) =
        if s % 512 ≤ i ∧ i < s % 512 + c then buf.shift bw (i - s % 512)
        else if first then d (512 * blocks (s / 512) + i) else 0 := by
      intro i hi
      rw [← sector_blit hbuf hi]
      refine h.frame _ fun j a1 a2 he => hlater j a1 a2 ?_
      apply hinj j s (by omega) (by omega) (by omega) (by omega)
      rw [he]
      omega
    refine ⟨fun j a1 a2 => ?_, fun hfirst o ho => ?_⟩
    · by_cases hj : j < s + c
      · rw [hhere j a1 hj, hkeep _ (by omega), if_pos (by omega), Mem.shift]
        congr 1
        omega
      · rw [hrest j (by omega) (by omega)]
        congr 1
        omega
    · rw [hkeep o (by omega), if_neg (by omega), if_pos hfirst]

theorem writeLoop_spec {blocks : Nat → Nat} {buf : Mem} {count : Nat} :
    ∀ {fuel : Nat} {v v' : Vol p} {f f' : File} {bw bw' : Nat} {first : Bool}, bw ≤ count →
    writeLoop blocks buf count fuel v f bw first = some (v', f', bw') →
    bw' = count ∧ v' = { v with disk := v'.disk } ∧
      f'.inode = f.inode.setSize (f.inode.size + (count - bw)) ∧
      Written blocks buf bw (count - bw) f.inode.size first v.disk v'.disk := by
  intro fuel
  induction fuel with
  | zero =>
    intro v v' f f' bw bw' first hle h
    unfold writeLoop at h
    split at h
    next => exact absurd h (by simp)
    next hge =>
      simp only [Option.some.injEq, Prod.mk.injEq] at h
      obtain ⟨rfl, rfl, rfl⟩ := h
      rw [show count - bw = 0 by omega]
      refine ⟨by omega, rfl, by simp [Inode.setSize, Inode.size], ?_⟩
      exact ⟨fun h => absurd h (by omega), fun j _ _ => by omega, fun _ _ => rfl,
        fun _ => ⟨fun j _ _ => by omega, fun _ _ _ => rfl⟩⟩
  | succ fuel ih =>
    intro v v' f f' bw bw' first hle h
    unfold writeLoop at h
    split at h
    next hlt =>
      simp only [Option.bind_eq_bind, Option.bind_eq_some_iff, ensure_eq_some, exists_const] at h
      obtain ⟨hroom, ioBuf, hbuf, disk, hwrite, hrec⟩ := h
      obtain ⟨hmax, -, rfl⟩ := ideWrite_eq_some.mp hwrite
      rw [chunkSize_eq] at hrec
      generalize hc : min (count - bw) (512 - f.inode.size % 512) = c at hrec
      obtain ⟨hbw, hv, hino, hw⟩ := ih (by omega) hrec
      have hs : (f.inode.setSize (f.inode.size + c)).size = f.inode.size + c :=
        Inode.size_setSize (by omega)
      dsimp only at hv hino hw
      rw [hs] at hino hw
      refine ⟨hbw, hv, ?_, ?_⟩
      · rw [hino, show f.inode.size + c + (count - (bw + c)) = f.inode.size + (count - bw) by omega]
        rfl
      · rw [show count - (bw + c) = count - bw - c by omega] at hw
        exact hw.cons (by omega) hroom hc.symm hbuf hmax
    next hge =>
      simp only [Option.some.injEq, Prod.mk.injEq] at h
      obtain ⟨rfl, rfl, rfl⟩ := h
      rw [show count - bw = 0 by omega]
      refine ⟨by omega, rfl, by simp [Inode.setSize, Inode.size], ?_⟩
      exact ⟨fun h => absurd h (by omega), fun j _ _ => by omega, fun _ _ => rfl,
        fun _ => ⟨fun j _ _ => by omega, fun _ _ _ => rfl⟩⟩

/-! ## The whole write -/

theorem Collect.extends {has will : Nat} {v v' : Vol p} {ino ino' : Inode} {blocks : Nat → Nat}
    (h : Collect has will v ino v' ino' blocks) (hv : Held v ino) :
    Extends v ino v' ino' := by
  have hblock : ∀ k, k < 140 → (slot v'.disk ino' k = slot v.disk ino k) ∨
      (has ≤ k ∧ k < will ∧ slot v'.disk ino' k = blocks k) := by
    intro k hk
    rw [slot_block _ _ hk, slot_block _ _ hk, h.block k hk]
    by_cases hin : has ≤ k ∧ k < will
    · exact Or.inr ⟨hin.1, hin.2, if_pos hin⟩
    · exact Or.inl (if_neg hin)
  have hrest : ∀ k, 140 < k → slot v'.disk ino' k = 0 ∧ slot v.disk ino k = 0 := fun k hk => by
    simp [slot, show k ≠ 140 by omega, fileBlock_ge _ _ (show 140 ≤ k by omega)]
  have hslot : ∀ k, slot v'.disk ino' k = slot v.disk ino k ∨
      Fresh v v' (slot v'.disk ino' k) := by
    intro k
    rcases Nat.lt_trichotomy k 140 with hk | rfl | hk
    · rcases hblock k hk with hs | ⟨a1, a2, hs⟩
      · exact Or.inl hs
      · rw [hs]
        exact Or.inr (h.new k a1 a2)
    · rw [slot_table, slot_table]
      rcases h.table with hs | ⟨-, hf, -⟩
      · exact Or.inl hs
      · exact Or.inr hf
    · exact Or.inl ((hrest k hk).1.trans (hrest k hk).2.symm)
  -- a slot holding a block that was free is a new block or the new table
  have hnew : ∀ k, Fresh v v' (slot v'.disk ino' k) →
      (has ≤ k ∧ k < will ∧ slot v'.disk ino' k = blocks k) ∨
      (k = 140 ∧ ∀ l, has ≤ l → l < will → blocks l ≠ slot v'.disk ino' k) := by
    intro k hf
    have hold : slot v'.disk ino' k ≠ slot v.disk ino k := fun he =>
      hf.free (he ▸ hv.used k (he ▸ hf.ne_zero))
    rcases Nat.lt_trichotomy k 140 with hk | rfl | hk
    · rcases hblock k hk with hs | hs
      · exact absurd hs hold
      · exact Or.inl hs
    · rw [slot_table, slot_table] at hold
      rw [slot_table]
      rcases h.table with hs | ⟨-, -, hne⟩
      · exact absurd hs hold
      · exact Or.inr ⟨rfl, hne⟩
    · exact absurd ((hrest k hk).1.trans (hrest k hk).2.symm) hold
  refine ⟨h.mono, hslot, fun k l he hf => ?_⟩
  rcases hnew k hf with ⟨k1, k2, hk⟩ | ⟨rfl, hk⟩
  · rcases hnew l (he ▸ hf) with ⟨l1, l2, hl⟩ | ⟨rfl, hl⟩
    · exact h.inj k l k1 k2 l1 l2 (by rw [← hk, ← hl, he])
    · exact absurd (hk.symm.trans he) (hl k k1 k2)
  · rcases hnew l (he ▸ hf) with ⟨l1, l2, hl⟩ | ⟨rfl, -⟩
    · exact absurd (hl.symm.trans he.symm) (hk l l1 l2)
    · rfl

/-- The first write to a file takes a block for slot 0, if that is empty. -/
structure First (v : Vol p) (ino : Inode) (v' : Vol p) (ino' : Inode) : Prop where
  grow : Grow v v'
  nonzero : ino'.sec 0 ≠ 0
  zero : ino'.sec 0 = ino.sec 0 ∨ ino.sec 0 = 0 ∧ Fresh v v' (ino'.sec 0)
  rest : ∀ k, k ≠ 0 → ino'.sec k = ino.sec k
  size : ino'.size = ino.size
  no : ino'.no = ino.no

theorem firstBlock_spec {v v' : Vol p} {ino ino' : Inode} {ok : Bool}
    (h : firstBlock blockBitmapAlloc v ino = some (ok, v', ino')) :
    ok = true ∧ First v ino v' ino' := by
  unfold firstBlock at h
  split at h
  next h0 =>
    simp only [Option.bind_eq_bind, Option.bind_eq_some_iff, Prod.exists] at h
    obtain ⟨lba, v1, halloc, h⟩ := h
    obtain ⟨hm1, hfresh, hgrow, -, hidx, -⟩ := alloc_spec halloc
    rw [if_neg hm1] at h
    simp only [Option.bind_eq_some_iff, ensure_eq_some, exists_const, Option.pure_def,
      Option.some.injEq, Prod.mk.injEq] at h
    obtain ⟨-, v2, hsync, rfl, rfl, rfl⟩ := h
    obtain ⟨hgrow2, -⟩ := sync_grow hidx hsync
    have hsec : ∀ k, (ino.setSec 0 lba.toNat).sec k = if k = 0 then lba.toNat else ino.sec k :=
      Inode.sec_setSec (by decide) (by have := hfresh.word; omega)
    refine ⟨rfl, hgrow.trans hgrow2, ?_, ?_, fun k hk => ?_, rfl, rfl⟩
    · rw [hsec, if_pos rfl]
      exact hfresh.ne_zero
    · rw [hsec, if_pos rfl]
      exact Or.inr ⟨h0, hfresh.mono hgrow2⟩
    · rw [hsec, if_neg hk]
  next h0 =>
    simp only [Option.pure_def, Option.some.injEq, Prod.mk.injEq] at h
    obtain ⟨rfl, rfl, rfl⟩ := h
    exact ⟨rfl, Grow.refl v, h0, Or.inl rfl, fun _ _ => rfl, rfl, rfl⟩

theorem First.block {v v' : Vol p} {ino ino' : Inode} (h : First v ino v' ino')
    (hv : Held v ino) {k : Nat} (hk : k ≠ 0) : fileBlock v'.disk ino' k = fileBlock v.disk ino k := by
  unfold fileBlock
  rw [h.rest k hk, h.rest 12 (by decide)]
  split
  · rfl
  · split
    next hin =>
      have := hv.table hin.2
      exact Mem.rd32_congr fun i _ => h.grow.data (by omega)
    next => rfl

theorem First.extends {v v' : Vol p} {ino ino' : Inode} (h : First v ino v' ino')
    (hv : Held v ino) : Extends v ino v' ino' := by
  have hne : ∀ k, k ≠ 0 → slot v'.disk ino' k = slot v.disk ino k := by
    intro k hk
    unfold slot
    split
    · exact h.rest 12 (by decide)
    · exact h.block hv hk
  have h0 : slot v'.disk ino' 0 = ino'.sec 0 := by
    rw [slot_block _ _ (by decide), fileBlock_direct _ _ (by decide)]
  have hold : ∀ k, slot v'.disk ino' k = slot v.disk ino k → ¬Fresh v v' (slot v'.disk ino' k) :=
    fun k he hf => hf.free (he ▸ hv.used k (he ▸ hf.ne_zero))
  refine ⟨h.grow.mono, fun k => ?_, fun k l he hf => ?_⟩
  · by_cases hk : k = 0
    · subst hk
      rw [h0, slot_block v.disk _ (by decide), fileBlock_direct v.disk _ (by decide)]
      rcases h.zero with hs | ⟨-, hf⟩
      · exact Or.inl hs
      · exact Or.inr hf
    · exact Or.inl (hne k hk)
  · have hzero : ∀ m, Fresh v v' (slot v'.disk ino' m) → m = 0 := fun m hm =>
      Decidable.byContradiction fun hm0 => hold m (hne m hm0) hm
    rw [hzero k hf, hzero l (he ▸ hf)]

/-- Sectors the file system writes besides data: the block bitmap's and the
slot of inode `no`. -/
def MetaAddr (p : Partition) (no a : Nat) : Prop :=
  (512 * p.blockBitmapLba ≤ a ∧ a < 512 * p.inodeBitmapLba) ∨
    (p.slotAddr (no % 256) ≤ a ∧ a < p.slotAddr (no % 256) + 76)

theorem not_metaAddr_of_data {no a : Nat} (h : 512 * p.dataStartLba ≤ a) : ¬MetaAddr p no a := by
  have h1 := inodeBitmapLba_le_dataStart p
  have h2 := p.slotAddr_le (show no % 256 < 4096 by omega)
  rintro (h3 | h3) <;> omega

/-- A write that went through. `s` is the old size; the blocks touched are those
from the old last block to the new last block. -/
structure FileWritten (v : Vol p) (f : File) (buf : Mem) (count : Nat) (v' : Vol p) (f' : File) :
    Prop where
  room : (f.inode.size + count) / 512 < 140
  saved : SlotHolds p v'.disk (f.inode.no % 256) f'.inode.pureInode
  ext : Extends v f.inode v' f'.inode
  inodes : v'.inodeBitmap = v.inodeBitmap
  size : f'.inode.size = f.inode.size + count
  no : f'.inode.no = f.inode.no
  first : f'.inode.sec 0 ≠ 0
  keep : ∀ k, k ≤ f.inode.size / 512 → fileBlock v.disk f.inode k ≠ 0 →
    fileBlock v'.disk f'.inode k = fileBlock v.disk f.inode k
  new : ∀ k, f.inode.size / 512 < k → k ≤ (f.inode.size + count) / 512 →
    fileBlock v'.disk f'.inode k ≠ 0
  table : f'.inode.sec 12 = f.inode.sec 12 ∨ f'.inode.sec 12 ≤ maxLba
  frame : ∀ a, ¬MetaAddr p f.inode.no a → a / 512 ≠ 0 → a / 512 ≠ f'.inode.sec 12 →
    (∀ k, f.inode.size / 512 ≤ k → k ≤ (f.inode.size + count) / 512 →
      fileBlock v'.disk f'.inode k ≠ a / 512) → v'.disk a = v.disk a
  reach : ∀ j, f.inode.size ≤ j → j < f.inode.size + count →
    fileBlock v'.disk f'.inode (j / 512) ≤ maxLba
  bytes : fileBlock v'.disk f'.inode (f.inode.size / 512) ≠ 0 →
    (∀ j, f.inode.size ≤ j → j < f.inode.size + count →
      v'.disk (512 * fileBlock v'.disk f'.inode (j / 512) + j % 512) = buf (j - f.inode.size)) ∧
    (∀ o, o < f.inode.size % 512 →
      v'.disk (512 * fileBlock v'.disk f'.inode (f.inode.size / 512) + o) =
        v.disk (512 * fileBlock v'.disk f'.inode (f.inode.size / 512) + o))

/-- Whatever the block counts are, the allocator does not refuse and the size
is kept. -/
theorem collectWrite_kept {has will : Nat} {v v' : Vol p} {ino ino' : Inode}
    {blocks : Nat → Nat} {ok : Bool}
    (h : collectWrite blockBitmapAlloc v ino has will = some (ok, v', ino', blocks)) :
    ok = true ∧ ino'.size = ino.size ∧ ino'.no = ino.no := by
  unfold collectWrite at h
  dsimp only at h
  split at h
  · split at h
    · simp only [Option.pure_def, Option.some.injEq, Prod.mk.injEq] at h
      obtain ⟨rfl, -, rfl, -⟩ := h
      exact ⟨rfl, rfl, rfl⟩
    · simp only [Option.bind_eq_bind, Option.bind_eq_some_iff, Option.pure_def,
        Option.some.injEq, Prod.mk.injEq] at h
      obtain ⟨_, _, _, _, rfl, _, rfl, _⟩ := h
      exact ⟨rfl, rfl, rfl⟩
  · split at h
    · simp only [Option.bind_eq_bind, Option.bind_eq_some_iff] at h
      obtain ⟨_, _, h⟩ := h
      obtain ⟨hok, hg⟩ := growLoop_spec h
      exact ⟨hok, hg.size, hg.no⟩
    · split at h
      · simp only [Option.bind_eq_bind, Option.bind_eq_some_iff, Prod.exists] at h
        obtain ⟨lba, v1, halloc, h⟩ := h
        rw [if_neg (alloc_spec halloc).1] at h
        simp only [Option.bind_eq_some_iff, Prod.exists] at h
        obtain ⟨_, _, ok', v2, ino2, blocks2, hloop, h⟩ := h
        obtain ⟨rfl, hg⟩ := growLoop_spec hloop
        simp only [Bool.not_true, Bool.false_eq_true, if_false, Option.bind_eq_some_iff,
          Option.pure_def, Option.some.injEq, Prod.mk.injEq] at h
        obtain ⟨_, _, rfl, _, rfl, _⟩ := h
        exact ⟨rfl, hg.size, hg.no⟩
      · simp only [Option.bind_eq_bind, Option.bind_eq_some_iff, Prod.exists] at h
        obtain ⟨_, _, _, _, ok', v2, ino2, blocks2, hloop, h⟩ := h
        obtain ⟨rfl, hg⟩ := growLoop_spec hloop
        simp only [Bool.not_true, Bool.false_eq_true, if_false, Option.bind_eq_some_iff,
          Option.pure_def, Option.some.injEq, Prod.mk.injEq] at h
        obtain ⟨_, _, rfl, _, rfl, _⟩ := h
        exact ⟨rfl, hg.size, hg.no⟩

theorem collectWrite_size {has will : Nat} {v v' : Vol p} {ino ino' : Inode}
    {blocks : Nat → Nat} {ok : Bool}
    (h : collectWrite blockBitmapAlloc v ino has will = some (ok, v', ino', blocks)) :
    ok = true ∧ ino'.size = ino.size :=
  ⟨(collectWrite_kept h).1, (collectWrite_kept h).2.1⟩

/-- The copy loop writes no sector of a table, so block addresses survive it. -/
theorem Written.slot {has will s n : Nat} {v v' : Vol p} {ino ino' : Inode} {blocks : Nat → Nat}
    {buf d' : Mem} (h : Collect has will v ino v' ino' blocks) (hv' : Held v' ino')
    (hwill : will ≤ 140) (hhas : has = s / 512 + 1) (hn : n = 0 ∨ (s + n) / 512 < will)
    (hw : Written blocks buf 0 n s true v'.disk d') (k : Nat) :
    Fs.slot d' ino' k = Fs.slot v'.disk ino' k := by
  refine slot_congr (fun _ => rfl) (fun hne a ha => hw.frame a fun j a1 a2 => ?_) k
  rw [h.cover (j / 512) (by omega) (by omega), ha]
  by_cases h0 : fileBlock v'.disk ino' (j / 512) = 0
  · rw [h0]
    exact hne.symm
  · exact (hv'.block (by omega) h0).2

/-- The three stages of a write and the sync of the inode, put together. -/
theorem FileWritten.of_stages {v v1 v2 v4 : Vol p} {f f' : File} {ino1 ino2 : Inode}
    {blocks : Nat → Nat} {buf d : Mem} {count : Nat} (hv : Held v f.inode)
    (hwill : (f.inode.size + count) / 512 + 1 ≤ 140) (h1 : First v f.inode v1 ino1)
    (h2 : Collect (f.inode.size / 512 + 1) ((f.inode.size + count) / 512 + 1) v1 ino1 v2 ino2 blocks)
    (hw : Written blocks buf 0 count f.inode.size true v2.disk d)
    (hino : f'.inode = ino2.setSize (f.inode.size + count))
    (hsync : inodeSync { v2 with disk := d } f'.inode = some v4) :
    FileWritten v f buf count v4 f' := by
  have hext1 := h1.extends hv
  have hv1 := hext1.held hv
  have hext2 := h2.extends hv1
  have hv2 := hext2.held hv1
  rw [inodeSync_eq, Option.some.injEq] at hsync
  have hno : f'.inode.no = f.inode.no := by rw [hino, Inode.no_setSize, h2.no, h1.no]
  have hsize : f'.inode.size = f.inode.size + count := by
    rw [hino]
    exact Inode.size_setSize (by omega)
  -- the inode's slot of the table is not in the data area
  have hd4 : ∀ a, ¬MetaAddr p f.inode.no a → v4.disk a = d a := by
    intro a ha
    rw [← hsync]
    apply Mem.blit_out
    rw [hno]
    unfold MetaAddr at ha
    omega
  have hdata : ∀ a, 512 * p.dataStartLba ≤ a → v4.disk a = d a :=
    fun a ha => hd4 a (not_metaAddr_of_data ha)
  have hslot : ∀ k, slot v4.disk f'.inode k = slot v2.disk ino2 k := by
    intro k
    rw [← hw.slot h2 hv2 hwill rfl (Or.inr (by omega)) k, hino]
    refine slot_congr (fun _ => Inode.sec_setSize _ _ _) (fun hne a ha => hdata a ?_) k
    have := hv2.table hne
    omega
  have hblock : ∀ k, k < 140 → fileBlock v4.disk f'.inode k = fileBlock v2.disk ino2 k := by
    intro k hk
    rw [← slot_block _ _ hk, ← slot_block _ _ hk]
    exact hslot k
  have hsec : ∀ k, f'.inode.sec k = ino2.sec k := fun k => by rw [hino, Inode.sec_setSize]
  have hcover : ∀ k, f.inode.size / 512 ≤ k → k < (f.inode.size + count) / 512 + 1 →
      blocks k = fileBlock v4.disk f'.inode k := by
    intro k a1 a2
    rw [h2.cover k (by omega) a2, hblock k (by omega)]
  have hused : ∀ b, v4.Used b ↔ v2.Used b := fun b => by rw [← hsync]; exact Iff.rfl
  have hext : Extends v f.inode v4 f'.inode := (hext1.trans hv hext2).congr hused hslot
  have hv4 := hext.held hv
  have hnew : ∀ k, f.inode.size / 512 < k → k ≤ (f.inode.size + count) / 512 →
      fileBlock v4.disk f'.inode k ≠ 0 := by
    intro k a1 a2
    rw [← hcover k (by omega) (by omega)]
    exact (h2.new k (by omega) (by omega)).ne_zero
  refine ⟨by omega, ?_, hext, ?_, hsize, hno, ?_, fun k hk hne => ?_, hnew, ?_,
    fun a hmeta _ htab hblk => ?_, fun j a1 a2 => ?_, fun hnz => ?_⟩
  · rw [← hsync, hno]
    exact fun i hi => Mem.blit_add hi
  · rw [← hsync]
    exact h2.inodes.trans h1.grow.inodes
  · have h0 := h2.block 0 (by decide)
    rw [if_neg (by omega), fileBlock_direct _ _ (by decide), fileBlock_direct _ _ (by decide)] at h0
    rw [hsec, h0]
    exact h1.nonzero
  · rw [hblock k (by omega), h2.block k (by omega), if_neg (by omega)]
    by_cases h0 : k = 0
    · subst h0
      rw [fileBlock_direct _ _ (by decide)] at hne ⊢
      rw [fileBlock_direct _ _ (by decide)]
      rcases h1.zero with he | ⟨hz, -⟩
      · exact he
      · exact absurd hz hne
    · exact h1.block hv h0
  · rw [hsec]
    rcases h2.table with he | ⟨h12, -, -⟩
    · exact Or.inl (he.trans (h1.rest 12 (by decide)))
    · exact Or.inr (h2.onDisk h12).2
  · have hout : a < 512 * p.blockBitmapLba ∨ 512 * p.inodeBitmapLba ≤ a := by
      unfold MetaAddr at hmeta
      omega
    rw [hd4 a hmeta, hw.frame a, h2.disk a hout fun _ => by rw [← hsec]; exact htab,
      h1.grow.disk a hout]
    intro j a1 a2
    rw [hcover _ (by omega) (by omega)]
    exact hblk _ (by omega) (by omega)
  · rw [← hcover _ (by omega) (by omega)]
    exact hw.reach j a1 a2
  · have hblk : ∀ k, f.inode.size / 512 ≤ k → k ≤ (f.inode.size + count) / 512 →
        fileBlock v4.disk f'.inode k ≠ 0 := by
      intro k a1 a2
      rcases Nat.eq_or_lt_of_le a1 with rfl | hlt
      · exact hnz
      · exact hnew k hlt a2
    obtain ⟨hbytes, hfront⟩ := hw.bytes fun i j a1 a2 a3 a4 he => by
      rw [hcover _ (by omega) (by omega), hcover _ (by omega) (by omega)] at he
      exact hv4.block_inj (by omega) (by omega) (hblk _ (by omega) (by omega)) he
    refine ⟨fun j a1 a2 => ?_, fun o ho => ?_⟩
    · have hge := (hv4.block (by omega) (hblk (j / 512) (by omega) (by omega))).1
      rw [hdata _ (by omega), ← hcover _ (by omega) (by omega), hbytes j a1 a2, Nat.zero_add]
    · obtain ⟨hge, hne⟩ := hv4.block (by omega) hnz
      have hin := inodeBitmapLba_le_dataStart p
      rw [hdata _ (by omega)]
      rw [← hcover _ (by omega) (by omega)] at hge hne ⊢
      rw [hfront rfl o ho, h2.disk _ (by omega) fun _ => by rw [← hsec]; omega,
        h1.grow.data (by omega)]

/-- The ways through `file_write`: refused for the size, before anything is
touched, or through all its stages. -/
inductive WriteCall (v : Vol p) (f : File) (buf : Mem) (count : Nat) (r : Int) (v' : Vol p)
    (f' : File) : Prop
  | refused : r = -1 → v' = v → f' = f → WriteCall v f buf count r v' f'
  | written (v1 v2 : Vol p) (ino1 ino2 : Inode) (blocks : Nat → Nat) (d : Mem) :
      r = toInt32 count → (f.inode.size + count) / 512 + 1 ≤ 140 →
      firstBlock blockBitmapAlloc v f.inode = some (true, v1, ino1) →
      collectWrite blockBitmapAlloc v1 ino1 (f.inode.size / 512 + 1)
        ((f.inode.size + count) / 512 + 1) = some (true, v2, ino2, blocks) →
      Written blocks buf 0 count f.inode.size true v2.disk d →
      f'.inode = ino2.setSize (f.inode.size + count) →
      inodeSync { v2 with disk := d } f'.inode = some v' → WriteCall v f buf count r v' f'

theorem fileWrite_cases {v v' : Vol p} {f f' : File} {buf : Mem} {count : Nat} {r : Int}
    (h : fileWrite v f buf count = some (r, v', f')) : WriteCall v f buf count r v' f' := by
  unfold fileWrite fileWriteWith at h
  dsimp only at h
  split at h
  next =>
    simp only [Option.pure_def, Option.some.injEq, Prod.mk.injEq] at h
    exact .refused h.1.symm h.2.1.symm h.2.2.symm
  next hsmall =>
    simp only [Option.bind_eq_bind, Option.bind_eq_some_iff, Prod.exists] at h
    obtain ⟨ok1, v1, ino1, hfirst, h⟩ := h
    obtain ⟨rfl, h1⟩ := firstBlock_spec hfirst
    simp only [Bool.not_true, Bool.false_eq_true, if_false, Option.bind_eq_some_iff,
      ensure_eq_some, exists_const, Prod.exists] at h
    obtain ⟨hwill, ok2, v2, ino2, blocks, hcol, h⟩ := h
    obtain ⟨rfl, hsize⟩ := collectWrite_size hcol
    simp only [Bool.not_true, Bool.false_eq_true, if_false, Option.bind_eq_some_iff,
      Prod.exists, Option.pure_def, Option.some.injEq, Prod.mk.injEq] at h
    obtain ⟨v3, f3, bw, hloop, v4, hsync, rfl, rfl, rfl⟩ := h
    obtain ⟨rfl, hv3, hino, hw⟩ := writeLoop_spec (Nat.zero_le _) hloop
    dsimp only at hino hw
    rw [hsize, h1.size, Nat.sub_zero] at hino hw
    -- the bytes were copied, so the sum did not wrap
    have hwrap : (f.inode.size + bw) % 2 ^ 32 = f.inode.size + bw := by
      have hlt := f.inode.size_lt
      have hroom := hw.room
      omega
    rw [hwrap] at hwill hcol
    rw [hv3] at hsync
    exact .written v1 v2 ino1 ino2 blocks _ rfl hwill hfirst hcol hw hino hsync

/-- **What a write does.** Either it is refused for its size, before anything
is touched, or all `count` bytes go through. -/
theorem fileWrite_spec {v v' : Vol p} {f f' : File} {buf : Mem} {count : Nat} {r : Int}
    (hv : Held v f.inode) (h : fileWrite v f buf count = some (r, v', f')) :
    (r = -1 ∧ v' = v ∧ f' = f) ∨ (r = toInt32 count ∧ FileWritten v f buf count v' f') := by
  cases fileWrite_cases h with
  | refused hr hv' hf' => exact Or.inl ⟨hr, hv', hf'⟩
  | written v1 v2 ino1 ino2 blocks d hr hwill hfirst hcol hw hino hsync =>
    obtain ⟨-, h1⟩ := firstBlock_spec hfirst
    have hv1 := (h1.extends hv).held hv
    obtain ⟨-, h2⟩ := collectWrite_spec (by omega) (by omega) hwill hv1.table hcol
    exact Or.inr ⟨hr, FileWritten.of_stages hv hwill h1 h2 hw hino hsync⟩

/-- **A write is a block operation.** -/
theorem FileWritten.rewrites {v v' : Vol p} {f f' : File} {buf : Mem} {count : Nat}
    (h : FileWritten v f buf count v' f') (hv : Held v f.inode) :
    Rewrites v f.inode v' (some f'.inode) := by
  refine h.ext.rewrites hv fun a ha hk => h.frame a (not_metaAddr_of_data ha) ?_ ?_ ?_
  · have := dataStartLba_pos p
    omega
  · have := hk 140
    rw [slot_table] at this
    exact this.symm
  · intro k _ hle
    have := h.room
    rw [← slot_block _ _ (by omega)]
    exact hk k

end OsCore.Fs
