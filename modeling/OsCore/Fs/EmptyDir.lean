import OsCore.Fs.DirDelete
import OsCore.Fs.Syscalls
import OsCore.Lib.Machine

/-!
# Empty directories

`dir_is_empty` looks at `i_size` and nothing else, and `dir_remove` asserts that
an empty directory has its first block only. Both rest on what `sync_dir_entry`
and `delete_dir_entry` did to the directory before: the size counts live
entries, and a block that is there has one.

The size counts too much once a new table has replaced an old one, with the
entries behind it. It never counts too little (`DirTracked.low`), so a size of
two entries leaves no live entry but `.` and `..`, and then no other block. Nor
does the surplus grow until the counter wraps: a replaced table leaves a marked
block behind that no inode has, and there are only so many of these
(`DirTracked.high`).
-/

namespace OsCore.Fs

variable {p : Partition}

/-! ## Blocks nobody has -/

theorem Rewrites.held {v v' : Vol p} {i j : Inode} (h : Rewrites v i v' (some j))
    (hv : Held v i) : Held v' j := by
  have howned : Owned v fun _ : Unit => some i := by
    refine ⟨fun s t he hne => ?_, fun s hne => hv.used s.2 hne⟩
    exact Prod.ext rfl (hv.inj s.2 t.2 he hne)
  have hafter : Owned v' fun _ : Unit => some j :=
    Rewrites.owned (n := ()) h rfl (fun m hm => absurd rfl hm) howned
  exact hafter.held (n := ()) rfl

/-- The marked blocks that are not the directory's, by their bits. -/
def orphans (v : Vol p) (ino : Inode) : Finset Nat :=
  (Finset.range (4096 * p.blockBitmapSects)).filter fun b =>
    v.blockBitmap.bit b = true ∧ ∀ k ∈ List.range 141, slot v.disk ino k ≠ p.dataStartLba + b

theorem mem_orphans {v : Vol p} {ino : Inode} {b : Nat} : b ∈ orphans v ino ↔
    v.Used (p.dataStartLba + b) ∧ ∀ k, slot v.disk ino k ≠ p.dataStartLba + b := by
  rw [orphans, Finset.mem_filter, Finset.mem_range, Vol.Used, Nat.add_sub_cancel_left]
  constructor
  · intro hin
    obtain ⟨hb, hbit, hslot⟩ := hin
    refine ⟨⟨Nat.le_add_right _ _, hb, hbit⟩, fun k hk => ?_⟩
    by_cases h140 : k < 141
    · exact hslot k (List.mem_range.mpr h140) hk
    · -- there are no further slots
      rw [slot, if_neg (by omega), fileBlock_ge _ _ (by omega)] at hk
      have hpos := dataStartLba_pos p
      omega
  · intro hin
    obtain ⟨⟨-, hb, hbit⟩, hslot⟩ := hin
    exact ⟨hb, hbit, fun k _ => hslot k⟩

/-- A block operation takes no block from the others. -/
theorem Rewrites.orphans_subset {v v' : Vol p} {i j : Inode} (h : Rewrites v i v' (some j)) :
    orphans v i ⊆ orphans v' j := by
  intro b hb
  rw [mem_orphans] at hb ⊢
  obtain ⟨hused, hslot⟩ := hb
  refine ⟨h.others _ hused hslot, fun k hk => ?_⟩
  have hpos := dataStartLba_pos p
  rcases h.old k with h0 | hold | hfresh
  · rw [slots_some] at h0
    omega
  · rw [slots_some, hk] at hold
    exact hslot k hold.symm
  · rw [slots_some, hk] at hfresh
    exact hfresh.free hused

theorem blockBitmapSects_le_forty (p : Partition) : p.blockBitmapSects ≤ 40 := by
  have hfits := p.fits
  have hfree : p.freeSects ≤ p.secCnt := Nat.sub_le _ _
  have hbits : p.blockBitmapBitLen ≤ p.freeSects := Nat.sub_le _ _
  have hmax : maxLba = 163839 := by decide
  unfold Partition.blockBitmapSects divRoundUp
  omega

theorem card_orphans_le (v : Vol p) (ino : Inode) : (orphans v ino).card ≤ 163840 := by
  have hsects := blockBitmapSects_le_forty p
  have hcard : (orphans v ino).card ≤ (Finset.range (4096 * p.blockBitmapSects)).card :=
    Finset.card_filter_le _ _
  rw [Finset.card_range] at hcard
  omega

/-! ## Counting entries -/

/-- Two counts that differ in the slots `a`, ..., `a + n - 1` only. -/
theorem length_filterMap_part {α : Type} {f g : Nat → Option α} {a n m : Nat} (hin : a + n ≤ m)
    (h : ∀ i, i < m → i < a ∨ a + n ≤ i → g i = f i) :
    ((List.range m).filterMap g).length + ((List.range' a n).filterMap f).length =
      ((List.range m).filterMap f).length + ((List.range' a n).filterMap g).length := by
  have hsplit : List.range m = List.range' 0 a ++ (List.range' a n ++ List.range' (a + n) (m - (a + n))) := by
    have hend := List.range'_append_1 (s := a) (m := n) (n := m - (a + n))
    have hall := List.range'_append_1 (s := 0) (m := a) (n := n + (m - (a + n)))
    rw [Nat.zero_add] at hall
    rw [hend, hall, List.range_eq_range', show a + (n + (m - (a + n))) = m by omega]
  have hlow : (List.range' 0 a).filterMap g = (List.range' 0 a).filterMap f :=
    filterMap_same fun i hi => by
      rw [List.mem_range'_1] at hi
      exact h i (by omega) (Or.inl (by omega))
  have hhigh : (List.range' (a + n) (m - (a + n))).filterMap g =
      (List.range' (a + n) (m - (a + n))).filterMap f :=
    filterMap_same fun i hi => by
      rw [List.mem_range'_1] at hi
      exact h i (by omega) (Or.inr (by omega))
  rw [hsplit]
  simp only [List.filterMap_append, List.length_append, hlow, hhigh]
  omega

/-- Three places of a list that are defined. -/
theorem length_filterMap_three {α : Type} {f : Nat → Option α} {i n : Nat} {a b c : α}
    (ha : f 0 = some a) (hb : f 1 = some b) (hc : f i = some c) (h2 : 2 ≤ i) (hi : i < n) :
    3 ≤ ((List.range n).filterMap f).length := by
  have hfront : List.range n = [0, 1] ++ List.range' 2 (n - 2) := by
    have happ := List.range'_append_1 (s := 0) (m := 2) (n := n - 2)
    rw [List.range_eq_range', show n = 2 + (n - 2) by omega, ← happ, Nat.add_sub_cancel_left]
    rfl
  have hsub : [0, 1, i].Sublist (List.range n) := by
    have hin : i ∈ List.range' 2 (n - 2) := List.mem_range'_1.mpr ⟨h2, by omega⟩
    rw [hfront]
    exact (List.Sublist.refl [0, 1]).append (List.singleton_sublist.mpr hin)
  have hlen := (hsub.filterMap f).length_le
  simpa [ha, hb, hc] using hlen

/-! ## What the two operations keep -/

/-- A directory as its history leaves it. -/
structure DirTracked (v : Vol p) (ino : Inode) : Prop where
  held : Held v ino
  here : ∃ de, liveAt v.disk ino 0 = some de ∧ de.named dot = true
  up : ∃ de, liveAt v.disk ino 1 = some de ∧ de.named dotDot = true
  plain : ∀ i de, 2 ≤ i → liveAt v.disk ino i = some de → de.Counts
  filled : ∀ k, 0 < k → fileBlock v.disk ino k ≠ 0 →
    ∃ i, i / 21 = k ∧ liveAt v.disk ino i ≠ none
  table : ino.sec 12 ≠ 0 → fileBlock v.disk ino 12 ≠ 0
  single : ∀ k, 12 < k → fileBlock v.disk ino k = 0
  low : 24 * (liveEntries v.disk ino).length ≤ ino.size
  high : ino.size ≤ 24 * ((liveEntries v.disk ino).length + 21 * (orphans v ino).card)

theorem DirTracked.size_lt {v : Vol p} {ino : Inode} (h : DirTracked v ino) :
    ino.size < 2 ^ 31 := by
  have hlive := liveEntries_length_le v.disk ino
  have horphans := card_orphans_le v ino
  have hhigh := h.high
  omega

theorem liveAt_lt {disk : Mem} {ino : Inode} {i : Nat} {de : DirEntry}
    (h : liveAt disk ino i = some de) : i < 140 * 21 := dirSlot_lt (liveAt_eq_some.mp h).1

/-- The block of a live entry is there. -/
theorem block_of_live {disk : Mem} {ino : Inode} {i : Nat} {de : DirEntry}
    (h : liveAt disk ino i = some de) : fileBlock disk ino (i / 21) ≠ 0 :=
  (slotAt_eq_some.mp (liveAt_eq_some.mp h).1).1

/-- One live slot is free now. -/
theorem length_liveEntries_removed {d d' : Mem} {ino ino' : Inode} {i : Nat} {de : DirEntry}
    (hi : liveAt d ino i = some de)
    (hafter : ∀ j, liveAt d' ino' j = if j = i then none else liveAt d ino j) :
    (liveEntries d' ino').length + 1 = (liveEntries d ino).length := by
  have hperm : (liveEntries d ino).Perm (de :: liveEntries d' ino') :=
    filterMap_fill_perm List.nodup_range (List.mem_range.mpr (liveAt_lt hi))
      (by rw [hafter, if_pos rfl]) hi fun j _ hj => by rw [hafter, if_neg hj]
  rw [hperm.length_eq, List.length_cons]

/-- A deletion frees one live slot other than the first two. It gives up the
block of the slot, or leaves all blocks where they are. -/
theorem DirTracked.deleted {inodeNo : Nat} {v v' : Vol p} {ino ino' : Inode} (h : DirTracked v ino)
    (hdone : Deleted inodeNo v ino v' ino') :
    ∃ i de, 2 ≤ i ∧ liveAt v.disk ino i = some de ∧
      (∀ j, liveAt v'.disk ino' j = if j = i then none else liveAt v.disk ino j) ∧
      (∀ k, fileBlock v'.disk ino' k = fileBlock v.disk ino k ∨
        k = i / 21 ∧ k < 12 ∧ fileBlock v'.disk ino' k = 0) ∧
      (fileBlock v'.disk ino' (i / 21) ≠ 0 → i / 21 ≠ 0 → ∃ j, j / 21 = i / 21 ∧ j ≠ i ∧
        liveAt v.disk ino j ≠ none) ∧
      ino'.sec 12 = ino.sec 12 ∧ ino'.size + 24 = ino.size := by
  have hword := ino.size_lt
  -- a match is not one of the dots
  have htwo : ∀ {i de}, liveAt v.disk ino i = some de → de.Counts → 2 ≤ i := by
    intro i de hlive hcounts
    by_contra hlt
    obtain ⟨a, ha, hdot⟩ := h.here
    obtain ⟨b, hb, hdotDot⟩ := h.up
    rcases (by omega : i = 0 ∨ i = 1) with rfl | rfl
    · rw [ha] at hlive
      rw [Option.some.inj hlive, hcounts.2.1] at hdot
      cases hdot
    · rw [hb] at hlive
      rw [Option.some.inj hlive, hcounts.2.2] at hdotDot
      cases hdotDot
  have hfound : ∀ {k e}, fileBlock v.disk ino k ≠ 0 →
      hitsIn (blockEntry v.disk ino k) inodeNo 0 21 = [e] →
      liveAt v.disk ino (21 * k + e) = some (blockEntry v.disk ino k e) ∧
        (blockEntry v.disk ino k e).Counts := by
    intro k e hnz hhit
    obtain ⟨he, hhas⟩ := mem_hitsIn_block.mp (hhit ▸ List.mem_singleton_self e)
    exact ⟨by rw [liveAt_block he, liveEntry_eq_some hnz hhas.1.1], hhas.1⟩
  cases hdone with
  | wiped k e hk he hnz hbefore hhit hstays hdisk hbits hinodes hsize hino =>
    subst hino
    obtain ⟨hlive, hcounts⟩ := hfound hnz hhit
    have hafter := wiped_slots (n := ino.size - 24) h.held hk he hnz hdisk
    have hdiv : (21 * k + e) / 21 = k := by omega
    refine ⟨21 * k + e, _, htwo hlive hcounts, hlive, (hafter 0).2, fun j => Or.inl (hafter j).1,
      fun _ hk0 => ?_, Inode.sec_setSize _ _ _, ?_⟩
    · -- some other entry kept the block
      rw [hdiv] at hk0 ⊢
      have hcounted : e ∈ countedIn (blockEntry v.disk ino k) 0 21 :=
        mem_countedIn_block.mpr ⟨he, hcounts⟩
      rw [countedIn_eq_one hcounted] at hstays
      by_contra hnone
      have hfree : ∀ e', e' < 21 → e' ≠ e → (blockEntry v.disk ino k e').fType = ftUnknown := by
        intro e' he' hne
        by_contra hde
        refine hnone ⟨21 * k + e', by omega, by omega, ?_⟩
        rw [liveAt_block he', liveEntry_eq_some hnz hde]
        simp
      refine hstays ⟨fun j hj => ?_, ?_⟩
      · obtain ⟨hj21, hjc⟩ := mem_countedIn_block.mp hj
        by_contra hne
        exact hjc.1 (hfree j hj21 hne)
      · cases hfirst : firstIn (blockEntry v.disk ino k) 0 21 with
        | false => rfl
        | true =>
          obtain ⟨j, -, hj21, hmarks⟩ := firstIn_eq_true.mp hfirst
          by_cases hje : j = e
          · rw [hje] at hmarks
            have hdot := hcounts.2.1
            rw [hmarks.2] at hdot
            cases hdot
          · exact absurd (hfree j (by omega) hje) hmarks.1
    · rw [Inode.size_setSize (by omega)]
      omega
  | dropped k e hk he hnz hbefore hhit hgone hdisk hbits hinodes hsize hino =>
    subst hino
    obtain ⟨hlive, hcounts⟩ := hfound hnz hhit
    have hafter := dropped_slots (n := ino.size - 24) h.held hk hdisk
    have hdiv : (21 * k + e) / 21 = k := by omega
    have hcounted : e ∈ countedIn (blockEntry v.disk ino k) 0 21 :=
      mem_countedIn_block.mpr ⟨he, hcounts⟩
    -- without the mark it is not block 0
    have hk0 : k ≠ 0 := by
      intro heq
      subst heq
      obtain ⟨a, ha, hdot⟩ := h.here
      obtain ⟨hslot, hde⟩ := liveAt_eq_some.mp ha
      have hentry : blockEntry v.disk ino 0 0 = a := (slotAt_eq_some.mp hslot).2
      have hmarks : (blockEntry v.disk ino 0 0).Marks := by
        rw [hentry]
        exact ⟨hde, hdot⟩
      have hin : 0 < 0 + 21 := by decide
      have hmarked := firstIn_eq_true.mpr ⟨0, Nat.le_refl _, hin, hmarks⟩
      rw [hgone.2] at hmarked
      cases hmarked
    refine ⟨21 * k + e, _, htwo hlive hcounts, hlive, fun j => ?_, fun j => ?_, fun hne => ?_, ?_, ?_⟩
    · rw [(hafter 0).2 j]
      by_cases hj : j / 21 = k
      · rw [if_pos hj]
        split
        next => rfl
        next hne =>
          -- an entry here would count, and `e` is the only one that does
          cases hother : liveAt v.disk ino j with
          | none => rfl
          | some de =>
            have hplain := h.plain j de (by omega) hother
            obtain ⟨-, hentry⟩ := slotAt_eq_some.mp (liveAt_eq_some.mp hother).1
            rw [hj] at hentry
            have hmod : j % 21 < 21 := Nat.mod_lt _ (by decide)
            have hsame := (countedIn_eq_one hcounted).mp hgone.1 (j % 21)
              (mem_countedIn_block.mpr ⟨hmod, by rw [blockEntry, hentry]; exact hplain⟩)
            omega
      · rw [if_neg hj, if_neg (by omega)]
    · rw [(hafter j).1, hdiv]
      by_cases hj : j = k
      · exact Or.inr ⟨hj, by omega, if_pos hj⟩
      · exact Or.inl (if_neg hj)
    · rw [(hafter _).1, hdiv, if_pos rfl] at hne
      exact absurd rfl hne
    · rw [sec_dropped hk, if_neg (by omega)]
    · rw [Inode.size_setSize (by omega)]
      omega

/-- **A deletion keeps the invariant.** -/
theorem DirTracked.remove {fuel inodeNo : Nat} {v v' : Vol p} {ino ino' : Inode} {r : Bool}
    (h : DirTracked v ino) (hrun : deleteDirEntry fuel v ino inodeNo = some (r, v', ino')) :
    DirTracked v' ino' := by
  have hblocks := (deleteDirEntry_spec h.held hrun).blocks
  rcases deleteDirEntry_cases h.held hrun with ⟨-, rfl, rfl, -⟩ | ⟨-, hdone⟩
  · exact h
  · obtain ⟨i, de, hi2, hi, hafter, hblock, hother, htable, hsize⟩ := h.deleted hdone
    have hlen := length_liveEntries_removed hi hafter
    have hcard := Finset.card_le_card hblocks.orphans_subset
    have hlow := h.low
    have hhigh := h.high
    obtain ⟨a, ha, hdot⟩ := h.here
    obtain ⟨b, hb, hdotDot⟩ := h.up
    refine ⟨hblocks.held h.held, ⟨a, ?_, hdot⟩, ⟨b, ?_, hdotDot⟩, fun j c hj hc => ?_,
      fun k hk hnz => ?_, fun ht => ?_, fun k hk => ?_, by omega, by omega⟩
    · rw [hafter, if_neg (by omega), ha]
    · rw [hafter, if_neg (by omega), hb]
    · rw [hafter] at hc
      split at hc
      next => cases hc
      next => exact h.plain j c hj hc
    · by_cases hki : k = i / 21
      · -- the block of the slot: it stayed for another entry
        obtain ⟨j, hj, hne, hlive⟩ := hother (hki ▸ hnz) (by omega)
        exact ⟨j, by omega, by rw [hafter, if_neg hne]; exact hlive⟩
      · rcases hblock k with hsame | ⟨hk', -⟩
        · obtain ⟨j, hj, hlive⟩ := h.filled k hk (hsame ▸ hnz)
          exact ⟨j, hj, by rw [hafter, if_neg (fun he => hki (by rw [← hj, he]))]; exact hlive⟩
        · exact absurd hk' hki
    · rcases hblock 12 with hsame | ⟨-, hlt, -⟩
      · rw [hsame]
        exact h.table (htable ▸ ht)
      · omega
    · rcases hblock k with hsame | ⟨-, hlt, -⟩
      · rw [hsame]
        exact h.single k hk
      · omega

/-- The entries of a sector that was started with one. -/
theorem firstSector_entry_eq {pDe : DirEntry} {i : Nat} (hi : i < 21) :
    DirEntry.ofMem (firstSector pDe) (24 * i) = if i = 0 then pDe else zeroEntry := by
  by_cases h0 : i = 0
  · subst h0
    exact DirEntry.ofMem_bytes fun l hl => Mem.blit_add hl
  · rw [if_neg h0]
    apply DirEntry.ofMem_congr
    intro l hl
    rw [firstSector, Mem.blit_out (by omega)]
    rfl

/-- In such a sector the next free slot is the second. -/
theorem freeSlot_firstSector_eq {pDe : DirEntry} {e : Nat} (hlive : pDe.fType ≠ ftUnknown)
    (he : freeSlot (firstSector pDe) = some e) : e = 1 := by
  obtain ⟨he21, hfree, hbefore⟩ := freeSlot_some he
  have hne : e ≠ 0 := by
    intro heq
    subst heq
    rw [firstSector_entry_eq (by decide), if_pos rfl] at hfree
    exact hlive hfree
  by_contra hne1
  have h1 := hbefore 1 (by omega)
  rw [firstSector_entry_eq (by decide), if_neg (by decide)] at h1
  exact h1 zeroEntry_free

section Added

variable {pDe : DirEntry} {k b e : Nat} {v v1 : Vol p} {ino ino1 : Inode}

/-- The blocks after one was added, when no indirect one was there but the first. -/
theorem Added.block_single (h : Added pDe k v ino v1 ino1 b) (hk : k ≤ 12) (hv : Held v ino)
    (hsingle : ∀ j, 12 < j → fileBlock v.disk ino j = 0) (he : e < 21) (j : Nat) :
    fileBlock (v1.disk.blit (512 * b + 24 * e) pDe.bytes 24) (ino1.setSize (ino1.size + 24)) j =
      if j = k then b else fileBlock v.disk ino j := by
  have hsame : fileBlock (v1.disk.blit (512 * b + 24 * e) pDe.bytes 24)
      (ino1.setSize (ino1.size + 24)) j = fileBlock v1.disk ino1 j :=
    fileBlock_congr (fun l => Inode.sec_setSize _ _ _)
      (fun hnz a ha => Mem.blit_out (by have hne := h.table_ne hk hv hnz; omega)) j
  rw [hsame]
  by_cases hj : j < 140
  · rw [h.block hk hv hj]
    by_cases hjk : j = k
    · rw [if_pos hjk, if_pos hjk]
    · rw [if_neg hjk, if_neg hjk]
      split
      next hbehind => exact (hsingle j hbehind.2).symm
      next => rfl
  · rw [if_neg (by omega), fileBlock_ge _ _ (by omega), fileBlock_ge _ _ (by omega)]

/-- The slots after a block was added: the new entry twice at its front. -/
theorem Added.liveAt (h : Added pDe k v ino v1 ino1 b) (hk : k ≤ 12) (hv : Held v ino)
    (hlive : pDe.fType ≠ ftUnknown) (hsingle : ∀ j, 12 < j → fileBlock v.disk ino j = 0)
    (he : freeSlot (firstSector pDe) = some e) (i : Nat) :
    Fs.liveAt (v1.disk.blit (512 * b + 24 * e) pDe.bytes 24) (ino1.setSize (ino1.size + 24)) i =
      if i / 21 = k then if i % 21 ≤ 1 then some pDe else none else Fs.liveAt v.disk ino i := by
  obtain rfl := freeSlot_firstSector_eq hlive he
  have hmod : i % 21 < 21 := Nat.mod_lt _ (by decide)
  rw [Fs.liveAt, h.block_single hk hv hsingle (by decide), entryAt_store (by decide) hmod]
  by_cases hik : i / 21 = k
  · rw [if_pos hik, if_pos hik]
    have hsector : entryAt v1.disk b (i % 21) = DirEntry.ofMem (firstSector pDe) (24 * (i % 21)) :=
      (ofMem_sector (fun l hl => (h.sector l hl).symm) hmod).symm
    by_cases h1 : i % 21 = 1
    · rw [if_pos ⟨rfl, h1⟩, if_pos (by omega)]
      exact liveEntry_eq_some h.fresh.ne_zero hlive
    · rw [if_neg (fun hc : b = b ∧ i % 21 = 1 => h1 hc.2), hsector, firstSector_entry_eq hmod]
      by_cases h0 : i % 21 = 0
      · rw [if_pos h0, if_pos (by omega)]
        exact liveEntry_eq_some h.fresh.ne_zero hlive
      · rw [if_neg h0, if_neg (by omega)]
        exact liveEntry_eq_none (Or.inr zeroEntry_free)
  · rw [if_neg hik, if_neg hik, Fs.liveAt]
    by_cases h0 : fileBlock v.disk ino (i / 21) = 0
    · rw [liveEntry_eq_none (Or.inl h0), liveEntry_eq_none (Or.inl h0)]
    · have hlt : i / 21 < 140 := by
        by_contra hge
        exact h0 (fileBlock_ge _ _ (by omega))
      have hu := hv.used (i / 21) (by rw [slot_block _ _ hlt]; exact h0)
      rw [slot_block _ _ hlt] at hu
      rw [if_neg (fun hc : fileBlock v.disk ino (i / 21) = b ∧ i % 21 = 1 => h.fresh.free (hc.1 ▸ hu)),
        entryAt_congr (fun l hl => h.sector_old hk hu hl) hmod]

/-- With a new table the first indirect block of the old one stays marked, and
no slot of the directory has it any more. -/
theorem Added.orphan_left {v' : Vol p} {ino' : Inode} (h : Added pDe 12 v ino v1 ino1 b)
    (hv : Held v ino) (hnz : fileBlock v.disk ino 12 ≠ 0)
    (hblock : ∀ j, fileBlock v'.disk ino' j = if j = 12 then b else fileBlock v.disk ino j)
    (htable : Fresh v v1 (ino'.sec 12)) (hused : ∀ c, v.Used c → v'.Used c)
    (hsubset : orphans v ino ⊆ orphans v' ino') : orphans v ino ⊂ orphans v' ino' := by
  have hu := hv.used 12 (by rw [slot_block _ _ (by decide)]; exact hnz)
  rw [slot_block _ _ (by decide)] at hu
  have hstart := hu.1
  have haddr : p.dataStartLba + (fileBlock v.disk ino 12 - p.dataStartLba) = fileBlock v.disk ino 12 := by
    omega
  rw [Finset.ssubset_iff_of_subset hsubset]
  refine ⟨fileBlock v.disk ino 12 - p.dataStartLba, ?_, fun hold => ?_⟩
  · rw [mem_orphans, haddr]
    refine ⟨hused _ hu, fun k hk => ?_⟩
    by_cases h140 : k = 140
    · rw [h140, slot_table] at hk
      exact htable.free (hk ▸ hu)
    · rw [slot, if_neg h140, hblock] at hk
      split at hk
      next => exact h.fresh.free (hk ▸ hu)
      next hne =>
        by_cases hlt : k < 140
        · exact hne (hv.block_inj hlt (by decide) (hk ▸ hnz) hk)
        · rw [fileBlock_ge _ _ (by omega)] at hk
          exact hnz hk.symm
  · rw [mem_orphans, haddr] at hold
    exact hold.2 12 (slot_block _ _ (by decide))

end Added

/-- **An insertion keeps the invariant.** -/
theorem DirTracked.insert {pDe : DirEntry} {v v' : Vol p} {ino ino' : Inode} {r : Bool}
    (h : DirTracked v ino) (hnew : pDe.Counts)
    (hrun : syncDirEntry v ino pDe = some (r, v', ino')) : DirTracked v' ino' := by
  have hblocks := (syncDirEntry_step h.held hrun).blocks
  have hheld := hblocks.held h.held
  have hcard := Finset.card_le_card hblocks.orphans_subset
  have hword := h.size_lt
  have hlow := h.low
  have hhigh := h.high
  obtain ⟨a, ha, hdot⟩ := h.here
  obtain ⟨b, hb, hdotDot⟩ := h.up
  have hfirst : ino.sec 0 ≠ 0 := by
    have hnz := block_of_live ha
    rwa [Nat.zero_div, fileBlock_direct _ _ (by decide)] at hnz
  obtain ⟨-, hplaced⟩ := syncDirEntry_spec hrun
  cases hplaced with
  | slot k e hk he hfull hnz hmax hfree hv' hino =>
    -- one entry more, in a slot that was free
    rw [← fileBlock_direct v.disk ino hk] at hnz hfree hv'
    have hsec : ∀ j, ino'.sec j = ino.sec j := fun j => by rw [hino, Inode.sec_setSize]
    have hperm := liveEntries_store h.held (show k < 140 by omega) he hnz hfree hnew.1 hsec
    have hlen := hperm.length_eq
    rw [List.length_cons] at hlen
    have hblock : ∀ j, fileBlock v'.disk ino' j = fileBlock v.disk ino j := fun j => by
      rw [hv']
      exact fileBlock_store h.held (by omega) hnz he hsec pDe.bytes j
    have hsize : ino'.size = ino.size + 24 := by
      rw [hino]
      exact Inode.size_setSize (by omega)
    have hat : ∀ i, liveAt v'.disk ino' i = if i = 21 * k + e then some pDe else liveAt v.disk ino i := by
      intro i
      have hmod : i % 21 < 21 := Nat.mod_lt _ (by decide)
      rw [liveAt, hblock, hv', entryAt_store he hmod, liveAt]
      by_cases hi : i = 21 * k + e
      · rw [if_pos hi, show i / 21 = k by omega, if_pos ⟨rfl, by omega⟩]
        exact liveEntry_eq_some hnz hnew.1
      · rw [if_neg hi]
        by_cases h0 : fileBlock v.disk ino (i / 21) = 0
        · rw [liveEntry_eq_none (Or.inl h0), liveEntry_eq_none (Or.inl h0)]
        · rw [if_neg]
          intro hin
          obtain ⟨hsame, hie⟩ := hin
          have hlt : i / 21 < 140 := by
            by_contra hge
            exact h0 (fileBlock_ge _ _ (by omega))
          have hik := h.held.block_inj hlt (by omega) h0 hsame
          omega
    have hkept : ∀ {i c}, liveAt v.disk ino i = some c → liveAt v'.disk ino' i = some c := by
      intro i c hc
      rw [hat]
      split
      next hi =>
        rw [hi, liveAt_block he, liveEntry_eq_none (Or.inr hfree)] at hc
        cases hc
      next => exact hc
    have hdisk : v'.disk = v.disk.blit (512 * fileBlock v.disk ino k + 24 * e) pDe.bytes 24 := by
      rw [hv']
    rw [← hdisk] at hlen
    refine ⟨hheld, ⟨a, hkept ha, hdot⟩, ⟨b, hkept hb, hdotDot⟩, fun i c hi hc => ?_,
      fun j hj hjnz => ?_, fun ht => ?_, fun j hj => ?_, by omega, by omega⟩
    · rw [hat] at hc
      split at hc
      next => rwa [← Option.some.inj hc]
      next => exact h.plain i c hi hc
    · obtain ⟨i, hi, hlive⟩ := h.filled j hj (hblock j ▸ hjnz)
      obtain ⟨c, hc⟩ := Option.ne_none_iff_exists'.mp hlive
      exact ⟨i, hi, by rw [hkept hc]; simp⟩
    · rw [hblock]
      exact h.table (hsec 12 ▸ ht)
    · rw [hblock]
      exact h.single j hj
  | grown k b' e v1 ino1 hk hfull hz hadd he hv' hino =>
    have hdisk : v'.disk = v1.disk.blit (512 * b' + 24 * e) pDe.bytes 24 := by rw [hv']
    have hat := hadd.liveAt hk h.held hnew.1 h.single he
    have hblock := hadd.block_single hk h.held h.single (freeSlot_some he).1
    rw [← hino, ← hdisk] at hat hblock
    have hk0 : k ≠ 0 := by
      intro heq
      subst heq
      exact hfirst (hz (by decide))
    have hsize : ino'.size = ino.size + 48 := by
      have h1 := hadd.size hk (by omega)
      rw [hino, Inode.size_setSize (by omega)]
      omega
    -- block `k` has two entries now, where it had `c`
    have hcount := length_filterMap_part (f := liveAt v.disk ino) (g := liveAt v'.disk ino')
      (a := 21 * k) (n := 21) (m := 140 * 21) (by omega)
      fun i _ hout => by rw [hat, if_neg (by omega)]
    have htwo : ((List.range' (21 * k) 21).filterMap (liveAt v'.disk ino')).length = 2 := by
      have hfront : (List.range' (21 * k) 21).filterMap (liveAt v'.disk ino') =
          (List.range 21).filterMap fun i => if i ≤ 1 then some pDe else none := by
        rw [List.range'_eq_map_range, List.filterMap_map]
        apply filterMap_same
        intro i hi
        rw [List.mem_range] at hi
        rw [Function.comp_apply, hat, if_pos (by omega), show (21 * k + i) % 21 = i by omega]
      rw [hfront]
      rfl
    generalize hc : ((List.range' (21 * k) 21).filterMap (liveAt v.disk ino)).length = c at hcount
    rw [htwo] at hcount
    have hlost : c ≤ 21 * ((orphans v' ino').card - (orphans v ino).card) := by
      by_cases hnone : fileBlock v.disk ino k = 0
      · rw [show c = 0 by rw [← hc]; exact congrArg List.length (liveFrom_missing hnone)]
        exact Nat.zero_le _
      · -- the block of the old table is nobody's now
        obtain rfl : k = 12 := by
          by_contra hne
          rw [fileBlock_direct _ _ (by omega)] at hnone
          exact hnone (hz (by omega))
        obtain ⟨t, ht, hft, -⟩ := hadd.indirect rfl
        have htable : Fresh v v1 (ino'.sec 12) := by
          rw [hino, Inode.sec_setSize, ht, Inode.sec_setSize, Inode.sec_setSec (by decide)
            (by have hw := hft.word; omega), if_pos rfl]
          exact hft
        have hused : ∀ d, v.Used d → v'.Used d := fun d hd => by
          rw [hv']
          exact hadd.mono d hd
        have hmore := Finset.card_lt_card
          (hadd.orphan_left h.held hnone hblock htable hused hblocks.orphans_subset)
        have hle := List.length_filterMap_le (liveAt v.disk ino) (List.range' (21 * 12) 21)
        rw [List.length_range', hc] at hle
        omega
    have hlen : (liveEntries v'.disk ino').length + c = (liveEntries v.disk ino).length + 2 := hcount
    have hkept : ∀ {i d}, i / 21 ≠ k → liveAt v.disk ino i = some d →
        liveAt v'.disk ino' i = some d := by
      intro i d hik hd
      rw [hat, if_neg hik, hd]
    refine ⟨hheld, ⟨a, hkept (by omega) ha, hdot⟩, ⟨b, hkept (by omega) hb, hdotDot⟩,
      fun i d hi hd => ?_, fun j hj hjnz => ?_, fun ht => ?_, fun j hj => ?_, ?_, by omega⟩
    · rw [hat] at hd
      split at hd
      next =>
        split at hd
        next => rwa [← Option.some.inj hd]
        next => cases hd
      next => exact h.plain i d hi hd
    · by_cases hjk : j = k
      · refine ⟨21 * k, by omega, ?_⟩
        rw [hat, if_pos (by omega), if_pos (by omega)]
        simp
      · rw [hblock, if_neg hjk] at hjnz
        obtain ⟨i, hi, hlive⟩ := h.filled j hj hjnz
        exact ⟨i, hi, by rw [hat, if_neg (by omega)]; exact hlive⟩
    · rw [hblock]
      by_cases h12 : 12 = k
      · rw [if_pos h12]
        exact hadd.fresh.ne_zero
      · rw [if_neg h12]
        apply h.table
        rw [hino, Inode.sec_setSize, hadd.direct (by omega), Inode.sec_setSize,
          Inode.sec_setSec (by omega) (by have hw := hadd.fresh.word; omega), if_neg h12] at ht
        exact ht
    · rw [hblock, if_neg (by omega)]
      exact h.single j hj
    · omega

/-! ## Histories of a directory -/

/-- A directory as `sys_mkdir` starts it: one block, with `.` and `..` in front
and zeros behind them. -/
structure FreshDir (v : Vol p) (ino : Inode) : Prop where
  used : v.Used (ino.sec 0)
  rest : ∀ k, 0 < k → ino.sec k = 0
  size : ino.size = 2 * dirEntrySize
  entries : ∃ inodeNo parentNo ioBuf, dotEntries inodeNo parentNo = some ioBuf ∧
    ∀ i, i < 512 → v.disk (512 * ino.sec 0 + i) = ioBuf i

/-- A call on the directory. -/
inductive DirOp
  | insert (pDe : DirEntry)
  | remove (fuel inodeNo : Nat)

/-- The calls of `sync_dir_entry` and `delete_dir_entry` on one directory. A
caller inserts an entry of its own, for a file or a directory with a name that
is not there, so not `.` or `..`. -/
def entryMachine (p : Partition) : Lib.Machine (Vol p × Inode) DirOp where
  start s := FreshDir s.1 s.2
  may _
    | .insert pDe => pDe.Counts
    | .remove _ _ => True
  step s
    | .insert pDe => (syncDirEntry s.1 s.2 pDe).map Prod.snd
    | .remove fuel inodeNo => (deleteDirEntry fuel s.1 s.2 inodeNo).map Prod.snd

/-- The entries of the first block of a new directory. -/
theorem dotEntries_entry {inodeNo parentNo : Nat} {ioBuf : Mem}
    (h : dotEntries inodeNo parentNo = some ioBuf) {e : Nat} (he : e < 21) :
    DirEntry.ofMem ioBuf (24 * e) =
      if e = 0 then ⟨fun i => dot.getD i 0, UInt32.ofNat inodeNo, ftDirectory⟩
      else if e = 1 then ⟨fun i => dotDot.getD i 0, UInt32.ofNat parentNo, ftDirectory⟩
      else zeroEntry := by
  have hdot : dot.length ≤ 16 := by decide
  have hdotDot : dotDot.length ≤ 16 := by decide
  rw [dotEntries, createDirEntry, createDirEntry, ensure_pos hdot, ensure_pos hdotDot] at h
  simp only [Option.bind_eq_bind, Option.bind_some, Option.pure_def, Option.some.injEq,
    dirEntrySize] at h
  subst h
  rcases (by omega : e = 0 ∨ e = 1 ∨ 2 ≤ e) with rfl | rfl | h2
  · apply DirEntry.ofMem_bytes
    intro i hi
    rw [Mem.blit_out (by omega)]
    exact Mem.blit_add hi
  · exact DirEntry.ofMem_bytes fun i hi => Mem.blit_add hi
  · rw [if_neg (by omega), if_neg (by omega)]
    apply DirEntry.ofMem_congr
    intro i hi
    rw [Mem.blit_out (by omega), Mem.blit_out (by omega)]
    rfl

/-- **A new directory meets the invariant.** -/
theorem FreshDir.tracked {v : Vol p} {ino : Inode} (h : FreshDir v ino) : DirTracked v ino := by
  obtain ⟨inodeNo, parentNo, ioBuf, hbuf, hsector⟩ := h.entries
  have hstart := h.used.1
  have hpos := dataStartLba_pos p
  have htab : ino.sec 12 = 0 := h.rest 12 (by decide)
  have hblock : ∀ k, fileBlock v.disk ino k = if k = 0 then ino.sec 0 else 0 := by
    intro k
    by_cases h0 : k = 0
    · rw [h0, fileBlock_direct _ _ (by decide), if_pos rfl]
    · rw [if_neg h0]
      by_cases h12 : k < 12
      · rw [fileBlock_direct _ _ h12, h.rest k (by omega)]
      · exact fileBlock_no_table _ (by omega) htab
  have hslot : ∀ k, slot v.disk ino k = if k = 0 then ino.sec 0 else 0 := by
    intro k
    by_cases h140 : k = 140
    · rw [h140, slot_table, htab, if_neg (by decide)]
    · rw [slot, if_neg h140, hblock]
  have hat : ∀ i, liveAt v.disk ino i = if i < 2 then
      some (if i = 0 then ⟨fun i => dot.getD i 0, UInt32.ofNat inodeNo, ftDirectory⟩
        else ⟨fun i => dotDot.getD i 0, UInt32.ofNat parentNo, ftDirectory⟩) else none := by
    intro i
    have hmod : i % 21 < 21 := Nat.mod_lt _ (by decide)
    rw [liveAt, hblock]
    by_cases h0 : i / 21 = 0
    · rw [if_pos h0, ← ofMem_sector (fun l hl => (hsector l hl).symm) hmod,
        dotEntries_entry hbuf hmod, Nat.mod_eq_of_lt (by omega)]
      rcases (by omega : i = 0 ∨ i = 1 ∨ 2 ≤ i) with rfl | rfl | h2
      · exact liveEntry_eq_some (by omega) (show ftDirectory ≠ ftUnknown by decide)
      · exact liveEntry_eq_some (by omega) (show ftDirectory ≠ ftUnknown by decide)
      · rw [if_neg (by omega), if_neg (by omega), if_neg (by omega)]
        exact liveEntry_eq_none (Or.inr zeroEntry_free)
    · rw [if_neg h0, if_neg (by omega)]
      exact liveEntry_eq_none (Or.inl rfl)
  have hlen : (liveEntries v.disk ino).length = 2 := by
    unfold liveEntries
    rw [filterMap_same fun i _ => hat i, length_filterMap_range]
    rfl
  have hsize := h.size
  rw [dirEntrySize] at hsize
  refine ⟨⟨fun k l he hne => ?_, fun k hne => ?_⟩, ⟨_, by rw [hat, if_pos (by decide)], rfl⟩,
    ⟨_, by rw [hat, if_pos (by decide)], rfl⟩, fun i de hi hde => ?_, fun k hk hnz => ?_,
    fun ht => absurd htab ht, fun k hk => ?_, by omega, by omega⟩
  · rw [hslot] at he hne
    rw [hslot] at he
    split at hne
    next hk =>
      rw [if_pos hk] at he
      split at he
      next hl => rw [hk, hl]
      next => omega
    next => exact absurd rfl hne
  · rw [hslot] at hne ⊢
    split at hne
    next hk =>
      rw [if_pos hk]
      exact h.used
    next => exact absurd rfl hne
  · rw [hat, if_neg (by omega)] at hde
    cases hde
  · rw [hblock, if_neg (by omega)] at hnz
    exact absurd rfl hnz
  · rw [hblock, if_neg (by omega)]

theorem DirTracked.reachable {s : Vol p × Inode} (h : (entryMachine p).Reachable s) :
    DirTracked s.1 s.2 := by
  refine h.invariant (fun s hs => FreshDir.tracked hs) fun s a s' hs hmay _ hstep => ?_
  cases a with
  | insert pDe =>
    obtain ⟨⟨r, v', ino'⟩, hrun, rfl⟩ := Option.map_eq_some_iff.mp hstep
    exact hs.insert hmay hrun
  | remove fuel inodeNo =>
    obtain ⟨⟨r, v', ino'⟩, hrun, rfl⟩ := Option.map_eq_some_iff.mp hstep
    exact hs.remove hrun

/-- **`rmdir` removes only empty directories.** In every directory that calls of
`sync_dir_entry` and `delete_dir_entry` have made out of a new one, a size of
two entries means that the live slots are those of `.` and `..`, and that the
assertions of `dir_remove` on the other blocks hold. -/
theorem empty_dir_has_dots_only {s : Vol p × Inode} (h : (entryMachine p).Reachable s)
    (hempty : dirIsEmpty s.2 = true) :
    (∃ de, liveAt s.1.disk s.2 0 = some de ∧ de.named dot = true) ∧
      (∃ de, liveAt s.1.disk s.2 1 = some de ∧ de.named dotDot = true) ∧
      (∀ i, 2 ≤ i → liveAt s.1.disk s.2 i = none) ∧
      ∀ blockIdx ∈ List.range' 1 12, s.2.sec blockIdx = 0 := by
  have ht := DirTracked.reachable h
  obtain ⟨a, ha, hdot⟩ := ht.here
  obtain ⟨b, hb, hdotDot⟩ := ht.up
  have hsize : s.2.size = 48 := by
    rw [dirIsEmpty, decide_eq_true_iff] at hempty
    exact hempty
  have hlow := ht.low
  -- a third live slot would make the count three
  have honly : ∀ i, 2 ≤ i → liveAt s.1.disk s.2 i = none := by
    intro i hi
    cases hlive : liveAt s.1.disk s.2 i with
    | none => rfl
    | some de =>
      have hthree := length_filterMap_three ha hb hlive hi (liveAt_lt hlive)
      have hcount : 3 ≤ (liveEntries s.1.disk s.2).length := hthree
      omega
  have hmissing : ∀ k, 0 < k → fileBlock s.1.disk s.2 k = 0 := by
    intro k hk
    by_contra hnz
    obtain ⟨i, hi, hlive⟩ := ht.filled k hk hnz
    exact hlive (honly i (by omega))
  refine ⟨⟨a, ha, hdot⟩, ⟨b, hb, hdotDot⟩, honly, fun k hk => ?_⟩
  rw [List.mem_range'_1] at hk
  by_cases h12 : k < 12
  · have hk0 := hmissing k (by omega)
    rwa [fileBlock_direct _ _ h12] at hk0
  · obtain rfl : k = 12 := by omega
    by_contra hne
    exact ht.table hne (hmissing 12 (by decide))

/-- The sample directory with its dots and nothing else. -/
theorem home_fresh : FreshDir (homeVol 2) (sampleDir 2) where
  used := ⟨by decide, by decide, by decide +kernel⟩
  rest k hk := by
    by_cases h12 : k < 12
    · rw [sampleDir_sec h12, if_neg (by omega)]
    · by_cases htab : k = 12
      · rw [htab, sampleDir_table, if_neg (by decide)]
      · rw [Inode.sec, dif_neg (by omega)]
  size := rfl
  entries := by
    refine ⟨0, 0, (Mem.zero.blit 0 (homeDot dot).bytes 24).blit 24 (homeDot dotDot).bytes 24, rfl,
      fun i hi => ?_⟩
    revert i
    decide +kernel

/-- A file made and deleted again leaves an empty directory. -/
theorem empty_dir_has_dots_only_again :
    ∃ s, (entryMachine blankPartition).run (homeVol 2, sampleDir 2)
        [.insert (sampleEntry 2), .remove 0 3] = some s ∧
      (∃ de, liveAt s.1.disk s.2 0 = some de ∧ de.named dot = true) ∧
      (∃ de, liveAt s.1.disk s.2 1 = some de ∧ de.named dotDot = true) ∧
      (∀ i, 2 ≤ i → liveAt s.1.disk s.2 i = none) ∧
      ∀ blockIdx ∈ List.range' 1 12, s.2.sec blockIdx = 0 := by
  have hrun : ((entryMachine blankPartition).run (homeVol 2, sampleDir 2)
      [.insert (sampleEntry 2), .remove 0 3]).map (fun s => dirIsEmpty s.2) = some true := by
    decide +kernel
  obtain ⟨s, h, hempty⟩ := Option.map_eq_some_iff.mp hrun
  refine ⟨s, h, empty_dir_has_dots_only ?_ hempty⟩
  obtain ⟨s1, h1, h⟩ := Option.bind_eq_some_iff.mp h
  obtain ⟨s2, h2, h⟩ := Option.bind_eq_some_iff.mp h
  obtain rfl := Option.some.inj h
  have hmay : (entryMachine blankPartition).may (homeVol 2, sampleDir 2) (.insert (sampleEntry 2)) :=
    ⟨sampleEntry_live 2, sampleEntry_plain (by decide)⟩
  have hmay' : (entryMachine blankPartition).may s1 (.remove 0 3) := trivial
  exact ((Lib.Machine.Reach.start home_fresh).step hmay trivial h1).step hmay' trivial h2

end OsCore.Fs
