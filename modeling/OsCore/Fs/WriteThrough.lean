import OsCore.Fs.BitmapSync

/-!
# Bitmaps are written through

The five calls that take or give back blocks and inodes, against `Vol.Flushed`.
What they have in common is an inode whose block addresses must not lead into the
bitmaps, and that is what `Consistent` is for: no block is held by two inodes and
every block held is marked, where an inode is a struct in memory or, if none
carries the number, its slot of the table.

`sys_mkdir`, `sys_unlink` and `sys_rmdir` search a path first, which opens one
directory after the other. An open moves an inode from the table into memory
(`inodeOpen_consistent`), and closing it again gives the state before back, so the
search ends in a state as consistent as the one it started in.

A removal rewrites the directory's inode before it releases the child. The child
is then read again, possibly from the table, but the directory is written to its
own slot or to one that carries its number, which `inode_release` rejects.
-/

namespace OsCore.Fs

open OsCore.Lib

variable {p : Partition}

/-! ## A consistent partition -/

namespace Mounted

/-- The inodes there are: structs by their addresses, and those on disk by their
numbers. -/
def known (s : Mounted p) : Nat ⊕ Nat → Option Inode
  | .inl a => s.inodeAt a
  | .inr n => if n < 4096 ∧ s.Misses n then some (Inode.ofMem s.vol.disk (p.slotAddr n)) else none

theorem known_slot {s : Mounted p} {n : Nat} (hn : n < 4096) (h : s.Misses n) :
    s.known (.inr n) = some (Inode.ofMem s.vol.disk (p.slotAddr n)) := if_pos ⟨hn, h⟩

end Mounted

/-- No two inodes share a block, every block held is marked, and a slot of the
table has the inode of its own number or no blocks. -/
structure Consistent (s : Mounted p) : Prop where
  below : ∀ e ∈ s.openInodes, e.1 < s.brk
  nodup : (s.openInodes.map (·.1)).Nodup
  owned : Owned s.vol s.known
  numbered : ∀ n, n < 4096 → s.Misses n → (Inode.ofMem s.vol.disk (p.slotAddr n)).no = n ∨
    ∀ k, (Inode.ofMem s.vol.disk (p.slotAddr n)).sec k = 0

theorem Consistent.held {s : Mounted p} (h : Consistent s) {a : Nat} {i : Inode}
    (hat : s.inodeAt a = some i) : Held s.vol i := h.owned.held (n := Sum.inl a) hat

theorem Consistent.brk {s : Mounted p} (h : Consistent s) {b : Nat} (hb : s.brk ≤ b) :
    Consistent { s with brk := b } :=
  ⟨fun e he => Nat.lt_of_lt_of_le (h.below e he) hb, h.nodup, h.owned, h.numbered⟩

/-- Inodes may go by other names, each by one. -/
theorem Owned.rename {N M : Type} {v : Vol p} {ino : N → Option Inode} {ino' : M → Option Inode}
    (h : Owned v ino) (f : M → N)
    (hslot : ∀ x k, slots v.disk (ino' x) k ≠ 0 →
      slots v.disk (ino' x) k = slots v.disk (ino (f x)) k)
    (hinj : ∀ x y k l, slots v.disk (ino' x) k ≠ 0 → slots v.disk (ino' y) l ≠ 0 →
      f x = f y → x = y) : Owned v ino' := by
  refine ⟨fun s t he hne => ?_, fun s hne => ?_⟩
  · have hne' : slots v.disk (ino' t.1) t.2 ≠ 0 := he ▸ hne
    have hs := hslot s.1 s.2 hne
    have ht := hslot t.1 t.2 hne'
    have hst := h.inj (f s.1, s.2) (f t.1, t.2) (hs.symm.trans (he.trans ht)) (hs ▸ hne)
    rw [Prod.mk.injEq] at hst
    exact Prod.ext (hinj s.1 t.1 s.2 t.2 hne hne' hst.1) hst.2
  · have hs := hslot s.1 s.2 hne
    have hu := h.used (f s.1, s.2) (hs ▸ hne)
    exact hs ▸ hu

/-! ## Opening inodes -/

theorem misses_setOpenCnts (s : Mounted p) (a m : Nat) (c : Inode → Nat) :
    (s.modifyInode a fun i => i.setOpenCnts (c i)).Misses m ↔ s.Misses m := by
  unfold Mounted.Misses Mounted.modifyInode
  rw [List.forall_mem_map]
  apply forall₂_congr
  intro e _
  split
  · rw [Inode.no_setOpenCnts]
  · exact Iff.rfl

/-- One more user of a struct in memory. -/
theorem Consistent.count {s : Mounted p} (h : Consistent s) (a : Nat) (c : Inode → Nat) :
    Consistent (s.modifyInode a fun i => i.setOpenCnts (c i)) := by
  have hmiss := fun m => misses_setOpenCnts s a m c
  have hslot : ∀ x k, slots s.vol.disk ((s.modifyInode a fun i => i.setOpenCnts (c i)).known x) k =
      slots s.vol.disk (s.known x) k := by
    intro x k
    cases x with
    | inl b =>
      show slots s.vol.disk ((s.modifyInode a fun i => i.setOpenCnts (c i)).inodeAt b) k = _
      rw [Mounted.inodeAt_modifyInode]
      by_cases hb : b = a
      · rw [if_pos hb, hb]
        show _ = slots s.vol.disk (s.inodeAt a) k
        cases s.inodeAt a with
        | none => rfl
        | some i => exact slot_setOpenCnts _ _ _ _
      · rw [if_neg hb]
        rfl
    | inr m =>
      show slots s.vol.disk (if m < 4096 ∧ _ then some (Inode.ofMem s.vol.disk _) else none) k =
        slots s.vol.disk (if _ then _ else _) k
      simp only [hmiss]
  refine ⟨fun e he => ?_, ?_, ?_, fun n hn hm => h.numbered n hn ((hmiss n).mp hm)⟩
  · obtain ⟨i, hi, -⟩ := Mounted.mem_modifyInode he
    exact h.below (e.1, i) hi
  · rw [Mounted.map_modifyInode]
    exact h.nodup
  · exact h.owned.rename id (fun x k _ => hslot x k) fun x y _ _ _ _ he => he

/-- An inode comes into memory from its slot. -/
theorem Consistent.load {s : Mounted p} (h : Consistent s) {n : Nat} (hn : n < 4096)
    (hmiss : s.Misses n) :
    Consistent { s with
      openInodes := (s.brk, (Inode.ofMem s.vol.disk (p.slotAddr n)).setOpenCnts 1) :: s.openInodes
      brk := s.brk + 1 } := by
  have hof := Mounted.known_slot hn hmiss
  have hnum := h.numbered n hn hmiss
  generalize hst : ({ s with
      openInodes := (s.brk, (Inode.ofMem s.vol.disk (p.slotAddr n)).setOpenCnts 1) :: s.openInodes
      brk := s.brk + 1 } : Mounted p) = st
  generalize hi : Inode.ofMem s.vol.disk (p.slotAddr n) = i at hst hof hnum
  have hvol : st.vol = s.vol := by rw [← hst]
  have hat : ∀ b, st.inodeAt b = if b = s.brk then some (i.setOpenCnts 1) else s.inodeAt b := by
    intro b
    rw [← hst, Mounted.inodeAt_eq_lookup, Mounted.lookup_cons]
    simp only [eq_comm]
    rfl
  have hback : ∀ m, st.Misses m → s.Misses m ∧ i.no ≠ m := by
    intro m hm
    rw [← hst] at hm
    have hall : ∀ e ∈ (s.brk, i.setOpenCnts 1) :: s.openInodes, e.2.no ≠ m := hm
    rw [List.forall_mem_cons] at hall
    exact ⟨hall.2, hall.1⟩
  refine ⟨fun e he => ?_, ?_, ?_, fun m hm hmm => ?_⟩
  · rw [← hst] at he ⊢
    rcases List.mem_cons.mp he with rfl | he
    · exact Nat.lt_succ_self _
    · exact Nat.lt_succ_of_lt (h.below e he)
  · rw [← hst]
    refine List.nodup_cons.mpr ⟨fun hmem => ?_, h.nodup⟩
    obtain ⟨e, he, heq⟩ := List.mem_map.mp hmem
    have hlt := h.below e he
    rw [heq] at hlt
    exact Nat.lt_irrefl _ hlt
  · -- the struct takes the place of the slot
    rw [hvol]
    refine h.owned.rename (fun x => if x = .inl s.brk then .inr n else x) (fun x k hne => ?_)
      fun x y k l hx hy he => ?_
    · cases x with
      | inl b =>
        have hx : st.known (.inl b) = if b = s.brk then some (i.setOpenCnts 1) else s.inodeAt b :=
          hat b
        rw [hx]
        by_cases hb : b = s.brk
        · rw [if_pos hb, if_pos (by rw [hb]), hof]
          exact slot_setOpenCnts _ _ _ _
        · rw [if_neg hb, if_neg (by simpa using hb)]
          rfl
      | inr m =>
        rw [if_neg (by simp)]
        by_cases hm : m < 4096 ∧ st.Misses m
        · rw [Mounted.known_slot hm.1 hm.2, Mounted.known_slot hm.1 (hback m hm.2).1, hvol]
        · have h1 : st.known (.inr m) = none := if_neg hm
          rw [h1] at hne
          exact absurd rfl hne
    · -- slot `n` is not known any more, or has no blocks
      have hgone : ∀ k, slots s.vol.disk (st.known (.inr n)) k = 0 := by
        intro k
        rcases hnum with hno | hz
        · have h1 : st.known (.inr n) = none := if_neg fun hm => (hback n hm.2).2 hno
          rw [h1]
          rfl
        · by_cases hm : n < 4096 ∧ st.Misses n
          · rw [Mounted.known_slot hm.1 hm.2, hvol, hi]
            exact slot_of_sec hz k
          · have h1 : st.known (.inr n) = none := if_neg hm
            rw [h1]
            rfl
      by_cases hxb : x = .inl s.brk
      · by_cases hyb : y = .inl s.brk
        · rw [hxb, hyb]
        · simp only [if_pos hxb, if_neg hyb] at he
          rw [← he] at hy
          exact absurd (hgone l) hy
      · by_cases hyb : y = .inl s.brk
        · simp only [if_neg hxb, if_pos hyb] at he
          rw [he] at hx
          exact absurd (hgone k) hx
        · simp only [if_neg hxb, if_neg hyb] at he
          exact he
  · rw [hvol]
    exact h.numbered m hm (hback m hmm).1

/-- **An open** leaves the partition consistent. -/
theorem inodeOpen_consistent {s st : Mounted p} {n a : Nat} (h : Consistent s)
    (hopen : inodeOpen s n = some (a, st)) : Consistent st ∧ st.vol = s.vol := by
  cases hfind : s.openInodes.find? fun e => e.2.no == n with
  | some e =>
    simp only [inodeOpen, hfind, Option.some.injEq, Prod.mk.injEq] at hopen
    obtain ⟨-, rfl⟩ := hopen
    exact ⟨h.count _ _, rfl⟩
  | none =>
    have hmiss : s.Misses n := fun e he => by simpa using List.find?_eq_none.mp hfind e he
    have hn := inodeOpen_lt hmiss hopen
    rw [inodeOpen_miss hn hmiss, Option.some.injEq, Prod.mk.injEq] at hopen
    obtain ⟨-, rfl⟩ := hopen
    exact ⟨h.load hn hmiss, rfl⟩

/-- Closing what was opened gives the state before back. -/
theorem dirOpen_back {s st : Mounted p} {n : Nat} {dir : DirHandle} (hs : Steady s)
    (h : dirOpen s n = some (dir, st)) :
    ∃ b, s.brk ≤ b ∧ dirClose st dir = some { s with brk := b } := by
  simp only [dirOpen, Option.bind_eq_bind, Option.bind_eq_some_iff, Prod.exists, Option.pure_def,
    Option.some.injEq, Prod.mk.injEq] at h
  obtain ⟨a, st', hopen, rfl, rfl⟩ := h
  have hholds : ∃ a' st', inodeOpen s n = some (a', st') ∧ OpenedAs s 0 n (.opened a') st' := by
    cases hfind : s.openInodes.find? fun e => e.2.no == n with
    | some e => exact inodeOpen_hit_holds hs 0 hfind
    | none =>
      have hmiss : s.Misses n := fun e he => by simpa using List.find?_eq_none.mp hfind e he
      exact inodeOpen_miss_holds hs 0 (inodeOpen_lt hmiss hopen) hmiss
  obtain ⟨a', st'', hopen', hholds⟩ := hholds
  obtain ⟨rfl, rfl⟩ := Prod.mk.inj (Option.some.inj (hopen.symm.trans hopen'))
  exact hholds.close

theorem dirOpen_consistent {s st : Mounted p} {n : Nat} {dir : DirHandle} (h : Consistent s)
    (hopen : dirOpen s n = some (dir, st)) : Consistent st ∧ st.vol = s.vol := by
  simp only [dirOpen, Option.bind_eq_bind, Option.bind_eq_some_iff, Prod.exists, Option.pure_def,
    Option.some.injEq, Prod.mk.injEq] at hopen
  obtain ⟨a, st', hopen, -, rfl⟩ := hopen
  exact inodeOpen_consistent h hopen

/-- **A search** leaves the partition consistent, and the volume alone. -/
theorem searchFile_consistent {s s' : Mounted p} (hs : Steady s) (hc : Consistent s)
    {rootDir : Nat} {dirE : DirEntry} {pathname : List UInt8} {n : Int}
    {record : PathSearchRecord}
    (h : searchFile rootDir dirE s pathname = some (n, record, s')) :
    Consistent s' ∧ s'.vol = s.vol := by
  have hkeep := searchFile_keeps (P := fun dir st => (Consistent st ∧ st.vol = s.vol) ∧
    ∃ b, s.brk ≤ b ∧ dirClose st dir = some { s with brk := b }) (s := s) ?_
    ⟨⟨hc, rfl⟩, s.brk, Nat.le_refl _, rfl⟩ h
  · exact hkeep.1
  · intro dir dir' st s1 st' m hst hclose hopen
    obtain ⟨-, b, hb, hback⟩ := hst
    obtain rfl := Option.some.inj (hclose.symm.trans hback)
    have hopened := dirOpen_consistent (hc.brk hb) hopen
    refine ⟨hopened, ?_⟩
    obtain ⟨b', hb', hback'⟩ := dirOpen_back (hs.brk hb) hopen
    exact ⟨b', Nat.le_trans hb hb', hback'⟩

theorem dirClose_vol {k k' : FileSys p} {dir : DirHandle} (h : k.dirClose dir = some k') :
    k'.part.vol = k.part.vol := by
  obtain ⟨part, hclose, rfl⟩ := dirClose_eq h
  cases dir with
  | root =>
    obtain rfl := Option.some.inj hclose
    rfl
  | opened a => exact (inodeClose_touched hclose).2.1

/-! ## Making files and directories -/

theorem Held.sec_offMaps {v : Vol p} {ino : Inode} (h : Held v ino) (k : Nat) :
    OffMaps p (ino.sec k) := by
  by_cases h12 : k < 12
  · have := h.offMaps k
    rwa [slot_block _ _ (by omega), fileBlock_direct _ _ h12] at this
  · by_cases he : k = 12
    · have := h.offMaps 140
      rwa [slot_table, ← he] at this
    · rw [Inode.sec_ge (by omega)]
      exact offMaps_zero

/-- **`file_create`.** -/
theorem fileCreate_flushed {k k' : FileSys p} {t : Nat} {parentDir : DirHandle}
    {filename : List UInt8} {flag : UInt8} {heap : Grants} {r : Int} (hc : Consistent k.part)
    (hv : k.part.vol.Flushed) (h : fileCreate k t parentDir filename flag heap = some (r, k'))
    (hr : r ≠ -1) : k'.part.vol.Flushed := by
  unfold fileCreate fileCreateWith at h
  split at h
  · exact absurd (Prod.mk.inj (Option.some.inj h)).1.symm hr
  simp only [Option.bind_eq_bind, Option.bind_eq_some_iff, Prod.exists] at h
  obtain ⟨no, v1, halloc, h⟩ := h
  obtain ⟨n, rfl, hn, -, -, rfl⟩ := inodeBitmapAlloc_spec halloc
  rw [if_neg (by omega), Int.toNat_natCast] at h
  split at h
  · exact absurd (Prod.mk.inj (Option.some.inj h)).1.symm hr
  split at h
  · exact absurd (Prod.mk.inj (Option.some.inj h)).1.symm hr
  next g hslot =>
  simp only [fillSlotWith, Option.bind_eq_bind, Option.bind_eq_some_iff, Prod.exists] at h
  obtain ⟨de, -, parent, hparent, ok, v2, parent', hsync, h⟩ := h
  obtain ⟨rfl, -⟩ := syncDirEntry_kept hsync
  simp only [Bool.not_true, Bool.false_eq_true, if_false, Option.bind_eq_some_iff,
    Option.pure_def, Option.some.injEq] at h
  obtain ⟨v3, h3, v4, h4, v5, h5, h⟩ := h
  -- the bit of the new inode is set first, and its sector written last
  have hb2 : v2.BlocksSynced :=
    syncDirEntry_synced (v := k.part.vol.setInode n true) hv.blocks
      (hc.held hparent).sec_offMaps hsync
  have hb4 := ((inodeSync_apart h3).trans (inodeSync_apart h4)).blocksSynced.mpr hb2
  obtain ⟨-, hpart, -⟩ := (pcbFdInstall_spec h).slotted (getFreeSlot_some hslot)
  rw [hpart]
  exact hb4.flush hn h5

/-- What follows the inode bit in `sys_mkdir`. -/
theorem makeDir_flushed {v v' : Vol p} {parent parent' : Inode} {dirname : List UInt8} {n : Nat}
    {ok : Bool} (hv : v.BlocksSynced) (hn : n < 4096) (hsec : ∀ k, OffMaps p (parent.sec k))
    (h : makeDirWith blockBitmapAlloc v parent dirname n = some (ok, v', parent')) :
    v'.Flushed := by
  unfold makeDirWith at h
  simp only [Option.bind_eq_bind, Option.bind_eq_some_iff, Prod.exists] at h
  obtain ⟨lba, v1, halloc, h⟩ := h
  obtain ⟨hm1, hfresh, -, -, hidx, -⟩ := alloc_spec halloc
  rw [if_neg hm1] at h
  simp only [Option.bind_eq_some_iff, Prod.exists] at h
  obtain ⟨-, -, v2, hsync, ioBuf, -, d, hwrite, de, -, ok1, v3, parent1, hentry, h⟩ := h
  rw [blockBit_eq hfresh.data hidx] at hsync
  obtain ⟨hv2, -, hoff, hword⟩ := take_blocksSynced hv halloc hsync
  obtain ⟨rfl, -⟩ := syncDirEntry_kept hentry
  simp only [Bool.not_true, Bool.false_eq_true, if_false, Option.bind_eq_some_iff,
    Option.pure_def, Option.some.injEq, Prod.mk.injEq] at h
  obtain ⟨v4, h4, v5, h5, v6, h6, -, rfl, -⟩ := h
  have hfirst : ((newInode n).setSec 0 lba.toNat).sec 0 = lba.toNat := by
    rw [Inode.sec_setSec (by decide) hword, if_pos rfl]
  rw [hfirst] at hwrite
  have hb2 := (hoff.ideWrite hwrite).blocksSynced.mpr hv2
  have hb3 := syncDirEntry_synced hb2 hsec hentry
  have hb5 := ((inodeSync_apart h4).trans (inodeSync_apart h5)).blocksSynced.mpr hb3
  exact hb5.flush hn h6

/-- **`sys_mkdir`.** -/
theorem sysMkdir_flushed {k k' : FileSys p} {pathname : List UInt8} {heap : Grants} {stack : Stack}
    {r : Int} (hs : Steady k.part) (hc : Consistent k.part) (hv : k.part.vol.Flushed)
    (h : sysMkdir k pathname heap stack = some (r, k')) : k'.part.vol.Flushed := by
  cases sysMkdir_cases h with
  | refused he =>
    rw [he]
    exact hv
  | failed n record part hfile hclose =>
    rw [dirClose_vol hclose, (searchFile_consistent hs hc hfile).2]
    exact hv
  | made n pa record part parent parent' ok vol hfile hn hfree hparent hmake hclose =>
    obtain ⟨hpart, hvol⟩ := searchFile_consistent hs hc hfile
    rw [dirClose_vol hclose]
    refine makeDir_flushed (v := part.vol.setInode n true) ?_ hn (hpart.held hparent).sec_offMaps
      hmake
    rw [hvol]
    exact hv.blocks

/-! ## Removal -/

/-- The entry in the directory at `pa` goes, then the inode numbered `m`. -/
theorem removal_flushed {s s' : Mounted p} {pa n m : Nat} {ino ino' : Inode} {v' : Vol p}
    {r : Bool} (hc : Consistent s) (hv : s.vol.Flushed) (hat : s.inodeAt pa = some ino)
    (hdel : deleteDirEntry 0 s.vol ino n = some (r, v', ino'))
    (hrel : inodeRelease ({ s with vol := v' }.modifyInode pa fun _ => ino') m = some s') :
    s'.vol.Flushed := by
  have hheld := hc.held hat
  have hstep := deleteDirEntry_spec hheld hdel
  refine inodeRelease_flushed (deleteDirEntry_flushed hheld hv hdel) (fun a s1 i hopen hi hno => ?_)
    hrel
  generalize hs2 : ({ s with vol := v' }.modifyInode pa fun _ => ino') = s2 at hopen
  have hvol : s2.vol = v' := by rw [← hs2]; rfl
  have hat2 : ∀ b, s2.inodeAt b = if b = pa then some ino' else s.inodeAt b := by
    intro b
    rw [← hs2, Mounted.inodeAt_modifyInode]
    by_cases hb : b = pa
    · rw [if_pos hb, if_pos hb, show ({ s with vol := v' } : Mounted p).inodeAt pa = some ino from hat]
      rfl
    · rw [if_neg hb, if_neg hb]
      rfl
  have hnd : (s2.openInodes.map (·.1)).Nodup := by
    rw [← hs2, Mounted.map_modifyInode]
    exact hc.nodup
  -- the inodes known before, with the directory's struct as it is now
  have howned : Owned v' (fun x => if x = .inl pa then some ino' else s.known x) := by
    refine Rewrites.owned (n := Sum.inl pa) (i := ino) ?_ hat (fun x hx => ?_) hc.owned
    · rw [if_pos rfl]
      exact hstep.blocks
    · rw [if_neg hx]
  have hheld2 : ∀ b j, s2.inodeAt b = some j → Held v' j := by
    intro b j hj
    apply howned.held (n := Sum.inl b)
    rw [hat2] at hj
    by_cases hb : b = pa
    · rw [if_pos hb] at hj
      rw [if_pos (by rw [hb]), hj]
    · rw [if_neg hb] at hj
      rw [if_neg (by simpa using hb)]
      exact hj
  rw [hvol]
  cases hfind : s2.openInodes.find? fun e => e.2.no == m with
  | some e =>
    obtain ⟨b, j⟩ := e
    simp only [inodeOpen, hfind, Option.some.injEq, Prod.mk.injEq] at hopen
    obtain ⟨rfl, rfl⟩ := hopen
    have hj : s2.inodeAt b = some j :=
      Mounted.lookup_of_mem hnd (List.mem_of_find?_eq_some hfind)
    rw [Mounted.inodeAt_modifyInode, if_pos rfl, hj, Option.map_some, Option.some.injEq] at hi
    subst hi
    exact ⟨hvol, (hheld2 b j hj).setOpenCnts _⟩
  | none =>
    have hmiss : s2.Misses m := fun e he => by simpa using List.find?_eq_none.mp hfind e he
    have hm := inodeOpen_lt hmiss hopen
    rw [inodeOpen_miss hm hmiss, Option.some.injEq, Prod.mk.injEq] at hopen
    obtain ⟨rfl, rfl⟩ := hopen
    rw [Mounted.inodeAt_eq_lookup, Mounted.lookup_cons, if_pos rfl, Option.some.injEq] at hi
    subst hi
    rw [Inode.no_setOpenCnts, hvol] at hno
    refine ⟨hvol, Held.setOpenCnts ?_ _⟩
    rw [hvol]
    rw [← hs2] at hmiss
    have hmiss' := hmiss.of_modify hc.nodup hat hstep.no
    rcases hstep.table m hm with hsame | hsaved
    · rw [Inode.ofMem_congr hsame]
      apply howned.held (n := Sum.inr m)
      rw [if_neg (by simp)]
      exact Mounted.known_slot hm hmiss'
    · -- that number is in memory
      exact absurd (hsaved.symm.trans hno) (hmiss' (pa, ino) (Mounted.lookup_mem hat))

theorem deleteRelease_flushed {k k2 k3 : FileSys p} {dir : DirHandle} {n : Nat}
    (hc : Consistent k.part) (hv : k.part.vol.Flushed) (hdel : k.deleteEntry dir n = some k2)
    (hrel : k2.release n = some k3) : k3.part.vol.Flushed := by
  simp only [FileSys.deleteEntry, Option.bind_eq_bind, Option.bind_eq_some_iff, Prod.exists,
    Option.pure_def, Option.some.injEq] at hdel
  obtain ⟨ino, hat, r, v', ino', hdel, rfl⟩ := hdel
  simp only [FileSys.release, Option.bind_eq_bind, Option.bind_eq_some_iff, Option.pure_def,
    Option.some.injEq] at hrel
  obtain ⟨part, hrel, rfl⟩ := hrel
  exact removal_flushed hc hv hat hdel hrel

/-- **`sys_unlink`.** -/
theorem sysUnlink_flushed {k k' : FileSys p} {pathname : List UInt8} {heap : Grants}
    {stack : Stack} {r : Int} (hs : Steady k.part) (hc : Consistent k.part)
    (hv : k.part.vol.Flushed) (h : sysUnlink k pathname heap stack = some (r, k')) :
    k'.part.vol.Flushed := by
  cases sysUnlink_cases h with
  | failed n record part hfile hclose =>
    rw [dirClose_vol hclose, (searchFile_consistent hs hc hfile).2]
    exact hv
  | removed n record part k2 k3 hfile _ _ _ _ hdel hrel hclose =>
    obtain ⟨hpart, hvol⟩ := searchFile_consistent hs hc hfile
    rw [dirClose_vol hclose]
    refine deleteRelease_flushed hpart ?_ hdel hrel
    rw [hvol]
    exact hv

/-- **`sys_rmdir`.** -/
theorem sysRmdir_flushed {k k' : FileSys p} {pathname : List UInt8} {heap : Grants}
    {stack : Stack} {r : Int} (hs : Steady k.part) (hc : Consistent k.part)
    (hv : k.part.vol.Flushed) (h : sysRmdir k pathname heap stack = some (r, k')) :
    k'.part.vol.Flushed := by
  cases sysRmdir_cases h with
  | failed n record part hfile hclose =>
    rw [dirClose_vol hclose, (searchFile_consistent hs hc hfile).2]
    exact hv
  | refused n record part part' dir k2 hfile hopen hclose1 hclose2 =>
    obtain ⟨hpart, hvol⟩ := searchFile_consistent hs hc hfile
    rw [dirClose_vol hclose2, dirClose_vol hclose1, (dirOpen_consistent hpart hopen).2, hvol]
    exact hv
  | removed n record part part' dir child k2 k3 k4 hfile _ _ hopen _ _ _ hdel hrel hclose1 hclose2 =>
    obtain ⟨hpart, hvol⟩ := searchFile_consistent hs hc hfile
    obtain ⟨hpart', hvol'⟩ := dirOpen_consistent hpart hopen
    rw [dirClose_vol hclose2, dirClose_vol hclose1]
    refine deleteRelease_flushed (k := { k with part := part' }) hpart' ?_ hdel hrel
    rw [hvol', hvol]
    exact hv

/-! ## The five calls -/

/-- **The bitmaps are written through.** On a consistent partition whose bitmaps
are on disk what they are in memory, they are so again after `file_create`,
`sys_mkdir`, `sys_unlink` and `sys_rmdir`, and after a `file_write` exactly if the
block of the indirect table, when one is taken, is synced with its neighbour. -/
theorem bitmaps_written_through (k : FileSys p) (hs : Steady k.part) (hc : Consistent k.part)
    (hv : k.part.vol.Flushed) :
    (∀ t parentDir filename flag heap r k',
      fileCreate k t parentDir filename flag heap = some (r, k') → r ≠ -1 →
        k'.part.vol.Flushed) ∧
    (∀ a f buf count r v' f', k.part.inodeAt a = some f.inode →
      fileWrite k.part.vol f buf count = some (r, v', f') → r ≠ -1 →
        (v'.Flushed ↔ TableSynced k.part.vol f.inode count)) ∧
    (∀ pathname heap stack r k', sysMkdir k pathname heap stack = some (r, k') → r ≠ -1 →
      k'.part.vol.Flushed) ∧
    (∀ pathname heap stack r k', sysUnlink k pathname heap stack = some (r, k') → r ≠ -1 →
      k'.part.vol.Flushed) ∧
    (∀ pathname heap stack r k', sysRmdir k pathname heap stack = some (r, k') → r ≠ -1 →
      k'.part.vol.Flushed) := by
  refine ⟨?_, ?_, ?_, ?_, ?_⟩
  · intro t parentDir filename flag heap r k' h hr
    exact fileCreate_flushed hc hv h hr
  · intro a f buf count r v' f' hat h hr
    exact fileWrite_flushed (hc.held hat) hv h hr
  · intro pathname heap stack r k' h _
    exact sysMkdir_flushed hs hc hv h
  · intro pathname heap stack r k' h _
    exact sysUnlink_flushed hs hc hv h
  · intro pathname heap stack r k' h _
    exact sysRmdir_flushed hs hc hv h

/-! ## A table in one sector, its first block in the next -/

/-- A partition with a block bitmap of three sectors. -/
def widePartition : Partition where
  startLba := 0
  secCnt := 10000
  room := by decide
  fits := by decide

/-- All bits of the first sector are set but the last. -/
def fullBits : Mem := fun i => if i < 511 then 0xff else if i = 511 then 0x7f else 0

theorem inodeBits_length :
    (⟨Partition.inodeBitmapSects * 512, Mem.zero⟩ : Bitmap).bytesLen =
      Partition.inodeBitmapSects * 512 := rfl

/-- The volume with that bitmap, on disk and in memory. -/
def fullVol : Vol widePartition where
  disk := fun a => if 1024 ≤ a ∧ a < 1536 then fullBits (a - 1024) else 0
  blockBitmap := ⟨widePartition.blockBitmapSects * 512, fullBits⟩
  inodeBitmap := ⟨Partition.inodeBitmapSects * 512, Mem.zero⟩
  blockLen := rfl
  inodeLen := inodeBits_length

/-- A file of twelve blocks with one byte to go. -/
def fullInode : Inode :=
  { blankInode 1 with
    iSize := 6143
    iOpenCnts := 1
    iSectors := fun k =>
      if k.val < 12 then UInt32.ofNat (widePartition.dataStartLba + k.val + 1) else 0 }

/-- That file open, and nothing else. -/
def fullSys : FileSys widePartition where
  part := ⟨fullVol, [(1, fullInode)], 2⟩
  rootDir := 0
  fileTable := fun g => if g = 3 then ⟨0, 1, 1⟩ else ⟨0, 0, 0⟩
  userInodes := []
  dirs := []
  live := {0}
  pcb := fun _ => ⟨fun i => if i < 4 then i else -1, 0, false⟩

theorem widePartition_geometry : widePartition.blockBitmapLba = 2 ∧
    widePartition.blockBitmapSects = 3 ∧ widePartition.inodeBitmapLba = 5 := by decide

theorem full_flushed : fullVol.Flushed := by
  obtain ⟨h1, h2, h3⟩ := widePartition_geometry
  refine ⟨fun sec hs i hi => ?_, fun i hi => ?_⟩
  · rw [h1]
    show (if 1024 ≤ 512 * (2 + sec) + i ∧ 512 * (2 + sec) + i < 1536 then
      fullBits (512 * (2 + sec) + i - 1024) else 0) = fullBits (512 * sec + i)
    by_cases h0 : sec = 0
    · rw [h0, if_pos (by omega), show 512 * (2 + 0) + i - 1024 = 512 * 0 + i by omega]
    · rw [if_neg (by omega), fullBits, if_neg (by omega), if_neg (by omega)]
  · rw [h3]
    show (if 1024 ≤ 512 * 5 + i ∧ 512 * 5 + i < 1536 then _ else (0 : UInt8)) = 0
    rw [if_neg (by omega)]

theorem full_inodeAt (a : Nat) :
    fullSys.part.inodeAt a = if a = 1 then some fullInode else none := by
  rw [Mounted.inodeAt_eq_lookup]
  show Mounted.lookup [(1, fullInode)] a = _
  rw [Mounted.lookup_cons]
  by_cases h : a = 1
  · rw [if_pos h.symm, if_pos h]
  · rw [if_neg (Ne.symm h), if_neg h]
    rfl

theorem full_slot (k : Nat) :
    slot fullVol.disk fullInode k = if k < 12 then widePartition.dataStartLba + k + 1 else 0 := by
  have hsec : ∀ j : Fin 13, fullInode.sec j =
      if j.val < 12 then widePartition.dataStartLba + j.val + 1 else 0 := by decide +kernel
  have htab : fullInode.sec 12 = 0 := hsec 12
  by_cases h12 : k < 12
  · rw [if_pos h12, slot_block _ _ (by omega), fileBlock_direct _ _ h12]
    exact (hsec ⟨k, by omega⟩).trans (if_pos h12)
  · rw [if_neg h12]
    by_cases h140 : k = 140
    · rw [h140, slot_table, htab]
    · rw [slot, if_neg h140, fileBlock_no_table _ (by omega) htab]

theorem full_used {k : Nat} (hk : k < 12) :
    fullVol.Used (widePartition.dataStartLba + k + 1) := by
  have hall : ∀ k : Fin 12, fullVol.Used (widePartition.dataStartLba + k.val + 1) := by
    decide +kernel
  exact hall ⟨k, hk⟩

theorem full_table (n : Nat) (hn : n < 4096) (k : Nat) :
    (Inode.ofMem fullVol.disk (widePartition.slotAddr n)).sec k = 0 := by
  have hlba : widePartition.inodeTableLba = 6 := by decide
  refine ofMem_zero_sec (fun i hi => if_neg ?_) k
  unfold Partition.slotAddr
  rw [hlba]
  omega

theorem full_steady : Steady fullSys.part := by
  refine ⟨fun e he => ?_, by decide, fun e he => ?_⟩
  · rw [List.mem_singleton.mp he]
    decide
  · rw [List.mem_singleton.mp he]
    decide

theorem full_consistent : Consistent fullSys.part := by
  refine ⟨full_steady.below, full_steady.nodup, ?_, fun n hn _ => Or.inr (full_table n hn)⟩
  -- the one inode with blocks is the struct
  have hslots : ∀ x k, slots fullSys.part.vol.disk (fullSys.part.known x) k ≠ 0 →
      x = .inl 1 ∧ k < 12 ∧ slots fullSys.part.vol.disk (fullSys.part.known x) k =
        widePartition.dataStartLba + k + 1 := by
    intro x k hne
    cases x with
    | inl a =>
      have hx : fullSys.part.known (.inl a) = if a = 1 then some fullInode else none :=
        full_inodeAt a
      rw [hx] at hne ⊢
      by_cases ha : a = 1
      · rw [if_pos ha] at hne ⊢
        have hk := full_slot k
        rw [slots_some] at hne ⊢
        rw [show fullSys.part.vol.disk = fullVol.disk from rfl, hk] at hne ⊢
        by_cases h12 : k < 12
        · rw [if_pos h12]
          exact ⟨by rw [ha], h12, rfl⟩
        · rw [if_neg h12] at hne
          exact absurd rfl hne
      · rw [if_neg ha] at hne
        exact absurd rfl hne
    | inr n =>
      refine absurd ?_ hne
      by_cases hn : n < 4096 ∧ fullSys.part.Misses n
      · rw [Mounted.known_slot hn.1 hn.2]
        exact slot_of_sec (full_table n hn.1) k
      · have hx : fullSys.part.known (.inr n) = none := if_neg hn
        rw [hx]
        rfl
  refine ⟨fun s t he hne => ?_, fun s hne => ?_⟩
  · obtain ⟨h1, -, h2⟩ := hslots s.1 s.2 hne
    obtain ⟨h3, -, h4⟩ := hslots t.1 t.2 (he ▸ hne)
    rw [h2, h4] at he
    exact Prod.ext (h1.trans h3.symm) (by omega)
  · obtain ⟨-, h12, h2⟩ := hslots s.1 s.2 hne
    rw [h2]
    exact full_used h12

/-- One more byte: bit 4095 goes to the table, bit 4096 to the thirteenth block,
and only the second sector of the map is written. -/
theorem full_write : ∃ v' f', fileWrite fullVol ⟨0, 1, fullInode⟩ Mem.zero 1 = some (1, v', f') ∧
    v'.disk 1535 = 0x7f ∧ v'.blockBitmap.bits 511 = 0xff := by
  have hrun : (fileWrite fullVol ⟨0, 1, fullInode⟩ Mem.zero 1).map (fun x =>
      (x.1, x.2.1.disk 1535, x.2.1.blockBitmap.bits 511)) = some (1, 0x7f, 0xff) := by
    decide +kernel
  obtain ⟨⟨r, v', f'⟩, hw, he⟩ := Option.map_eq_some_iff.mp hrun
  simp only [Prod.mk.injEq] at he
  obtain ⟨rfl, h1, h2⟩ := he
  exact ⟨v', f', hw, h1, h2⟩

theorem bitmaps_written_through_full :
    Steady fullSys.part ∧ Consistent fullSys.part ∧ fullSys.part.vol.Flushed ∧
      ∃ v' f', fileWrite fullSys.part.vol ⟨0, 1, fullInode⟩ Mem.zero 1 = some (1, v', f') ∧
        (v'.Flushed ↔ TableSynced fullSys.part.vol fullInode 1) := by
  obtain ⟨v', f', hw, -⟩ := full_write
  obtain ⟨-, hwrite, -⟩ :=
    bitmaps_written_through fullSys full_steady full_consistent full_flushed
  refine ⟨full_steady, full_consistent, full_flushed, v', f', hw, ?_⟩
  exact hwrite 1 ⟨0, 1, fullInode⟩ Mem.zero 1 1 v' f' (full_inodeAt 1) hw (by decide)

/-- **A table block that is not on disk**: the maps agree before the write, and
byte 511 of the block bitmap differs after it. -/
theorem table_block_not_synced :
    Steady fullSys.part ∧ Consistent fullSys.part ∧ fullSys.part.vol.Flushed ∧
      fullSys.part.inodeAt 1 = some fullInode ∧
      ∃ v' f', fileWrite fullSys.part.vol ⟨0, 1, fullInode⟩ Mem.zero 1 = some (1, v', f') ∧
        ¬v'.Flushed := by
  obtain ⟨v', f', hw, h1, h2⟩ := full_write
  refine ⟨full_steady, full_consistent, full_flushed, full_inodeAt 1, v', f', hw, fun hf => ?_⟩
  have hbyte := hf.blocks 0 (by decide) 511 (by decide)
  rw [widePartition_geometry.1] at hbyte
  have hbyte : v'.disk 1535 = v'.blockBitmap.bits 511 := hbyte
  rw [h1, h2] at hbyte
  exact absurd hbyte (by decide)

end OsCore.Fs
