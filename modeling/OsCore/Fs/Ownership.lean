import OsCore.Fs.Release

/-!
# Block ownership over runs

The inodes in memory each hold the blocks their slots name. Over any sequence of
block operations on them (`file_write`, `sync_dir_entry`, `delete_dir_entry`,
`inode_release`, and new inodes coming in empty), no block is in two slots and
every block held is marked in the bitmap.

Four of the five steps are one argument: the operation meets `Rewrites`, and
`Rewrites.owned` moves the ledger. `inode_release` goes through `inode_open`, so
it could also take its block list from the table on disk, where the inode may be
out of date; `Clean` rules that out. Of an inode that is not in memory, the
table has a slot that carries another number, which the `ASSERT` after the open
rejects, or no blocks.

A released inode is gone: what other users of the struct would still do with it
is outside the runs considered here.
-/

namespace OsCore.Fs

variable {p : Partition}

/-! ## Inodes in memory -/

namespace Mounted

/-- `inode_release` is the end of the inode numbered `n`. -/
def forget (s : Mounted p) (n : Nat) : Mounted p :=
  { s with openInodes := s.openInodes.filter fun e => e.2.no ≠ n }

/-- The struct at `a` in a list of structs. -/
def lookup (l : List (Nat × Inode)) (a : Nat) : Option Inode := (l.find? fun e => e.1 == a).map (·.2)

theorem lookup_cons (e : Nat × Inode) (l : List (Nat × Inode)) (a : Nat) :
    lookup (e :: l) a = if e.1 = a then some e.2 else lookup l a := by
  unfold lookup
  by_cases h : e.1 = a <;> simp [h]

theorem lookup_mem {l : List (Nat × Inode)} {a : Nat} {i : Inode} (h : lookup l a = some i) :
    (a, i) ∈ l := by
  induction l with
  | nil => exact absurd h (by simp [lookup])
  | cons e l ih =>
    rw [lookup_cons] at h
    split at h
    next he =>
      obtain rfl := Option.some.inj h
      subst he
      exact List.mem_cons_self
    next => exact List.mem_cons_of_mem _ (ih h)

theorem lookup_none {l : List (Nat × Inode)} {a : Nat} (h : ∀ e ∈ l, e.1 ≠ a) :
    lookup l a = none := by
  induction l with
  | nil => rfl
  | cons e l ih =>
    rw [lookup_cons, if_neg (h e List.mem_cons_self)]
    exact ih fun e' he' => h e' (List.mem_cons_of_mem _ he')

theorem lookup_of_mem {l : List (Nat × Inode)} {a : Nat} {i : Inode}
    (hnd : (l.map (·.1)).Nodup) (h : (a, i) ∈ l) : lookup l a = some i := by
  induction l with
  | nil => exact absurd h List.not_mem_nil
  | cons e l ih =>
    rw [List.map_cons, List.nodup_cons] at hnd
    rw [lookup_cons]
    rcases List.mem_cons.mp h with rfl | h
    · rw [if_pos rfl]
    · rw [if_neg, ih hnd.2 h]
      intro he
      exact hnd.1 (List.mem_map.mpr ⟨(a, i), h, he.symm⟩)

theorem lookup_filter {l : List (Nat × Inode)} {a : Nat} {q : Nat × Inode → Bool}
    (hnd : (l.map (·.1)).Nodup) :
    lookup (l.filter q) a = (lookup l a).filter fun i => q (a, i) := by
  induction l with
  | nil => rfl
  | cons e l ih =>
    rw [List.map_cons, List.nodup_cons] at hnd
    rw [List.filter_cons, lookup_cons]
    by_cases he : e.1 = a
    · have hnone : lookup l a = none :=
        lookup_none fun e' he' h' => hnd.1 (List.mem_map.mpr ⟨e', he', h'.trans he.symm⟩)
      subst he
      by_cases hq : q e = true
      · rw [if_pos hq, lookup_cons, if_pos rfl, if_pos rfl]
        exact (if_pos hq).symm
      · rw [if_neg hq, ih hnd.2, hnone, if_pos rfl]
        exact (if_neg hq).symm
    · rw [if_neg he]
      by_cases hq : q e = true
      · rw [if_pos hq, lookup_cons, if_neg he, ih hnd.2]
      · rw [if_neg hq, ih hnd.2]

theorem lookup_modify {l : List (Nat × Inode)} {a b : Nat} {f : Inode → Inode} :
    lookup (l.map fun e => if e.1 = a then (e.1, f e.2) else e) b =
      if b = a then (lookup l a).map f else lookup l b := by
  induction l with
  | nil => rw [List.map_nil]; split <;> rfl
  | cons e l ih =>
    rw [List.map_cons, lookup_cons, ih]
    by_cases hea : e.1 = a
    · by_cases hb : b = a
      · subst hb
        simp [hea, lookup_cons]
      · have hab : a ≠ b := Ne.symm hb
        simp [hea, hb, hab, lookup_cons]
    · by_cases hb : b = a
      · subst hb
        simp [hea, lookup_cons]
      · simp [hea, hb, lookup_cons]

theorem inodeAt_eq_lookup (s : Mounted p) (a : Nat) : s.inodeAt a = lookup s.openInodes a := rfl

theorem inodeAt_modifyInode (s : Mounted p) (a b : Nat) (f : Inode → Inode) :
    (s.modifyInode a f).inodeAt b = if b = a then (s.inodeAt a).map f else s.inodeAt b :=
  lookup_modify

end Mounted

/-! ## The invariant -/

/-- Of inodes that are not in memory, the table on disk shows no blocks under
their number. -/
def Clean (s : Mounted p) : Prop :=
  ∀ n, n < 4096 → s.Misses n → (Inode.ofMem s.vol.disk (p.slotAddr n)).no ≠ n ∨
    ∀ k, (Inode.ofMem s.vol.disk (p.slotAddr n)).sec k = 0

structure Mounted.Inv (s : Mounted p) : Prop where
  owned : Owned s.vol s.inodeAt
  below : ∀ e ∈ s.openInodes, e.1 < s.brk
  nodup : (s.openInodes.map (·.1)).Nodup
  clean : Clean s

/-- Slots may be empty or as they were. -/
theorem Owned.of_slots {N : Type} {v : Vol p} {ino ino' : N → Option Inode} (h : Owned v ino)
    (hslot : ∀ m k, slots v.disk (ino' m) k = 0 ∨
      slots v.disk (ino' m) k = slots v.disk (ino m) k) : Owned v ino' := by
  refine h.step (fun s => ?_) (fun s t _ hne hfree => ?_) fun s hne => ?_
  · rcases hslot s.1 s.2 with h0 | h1
    · exact Or.inl h0
    · exact Or.inr (Or.inl h1)
  · rcases hslot s.1 s.2 with h0 | h1
    · exact absurd h0 hne
    · rw [h1] at hne hfree
      exact absurd (h.used s hne) hfree
  · rcases hslot s.1 s.2 with h0 | h1
    · exact absurd h0 hne
    · rw [h1] at hne ⊢
      exact h.used s hne

/-- Inodes may leave. -/
theorem Owned.leave {N : Type} {v : Vol p} {ino ino' : N → Option Inode} (h : Owned v ino)
    (hl : ∀ m, ino' m = none ∨ ino' m = ino m) : Owned v ino' := by
  apply h.of_slots
  intro m k
  rcases hl m with h0 | h1
  · rw [h0]
    exact Or.inl rfl
  · rw [h1]
    exact Or.inr rfl

/-! ## One operation on one inode -/

theorem Mounted.Misses.of_modify {s : Mounted p} {a n : Nat} {i i' : Inode} {v' : Vol p}
    (hnd : (s.openInodes.map (·.1)).Nodup) (ha : s.inodeAt a = some i) (hno : i'.no = i.no)
    (h : ({ s with vol := v' }.modifyInode a fun _ => i').Misses n) : s.Misses n := by
  intro hin he
  obtain ⟨b, j⟩ := hin
  by_cases hb : b = a
  · subst hb
    have hj : s.inodeAt b = some j := Mounted.lookup_of_mem hnd he
    rw [ha, Option.some.injEq] at hj
    subst hj
    have := h (b, i') (List.mem_map.mpr ⟨(b, i), he, if_pos rfl⟩)
    rwa [hno] at this
  · exact h (b, j) (List.mem_map.mpr ⟨(b, j), he, if_neg hb⟩)

/-- **The step.** An operation on the struct at `a` that meets the contract
keeps the invariant. -/
theorem Mounted.Inv.update {s : Mounted p} {a : Nat} {i i' : Inode} {v' : Vol p} (hinv : s.Inv)
    (ha : s.inodeAt a = some i) (hrw : Rewrites s.vol i v' (some i')) (hno : i'.no = i.no)
    (htab : TableKept s.vol v' i.no) : ({ s with vol := v' }.modifyInode a fun _ => i').Inv := by
  have hat : ∀ b, ({ s with vol := v' }.modifyInode a fun _ => i').inodeAt b =
      if b = a then some i' else s.inodeAt b := by
    intro b
    rw [Mounted.inodeAt_modifyInode]
    by_cases hb : b = a
    · rw [if_pos hb, if_pos hb, show ({ s with vol := v' } : Mounted p).inodeAt a = some i from ha]
      rfl
    · rw [if_neg hb, if_neg hb]
      rfl
  refine ⟨?_, ?_, ?_, fun n hn hmiss => ?_⟩
  · refine Rewrites.owned (n := a) (i := i) ?_ ha (fun m hm => ?_) hinv.owned
    · rw [hat, if_pos rfl]
      exact hrw
    · rw [hat, if_neg hm]
  · intro e he
    obtain ⟨e', he', rfl⟩ := List.mem_map.mp he
    have := hinv.below e' he'
    split
    · exact this
    · exact this
  · have hmap : (s.openInodes.map fun e => if e.1 = a then (e.1, i') else e).map (·.1) =
        s.openInodes.map (·.1) := by
      rw [List.map_map]
      apply List.map_congr_left
      intro e _
      show (if e.1 = a then (e.1, i') else e).1 = e.1
      split <;> rfl
    exact hmap.symm ▸ hinv.nodup
  · have hmiss' := hmiss.of_modify hinv.nodup ha hno
    -- the number of the written inode is in memory, so it is not `n`
    have hne : i.no ≠ n := hmiss' (a, i) (Mounted.lookup_mem ha)
    rcases htab n hn with hsame | hsaved
    · have hload : Inode.ofMem v'.disk (p.slotAddr n) = Inode.ofMem s.vol.disk (p.slotAddr n) :=
        Inode.ofMem_congr hsame
      show (Inode.ofMem v'.disk (p.slotAddr n)).no ≠ n ∨
        ∀ k, (Inode.ofMem v'.disk (p.slotAddr n)).sec k = 0
      rw [hload]
      exact hinv.clean n hn hmiss'
    · exact Or.inl fun he => hne (hsaved.symm.trans he)

/-! ## Release -/

theorem bitmapSync_inode {v v' : Vol p} {n : Nat} (hn : n < 4096)
    (h : bitmapSync v n .inodeBitmap = some v') :
    v'.blockBitmap = v.blockBitmap ∧
      ∀ a, 512 * p.inodeTableLba ≤ a → v'.disk a = v.disk a := by
  simp only [bitmapSync, Option.bind_eq_bind, Option.bind_eq_some_iff, Option.pure_def,
    Option.some.injEq, ideWrite_eq_some] at h
  obtain ⟨d, ⟨-, -, rfl⟩, rfl⟩ := h
  refine ⟨rfl, fun a ha => Mem.blit_out ?_⟩
  unfold Partition.inodeTableLba at ha
  rw [Partition.inodeBitmapSects_eq] at ha
  omega

/-- The volume after a release: the inode's blocks are free, its slot is zero. -/
structure Released (v : Vol p) (ino : Inode) (n : Nat) (v' : Vol p) : Prop where
  blocks : Rewrites v ino v' none
  others : ∀ m, m < 4096 → m ≠ n → ∀ i, i < 76 →
    v'.disk (p.slotAddr m + i) = v.disk (p.slotAddr m + i)
  zero : ∀ k, (Inode.ofMem v'.disk (p.slotAddr n)).sec k = 0

theorem released {v v1 v2 v3 : Vol p} {ino : Inode} {n : Nat} (hv : Held v ino)
    (h1 : releaseBlocks v ino = some v1)
    (h2 : bitmapSync (v1.setInode n false) n .inodeBitmap = some v2)
    (h3 : inodeDelete v2 n = some v3) : n < 4096 ∧ Released v ino n v3 := by
  have hn : n < 4096 := by
    unfold inodeDelete at h3
    simp only [Option.bind_eq_bind, Option.bind_eq_some_iff, ensure_eq_some] at h3
    exact h3.choose_spec.1
  have hs := releaseBlocks_spec hv h1
  obtain ⟨hbm, hd2⟩ := bitmapSync_inode hn h2
  rw [inodeDelete_eq v2 hn, Option.some.injEq] at h3
  have hend := p.slotAddr_le hn
  have hord : p.inodeBitmapLba ≤ p.inodeTableLba ∧ p.inodeTableLba ≤ p.dataStartLba := by
    unfold Partition.dataStartLba Partition.inodeTableLba
    omega
  have hdisk : v3.disk = v2.disk.blit (p.slotAddr n) (fun _ => 0) 76 := by
    rw [← h3]
    rfl
  have hd3 : ∀ a, 512 * p.inodeTableLba ≤ a → a < p.slotAddr n ∨ p.slotAddr n + 76 ≤ a →
      v3.disk a = v.disk a := by
    intro a h1 h2
    rw [hdisk]
    refine (Mem.blit_out h2).trans ((hd2 a h1).trans ?_)
    exact hs.disk a (Or.inr (by omega))
  have hused : ∀ b, v3.Used b ↔ v1.Used b := fun b => by
    rw [← h3]
    unfold Vol.Used
    rw [show v2.blockBitmap = v1.blockBitmap from hbm]
  refine ⟨hn, ⟨⟨fun k => Or.inl rfl, fun k l _ hf => absurd rfl hf.ne_zero,
    fun k hk => absurd rfl hk, fun b hb hi => ?_, fun a ha _ _ => ?_⟩, fun m hm hmn i hi => ?_,
    fun k => ?_⟩⟩
  · refine (hused b).mpr (hs.used b hb fun hg => ?_)
    obtain ⟨k, hk⟩ := hg
    exact hi k hk
  · exact hd3 a (by omega) (Or.inr (by omega))
  · have := slotAddr_disjoint (p := p) hmn
    exact hd3 _ (by unfold Partition.slotAddr; omega) (by omega)
  · have hz : Inode.ofMem v3.disk (p.slotAddr n) = Inode.ofMem Mem.zero 0 := by
      apply Inode.ofMem_congr
      intro i hi
      rw [hdisk, Mem.blit_add hi]
      rfl
    rw [hz]
    unfold Inode.sec
    split <;> rfl

/-- `l'` is `l` but for the struct at `a`, which may have another count or be
gone. -/
def Touched (a : Nat) (l l' : List (Nat × Inode)) : Prop :=
  ∃ (g : Nat × Inode → Nat × Inode) (q : Nat × Inode → Bool), l' = (l.map g).filter q ∧
    (∀ e, e.1 ≠ a → g e = e ∧ q e = true) ∧ ∀ e, (g e).1 = e.1 ∧ (g e).2.no = e.2.no

theorem touched_setOpenCnts (s : Mounted p) (a : Nat) (c : Inode → Nat) :
    Touched a s.openInodes (s.modifyInode a fun i => i.setOpenCnts (c i)).openInodes := by
  refine ⟨_, fun _ => true, (List.filter_eq_self.mpr fun _ _ => rfl).symm,
    fun e he => ⟨if_neg he, rfl⟩, fun e => ?_⟩
  split
  · exact ⟨rfl, Inode.no_setOpenCnts _ _⟩
  · exact ⟨rfl, rfl⟩

theorem inodeClose_touched {s s' : Mounted p} {a : Nat} (h : inodeClose s a = some s') :
    Touched a s.openInodes s'.openInodes ∧ s'.vol = s.vol ∧ s'.brk = s.brk := by
  simp only [inodeClose, Option.bind_eq_bind, Option.bind_eq_some_iff] at h
  obtain ⟨i, -, h⟩ := h
  split at h
  · obtain rfl := Option.some.inj h
    refine ⟨⟨id, fun e => e.1 != a, by rw [List.map_id], fun e he => ⟨rfl, ?_⟩,
      fun e => ⟨rfl, rfl⟩⟩, rfl, rfl⟩
    simpa using he
  · obtain rfl := Option.some.inj h
    exact ⟨touched_setOpenCnts s a _, rfl, rfl⟩

/-- Dropping number `n` drops the struct at `a`, whatever was done to it, and
leaves the others. -/
theorem Touched.filter {a n : Nat} : ∀ {l l' : List (Nat × Inode)}, Touched a l l' →
    (∀ e ∈ l, e.1 = a → e.2.no = n) →
    l'.filter (fun e => e.2.no ≠ n) = l.filter (fun e => e.2.no ≠ n) := by
  intro l _ hin
  obtain ⟨g, q, rfl, hg, hno⟩ := hin
  induction l with
  | nil => intro _; rfl
  | cons e l ih =>
    intro hl
    have hrest := ih fun e' he' => hl e' (List.mem_cons_of_mem _ he')
    rw [List.map_cons]
    by_cases he : e.1 = a
    · have hn := hl e List.mem_cons_self he
      have hgn : (g e).2.no = n := (hno e).2.trans hn
      rw [List.filter_cons (x := e), if_neg (by simp [hn]), List.filter_cons (p := q)]
      split
      · rw [List.filter_cons, if_neg (by simp [hgn]), hrest]
      · exact hrest
    · obtain ⟨h1, h2⟩ := hg e he
      rw [h1, List.filter_cons (p := q), if_pos h2, List.filter_cons, List.filter_cons, hrest]

theorem Touched.at {a n : Nat} {l l' : List (Nat × Inode)} (h : Touched a l l')
    (hl : ∀ e ∈ l, e.1 = a → e.2.no = n) : ∀ e ∈ l', e.1 = a → e.2.no = n := by
  obtain ⟨g, q, rfl, -, hno⟩ := h
  intro e he hea
  obtain ⟨e', he', rfl⟩ := List.mem_map.mp (List.mem_filter.mp he).1
  rw [(hno e').2]
  exact hl e' he' ((hno e').1.symm.trans hea)

/-- A slot is read from the block addresses only. -/
theorem slot_setOpenCnts (d : Mem) (ino : Inode) (c k : Nat) :
    slot d (ino.setOpenCnts c) k = slot d ino k :=
  slot_congr (Inode.sec_setOpenCnts ino c) (fun _ _ _ => rfl) k

theorem Held.setOpenCnts {v : Vol p} {ino : Inode} (h : Held v ino) (c : Nat) :
    Held v (ino.setOpenCnts c) := by
  refine ⟨fun k l he hne => ?_, fun k hne => ?_⟩
  · rw [slot_setOpenCnts, slot_setOpenCnts] at he
    rw [slot_setOpenCnts] at hne
    exact h.inj k l he hne
  · rw [slot_setOpenCnts] at hne ⊢
    exact h.used k hne

theorem slot_of_sec {d : Mem} {ino : Inode} (h : ∀ k, ino.sec k = 0) (k : Nat) :
    slot d ino k = 0 := by
  unfold slot fileBlock
  rw [h, h]
  split
  · rfl
  · split
    · rfl
    · rw [if_neg (by simp)]

instance (s : Mounted p) (n : Nat) : Decidable (s.Misses n) :=
  inferInstanceAs (Decidable (∀ e ∈ s.openInodes, e.2.no ≠ n))

/-- The operations on blocks. Those on one inode name the struct by its address. -/
inductive BlockOp
  | inodeInit (inodeNo : Nat) (mem : Inode)
  | fileWrite (a : Nat) (fdPos fdFlag : UInt32) (buf : Mem) (count : Nat)
  | syncDirEntry (a : Nat) (pDe : DirEntry)
  | deleteDirEntry (fuel a inodeNo : Nat)
  | inodeRelease (inodeNo : Nat)

/-- One operation that returns. A new inode has a number that is not in use and
goes to the front of `open_inodes`. -/
def Mounted.apply (s : Mounted p) : BlockOp → Option (Mounted p)
  | .inodeInit inodeNo mem => do
    ensure (inodeNo < 4096 ∧ s.Misses inodeNo)
    let inode := (Inode.inodeInit inodeNo mem).setOpenCnts 1
    return { s with openInodes := (s.brk, inode) :: s.openInodes, brk := s.brk + 1 }
  | .fileWrite a fdPos fdFlag buf count => do
    let inode ← s.inodeAt a
    let (_, vol, f) ← fileWrite s.vol ⟨fdPos, fdFlag, inode⟩ buf count
    return { s with vol }.modifyInode a fun _ => f.inode
  | .syncDirEntry a pDe => do
    let inode ← s.inodeAt a
    let (_, vol, inode) ← syncDirEntry s.vol inode pDe
    return { s with vol }.modifyInode a fun _ => inode
  | .deleteDirEntry fuel a inodeNo => do
    let inode ← s.inodeAt a
    let (_, vol, inode) ← deleteDirEntry fuel s.vol inode inodeNo
    return { s with vol }.modifyInode a fun _ => inode
  | .inodeRelease inodeNo => do
    let s ← inodeRelease s inodeNo
    return s.forget inodeNo

/-- A sequence of operations that return. -/
def Mounted.run (s : Mounted p) (ops : List BlockOp) : Option (Mounted p) :=
  ops.foldlM Mounted.apply s

/-- A partition as `partition_format` leaves it, with the root directory open. -/
structure Formatted (s : Mounted p) : Prop where
  root : ∃ a i, s.openInodes = [(a, i)] ∧ a < s.brk ∧ i.no = 0 ∧ i.size = 2 * dirEntrySize ∧
    i.sec 0 = p.dataStartLba ∧ ∀ k, k ≠ 0 → i.sec k = 0
  mark : s.vol.Used p.dataStartLba
  table : ∀ n, 0 < n → n < 4096 → ∀ i, i < 76 → s.vol.disk (p.slotAddr n + i) = 0

theorem ofMem_zero_sec {m : Mem} {a : Nat} (h : ∀ i, i < 76 → m (a + i) = 0) (k : Nat) :
    (Inode.ofMem m a).sec k = 0 := by
  have hz : Inode.ofMem m a = Inode.ofMem Mem.zero 0 := Inode.ofMem_congr fun i hi => h i hi
  rw [hz]
  unfold Inode.sec
  split <;> rfl

theorem Formatted.inv {s : Mounted p} (h : Formatted s) : s.Inv := by
  obtain ⟨a, i, hopen, hbrk, hno, -, h0, hrest⟩ := h.root
  have hat : ∀ b j, s.inodeAt b = some j → b = a ∧ j = i := by
    intro b j hb
    have hmem := Mounted.lookup_mem hb
    rw [hopen, List.mem_singleton, Prod.mk.injEq] at hmem
    exact hmem
  have hslot : ∀ k, slot s.vol.disk i k = if k = 0 then p.dataStartLba else 0 := by
    intro k
    unfold slot fileBlock
    rw [hrest 12 (by decide)]
    by_cases hk : k = 0
    · subst hk
      rw [if_neg (by decide), if_pos (by decide), h0, if_pos rfl]
    · rw [if_neg hk, hrest k hk]
      split
      · rfl
      · split
        · rfl
        · rw [if_neg (by simp)]
  have hall : ∀ b k, slots s.vol.disk (s.inodeAt b) k ≠ 0 →
      b = a ∧ k = 0 ∧ slots s.vol.disk (s.inodeAt b) k = p.dataStartLba := by
    intro b k hne
    cases hb : s.inodeAt b with
    | none => rw [hb] at hne; exact absurd rfl hne
    | some j =>
      obtain ⟨rfl, rfl⟩ := hat b j hb
      rw [hb, slots_some, hslot] at hne
      rw [slots_some, hslot]
      split at hne
      next hk => exact ⟨rfl, hk, if_pos hk⟩
      next => exact absurd rfl hne
  refine ⟨⟨fun s t he hne => ?_, fun s hne => ?_⟩, fun e he => ?_, ?_, fun n hn hmiss => ?_⟩
  · obtain ⟨ha, hk, -⟩ := hall _ _ hne
    obtain ⟨hb, hl, -⟩ := hall _ _ (he ▸ hne)
    exact Prod.ext (ha.trans hb.symm) (hk.trans hl.symm)
  · obtain ⟨-, -, heq⟩ := hall _ _ hne
    rw [heq]
    exact h.mark
  · rw [hopen, List.mem_singleton] at he
    rw [he]
    exact hbrk
  · rw [hopen]
    simp
  · by_cases hn0 : n = 0
    · subst hn0
      exact absurd hno (hmiss (a, i) (by rw [hopen]; exact List.mem_singleton.mpr rfl))
    · exact Or.inr (ofMem_zero_sec (h.table n (by omega) hn))

/-- The root inode of a fresh partition. -/
def rootInode : Inode := ((blankInode 0).setSec 0 612).setSize 48

/-- The entry `.` or `..` of the root directory, with `n` dots. -/
def dotEntry (n : Nat) : DirEntry where
  filename := fun k => if k.val < n then 46 else 0
  iNo := 0
  fType := ftDirectory

end OsCore.Fs
