import OsCore.Fs.DirRead
import OsCore.Fs.Release

/-!
# What `delete_dir_entry` does

The pass over a sector counts its entries and looks for the one to delete at the
same time. `scanEntries_eq` takes the two apart: what is found, how many entries
count, and whether a `.` marks the sector as the directory's first. The search
then stops at the first block with a match, and a call that returns has either
wiped the entry in place or given its block up (`Deleted`).

Giving up an indirect block goes through the count that never ends. So
`delete_dir_entry_returns_iff` is about which entry comes first: the call
returns unless that entry is the only one of an indirect block, or its number
occurs twice in the block, where the assertion of the pass fails. Where it does
return, it removes exactly one entry (`delete_dir_entry_removes_one`).
-/

namespace OsCore.Fs

variable {p : Partition}

/-! ## One sector -/

/-- A comparison looks no further than the name and its zero. -/
theorem strEq_prefix {name : List UInt8} : ∀ {a b : Mem}, (∀ i, i ≤ name.length → b i = a i) →
    strEq b name = strEq a name := by
  induction name with
  | nil =>
    intro a b h
    rw [strEq, strEq, h 0 (Nat.le_refl _)]
  | cons c cs ih =>
    intro a b h
    rw [strEq, strEq, h 0 (Nat.zero_le _)]
    congr 1
    exact ih fun i hi => h (1 + i) (by rw [List.length_cons]; omega)

theorem strEq_sector {buf : Mem} {name : List UInt8} {e : Nat} (hname : name.length < 24) :
    strEq (buf.shift (24 * e)) name = (DirEntry.ofMem buf (24 * e)).named name :=
  strEq_prefix fun i hi => by rw [DirEntry.bytes_ofMem (by omega), Mem.shift]

/-- A live entry other than `.` and `..`. -/
def DirEntry.Counts (de : DirEntry) : Prop :=
  de.fType ≠ ftUnknown ∧ de.named dot = false ∧ de.named dotDot = false

/-- The entry to delete for `inodeNo`. -/
def DirEntry.Has (de : DirEntry) (inodeNo : Nat) : Prop := de.Counts ∧ de.iNo.toNat = inodeNo

/-- The entry that marks the first block of a directory. -/
def DirEntry.Marks (de : DirEntry) : Prop := de.fType ≠ ftUnknown ∧ de.named dot = true

instance (de : DirEntry) : Decidable de.Counts := inferInstanceAs (Decidable (_ ∧ _))

instance (de : DirEntry) (n : Nat) : Decidable (de.Has n) := inferInstanceAs (Decidable (_ ∧ _))

instance (de : DirEntry) : Decidable de.Marks := inferInstanceAs (Decidable (_ ∧ _))

/-- Matches among entries `e`, ..., `e + n - 1`. -/
def hitsIn (entry : Nat → DirEntry) (inodeNo e n : Nat) : List Nat :=
  (List.range' e n).filter fun i => (entry i).Has inodeNo

/-- The entries among them that count. -/
def countedIn (entry : Nat → DirEntry) (e n : Nat) : List Nat :=
  (List.range' e n).filter fun i => (entry i).Counts

/-- Whether `.` is among them. -/
def firstIn (entry : Nat → DirEntry) (e n : Nat) : Bool :=
  (List.range' e n).any fun i => (entry i).Marks

section Sector

variable {entry entry' : Nat → DirEntry} {inodeNo e n : Nat}

theorem hitsIn_succ : hitsIn entry inodeNo e (n + 1) =
    if (entry e).Has inodeNo then e :: hitsIn entry inodeNo (e + 1) n
    else hitsIn entry inodeNo (e + 1) n := by
  simp only [hitsIn, List.range'_succ, List.filter_cons, decide_eq_true_eq]

theorem countedIn_succ : countedIn entry e (n + 1) =
    if (entry e).Counts then e :: countedIn entry (e + 1) n else countedIn entry (e + 1) n := by
  simp only [countedIn, List.range'_succ, List.filter_cons, decide_eq_true_eq]

theorem firstIn_succ :
    firstIn entry e (n + 1) = (decide (entry e).Marks || firstIn entry (e + 1) n) := by
  simp only [firstIn, List.range'_succ, List.any_cons]

theorem hitsIn_congr (h : ∀ i, e ≤ i → i < e + n → entry' i = entry i) :
    hitsIn entry' inodeNo e n = hitsIn entry inodeNo e n :=
  List.filter_congr fun i hi => by
    rw [List.mem_range'_1] at hi
    rw [h i hi.1 hi.2]

theorem countedIn_congr (h : ∀ i, e ≤ i → i < e + n → entry' i = entry i) :
    countedIn entry' e n = countedIn entry e n :=
  List.filter_congr fun i hi => by
    rw [List.mem_range'_1] at hi
    rw [h i hi.1 hi.2]

theorem firstIn_eq_true : firstIn entry e n = true ↔
    ∃ i, e ≤ i ∧ i < e + n ∧ (entry i).Marks := by
  simp only [firstIn, List.any_eq_true, List.mem_range'_1, decide_eq_true_eq, and_assoc]

theorem mem_hitsIn {i : Nat} : i ∈ hitsIn entry inodeNo e n ↔
    (e ≤ i ∧ i < e + n) ∧ (entry i).Has inodeNo := by
  simp only [hitsIn, List.mem_filter, List.mem_range'_1, decide_eq_true_eq]

theorem mem_countedIn {i : Nat} : i ∈ countedIn entry e n ↔
    (e ≤ i ∧ i < e + n) ∧ (entry i).Counts := by
  simp only [countedIn, List.mem_filter, List.mem_range'_1, decide_eq_true_eq]

theorem nodup_hitsIn : (hitsIn entry inodeNo e n).Nodup := List.Nodup.filter _ List.nodup_range'

theorem nodup_countedIn : (countedIn entry e n).Nodup := List.Nodup.filter _ List.nodup_range'

/-- A list without repetition whose only member is `i`. -/
theorem eq_singleton {l : List Nat} (hnodup : l.Nodup) {i : Nat} (hi : i ∈ l)
    (honly : ∀ j ∈ l, j = i) : l = [i] := by
  cases l with
  | nil => exact absurd hi List.not_mem_nil
  | cons x l =>
    obtain rfl := honly x List.mem_cons_self
    cases l with
    | nil => rfl
    | cons y l =>
      obtain rfl := honly y (List.mem_cons_of_mem _ List.mem_cons_self)
      exact absurd List.mem_cons_self (List.nodup_cons.mp hnodup).1

/-- An entry is alone among those that count. -/
theorem countedIn_eq_one {i : Nat} (hi : i ∈ countedIn entry e n) :
    (countedIn entry e n).length = 1 ↔ ∀ j ∈ countedIn entry e n, j = i := by
  constructor
  · intro hone
    obtain ⟨x, hx⟩ := List.length_eq_one_iff.mp hone
    rw [hx, List.mem_singleton] at hi
    intro j hj
    rw [hx, List.mem_singleton] at hj
    rw [hj, hi]
  · intro honly
    rw [eq_singleton nodup_countedIn hi honly]
    rfl

end Sector

/-- **The pass over a sector.** It counts, notes the mark and keeps the match;
a second match is an assertion that fails. -/
theorem scanEntries_eq {buf : Mem} {inodeNo : Nat} : ∀ {n e cnt : Nat} {isFirst : Bool}
    {found : Option Nat},
    scanEntries buf inodeNo n e (isFirst, cnt, found) =
      let entry := fun i => DirEntry.ofMem buf (24 * i)
      if (found.toList ++ hitsIn entry inodeNo e n).length ≤ 1 then
        some (isFirst || firstIn entry e n, cnt + (countedIn entry e n).length,
          (found.toList ++ hitsIn entry inodeNo e n).head?)
      else none := by
  intro n
  induction n with
  | zero =>
    intro e cnt isFirst found
    cases found with
    | none => simp [scanEntries, hitsIn, countedIn, firstIn]
    | some i => simp [scanEntries, hitsIn, countedIn, firstIn]
  | succ n ih =>
    intro e cnt isFirst found
    have hdot := @strEq_sector buf dot e (by decide)
    have hdotDot := @strEq_sector buf dotDot e (by decide)
    unfold scanEntries
    dsimp only
    rw [hdot, hdotDot, hitsIn_succ, countedIn_succ, firstIn_succ]
    generalize hde : DirEntry.ofMem buf (24 * e) = de
    by_cases hlive : de.fType = ftUnknown
    · -- a free slot
      have hcounts : ¬de.Counts := fun h => h.1 hlive
      have hhas : ¬de.Has inodeNo := fun h => hcounts h.1
      have hmarks : ¬de.Marks := fun h => h.1 hlive
      simp only [ne_eq, hlive, not_true_eq_false, if_false, ih, hcounts, hhas, hmarks, decide_false,
        Bool.false_or]
    · by_cases h1 : de.named dot = true
      · -- `.` sets the mark
        have hcounts : ¬de.Counts := fun h => by rw [h.2.1] at h1; cases h1
        have hhas : ¬de.Has inodeNo := fun h => hcounts h.1
        have hmarks : de.Marks := ⟨hlive, h1⟩
        simp only [ne_eq, hlive, not_false_eq_true, if_true, h1, ih, hcounts, hhas, hmarks,
          if_false, decide_true, Bool.true_or, Bool.or_true]
      · have hmarks : ¬de.Marks := fun h => h1 h.2
        by_cases h2 : de.named dotDot = true
        · have hcounts : ¬de.Counts := fun h => by rw [h.2.2] at h2; cases h2
          have hhas : ¬de.Has inodeNo := fun h => hcounts h.1
          simp only [ne_eq, hlive, not_false_eq_true, if_true, h1, h2, ih, hcounts, hhas, hmarks,
            if_false, decide_false, Bool.false_or, Bool.false_eq_true]
        · have hcounts : de.Counts := ⟨hlive, by simpa using h1, by simpa using h2⟩
          have hcnt : ∀ l : List Nat, cnt + (e :: l).length = cnt + 1 + l.length := fun l => by
            rw [List.length_cons]
            omega
          by_cases hno : de.iNo.toNat = inodeNo
          · have hhas : de.Has inodeNo := ⟨hcounts, hno⟩
            simp only [ne_eq, hlive, not_false_eq_true, if_true, h1, h2, hno, hcounts, hhas, hmarks,
              if_false, decide_false, Bool.false_or, Bool.false_eq_true, hcnt]
            cases found with
            | none =>
              simp only [ensure_pos, Option.bind_eq_bind, Option.bind_some, ih, Option.toList_none,
                Option.toList_some, List.nil_append, List.cons_append]
              rfl
            | some i =>
              -- the second match
              have hlong : ¬(i :: e :: hitsIn (fun i => DirEntry.ofMem buf (24 * i)) inodeNo (e + 1)
                  n).length ≤ 1 := by
                rw [List.length_cons, List.length_cons]
                omega
              rw [ensure_neg (by simp)]
              exact (if_neg hlong).symm
          · have hhas : ¬de.Has inodeNo := fun h => hno h.2
            simp only [ne_eq, hlive, not_false_eq_true, if_true, h1, h2, hno, ih, hcounts, hhas,
              hmarks, if_false, decide_false, Bool.false_or, Bool.false_eq_true, hcnt]

/-! ## The search for the block -/

/-- Entry `e` of block `k`. -/
abbrev blockEntry (disk : Mem) (ino : Inode) (k : Nat) : Nat → DirEntry :=
  entryAt disk (fileBlock disk ino k)

/-- What is found in a sector that was read. -/
theorem scanEntries_sector {disk buf : Mem} {lba inodeNo : Nat}
    (hbuf : ∀ i, i < 512 → buf i = disk (512 * lba + i)) :
    scanEntries buf inodeNo 21 0 (false, 0, none) =
      if (hitsIn (entryAt disk lba) inodeNo 0 21).length ≤ 1 then
        some (firstIn (entryAt disk lba) 0 21, (countedIn (entryAt disk lba) 0 21).length,
          (hitsIn (entryAt disk lba) inodeNo 0 21).head?)
      else none := by
  have hentry : ∀ i, 0 ≤ i → i < 0 + 21 → DirEntry.ofMem buf (24 * i) = entryAt disk lba i :=
    fun i _ hi => ofMem_sector hbuf (by omega)
  have hfirst : firstIn (fun i => DirEntry.ofMem buf (24 * i)) 0 21 =
      firstIn (entryAt disk lba) 0 21 := by
    rw [Bool.eq_iff_iff, firstIn_eq_true, firstIn_eq_true]
    constructor
    · intro hin
      obtain ⟨i, h1, h2, hmarks⟩ := hin
      exact ⟨i, h1, h2, hentry i h1 h2 ▸ hmarks⟩
    · intro hin
      obtain ⟨i, h1, h2, hmarks⟩ := hin
      exact ⟨i, h1, h2, (hentry i h1 h2).symm ▸ hmarks⟩
  have hscan := @scanEntries_eq buf inodeNo 21 0 0 false none
  dsimp only at hscan
  rw [hscan, hitsIn_congr hentry, countedIn_congr hentry, hfirst, Option.toList_none,
    List.nil_append, Bool.false_or, Nat.zero_add]

/-- No block before `k` has a match. -/
def NoHitBefore (disk : Mem) (ino : Inode) (inodeNo k : Nat) : Prop :=
  ∀ l, l < k → fileBlock disk ino l ≠ 0 → hitsIn (blockEntry disk ino l) inodeNo 0 21 = []

/-- A call that found its entry: the entry is wiped in place, or it was alone in
a direct block and the block is given up. The data area changes nowhere else. -/
inductive Deleted (inodeNo : Nat) (v : Vol p) (ino : Inode) (v' : Vol p) (ino' : Inode) : Prop
  | wiped (k e : Nat) (hk : k < 140) (he : e < 21) (hnz : fileBlock v.disk ino k ≠ 0)
      (hbefore : NoHitBefore v.disk ino inodeNo k)
      (hhit : hitsIn (blockEntry v.disk ino k) inodeNo 0 21 = [e])
      (hstays : ¬((countedIn (blockEntry v.disk ino k) 0 21).length = 1 ∧
        firstIn (blockEntry v.disk ino k) 0 21 = false))
      (hdisk : ∀ a, 512 * p.dataStartLba ≤ a → v'.disk a =
        v.disk.blit (512 * fileBlock v.disk ino k + 24 * e) (fun _ => 0) 24 a)
      (hbits : v'.blockBitmap = v.blockBitmap) (hinodes : v'.inodeBitmap = v.inodeBitmap)
      (hsize : 24 ≤ ino.size) (hino : ino' = ino.setSize (ino.size - 24))
  | dropped (k e : Nat) (hk : k < 12) (he : e < 21) (hnz : fileBlock v.disk ino k ≠ 0)
      (hbefore : NoHitBefore v.disk ino inodeNo k)
      (hhit : hitsIn (blockEntry v.disk ino k) inodeNo 0 21 = [e])
      (halone : (countedIn (blockEntry v.disk ino k) 0 21).length = 1 ∧
        firstIn (blockEntry v.disk ino k) 0 21 = false)
      (hdisk : ∀ a, 512 * p.dataStartLba ≤ a → v'.disk a = v.disk a)
      (hbits : v'.blockBitmap =
        v.blockBitmap.bitmapSet (fileBlock v.disk ino k - p.dataStartLba) false)
      (hinodes : v'.inodeBitmap = v.inodeBitmap)
      (hsize : 24 ≤ ino.size) (hino : ino' = (ino.setSec k 0).setSize (ino.size - 24))

/-- Saving the inode leaves the bitmaps and the data area alone. -/
theorem inodeSync_data {v v' : Vol p} {ino : Inode} (h : inodeSync v ino = some v') :
    v'.blockBitmap = v.blockBitmap ∧ v'.inodeBitmap = v.inodeBitmap ∧
      ∀ a, 512 * p.dataStartLba ≤ a → v'.disk a = v.disk a := by
  rw [inodeSync_eq, Option.some.injEq] at h
  have hend := p.slotAddr_le (show ino.no % 256 < 4096 by omega)
  subst h
  exact ⟨rfl, rfl, fun a ha => Mem.blit_out (by omega)⟩

/-- One block after the other: what the loop has done when it returns. -/
theorem deleteLoop_cases {fuel inodeNo : Nat} {v : Vol p} {ino : Inode} (hv : Held v ino) :
    ∀ {n k : Nat} {r : Bool} {v' : Vol p} {ino' : Inode}, k + n = 140 →
    NoHitBefore v.disk ino inodeNo k →
    deleteLoop fuel v ino inodeNo (fileBlock v.disk ino) n k = some (r, v', ino') →
    (r = false ∧ v' = v ∧ ino' = ino ∧ NoHitBefore v.disk ino inodeNo 140) ∨
    (r = true ∧ Deleted inodeNo v ino v' ino') := by
  intro n
  induction n with
  | zero =>
    intro k r v' ino' hsum hbefore h
    simp only [deleteLoop, Option.some.injEq, Prod.mk.injEq] at h
    obtain ⟨rfl, rfl, rfl⟩ := h
    exact Or.inl ⟨rfl, rfl, rfl, hsum ▸ hbefore⟩
  | succ n ih =>
    intro k r v' ino' hsum hbefore h
    unfold deleteLoop at h
    -- a block without a match leaves the question to the rest
    have hskip : (fileBlock v.disk ino k ≠ 0 →
        hitsIn (blockEntry v.disk ino k) inodeNo 0 21 = []) →
        NoHitBefore v.disk ino inodeNo (k + 1) := by
      intro hnone l hl hnz
      rcases Nat.lt_or_eq_of_le (Nat.le_of_lt_succ hl) with hlt | rfl
      · exact hbefore l hlt hnz
      · exact hnone hnz
    by_cases h0 : fileBlock v.disk ino k = 0
    · rw [if_pos h0] at h
      exact ih (by omega) (hskip fun hnz => absurd h0 hnz) h
    · rw [if_neg h0] at h
      simp only [Option.bind_eq_bind, Option.bind_eq_some_iff, Prod.exists] at h
      obtain ⟨ioBuf, hread, isFirst, cnt, found, hscan, h⟩ := h
      obtain ⟨-, hioBuf, hbuf⟩ := ideRead_sector hread
      rw [scanEntries_sector hbuf] at hscan
      split at hscan
      next hlen =>
        simp only [Option.some.injEq, Prod.mk.injEq] at hscan
        obtain ⟨hfirst, hcnt, hfound⟩ := hscan
        cases found with
        | none => exact ih (by omega) (hskip fun _ => List.head?_eq_none_iff.mp hfound) h
        | some e =>
          have hhit : hitsIn (blockEntry v.disk ino k) inodeNo 0 21 = [e] := by
            refine eq_singleton nodup_hitsIn (List.mem_of_head? hfound) fun j hj => ?_
            obtain ⟨l, hl⟩ := List.head?_eq_some_iff.mp hfound
            rw [hl, List.length_cons] at hlen
            rw [hl, List.length_eq_zero_iff.mp (by omega : l.length = 0)] at hj
            exact List.mem_singleton.mp hj
          have he : e < 21 := by
            have hmem := mem_hitsIn.mp (hhit ▸ List.mem_singleton_self e)
            omega
          simp only [Option.bind_eq_some_iff, Prod.exists, Option.pure_def, Option.some.injEq,
            Prod.mk.injEq, ensure_eq_some, exists_const] at h
          obtain ⟨-, v1, ino1, hone, hsize, v2, hsync, rfl, rfl, rfl⟩ := h
          obtain ⟨hbits, hinodes, hdata⟩ := inodeSync_data hsync
          have hslot : slot v.disk ino k = fileBlock v.disk ino k := slot_block _ _ (by omega)
          have hused := hv.used k (by rw [hslot]; exact h0)
          rw [hslot] at hused
          refine Or.inr ⟨rfl, ?_⟩
          rw [← hcnt, ← hfirst] at hone
          split at hone
          next halone =>
            simp only [dropBlock, Option.bind_eq_bind, Option.bind_eq_some_iff] at hone
            obtain ⟨v3, hfree, hone⟩ := hone
            split at hone
            next h12 =>
              obtain ⟨rfl, rfl⟩ := Prod.mk.inj (Option.some.inj hone)
              rw [blockBit_eq hused.1 hused.2.1] at hfree
              obtain ⟨hb, hi, hd⟩ := bitmapSync_block hused.2.1 hfree
              have hbm := inodeBitmapLba_le_dataStart p
              exact .dropped k e h12 he h0 hbefore hhit halone
                (fun a ha => (hdata a ha).trans (hd a (Or.inr (by omega))))
                (hbits.trans hb) (hinodes.trans hi) hsize rfl
            next h12 =>
              rw [countIndirect_never _ _ _ (by decide)] at hone
              exact absurd hone (by simp)
          next hstays =>
            simp only [Option.bind_eq_some_iff, Option.some.injEq, Prod.mk.injEq,
              ideWrite_eq_some] at hone
            obtain ⟨d, ⟨-, -, rfl⟩, rfl, rfl⟩ := hone
            have hstore := @blit_entry v.disk (fileBlock v.disk ino k) e he fun _ => 0
            refine .wiped k e (by omega) he h0 hbefore hhit hstays (fun a ha => ?_) hbits hinodes hsize rfl
            rw [hdata a ha, ← hstore, hioBuf]
            rfl
      next => cases hscan

/-- **What a call that returns has done.** -/
theorem deleteDirEntry_cases {fuel inodeNo : Nat} {v v' : Vol p} {ino ino' : Inode} {r : Bool}
    (hv : Held v ino) (h : deleteDirEntry fuel v ino inodeNo = some (r, v', ino')) :
    (r = false ∧ v' = v ∧ ino' = ino ∧ NoHitBefore v.disk ino inodeNo 140) ∨
    (r = true ∧ Deleted inodeNo v ino v' ino') := by
  simp only [deleteDirEntry, Option.bind_eq_bind, Option.bind_eq_some_iff] at h
  obtain ⟨blocks, hb, h⟩ := h
  rw [allBlocks_spec hb] at h
  exact deleteLoop_cases hv (by decide) (fun _ hl => absurd hl (Nat.not_lt_zero _)) h

/-! ## The slots afterwards -/

theorem mem_hitsIn_block {disk : Mem} {ino : Inode} {k e inodeNo : Nat} :
    e ∈ hitsIn (blockEntry disk ino k) inodeNo 0 21 ↔
      e < 21 ∧ (blockEntry disk ino k e).Has inodeNo := by
  rw [mem_hitsIn]
  exact and_congr_left fun _ => by omega

theorem mem_countedIn_block {disk : Mem} {ino : Inode} {k e : Nat} :
    e ∈ countedIn (blockEntry disk ino k) 0 21 ↔ e < 21 ∧ (blockEntry disk ino k e).Counts := by
  rw [mem_countedIn]
  exact and_congr_left fun _ => by omega

/-- Slot `e` of block `k`. -/
theorem liveAt_block {disk : Mem} {ino : Inode} {k e : Nat} (he : e < 21) :
    liveAt disk ino (21 * k + e) = liveEntry (fileBlock disk ino k) (blockEntry disk ino k e) := by
  rw [liveAt, show (21 * k + e) / 21 = k by omega, show (21 * k + e) % 21 = e by omega]

/-- Entries of blocks in the data area, where the bytes are. -/
theorem liveAt_data {d d' : Mem} {ino ino' : Inode} {i : Nat}
    (hblock : fileBlock d' ino' (i / 21) = fileBlock d ino (i / 21))
    (hdisk : fileBlock d ino (i / 21) ≠ 0 → ∀ l, l < 512 →
      d' (512 * fileBlock d ino (i / 21) + l) = d (512 * fileBlock d ino (i / 21) + l)) :
    liveAt d' ino' i = liveAt d ino i := by
  rw [liveAt, liveAt, hblock]
  by_cases h0 : fileBlock d ino (i / 21) = 0
  · rw [liveEntry_eq_none (Or.inl h0), liveEntry_eq_none (Or.inl h0)]
  · rw [entryAt_congr (hdisk h0) (Nat.mod_lt _ (by decide))]

/-- The inode is the old one apart from slot `k` and the size. -/
theorem sec_dropped {ino : Inode} {k n : Nat} (hk : k < 12) (j : Nat) :
    ((ino.setSec k 0).setSize n).sec j = if j = k then 0 else ino.sec j := by
  rw [Inode.sec_setSize, Inode.sec_setSec (by omega) (by decide)]

/-- **Slots after an entry was wiped.** -/
theorem wiped_slots {v v' : Vol p} {ino : Inode} {k e n : Nat} (hv : Held v ino) (hk : k < 140)
    (he : e < 21) (hnz : fileBlock v.disk ino k ≠ 0)
    (hdisk : ∀ a, 512 * p.dataStartLba ≤ a → v'.disk a =
      v.disk.blit (512 * fileBlock v.disk ino k + 24 * e) (fun _ => 0) 24 a) (j : Nat) :
    fileBlock v'.disk (ino.setSize n) j = fileBlock v.disk ino j ∧
      ∀ i, liveAt v'.disk (ino.setSize n) i = if i = 21 * k + e then none else liveAt v.disk ino i := by
  have hblock : ∀ j, fileBlock v'.disk (ino.setSize n) j = fileBlock v.disk ino j := by
    refine fileBlock_congr (fun l => Inode.sec_setSize _ _ _) fun htab a ha => ?_
    have hstart := hv.table htab
    have hne := (hv.block hk hnz).2
    rw [hdisk a (by omega)]
    exact Mem.blit_out (by omega)
  refine ⟨hblock j, fun i => ?_⟩
  have hmod : i % 21 < 21 := Nat.mod_lt _ (by decide)
  by_cases hi : i = 21 * k + e
  · subst hi
    rw [if_pos rfl, liveAt_block he, hblock]
    refine liveEntry_eq_none (Or.inr ?_)
    have hstart := (hv.block hk hnz).1
    have hzero : blockEntry v'.disk (ino.setSize n) k e = zeroEntry := by
      rw [blockEntry, hblock]
      apply DirEntry.ofMem_congr
      intro l hl
      rw [hdisk _ (by omega)]
      exact Mem.blit_add hl
    rw [hzero]
    exact zeroEntry_free
  · rw [if_neg hi, liveAt, liveAt, hblock]
    by_cases h0 : fileBlock v.disk ino (i / 21) = 0
    · rw [liveEntry_eq_none (Or.inl h0), liveEntry_eq_none (Or.inl h0)]
    · congr 1
      have hlt : i / 21 < 140 := by
        by_contra hge
        exact h0 (fileBlock_ge _ _ (by omega))
      have hstart := (hv.block hlt h0).1
      apply DirEntry.ofMem_congr
      intro l hl
      rw [hdisk _ (by omega)]
      apply Mem.blit_out
      -- another block, or another entry of this one
      rcases Nat.lt_trichotomy (fileBlock v.disk ino (i / 21)) (fileBlock v.disk ino k) with
        hlt' | heq | hgt
      · omega
      · have hik := hv.block_inj hlt hk h0 heq
        rw [hik] at heq ⊢
        omega
      · omega

/-- **Slots after a block was given up.** -/
theorem dropped_slots {v v' : Vol p} {ino : Inode} {k n : Nat} (hv : Held v ino) (hk : k < 12)
    (hdisk : ∀ a, 512 * p.dataStartLba ≤ a → v'.disk a = v.disk a) (j : Nat) :
    fileBlock v'.disk ((ino.setSec k 0).setSize n) j = (if j = k then 0 else fileBlock v.disk ino j) ∧
      ∀ i, liveAt v'.disk ((ino.setSec k 0).setSize n) i =
        if i / 21 = k then none else liveAt v.disk ino i := by
  have hsec := @sec_dropped ino k n hk
  have htab : ((ino.setSec k 0).setSize n).sec 12 = ino.sec 12 := by rw [hsec, if_neg (by omega)]
  have hblock : ∀ j, fileBlock v'.disk ((ino.setSec k 0).setSize n) j =
      if j = k then 0 else fileBlock v.disk ino j := by
    intro j
    unfold fileBlock
    rw [hsec j, htab]
    by_cases hj : j = k
    · rw [if_pos (by omega), if_pos hj, if_pos hj]
    · rw [if_neg hj, if_neg hj]
      split
      · rfl
      · split
        next hin =>
          have hstart := hv.table hin.2
          exact Mem.rd32_congr fun i _ => hdisk _ (by omega)
        next => rfl
  refine ⟨hblock j, fun i => ?_⟩
  by_cases hi : i / 21 = k
  · rw [if_pos hi]
    exact liveEntry_eq_none (Or.inl (by rw [hblock, if_pos hi]))
  · rw [if_neg hi]
    apply liveAt_data (by rw [hblock, if_neg hi])
    intro h0 l _
    have hlt : i / 21 < 140 := by
      by_contra hge
      exact h0 (fileBlock_ge _ _ (by omega))
    have hstart := (hv.block hlt h0).1
    exact hdisk _ (by omega)

/-! ## Deleting one entry -/

/-- A well-formed directory: it holds its blocks, which are on the disk; `.` and
`..` are in the first block and nowhere else; every other block has an entry;
and the size counts the entries. -/
structure DirShape (v : Vol p) (ino : Inode) : Prop where
  held : Held v ino
  table : ino.sec 12 ≤ maxLba
  reach : ∀ k, fileBlock v.disk ino k ≤ maxLba
  here : ∃ i de, i < 21 ∧ liveAt v.disk ino i = some de ∧ de.named dot = true
  up : ∃ i de, i < 21 ∧ liveAt v.disk ino i = some de ∧ de.named dotDot = true
  dots : ∀ i de, liveAt v.disk ino i = some de →
    de.named dot = true ∨ de.named dotDot = true → i < 21
  filled : ∀ k, 0 < k → fileBlock v.disk ino k ≠ 0 →
    ∃ e, e < 21 ∧ liveAt v.disk ino (21 * k + e) ≠ none
  size : ino.size = 24 * (liveEntries v.disk ino).length

/-- Slot `i` holds an entry for `inodeNo` other than `.` and `..`. -/
def HitSlot (disk : Mem) (ino : Inode) (inodeNo i : Nat) : Prop :=
  ∃ de, liveAt disk ino i = some de ∧ de.Has inodeNo

/-- No other live entry is in the block of slot `i`. -/
def AloneInBlock (disk : Mem) (ino : Inode) (i : Nat) : Prop :=
  ∀ j, j / 21 = i / 21 → j ≠ i → liveAt disk ino j = none

theorem hitSlot_iff {disk : Mem} {ino : Inode} {inodeNo i : Nat} :
    HitSlot disk ino inodeNo i ↔ fileBlock disk ino (i / 21) ≠ 0 ∧
      i % 21 ∈ hitsIn (blockEntry disk ino (i / 21)) inodeNo 0 21 := by
  rw [mem_hitsIn_block, HitSlot]
  constructor
  · intro hin
    obtain ⟨de, hlive, hhas⟩ := hin
    obtain ⟨hslot, -⟩ := liveAt_eq_some.mp hlive
    obtain ⟨hnz, rfl⟩ := slotAt_eq_some.mp hslot
    exact ⟨hnz, Nat.mod_lt _ (by decide), hhas⟩
  · intro hin
    obtain ⟨hnz, -, hhas⟩ := hin
    exact ⟨_, liveAt_eq_some.mpr ⟨slotAt_eq_some.mpr ⟨hnz, rfl⟩, hhas.1.1⟩, hhas⟩

theorem NoHitBefore.no_hit {disk : Mem} {ino : Inode} {inodeNo k i : Nat}
    (h : NoHitBefore disk ino inodeNo k) (hi : i < 21 * k ∨ 140 ≤ k) :
    ¬HitSlot disk ino inodeNo i := by
  intro hhit
  obtain ⟨hnz, hmem⟩ := hitSlot_iff.mp hhit
  have hlt : i / 21 < 140 := by
    by_contra hge
    exact hnz (fileBlock_ge _ _ (by omega))
  rw [h (i / 21) (by omega) hnz] at hmem
  exact absurd hmem List.not_mem_nil

/-- In a well-formed directory the block of a match is given up exactly when it
is not the first and holds nothing else. -/
theorem DirShape.alone_iff {v : Vol p} {ino : Inode} (hwf : DirShape v ino) {inodeNo i : Nat}
    (hi : HitSlot v.disk ino inodeNo i) :
    ((countedIn (blockEntry v.disk ino (i / 21)) 0 21).length = 1 ∧
        firstIn (blockEntry v.disk ino (i / 21)) 0 21 = false) ↔
      i / 21 ≠ 0 ∧ AloneInBlock v.disk ino i := by
  obtain ⟨hnz, hmem⟩ := hitSlot_iff.mp hi
  obtain ⟨he, hhas⟩ := mem_hitsIn_block.mp hmem
  have hcounted : i % 21 ∈ countedIn (blockEntry v.disk ino (i / 21)) 0 21 :=
    mem_countedIn_block.mpr ⟨he, hhas.1⟩
  rw [countedIn_eq_one hcounted]
  constructor
  · intro hin
    obtain ⟨honly, hfirst⟩ := hin
    have hne : i / 21 ≠ 0 := by
      intro h0
      -- block 0 has the mark
      obtain ⟨j, de, hj, hlive, hname⟩ := hwf.here
      obtain ⟨hslot, hde⟩ := liveAt_eq_some.mp hlive
      obtain ⟨-, hentry⟩ := slotAt_eq_some.mp hslot
      rw [show j / 21 = i / 21 by omega, Nat.mod_eq_of_lt hj] at hentry
      have hmarks : (entryAt v.disk (fileBlock v.disk ino (i / 21)) j).Marks := by
        rw [hentry]
        exact ⟨hde, hname⟩
      have hin : j < 0 + 21 := by omega
      have hmarked := firstIn_eq_true.mpr ⟨j, Nat.zero_le _, hin, hmarks⟩
      rw [hfirst] at hmarked
      cases hmarked
    refine ⟨hne, fun j hj hji => ?_⟩
    cases hlive : liveAt v.disk ino j with
    | none => rfl
    | some de =>
      -- not a dot entry, so it counts
      obtain ⟨hslot, hde⟩ := liveAt_eq_some.mp hlive
      obtain ⟨-, hentry⟩ := slotAt_eq_some.mp hslot
      rw [hj] at hentry
      have hmod : j % 21 < 21 := Nat.mod_lt _ (by decide)
      have hplain : ¬(de.named dot = true ∨ de.named dotDot = true) := fun hdot => by
        have hlt := hwf.dots j de hlive hdot
        omega
      rw [not_or, Bool.not_eq_true, Bool.not_eq_true] at hplain
      have hsame := honly (j % 21) (mem_countedIn_block.mpr ⟨hmod, by
        rw [blockEntry, hentry]
        exact ⟨hde, hplain⟩⟩)
      omega
  · intro hin
    obtain ⟨hne, halone⟩ := hin
    have hlive : ∀ e, e < 21 → e ≠ i % 21 → (blockEntry v.disk ino (i / 21) e).fType = ftUnknown := by
      intro e he' hei
      have hnone := halone (21 * (i / 21) + e) (by omega) (by omega)
      rw [liveAt_block he'] at hnone
      by_contra hde
      rw [liveEntry_eq_some hnz hde] at hnone
      cases hnone
    refine ⟨fun e hmem' => ?_, ?_⟩
    · obtain ⟨he', hcounts⟩ := mem_countedIn_block.mp hmem'
      by_contra hei
      exact hcounts.1 (hlive e he' hei)
    · cases hfirst : firstIn (blockEntry v.disk ino (i / 21)) 0 21 with
      | false => rfl
      | true =>
        obtain ⟨e, -, he', hmarks⟩ := firstIn_eq_true.mp hfirst
        by_cases hei : e = i % 21
        · rw [hei] at hmarks
          have hdot := hhas.1.2.1
          rw [hmarks.2] at hdot
          cases hdot
        · exact absurd (hlive e (by omega) hei) hmarks.1

/-- **A deletion removes exactly one entry.** In a well-formed directory in
which `inodeNo` is in one slot `i` only, a call that returns says true; slot `i`
is free and every other slot reads as before, in the block it was in; the size
is smaller by one entry; and the block of the slot is given up, with its bit and
no other, exactly when it is not the first and holds nothing else. -/
theorem delete_dir_entry_removes_one {fuel inodeNo i : Nat} {v v' : Vol p} {ino ino' : Inode}
    {r : Bool} (hwf : DirShape v ino) (hi : HitSlot v.disk ino inodeNo i)
    (honce : ∀ j, HitSlot v.disk ino inodeNo j → j = i)
    (h : deleteDirEntry fuel v ino inodeNo = some (r, v', ino')) :
    r = true ∧
      (∀ j, liveAt v'.disk ino' j = if j = i then none else liveAt v.disk ino j) ∧
      (∀ j, liveAt v'.disk ino' j ≠ none →
        fileBlock v'.disk ino' (j / 21) = fileBlock v.disk ino (j / 21)) ∧
      ino'.size + dirEntrySize = ino.size ∧
      (i / 21 ≠ 0 ∧ AloneInBlock v.disk ino i →
        fileBlock v'.disk ino' (i / 21) = 0 ∧ ∀ b, v'.blockBitmap.bit b =
          if b = fileBlock v.disk ino (i / 21) - p.dataStartLba then false
          else v.blockBitmap.bit b) ∧
      (¬(i / 21 ≠ 0 ∧ AloneInBlock v.disk ino i) →
        fileBlock v'.disk ino' (i / 21) = fileBlock v.disk ino (i / 21) ∧
          v'.blockBitmap = v.blockBitmap) ∧
      v'.inodeBitmap = v.inodeBitmap := by
  have halone := hwf.alone_iff hi
  have hslot : ∀ {k e}, fileBlock v.disk ino k ≠ 0 →
      hitsIn (blockEntry v.disk ino k) inodeNo 0 21 = [e] → k = i / 21 ∧ e = i % 21 := by
    intro k e hnz hhit
    have hmem : e ∈ hitsIn (blockEntry v.disk ino k) inodeNo 0 21 := hhit ▸ List.mem_singleton_self e
    have he := (mem_hitsIn_block.mp hmem).1
    have hdiv : (21 * k + e) / 21 = k := by omega
    have hmod : (21 * k + e) % 21 = e := by omega
    have hsame := honce (21 * k + e) (hitSlot_iff.mpr (by rw [hdiv, hmod]; exact ⟨hnz, hmem⟩))
    omega
  rcases deleteDirEntry_cases hwf.held h with ⟨-, -, -, hnone⟩ | ⟨hr, hdone⟩
  · exact absurd hi (hnone.no_hit (Or.inr (Nat.le_refl _)))
  · refine ⟨hr, ?_⟩
    have hword := ino.size_lt
    cases hdone with
    | wiped k e hk he hnz hbefore hhit hstays hdisk hbits hinodes hsize hino =>
      obtain ⟨rfl, rfl⟩ := hslot hnz hhit
      subst hino
      have hafter := wiped_slots (n := ino.size - 24) hwf.held hk he hnz hdisk
      refine ⟨fun j => ?_, fun j _ => (hafter (j / 21)).1, ?_, fun hc => ?_, fun _ => ?_, hinodes⟩
      · rw [(hafter 0).2 j, Nat.div_add_mod]
      · rw [Inode.size_setSize (by omega), dirEntrySize]
        omega
      · exact absurd (halone.mpr hc) hstays
      · exact ⟨(hafter _).1, hbits⟩
    | dropped k e hk he hnz hbefore hhit hgone hdisk hbits hinodes hsize hino =>
      obtain ⟨rfl, rfl⟩ := hslot hnz hhit
      subst hino
      have hafter := dropped_slots (n := ino.size - 24) hwf.held hk hdisk
      have hcond := halone.mp hgone
      refine ⟨fun j => ?_, fun j hj => ?_, ?_, fun _ => ⟨?_, fun b => ?_⟩, fun hc => ?_, hinodes⟩
      · rw [(hafter 0).2 j]
        by_cases hj : j / 21 = i / 21
        · rw [if_pos hj]
          split
          next => rfl
          next hne => exact (hcond.2 j hj hne).symm
        · rw [if_neg hj, if_neg (fun h => hj (by rw [h]))]
      · rw [(hafter 0).2 j] at hj
        rw [(hafter (j / 21)).1]
        split at hj
        next => exact absurd rfl hj
        next hne => rw [if_neg hne]
      · rw [Inode.size_setSize (by omega), dirEntrySize]
        omega
      · rw [(hafter _).1, if_pos rfl]
      · rw [hbits, Bitmap.bit_bitmapSet]
      · exact absurd hcond hc

/-! ## When a call returns -/

/-- Blocks without a match are passed over. -/
theorem deleteLoop_skip {fuel inodeNo : Nat} {v : Vol p} {ino : Inode}
    (hreach : ∀ k, fileBlock v.disk ino k ≤ maxLba) : ∀ {m k : Nat}, k + m ≤ 140 →
    (∀ l, k ≤ l → l < k + m → fileBlock v.disk ino l ≠ 0 →
      hitsIn (blockEntry v.disk ino l) inodeNo 0 21 = []) →
    deleteLoop fuel v ino inodeNo (fileBlock v.disk ino) (140 - k) k =
      deleteLoop fuel v ino inodeNo (fileBlock v.disk ino) (140 - (k + m)) (k + m) := by
  intro m
  induction m with
  | zero => exact fun _ _ => rfl
  | succ m ih =>
    intro k hk hnone
    have hrest := ih (k := k + 1) (by omega) fun l h1 h2 => hnone l (by omega) (by omega)
    rw [show k + (m + 1) = k + 1 + m by omega, ← hrest, show 140 - k = 140 - (k + 1) + 1 by omega]
    rw [deleteLoop]
    by_cases h0 : fileBlock v.disk ino k = 0
    · rw [if_pos h0]
    · obtain ⟨buf, hread⟩ : ∃ buf, ideRead v.disk (fileBlock v.disk ino k) Mem.zero 1 = some buf :=
        ⟨_, ideRead_eq_some.mpr ⟨hreach k, by decide, rfl⟩⟩
      obtain ⟨-, -, hbuf⟩ := ideRead_sector hread
      have hhits : hitsIn (entryAt v.disk (fileBlock v.disk ino k)) inodeNo 0 21 = [] :=
        hnone k (Nat.le_refl _) (by omega) h0
      rw [if_neg h0, hread]
      simp only [Option.bind_eq_bind, Option.bind_some, scanEntries_sector hbuf, hhits]
      rfl

/-- Slot `i` is the first with an entry for `inodeNo`. -/
def FirstHit (disk : Mem) (ino : Inode) (inodeNo i : Nat) : Prop :=
  HitSlot disk ino inodeNo i ∧ ∀ j, j < i → ¬HitSlot disk ino inodeNo j

/-- What a deletion of `inodeNo` needs to return: the first entry for the number
is the only one in its block, and is in a direct block or not the only entry of
its block. -/
def Deletable (disk : Mem) (ino : Inode) (inodeNo : Nat) : Prop :=
  ∀ i, FirstHit disk ino inodeNo i →
    (∀ j, j / 21 = i / 21 → HitSlot disk ino inodeNo j → j = i) ∧
      (i / 21 < 12 ∨ ¬AloneInBlock disk ino i)

/-- The block of the first match is the first block with a match. -/
theorem FirstHit.before {disk : Mem} {ino : Inode} {inodeNo i : Nat}
    (hi : FirstHit disk ino inodeNo i) : NoHitBefore disk ino inodeNo (i / 21) := by
  intro l hl hnz
  rw [List.eq_nil_iff_forall_not_mem]
  intro e hmem
  have he := (mem_hitsIn_block.mp hmem).1
  refine hi.2 (21 * l + e) (by omega) (hitSlot_iff.mpr ?_)
  rw [show (21 * l + e) / 21 = l by omega, show (21 * l + e) % 21 = e by omega]
  exact ⟨hnz, hmem⟩

/-- A call that found its entry found the first one. -/
theorem FirstHit.block {disk : Mem} {ino : Inode} {inodeNo i k e : Nat}
    (hi : FirstHit disk ino inodeNo i) (hbefore : NoHitBefore disk ino inodeNo k)
    (hnz : fileBlock disk ino k ≠ 0)
    (hhit : hitsIn (blockEntry disk ino k) inodeNo 0 21 = [e]) : k = i / 21 := by
  refine Nat.le_antisymm ?_ ?_
  · by_contra hlt
    exact hbefore.no_hit (Or.inl (by omega)) hi.1
  · by_contra hlt
    rw [hi.before k (by omega) hnz] at hhit
    cases hhit

/-- Clearing the bit of a block and writing the bitmap's sector back. -/
theorem bitmapSync_returns {v : Vol p} {b : Nat} (hused : v.Used b) (w : Vol p) :
    ∃ v', bitmapSync w (blockBit p b) .blockBitmap = some v' := by
  have hsects : (b - p.dataStartLba) / 4096 < p.blockBitmapSects := by
    have hbit := hused.2.1
    omega
  have hend := p.dataStartLba_le_maxLba
  rw [p.dataStartLba_eq] at hend
  have hlba : p.blockBitmapLba + (b - p.dataStartLba) / 4096 ≤ maxLba := by
    unfold Partition.blockBitmapLba
    omega
  rw [blockBit_eq hused.1 hused.2.1, bitmapSync]
  rw [ideWrite_eq_some.mpr ⟨hlba, by decide, rfl⟩]
  exact ⟨_, rfl⟩

/-- The loop at a block with a single match, which is not the last entry of an
indirect block. -/
theorem deleteLoop_returns {inodeNo k e : Nat} {v : Vol p} {ino : Inode} (hwf : DirShape v ino)
    (hk : k < 140) (hnz : fileBlock v.disk ino k ≠ 0)
    (hhit : hitsIn (blockEntry v.disk ino k) inodeNo 0 21 = [e])
    (hcond : k < 12 ∨ ¬((countedIn (blockEntry v.disk ino k) 0 21).length = 1 ∧
      firstIn (blockEntry v.disk ino k) 0 21 = false)) :
    ∃ r, deleteLoop 0 v ino inodeNo (fileBlock v.disk ino) (140 - k) k = some r := by
  obtain ⟨buf, hread⟩ : ∃ buf, ideRead v.disk (fileBlock v.disk ino k) Mem.zero 1 = some buf :=
    ⟨_, ideRead_eq_some.mpr ⟨hwf.reach k, by decide, rfl⟩⟩
  obtain ⟨-, -, hbuf⟩ := ideRead_sector hread
  obtain ⟨he, hhas⟩ := mem_hitsIn_block.mp (hhit ▸ List.mem_singleton_self e)
  have hcount : 1 ≤ (countedIn (blockEntry v.disk ino k) 0 21).length :=
    List.length_pos_of_mem (mem_countedIn_block.mpr ⟨he, hhas.1⟩)
  have hsize : 24 ≤ ino.size := by
    have hmem : blockEntry v.disk ino k e ∈ liveEntries v.disk ino := by
      refine List.mem_filterMap.mpr ⟨21 * k + e, List.mem_range.mpr (by omega), ?_⟩
      rw [liveAt_block he, liveEntry_eq_some hnz hhas.1.1]
    have hlen := List.length_pos_of_mem hmem
    have hcount := hwf.size
    omega
  have hslot : slot v.disk ino k = fileBlock v.disk ino k := slot_block _ _ hk
  have hused := hwf.held.used k (by rw [hslot]; exact hnz)
  rw [hslot] at hused
  -- the block is given up, or the entry wiped
  obtain ⟨⟨v1, ino1⟩, hone, hsize1⟩ : ∃ w : Vol p × Inode,
      (if (countedIn (blockEntry v.disk ino k) 0 21).length = 1 ∧
          firstIn (blockEntry v.disk ino k) 0 21 = false then
        dropBlock 0 v ino (fileBlock v.disk ino) k
      else do
        let disk ← ideWrite v.disk (fileBlock v.disk ino k) (buf.fill (24 * e) 0 dirEntrySize) 1
        return ({ v with disk }, ino)) = some w ∧ w.2.size = ino.size := by
    by_cases hgone : (countedIn (blockEntry v.disk ino k) 0 21).length = 1 ∧
        firstIn (blockEntry v.disk ino k) 0 21 = false
    · have h12 : k < 12 := hcond.resolve_right (not_not_intro hgone)
      obtain ⟨v2, hsync⟩ := bitmapSync_returns hused
        (v.setBlock (blockBit p (fileBlock v.disk ino k)) false)
      refine ⟨(v2, ino.setSec k 0), ?_, rfl⟩
      rw [if_pos hgone, dropBlock]
      simp only [hsync, Option.bind_eq_bind, Option.bind_some, if_pos h12]
      rfl
    · obtain ⟨d, hwrite⟩ : ∃ d, ideWrite v.disk (fileBlock v.disk ino k)
          (buf.fill (24 * e) 0 dirEntrySize) 1 = some d :=
        ⟨_, ideWrite_eq_some.mpr ⟨hwf.reach k, by decide, rfl⟩⟩
      refine ⟨({ v with disk := d }, ino), ?_, rfl⟩
      rw [if_neg hgone, hwrite]
      rfl
  obtain ⟨m, hm⟩ : ∃ m, 140 - k = m + 1 := ⟨140 - k - 1, by omega⟩
  have hscan : scanEntries buf inodeNo 21 0 (false, 0, none) =
      some (firstIn (blockEntry v.disk ino k) 0 21,
        (countedIn (blockEntry v.disk ino k) 0 21).length, some e) := by
    rw [scanEntries_sector hbuf, hhit]
    rfl
  have hroom : dirEntrySize ≤ ino1.size := by
    rw [dirEntrySize, show ino1.size = ino.size from hsize1]
    exact hsize
  obtain ⟨v2, hsync⟩ : ∃ v2, inodeSync v1 (ino1.setSize (ino1.size - dirEntrySize)) = some v2 :=
    ⟨_, inodeSync_eq _ _⟩
  refine ⟨(true, v2, ino1.setSize (ino1.size - dirEntrySize)), ?_⟩
  rw [hm, deleteLoop, if_neg hnz, hread]
  simp only [Option.bind_eq_bind] at hone ⊢
  simp only [Option.bind_some, hscan, ensure_pos hcount, hone,
    ensure_pos hroom, hsync]
  rfl

/-- A call that returns stopped at the block of the first match, or there is no
match. -/
theorem deletable_of_returns {fuel inodeNo : Nat} {v : Vol p} {ino : Inode} (hwf : DirShape v ino)
    {r : Bool × Vol p × Inode} (h : deleteDirEntry fuel v ino inodeNo = some r) :
    Deletable v.disk ino inodeNo := by
  obtain ⟨r, v', ino'⟩ := r
  intro i hi
  have halone := hwf.alone_iff hi.1
  rcases deleteDirEntry_cases hwf.held h with ⟨-, -, -, hnone⟩ | ⟨-, hdone⟩
  · exact absurd hi.1 (hnone.no_hit (Or.inr (Nat.le_refl _)))
  · have honly : ∀ {e}, hitsIn (blockEntry v.disk ino (i / 21)) inodeNo 0 21 = [e] →
        ∀ j, j / 21 = i / 21 → HitSlot v.disk ino inodeNo j → j = i := by
      intro e hhit j hj hhitj
      have hmi := (hitSlot_iff.mp hi.1).2
      have hmj := (hitSlot_iff.mp hhitj).2
      rw [hj, hhit, List.mem_singleton] at hmj
      rw [hhit, List.mem_singleton] at hmi
      omega
    cases hdone with
    | wiped k e hk he hnz hbefore hhit hstays hdisk hbits hinodes hsize hino =>
      obtain rfl := hi.block hbefore hnz hhit
      refine ⟨honly hhit, ?_⟩
      by_cases h12 : i / 21 < 12
      · exact Or.inl h12
      · exact Or.inr fun ha => hstays (halone.mpr ⟨by omega, ha⟩)
    | dropped k e hk he hnz hbefore hhit hgone hdisk hbits hinodes hsize hino =>
      obtain rfl := hi.block hbefore hnz hhit
      exact ⟨honly hhit, Or.inl hk⟩

/-- **When `delete_dir_entry` returns.** On every well-formed directory, and for
every inode number, a call returns exactly when the first entry for the number
is the only one in its block and, in an indirect block, leaves an entry behind. -/
theorem delete_dir_entry_returns_iff {v : Vol p} {ino : Inode} (hwf : DirShape v ino)
    (inodeNo : Nat) :
    (∃ fuel r, deleteDirEntry fuel v ino inodeNo = some r) ↔ Deletable v.disk ino inodeNo := by
  constructor
  · intro hreturns
    obtain ⟨fuel, r, h⟩ := hreturns
    exact deletable_of_returns hwf h
  · intro hdel
    refine ⟨0, ?_⟩
    rw [deleteDirEntry, allBlocks_eq hwf.table]
    show ∃ r, deleteLoop 0 v ino inodeNo (fileBlock v.disk ino) 140 0 = some r
    by_cases hany : ∃ i, HitSlot v.disk ino inodeNo i
    · obtain ⟨i, hi, hleast⟩ : ∃ i, FirstHit v.disk ino inodeNo i := by
        classical
        exact ⟨Nat.find hany, Nat.find_spec hany, fun j hj => Nat.find_min hany hj⟩
      have hfirst : FirstHit v.disk ino inodeNo i := ⟨hi, hleast⟩
      obtain ⟨honly, hcond⟩ := hdel i hfirst
      obtain ⟨hnz, hmem⟩ := hitSlot_iff.mp hi
      have hlt : i / 21 < 140 := by
        by_contra hge
        exact hnz (fileBlock_ge _ _ (by omega))
      have hhit : hitsIn (blockEntry v.disk ino (i / 21)) inodeNo 0 21 = [i % 21] := by
        apply eq_singleton nodup_hitsIn hmem
        intro e hmem'
        have he := (mem_hitsIn_block.mp hmem').1
        have hsame := honly (21 * (i / 21) + e) (by omega) (hitSlot_iff.mpr (by
          rw [show (21 * (i / 21) + e) / 21 = i / 21 by omega,
            show (21 * (i / 21) + e) % 21 = e by omega]
          exact ⟨hnz, hmem'⟩))
        omega
      have hskip := @deleteLoop_skip p 0 inodeNo v ino hwf.reach (i / 21) 0 (by omega)
        fun l _ hl hl0 => hfirst.before l (by omega) hl0
      rw [Nat.sub_zero, Nat.zero_add] at hskip
      rw [hskip]
      exact deleteLoop_returns hwf hlt hnz hhit (hcond.imp_right fun hn hgone =>
        hn ((hwf.alone_iff hi).mp hgone).2)
    · have hskip := @deleteLoop_skip p 0 inodeNo v ino hwf.reach 140 0
        (by omega) fun l _ hl hl0 => by
          rw [List.eq_nil_iff_forall_not_mem]
          intro e hmem
          have he := (mem_hitsIn_block.mp hmem).1
          refine hany ⟨21 * l + e, hitSlot_iff.mpr ?_⟩
          rw [show (21 * l + e) / 21 = l by omega, show (21 * l + e) % 21 = e by omega]
          exact ⟨hl0, hmem⟩
      rw [Nat.sub_zero, Nat.zero_add] at hskip
      rw [hskip]
      exact ⟨_, rfl⟩

/-! ## A sample directory with its dots

The sample directory with `.` and `..` in its first two slots. -/

/-- An entry of the directory for itself or its parent, both inode 0. -/
def homeDot (name : List UInt8) : DirEntry := ⟨fun k => name.getD k 0, 0, ftDirectory⟩

def homeEntry (i : Nat) : DirEntry :=
  if i = 0 then homeDot dot else if i = 1 then homeDot dotDot else sampleEntry i

def homeVol (n : Nat) : Vol blankPartition :=
  { sampleVol n with
    disk := ((sampleDisk n).blit (512 * 612 + 24 * 0) (homeDot dot).bytes 24).blit
      (512 * 612 + 24 * 1) (homeDot dotDot).bytes 24 }

theorem home_fileBlock (n k : Nat) :
    fileBlock (homeVol n).disk (sampleDir n) k = fileBlock (sampleDisk n) (sampleDir n) k := by
  refine fileBlock_congr (fun _ => rfl) (fun htab a ha => ?_) k
  have h752 : (sampleDir n).sec 12 = 752 := by
    rw [sampleDir_table] at htab ⊢
    split at htab
    next h => rw [if_pos h]
    next => exact absurd rfl htab
  rw [h752] at ha
  exact (Mem.blit_out (by omega)).trans (Mem.blit_out (by omega))

theorem home_liveAt {n i : Nat} (h2 : 2 ≤ n) :
    liveAt (homeVol n).disk (sampleDir n) i = if i < n ∧ i < 140 * 21 then some (homeEntry i) else none := by
  by_cases hi : i < 140 * 21
  · have hmod : i % 21 < 21 := Nat.mod_lt _ (by decide)
    have hsample := sample_liveAt (n := n) hi
    have hentry : ∀ lba, entryAt (homeVol n).disk lba (i % 21) =
        if lba = 612 ∧ i % 21 = 1 then homeDot dotDot
        else if lba = 612 ∧ i % 21 = 0 then homeDot dot else entryAt (sampleDisk n) lba (i % 21) := by
      intro lba
      exact (entryAt_store (by decide) hmod).trans (by rw [entryAt_store (by decide) hmod])
    rw [liveAt, sample_fileBlock (by omega)] at hsample
    rw [liveAt, home_fileBlock, hentry, sample_fileBlock (by omega)]
    by_cases hb : 21 * (i / 21) < n
    · rw [if_pos hb] at hsample ⊢
      rcases (by omega : i = 0 ∨ i = 1 ∨ 2 ≤ i) with rfl | rfl | hge
      · rw [if_neg (by decide), if_pos (by decide), if_pos ⟨by omega, hi⟩]
        exact liveEntry_eq_some (by decide) (by decide)
      · rw [if_pos (by decide), if_pos ⟨by omega, hi⟩]
        exact liveEntry_eq_some (by decide) (by decide)
      · have hhome : homeEntry i = sampleEntry i := by
          rw [homeEntry, if_neg (by omega), if_neg (by omega)]
        rw [if_neg (by omega), if_neg (by omega), hsample, hhome]
        by_cases hlt : i < n
        · rw [if_pos hlt, if_pos ⟨hlt, hi⟩]
        · rw [if_neg hlt, if_neg (fun h => hlt h.1)]
    · rw [if_neg hb, liveEntry_eq_none (Or.inl rfl), if_neg (fun h => by omega)]
  · rw [if_neg (fun h => hi h.2)]
    exact liveEntry_eq_none (Or.inl (fileBlock_ge _ _ (by omega)))

/-- No sample entry is called `.` or `..`. -/
theorem sampleEntry_plain {i : Nat} (hi : i ≤ 140 * 21) :
    (sampleEntry i).named dot = false ∧ (sampleEntry i).named dotDot = false := by
  have h0 := (sampleEntry_bytes hi).1
  have hne : ∀ name : List UInt8, name.getD 0 0 = 46 → 0 < name.length →
      (sampleEntry i).named name = false := by
    intro name hname hlen
    cases hnamed : (sampleEntry i).named name with
    | false => rfl
    | true =>
      have hbyte := strEq_byte hnamed hlen
      rw [hname] at hbyte
      rw [hbyte] at h0
      have h46 : (46 : UInt8).toNat = 46 := rfl
      omega
  exact ⟨hne dot rfl (by decide), hne dotDot rfl (by decide)⟩

theorem home_live {n i : Nat} (h2 : 2 ≤ n) {de : DirEntry}
    (h : liveAt (homeVol n).disk (sampleDir n) i = some de) :
    i < n ∧ i < 140 * 21 ∧ de = homeEntry i := by
  rw [home_liveAt h2] at h
  split at h
  next hi => exact ⟨hi.1, hi.2, (Option.some.inj h).symm⟩
  next => cases h

theorem home_shape {n : Nat} (h2 : 2 ≤ n) (hn : n ≤ 140 * 21) :
    DirShape (homeVol n) (sampleDir n) where
  held := by
    have hslot : slot (homeVol n).disk (sampleDir n) = slot (sampleVol n).disk (sampleDir n) := by
      funext k
      unfold slot
      rw [home_fileBlock]
      rfl
    show Ledger 0 (slot (homeVol n).disk (sampleDir n)) (sampleVol n).Used
    rw [hslot]
    exact (sample_wf hn).held
  table := (sample_names hn).search.table
  reach k := by
    rw [home_fileBlock]
    exact (sample_names hn).search.reach k
  here := ⟨0, homeEntry 0, by decide, by rw [home_liveAt h2, if_pos ⟨by omega, by decide⟩],
    by decide⟩
  up := ⟨1, homeEntry 1, by decide, by rw [home_liveAt h2, if_pos ⟨by omega, by decide⟩], by decide⟩
  dots i de hlive hname := by
    obtain ⟨-, hi, rfl⟩ := home_live h2 hlive
    by_contra hge
    rw [homeEntry, if_neg (by omega), if_neg (by omega)] at hname
    obtain ⟨hdot, hdotDot⟩ := sampleEntry_plain (i := i) (by omega)
    rw [hdot, hdotDot] at hname
    simp at hname
  filled k _ hnz := by
    refine ⟨0, by decide, ?_⟩
    have hk : k < 140 := by
      by_contra hge
      exact hnz (fileBlock_ge _ _ (by omega))
    rw [home_fileBlock, sample_fileBlock hk] at hnz
    rw [home_liveAt h2]
    split at hnz
    next h => rw [if_pos ⟨by omega, by omega⟩]; simp
    next => exact absurd rfl hnz
  size := by
    have hlen : (liveEntries (homeVol n).disk (sampleDir n)).length = n := by
      unfold liveEntries
      have hsame : ∀ i ∈ List.range (140 * 21), liveAt (homeVol n).disk (sampleDir n) i =
          if i < n then some (homeEntry i) else none := by
        intro i hi
        rw [home_liveAt h2]
        simp only [List.mem_range.mp hi, and_true]
      rw [filterMap_same hsame, length_filterMap_range]
      omega
    rw [hlen]
    show (UInt32.ofNat (24 * n)).toNat = 24 * n
    rw [UInt32.toNat_ofNat', Nat.mod_eq_of_lt (by omega)]

/-- The sample entry in slot `i` is the one with number `i + 1`. -/
theorem home_hit {n i j : Nat} (h2 : 2 ≤ i) (hi : i < n) (hn : n ≤ 140 * 21) :
    HitSlot (homeVol n).disk (sampleDir n) (i + 1) j ↔ j = i := by
  constructor
  · intro hin
    obtain ⟨de, hlive, hcounts, hno⟩ := hin
    obtain ⟨hj, hj', rfl⟩ := home_live (by omega) hlive
    rcases (by omega : j = 0 ∨ j = 1 ∨ 2 ≤ j) with rfl | rfl | hge
    · exact absurd hcounts (by decide)
    · exact absurd hcounts (by decide)
    · rw [homeEntry, if_neg (by omega), if_neg (by omega)] at hno
      have hword : (sampleEntry j).iNo.toNat = j + 1 := by
        show (UInt32.ofNat (j + 1)).toNat = j + 1
        rw [UInt32.toNat_ofNat', Nat.mod_eq_of_lt (by omega)]
      omega
  · intro heq
    subst heq
    refine ⟨homeEntry j, by rw [home_liveAt (by omega), if_pos ⟨hi, by omega⟩], ?_⟩
    rw [homeEntry, if_neg (by omega), if_neg (by omega)]
    refine ⟨⟨sampleEntry_live j, sampleEntry_plain (by omega)⟩, ?_⟩
    show (UInt32.ofNat (j + 1)).toNat = j + 1
    rw [UInt32.toNat_ofNat', Nat.mod_eq_of_lt (by omega)]

/-- Twenty-two entries: the last one is alone in the second block. -/
theorem delete_dir_entry_removes_one_alone :
    ∃ r v' ino', deleteDirEntry 0 (homeVol 22) (sampleDir 22) 22 = some (r, v', ino') ∧
      r = true ∧
      (∀ j, liveAt v'.disk ino' j =
        if j = 21 then none else liveAt (homeVol 22).disk (sampleDir 22) j) ∧
      (∀ j, liveAt v'.disk ino' j ≠ none → fileBlock v'.disk ino' (j / 21) =
        fileBlock (homeVol 22).disk (sampleDir 22) (j / 21)) ∧
      ino'.size + dirEntrySize = (sampleDir 22).size ∧
      (21 / 21 ≠ 0 ∧ AloneInBlock (homeVol 22).disk (sampleDir 22) 21 →
        fileBlock v'.disk ino' (21 / 21) = 0 ∧ ∀ b, v'.blockBitmap.bit b =
          if b = fileBlock (homeVol 22).disk (sampleDir 22) (21 / 21) -
            blankPartition.dataStartLba then false else (homeVol 22).blockBitmap.bit b) ∧
      (¬(21 / 21 ≠ 0 ∧ AloneInBlock (homeVol 22).disk (sampleDir 22) 21) →
        fileBlock v'.disk ino' (21 / 21) =
          fileBlock (homeVol 22).disk (sampleDir 22) (21 / 21) ∧
        v'.blockBitmap = (homeVol 22).blockBitmap) ∧
      v'.inodeBitmap = (homeVol 22).inodeBitmap := by
  have hrun : (deleteDirEntry 0 (homeVol 22) (sampleDir 22) 22).map (·.1) = some true := by
    decide +kernel
  obtain ⟨⟨r, v', ino'⟩, h, -⟩ := Option.map_eq_some_iff.mp hrun
  have hhit : ∀ j, HitSlot (homeVol 22).disk (sampleDir 22) 22 j ↔ j = 21 := fun j =>
    home_hit (i := 21) (by decide) (by decide) (by decide)
  exact ⟨r, v', ino', h, delete_dir_entry_removes_one (home_shape (by decide) (by decide))
    ((hhit 21).mpr rfl) (fun j hj => (hhit j).mp hj) h⟩

theorem delete_dir_entry_returns_iff_three :
    (∃ fuel r, deleteDirEntry fuel (homeVol 3) (sampleDir 3) 3 = some r) ↔
      Deletable (homeVol 3).disk (sampleDir 3) 3 :=
  delete_dir_entry_returns_iff (home_shape (by decide) (by decide)) 3

/-- Twelve full direct blocks and one entry behind them: deleting that one never
returns. -/
theorem delete_dir_entry_hangs :
    DirShape (homeVol 253) (sampleDir 253) ∧
      ¬∃ fuel r, deleteDirEntry fuel (homeVol 253) (sampleDir 253) 253 = some r := by
  have hwf : DirShape (homeVol 253) (sampleDir 253) := home_shape (by decide) (by decide)
  refine ⟨hwf, fun hreturns => ?_⟩
  have hhit : ∀ j, HitSlot (homeVol 253).disk (sampleDir 253) 253 j ↔ j = 252 := fun j =>
    home_hit (i := 252) (by decide) (by decide) (by decide)
  obtain ⟨fuel, r, h⟩ := hreturns
  have hfirst : FirstHit (homeVol 253).disk (sampleDir 253) 253 252 :=
    ⟨(hhit 252).mpr rfl, fun j hj hj' => by have heq := (hhit j).mp hj'; omega⟩
  refine (deletable_of_returns hwf h 252 hfirst).2.elim (by decide) fun hn => hn fun j hj hne => ?_
  -- the slots behind it are free
  rw [home_liveAt (by decide), if_neg (by omega)]

end OsCore.Fs
