import OsCore.Fs.DirSearch

/-!
# Listing a directory

`dir_read` keeps no cursor into the blocks. Every call starts at the first
block again, counts live entries up to `dir_pos`, and returns the one it stops
at. `dirRead_eq` says which one that is: at position `24 * m` it is entry `m` of
the directory's live entries in slot order. The listing that follows a rewind
is therefore the list of live entries, whatever slots they are in
(`dir_read_lists_entries`).

`search_dir_entry` looks at the same slots by other rules: it ignores `i_size`
and the types and always goes through 140 addresses. Free slots being zero,
no name matches one, so it finds the first entry of the listing that has the
name (`search_agrees_with_listing`).
-/

namespace OsCore.Fs

variable {p : Partition}

/-! ## The functions of `fs/dir.c` -/

/-- `struct dir`, with the inode it points to. -/
structure Dir where
  inode : Inode
  dirPos : Nat

/-- `while (dir_entry_idx < dir_entrys_per_sec)`: `n` entries from `e` on. The
position reached, and the slot of the entry to return. -/
def readEntries (buf : Mem) (dirPos : Nat) : Nat → Nat → Nat → Option (Nat × Option Nat)
  | 0, _, curDirEntryPos => some (curDirEntryPos, none)
  | n + 1, e, curDirEntryPos =>
    if (DirEntry.ofMem buf (24 * e)).fType ≠ ftUnknown then
      if curDirEntryPos < dirPos then
        readEntries buf dirPos n (e + 1) ((curDirEntryPos + dirEntrySize) % 2 ^ 32)
      else do
        ensure (curDirEntryPos = dirPos)
        return (curDirEntryPos, some e)
    else readEntries buf dirPos n (e + 1) curDirEntryPos

/-- `while (block_idx < block_cnt)`: `n` blocks from `blockIdx` on. -/
def dirReadLoop (v : Vol p) (dir : Dir) (blocks : Nat → Nat) :
    Nat → Nat → Nat → Option (Option DirEntry)
  | 0, _, _ => some none
  | n + 1, blockIdx, curDirEntryPos =>
    if dir.dirPos ≥ dir.inode.size then some none
    else if blocks blockIdx = 0 then dirReadLoop v dir blocks n (blockIdx + 1) curDirEntryPos
    else do
      let dirBuf ← ideRead v.disk (blocks blockIdx) Mem.zero 1
      let (curDirEntryPos, found) ← readEntries dirBuf dir.dirPos 21 0 curDirEntryPos
      match found with
      | some e => return some (DirEntry.ofMem dirBuf (24 * e))
      | none => dirReadLoop v dir blocks n (blockIdx + 1) curDirEntryPos

/-- `dir_read`, which is `sys_readdir`: the next entry, and the directory with
its new position. -/
def dirRead (v : Vol p) (dir : Dir) : Option (Option DirEntry × Dir) := do
  let blocks ← allBlocks v dir.inode
  let blockCnt := if dir.inode.sec 12 ≠ 0 then 140 else 12
  let dirE ← dirReadLoop v dir blocks blockCnt 0 0
  match dirE with
  | some de => return (some de, { dir with dirPos := (dir.dirPos + dirEntrySize) % 2 ^ 32 })
  | none => return (none, dir)

/-- `sys_rewinddir`. -/
def sysRewinddir (dir : Dir) : Dir := { dir with dirPos := 0 }

/-- Calling `dir_read` until it returns `NULL`, `fuel` times at most. -/
def readAll (v : Vol p) : Nat → Dir → Option (List DirEntry)
  | 0, _ => none
  | fuel + 1, dir => do
    let (dirE, dir) ← dirRead v dir
    match dirE with
    | some de => return de :: (← readAll v fuel dir)
    | none => return []

/-! ## One block -/

/-- The live entry in slot `e` of a sector. -/
def liveInSlot (buf : Mem) (e : Nat) : Option DirEntry :=
  liveEntry 1 (DirEntry.ofMem buf (24 * e))

/-- The live entries in slots `e`, ..., `e + n - 1` of a sector. -/
def liveInSector (buf : Mem) (e n : Nat) : List DirEntry :=
  (List.range' e n).filterMap (liveInSlot buf)

theorem length_liveInSector_le (buf : Mem) (e n : Nat) : (liveInSector buf e n).length ≤ n := by
  have hlen := List.length_filterMap_le (liveInSlot buf) (List.range' e n)
  rwa [List.length_range'] at hlen

theorem liveInSector_live {buf : Mem} {e n : Nat}
    (h : (DirEntry.ofMem buf (24 * e)).fType ≠ ftUnknown) :
    liveInSector buf e (n + 1) = DirEntry.ofMem buf (24 * e) :: liveInSector buf (e + 1) n := by
  have hlive : liveInSlot buf e = some (DirEntry.ofMem buf (24 * e)) :=
    liveEntry_eq_some Nat.one_ne_zero h
  rw [liveInSector, List.range'_succ, List.filterMap_cons_some hlive]
  rfl

theorem liveInSector_free {buf : Mem} {e n : Nat}
    (h : (DirEntry.ofMem buf (24 * e)).fType = ftUnknown) :
    liveInSector buf e (n + 1) = liveInSector buf (e + 1) n := by
  have hnone : liveInSlot buf e = none := liveEntry_eq_none (Or.inr h)
  rw [liveInSector, List.range'_succ, List.filterMap_cons_none hnone]
  rfl

/-- The pass over a sector with `c` entries counted before it, looking for
entry `m`: it stops at the live entry `m - c` of the sector if there is one. -/
theorem readEntries_eq {buf : Mem} {m : Nat} : ∀ {n e c : Nat}, c ≤ m → 24 * (c + n) < 2 ^ 32 →
    ∃ found, readEntries buf (24 * m) n e (24 * c) =
        some (24 * min m (c + (liveInSector buf e n).length), found) ∧
      found.map (fun i => DirEntry.ofMem buf (24 * i)) = (liveInSector buf e n)[m - c]? := by
  intro n
  induction n with
  | zero =>
    intro e c hc _
    refine ⟨none, ?_, rfl⟩
    rw [readEntries]
    congr 2
    rw [show (liveInSector buf e 0).length = 0 from rfl]
    omega
  | succ n ih =>
    intro e c hc hword
    rw [readEntries]
    by_cases hfree : (DirEntry.ofMem buf (24 * e)).fType = ftUnknown
    · rw [if_neg (not_not_intro hfree), liveInSector_free hfree]
      exact ih hc (by omega)
    · rw [if_pos hfree, liveInSector_live hfree, List.length_cons]
      rcases Nat.lt_or_eq_of_le hc with hlt | rfl
      · -- an entry returned by an earlier call
        rw [if_pos (by omega), dirEntrySize,
          show (24 * c + 24) % 2 ^ 32 = 24 * (c + 1) by omega]
        obtain ⟨found, hrun, hfound⟩ := ih (e := e + 1) (c := c + 1) (by omega) (by omega)
        refine ⟨found, ?_, ?_⟩
        · rw [hrun, Nat.add_right_comm, Nat.add_assoc]
        · rw [hfound, show m - c = (m - (c + 1)) + 1 by omega, List.getElem?_cons_succ]
      · refine ⟨some e, ?_, ?_⟩
        · rw [if_neg (Nat.lt_irrefl _), ensure_pos rfl]
          simp only [Option.bind_eq_bind, Option.bind_some, Option.pure_def]
          congr 2
          omega
        · rw [Nat.sub_self]
          rfl

/-! ## All blocks -/

/-- The live entries of blocks `k`, ..., `k + n - 1`. -/
def liveFrom (disk : Mem) (ino : Inode) (k n : Nat) : List DirEntry :=
  (List.range' (21 * k) (21 * n)).filterMap (liveAt disk ino)

theorem liveFrom_succ (disk : Mem) (ino : Inode) (k n : Nat) :
    liveFrom disk ino k (n + 1) = liveFrom disk ino k 1 ++ liveFrom disk ino (k + 1) n := by
  unfold liveFrom
  rw [show 21 * (n + 1) = 21 * 1 + 21 * n by omega, ← List.range'_append_1, List.filterMap_append,
    show 21 * k + 21 * 1 = 21 * (k + 1) by omega]

theorem liveFrom_missing {disk : Mem} {ino : Inode} {k : Nat} (h : fileBlock disk ino k = 0) :
    liveFrom disk ino k 1 = [] := by
  rw [liveFrom, List.filterMap_eq_nil_iff]
  intro i hi
  rw [List.mem_range'_1] at hi
  exact liveEntry_eq_none (Or.inl (by rw [show i / 21 = k by omega, h]))

/-- A block that is there holds what its sector holds. -/
theorem liveFrom_sector {disk buf : Mem} {ino : Inode} {k : Nat} (hnz : fileBlock disk ino k ≠ 0)
    (hbuf : ∀ i, i < 512 → buf i = disk (512 * fileBlock disk ino k + i)) :
    liveFrom disk ino k 1 = liveInSector buf 0 21 := by
  rw [liveFrom, liveInSector, List.range'_eq_map_range, List.filterMap_map,
    ← List.range_eq_range']
  apply filterMap_same
  intro e he
  rw [List.mem_range] at he
  have hentry := ofMem_sector hbuf (show e < 21 by omega)
  rw [Function.comp_apply, liveAt, show (21 * k + e) / 21 = k by omega,
    show (21 * k + e) % 21 = e by omega, liveInSlot, hentry]
  simp only [liveEntry, hnz, false_or, Nat.one_ne_zero]

/-- The live entries, through as many blocks as `dir_read` goes. -/
theorem liveEntries_eq (disk : Mem) (ino : Inode) :
    liveEntries disk ino = liveFrom disk ino 0 (if ino.sec 12 ≠ 0 then 140 else 12) := by
  by_cases h0 : ino.sec 12 = 0
  · rw [if_neg (not_not_intro h0), liveEntries, List.range_eq_range',
      show 140 * 21 = 21 * 12 + 21 * 128 from rfl, ← List.range'_append_1, List.filterMap_append]
    have hnone : (List.range' (0 + 21 * 12) (21 * 128)).filterMap (liveAt disk ino) = [] := by
      rw [List.filterMap_eq_nil_iff]
      intro i hi
      rw [List.mem_range'_1] at hi
      exact liveEntry_eq_none (Or.inl (fileBlock_no_table _ (by omega) h0))
    rw [hnone, List.append_nil]
    rfl
  · rw [if_pos h0, liveEntries, List.range_eq_range']
    rfl

/-- The loop over the blocks: entry `m` of what is ahead of it. -/
theorem dirReadLoop_eq {v : Vol p} {ino : Inode} {m : Nat} (hpos : 24 * m < ino.size)
    (hreach : ∀ k, fileBlock v.disk ino k ≤ maxLba) : ∀ {n k c : Nat}, c ≤ m →
    24 * (c + 21 * n) < 2 ^ 32 →
    dirReadLoop v ⟨ino, 24 * m⟩ (fileBlock v.disk ino) n k (24 * c) =
      some (liveFrom v.disk ino k n)[m - c]? := by
  intro n
  induction n with
  | zero => exact fun _ _ => rfl
  | succ n ih =>
    intro k c hc hword
    rw [dirReadLoop, if_neg (by dsimp only; omega), liveFrom_succ]
    by_cases hz : fileBlock v.disk ino k = 0
    · rw [if_pos hz, liveFrom_missing hz, List.nil_append]
      exact ih hc (by omega)
    · obtain ⟨buf, hread⟩ : ∃ buf, ideRead v.disk (fileBlock v.disk ino k) Mem.zero 1 = some buf :=
        ⟨_, ideRead_eq_some.mpr ⟨hreach k, by decide, rfl⟩⟩
      obtain ⟨-, -, hbuf⟩ := ideRead_sector hread
      have hlen := length_liveInSector_le buf 0 21
      obtain ⟨found, hrun, hfound⟩ := @readEntries_eq buf _ 21 0 c hc (by omega)
      rw [if_neg hz, hread, liveFrom_sector hz hbuf]
      simp only [Option.bind_eq_bind, Option.bind_some, hrun]
      cases found with
      | some e =>
        -- the entry is in this block
        obtain ⟨hlt, -⟩ := List.getElem?_eq_some_iff.mp hfound.symm
        rw [List.getElem?_append_left hlt, ← hfound]
        rfl
      | none =>
        have hge := List.getElem?_eq_none_iff.mp hfound.symm
        rw [List.getElem?_append_right hge, Nat.min_eq_right (by omega)]
        have hrest := ih (k := k + 1) (c := c + (liveInSector buf 0 21).length) (by omega) (by omega)
        rw [Nat.sub_sub, ← hrest]

/-- **One call of `dir_read`.** At position `24 * m` it returns live entry `m`
and steps to the next position; at the end it returns `NULL` and stays. -/
theorem dirRead_eq {v : Vol p} {ino : Inode} (htable : ino.sec 12 ≤ maxLba)
    (hreach : ∀ k, fileBlock v.disk ino k ≤ maxLba)
    (hsize : ino.size = 24 * (liveEntries v.disk ino).length) {m : Nat}
    (hm : m ≤ (liveEntries v.disk ino).length) :
    dirRead v ⟨ino, 24 * m⟩ =
      some ((liveEntries v.disk ino)[m]?,
        ⟨ino, 24 * min (m + 1) (liveEntries v.disk ino).length⟩) := by
  have hlen := liveEntries_length_le v.disk ino
  rw [dirRead, allBlocks_eq htable]
  simp only [Option.bind_eq_bind, Option.bind_some]
  rcases Nat.lt_or_eq_of_le hm with hlt | hend
  · have hcnt : (if ino.sec 12 ≠ 0 then 140 else 12) ≤ 140 := by split <;> omega
    have hrun := dirReadLoop_eq (m := m) (n := if ino.sec 12 ≠ 0 then 140 else 12) (k := 0) (c := 0)
      (by rw [hsize]; omega) hreach (Nat.zero_le _) (by omega)
    rw [Nat.mul_zero, Nat.sub_zero, ← liveEntries_eq] at hrun
    rw [hrun, Option.bind_some, List.getElem?_eq_getElem hlt, Nat.min_eq_left hlt, dirEntrySize]
    simp only [Option.pure_def]
    rw [show (24 * m + 24) % 2 ^ 32 = 24 * (m + 1) by omega]
  · -- the test at the top of the loop ends the call
    have hrun : dirReadLoop v ⟨ino, 24 * m⟩ (fileBlock v.disk ino)
        (if ino.sec 12 ≠ 0 then 140 else 12) 0 0 = some none := by
      split
      · rw [dirReadLoop, if_pos (by dsimp only; omega)]
      · rw [dirReadLoop, if_pos (by dsimp only; omega)]
    rw [hrun, Option.bind_some, List.getElem?_eq_none (by omega), Nat.min_eq_right (by omega), hend]
    rfl

theorem readAll_eq {v : Vol p} {ino : Inode} (htable : ino.sec 12 ≤ maxLba)
    (hreach : ∀ k, fileBlock v.disk ino k ≤ maxLba)
    (hsize : ino.size = 24 * (liveEntries v.disk ino).length) : ∀ {fuel m : Nat},
    m ≤ (liveEntries v.disk ino).length → (liveEntries v.disk ino).length - m < fuel →
    readAll v fuel ⟨ino, 24 * m⟩ = some ((liveEntries v.disk ino).drop m) := by
  intro fuel
  induction fuel with
  | zero => exact fun _ hfuel => absurd hfuel (Nat.not_lt_zero _)
  | succ fuel ih =>
    intro m hm hfuel
    rw [readAll, dirRead_eq htable hreach hsize hm]
    rcases Nat.lt_or_eq_of_le hm with hlt | hend
    · have hrest := ih (m := m + 1) hlt (by omega)
      rw [List.getElem?_eq_getElem hlt, Nat.min_eq_left hlt, List.drop_eq_getElem_cons hlt]
      simp only [Option.bind_eq_bind, Option.bind_some, hrest, Option.pure_def]
    · rw [List.getElem?_eq_none (by omega), List.drop_eq_nil_of_le (by omega)]
      rfl

/-- The calls after a rewind return the live entries. -/
theorem readAll_rewind {v : Vol p} {ino : Inode} (htable : ino.sec 12 ≤ maxLba)
    (hreach : ∀ k, fileBlock v.disk ino k ≤ maxLba)
    (hsize : ino.size = 24 * (liveEntries v.disk ino).length) (pos : Nat) {fuel : Nat}
    (hfuel : (liveEntries v.disk ino).length < fuel) :
    readAll v fuel (sysRewinddir ⟨ino, pos⟩) = some (liveEntries v.disk ino) := by
  have hall := readAll_eq htable hreach hsize (m := 0) (Nat.zero_le _)
    (by rw [Nat.sub_zero]; exact hfuel)
  rw [Nat.mul_zero, List.drop_zero] at hall
  exact hall

/-! ## The listing -/

theorem liveAt_eq_some {disk : Mem} {ino : Inode} {i : Nat} {de : DirEntry} :
    liveAt disk ino i = some de ↔ dirSlot disk ino i = some de ∧ de.fType ≠ ftUnknown := by
  rw [slotAt_eq_some, liveAt, liveEntry]
  split
  next h =>
    apply iff_of_false (by simp)
    intro hc
    obtain ⟨⟨hnz, rfl⟩, hlive⟩ := hc
    exact h.elim hnz hlive
  next h =>
    rw [not_or] at h
    rw [Option.some.injEq]
    refine ⟨fun hde => ⟨⟨h.1, hde⟩, hde ▸ h.2⟩, fun hc => hc.1.2⟩

/-- What a partial function gives along a list, with the places it is defined. -/
theorem map_some_filterMap {α β : Type} (f : α → Option β) (l : List α) :
    (l.filterMap f).map some = (l.filter fun x => (f x).isSome).map f := by
  induction l with
  | nil => rfl
  | cons x l ih =>
    cases hx : f x with
    | none => simpa [List.filterMap_cons, List.filter_cons, hx] using ih
    | some y => simpa [List.filterMap_cons, List.filter_cons, hx] using ih

/-- **A listing is complete and has no repetition.** In every directory whose
size counts its live entries, the calls of `dir_read` after a rewind return the
entries of the live slots, each slot once and in order, and then `NULL`. -/
theorem dir_read_lists_entries {v : Vol p} {ino : Inode} (htable : ino.sec 12 ≤ maxLba)
    (hreach : ∀ k, fileBlock v.disk ino k ≤ maxLba)
    (hsize : ino.size = 24 * (liveEntries v.disk ino).length) (pos : Nat) :
    ∃ (slots : List Nat) (entries : List DirEntry), slots.Pairwise (· < ·) ∧
      (∀ i, i ∈ slots ↔ ∃ de, dirSlot v.disk ino i = some de ∧ de.fType ≠ ftUnknown) ∧
      entries.map some = slots.map (dirSlot v.disk ino) ∧
      (∀ m, m < entries.length →
        dirRead v ⟨ino, 24 * m⟩ = some (entries[m]?, ⟨ino, 24 * (m + 1)⟩)) ∧
      dirRead v ⟨ino, 24 * entries.length⟩ = some (none, ⟨ino, 24 * entries.length⟩) ∧
      ∀ fuel, entries.length < fuel → readAll v fuel (sysRewinddir ⟨ino, pos⟩) = some entries := by
  refine ⟨(List.range (140 * 21)).filter fun i => (liveAt v.disk ino i).isSome,
    liveEntries v.disk ino, ?_, fun i => ?_, ?_, fun m hm => ?_, ?_, fun fuel hfuel => ?_⟩
  · exact List.Pairwise.sublist List.filter_sublist List.pairwise_lt_range
  · rw [List.mem_filter, Option.isSome_iff_exists]
    simp only [liveAt_eq_some, List.mem_range]
    apply and_iff_right_of_imp
    intro hlive
    obtain ⟨de, hde, -⟩ := hlive
    exact dirSlot_lt hde
  · rw [liveEntries, map_some_filterMap]
    apply List.map_congr_left
    intro i hi
    obtain ⟨de, hde⟩ := Option.isSome_iff_exists.mp (List.mem_filter.mp hi).2
    rw [hde, (liveAt_eq_some.mp hde).1]
  · rw [dirRead_eq htable hreach hsize (Nat.le_of_lt hm), Nat.min_eq_left hm]
  · rw [dirRead_eq htable hreach hsize (Nat.le_refl _), Nat.min_eq_right (Nat.le_succ _),
      List.getElem?_eq_none (Nat.le_refl _)]
  · exact readAll_rewind htable hreach hsize pos hfuel

/-- Twelve full direct blocks and one entry in an indirect one. -/
theorem dir_read_lists_entries_253 :
    ∃ (slots : List Nat) (entries : List DirEntry), slots.Pairwise (· < ·) ∧
      (∀ i, i ∈ slots ↔ ∃ de, dirSlot (sampleVol 253).disk (sampleDir 253) i = some de ∧
        de.fType ≠ ftUnknown) ∧
      entries.map some = slots.map (dirSlot (sampleVol 253).disk (sampleDir 253)) ∧
      (∀ m, m < entries.length → dirRead (sampleVol 253) ⟨sampleDir 253, 24 * m⟩ =
        some (entries[m]?, ⟨sampleDir 253, 24 * (m + 1)⟩)) ∧
      dirRead (sampleVol 253) ⟨sampleDir 253, 24 * entries.length⟩ =
        some (none, ⟨sampleDir 253, 24 * entries.length⟩) ∧
      ∀ fuel, entries.length < fuel →
        readAll (sampleVol 253) fuel (sysRewinddir ⟨sampleDir 253, 48⟩) = some entries := by
  have hwf := sample_names (n := 253) (by decide)
  exact dir_read_lists_entries hwf.search.table hwf.search.reach hwf.size 48

/-! ## Listing and lookup -/

/-- A string has one text. -/
theorem strEq_unique {name : List UInt8} : ∀ {a : Mem} {other : List UInt8}, IsName name →
    IsName other → strEq a name = true → strEq a other = true → name = other := by
  induction name with
  | nil =>
    intro a other _ hother h h'
    cases other with
    | nil => rfl
    | cons c cs =>
      rw [strEq, beq_iff_eq] at h
      rw [strEq, Bool.and_eq_true, beq_iff_eq, h] at h'
      exact absurd h'.1.symm (hother c List.mem_cons_self)
  | cons c cs ih =>
    intro a other hname hother h h'
    rw [strEq, Bool.and_eq_true, beq_iff_eq] at h
    cases other with
    | nil =>
      rw [strEq, beq_iff_eq, h.1] at h'
      exact absurd h' (hname c List.mem_cons_self)
    | cons d ds =>
      rw [strEq, Bool.and_eq_true, beq_iff_eq] at h'
      rw [← h.1, ← h'.1, ih (fun x hx => hname x (List.mem_cons_of_mem _ hx))
        (fun x hx => hother x (List.mem_cons_of_mem _ hx)) h.2 h'.2]

/-- An entry whose name ends inside its field answers to that name only. -/
theorem named_iff_name {de : DirEntry} (hend : ∃ z, de.filename z = 0) {name : List UInt8}
    (hname : IsName name) : de.named name = true ↔ de.name = name := by
  obtain ⟨z, hz⟩ := hend
  have hbyte : de.bytes z = 0 := by rw [DirEntry.bytes, dif_pos z.isLt, hz]
  have hown : de.named de.name = true := strEq_takeWhile 21 de.bytes z (by omega) hbyte
  constructor
  · exact fun h => strEq_unique de.isName_name hname hown h
  · intro h
    rw [← h]
    exact hown

/-- The first slot that answers to a name is that of the first live entry that
does, when free slots answer to none. -/
theorem firstHit_filterMap {disk : Mem} {ino : Inode} {name : List UInt8}
    (hfree : ∀ i de, dirSlot disk ino i = some de → de.fType = ftUnknown → de.named name = false)
    (is : List Nat) :
    firstHit disk (fileBlock disk ino) name is =
      (is.filterMap (liveAt disk ino)).find? (·.named name) := by
  induction is with
  | nil => rfl
  | cons i is ih =>
    unfold firstHit at ih ⊢
    rw [List.find?_cons, List.filterMap_cons]
    cases hlive : liveAt disk ino i with
    | none =>
      -- nothing live is in the slot, so it does not answer
      have hmiss : hit disk (fileBlock disk ino) name i = false := by
        rw [hit]
        cases hslot : slotAt disk (fileBlock disk ino) i with
        | none => rfl
        | some de =>
          refine hfree i de hslot (Classical.byContradiction fun hne => ?_)
          rw [liveAt_eq_some.mpr ⟨hslot, hne⟩] at hlive
          exact absurd hlive (by simp)
      rw [hmiss]
      exact ih
    | some de =>
      have hslot := (liveAt_eq_some.mp hlive).1
      have hhit : hit disk (fileBlock disk ino) name i = de.named name := by
        rw [hit, show slotAt disk (fileBlock disk ino) i = some de from hslot]
        rfl
      rw [hhit, List.find?_cons]
      cases hnamed : de.named name with
      | false => exact ih
      | true => exact hslot

/-- **Lookup and listing agree.** In a directory whose size counts its live
entries, with free slots of zero bytes and names of one to fifteen characters,
`search_dir_entry` finds the first entry of the listing that has the name, and
nothing when there is none. -/
theorem search_agrees_with_listing {v : Vol p} {ino : Inode} (htable : ino.sec 12 ≤ maxLba)
    (hreach : ∀ k, fileBlock v.disk ino k ≤ maxLba)
    (hsize : ino.size = 24 * (liveEntries v.disk ino).length)
    (hfree : ∀ i de, dirSlot v.disk ino i = some de → de.fType = ftUnknown →
      ∀ l, l < 24 → de.bytes l = 0)
    (hnames : ∀ i de, dirSlot v.disk ino i = some de → de.fType ≠ ftUnknown →
      de.filename 0 ≠ 0 ∧ ∃ z, de.filename z = 0)
    {name : List UInt8} (hname : IsName name) (hnonempty : 1 ≤ name.length) (pos : Nat) :
    ∃ entries, (∀ fuel, entries.length < fuel →
        readAll v fuel (sysRewinddir ⟨ino, pos⟩) = some entries) ∧
      searchDirEntry v ino name = some (entries.find? (·.name = name)) := by
  have hended : EndedBlocks v.disk (fileBlock v.disk ino) := by
    intro i de hde
    by_cases hlive : de.fType = ftUnknown
    · exact ⟨0, by decide, hfree i de hde hlive 0 (by decide)⟩
    · obtain ⟨-, z, hz⟩ := hnames i de hde hlive
      exact ⟨z, by omega, by rw [DirEntry.bytes, dif_pos z.isLt, hz]⟩
  have hsilent : ∀ i de, dirSlot v.disk ino i = some de → de.fType = ftUnknown →
      de.named name = false := by
    intro i de hde hlive
    cases hnamed : de.named name with
    | false => rfl
    | true =>
      have hfirst := strEq_byte hnamed hnonempty
      rw [hfree i de hde hlive 0 (by decide)] at hfirst
      exact absurd hfirst.symm (hname.getD_ne hnonempty)
  refine ⟨liveEntries v.disk ino, fun fuel hfuel => readAll_rewind htable hreach hsize pos hfuel, ?_⟩
  rw [searchDirEntry_ended htable hreach hended hname, firstHit_filterMap hsilent]
  refine congrArg some (find?_same fun de hde => ?_).symm
  obtain ⟨i, -, hi⟩ := List.mem_filterMap.mp hde
  obtain ⟨hslot, hlive⟩ := liveAt_eq_some.mp hi
  rw [Bool.eq_iff_iff, decide_eq_true_iff]
  exact (named_iff_name (hnames i de hslot hlive).2 hname).symm

theorem search_agrees_with_listing_253 :
    ∃ entries, (∀ fuel, entries.length < fuel →
        readAll (sampleVol 253) fuel (sysRewinddir ⟨sampleDir 253, 0⟩) = some entries) ∧
      searchDirEntry (sampleVol 253) (sampleDir 253) [69, 77] =
        some (entries.find? (·.name = [69, 77])) := by
  have hwf := sample_names (n := 253) (by decide)
  refine search_agrees_with_listing hwf.search.table hwf.search.reach hwf.size
    (fun i de hde hfree l hl => ?_) (fun i de hde hlive => ⟨hwf.named i de hde hlive, 2, ?_⟩)
    (fun c hc => ?_) (by decide) 0
  · rcases sample_dirSlot hde with h | h
    · rw [h.2] at hfree
      exact absurd hfree (sampleEntry_live i)
    · rw [h.2, DirEntry.bytes_ofMem hl]
      rfl
  · rw [(sample_live hde hlive).2]
    rfl
  · rw [List.mem_cons, List.mem_singleton] at hc
    rcases hc with rfl | rfl
    · decide
    · decide

end OsCore.Fs
