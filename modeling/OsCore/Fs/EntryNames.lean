import OsCore.Fs.DirSearch
import OsCore.Fs.FileTable

/-!
# Names of sixteen characters

`create_dir_entry` accepts a name of up to `MAX_FILE_NAME_LEN` = 16 characters
and copies it without its final zero into a field of sixteen bytes. A shorter
name is followed by the zeros the entry was cleared to. A name that fills the
field is followed by the low byte of `i_no`, and `strcmp` goes on into it.

So a stored entry answers to its own name when the name leaves room for a zero
or that byte happens to be one (`createDirEntry_named_iff`), and it never
answers to another name of at most sixteen characters
(`createDirEntry_named_other`). `stored_entry_found_iff` carries the two to the
lookup.
-/

namespace OsCore.Fs

variable {p : Partition}

/-! ## What a stored entry answers to -/

/-- `strcmp` says equal when the characters agree and the zero follows them. -/
theorem strEq_iff {name : List UInt8} : ∀ {a : Mem},
    strEq a name = true ↔ (∀ i, i < name.length → a i = name.getD i 0) ∧ a name.length = 0 := by
  intro a
  constructor
  · exact fun h => ⟨fun i hi => strEq_byte h hi, strEq_end h⟩
  · induction name generalizing a with
    | nil =>
      intro h
      rw [strEq, beq_iff_eq]
      exact h.2
    | cons c cs ih =>
      intro h
      obtain ⟨hchars, hend⟩ := h
      rw [strEq, Bool.and_eq_true, beq_iff_eq]
      refine ⟨hchars 0 (Nat.succ_pos _), ih ⟨fun i hi => ?_, ?_⟩⟩
      · have hi' := hchars (i + 1) (Nat.succ_lt_succ hi)
        rw [Mem.shift, Nat.add_comm]
        exact hi'
      · rw [Mem.shift, Nat.add_comm]
        exact hend

section Stored

variable {name : List UInt8} {n : Nat} {t : UInt32} {de : DirEntry}

theorem createDirEntry_length (h : createDirEntry name n t = some de) : name.length ≤ 16 := by
  simp only [createDirEntry, Option.bind_eq_bind, Option.bind_eq_some_iff, ensure_eq_some] at h
  obtain ⟨-, hlen, -⟩ := h
  exact hlen

theorem createDirEntry_char (h : createDirEntry name n t = some de) {i : Nat} (hi : i < 16) :
    de.bytes i = name.getD i 0 := by
  have hlen := createDirEntry_length h
  rw [createDirEntry, ensure_pos hlen] at h
  simp only [Option.bind_eq_bind, Option.bind_some, Option.pure_def, Option.some.injEq] at h
  rw [← h, DirEntry.bytes, dif_pos hi]

/-- The byte behind the field is the low byte of the inode number. -/
theorem createDirEntry_next (h : createDirEntry name n t = some de) :
    de.bytes 16 = 0 ↔ n % 256 = 0 := by
  have hlen := createDirEntry_length h
  rw [createDirEntry, ensure_pos hlen] at h
  simp only [Option.bind_eq_bind, Option.bind_some, Option.pure_def, Option.some.injEq] at h
  rw [← h, DirEntry.bytes, dif_neg (by decide), if_pos (by decide), Mem.byteOf,
    ← UInt8.toNat_inj, UInt8.toNat_ofNat', UInt32.toNat_ofNat']
  simp only [UInt8.toNat_zero, Nat.sub_self, Nat.pow_zero, Nat.div_one]
  omega

/-- **An entry answers to its own name** exactly when a zero follows it. -/
theorem createDirEntry_named_iff (h : createDirEntry name n t = some de) :
    de.named name = true ↔ name.length ≤ 15 ∨ n % 256 = 0 := by
  have hlen := createDirEntry_length h
  have hchars : ∀ i, i < name.length → de.bytes i = name.getD i 0 := fun i hi =>
    createDirEntry_char h (by omega)
  rw [DirEntry.named, strEq_iff, and_iff_right hchars]
  rcases Nat.lt_or_eq_of_le hlen with hlt | hfull
  · have hzero : de.bytes name.length = 0 := by
      rw [createDirEntry_char h hlt, List.getD_eq_default _ _ (Nat.le_refl _)]
    exact iff_of_true hzero (Or.inl (by omega))
  · rw [hfull, createDirEntry_next h]
    omega

/-- **It answers to no other name** that `create_dir_entry` would accept. -/
theorem createDirEntry_named_other (h : createDirEntry name n t = some de) (hname : IsName name)
    {other : List UInt8} (hother : IsName other) (hlen : other.length ≤ 16) (hne : other ≠ name) :
    de.named other = false := by
  cases hnamed : de.named other with
  | false => rfl
  | true =>
    refine absurd ?_ hne
    have hlen' := createDirEntry_length h
    obtain ⟨hchars, hend⟩ := strEq_iff.mp hnamed
    have hsame : ∀ i, i < other.length → name.getD i 0 = other.getD i 0 := fun i hi => by
      rw [← hchars i hi, createDirEntry_char h (by omega)]
    -- neither can go on where the other has ended
    have hle : other.length ≤ name.length := by
      refine Nat.le_of_not_lt fun hlt => hother.getD_ne hlt ?_
      rw [← hsame _ hlt, List.getD_eq_default _ _ (Nat.le_refl _)]
    have hge : name.length ≤ other.length := by
      refine Nat.le_of_not_lt fun hlt => hname.getD_ne hlt ?_
      rw [← createDirEntry_char h (by omega), hend]
    apply List.ext_getElem (by omega)
    intro i h1 h2
    have hi := hsame i h1
    rw [List.getD_eq_getElem _ _ h1, List.getD_eq_getElem _ _ h2] at hi
    exact hi.symm

end Stored

/-! ## A directory of one entry -/

/-- The first data block of the blank partition, with `de` in its first slot. -/
def oneEntryVol (de : DirEntry) : Vol blankPartition :=
  { blankVol with disk := Mem.zero.blit (512 * 612) de.bytes 24 }

/-- The directory of that block. -/
def oneEntryDir : Inode := ((blankInode 0).setSec 0 612).setSize 24

theorem oneEntryDir_block (disk : Mem) (k : Nat) :
    fileBlock disk oneEntryDir k = if k = 0 then 612 else 0 := by
  have hsec : ∀ j, oneEntryDir.sec j = if j = 0 then 612 else 0 := by
    intro j
    rw [oneEntryDir, Inode.sec_setSize, Inode.sec_setSec (by decide) (by decide)]
    have hblank : (blankInode 0).sec j = 0 := by
      unfold Inode.sec
      split <;> rfl
    rw [hblank]
  unfold fileBlock
  rw [hsec, hsec]
  split
  · rfl
  · rw [if_neg (fun h => h.2 rfl), if_neg (by omega)]

theorem oneEntry_slot (de : DirEntry) (i : Nat) :
    dirSlot (oneEntryVol de).disk oneEntryDir i =
      if i = 0 then some de else if i < 21 then some zeroEntry else none := by
  have hdisk : (oneEntryVol de).disk = Mem.zero.blit (512 * 612) de.bytes 24 := rfl
  rw [dirSlot, slotAt, oneEntryDir_block, hdisk]
  by_cases h21 : i < 21
  · rw [if_pos (show i / 21 = 0 by omega), if_neg (by decide), if_pos h21, entryAt,
      Nat.mod_eq_of_lt h21]
    by_cases h0 : i = 0
    · subst h0
      rw [if_pos rfl]
      exact congrArg some (DirEntry.ofMem_bytes fun l hl => Mem.blit_add hl)
    · rw [if_neg h0]
      refine congrArg some (DirEntry.ofMem_congr fun l hl => ?_)
      exact Mem.blit_out (by omega)
  · rw [if_neg (show i / 21 ≠ 0 by omega), if_pos rfl, if_neg (by omega), if_neg h21]

theorem oneEntry_searchable {de : DirEntry} (htyped : de.Typed) :
    Searchable (oneEntryVol de) oneEntryDir where
  table := by decide
  reach k := by
    rw [oneEntryDir_block]
    split <;> decide
  typed i de' hde := by
    rw [show slotAt _ _ i = _ from oneEntry_slot de i] at hde
    split at hde
    · rw [← Option.some.inj hde]
      exact htyped
    · split at hde
      · rw [← Option.some.inj hde]
        show (DirEntry.ofMem Mem.zero 0).fType.toNat ≤ 2
        decide
      · exact absurd hde (by simp)

/-! ## The lookup -/

/-- **When a stored name can be looked up.** For every name `create_dir_entry`
accepts and every inode number, in every directory that has the entry in some
slot and no earlier slot that answers to the name: the lookup of the name gives
the entry and the lookup of any other name does not, exactly when the name has
at most fifteen characters or the low byte of the number is zero. -/
theorem stored_entry_found_iff {v : Vol p} {ino : Inode} {name : List UInt8} {n i : Nat}
    {t : UInt32} {de : DirEntry} (hs : Searchable v ino) (hname : IsName name)
    (hde : createDirEntry name n t = some de) (hslot : dirSlot v.disk ino i = some de)
    (hfirst : ∀ j, j < i → ∀ e, dirSlot v.disk ino j = some e → e.named name = false) :
    (searchDirEntry v ino name = some (some de) ∧
      ∀ other, IsName other → 1 ≤ other.length → other.length ≤ 16 → other ≠ name →
        searchDirEntry v ino other ≠ some (some de)) ↔
      name.length ≤ 15 ∨ n % 256 = 0 := by
  rw [← createDirEntry_named_iff hde]
  constructor
  · intro h
    obtain ⟨hfound, -⟩ := h
    rw [searchDirEntry_eq hs hname, Option.some.injEq, firstHit_eq_some] at hfound
    obtain ⟨-, -, -, hnamed, -⟩ := hfound
    exact hnamed
  · intro hnamed
    refine ⟨?_, fun other hother _ hlen hne hfound => ?_⟩
    · rw [searchDirEntry_eq hs hname, Option.some.injEq, firstHit_eq_some]
      exact ⟨i, dirSlot_lt hslot, hslot, hnamed, hfirst⟩
    · rw [searchDirEntry_eq hs hother, Option.some.injEq, firstHit_eq_some] at hfound
      obtain ⟨-, -, -, hanswers, -⟩ := hfound
      rw [createDirEntry_named_other hde hname hother hlen hne] at hanswers
      exact absurd hanswers (by decide)

/-- Sixteen times the letter `a`. -/
def sixteenChars : List UInt8 := List.replicate 16 97

theorem isName_sixteenChars : IsName sixteenChars := by
  intro c hc
  rw [List.eq_of_mem_replicate hc]
  decide

/-- The entry of a file with that name. -/
def sixteenEntry (n : Nat) : DirEntry := ⟨fun i => sixteenChars.getD i 0, UInt32.ofNat n, ftRegular⟩

theorem createDirEntry_sixteen (n : Nat) :
    createDirEntry sixteenChars n ftRegular = some (sixteenEntry n) := by
  rw [createDirEntry, ensure_pos (by decide)]
  rfl

/-- With inode number 256 the name of sixteen characters is found. -/
theorem stored_entry_found_iff_256 :
    (searchDirEntry (oneEntryVol (sixteenEntry 256)) oneEntryDir sixteenChars =
        some (some (sixteenEntry 256)) ∧
      ∀ other, IsName other → 1 ≤ other.length → other.length ≤ 16 → other ≠ sixteenChars →
        searchDirEntry (oneEntryVol (sixteenEntry 256)) oneEntryDir other ≠
          some (some (sixteenEntry 256))) ↔
      sixteenChars.length ≤ 15 ∨ 256 % 256 = 0 :=
  stored_entry_found_iff (i := 0) (oneEntry_searchable (by decide)) isName_sixteenChars
    (createDirEntry_sixteen 256) (by rw [oneEntry_slot, if_pos rfl]) fun _ hj => absurd hj (Nat.not_lt_zero _)

/-- With inode number 1 it is not. -/
theorem stored_entry_not_found :
    createDirEntry sixteenChars 1 ftRegular = some (sixteenEntry 1) ∧
      Searchable (oneEntryVol (sixteenEntry 1)) oneEntryDir ∧
      dirSlot (oneEntryVol (sixteenEntry 1)).disk oneEntryDir 0 = some (sixteenEntry 1) ∧
      searchDirEntry (oneEntryVol (sixteenEntry 1)) oneEntryDir sixteenChars ≠
        some (some (sixteenEntry 1)) := by
  have hs : Searchable (oneEntryVol (sixteenEntry 1)) oneEntryDir := oneEntry_searchable (by decide)
  refine ⟨createDirEntry_sixteen 1, hs, by rw [oneEntry_slot, if_pos rfl], fun hfound => ?_⟩
  rw [searchDirEntry_eq hs isName_sixteenChars, Option.some.injEq, firstHit_eq_some] at hfound
  obtain ⟨-, -, -, hnamed, -⟩ := hfound
  rw [createDirEntry_named_iff (createDirEntry_sixteen 1)] at hnamed
  exact absurd hnamed (by decide)

end OsCore.Fs
