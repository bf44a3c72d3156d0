import OsCore.Fs.DirInsert

/-!
# Lookup in a directory, and what an insertion does to it

`search_dir_entry` returns the first slot whose name matches, counted through
all blocks (`searchDirEntry_eq`). The slots of a directory are numbered through
for this: slot `i` is entry `i % 21` of block `i / 21`.

An insertion that adds to the directory (`Inserted`) changes no live slot, and
the slots it does change hold the new entry or nothing; so every lookup of an
old name comes out as before. The one insertion that does not add to it is the
one that replaces the indirect table, and `sync_dir_entry_keeps_iff` says that
this is the only way an entry is lost.
-/

namespace OsCore.Fs

variable {p : Partition}

/-! ## Names -/

/-- A C string ends at its first zero: what is behind does not matter. -/
theorem strEq_congr {name : List UInt8} : ∀ {a b : Mem} {n z : Nat}, (∀ c ∈ name, c ≠ 0) →
    z < n → a z = 0 → (∀ i, i < n → b i = a i) → strEq b name = strEq a name := by
  induction name with
  | nil =>
    intro a b n z _ hz _ h
    rw [strEq, strEq, h 0 (by omega)]
  | cons c cs ih =>
    intro a b n z hname hz ha h
    rw [strEq, strEq, h 0 (by omega)]
    by_cases h0 : z = 0
    · subst h0
      have hc : (a 0 == c) = false := by
        rw [ha]
        simpa using (hname c List.mem_cons_self).symm
      rw [hc, Bool.false_and, Bool.false_and]
    · congr 1
      refine ih (n := n - 1) (z := z - 1) (fun d hd => hname d (List.mem_cons_of_mem _ hd))
        (by omega) ?_ fun i hi => h _ (by omega)
      rw [Mem.shift, show 1 + (z - 1) = z by omega, ha]

/-- The entry is called `name`. -/
def DirEntry.named (de : DirEntry) (name : List UInt8) : Bool := strEq de.bytes name

/-- A string of characters. -/
def IsName (name : List UInt8) : Prop := ∀ c ∈ name, c ≠ 0

theorem IsName.getD_ne {name : List UInt8} (hname : IsName name) {i : Nat} (hi : i < name.length) :
    name.getD i 0 ≠ 0 := by
  rw [List.getD_eq_getElem _ _ hi]
  exact hname _ (List.getElem_mem hi)

/-- The entry has one of the three types, so the string in it ends in it. -/
def DirEntry.Typed (de : DirEntry) : Prop := de.fType.toNat ≤ 2

instance (de : DirEntry) : Decidable de.Typed := inferInstanceAs (Decidable (de.fType.toNat ≤ 2))

theorem DirEntry.Typed.byte {de : DirEntry} (h : de.Typed) : de.bytes 21 = 0 := by
  rw [DirEntry.bytes, dif_neg (by decide), if_neg (by decide), if_pos (by decide), Mem.byteOf]
  unfold DirEntry.Typed at h
  rw [show de.fType.toNat / 256 ^ (21 - 20) = 0 by omega]
  rfl

/-- The string in a typed entry, up to its zero. -/
def DirEntry.name (de : DirEntry) : List UInt8 :=
  ((List.range 21).map de.bytes).takeWhile (· ≠ 0)

theorem strEq_takeWhile : ∀ (n : Nat) (a : Mem) (z : Nat), z ≤ n → a z = 0 →
    strEq a (((List.range n).map a).takeWhile (· ≠ 0)) = true := by
  intro n
  induction n with
  | zero =>
    intro a z hz h
    obtain rfl : z = 0 := by omega
    simp [strEq, h]
  | succ n ih =>
    intro a z hz h
    have hmap : (List.range (n + 1)).map a = a 0 :: (List.range n).map (a.shift 1) := by
      rw [List.range_succ_eq_map, List.map_cons, List.map_map]
      congr 1
      apply List.map_congr_left
      intro i _
      show a (i + 1) = a (1 + i)
      rw [Nat.add_comm]
    rw [hmap]
    by_cases h0 : a 0 = 0
    · rw [List.takeWhile_cons, if_neg (by simp [h0])]
      simp [strEq, h0]
    · have hpos : z ≠ 0 := fun hz0 => h0 (hz0 ▸ h)
      have hrest := ih (a.shift 1) (z - 1) (by omega)
        (by rw [Mem.shift, show 1 + (z - 1) = z by omega, h])
      rw [List.takeWhile_cons, if_pos (by simp [h0]), strEq, hrest]
      simp

/-- A string that ends early does not depend on how far one may read. -/
theorem takeWhile_range {f : Nat → UInt8} {m n : Nat} (hmn : m ≤ n) {z : Nat} (hz : z < m)
    (h0 : f z = 0) :
    ((List.range n).map f).takeWhile (· ≠ 0) = ((List.range m).map f).takeWhile (· ≠ 0) := by
  obtain ⟨l, rfl⟩ := Nat.exists_eq_add_of_le hmn
  rw [List.range_add, List.map_append, List.takeWhile_append, if_neg]
  intro hlen
  have hall := List.takeWhile_eq_self_iff.mp (List.takeWhile_sublist _ |>.eq_of_length hlen)
  have hfz := hall (f z) (List.mem_map_of_mem (List.mem_range.mpr hz))
  rw [h0] at hfz
  exact absurd hfz (by decide)

theorem DirEntry.named_name {de : DirEntry} (h : de.Typed) : de.named de.name = true :=
  strEq_takeWhile 21 de.bytes 21 (Nat.le_refl _) h.byte

theorem DirEntry.isName_name (de : DirEntry) : IsName de.name := by
  intro c hc
  have := List.all_takeWhile (p := fun c : UInt8 => decide (c ≠ 0)) (l := (List.range 21).map de.bytes)
  rw [List.all_eq_true] at this
  simpa using this c hc

theorem named_nil {de : DirEntry} : de.named [] = true ↔ de.filename 0 = 0 := by
  simp [DirEntry.named, strEq, DirEntry.bytes]

/-! ## The search -/

/-- Slot `i` of a directory whose blocks are listed in `blocks`. -/
def slotAt (disk : Mem) (blocks : Nat → Nat) (i : Nat) : Option DirEntry :=
  if blocks (i / 21) = 0 then none else some (entryAt disk (blocks (i / 21)) (i % 21))

/-- Slot `i` holds an entry called `name`. -/
def hit (disk : Mem) (blocks : Nat → Nat) (name : List UInt8) (i : Nat) : Bool :=
  (slotAt disk blocks i).any (·.named name)

/-- The entry in the first slot of `is` that is called `name`. -/
def firstHit (disk : Mem) (blocks : Nat → Nat) (name : List UInt8) (is : List Nat) :
    Option DirEntry :=
  (is.find? (hit disk blocks name)).bind (slotAt disk blocks)

theorem find?_same {α : Type} {f g : α → Bool} {l : List α} (h : ∀ x ∈ l, g x = f x) :
    l.find? g = l.find? f := by
  induction l with
  | nil => rfl
  | cons x l ih =>
    rw [List.find?_cons, List.find?_cons, h x List.mem_cons_self,
      ih fun y hy => h y (List.mem_cons_of_mem _ hy)]

theorem firstHit_append {disk : Mem} {blocks : Nat → Nat} {name : List UInt8} {is js : List Nat} :
    firstHit disk blocks name (is ++ js) =
      (firstHit disk blocks name is).or (firstHit disk blocks name js) := by
  unfold firstHit
  rw [List.find?_append]
  cases h : is.find? (hit disk blocks name) with
  | none => rfl
  | some i =>
    have hi := List.find?_some h
    rw [Option.some_or, Option.bind_some]
    cases hs : slotAt disk blocks i with
    | none => simp [hit, hs] at hi
    | some de => rfl

/-- Every entry of the listed blocks has one of the three types. -/
def TypedBlocks (disk : Mem) (blocks : Nat → Nat) : Prop :=
  ∀ i de, slotAt disk blocks i = some de → de.Typed

/-- The string in an entry ends inside the entry. -/
def DirEntry.Ended (de : DirEntry) : Prop := ∃ z, z < 24 ∧ de.bytes z = 0

theorem DirEntry.Typed.ended {de : DirEntry} (h : de.Typed) : de.Ended := ⟨21, by decide, h.byte⟩

/-- Every string of the listed blocks ends in its entry. -/
def EndedBlocks (disk : Mem) (blocks : Nat → Nat) : Prop :=
  ∀ i de, slotAt disk blocks i = some de → de.Ended

/-- The pass over one block. -/
theorem firstHit_block {disk buf : Mem} {blocks : Nat → Nat} {name : List UInt8} {k : Nat}
    (hname : IsName name) (hended : EndedBlocks disk blocks) (hnz : blocks k ≠ 0)
    (hbuf : ∀ i, i < 512 → buf i = disk (512 * blocks k + i)) :
    firstHit disk blocks name (List.range' (21 * k) 21) =
      (matchSlot buf name).map fun e => DirEntry.ofMem buf (24 * e) := by
  have hslot : ∀ e, e < 21 → slotAt disk blocks (21 * k + e) = some (entryAt disk (blocks k) e) := by
    intro e he
    rw [slotAt, show (21 * k + e) / 21 = k by omega, show (21 * k + e) % 21 = e by omega,
      if_neg hnz]
  have hhit : ∀ e, e < 21 →
      hit disk blocks name (21 * k + e) = strEq (buf.shift (24 * e)) name := by
    intro e he
    rw [hit, hslot e he]
    have hbytes : ∀ i, i < 24 → buf.shift (24 * e) i = (entryAt disk (blocks k) e).bytes i :=
      fun i hi => by
        rw [entryAt, DirEntry.bytes_ofMem hi, Mem.shift, hbuf _ (by omega), Nat.add_assoc]
    obtain ⟨z, hz, hzero⟩ := hended _ _ (hslot e he)
    exact (strEq_congr hname hz hzero hbytes).symm
  have hfind : (List.range' (21 * k) 21).find? (hit disk blocks name) =
      (matchSlot buf name).map (21 * k + ·) := by
    rw [List.range'_eq_map_range, List.find?_map, matchSlot,
      find?_same fun e he => (hhit e (List.mem_range.mp he)).symm]
    rfl
  rw [firstHit, hfind]
  cases hm : matchSlot buf name with
  | none => rfl
  | some e =>
    have he : e < 21 := List.mem_range.mp (List.mem_of_find?_eq_some hm)
    rw [Option.map_some, Option.map_some, Option.bind_some, hslot e he, ofMem_sector hbuf he]

theorem searchLoop_eq {v : Vol p} {blocks : Nat → Nat} {name : List UInt8} (hname : IsName name)
    (hended : EndedBlocks v.disk blocks) (hreach : ∀ j, blocks j ≤ maxLba) : ∀ n k,
    searchLoop v blocks name n k =
      some (firstHit v.disk blocks name (List.range' (21 * k) (21 * n))) := by
  intro n
  induction n with
  | zero => intro k; rfl
  | succ n ih =>
    intro k
    rw [show 21 * (n + 1) = 21 + 21 * n by omega, ← List.range'_append_1, firstHit_append,
      show 21 * k + 21 = 21 * (k + 1) by omega, searchLoop]
    by_cases hz : blocks k = 0
    · have hnone : firstHit v.disk blocks name (List.range' (21 * k) 21) = none := by
        rw [firstHit, List.find?_range'_eq_none.mpr]
        · rfl
        · intro i h1 h2
          rw [hit, slotAt, show i / 21 = k by omega, if_pos hz]
          rfl
      rw [if_pos hz, ih, hnone, Option.none_or]
    · obtain ⟨buf, hread⟩ : ∃ buf, ideRead v.disk (blocks k) Mem.zero 1 = some buf :=
        ⟨_, ideRead_eq_some.mpr ⟨hreach k, by decide, rfl⟩⟩
      obtain ⟨-, -, hbuf⟩ := ideRead_sector hread
      rw [if_neg hz, hread, firstHit_block hname hended hz hbuf]
      simp only [Option.bind_eq_bind, Option.bind_some]
      cases hm : matchSlot buf name with
      | none => simp [ih]
      | some e => simp

theorem allBlocks_eq {v : Vol p} {ino : Inode} (hreach : ino.sec 12 ≤ maxLba) :
    allBlocks v ino = some (fileBlock v.disk ino) := by
  obtain ⟨blocks, hb⟩ : ∃ blocks, allBlocks v ino = some blocks := by
    unfold allBlocks
    split
    · simp [readTable, ideRead, hreach]
    · exact ⟨_, rfl⟩
  rw [hb, allBlocks_spec hb]

/-- **The search finds the first slot with that name**, when no string runs on
behind its entry. -/
theorem searchDirEntry_ended {v : Vol p} {ino : Inode} {name : List UInt8}
    (htable : ino.sec 12 ≤ maxLba) (hreach : ∀ k, fileBlock v.disk ino k ≤ maxLba)
    (hended : EndedBlocks v.disk (fileBlock v.disk ino)) (hname : IsName name) :
    searchDirEntry v ino name =
      some (firstHit v.disk (fileBlock v.disk ino) name (List.range (140 * 21))) := by
  rw [searchDirEntry, allBlocks_eq htable]
  have hsearch := searchLoop_eq (v := v) hname hended hreach 140 0
  rwa [← List.range_eq_range'] at hsearch

/-- A directory that can be searched: its blocks are on the disk, and its
entries have one of the three types. -/
structure Searchable (v : Vol p) (ino : Inode) : Prop where
  table : ino.sec 12 ≤ maxLba
  reach : ∀ k, fileBlock v.disk ino k ≤ maxLba
  typed : TypedBlocks v.disk (fileBlock v.disk ino)

theorem searchDirEntry_eq {v : Vol p} {ino : Inode} {name : List UInt8} (h : Searchable v ino)
    (hname : IsName name) :
    searchDirEntry v ino name =
      some (firstHit v.disk (fileBlock v.disk ino) name (List.range (140 * 21))) :=
  searchDirEntry_ended h.table h.reach (fun i de hde => (h.typed i de hde).ended) hname

/-! ## Slots after an insertion -/

/-- Slot `i` of the directory `ino`. -/
abbrev dirSlot (disk : Mem) (ino : Inode) (i : Nat) : Option DirEntry :=
  slotAt disk (fileBlock disk ino) i

/-- An entry of zero bytes. -/
abbrev zeroEntry : DirEntry := DirEntry.ofMem Mem.zero 0

/-- No live slot changes, and a slot that does holds the new entry or nothing. -/
structure Inserted (pDe : DirEntry) (d : Mem) (ino : Inode) (d' : Mem) (ino' : Inode) : Prop where
  keep : ∀ i de, i < 140 * 21 → dirSlot d ino i = some de → de.fType ≠ ftUnknown →
    dirSlot d' ino' i = some de
  only : ∀ i de, i < 140 * 21 → dirSlot d' ino' i = some de →
    dirSlot d ino i = some de ∨ de = pDe ∨ de = zeroEntry

theorem slotAt_eq_some {disk : Mem} {blocks : Nat → Nat} {i : Nat} {de : DirEntry} :
    slotAt disk blocks i = some de ↔
      blocks (i / 21) ≠ 0 ∧ entryAt disk (blocks (i / 21)) (i % 21) = de := by
  unfold slotAt
  split <;> simp_all

/-- The entry went into a free slot. -/
theorem store_inserted {v : Vol p} {ino : Inode} (ino' : Inode) (pDe : DirEntry) {k e : Nat}
    (hv : Held v ino) (hk : k < 12) (he : e < 21) (hnz : ino.sec k ≠ 0)
    (hfree : (entryAt v.disk (ino.sec k) e).fType = ftUnknown)
    (hsec : ∀ j, ino'.sec j = ino.sec j) :
    Inserted pDe v.disk ino (v.disk.blit (512 * ino.sec k + 24 * e) pDe.bytes 24) ino' := by
  rw [← fileBlock_direct v.disk ino hk] at hnz hfree ⊢
  have hblock := fileBlock_store hv (by omega) hnz he hsec pDe.bytes
  refine ⟨fun i de hi hs hlive => ?_, fun i de hi hs => ?_⟩
  · rw [slotAt_eq_some] at hs ⊢
    rw [hblock, entryAt_store he (Nat.mod_lt _ (by decide)), if_neg]
    · exact hs
    · intro hin
      obtain ⟨h1, h2⟩ := hin
      rw [h1, h2] at hs
      exact hlive (hs.2 ▸ hfree)
  · rw [slotAt_eq_some, hblock, entryAt_store he (Nat.mod_lt _ (by decide))] at hs
    obtain ⟨h0, hs⟩ := hs
    split at hs
    · exact Or.inr (Or.inl hs.symm)
    · exact Or.inl (slotAt_eq_some.mpr ⟨h0, hs⟩)

/-- Entries of a sector that was started with one entry and given one more. -/
theorem firstSector_entry {pDe : DirEntry} {e : Nat} (he : e < 21) :
    DirEntry.ofMem (firstSector pDe) (24 * e) = pDe ∨
      DirEntry.ofMem (firstSector pDe) (24 * e) = zeroEntry := by
  by_cases h0 : e = 0
  · subst h0
    exact Or.inl (DirEntry.ofMem_bytes fun i hi => Mem.blit_add hi)
  · refine Or.inr (DirEntry.ofMem_congr fun i hi => ?_)
    rw [firstSector, Mem.blit_out (by omega)]
    rfl

/-- The slots after a block was added at `k`. -/
theorem Added.dirSlot {pDe : DirEntry} {k b e : Nat} {v v1 : Vol p} {ino ino1 ino' : Inode}
    (h : Added pDe k v ino v1 ino1 b) (hk : k ≤ 12) (hv : Held v ino) (he : e < 21)
    (hsec : ∀ j, ino'.sec j = ino1.sec j) {i : Nat} (hi : i < 140 * 21) :
    let d' := v1.disk.blit (512 * b + 24 * e) pDe.bytes 24
    (i / 21 = k → Fs.dirSlot d' ino' i = some pDe ∨ Fs.dirSlot d' ino' i = some zeroEntry) ∧
    (i / 21 ≠ k → Fs.dirSlot d' ino' i =
      if k = 12 ∧ 12 < i / 21 then none else Fs.dirSlot v.disk ino i) := by
  intro d'
  have hblock : ∀ j, fileBlock d' ino' j = fileBlock v1.disk ino1 j :=
    fileBlock_congr hsec fun hnz a ha => Mem.blit_out (by have := h.table_ne hk hv hnz; omega)
  have hb := h.block hk hv (show i / 21 < 140 by omega)
  have hmod : i % 21 < 21 := Nat.mod_lt _ (by decide)
  refine ⟨fun hik => ?_, fun hik => ?_⟩
  · rw [if_pos hik] at hb
    have hentry : entryAt d' b (i % 21) = pDe ∨ entryAt d' b (i % 21) = zeroEntry := by
      rw [entryAt_store he hmod]
      split
      · exact Or.inl rfl
      · rw [← ofMem_sector (fun l hl => (h.sector l hl).symm) hmod]
        exact firstSector_entry hmod
    have hne : fileBlock d' ino' (i / 21) ≠ 0 := by rw [hblock, hb]; exact h.fresh.ne_zero
    have heq : Fs.dirSlot d' ino' i = some (entryAt d' b (i % 21)) := by
      rw [slotAt_eq_some]
      exact ⟨hne, by rw [hblock, hb]⟩
    rw [heq]
    rcases hentry with h1 | h1
    · exact Or.inl (congrArg some h1)
    · exact Or.inr (congrArg some h1)
  · rw [if_neg hik] at hb
    by_cases h12 : k = 12 ∧ 12 < i / 21
    · rw [if_pos h12] at hb ⊢
      rw [Fs.dirSlot, slotAt, hblock, hb, if_pos rfl]
    · rw [if_neg h12] at hb ⊢
      rw [Fs.dirSlot, Fs.dirSlot, slotAt, slotAt, hblock, hb]
      by_cases h0 : fileBlock v.disk ino (i / 21) = 0
      · rw [if_pos h0, if_pos h0]
      · have hu := hv.used (i / 21) (by rw [slot_block _ _ (by omega)]; exact h0)
        rw [slot_block _ _ (by omega)] at hu
        rw [if_neg h0, if_neg h0, entryAt_store he hmod, if_neg,
          entryAt_congr (fun l hl => h.sector_old hk hu hl) hmod]
        intro hin
        obtain ⟨hc, -⟩ := hin
        exact h.fresh.free (hc ▸ hu)

/-- No indirect block of the directory holds a live entry. -/
def NoIndirectEntry (disk : Mem) (ino : Inode) : Prop :=
  ∀ i de, 12 * 21 ≤ i → i < 140 * 21 → dirSlot disk ino i = some de → de.fType = ftUnknown

/-- An insertion adds to the directory, unless it makes a new table while there
are entries behind the old one. -/
theorem placed_inserted {pDe : DirEntry} {v v' : Vol p} {ino ino' : Inode} (hv : Held v ino)
    (h : Placed pDe v ino v' ino')
    (hcond : ¬FullTo v.disk ino 12 ∨ NoIndirectEntry v.disk ino) :
    Inserted pDe v.disk ino v'.disk ino' := by
  cases h with
  | slot k e hk he hfull hnz hmax hfree hv' hino =>
    subst hv' hino
    exact store_inserted _ _ hv hk he hnz hfree fun j => Inode.sec_setSize _ _ _
  | grown k b e v1 ino1 hk hfull hz hadd he hv' hino =>
    subst hv' hino
    have hslot := fun i (hi : i < 140 * 21) => hadd.dirSlot hk hv (freeSlot_some he).1
      (fun j => Inode.sec_setSize ino1 (ino1.size + 24) j) hi
    refine ⟨fun i de hi hs hlive => ?_, fun i de hi hs => ?_⟩
    · have hik : i / 21 ≠ k := by
        intro hik
        obtain ⟨hnz, -⟩ := slotAt_eq_some.mp hs
        -- block `k` was missing: a direct slot was zero, an indirect one is past the direct ones
        rcases Nat.lt_or_eq_of_le hk with hlt | rfl
        · rw [hik, fileBlock_direct _ _ hlt] at hnz
          exact hnz (hz hlt)
        · rcases hcond with hc | hc
          · exact hc hfull
          · exact hlive (hc i de (by omega) hi hs)
      rw [(hslot i hi).2 hik, if_neg]
      · exact hs
      · intro hin
        obtain ⟨rfl, h12⟩ := hin
        rcases hcond with hc | hc
        · exact hc hfull
        · exact hlive (hc i de (by omega) hi hs)
    · by_cases hik : i / 21 = k
      · rcases (hslot i hi).1 hik with h1 | h1
        · exact Or.inr (Or.inl (Option.some.inj (hs.symm.trans h1)))
        · exact Or.inr (Or.inr (Option.some.inj (hs.symm.trans h1)))
      · have h2 := (hslot i hi).2 hik
        rw [hs] at h2
        split at h2
        · exact absurd h2 (by simp)
        · exact Or.inl h2.symm

/-! ## Nothing is lost -/

/-- A well-formed directory as lookups need it: its blocks are on the disk, its
entries are typed, live ones have names, and no name twice. -/
structure DirNames (v : Vol p) (ino : Inode) : Prop extends DirWf v ino where
  search : Searchable v ino
  named : ∀ i de, dirSlot v.disk ino i = some de → de.fType ≠ ftUnknown → de.filename 0 ≠ 0
  unique : ∀ i j a b name, dirSlot v.disk ino i = some a → dirSlot v.disk ino j = some b →
    a.fType ≠ ftUnknown → b.fType ≠ ftUnknown → a.named name = true → b.named name = true → i = j

/-- An entry the callers insert: a file or a directory, with a name that the
search before did not find. -/
structure NewEntry (v : Vol p) (ino : Inode) (pDe : DirEntry) : Prop where
  typed : pDe.Typed
  live : pDe.fType ≠ ftUnknown
  named : pDe.filename 0 ≠ 0
  fresh : ∀ i de name, dirSlot v.disk ino i = some de → de.fType ≠ ftUnknown →
    de.named name = true → pDe.named name = false

/-- Every live entry that could be found is found, with its number and type. -/
def KeepsEntries (v : Vol p) (ino : Inode) (v' : Vol p) (ino' : Inode) : Prop :=
  ∀ name de, IsName name → de.fType ≠ ftUnknown → searchDirEntry v ino name = some (some de) →
    ∃ de', searchDirEntry v' ino' name = some (some de') ∧ de'.iNo = de.iNo ∧ de'.fType = de.fType

theorem zeroEntry_not_named {name : List UInt8} (hname : IsName name) (hne : name ≠ []) :
    zeroEntry.named name = false := by
  cases name with
  | nil => exact absurd rfl hne
  | cons c cs =>
    have hc : c ≠ 0 := hname c List.mem_cons_self
    have h0 : zeroEntry.bytes 0 = 0 := by decide
    simp only [DirEntry.named, strEq, h0]
    simp [hc.symm]

theorem dirSlot_lt {disk : Mem} {ino : Inode} {i : Nat} {de : DirEntry}
    (h : dirSlot disk ino i = some de) : i < 140 * 21 := by
  refine Decidable.byContradiction fun hge => (slotAt_eq_some.mp h).1 ?_
  exact fileBlock_ge _ _ (by omega)

theorem firstHit_eq_some {disk : Mem} {ino : Inode} {name : List UInt8} {de : DirEntry} :
    firstHit disk (fileBlock disk ino) name (List.range (140 * 21)) = some de ↔
      ∃ i, i < 140 * 21 ∧ dirSlot disk ino i = some de ∧ de.named name = true ∧
        ∀ j, j < i → ∀ de', dirSlot disk ino j = some de' → de'.named name = false := by
  constructor
  · intro h
    obtain ⟨i, hfind, hs⟩ := Option.bind_eq_some_iff.mp h
    obtain ⟨hhit, hi, hlt⟩ := List.find?_range_eq_some.mp hfind
    refine ⟨i, List.mem_range.mp hi, hs, by simpa [hit, hs] using hhit, fun j hj de' hs' => ?_⟩
    simpa [hit, hs'] using hlt j hj
  · intro hin
    obtain ⟨i, hi, hs, hnamed, hlt⟩ := hin
    refine Option.bind_eq_some_iff.mpr ⟨i, List.find?_range_eq_some.mpr ⟨?_, ?_, fun j hj => ?_⟩, hs⟩
    · simpa [hit, hs] using hnamed
    · exact List.mem_range.mpr hi
    · cases hs' : slotAt disk (fileBlock disk ino) j with
      | none => simp [hit, hs']
      | some de' => simpa [hit, hs'] using hlt j hj de' hs'

/-- The directory can be searched afterwards as before. -/
theorem placed_searchable {pDe : DirEntry} {v v' : Vol p} {ino ino' : Inode} (hv : Held v ino)
    (hs : Searchable v ino) (hp : pDe.Typed) (h : Placed pDe v ino v' ino') :
    Searchable v' ino' := by
  have hzero : zeroEntry.Typed := by
    show (DirEntry.ofMem Mem.zero 0).fType.toNat ≤ 2
    decide
  cases h with
  | slot k e hk he hfull hnz hmax hfree hv' hino =>
    have hins := store_inserted ino' pDe hv hk he hnz hfree
      fun j => by rw [hino, Inode.sec_setSize]
    rw [← fileBlock_direct v.disk ino hk] at hnz hfree hv'
    have hblock := fun j => fileBlock_store hv (by omega) hnz he
      (fun l => (by rw [hino, Inode.sec_setSize] : ino'.sec l = ino.sec l)) pDe.bytes j
    subst hv' hino
    refine ⟨hs.table, fun j => ?_, fun i de hde => ?_⟩
    · rw [hblock]
      exact hs.reach j
    · rw [fileBlock_direct _ _ hk] at hde
      rcases hins.only i de (dirSlot_lt hde) hde with h1 | rfl | rfl
      · exact hs.typed i de h1
      · exact hp
      · exact hzero
  | grown k b e v1 ino1 hk hfull hz hadd he hv' hino =>
    have hslot := fun i (hi : i < 140 * 21) => hadd.dirSlot hk hv (freeSlot_some he).1
      (fun j => Inode.sec_setSize ino1 (ino1.size + 24) j) hi
    have hblock : ∀ j, fileBlock v'.disk ino' j = fileBlock v1.disk ino1 j := by
      subst hv' hino
      have he21 := (freeSlot_some he).1
      exact fileBlock_congr (fun j => Inode.sec_setSize _ _ _)
        fun hnz a ha => Mem.blit_out (by have := hadd.table_ne hk hv hnz; omega)
    subst hv' hino
    refine ⟨?_, fun j => ?_, fun i de hde => ?_⟩
    · rw [Inode.sec_setSize]
      rcases hadd.sec_table hk with ⟨-, ht⟩ | ⟨-, -, -, ht⟩
      · rw [ht]
        exact hs.table
      · exact ht
    · by_cases hj : j < 140
      · rw [hblock, hadd.block hk hv hj]
        split
        · exact hadd.max
        · split
          · exact Nat.zero_le _
          · exact hs.reach j
      · rw [fileBlock_ge _ _ (by omega)]
        exact Nat.zero_le _
    · have hi := dirSlot_lt hde
      by_cases hik : i / 21 = k
      · rcases (hslot i hi).1 hik with h1 | h1
        · rw [Option.some.inj (hde.symm.trans h1)]
          exact hp
        · rw [Option.some.inj (hde.symm.trans h1)]
          exact hzero
      · have h2 := (hslot i hi).2 hik
        rw [show dirSlot _ _ i = some de from hde] at h2
        split at h2
        · exact absurd h2 (by simp)
        · exact hs.typed i de h2.symm

/-- A slot that matches a name of characters holds a live entry. -/
theorem DirNames.live_of_named {v : Vol p} {ino : Inode} (h : DirNames v ino) {i : Nat}
    {de : DirEntry} {name : List UInt8} (hs : dirSlot v.disk ino i = some de)
    (hname : IsName name) (hne : name ≠ []) (hnamed : de.named name = true) :
    de.fType ≠ ftUnknown := by
  intro hfree
  obtain ⟨hnz, hde⟩ := slotAt_eq_some.mp hs
  have hi := dirSlot_lt hs
  have hmod : i % 21 < 21 := Nat.mod_lt _ (by decide)
  have hz : de = zeroEntry := by
    rw [← hde] at hfree
    rw [← hde]
    apply DirEntry.ofMem_congr
    intro l hl
    exact h.free (i / 21) (i % 21) (by omega) hmod hnz hfree l hl
  rw [hz, zeroEntry_not_named hname hne] at hnamed
  exact absurd hnamed (by decide)

/-- With the direct blocks full and an entry behind them, that entry is gone. -/
theorem lost {pDe : DirEntry} {v v' : Vol p} {ino ino' : Inode} (hwf : DirNames v ino)
    (hnew : NewEntry v ino pDe) (hfull : FullTo v.disk ino 12)
    (hind : ¬NoIndirectEntry v.disk ino) (hplaced : Placed pDe v ino v' ino')
    (hs' : Searchable v' ino') (hkeeps : KeepsEntries v ino v' ino') : False := by
  refine hind fun i de h1 h2 hs => Classical.byContradiction fun hlive => ?_
  have htyped := hwf.search.typed i de hs
  have hnamed := de.named_name htyped
  have hne : de.name ≠ [] := fun hnil => by
    rw [hnil, named_nil] at hnamed
    exact hwf.named i de hs hlive hnamed
  -- only slot `i` has this name
  have honly : ∀ j de', dirSlot v.disk ino j = some de' → de'.named de.name = true → j = i :=
    fun j de' hj hn => hwf.unique j i de' de de.name hj hs
      (hwf.live_of_named hj de.isName_name hne hn) hlive hn hnamed
  have hbefore : searchDirEntry v ino de.name = some (some de) := by
    rw [searchDirEntry_eq hwf.search de.isName_name, Option.some.injEq, firstHit_eq_some]
    refine ⟨i, h2, hs, hnamed, fun j hj de' hde' => ?_⟩
    cases hn : de'.named de.name with
    | false => rfl
    | true => exact absurd (honly j de' hde' hn) (by omega)
  obtain ⟨de', hafter, -, -⟩ := hkeeps de.name de de.isName_name hlive hbefore
  rw [searchDirEntry_eq hs' de.isName_name, Option.some.injEq, firstHit_eq_some] at hafter
  obtain ⟨j, hj, hsj, hnj, -⟩ := hafter
  cases hplaced with
  | slot k e hk he _ hnz hmax hfree hv' hino => exact (hfull k hk).2 e he hfree
  | grown k b e v1 ino1 hk _ hz hadd he hv' hino =>
    subst hv' hino
    rcases Nat.lt_or_eq_of_le hk with hlt | rfl
    · exact (hfull k hlt).1 (hz hlt)
    · obtain ⟨hin, hout⟩ := hadd.dirSlot hk hwf.held (freeSlot_some he).1
        (fun l => Inode.sec_setSize ino1 (ino1.size + 24) l) hj
      by_cases h12 : j / 21 = 12
      · rcases hin h12 with hc | hc
        · rw [Option.some.inj (hsj.symm.trans hc), hnew.fresh i de de.name hs hlive hnamed] at hnj
          exact absurd hnj (by decide)
        · rw [Option.some.inj (hsj.symm.trans hc), zeroEntry_not_named de.isName_name hne] at hnj
          exact absurd hnj (by decide)
      · have hc := hout h12
        rw [hsj] at hc
        split at hc
        · exact absurd hc (by simp)
        next hlow =>
          have := honly j de' hc.symm hnj
          omega

/-! ## The sample directory again -/

theorem strEq_byte {name : List UInt8} : ∀ {a : Mem} {i : Nat}, strEq a name = true →
    i < name.length → a i = name.getD i 0 := by
  induction name with
  | nil => intro a i _ hi; exact absurd hi (by simp)
  | cons c cs ih =>
    intro a i h hi
    rw [strEq, Bool.and_eq_true, beq_iff_eq] at h
    cases i with
    | zero => rw [h.1]; rfl
    | succ i =>
      have := ih h.2 (show i < cs.length by simpa using hi)
      rw [Mem.shift, Nat.add_comm] at this
      rw [this]
      rfl

theorem strEq_length {name : List UInt8} : ∀ {a : Mem} {n : Nat}, strEq a name = true →
    (∀ i, i < n → a i ≠ 0) → n ≤ name.length := by
  induction name with
  | nil =>
    intro a n h hn
    cases n with
    | zero => exact Nat.le_refl _
    | succ n => exact absurd (by simpa [strEq] using h) (hn 0 (by omega))
  | cons c cs ih =>
    intro a n h hn
    rw [strEq, Bool.and_eq_true] at h
    cases n with
    | zero => exact Nat.zero_le _
    | succ n =>
      have := ih h.2 (n := n) fun i hi => hn (1 + i) (by omega)
      rw [List.length_cons]
      omega

theorem strEq_end {name : List UInt8} : ∀ {a : Mem}, strEq a name = true → a name.length = 0 := by
  induction name with
  | nil =>
    intro a h
    exact eq_of_beq h
  | cons c cs ih =>
    intro a h
    rw [strEq, Bool.and_eq_true] at h
    rw [List.length_cons, Nat.add_comm]
    exact ih h.2

/-- Entries that answer to the same name hold the same string. -/
theorem name_eq_of_named {a b : DirEntry} {name : List UInt8} (ha : a.named name = true)
    (hb : b.named name = true) : a.name = b.name := by
  have hbytes : ∀ i, i < name.length → a.bytes i = b.bytes i := fun i hi =>
    (strEq_byte ha hi).trans (strEq_byte hb hi).symm
  have ha0 : a.bytes name.length = 0 := strEq_end ha
  have hb0 : b.bytes name.length = 0 := strEq_end hb
  unfold DirEntry.name
  rcases Nat.lt_or_ge name.length 21 with hlt | hge
  · rw [takeWhile_range hlt (Nat.lt_succ_self _) ha0, takeWhile_range hlt (Nat.lt_succ_self _) hb0]
    congr 1
    apply List.map_congr_left
    intro i hi
    rcases Nat.lt_or_eq_of_le (Nat.le_of_lt_succ (List.mem_range.mp hi)) with hi | rfl
    · exact hbytes i hi
    · rw [ha0, hb0]
  · congr 1
    exact List.map_congr_left fun i hi => hbytes i (by have := List.mem_range.mp hi; omega)

theorem sampleEntry_bytes {i : Nat} (hi : i ≤ 140 * 21) :
    ((sampleEntry i).bytes 0).toNat = 65 + i / 60 ∧ ((sampleEntry i).bytes 1).toNat = 65 + i % 60 := by
  have h0 : (sampleEntry i).bytes 0 = UInt8.ofNat (65 + i / 60) := rfl
  have h1 : (sampleEntry i).bytes 1 = UInt8.ofNat (65 + i % 60) := rfl
  rw [h0, h1, UInt8.toNat_ofNat', UInt8.toNat_ofNat']
  omega

/-- No two sample entries share a name. -/
theorem sampleEntry_inj {i j : Nat} {name : List UInt8} (hi : i ≤ 140 * 21) (hj : j ≤ 140 * 21)
    (h1 : (sampleEntry i).named name = true) (h2 : (sampleEntry j).named name = true) : i = j := by
  obtain ⟨hi0, hi1⟩ := sampleEntry_bytes hi
  obtain ⟨hj0, hj1⟩ := sampleEntry_bytes hj
  have hlen : 2 ≤ name.length := by
    apply strEq_length h1
    intro l hl he
    rcases (by omega : l = 0 ∨ l = 1) with rfl | rfl
    · rw [he] at hi0
      rw [UInt8.toNat_zero] at hi0
      omega
    · rw [he] at hi1
      rw [UInt8.toNat_zero] at hi1
      omega
  rw [strEq_byte h1 (by omega), ← strEq_byte h2 (by omega), hj0] at hi0
  rw [strEq_byte h1 (by omega), ← strEq_byte h2 (by omega), hj1] at hi1
  omega

theorem sample_dirSlot {n i : Nat} {de : DirEntry} (h : dirSlot (sampleDisk n) (sampleDir n) i = some de) :
    (i < n ∧ de = sampleEntry i) ∨ (n ≤ i ∧ de = zeroEntry) := by
  have hi := dirSlot_lt h
  obtain ⟨hnz, hde⟩ := slotAt_eq_some.mp h
  rw [sample_fileBlock (by omega)] at hnz hde
  split at hnz
  next hb =>
    rw [if_pos hb, sample_entryAt (by omega) (by omega), show 21 * (i / 21) + i % 21 = i by omega] at hde
    split at hde
    next hlt => exact Or.inl ⟨hlt, hde.symm⟩
    next hge => exact Or.inr ⟨by omega, hde.symm⟩
  next => exact absurd rfl hnz

theorem sample_live {n i : Nat} {de : DirEntry} (h : dirSlot (sampleDisk n) (sampleDir n) i = some de)
    (hlive : de.fType ≠ ftUnknown) : i < n ∧ de = sampleEntry i := by
  rcases sample_dirSlot h with h1 | ⟨-, rfl⟩
  · exact h1
  · exact absurd zeroEntry_free hlive

theorem sampleEntry_named {i : Nat} (hi : i ≤ 140 * 21) : (sampleEntry i).filename 0 ≠ 0 := by
  intro he
  have h0 := (sampleEntry_bytes hi).1
  rw [show (sampleEntry i).bytes 0 = (sampleEntry i).filename 0 from rfl, he, UInt8.toNat_zero] at h0
  omega

theorem sample_names {n : Nat} (hn : n ≤ 140 * 21) : DirNames (sampleVol n) (sampleDir n) := by
  have hmax : maxLba = 163839 := by decide
  have hdisk : (sampleVol n).disk = sampleDisk n := rfl
  refine ⟨sample_wf hn, ⟨?_, fun k => ?_, fun i de hde => ?_⟩, fun i de hde hlive => ?_,
    fun i j a b name ha hb hla hlb hna hnb => ?_⟩
  · rw [sampleDir_table, hmax]
    split <;> omega
  · rw [hdisk]
    by_cases hk : k < 140
    · rw [sample_fileBlock hk, hmax]
      split <;> omega
    · rw [fileBlock_ge _ _ (by omega)]
      exact Nat.zero_le _
  · rcases sample_dirSlot hde with ⟨-, rfl⟩ | ⟨-, rfl⟩
    · show (1 : Nat) ≤ 2
      decide
    · show (DirEntry.ofMem Mem.zero 0).fType.toNat ≤ 2
      decide
  · obtain ⟨hi, rfl⟩ := sample_live hde hlive
    exact sampleEntry_named (by omega)
  · obtain ⟨hi, rfl⟩ := sample_live ha hla
    obtain ⟨hj, rfl⟩ := sample_live hb hlb
    exact sampleEntry_inj (by omega) (by omega) hna hnb

theorem sample_new {n : Nat} (hn : n ≤ 140 * 21) :
    NewEntry (sampleVol n) (sampleDir n) (sampleEntry n) := by
  refine ⟨?_, sampleEntry_live n, sampleEntry_named hn, fun i de name hde hlive hnamed => ?_⟩
  · show (1 : Nat) ≤ 2
    decide
  · obtain ⟨hi, rfl⟩ := sample_live hde hlive
    cases h : (sampleEntry n).named name with
    | false => rfl
    | true => exact absurd (sampleEntry_inj (by omega) hn hnamed h) (by omega)

/-! ## When nothing is lost -/

/-- **When an insertion loses nothing.** On a well-formed directory of any size,
and for any new entry, all live entries can still be found exactly when some
direct block is missing or has room, or no entry sits in an indirect block. -/
theorem sync_dir_entry_keeps_iff {v v' : Vol p} {ino ino' : Inode} {pDe : DirEntry}
    (hwf : DirNames v ino) (hnew : NewEntry v ino pDe)
    (h : syncDirEntry v ino pDe = some (true, v', ino')) :
    KeepsEntries v ino v' ino' ↔ ¬FullTo v.disk ino 12 ∨ NoIndirectEntry v.disk ino := by
  obtain ⟨-, hplaced⟩ := syncDirEntry_spec h
  have hs' := placed_searchable hwf.held hwf.search hnew.typed hplaced
  constructor
  · intro hkeeps
    apply Classical.byContradiction
    intro hno
    obtain ⟨hfull, hind⟩ := not_or.mp hno
    exact lost hwf hnew (Classical.not_not.mp hfull) hind hplaced hs' hkeeps
  · intro hcond name de hname hlive hfound
    have hins := placed_inserted hwf.held hplaced hcond
    rw [searchDirEntry_eq hwf.search hname, Option.some.injEq, firstHit_eq_some] at hfound
    obtain ⟨i, hi, hs, hnamed, hlt⟩ := hfound
    refine ⟨de, ?_, rfl, rfl⟩
    rw [searchDirEntry_eq hs' hname, Option.some.injEq, firstHit_eq_some]
    refine ⟨i, hi, hins.keep i de hi hs hlive, hnamed, fun j hj de' hde' => ?_⟩
    rcases hins.only j de' (by omega) hde' with h1 | rfl | rfl
    · exact hlt j hj de' h1
    · exact hnew.fresh i de name hs hlive hnamed
    · apply zeroEntry_not_named hname
      intro hnil
      rw [hnil, named_nil] at hnamed
      exact hwf.named i de hs hlive hnamed

theorem sync_dir_entry_keeps_iff_two_entries :
    ∃ v' ino', DirNames (sampleVol 2) (sampleDir 2) ∧
      NewEntry (sampleVol 2) (sampleDir 2) (sampleEntry 2) ∧
      syncDirEntry (sampleVol 2) (sampleDir 2) (sampleEntry 2) = some (true, v', ino') ∧
      KeepsEntries (sampleVol 2) (sampleDir 2) v' ino' := by
  have hrun : (syncDirEntry (sampleVol 2) (sampleDir 2) (sampleEntry 2)).map (·.1) = some true := by
    decide +kernel
  obtain ⟨⟨r, v', ino'⟩, h, rfl⟩ := Option.map_eq_some_iff.mp hrun
  have hwf := sample_names (n := 2) (by decide)
  have hnew := sample_new (n := 2) (by decide)
  refine ⟨v', ino', hwf, hnew, h, (sync_dir_entry_keeps_iff hwf hnew h).mpr (Or.inl fun hfull => ?_)⟩
  exact (hfull 1 (by decide)).1 (by decide)

/-- Twelve full direct blocks and one entry behind them: it is not found again. -/
theorem sync_dir_entry_loses_an_entry :
    ∃ v' ino', DirNames (sampleVol 253) (sampleDir 253) ∧
      NewEntry (sampleVol 253) (sampleDir 253) (sampleEntry 253) ∧
      syncDirEntry (sampleVol 253) (sampleDir 253) (sampleEntry 253) = some (true, v', ino') ∧
      ¬KeepsEntries (sampleVol 253) (sampleDir 253) v' ino' := by
  have hrun : (syncDirEntry (sampleVol 253) (sampleDir 253) (sampleEntry 253)).map (·.1) =
      some true := by
    decide +kernel
  obtain ⟨⟨r, v', ino'⟩, h, rfl⟩ := Option.map_eq_some_iff.mp hrun
  have hwf := sample_names (n := 253) (by decide)
  have hnew := sample_new (n := 253) (by decide)
  have hplaced := (syncDirEntry_spec h).2
  have hfull : FullTo (sampleVol 253).disk (sampleDir 253) 12 := by
    intro j hj
    have hsec : (sampleDir 253).sec j = 612 + j := by rw [sampleDir_sec hj, if_pos (by omega)]
    refine ⟨by omega, fun e he => ?_⟩
    show (entryAt (sampleDisk 253) ((sampleDir 253).sec j) e).fType ≠ ftUnknown
    rw [hsec, sample_entryAt (by omega) he, if_pos (by omega)]
    exact sampleEntry_live _
  refine ⟨v', ino', hwf, hnew, h, lost hwf hnew hfull (fun hnone => ?_) hplaced
    (placed_searchable hwf.held hwf.search hnew.typed hplaced)⟩
  refine sampleEntry_live 252 (hnone 252 (sampleEntry 252) (by decide) (by decide) ?_)
  show slotAt (sampleDisk 253) (fileBlock (sampleDisk 253) (sampleDir 253)) 252 = _
  rw [slotAt_eq_some, sample_fileBlock (by decide), if_pos (by decide), sample_entryAt (by decide) (by decide)]
  exact ⟨by decide, rfl⟩

end OsCore.Fs
