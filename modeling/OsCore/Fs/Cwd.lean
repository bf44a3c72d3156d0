import OsCore.Fs.PathSearch
import OsCore.Fs.Syscalls

/-!
# The working directory (`sys_getcwd` and `sys_chdir` in `fs/fs.c`)

A process remembers its working directory by inode number alone. `sys_getcwd` has
to find the names again: from a directory it goes up through the entry `..`, looks
in the parent for the entry with the number it came from, and so on to the root.
The names come out last one first, and a second loop takes the string apart at its
last slash until nothing is left of it.

`sys_chdir` goes the other way, from the root down by names. `Canon` is the path
both have in common: the names of the entries that lead from the root to a
directory, `.` and `..` left out. For a tree in which `..` is the way back
(`CwdTree`), the two are inverse to each other (`getcwd_inverts_chdir`): the climb
is an induction over the names from the last to the first (`cwdLoop_canon`), and
the descent is the walk of `search_file`.
-/

namespace OsCore.Fs

variable {p : Partition}

/-! ## The functions -/

/-- The C string at `m`, in the `n` bytes that may be read; `none` if it does not
end there. -/
def cString (m : Mem) (n : Nat) : Option (List UInt8) :=
  let bytes := (List.range n).map m
  if 0 ∈ bytes then some (bytes.takeWhile (· ≠ 0)) else none

/-- `get_parent_dir_inode_nr`. -/
def getParentDirInodeNr (s : Mounted p) (childInodeNr : Nat) : Option (Nat × Mounted p) := do
  let (a, s) ← inodeOpen s childInodeNr
  let childDirInode ← s.inodeAt a
  let blockLba := childDirInode.sec 0
  ensure (p.dataStartLba ≤ blockLba)
  let s ← inodeClose s a
  let ioBuf ← ideRead s.vol.disk blockLba Mem.zero 1
  let dirE := DirEntry.ofMem ioBuf (dirEntrySize * 1)
  ensure (dirE.iNo.toNat < 4096 ∧ dirE.fType = ftDirectory)
  return (dirE.iNo.toNat, s)

/-- `while (block_idx < block_cnt)`: `n` blocks from `blockIdx` on; the name of the
first entry with the number. -/
def childLoop (v : Vol p) (blocks : Nat → Nat) (cInodeNr : Nat) :
    Nat → Nat → Option (Option (List UInt8))
  | 0, _ => some none
  | n + 1, blockIdx =>
    if blocks blockIdx ≠ 0 then do
      let ioBuf ← ideRead v.disk (blocks blockIdx) Mem.zero 1
      match (List.range 21).find? fun e =>
          (DirEntry.ofMem ioBuf (dirEntrySize * e)).iNo.toNat = cInodeNr with
      | some e =>
        let filename ← cString (ioBuf.shift (dirEntrySize * e)) (512 - dirEntrySize * e)
        return some filename
      | none => childLoop v blocks cInodeNr n (blockIdx + 1)
    else childLoop v blocks cInodeNr n (blockIdx + 1)

/-- `get_child_dir_name`: `path` with the name at its end, or `none` for -1. -/
def getChildDirName (s : Mounted p) (pInodeNr cInodeNr : Nat) (path : List UInt8) :
    Option (Option (List UInt8) × Mounted p) := do
  let (a, s) ← inodeOpen s pInodeNr
  let parentDirInode ← s.inodeAt a
  let blocks ← allBlocks s.vol parentDirInode
  let blockCnt := if parentDirInode.sec 12 ≠ 0 then 140 else 12
  let s ← inodeClose s a
  match ← childLoop s.vol blocks cInodeNr blockCnt 0 with
  | some filename =>
    -- `full_path_reverse` has 512 bytes
    ensure (path.length + 1 + filename.length < 512)
    return (some (path ++ [slash] ++ filename), s)
  | none => return (none, s)

/-- `while (child_inode_nr)`. -/
def cwdLoop : Nat → Mounted p → Nat → List UInt8 → Option (Option (List UInt8) × Mounted p)
  | 0, _, _, _ => none
  | fuel + 1, s, childInodeNr, fullPathReverse =>
    if childInodeNr ≠ 0 then do
      let (parentInodeNr, s) ← getParentDirInodeNr s childInodeNr
      match ← getChildDirName s parentInodeNr childInodeNr fullPathReverse with
      | (none, s) => return (none, s)
      | (some path, s) => cwdLoop fuel s parentInodeNr path
    else some (some fullPathReverse, s)

/-- `while ((last_slash = strrchr(full_path_reverse, '/')))`. -/
def copyBack : Nat → List UInt8 → List UInt8 → Option (List UInt8)
  | 0, _, _ => none
  | fuel + 1, fullPathReverse, buf =>
    if slash ∈ fullPathReverse then
      let lastSlash := slash :: lastName fullPathReverse
      copyBack fuel (fullPathReverse.take (fullPathReverse.length - lastSlash.length))
        (buf ++ lastSlash)
    else some buf

/-- `sys_getcwd(buf, size)` by task `t`: the string in `buf`, or `none` for `NULL`.
`ioBuf` says whether the heap grants the buffer. -/
def sysGetcwd (fuel : Nat) (k : FileSys p) (t size : Nat) (ioBuf : Bool) :
    Option (Option (List UInt8) × FileSys p) := do
  if !ioBuf then return (none, k)
  let childInodeNr := (k.pcb t).cwdInodeNr
  ensure (childInodeNr < 4096)
  if childInodeNr = 0 then return (some [slash], k)
  let (fullPathReverse, part) ← cwdLoop fuel k.part childInodeNr []
  match fullPathReverse with
  | none => return (none, { k with part })
  | some fullPathReverse =>
    ensure (fullPathReverse.length ≤ size)
    let buf ← copyBack (fullPathReverse.length + 1) fullPathReverse []
    return (some buf, { k with part })

/-! ## Canonical paths -/

/-- The path with these names. -/
def pathOf (names : List (List UInt8)) : List UInt8 := names.flatMap (slash :: ·)

/-- An entry that leads one directory down. -/
structure Below (s : Mounted p) (q i : Nat) (de : DirEntry) : Prop where
  slot : dirSlot s.vol.disk (inodeOf s q) i = some de
  dir : de.fType = ftDirectory
  dot : de.name ≠ dot
  dotDot : de.name ≠ dotDot

/-- The names of the entries from the root down to directory `d`. -/
inductive Canon (s : Mounted p) : Nat → List (List UInt8) → Prop
  | root : Canon s 0 []
  | sub {q i : Nat} {de : DirEntry} {names : List (List UInt8)} : Canon s q names →
      Below s q i de → Canon s de.iNo.toNat (names ++ [de.name])

/-- A tree in which every directory but the root has one entry in its parent, and
`..`, in the second slot of its first block, leads back there. Names have up to 15
characters, none of them a slash. -/
structure CwdTree (s : Mounted p) (rootDir : Nat) : Prop extends Tree s rootDir where
  names15 : ∀ q i de, IsDir s q → dirSlot s.vol.disk (inodeOf s q) i = some de →
    de.fType ≠ ftUnknown → de.name.length ≤ 15 ∧ slash ∉ de.name
  top : ∀ q i de, IsDir s q → Below s q i de → de.iNo ≠ 0
  once : ∀ q i j de de', IsDir s q → Below s q i de →
    dirSlot s.vol.disk (inodeOf s q) j = some de' → de'.fType ≠ ftUnknown → de'.iNo = de.iNo → j = i
  up : ∀ q i de, IsDir s q → Below s q i de → ∃ de',
    dirSlot s.vol.disk (inodeOf s de.iNo.toNat) 1 = some de' ∧ de'.name = Fs.dotDot ∧
      de'.iNo.toNat = q ∧ de'.fType = ftDirectory

/-! ## Entries, and what a climb reads of them -/

section

variable {s : Mounted p} {rootDir : Nat}

theorem zero_of_short {f : Nat → UInt8} {n : Nat}
    (h : (((List.range n).map f).takeWhile (· ≠ 0)).length < n) : ∃ z, z < n ∧ f z = 0 := by
  by_contra hno
  have hall : ((List.range n).map f).takeWhile (· ≠ 0) = (List.range n).map f := by
    apply List.takeWhile_eq_self_iff.mpr
    intro c hc
    obtain ⟨z, hz, rfl⟩ := List.mem_map.mp hc
    exact decide_eq_true fun h0 => hno ⟨z, List.mem_range.mp hz, h0⟩
  rw [hall, List.length_map, List.length_range] at h
  exact Nat.lt_irrefl n h

/-- The name as it is read from the sector. -/
theorem cString_name {de : DirEntry} (hlen : de.name.length ≤ 15) {m : Mem} {n : Nat} (hn : 24 ≤ n)
    (hm : ∀ i, i < 24 → m i = de.bytes i) : cString m n = some de.name := by
  obtain ⟨z, hz, h0⟩ := zero_of_short (f := de.bytes) (n := 21) (by
    show de.name.length < 21
    omega)
  have hmz : m z = 0 := by rw [hm z (by omega), h0]
  have hmem : 0 ∈ (List.range n).map m := by
    rw [← hmz]
    exact List.mem_map_of_mem (List.mem_range.mpr (by omega))
  simp only [cString, if_pos hmem, Option.some.injEq]
  rw [takeWhile_range (show 21 ≤ n by omega) hz hmz, DirEntry.name]
  congr 1
  exact List.map_congr_left fun i hi => hm i (by have := List.mem_range.mp hi; omega)

/-- A live entry is found under its own name. -/
theorem entry_of_slot (ht : Tree s rootDir) {q i : Nat} {de : DirEntry} (hq : IsDir s q)
    (hslot : dirSlot s.vol.disk (inodeOf s q) i = some de) (hlive : de.fType ≠ ftUnknown) :
    Entry s q de.name de :=
  ⟨⟨i, hslot⟩, hlive, DirEntry.named_name ((ht.names q hq).search.typed i de hslot)⟩

theorem Below.live {q i : Nat} {de : DirEntry} (h : Below s q i de) : de.fType ≠ ftUnknown := by
  rw [h.dir]
  decide

theorem Below.isDir (ht : Tree s rootDir) {q i : Nat} {de : DirEntry} (hq : IsDir s q)
    (h : Below s q i de) : IsDir s de.iNo.toNat :=
  IsDir.sub hq (entry_of_slot ht hq h.slot h.live) h.dir

theorem Canon.isDir (ht : Tree s rootDir) {d : Nat} {names : List (List UInt8)}
    (h : Canon s d names) : IsDir s d := by
  induction h with
  | root => exact IsDir.root
  | sub _ hb ih => exact hb.isDir ht ih

theorem Below.name_ne_nil (ht : Tree s rootDir) {q i : Nat} {de : DirEntry} (hq : IsDir s q)
    (h : Below s q i de) : de.name ≠ [] := by
  intro hnil
  have hnamed := (entry_of_slot ht hq h.slot h.live).2.2
  rw [hnil] at hnamed
  exact (ht.names q hq).named i de h.slot h.live (named_nil.mp hnamed)

/-- The names of a canonical path are what its string is taken apart into. -/
theorem Canon.names (ht : CwdTree s rootDir) {d : Nat} {names : List (List UInt8)}
    (h : Canon s d names) :
    ∀ c ∈ names, (c ≠ [] ∧ c ≠ dot ∧ c ≠ dotDot) ∧ IsName c ∧ c.length ≤ 15 ∧ slash ∉ c := by
  induction h with
  | root => exact fun c hc => by cases hc
  | @sub q i de names hcanon hb ih =>
    have hq := hcanon.isDir ht.toTree
    intro c hc
    rcases List.mem_append.mp hc with hc | hc
    · exact ih c hc
    · obtain rfl := List.mem_singleton.mp hc
      obtain ⟨hlen, hslash⟩ := ht.names15 q i de hq hb.slot hb.live
      exact ⟨⟨hb.name_ne_nil ht.toTree hq, hb.dot, hb.dotDot⟩, de.isName_name, hlen, hslash⟩

/-! ## One step up -/

/-- `inode_open`, and `inode_close` when the struct has been looked at. -/
theorem inodeOpen_holds (hs : Steady s) {n b : Nat} (hn : n < 4096) (hb : s.brk ≤ b) :
    ∃ a st i c, inodeOpen { s with brk := b } n = some (a, st) ∧ st.vol = s.vol ∧
      st.inodeAt a = some i ∧ (∀ k, i.sec k = (inodeOf s n).sec k) ∧ s.brk ≤ c ∧
      inodeClose st a = some { s with brk := c } := by
  obtain ⟨h, st, hopen, hvol, ⟨i, hat, hsec, -⟩, c, hc, hclose⟩ := dirOpen_holds hs 0 hn hb
  simp only [dirOpen, Option.bind_eq_bind, Option.bind_eq_some_iff, Prod.exists, Option.pure_def,
    Option.some.injEq, Prod.mk.injEq] at hopen
  obtain ⟨a, st', hopen, rfl, rfl⟩ := hopen
  exact ⟨a, st', i, c, hopen, hvol, hat, hsec, hc, hclose⟩

theorem ideRead_of_le {d : Mem} {lba : Nat} (h : lba ≤ maxLba) :
    ∃ buf, ideRead d lba Mem.zero 1 = some buf ∧ ∀ i, i < 512 → buf i = d (512 * lba + i) := by
  obtain ⟨buf, hread⟩ : ∃ buf, ideRead d lba Mem.zero 1 = some buf := by
    simp [ideRead, h]
  exact ⟨buf, hread, (ideRead_sector hread).2.2⟩

/-- **`..` leads back.** -/
theorem getParentDirInodeNr_up (ht : Tree s rootDir) {d b : Nat} (hd : IsDir s d) {de : DirEntry}
    (hslot : dirSlot s.vol.disk (inodeOf s d) 1 = some de) (hdir : de.fType = ftDirectory)
    (hno : de.iNo.toNat < 4096) (hb : s.brk ≤ b) :
    ∃ c, s.brk ≤ c ∧ getParentDirInodeNr { s with brk := b } d =
      some (de.iNo.toNat, { s with brk := c }) := by
  obtain ⟨a, st, i, c, hopen, hvol, hat, hsec, hc, hclose⟩ :=
    inodeOpen_holds ht.steady (hd.lt ht) hb
  have hnames := ht.names d hd
  obtain ⟨hnz, hentry⟩ := slotAt_eq_some.mp hslot
  have hblock : fileBlock s.vol.disk (inodeOf s d) (1 / 21) = i.sec 0 := by
    rw [hsec]
    exact fileBlock_direct _ _ (by decide)
  rw [hblock] at hnz hentry
  have hused : s.vol.Used (i.sec 0) := by
    have := hnames.held.used 0 (by
      rw [slot_block _ _ (by decide)]
      exact hblock ▸ hnz)
    rwa [slot_block _ _ (by decide), show fileBlock s.vol.disk (inodeOf s d) 0 = i.sec 0 from
      hblock] at this
  have hmax : i.sec 0 ≤ maxLba := hblock ▸ hnames.search.reach (1 / 21)
  obtain ⟨buf, hread, hbuf⟩ := ideRead_of_le (d := s.vol.disk) hmax
  have hde : DirEntry.ofMem buf (dirEntrySize * 1) = de :=
    (ofMem_sector hbuf (show 1 < 21 by decide)).trans hentry
  refine ⟨c, hc, ?_⟩
  simp only [getParentDirInodeNr, hopen, hat, Option.bind_eq_bind, Option.bind_some,
    ensure_pos hused.1, hclose, hread, hde, ensure_pos (And.intro hno hdir)]
  rfl

/-- **The entry with the number is found**, where no other has it: the loop passes
the blocks before it, and in its block the slots before it. -/
theorem childLoop_find {v : Vol p} {blocks : Nat → Nat} {c i : Nat} {de : DirEntry}
    (hreach : ∀ k, blocks k ≤ maxLba) (hslot : slotAt v.disk blocks i = some de)
    (hno : de.iNo.toNat = c) (hlen : de.name.length ≤ 15)
    (honly : ∀ j de', slotAt v.disk blocks j = some de' → de'.iNo.toNat = c → j = i) :
    ∀ n k, k ≤ i / 21 → i / 21 < k + n → childLoop v blocks c n k = some (some de.name) := by
  intro n
  induction n with
  | zero =>
    intro k h1 h2
    omega
  | succ n ih =>
    intro k h1 h2
    -- the slots of block `k` as they are in the buffer
    have hat : ∀ {buf : Mem}, (∀ i, i < 512 → buf i = v.disk (512 * blocks k + i)) →
        blocks k ≠ 0 → ∀ e, e < 21 →
        slotAt v.disk blocks (21 * k + e) = some (DirEntry.ofMem buf (24 * e)) := by
      intro buf hbuf hnz e he
      refine slotAt_eq_some.mpr ⟨?_, ?_⟩
      · rw [show (21 * k + e) / 21 = k by omega]
        exact hnz
      · rw [show (21 * k + e) / 21 = k by omega, show (21 * k + e) % 21 = e by omega]
        exact (ofMem_sector hbuf he).symm
    rw [childLoop]
    rcases Nat.lt_or_eq_of_le h1 with hlt | heq
    · by_cases hnz : blocks k ≠ 0
      · obtain ⟨buf, hread, hbuf⟩ := ideRead_of_le (d := v.disk) (hreach k)
        have hnone : (List.range 21).find? (fun e =>
            decide ((DirEntry.ofMem buf (dirEntrySize * e)).iNo.toNat = c)) = none := by
          refine List.find?_eq_none.mpr fun e he => ?_
          have he' := List.mem_range.mp he
          intro hc
          have hje := honly _ _ (hat hbuf hnz e he') (of_decide_eq_true hc)
          omega
        simp only [if_pos hnz, hread, Option.bind_eq_bind, Option.bind_some, hnone]
        exact ih (k + 1) hlt (by omega)
      · rw [if_neg hnz]
        exact ih (k + 1) hlt (by omega)
    · obtain ⟨hnz, hentry⟩ := slotAt_eq_some.mp hslot
      rw [← heq] at hnz hentry
      obtain ⟨buf, hread, hbuf⟩ := ideRead_of_le (d := v.disk) (hreach k)
      have hmod : i % 21 < 21 := Nat.mod_lt _ (by decide)
      have hde : DirEntry.ofMem buf (dirEntrySize * (i % 21)) = de :=
        (ofMem_sector hbuf hmod).trans hentry
      have hfind : (List.range 21).find? (fun e =>
          decide ((DirEntry.ofMem buf (dirEntrySize * e)).iNo.toNat = c)) = some (i % 21) := by
        refine List.find?_range_eq_some.mpr ⟨?_, List.mem_range.mpr hmod, fun e he => ?_⟩
        · rw [hde]
          exact decide_eq_true hno
        · have hne : (DirEntry.ofMem buf (dirEntrySize * e)).iNo.toNat ≠ c := by
            intro hc
            have hje := honly _ _ (hat hbuf hnz e (by omega)) hc
            omega
          simpa using hne
      have hname : cString (buf.shift (dirEntrySize * (i % 21))) (512 - dirEntrySize * (i % 21)) =
          some de.name := by
        apply cString_name hlen (by simp only [dirEntrySize]; omega)
        intro l hl
        rw [← hde, DirEntry.bytes_ofMem hl]
        rfl
      simp only [if_pos hnz, hread, Option.bind_eq_bind, Option.bind_some, hfind, hname]
      rfl

/-- **The name of a directory is read off its parent.** -/
theorem getChildDirName_below (ht : CwdTree s rootDir) {q i b : Nat} {de : DirEntry}
    (path : List UInt8) (hq : IsDir s q) (hbelow : Below s q i de)
    (hroom : path.length + 1 + de.name.length < 512) (hb : s.brk ≤ b) :
    ∃ c, s.brk ≤ c ∧ getChildDirName { s with brk := b } q de.iNo.toNat path =
      some (some (path ++ [slash] ++ de.name), { s with brk := c }) := by
  obtain ⟨a, st, ino, c, hopen, hvol, hat, hsec, hc, hclose⟩ :=
    inodeOpen_holds ht.steady (hq.lt ht.toTree) hb
  have hnames := ht.names q hq
  have hblock : fileBlock s.vol.disk ino = fileBlock s.vol.disk (inodeOf s q) :=
    funext fun k => fileBlock_congr hsec (fun _ _ _ => rfl) k
  have hslot : slotAt s.vol.disk (fileBlock s.vol.disk ino) i = some de := by
    rw [hblock]
    exact hbelow.slot
  have hi := dirSlot_lt hbelow.slot
  -- free slots are zero, and the number is not
  have honly : ∀ j de', slotAt s.vol.disk (fileBlock s.vol.disk ino) j = some de' →
      de'.iNo.toNat = de.iNo.toNat → j = i := by
    intro j de' hj hno
    rw [hblock] at hj
    refine ht.once q i j de de' hq hbelow hj (fun hfree => ?_) (UInt32.toNat_inj.mp hno)
    obtain ⟨hnz, hde⟩ := slotAt_eq_some.mp hj
    have hjlt := dirSlot_lt hj
    have hzero : de' = zeroEntry := by
      rw [← hde] at hfree
      rw [← hde]
      apply DirEntry.ofMem_congr
      intro l hl
      exact hnames.free (j / 21) (j % 21) (by omega) (Nat.mod_lt _ (by decide)) hnz hfree l hl
    refine ht.top q i de hq hbelow (UInt32.toNat_inj.mp ?_)
    rw [← hno, hzero]
    rfl
  have hblocks : allBlocks st.vol ino = some (fileBlock s.vol.disk ino) := by
    rw [allBlocks_eq (by rw [hsec]; exact hnames.search.table), hvol]
  have hcnt : i / 21 < 0 + if ino.sec 12 ≠ 0 then 140 else 12 := by
    split
    · omega
    · next h12 =>
      by_contra hge
      refine (slotAt_eq_some.mp hslot).1 ?_
      exact fileBlock_no_table _ (by omega) (not_not.mp h12)
  have hloop := childLoop_find (v := s.vol) (fun k => by rw [hblock]; exact hnames.search.reach k)
    hslot rfl (ht.names15 q i de hq hbelow.slot hbelow.live).1 honly _ 0 (Nat.zero_le _) hcnt
  refine ⟨c, hc, ?_⟩
  simp only [getChildDirName, hopen, hat, Option.bind_eq_bind, Option.bind_some, hblocks, hclose,
    hloop, ensure_pos hroom]
  rfl

/-! ## Up and down -/

theorem pathOf_cons (c : List UInt8) (names : List (List UInt8)) :
    pathOf (c :: names) = slash :: (c ++ pathOf names) := rfl

theorem pathOf_append (l l' : List (List UInt8)) : pathOf (l ++ l') = pathOf l ++ pathOf l' :=
  List.flatMap_append

theorem pathOf_single (c : List UInt8) : pathOf [c] = slash :: c := by
  rw [pathOf_cons]
  exact congrArg _ (List.append_nil c)

theorem length_le_pathOf (names : List (List UInt8)) : names.length ≤ (pathOf names).length := by
  induction names with
  | nil => exact Nat.le_refl _
  | cons c names ih =>
    rw [pathOf_cons, List.length_cons, List.length_cons, List.length_append]
    omega

/-- **The climb** gives the names from the last to the first. -/
theorem cwdLoop_canon (ht : CwdTree s rootDir) {d : Nat} {names : List (List UInt8)}
    (h : Canon s d names) : ∀ fuel acc b, names.length < fuel →
    acc.length + (pathOf names).length < 512 → s.brk ≤ b →
    ∃ c, s.brk ≤ c ∧ cwdLoop fuel { s with brk := b } d acc =
      some (some (acc ++ pathOf names.reverse), { s with brk := c }) := by
  induction h with
  | root =>
    intro fuel acc b hfuel _ hb
    obtain ⟨fuel, rfl⟩ := Nat.exists_eq_succ_of_ne_zero (show fuel ≠ 0 by omega)
    refine ⟨b, hb, ?_⟩
    rw [cwdLoop, if_neg (by simp)]
    show some (some acc, _) = some (some (acc ++ []), _)
    rw [List.append_nil]
  | @sub q i de names hcanon hbelow ih =>
    intro fuel acc b hfuel hroom hb
    obtain ⟨fuel, rfl⟩ := Nat.exists_eq_succ_of_ne_zero (show fuel ≠ 0 by omega)
    have hq := hcanon.isDir ht.toTree
    have hlen : (pathOf (names ++ [de.name])).length = (pathOf names).length + (1 + de.name.length) := by
      rw [pathOf_append, pathOf_single, List.length_append, List.length_cons, Nat.add_comm 1]
    rw [List.length_append, List.length_singleton] at hfuel
    have hne : de.iNo.toNat ≠ 0 := fun h0 =>
      ht.top q i de hq hbelow (UInt32.toNat_inj.mp h0)
    -- one directory up, and the name read there
    obtain ⟨up, hup, -, hback, hupdir⟩ := ht.up q i de hq hbelow
    obtain ⟨c1, hc1, hparent⟩ := getParentDirInodeNr_up ht.toTree (hbelow.isDir ht.toTree hq) hup
      hupdir (by rw [hback]; exact hq.lt ht.toTree) hb
    obtain ⟨c2, hc2, hchild⟩ := getChildDirName_below ht acc hq hbelow (by omega) hc1
    have hacc : (acc ++ [slash] ++ de.name).length = acc.length + (1 + de.name.length) := by
      rw [List.length_append, List.length_append, List.length_singleton, Nat.add_assoc]
    obtain ⟨c3, hc3, hrest⟩ := ih fuel (acc ++ [slash] ++ de.name) c2 (by omega)
      (by rw [hacc]; omega) hc2
    refine ⟨c3, hc3, ?_⟩
    rw [cwdLoop, if_pos hne]
    simp only [hparent, hback, Option.bind_eq_bind, Option.bind_some, hchild]
    rw [hrest, List.reverse_append, List.reverse_singleton, List.singleton_append, pathOf_cons]
    simp only [List.append_assoc, List.cons_append, List.nil_append]

theorem lastName_append (front : List UInt8) {name : List UInt8} (h : slash ∉ name) :
    lastName (front ++ slash :: name) = name := by
  have hrev : (front ++ slash :: name).reverse = name.reverse ++ slash :: front.reverse := by
    simp
  rw [lastName, hrev, List.takeWhile_append_of_pos, List.takeWhile_cons, if_neg (by simp),
    List.append_nil, List.reverse_reverse]
  intro c hc
  have hne : c ≠ slash := fun he => h (he ▸ List.mem_reverse.mp hc)
  simpa using hne

/-- **The reversal** puts them in order. -/
theorem copyBack_pathOf : ∀ (names : List (List UInt8)) (fuel : Nat) (buf : List UInt8),
    (∀ c ∈ names, slash ∉ c) → names.length < fuel →
    copyBack fuel (pathOf names.reverse) buf = some (buf ++ pathOf names) := by
  intro names
  induction names with
  | nil =>
    intro fuel buf _ hfuel
    obtain ⟨fuel, rfl⟩ := Nat.exists_eq_succ_of_ne_zero (show fuel ≠ 0 by omega)
    show copyBack (fuel + 1) [] buf = some (buf ++ [])
    rw [copyBack, if_neg (by simp), List.append_nil]
  | cons c names ih =>
    intro fuel buf hslash hfuel
    obtain ⟨fuel, rfl⟩ := Nat.exists_eq_succ_of_ne_zero (show fuel ≠ 0 by omega)
    have hpath : pathOf (c :: names).reverse = pathOf names.reverse ++ slash :: c := by
      rw [List.reverse_cons, pathOf_append, pathOf_single]
    have hlast := lastName_append (pathOf names.reverse) (hslash c List.mem_cons_self)
    have htake : (pathOf names.reverse ++ slash :: c).take
        ((pathOf names.reverse ++ slash :: c).length - (slash :: c).length) =
          pathOf names.reverse := by
      rw [List.length_append, Nat.add_sub_cancel, List.take_left]
    rw [hpath, copyBack, if_pos (by simp), hlast]
    simp only [htake]
    rw [ih fuel _ (fun d hd => hslash d (List.mem_cons_of_mem _ hd)) (by
      rw [List.length_cons] at hfuel
      omega), pathOf_cons, List.append_assoc]
    rfl

theorem components_pathOf : ∀ names : List (List UInt8), (∀ c ∈ names, c ≠ [] ∧ slash ∉ c) →
    components (pathOf names) = names := by
  intro names
  induction names with
  | nil => exact fun _ => rfl
  | cons c names ih =>
    intro hnames
    obtain ⟨hne, hslash⟩ := hnames c List.mem_cons_self
    have hrest := ih fun d hd => hnames d (List.mem_cons_of_mem _ hd)
    rw [pathOf_cons, components_slash]
    cases names with
    | nil =>
      show components (c ++ []) = [c]
      rw [List.append_nil, components_name hslash, if_neg hne]
    | cons c' names =>
      rw [pathOf_cons, components_slash] at hrest
      rw [pathOf_cons]
      unfold components at hrest ⊢
      rw [List.splitOn_append_cons_self_of_not_mem hslash,
        List.filter_cons_of_pos (by simpa using hne), hrest]

/-- A canonical path leads to its directory. -/
theorem Canon.reaches (ht : Tree s rootDir) {d : Nat} {names : List (List UInt8)}
    (h : Canon s d names) : Reaches s 0 names d ftDirectory := by
  have hsnoc : ∀ {q q' : Nat} {names : List (List UInt8)} {de : DirEntry},
      Reaches s q names q' ftDirectory → Entry s q' de.name de → de.fType = ftDirectory →
      Reaches s q (names ++ [de.name]) de.iNo.toNat ftDirectory := by
    intro q q' names de hr he hdir
    generalize hft : ftDirectory = ft at hr
    induction hr with
    | here q => exact Reaches.dir he hdir (Reaches.here _)
    | file _ _ => cases hft
    | dir he' hdir' _ ih => exact Reaches.dir he' hdir' (ih he hft)
  induction h with
  | root => exact Reaches.here 0
  | sub hcanon hb ih =>
    have hq := hcanon.isDir ht
    exact hsnoc ih (entry_of_slot ht hq hb.slot hb.live) hb.dir

/-- Where the names lead to an object, the walk ends there. -/
theorem Walk.of_reaches (ht : Tree s rootDir) {q d : Nat} {names : List (List UInt8)} {n : Int}
    {ft ft' : UInt32} (hq : IsDir s q) (hr : Reaches s q names d ft') (hw : Walk s q names n ft) :
    n = d ∧ ft = ft' := by
  induction hw with
  | done q =>
    obtain ⟨rfl, rfl⟩ := hr.eq_of_nil
    exact ⟨rfl, rfl⟩
  | missing hmiss =>
    obtain ⟨de, he⟩ := hr.entry
    exact absurd he (hmiss de)
  | file he hreg =>
    cases hr with
    | file he' _ => exact ⟨by rw [he.unique ht hq he'], rfl⟩
    | dir he' hdir' _ =>
      rw [← he.unique ht hq he', hreg] at hdir'
      exact absurd hdir' (by decide)
  | dir he hdir _ ih =>
    exact ih (IsDir.sub hq he hdir) ((reaches_dir_iff ht hq he hdir).mp hr)

/-- Names that `search_file` takes from a path as they are, none of them `.` or
`..`. -/
def PlainNames (names : List (List UInt8)) : Prop :=
  ∀ c ∈ names, (c ≠ [] ∧ c ≠ dot ∧ c ≠ dotDot) ∧ IsName c ∧ c.length < 16 ∧ slash ∉ c

/-- **`search_file` of plain names** finds what they lead to. -/
theorem searchFile_names (ht : Tree s rootDir) {n : Nat} {ft : UInt32}
    {names : List (List UInt8)} (hnames : PlainNames names) (hr : Reaches s 0 names n ft)
    (hne : names ≠ []) (hlen : (pathOf names).length < 512) (dirE : DirEntry) :
    ∃ record s', searchFile rootDir dirE s (pathOf names) = some ((n : Int), record, s') ∧
      record.fileType = ft := by
  have hcomps : components (pathOf names) = names :=
    components_pathOf names fun c hc => ⟨(hnames c hc).1.1, (hnames c hc).2.2.2⟩
  obtain ⟨c, rest, rfl⟩ := List.exists_cons_of_ne_nil hne
  have hchars : ∀ b ∈ pathOf (c :: rest), b ≠ 0 := by
    intro b hb
    obtain ⟨e, he, hbe⟩ := List.mem_flatMap.mp hb
    rcases List.mem_cons.mp hbe with rfl | hbe
    · decide
    · exact (hnames e he).2.1 b hbe
  have hp : AbsPath (pathOf (c :: rest)) := by
    refine ⟨rfl, hchars, hlen, fun e he => ?_⟩
    rw [hcomps] at he
    exact (hnames e he).2.2.1
  have hroot : ¬(pathOf (c :: rest) = [slash] ∨ pathOf (c :: rest) = slash :: dot ∨
      pathOf (c :: rest) = slash :: dotDot) := by
    have hone : ∀ l, components l = [dot] ∨ components l = [dotDot] ∨ components l = [] →
        pathOf (c :: rest) ≠ l := by
      intro l hl heq
      rw [← heq, hcomps] at hl
      have hc := (hnames c List.mem_cons_self).1
      rcases hl with hl | hl | hl
      · exact hc.2.1 (List.cons.inj hl).1
      · exact hc.2.2 (List.cons.inj hl).1
      · cases hl
    intro hcase
    rcases hcase with h1 | h1 | h1
    · exact hone _ (Or.inr (Or.inr (by decide))) h1
    · exact hone _ (Or.inl (by decide)) h1
    · exact hone _ (Or.inr (Or.inl (by decide))) h1
  obtain ⟨m, record, s', hrun, hwalk⟩ :=
    searchFile_walk ht hp hroot (by rw [hcomps]; exact hne) dirE
  rw [hcomps] at hwalk
  obtain ⟨rfl, htype⟩ := hwalk.of_reaches ht IsDir.root hr
  exact ⟨record, s', hrun, htype⟩

/-- **`search_file` of a canonical path** finds the directory. -/
theorem searchFile_canon (ht : CwdTree s rootDir) {d : Nat} {names : List (List UInt8)}
    (h : Canon s d names) (hne : names ≠ []) (hlen : (pathOf names).length < 512)
    (dirE : DirEntry) :
    ∃ record s', searchFile rootDir dirE s (pathOf names) = some ((d : Int), record, s') ∧
      record.fileType = ftDirectory := by
  have hplain : PlainNames names := fun c hc => by
    obtain ⟨h1, h2, h3, h4⟩ := h.names ht c hc
    exact ⟨h1, h2, Nat.lt_succ_of_le h3, h4⟩
  exact searchFile_names ht.toTree hplain (h.reaches ht.toTree) hne hlen dirE

/-! ## Closing what the search left open -/

/-- A directory that was opened can be closed, and its struct is not one of a user
heap that would have to go: it is new, or has another user. -/
theorem dirOpen_closes (hs : Steady s) {b n : Nat} (hb : s.brk ≤ b) {dir : DirHandle}
    {st : Mounted p} (h : dirOpen { s with brk := b } n = some (dir, st)) :
    ∃ a i c, dir = .opened a ∧ st.inodeAt a = some i ∧ (i.iOpenCnts = 1 → s.brk ≤ a) ∧
      s.brk ≤ c ∧ inodeClose st a = some { s with brk := c } := by
  simp only [dirOpen, Option.bind_eq_bind, Option.bind_eq_some_iff, Prod.exists, Option.pure_def,
    Option.some.injEq, Prod.mk.injEq] at h
  obtain ⟨a, st', hopen, rfl, rfl⟩ := h
  have hs' := hs.brk hb
  cases hfind : s.openInodes.find? fun e => e.2.no == n with
  | none =>
    have hmiss : Mounted.Misses { s with brk := b } n := fun e he => by
      simpa using List.find?_eq_none.mp hfind e he
    have hn := inodeOpen_lt hmiss hopen
    obtain ⟨a', st, hopen', hholds⟩ := inodeOpen_miss_holds hs' 0 hn hmiss
    obtain ⟨rfl, rfl⟩ := Prod.mk.inj (Option.some.inj (hopen.symm.trans hopen'))
    obtain ⟨i, hat, -⟩ := hholds.inode
    obtain ⟨c, hc, hclose⟩ := hholds.close
    refine ⟨a, i, c, rfl, hat, fun _ => ?_, Nat.le_trans hb hc, hclose⟩
    have ha := (Prod.mk.inj (Option.some.inj ((inodeOpen_miss hn hmiss).symm.trans hopen))).1
    rw [← ha]
    exact hb
  | some e =>
    obtain ⟨a0, i0⟩ := e
    obtain ⟨a', st, hopen', hholds⟩ := inodeOpen_hit_holds hs' 0 hfind
    obtain ⟨rfl, rfl⟩ := Prod.mk.inj (Option.some.inj (hopen.symm.trans hopen'))
    obtain ⟨c, hc, hclose⟩ := hholds.close
    have hmem : (a0, i0) ∈ s.openInodes := List.mem_of_find?_eq_some hfind
    have heq : (a0, Mounted.modifyInode { s with brk := b } a0
        fun i => i.setOpenCnts (i.iOpenCnts.toNat + 1)) = (a, st') := by
      rw [inodeOpen, hfind] at hopen
      exact Option.some.inj hopen
    obtain ⟨rfl, rfl⟩ := Prod.mk.inj heq
    refine ⟨a0, i0.setOpenCnts (i0.iOpenCnts.toNat + 1), c, rfl, ?_, fun h1 => ?_,
      Nat.le_trans hb hc, hclose⟩
    · rw [Mounted.inodeAt_modifyInode, if_pos rfl]
      show (s.inodeAt a0).map _ = _
      rw [hs.inodeAt_of_mem hmem, Option.map_some]
    · have hcnt := congrArg UInt32.toNat h1
      rw [setOpenCnts_toNat] at hcnt
      have hlt := i0.iOpenCnts.toNat_lt
      have hone : (1 : UInt32).toNat = 1 := rfl
      have hzero : i0.iOpenCnts.toNat = 0 := by omega
      exact absurd (UInt32.toNat_inj.mp (hzero.trans UInt32.toNat_zero.symm)) (hs.users _ hmem)

end

/-- **After a search the list is as it was**, but for the directory in the record:
that is the root directory, or one that `dir_open` has just opened. -/
theorem searchFile_opened {s : Mounted p} (hs : Steady s) {rootDir : Nat} {dirE : DirEntry}
    {path : List UInt8} {n : Int} {record : PathSearchRecord} {part : Mounted p}
    (h : searchFile rootDir dirE s path = some (n, record, part)) :
    (record.parentDir = .root ∧ ∃ b, s.brk ≤ b ∧ part = { s with brk := b }) ∨
      ∃ m b, s.brk ≤ b ∧ dirOpen { s with brk := b } m = some (record.parentDir, part) := by
  refine searchFile_keeps (P := fun dir st =>
    (dir = .root ∧ ∃ b, s.brk ≤ b ∧ st = { s with brk := b }) ∨
      ∃ m b, s.brk ≤ b ∧ dirOpen { s with brk := b } m = some (dir, st)) ?_
    (Or.inl ⟨rfl, s.brk, Nat.le_refl _, rfl⟩) h
  intro dir dir' st s1 st' m hst hclose hopen
  rcases hst with ⟨rfl, b, hb, rfl⟩ | ⟨m', b, hb, hopen'⟩
  · obtain rfl := Option.some.inj hclose
    exact Or.inr ⟨m, b, hb, hopen⟩
  · obtain ⟨a, i, c, rfl, -, -, hc, hclose'⟩ := dirOpen_closes hs hb hopen'
    obtain rfl := Option.some.inj (hclose'.symm.trans hclose)
    exact Or.inr ⟨m, c, hc, hopen⟩

/-- **Then the directory is closed again**, and nothing is left of the search. -/
theorem searchFile_closes {k : FileSys p} (hs : Steady k.part)
    (husers : ∀ a ∈ k.userInodes, a < k.part.brk) {dirE : DirEntry} {path : List UInt8} {n : Int}
    {record : PathSearchRecord} {part : Mounted p}
    (h : searchFile k.rootDir dirE k.part path = some (n, record, part)) (pcb : Nat → Pcb) :
    ∃ b, k.part.brk ≤ b ∧ FileSys.dirClose { k with part, pcb } record.parentDir =
      some { k with part := { k.part with brk := b }, pcb } := by
  rcases searchFile_opened hs h with ⟨hroot, b, hb, rfl⟩ | ⟨m, b, hb, hopen⟩
  · exact ⟨b, hb, by rw [hroot]; rfl⟩
  · obtain ⟨a, i, c, hdir, hat, hone, hc, hclose⟩ := dirOpen_closes hs hb hopen
    refine ⟨c, hc, ?_⟩
    rw [hdir]
    by_cases h1 : i.iOpenCnts = 1
    · have hnot : a ∉ k.userInodes := fun ha => by
        have hlt := husers a ha
        have hge := hone h1
        omega
      simp only [FileSys.dirClose, FileSys.inodeClose, hat, Option.bind_eq_bind, Option.bind_some,
        if_pos h1, ensure_pos hnot, hclose]
      rfl
    · simp only [FileSys.dirClose, FileSys.inodeClose, hat, Option.bind_eq_bind, Option.bind_some,
        if_neg h1, hclose]
      rfl

/-! ## Inverse to each other -/

/-- **`sys_getcwd` inverts `sys_chdir`.** For every directory below the root of a
well-formed tree whose canonical path is shorter than `MAX_PATH_LEN`: a process that
is in it is told that path, and a process that goes by that path is in it. -/
theorem getcwd_inverts_chdir (k : FileSys p) (t : Nat) (ht : CwdTree k.part k.rootDir)
    (husers : ∀ a ∈ k.userInodes, a < k.part.brk) {d : Nat} {names : List (List UInt8)}
    (hcanon : Canon k.part d names) (hd : d ≠ 0) (hlen : (pathOf names).length < 512) :
    ((k.pcb t).cwdInodeNr = d → ∀ fuel, names.length < fuel →
      (∃ b, sysGetcwd fuel k t 512 true =
        some (some (pathOf names), { k with part := { k.part with brk := b } })) ∧
      sysGetcwd fuel k t 512 false = some (none, k)) ∧
    ∀ stack, ∃ k', sysChdir k t (pathOf names) stack = some (0, k') ∧
      (k'.pcb t).cwdInodeNr = d := by
  have hne : names ≠ [] := by
    intro hnil
    cases hcanon with
    | root => exact hd rfl
    | sub _ _ => simp at hnil
  refine ⟨fun hcwd fuel hfuel => ⟨?_, rfl⟩, fun stack => ?_⟩
  · obtain ⟨c, -, hloop⟩ := cwdLoop_canon ht hcanon fuel [] k.part.brk hfuel
      (by rw [List.length_nil]; omega) (Nat.le_refl _)
    have hslash : ∀ c ∈ names, slash ∉ c := fun c hc => (hcanon.names ht c hc).2.2.2
    have hrev : (pathOf names.reverse).length = (pathOf names).length := by
      simp only [pathOf, List.length_flatMap, List.map_reverse, List.sum_reverse]
    have hcount := length_le_pathOf names
    have hcopy := copyBack_pathOf names ((pathOf names.reverse).length + 1) [] hslash
      (by rw [hrev]; omega)
    have hfit : (pathOf names.reverse).length ≤ 512 := by omega
    rw [List.nil_append] at hloop hcopy
    refine ⟨c, ?_⟩
    simp only [sysGetcwd, Bool.not_true, Bool.false_eq_true, if_false, hcwd,
      ensure_pos ((hcanon.isDir ht.toTree).lt ht.toTree), if_neg hd, Option.bind_eq_bind,
      Option.bind_some, hloop, ensure_pos hfit, hcopy]
    rfl
  · obtain ⟨record, part, hfile, htype⟩ := searchFile_canon ht hcanon hne hlen stack.dirE
    have hnn : (d : Int) ≠ -1 := by omega
    have hback : asUInt (d : Int) = d := by
      have := (hcanon.isDir ht.toTree).lt ht.toTree
      unfold asUInt
      omega
    obtain ⟨b, -, hclose⟩ := searchFile_closes ht.steady husers hfile
      (Function.update k.pcb t ⟨(k.pcb t).fdTable, d, (k.pcb t).isProcess⟩)
    refine ⟨{ k with
      part := { k.part with brk := b }
      pcb := Function.update k.pcb t ⟨(k.pcb t).fdTable, d, (k.pcb t).isProcess⟩ }, ?_, ?_⟩
    · simp only [sysChdir, FileSys.search, hfile, Option.bind_eq_bind, Option.bind_some,
        Option.pure_def, if_pos (And.intro hnn htype), hback, hclose]
    · show (Function.update k.pcb t _ t).cwdInodeNr = d
      rw [Function.update_self]

/-! ## A tree with one directory below the root -/

/-- `a`. -/
def nameA : List UInt8 := [97]

/-- What is in slot `e` of the sector `lba`: the root directory on 612, with the
directory `a`, which is on 613. -/
def deepEntry (lba e : Nat) : DirEntry :=
  if lba = 612 then
    if e = 0 then dotEntry 1
    else if e = 1 then dotEntry 2
    else if e = 2 then ⟨fun k => if k.val = 0 then 97 else 0, 1, ftDirectory⟩
    else zeroEntry
  else
    if e = 0 then { dotEntry 1 with iNo := 1 }
    else if e = 1 then dotEntry 2
    else zeroEntry

def deepDisk : Mem :=
  Mem.blit (fun a =>
    if (a / 512 = 612 ∨ a / 512 = 613) ∧ a % 512 < 504 then
      (deepEntry (a / 512) (a % 512 / 24)).bytes (a % 512 % 24)
    else 0)
    (blankPartition.slotAddr 1) (((blankInode 1).setSec 0 613).setSize 48).bytes 76

/-- A process in `/a`. -/
def deepSys : FileSys blankPartition where
  part :=
    { vol := { (blankVol.setBlock 0 true).setBlock 1 true with disk := deepDisk }
      openInodes := [(1, smallRoot)]
      brk := 2 }
  rootDir := 1
  fileTable := fun _ => ⟨0, 0, 0⟩
  userInodes := []
  dirs := []
  live := {0, 1}
  pcb := fun _ => ⟨fun _ => -1, 1, true⟩

theorem deep_inodeOf (d : Nat) :
    inodeOf deepSys.part d = if d = 0 then smallRoot
      else Inode.ofMem deepSys.part.vol.disk (blankPartition.slotAddr d) := by
  have hfind : deepSys.part.openInodes.find? (fun e => e.2.no == d) =
      if d = 0 then some (1, smallRoot) else none := by
    by_cases hd : d = 0
    · rw [if_pos hd, hd]
      exact List.find?_cons_of_pos (by decide)
    · rw [if_neg hd]
      refine List.find?_eq_none.mpr fun e he => ?_
      rw [List.mem_singleton.mp he]
      have hno : smallRoot.no = 0 := by decide
      simpa [hno] using Ne.symm hd
  rw [inodeOf, hfind]
  by_cases hd : d = 0
  · rw [if_pos hd, if_pos hd]
  · rw [if_neg hd, if_neg hd]

theorem deep_root : OneBlock deepSys.part.vol (inodeOf deepSys.part 0) 612 := by
  rw [deep_inodeOf, if_pos rfl]
  exact ⟨fun _ => smallRoot_sec, by decide, by decide, by decide +kernel, by decide +kernel,
    by decide +kernel, by decide +kernel, by decide +kernel⟩

theorem deep_sub : OneBlock deepSys.part.vol (inodeOf deepSys.part 1) 613 := by
  rw [deep_inodeOf, if_neg (by decide)]
  refine ⟨fun k => ?_, by decide, by decide, by decide +kernel, by decide +kernel,
    by decide +kernel, by decide +kernel, by decide +kernel⟩
  by_cases hk : k < 13
  · have hall : ∀ k, k < 13 → (Inode.ofMem deepSys.part.vol.disk (blankPartition.slotAddr 1)).sec k =
        if k = 0 then 613 else 0 := by decide +kernel
    exact hall k hk
  · rw [Inode.sec_ge (by omega), if_neg (by omega)]

/-- The sector of directory `d`. -/
def deepLba (d : Nat) : Nat := if d = 0 then 612 else 613

/-- The directories are 0 and 1. -/
theorem deep_dir {d : Nat} (h : IsDir deepSys.part d) : d = 0 ∨ d = 1 := by
  have hno : ∀ lba, lba = 612 ∨ lba = 613 → ∀ e : Fin 21,
      (entryAt deepSys.part.vol.disk lba e).iNo.toNat = 0 ∨ (entryAt deepSys.part.vol.disk lba e).iNo.toNat = 1 := by
    intro lba hlba
    rcases hlba with rfl | rfl
    · decide +kernel
    · decide +kernel
  induction h with
  | root => exact Or.inl rfl
  | sub _ he _ ih =>
    obtain ⟨⟨i, hs⟩, -⟩ := he
    rcases ih with rfl | rfl
    · obtain ⟨e, -, rfl⟩ := deep_root.slot_eq hs
      exact hno 612 (Or.inl rfl) e
    · obtain ⟨e, -, rfl⟩ := deep_sub.slot_eq hs
      exact hno 613 (Or.inr rfl) e

theorem deep_block {d : Nat} (h : IsDir deepSys.part d) :
    OneBlock deepSys.part.vol (inodeOf deepSys.part d) (deepLba d) := by
  rcases deep_dir h with rfl | rfl
  · exact deep_root
  · exact deep_sub

/-- What holds of all slots of both directories. -/
theorem deep_slots {P : Nat → Fin 21 → DirEntry → Prop}
    (h0 : ∀ e : Fin 21, P 0 e (entryAt deepSys.part.vol.disk 612 e))
    (h1 : ∀ e : Fin 21, P 1 e (entryAt deepSys.part.vol.disk 613 e)) {d i : Nat} {de : DirEntry}
    (hd : IsDir deepSys.part d)
    (hs : dirSlot deepSys.part.vol.disk (inodeOf deepSys.part d) i = some de) :
    ∃ e : Fin 21, i = e ∧ P d e de := by
  rcases deep_dir hd with rfl | rfl
  · obtain ⟨e, rfl, rfl⟩ := deep_root.slot_eq hs
    exact ⟨e, rfl, h0 e⟩
  · obtain ⟨e, rfl, rfl⟩ := deep_sub.slot_eq hs
    exact ⟨e, rfl, h1 e⟩

/-- The only way down. -/
theorem deep_below {q i : Nat} {de : DirEntry} (hq : IsDir deepSys.part q)
    (h : Below deepSys.part q i de) : q = 0 ∧ i = 2 ∧ de = entryAt deepSys.part.vol.disk 612 2 := by
  have hslots := deep_slots (P := fun d e de => de.fType = ftDirectory → de.name ≠ dot →
    de.name ≠ dotDot → d = 0 ∧ (e : Nat) = 2) (by decide +kernel) (by decide +kernel) hq h.slot
  obtain ⟨e, rfl, hP⟩ := hslots
  obtain ⟨rfl, he⟩ := hP h.dir h.dot h.dotDot
  obtain ⟨e', heq, rfl⟩ := deep_root.slot_eq h.slot
  refine ⟨rfl, he, ?_⟩
  rw [← heq, he]

theorem deep_tree : CwdTree deepSys.part deepSys.rootDir where
  steady := by
    refine ⟨fun e he => ?_, by decide, fun e he => ?_⟩
    · rw [List.mem_singleton.mp he]
      decide
    · rw [List.mem_singleton.mp he]
      decide
  rootOpen := by decide
  no d hd := by
    rcases deep_dir hd with rfl | rfl
    · rw [deep_inodeOf, if_pos rfl]
      decide
    · rw [deep_inodeOf, if_neg (by decide)]
      decide +kernel
  names d hd := (deep_block hd).dirNames
  entries d name de hd he := by
    obtain ⟨⟨i, hs⟩, -⟩ := he
    obtain ⟨e, -, hlt⟩ := deep_slots (P := fun _ _ de => de.iNo.toNat < 4096) (by decide +kernel)
      (by decide +kernel) hd hs
    exact hlt
  dot := ⟨_, ⟨⟨0, deep_root.dirSlot_entry 0⟩, by decide +kernel, by decide +kernel⟩,
    by decide +kernel, by decide +kernel⟩
  dotDot := ⟨_, ⟨⟨1, deep_root.dirSlot_entry 1⟩, by decide +kernel, by decide +kernel⟩,
    by decide +kernel, by decide +kernel⟩
  names15 q i de hq hs hlive := by
    obtain ⟨e, -, hP⟩ := deep_slots (P := fun _ _ de => de.fType ≠ ftUnknown →
      de.name.length ≤ 15 ∧ slash ∉ de.name) (by decide +kernel) (by decide +kernel) hq hs
    exact hP hlive
  top q i de hq hb := by
    obtain ⟨rfl, rfl, rfl⟩ := deep_below hq hb
    decide +kernel
  once q i j de de' hq hb hs hlive hno := by
    obtain ⟨rfl, rfl, rfl⟩ := deep_below hq hb
    obtain ⟨e, rfl, hP⟩ := deep_slots (P := fun d e de' => d = 0 → de'.iNo = 1 → (e : Nat) = 2)
      (by decide +kernel) (by decide +kernel) hq hs
    exact hP rfl (hno.trans (by decide +kernel))
  up q i de hq hb := by
    obtain ⟨rfl, rfl, rfl⟩ := deep_below hq hb
    have hchild : (entryAt deepSys.part.vol.disk 612 2).iNo.toNat = 1 := by decide +kernel
    refine ⟨entryAt deepSys.part.vol.disk 613 1, ?_, by decide +kernel, by decide +kernel,
      by decide +kernel⟩
    rw [hchild]
    exact deep_sub.dirSlot_entry 1

theorem deep_canon : Canon deepSys.part 1 [nameA] := by
  have hbelow : Below deepSys.part 0 2 (entryAt deepSys.part.vol.disk 612 2) :=
    ⟨deep_root.dirSlot_entry 2, by decide +kernel, by decide +kernel, by decide +kernel⟩
  have hno : (entryAt deepSys.part.vol.disk 612 2).iNo.toNat = 1 := by decide +kernel
  have hname : (entryAt deepSys.part.vol.disk 612 2).name = nameA := by decide +kernel
  have hcanon := Canon.sub Canon.root hbelow
  rwa [hno, hname] at hcanon

/-- A process in `/a` is told so, and gets there by that path. -/
theorem getcwd_inverts_chdir_one_level :
    (∃ k, sysGetcwd 2 deepSys 1 512 true = some (some [47, 97], k)) ∧
      ∃ k, sysChdir deepSys 1 [47, 97] noStack = some (0, k) ∧ (k.pcb 1).cwdInodeNr = 1 := by
  have h := getcwd_inverts_chdir deepSys 1 deep_tree (fun a ha => by cases ha) deep_canon (by decide)
    (by decide)
  obtain ⟨⟨b, hcwd⟩, -⟩ := h.1 rfl 2 (by decide)
  exact ⟨⟨_, hcwd⟩, h.2 noStack⟩

end OsCore.Fs
