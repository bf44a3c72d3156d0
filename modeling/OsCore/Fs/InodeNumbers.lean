import OsCore.Fs.InodePool

/-!
# Inode numbers in use

A number may be given to a new file when its bit in the inode bitmap is clear. It
is in use as long as an entry of `file_table` or a `struct dir` is open on it, or a
process has it for its working directory. `sys_unlink` looks through `file_table`
before it gives a number back; `sys_rmdir` looks nowhere, so the number of a
directory that is open, or in which a process is, goes to the next file that is
made.

`numbers_stay_allocated` is about the runs in which this does not happen, and in
which paths lead to inodes that have their bits set. That second condition is on the
tree as it is found on disk: the code takes a directory entry for granted.

The structs in memory are accounted for with it. `Books` says that each counts its
users, the entries of `file_table` and the open directories, so that what is held
is always a struct on the list. A `struct dir` is more than 512 bytes, and so fewer
than `2 ^ 23` are open in a memory of `2 ^ 32` bytes; without that a count could
come round to 0.
-/

namespace OsCore.Fs

open OsCore.Lib

variable {p : Partition}

/-! ## What the volume keeps -/

/-- A block changes hands. -/
theorem setBlock_inodes {v v' : Vol p} {i j : Nat} {x : Bool} {btmp : BitmapType}
    (h : bitmapSync (v.setBlock i x) j btmp = some v') : v'.inodeBitmap = v.inodeBitmap := by
  rw [bitmapSync_inodes h]
  rfl

theorem freeLoop_inodes {blocks : Nat → Nat} {n i : Nat} {v v' : Vol p}
    (h : freeLoop blocks n i v = some v') : v'.inodeBitmap = v.inodeBitmap := by
  induction n generalizing i v with
  | zero =>
    obtain rfl := Option.some.inj h
    rfl
  | succ n ih =>
    unfold freeLoop at h
    split at h
    · simp only [Option.bind_eq_bind, Option.bind_eq_some_iff] at h
      obtain ⟨-, -, v1, hsync, h⟩ := h
      exact (ih h).trans (setBlock_inodes hsync)
    · exact ih h

theorem releaseBlocks_inodes {v v' : Vol p} {ino : Inode} (h : releaseBlocks v ino = some v') :
    v'.inodeBitmap = v.inodeBitmap := by
  unfold releaseBlocks at h
  split at h
  · simp only [Option.bind_eq_bind, Option.bind_eq_some_iff] at h
    obtain ⟨blocks, -, -, -, v1, hsync, h⟩ := h
    exact (freeLoop_inodes h).trans (setBlock_inodes hsync)
  · exact freeLoop_inodes h

theorem inodeDelete_inodes {v v' : Vol p} {n : Nat} (h : inodeDelete v n = some v') :
    v'.inodeBitmap = v.inodeBitmap := by
  simp only [inodeDelete, Option.bind_eq_bind, Option.bind_eq_some_iff, Option.pure_def,
    Option.some.injEq] at h
  obtain ⟨-, -, -, -, -, -, -, -, -, -, rfl⟩ := h
  rfl

theorem dropBlock_kept {fuel i : Nat} {blocks : Nat → Nat} {v v' : Vol p} {ino ino' : Inode}
    (h : dropBlock fuel v ino blocks i = some (v', ino')) : Kept v ino v' ino' := by
  simp only [dropBlock, Option.bind_eq_bind, Option.bind_eq_some_iff] at h
  obtain ⟨v1, h1, h⟩ := h
  have hv1 : v1.inodeBitmap = v.inodeBitmap := setBlock_inodes h1
  split at h
  · obtain ⟨rfl, rfl⟩ := Prod.mk.inj (Option.some.inj h)
    exact ⟨hv1, rfl, rfl⟩
  · simp only [Option.bind_eq_some_iff] at h
    obtain ⟨cnt, -, -, -, h⟩ := h
    split at h
    · simp only [Option.bind_eq_some_iff, Option.pure_def, Option.some.injEq, Prod.mk.injEq] at h
      obtain ⟨disk, -, rfl, rfl⟩ := h
      exact ⟨hv1, rfl, rfl⟩
    · simp only [Option.bind_eq_some_iff, Option.pure_def, Option.some.injEq, Prod.mk.injEq] at h
      obtain ⟨v2, h2, rfl, rfl⟩ := h
      exact ⟨(setBlock_inodes h2).trans hv1, rfl, rfl⟩

theorem deleteLoop_kept {fuel n i no : Nat} {blocks : Nat → Nat} {v v' : Vol p} {ino ino' : Inode}
    {r : Bool} (h : deleteLoop fuel v ino no blocks n i = some (r, v', ino')) :
    Kept v ino v' ino' := by
  induction n generalizing i with
  | zero =>
    simp only [deleteLoop, Option.some.injEq, Prod.mk.injEq] at h
    obtain ⟨-, rfl, rfl⟩ := h
    exact ⟨rfl, rfl, rfl⟩
  | succ n ih =>
    unfold deleteLoop at h
    split at h
    · exact ih h
    simp only [Option.bind_eq_bind, Option.bind_eq_some_iff, Prod.exists] at h
    obtain ⟨buf, -, isFirst, cnt, found, -, h⟩ := h
    cases found with
    | none => exact ih h
    | some e =>
      simp only [Option.bind_eq_some_iff, Prod.exists, Option.pure_def, Option.some.injEq,
        Prod.mk.injEq] at h
      obtain ⟨-, -, v1, ino1, hstep, -, -, v2, hsync, -, rfl, rfl⟩ := h
      have h1 : Kept v ino v1 ino1 := by
        split at hstep
        · exact dropBlock_kept hstep
        · simp only [Option.bind_eq_some_iff, Option.some.injEq, Prod.mk.injEq] at hstep
          obtain ⟨disk, -, rfl, rfl⟩ := hstep
          exact ⟨rfl, rfl, rfl⟩
      exact ⟨(inodeSync_inodes hsync).trans h1.inodes, h1.no, h1.cnt⟩

theorem deleteDirEntry_kept {fuel no : Nat} {v v' : Vol p} {ino ino' : Inode} {r : Bool}
    (h : deleteDirEntry fuel v ino no = some (r, v', ino')) : Kept v ino v' ino' := by
  simp only [deleteDirEntry, Option.bind_eq_bind, Option.bind_eq_some_iff] at h
  obtain ⟨blocks, -, h⟩ := h
  exact deleteLoop_kept h

/-- `sys_mkdir` keeps the number it was given, or gives it back. -/
theorem makeDir_kept {v v' : Vol p} {parent parent' : Inode} {name : List UInt8} {n : Nat}
    {ok : Bool} (h : makeDirWith blockBitmapAlloc v parent name n = some (ok, v', parent')) :
    v'.inodeBitmap = v.inodeBitmap ∧ parent'.iNo = parent.iNo ∧
      parent'.iOpenCnts = parent.iOpenCnts := by
  simp only [makeDirWith, Option.bind_eq_bind, Option.bind_eq_some_iff, Prod.exists] at h
  obtain ⟨lba, v1, halloc, h⟩ := h
  obtain ⟨i, rfl, -, -, -, rfl⟩ := blockBitmapAlloc_spec halloc
  rw [if_neg (by omega)] at h
  simp only [Option.bind_eq_some_iff, Prod.exists] at h
  obtain ⟨-, -, v2, h2, -, -, disk, -, de, -, ok', v3, parent1, hsync, h⟩ := h
  obtain ⟨rfl, hkept⟩ := syncDirEntry_kept hsync
  simp only [Bool.not_true, Bool.false_eq_true, if_false, Option.bind_eq_some_iff,
    Option.pure_def, Option.some.injEq, Prod.mk.injEq] at h
  obtain ⟨v4, h4, v5, h5, v6, h6, -, rfl, rfl⟩ := h
  refine ⟨?_, hkept.no, hkept.cnt⟩
  rw [bitmapSync_inodes h6, inodeSync_inodes h5, inodeSync_inodes h4, hkept.inodes]
  show v2.inodeBitmap = v.inodeBitmap
  exact setBlock_inodes h2

/-! ## Directories that are opened and closed within a call -/

section

variable {s s1 s2 s3 : Mounted p} {a b m n : Nat}

theorem Opens.no_cases (h : Opens s a m s1) (hb : s1.noAt b = some n) :
    n = m ∨ s.noAt b = some n := by
  rw [h.no, Function.update_apply] at hb
  split at hb
  · exact Or.inl (Option.some.inj hb).symm
  · exact Or.inr hb

theorem Opens.no_keeps (h : Opens s a m s1) (hb : s.noAt b = some n) : s1.noAt b = some n := by
  rw [h.no, Function.update_apply]
  split
  · next heq =>
    subst heq
    rcases h.was with ⟨hnone, -⟩ | hsome
    · rw [hnone] at hb
      cases hb
    · rw [← hsome, hb]
  · exact hb

theorem Closes.no_of (h : Closes s a s1) (hb : s1.noAt b = some n) : s.noAt b = some n := by
  rw [h.no] at hb
  split at hb
  · rw [Function.update_apply] at hb
    split at hb
    · cases hb
    · exact hb
  · exact hb

/-- **Of two structs opened, the first is closed again**, and what is left is the
second. -/
theorem Opens.close_first (hs : Steady s) (h1 : Opens s a m s1) (h2 : Opens s1 b n s2)
    (h3 : Closes s2 a s3) : Opens s b n s3 := by
  have hcnt2 : s2.cnt a = if a = b then s.cnt a + 2 else s.cnt a + 1 := by
    rw [h2.cnt, h1.cnt, Function.update_apply]
    split
    · next heq =>
      subst heq
      rw [Function.update_self]
    · rw [Function.update_self]
  refine ⟨h3.steady, h1.brk.trans (h2.brk.trans h3.brk), ?_, ?_, ?_⟩
  · rcases h2.was with ⟨hnone, hle⟩ | hsome
    · have hne : b ≠ a := by
        intro heq
        subst heq
        rw [h1.no, Function.update_self] at hnone
        cases hnone
      rw [h1.no, Function.update_of_ne hne] at hnone
      exact Or.inl ⟨hnone, h1.brk.trans hle⟩
    · rw [h1.no, Function.update_apply] at hsome
      split at hsome
      · next heq =>
        subst heq
        obtain rfl := Option.some.inj hsome
        exact h1.was
      · exact Or.inr hsome
  · rw [h3.no, hcnt2, h2.no, h1.no]
    by_cases heq : a = b
    · subst heq
      rw [if_pos rfl, if_neg (by omega), Function.update_idem]
    · rw [if_neg heq]
      by_cases h0 : s.cnt a = 0
      · -- the first one leaves memory again
        rw [if_pos (by omega), Function.update_comm heq, Function.update_idem,
          Function.update_comm (Ne.symm heq), ← hs.cnt_eq_zero_iff.mp h0, Function.update_eq_self]
      · have hm : s.noAt a = some m :=
          h1.was.resolve_left fun hnone => h0 (hs.cnt_eq_zero_iff.mpr hnone.1)
        rw [if_neg (by omega), ← hm, Function.update_eq_self]
  · rw [h3.cnt, hcnt2, h2.cnt, h1.cnt]
    by_cases heq : a = b
    · subst heq
      rw [if_pos rfl, Function.update_idem, Function.update_idem]
      rfl
    · rw [if_neg heq, Function.update_comm heq, Function.update_idem,
        Function.update_of_ne (Ne.symm heq), Nat.add_sub_cancel,
        Function.update_comm (Ne.symm heq), Function.update_eq_self]

/-- A search left `dir` open; something else happened, and `dir` is closed. -/
theorem Borrowed.close_same {dir : DirHandle} (hs : Steady s) (h : Borrowed s dir s1)
    (hsame : Same s1 s2) (hclose : Fs.dirClose s2 dir = some s3) :
    Same s s3 ∧ s3.vol = s2.vol := by
  cases dir with
  | root =>
    obtain rfl := Option.some.inj hclose
    exact ⟨(h.root rfl).trans hsame, rfl⟩
  | opened a =>
    obtain ⟨m, ho⟩ := h.opened a rfl
    obtain ⟨hc, hvol⟩ := inodeClose_closes hsame.steady hclose
    exact ⟨(ho.same hsame).close hs hc, hvol⟩

theorem Borrowed.close_opens {dir : DirHandle} (hs : Steady s) (h : Borrowed s dir s1)
    (hopens : Opens s1 b n s2) (hclose : Fs.dirClose s2 dir = some s3) :
    Opens s b n s3 ∧ s3.vol = s2.vol := by
  cases dir with
  | root =>
    obtain rfl := Option.some.inj hclose
    exact ⟨(h.root rfl).opens hopens, rfl⟩
  | opened a =>
    obtain ⟨m, ho⟩ := h.opened a rfl
    obtain ⟨hc, hvol⟩ := inodeClose_closes hopens.steady hclose
    exact ⟨ho.close_first hs hopens hc, hvol⟩

/-- **`inode_release`** clears the bit, and the struct it works on goes again. -/
theorem inodeRelease_same (hs : Steady s) (hroom : ∀ b, s.cnt b + 1 < 2 ^ 32)
    (h : inodeRelease s n = some s1) :
    Same s s1 ∧ s1.vol.inodeBitmap.bit = Function.update s.vol.inodeBitmap.bit n false := by
  simp only [inodeRelease, Option.bind_eq_bind, Option.bind_eq_some_iff, Prod.exists] at h
  obtain ⟨a, st, hopen, i, -, -, -, v1, h1, v2, h2, v3, h3, hclose⟩ := h
  obtain ⟨ho, hvol⟩ := inodeOpen_opens hs hroom hopen
  have hsame : Same st { st with vol := v3 } := Same.of_eq ho.steady rfl (Nat.le_refl _)
  obtain ⟨hc, hvol'⟩ := inodeClose_closes hsame.steady hclose
  refine ⟨(ho.same hsame).close hs hc, ?_⟩
  rw [hvol']
  show v3.inodeBitmap.bit = _
  rw [inodeDelete_inodes h3, bitmapSync_inodes h2, bit_setInode, releaseBlocks_inodes h1, hvol]

end

/-! ## Users of a struct, and numbers in use -/

namespace FileSys

/-- How many open directories are on the struct at `a`. -/
def dirUsers (k : FileSys p) (a : Nat) : Nat := k.dirs.count a + if a = k.rootDir then 1 else 0

/-- An occupied entry of `file_table` is open on inode `n`. -/
def HeldByFile (k : FileSys p) (n : Nat) : Prop :=
  ∃ g, g < 32 ∧ (k.fileTable g).fdInode ≠ 0 ∧ k.part.noAt (k.fileTable g).fdInode = some n

/-- A `struct dir` is open on inode `n`. -/
def HeldByDir (k : FileSys p) (n : Nat) : Prop := ∃ a ∈ k.rootDir :: k.dirs, k.part.noAt a = some n

/-- A live task is in directory `n`. -/
def HeldAsCwd (k : FileSys p) (n : Nat) : Prop := ∃ t ∈ k.live, (k.pcb t).cwdInodeNr = n

/-- Inode number `n` is in use. -/
def Held (k : FileSys p) (n : Nat) : Prop := k.HeldByFile n ∨ k.HeldByDir n ∨ k.HeldAsCwd n

/-- No number in use can be given to a new file. -/
def NoneRecycled (k : FileSys p) : Prop := ∀ n, k.Held n → k.bit n = true

end FileSys

/-- How many `struct dir`s there can be in memory. -/
def dirLimit : Nat := 2 ^ 23

/-- Every struct counts its users: the entries of `file_table`, none of them a
pipe, and the open directories. -/
structure Books (k : FileSys p) : Prop where
  tied : Tied k.dirUsers k
  dirs : k.dirs.length ≤ dirLimit
  nonNull : 0 ∉ k.rootDir :: k.dirs
  files : ∀ g, (k.fileTable g).fdFlag ≠ pipeFlag

section

variable {k k' : FileSys p} {t a m : Nat}

/-- There is room in every count for what one call opens. -/
theorem Books.room (h : Books k) (b : Nat) : k.part.cnt b + 4 < 2 ^ 32 := by
  by_cases hb : b = 0
  · rw [hb, h.tied.cnt_null]
    decide
  · have hcnt := h.tied.users b hb
    have hslots := k.card_slots_le b
    have hcount : k.dirs.count b ≤ k.dirs.length := List.count_le_length
    have hdirs := h.dirs
    have hlimit : dirLimit + 100 < 2 ^ 32 := by decide
    unfold FileSys.dirUsers at hcnt
    split at hcnt <;> omega

theorem dirUsers_room (h : k.dirs.length ≤ dirLimit) (b : Nat) : k.dirUsers b + 64 < 2 ^ 32 := by
  have hcount : k.dirs.count b ≤ k.dirs.length := List.count_le_length
  have hlimit : dirLimit + 100 < 2 ^ 32 := by decide
  unfold FileSys.dirUsers
  split <;> omega

/-- An open directory is a struct on the list. -/
theorem Books.dir_valid (h : Books k) {b : Nat} (hb : b ∈ k.rootDir :: k.dirs) :
    ∃ n, k.part.noAt b = some n := by
  have hpos : 0 < k.dirUsers b := by
    unfold FileSys.dirUsers
    rcases List.mem_cons.mp hb with heq | hmem
    · rw [if_pos heq]
      omega
    · have : 0 < k.dirs.count b := List.count_pos_iff.mpr hmem
      omega
  have hne : b ≠ 0 := fun hz => h.nonNull (hz ▸ hb)
  have hcnt := h.tied.users b hne
  apply Option.ne_none_iff_exists'.mp
  intro hnone
  have := h.tied.steady.cnt_eq_zero_iff.mpr hnone
  omega

/-! ### The tables stay, the bitmap may change -/

theorem Quiet.dirUsers_eq {bits : Nat → Bool} (h : Quiet k bits k') : k'.dirUsers = k.dirUsers := by
  funext b
  rw [FileSys.dirUsers, FileSys.dirUsers, h.dirs, h.rootDir]

theorem Quiet.books {bits : Nat → Bool} (h : Quiet k bits k') (hk : Books k) : Books k' := by
  refine ⟨?_, ?_, ?_, ?_⟩
  · rw [h.dirUsers_eq]
    exact hk.tied.same h.part h.table
  · rw [h.dirs]
    exact hk.dirs
  · rw [h.rootDir, h.dirs]
    exact hk.nonNull
  · rw [h.table]
    exact hk.files

theorem Quiet.held {bits : Nat → Bool} (h : Quiet k bits k') {n : Nat} (hn : k'.Held n) :
    k.Held n := by
  unfold FileSys.Held FileSys.HeldByFile FileSys.HeldByDir FileSys.HeldAsCwd at hn
  rw [h.table, h.part.no, h.rootDir, h.dirs, h.live, h.pcb] at hn
  exact hn

theorem Quiet.noneRecycled {bits : Nat → Bool} (h : Quiet k bits k')
    (hbits : ∀ n, k.Held n → bits n = true) : k'.NoneRecycled := by
  intro n hn
  rw [h.bits]
  exact hbits n (h.held hn)

/-! ### A file is opened or closed -/

theorem setFd_cwd (k : FileSys p) (t i u : Nat) (g : Int) :
    ((k.setFd t i g).pcb u).cwdInodeNr = (k.pcb u).cwdInodeNr := by
  unfold FileSys.setFd
  dsimp only
  rw [Function.update_apply]
  split
  · next heq => rw [heq]
  · rfl

theorem Slotted.cwd {g : Nat} {flag : UInt8} (h : Slotted k t g a flag k') (u : Nat) :
    (k'.pcb u).cwdInodeNr = (k.pcb u).cwdInodeNr := by
  rcases h.pcb with heq | ⟨i, -, -, -, heq⟩
  · rw [heq]
  · rw [heq, setFd_cwd]

theorem Filled.books {g : Nat} {flag : UInt8} (h : Filled k t g a m flag k') (hk : Books k) :
    Books k' := by
  refine ⟨?_, ?_, ?_, fun g' => ?_⟩
  · have heq : k'.dirUsers = k.dirUsers := by
      funext b
      rw [FileSys.dirUsers, FileSys.dirUsers, h.dirs, h.rootDir]
    rw [heq]
    exact hk.tied.filled h
  · rw [h.dirs]
    exact hk.dirs
  · rw [h.rootDir, h.dirs]
    exact hk.nonNull
  · rw [h.table, Function.update_apply]
    split
    · exact toUInt32_ne_pipeFlag flag
    · exact hk.files g'

theorem Filled.held {g : Nat} {flag : UInt8} (h : Filled k t g a m flag k') {n : Nat}
    (hn : k'.Held n) : n = m ∨ k.Held n := by
  rcases hn with ⟨g', hg', hocc, hno⟩ | ⟨b, hb, hno⟩ | ⟨u, hu, hcwd⟩
  · rw [h.table, Function.update_apply] at hocc hno
    split at hno
    · rw [h.opens.no, Function.update_self] at hno
      exact Or.inl (Option.some.inj hno).symm
    · next hne =>
      rw [if_neg hne] at hocc
      exact (h.opens.no_cases hno).imp_right fun hno' => Or.inl ⟨g', hg', hocc, hno'⟩
  · rw [h.rootDir, h.dirs] at hb
    exact (h.opens.no_cases hno).imp_right fun hno' => Or.inr (Or.inl ⟨b, hb, hno'⟩)
  · rw [h.live] at hu
    rw [h.cwd] at hcwd
    exact Or.inr (Or.inr (Or.inr ⟨u, hu, hcwd⟩))

/-! ### A directory is opened or closed -/

/-- One `struct dir` more, on the struct at `a` with the number `m`. -/
structure Entered (k : FileSys p) (a m : Nat) (k' : FileSys p) : Prop where
  opens : Opens k.part a m k'.part
  dirs : k'.dirs = a :: k.dirs
  bits : k'.bit = k.bit
  table : k'.fileTable = k.fileTable
  rootDir : k'.rootDir = k.rootDir
  live : k'.live = k.live
  pcb : k'.pcb = k.pcb

theorem Entered.books (h : Entered k a m k') (hk : Books k) (hlen : k.dirs.length < dirLimit) :
    Books k' := by
  have ha := hk.tied.opens_ne_zero h.opens
  have hlen' : k'.dirs.length ≤ dirLimit := by
    rw [h.dirs, List.length_cons]
    exact hlen
  refine ⟨⟨h.opens.steady, ?_, Nat.lt_of_lt_of_le hk.tied.brk h.opens.brk, ?_, fun b hb => ?_,
    dirUsers_room hlen'⟩, hlen', ?_, ?_⟩
  · rw [h.opens.no, Function.update_of_ne ha.symm]
    exact hk.tied.null
  · rw [h.table]
    exact hk.tied.low
  · have hcnt := hk.tied.users b hb
    have hslots : k'.slots b = k.slots b := by
      rw [FileSys.slots, FileSys.slots, h.table]
    rw [hslots, h.opens.cnt, Function.update_apply]
    unfold FileSys.dirUsers at hcnt ⊢
    rw [h.dirs, h.rootDir, List.count_cons]
    by_cases hba : b = a
    · subst hba
      rw [if_pos rfl, if_pos (beq_self_eq_true b)]
      omega
    · have hne : (a == b) = false := beq_false_of_ne (Ne.symm hba)
      rw [if_neg hba, hne, if_neg Bool.false_ne_true]
      omega
  · rw [h.rootDir, h.dirs]
    intro h0
    rcases List.mem_cons.mp h0 with heq | hmem
    · exact hk.nonNull (List.mem_cons.mpr (Or.inl heq))
    · rcases List.mem_cons.mp hmem with heq | hmem
      · exact ha heq.symm
      · exact hk.nonNull (List.mem_cons.mpr (Or.inr hmem))
  · rw [h.table]
    exact hk.files

theorem Entered.held (h : Entered k a m k') {n : Nat} (hn : k'.Held n) : n = m ∨ k.Held n := by
  rcases hn with ⟨g, hg, hocc, hno⟩ | ⟨b, hb, hno⟩ | ⟨u, hu, hcwd⟩
  · rw [h.table] at hocc hno
    exact (h.opens.no_cases hno).imp_right fun hno' => Or.inl ⟨g, hg, hocc, hno'⟩
  · rw [h.rootDir, h.dirs] at hb
    by_cases hba : b = a
    · rw [hba, h.opens.no, Function.update_self] at hno
      exact Or.inl (Option.some.inj hno).symm
    · have hb' : b ∈ k.rootDir :: k.dirs := by
        rcases List.mem_cons.mp hb with heq | hmem
        · exact List.mem_cons.mpr (Or.inl heq)
        · exact List.mem_cons.mpr (Or.inr ((List.mem_cons.mp hmem).resolve_left hba))
      exact (h.opens.no_cases hno).imp_right fun hno' => Or.inr (Or.inl ⟨b, hb', hno'⟩)
  · rw [h.live] at hu
    rw [h.pcb] at hcwd
    exact Or.inr (Or.inr (Or.inr ⟨u, hu, hcwd⟩))

/-- **`sys_closedir`** takes the directory off the books. -/
theorem sysClosedir_books {dir : DirHandle} {r : Int} (hk : Books k)
    (h : sysClosedir k dir = some (r, k')) :
    Books k' ∧ k'.bit = k.bit ∧ ∀ n, k'.Held n → k.Held n := by
  cases dir with
  | root =>
    obtain ⟨-, rfl⟩ := Prod.mk.inj (Option.some.inj h)
    exact ⟨hk, rfl, fun _ hn => hn⟩
  | opened a =>
    simp only [sysClosedir, Option.bind_eq_bind, Option.bind_eq_some_iff, ensure_eq_some,
      Option.pure_def, Option.some.injEq, Prod.mk.injEq] at h
    obtain ⟨-, hmem, k1, hclose, -, rfl⟩ := h
    obtain ⟨part, hpart, rfl⟩ := dirClose_eq hclose
    obtain ⟨hc, hvol⟩ := inodeClose_closes hk.tied.steady hpart
    have ha : a ≠ 0 := fun h0 => hk.nonNull (List.mem_cons.mpr (Or.inr (h0 ▸ hmem)))
    have hlen : (k.dirs.erase a).length ≤ dirLimit :=
      (List.length_erase_le).trans hk.dirs
    have hsub : ∀ b ∈ k.rootDir :: k.dirs.erase a, b ∈ k.rootDir :: k.dirs := by
      intro b hb
      rcases List.mem_cons.mp hb with heq | hb
      · exact List.mem_cons.mpr (Or.inl heq)
      · exact List.mem_cons.mpr (Or.inr (List.mem_of_mem_erase hb))
    refine ⟨⟨⟨hc.steady, ?_, Nat.lt_of_lt_of_le hk.tied.brk hc.brk, hk.tied.low, fun b hb => ?_,
      dirUsers_room hlen⟩, hlen, fun h0 => hk.nonNull (hsub 0 h0), hk.files⟩, ?_, fun n hn => ?_⟩
    · rw [hc.no]
      split
      · rw [Function.update_of_ne ha.symm]
        exact hk.tied.null
      · exact hk.tied.null
    · have hcnt := hk.tied.users b hb
      have hpos : 0 < k.dirs.count a := List.count_pos_iff.mpr hmem
      show part.cnt b = (k.slots b).card + ((k.dirs.erase a).count b + if b = k.rootDir then 1 else 0)
      unfold FileSys.dirUsers at hcnt
      rw [hc.cnt, Function.update_apply, List.count_erase]
      by_cases hba : b = a
      · subst hba
        rw [if_pos rfl, if_pos (beq_self_eq_true b)]
        omega
      · have hne : (a == b) = false := beq_false_of_ne (Ne.symm hba)
        rw [if_neg hba, hne, if_neg Bool.false_ne_true]
        omega
    · unfold FileSys.bit
      dsimp only
      rw [hvol]
    · rcases hn with ⟨g, hg, hocc, hno⟩ | ⟨b, hb, hno⟩ | hcwd
      · exact Or.inl ⟨g, hg, hocc, hc.no_of hno⟩
      · exact Or.inr (Or.inl ⟨b, hsub b hb, hc.no_of hno⟩)
      · exact Or.inr (Or.inr hcwd)

/-- **`sys_close`** takes the entry off the books. -/
theorem sysClose_books {fd r : Int} (hk : Books k) (h : sysClose k t fd = some (r, k')) :
    Books k' ∧ k'.bit = k.bit ∧ ∀ n, k'.Held n → k.Held n := by
  cases sysClose_cases h with
  | std _ heq =>
    subst heq
    exact ⟨hk, rfl, fun _ hn => hn⟩
  | pipe _ g _ _ _ _ hpipe _ => exact absurd hpipe (hk.files g)
  | file i g ret k1 _ _ _ _ _ hclose heq =>
    obtain ⟨-, hc, hvol, heq1⟩ := fileClose_spec hk.tied.steady hclose
    have htable : k1.fileTable =
        Function.update k.fileTable g { k.fileTable g with fdInode := 0 } := by rw [heq1]; rfl
    have hdirs : k1.dirs = k.dirs := by rw [heq1]; rfl
    have hroot : k1.rootDir = k.rootDir := by rw [heq1]; rfl
    have hlive : k1.live = k.live := by rw [heq1]; rfl
    have hpcb : k1.pcb = k.pcb := by rw [heq1]; rfl
    subst heq
    refine ⟨⟨?_, ?_, ?_, fun g' => ?_⟩, ?_, fun n hn => ?_⟩
    · have hsame : (k1.setFd t i (-1)).dirUsers = k.dirUsers := by
        funext b
        show k1.dirs.count b + (if b = k1.rootDir then 1 else 0) = _
        rw [hdirs, hroot]
        rfl
      rw [hsame]
      exact hk.tied.closed rfl hc htable
    · show k1.dirs.length ≤ dirLimit
      rw [hdirs]
      exact hk.dirs
    · show 0 ∉ k1.rootDir :: k1.dirs
      rw [hroot, hdirs]
      exact hk.nonNull
    · show (k1.fileTable g').fdFlag ≠ pipeFlag
      rw [htable, Function.update_apply]
      split
      · exact hk.files g
      · exact hk.files g'
    · show k1.bit = k.bit
      unfold FileSys.bit
      rw [hvol]
    · rcases hn with ⟨g', hg', hocc, hno⟩ | ⟨b, hb, hno⟩ | ⟨u, hu, hcwd⟩
      · have hocc' : (k1.fileTable g').fdInode ≠ 0 := hocc
        have hno' : k1.part.noAt (k1.fileTable g').fdInode = some n := hno
        rw [htable, Function.update_apply] at hocc' hno'
        split at hno'
        · next he =>
          rw [if_pos he] at hocc'
          exact absurd rfl hocc'
        · next he =>
          rw [if_neg he] at hocc'
          exact Or.inl ⟨g', hg', hocc', hc.no_of hno'⟩
      · have hb' : b ∈ k1.rootDir :: k1.dirs := hb
        rw [hroot, hdirs] at hb'
        exact Or.inr (Or.inl ⟨b, hb', hc.no_of hno⟩)
      · have hu' : u ∈ k1.live := hu
        rw [setFd_cwd, hpcb] at hcwd
        exact Or.inr (Or.inr ⟨u, hlive ▸ hu', hcwd⟩)

end

/-! ## The calls that take a path -/

section

variable {k k' k1 k2 : FileSys p} {t : Nat} {part : Mounted p} {dir : DirHandle}
  {bits bits' : Nat → Bool}

theorem Quiet.trans (h1 : Quiet k bits k1) (h2 : Quiet k1 bits' k2) : Quiet k bits' k2 :=
  ⟨h1.part.trans h2.part, h2.bits, h2.table.trans h1.table, h2.rootDir.trans h1.rootDir,
    h2.userInodes.trans h1.userInodes, h2.dirs.trans h1.dirs, h2.live.trans h1.live,
    h2.pcb.trans h1.pcb⟩

/-- The directory a search opened is closed at the end of a call that leaves the
tables alone. -/
theorem Borrowed.quiet (hs : Steady k.part) (hb : Borrowed k.part dir part)
    (h : Quiet { k with part } bits k2) (hclose : k2.dirClose dir = some k') :
    Quiet k bits k' := by
  obtain ⟨part', hpart, rfl⟩ := dirClose_eq hclose
  obtain ⟨hsame, hvol⟩ := hb.close_same hs h.part hpart
  refine ⟨hsame, ?_, h.table, h.rootDir, h.userInodes, h.dirs, h.live, h.pcb⟩
  rw [← h.bits]
  unfold FileSys.bit
  dsimp only
  rw [hvol]

theorem Borrowed.bit_eq (hb : Borrowed k.part dir part) :
    FileSys.bit { k with part } = k.bit := by
  unfold FileSys.bit
  dsimp only
  rw [hb.vol]

/-- A call that fails. -/
theorem Borrowed.failed (hs : Steady k.part) (hb : Borrowed k.part dir part)
    (hclose : FileSys.dirClose { k with part } dir = some k') : Quiet k k.bit k' := by
  refine hb.quiet hs ?_ hclose
  rw [← hb.bit_eq]
  exact Quiet.refl hb.steady

/-- The volume changes, and the struct of a directory with it. -/
theorem Quiet.edit (hs : Steady k.part) (vol : Vol p) {pa : Nat} {parent parent' : Inode}
    (hat : k.part.inodeAt pa = some parent) (hno : parent'.iNo = parent.iNo)
    (hcnt : parent'.iOpenCnts = parent.iOpenCnts) :
    Quiet k vol.inodeBitmap.bit
      { k with part := { k.part with vol }.modifyInode pa fun _ => parent' } := by
  have hvol : Same k.part { k.part with vol } := Same.of_eq hs rfl (Nat.le_refl _)
  have hstruct : Same { k.part with vol } ({ k.part with vol }.modifyInode pa fun _ => parent') := by
    refine Same.modifyInode hvol.steady pa (fun i hi => ?_) fun i hi => ?_
    · obtain rfl : parent = i := Option.some.inj (hat.symm.trans hi)
      exact hno
    · obtain rfl : parent = i := Option.some.inj (hat.symm.trans hi)
      exact hcnt
  exact ⟨hvol.trans hstruct, rfl, rfl, rfl, rfl, rfl, rfl, rfl⟩

theorem deleteEntry_quiet {no : Nat} (hs : Steady k.part) (h : k.deleteEntry dir no = some k') :
    Quiet k k.bit k' := by
  simp only [FileSys.deleteEntry, Option.bind_eq_bind, Option.bind_eq_some_iff, Prod.exists,
    Option.pure_def, Option.some.injEq] at h
  obtain ⟨inode, hat, r, vol, inode', hdelete, rfl⟩ := h
  have hkept := deleteDirEntry_kept hdelete
  have hedit := Quiet.edit hs vol hat hkept.no hkept.cnt
  rwa [hkept.inodes] at hedit

theorem release_quiet {no : Nat} (hs : Steady k.part) (hroom : ∀ b, k.part.cnt b + 1 < 2 ^ 32)
    (h : k.release no = some k') : Quiet k (Function.update k.bit no false) k' := by
  simp only [FileSys.release, Option.bind_eq_bind, Option.bind_eq_some_iff, Option.pure_def,
    Option.some.injEq] at h
  obtain ⟨part, hrelease, rfl⟩ := h
  obtain ⟨hsame, hbits⟩ := inodeRelease_same hs hroom hrelease
  exact ⟨hsame, hbits, rfl, rfl, rfl, rfl, rfl, rfl⟩

/-- The test of `sys_unlink` finds every entry that is open on the number. -/
theorem not_heldByFile {n : Nat} (hb : Borrowed k.part dir part)
    (h : FileSys.inUse { k with part } n = false) : ¬k.HeldByFile n := by
  intro ⟨g, hg, hocc, hno⟩
  have hno' : part.noAt (k.fileTable g).fdInode = some n := by
    cases dir with
    | root =>
      rw [(hb.root rfl).no]
      exact hno
    | opened a =>
      obtain ⟨m, ho⟩ := hb.opened a rfl
      exact ho.no_keeps hno
  have hnot := List.any_eq_false.mp h g (List.mem_range.mpr hg)
  exact hnot (by simp [hocc, hno'])

/-- `delete_dir_entry` and `inode_release`. -/
theorem remove_quiet {no : Nat} (hs : Steady k.part) (hroom : ∀ b, k.part.cnt b + 1 < 2 ^ 32)
    (hdelete : k.deleteEntry dir no = some k1) (hrelease : k1.release no = some k2) :
    Quiet k (Function.update k.bit no false) k2 := by
  have h1 := deleteEntry_quiet hs hdelete
  have h2 := release_quiet h1.part.steady (fun b => by rw [h1.part.cnt]; exact hroom b) hrelease
  rw [h1.bits] at h2
  exact h1.trans h2

theorem Books.searched (hk : Books k) {dirE : DirEntry} {pathname : List UInt8} {n : Int}
    {record : PathSearchRecord} (h : searchFile k.rootDir dirE k.part pathname =
      some (n, record, part)) : Borrowed k.part record.parentDir part :=
  searchFile_borrowed hk.tied.steady hk.room h

section

variable (hs : Steady k.part) (hroom : ∀ b, k.part.cnt b + 4 < 2 ^ 32)

include hs hroom

omit hs in
theorem Borrowed.room (hb : Borrowed k.part dir part) (b : Nat) : part.cnt b + 3 < 2 ^ 32 := by
  have hle := hb.cnt_le b
  have hroom := hroom b
  omega

/-- **`sys_mkdir`** may set a bit, and clears none. -/
theorem sysMkdir_quiet {pathname : List UInt8} {heap : Grants} {stack : Stack} {r : Int}
    (h : sysMkdir k pathname heap stack = some (r, k')) :
    ∃ bits, Quiet k bits k' ∧ ∀ n, k.bit n = true → bits n = true := by
  cases sysMkdir_cases h with
  | refused heq =>
    subst heq
    exact ⟨_, Quiet.refl hs, fun _ hn => hn⟩
  | failed n record part hfile hclose =>
    exact ⟨_, (searchFile_borrowed hs hroom hfile).failed hs hclose, fun _ hn => hn⟩
  | made n pa record part parent parent' ok vol hfile _ hfree hparent hmake hclose =>
    have hb := searchFile_borrowed hs hroom hfile
    obtain ⟨hinodes, hno, hcnt⟩ := makeDir_kept hmake
    have hedit : Quiet { k with part } vol.inodeBitmap.bit _ :=
      Quiet.edit (k := { k with part }) hb.steady _ hparent hno hcnt
    refine ⟨_, hb.quiet hs hedit hclose, fun j hj => ?_⟩
    rw [hinodes, bit_setInode, hb.vol, Function.update_apply]
    split
    · rfl
    · exact hj

/-- **`sys_unlink`** clears the bit of the inode its path leads to. -/
theorem sysUnlink_quiet {pathname : List UInt8} {heap : Grants} {stack : Stack} {r : Int}
    (h : sysUnlink k pathname heap stack = some (r, k')) :
    Quiet k k.bit k' ∨
      ∃ n record part, searchFile k.rootDir stack.dirE k.part pathname = some (n, record, part) ∧
        n ≠ -1 ∧ record.fileType ≠ ftDirectory ∧
        FileSys.inUse { k with part } (asUInt n) = false ∧ heap.ioBuf = true ∧
        Quiet k (Function.update k.bit (asUInt n) false) k' := by
  cases sysUnlink_cases h with
  | failed n record part hfile hclose => exact Or.inl ((searchFile_borrowed hs hroom hfile).failed hs hclose)
  | removed n record part k2 k3 hfile hn hdir huse hio hdelete hrelease hclose =>
    have hb := searchFile_borrowed hs hroom hfile
    have hremove := remove_quiet (k := { k with part }) hb.steady
      (fun b => by have := hb.room hroom b; dsimp only; omega) hdelete hrelease
    rw [hb.bit_eq] at hremove
    exact Or.inr ⟨n, record, part, hfile, hn, hdir, huse, hio, hb.quiet hs hremove hclose⟩

/-- **`sys_rmdir`** clears the bit of the directory, if that is empty. -/
theorem sysRmdir_quiet {pathname : List UInt8} {heap : Grants} {stack : Stack} {r : Int}
    (h : sysRmdir k pathname heap stack = some (r, k')) :
    Quiet k k.bit k' ∨
      ∃ n record part dir part' child,
        searchFile k.rootDir stack.dirE k.part pathname = some (n, record, part) ∧
        n ≠ -1 ∧ record.fileType ≠ ftRegular ∧ dirOpen part (asUInt n) = some (dir, part') ∧
        part'.inodeAt (dir.inode k.rootDir) = some child ∧ dirIsEmpty child = true ∧
        heap.ioBuf = true ∧
        Quiet k (Function.update k.bit child.no false) k' := by
  -- the directory is opened between search and close, like the one the search opened
  have hopened : ∀ {n record part dir part'},
      searchFile k.rootDir stack.dirE k.part pathname = some (n, record, part) →
      dirOpen part (asUInt n) = some (dir, part') → Borrowed part dir part' := by
    intro n record part dir part' hfile hopen
    have hb := searchFile_borrowed hs hroom hfile
    obtain ⟨b, rfl, ho, hvol⟩ := dirOpen_opens hb.steady
      (fun b => by have := hb.room hroom b; omega) hopen
    exact ho.borrowed hvol
  cases sysRmdir_cases h with
  | failed n record part hfile hclose => exact Or.inl ((searchFile_borrowed hs hroom hfile).failed hs hclose)
  | refused n record part part' dir k2 hfile hopen hclose hclose' =>
    have hb := searchFile_borrowed hs hroom hfile
    have hb' := hopened hfile hopen
    have hq := hb'.failed (k := { k with part }) hb.steady hclose
    rw [hb.bit_eq] at hq
    exact Or.inl (hb.quiet hs hq hclose')
  | removed n record part part' dir child k2 k3 k4 hfile hn hreg hopen hchild hempty hio hdelete
      hrelease hclose hclose' =>
    have hb := searchFile_borrowed hs hroom hfile
    have hb' := hopened hfile hopen
    have hremove := remove_quiet (k := { k with part := part' }) hb'.steady
      (fun b => by
        have h1 := hb.room hroom b
        have h2 := hb'.cnt_le b
        dsimp only
        omega) hdelete hrelease
    have hbit : FileSys.bit { k with part := part' } = k.bit :=
      (hb'.bit_eq (k := { k with part })).trans hb.bit_eq
    rw [hbit] at hremove
    have hinner := hb'.quiet (k := { k with part }) hb.steady hremove hclose
    exact Or.inr ⟨n, record, part, dir, part', child, hfile, hn, hreg, hopen, hchild, hempty,
      hio, hb.quiet hs hinner hclose'⟩

/-- **`sys_opendir`** holds the inode its path leads to. -/
theorem sysOpendir_entered {name : List UInt8} {stack : Stack} {r : Option DirHandle}
    (h : sysOpendir k name stack = some (r, k')) :
    Quiet k k.bit k' ∨
      ∃ n record part a, name ≠ [slash] ∧
        searchFile k.rootDir stack.dirE k.part name = some (n, record, part) ∧
        n ≠ -1 ∧ record.fileType = ftDirectory ∧
        Entered k a (inodeOf part (asUInt n)).no k' := by
  cases sysOpendir_cases h with
  | root heq =>
    subst heq
    exact Or.inl (Quiet.refl hs)
  | failed n record part hfile hclose => exact Or.inl ((searchFile_borrowed hs hroom hfile).failed hs hclose)
  | opened n record part part' dir k2 hname hfile hn hdir hopen hclose heq =>
    have hb := searchFile_borrowed hs hroom hfile
    obtain ⟨a, rfl, ho, hvol⟩ := dirOpen_opens hb.steady
      (fun b => by have := hb.room hroom b; omega) hopen
    obtain ⟨part2, hpart, rfl⟩ := dirClose_eq hclose
    obtain ⟨hopens, hvol2⟩ := hb.close_opens hs ho hpart
    subst heq
    refine Or.inr ⟨n, record, part, a, hname, hfile, hn, hdir, ⟨hopens, rfl, ?_, rfl, rfl, rfl, rfl⟩⟩
    show part2.vol.inodeBitmap.bit = k.part.vol.inodeBitmap.bit
    rw [hvol2]
    show part'.vol.inodeBitmap.bit = k.part.vol.inodeBitmap.bit
    rw [hvol, hb.vol]

omit hroom in
/-- **`sys_open`** of a file that is not there holds a number it has just set the bit
of. -/
theorem sysOpen_created {t : Nat} {flags : UInt8} {pathname : List UInt8} {heap : Grants} {r : Int}
    (hb : Borrowed k.part dir part)
    (hcreate : fileCreate { k with part } t dir pathname flags heap = some (r, k2))
    (hclose : k2.dirClose dir = some k') :
    Quiet k k.bit k' ∨
      ∃ g a n, Filled k t g a n flags k' ∧ k'.bit = Function.update k.bit n true := by
  rcases fileCreate_made hcreate with ⟨-, vol, hbits, rfl⟩ | ⟨-, g, n, hmade⟩
  · refine Or.inl (hb.quiet hs ?_ hclose)
    rw [← hb.bit_eq, ← hbits]
    exact ⟨Same.of_eq hb.steady rfl (Nat.le_refl _), rfl, rfl, rfl, rfl, rfl, rfl, rfl⟩
  · have hfilled := hmade.filled hb.steady
    obtain ⟨part', hpart, rfl⟩ := dirClose_eq hclose
    obtain ⟨hopens, hvol⟩ := hb.close_opens hs hfilled.opens hpart
    refine Or.inr ⟨g, part.brk, n, ⟨⟨hfilled.ge, hfilled.lt, hfilled.free, hfilled.table,
      hfilled.rootDir, hfilled.dirs, hfilled.live, hfilled.pcb⟩, hopens⟩, ?_⟩
    rw [← hb.bit_eq, ← hmade.bits]
    unfold FileSys.bit
    dsimp only
    rw [hvol]

omit hs hroom in
/-- The directory a search opened stays open. -/
theorem keepDir_entered (hb : Borrowed k.part dir part) :
    Quiet k k.bit (FileSys.keepDir { k with part } dir) ∨
      ∃ a m, dir = .opened a ∧ part.noAt a = some m ∧
        Entered k a m (FileSys.keepDir { k with part } dir) := by
  cases dir with
  | root => exact Or.inl ⟨hb.root rfl, hb.bit_eq, rfl, rfl, rfl, rfl, rfl, rfl⟩
  | opened a =>
    obtain ⟨m, ho⟩ := hb.opened a rfl
    refine Or.inr ⟨a, m, rfl, ?_, ⟨ho, rfl, hb.bit_eq, rfl, rfl, rfl, rfl⟩⟩
    rw [ho.no, Function.update_self]

end

end

/-! ## Runs -/

/-- The number of a directory that a search opened. -/
def DirHandle.number (part : Mounted p) : DirHandle → Option Nat
  | .root => none
  | .opened a => part.noAt a

namespace FileSys

/-- `sys_open` of a file that is there leads to an inode that has its bit set, and
through a parent directory that has. -/
def OpensAllocated (k : FileSys p) (pathname : List UInt8) (flags : UInt8) (stack : Stack) : Prop :=
  ∀ x ∈ searchFile k.rootDir stack.dirE k.part pathname, x.1 ≠ -1 →
    pathname.getLast? ≠ some slash → flags &&& oCreat = 0 → x.2.1.fileType ≠ ftDirectory →
    pathDepthCnt stack.name pathname = pathDepthCnt stack.name' x.2.1.searchedPath →
    (k.getFreeSlotInGlobal ≠ none → k.bit (inodeOf x.2.2 (asUInt x.1)).no = true) ∧
      ∀ m ∈ x.2.1.parentDir.number x.2.2, k.bit m = true

/-- `sys_opendir` leads to an inode that has its bit set. -/
def EntersAllocated (k : FileSys p) (name : List UInt8) (stack : Stack) : Prop :=
  ∀ x ∈ searchFile k.rootDir stack.dirE k.part name, name ≠ [slash] → x.1 ≠ -1 →
    x.2.1.fileType = ftDirectory → k.bit (inodeOf x.2.2 (asUInt x.1)).no = true

/-- `sys_chdir` leads to an inode that has its bit set. -/
def MovesAllocated (k : FileSys p) (path : List UInt8) (stack : Stack) : Prop :=
  ∀ x ∈ searchFile k.rootDir stack.dirE k.part path, x.1 ≠ -1 → x.2.1.fileType = ftDirectory →
    k.bit (asUInt x.1) = true

/-- The file `sys_unlink` removes is neither open as a directory nor anyone's
working directory. -/
def UnlinksUnheld (k : FileSys p) (pathname : List UInt8) (heap : Grants) (stack : Stack) : Prop :=
  ∀ x ∈ searchFile k.rootDir stack.dirE k.part pathname, x.1 ≠ -1 → x.2.1.fileType ≠ ftDirectory →
    inUse { k with part := x.2.2 } (asUInt x.1) = false → heap.ioBuf = true →
    ¬k.HeldByDir (asUInt x.1) ∧ ¬k.HeldAsCwd (asUInt x.1)

/-- The directory `sys_rmdir` removes is not in use. -/
def RemovesUnheld (k : FileSys p) (pathname : List UInt8) (heap : Grants) (stack : Stack) : Prop :=
  ∀ x ∈ searchFile k.rootDir stack.dirE k.part pathname, x.1 ≠ -1 → x.2.1.fileType ≠ ftRegular →
    ∀ y ∈ dirOpen x.2.2 (asUInt x.1), ∀ child ∈ y.2.inodeAt (y.1.inode k.rootDir),
      dirIsEmpty child = true → heap.ioBuf = true → ¬k.Held child.no

end FileSys

/-- Paths lead to inodes that have their bits set, and what is removed is not in
use. -/
def KeepsNumbers (k : FileSys p) : FsOp → Prop
  | .sysOpen _ pathname flags _ stack => k.OpensAllocated pathname flags stack
  | .sysOpendir name stack => k.EntersAllocated name stack
  | .sysChdir _ path stack => k.MovesAllocated path stack
  | .sysUnlink pathname heap stack => k.UnlinksUnheld pathname heap stack
  | .sysRmdir pathname heap stack => k.RemovesUnheld pathname heap stack
  | _ => True

section

variable {k k' : FileSys p} {t : Nat} {r : Int} (hk : Books k) (hnone : k.NoneRecycled)

include hk hnone

theorem sysOpen_numbers {pathname : List UInt8} {flags : UInt8} {heap : Grants} {stack : Stack}
    (hlen : k.dirs.length < dirLimit) (hkeep : k.OpensAllocated pathname flags stack)
    (h : sysOpen k t pathname flags heap stack = some (r, k')) : Books k' ∧ k'.NoneRecycled := by
  have hs := hk.tied.steady
  have hquiet : ∀ {k' : FileSys p}, Quiet k k.bit k' → Books k' ∧ k'.NoneRecycled := fun hq =>
    ⟨hq.books hk, hq.noneRecycled hnone⟩
  cases sysOpen_cases h with
  | slash heq =>
    subst heq
    exact ⟨hk, hnone⟩
  | failed n record part hfile hclose => exact hquiet ((hk.searched hfile).failed hs hclose)
  | created record part k2 _ hfile _ _ _ hcreate hclose =>
    rcases sysOpen_created hk.tied.steady (hk.searched hfile) hcreate hclose with hq | ⟨g, a, n, hf, hbits⟩
    · exact hquiet hq
    · refine ⟨hf.books hk, fun j hj => ?_⟩
      rw [hbits, Function.update_apply]
      rcases hf.held hj with heq | hheld
      · rw [if_pos heq]
      · split
        · rfl
        · exact hnone j hheld
  | opened n record part hlast hfile hn hflags hdir hdepth hopen =>
    have hb := hk.searched hfile
    obtain ⟨hfree, hparent⟩ := hkeep _ hfile hn hlast hflags hdir hdepth
    obtain ⟨hk1, hnone1, hbit1⟩ : Books (FileSys.keepDir { k with part } record.parentDir) ∧
        (FileSys.keepDir { k with part } record.parentDir).NoneRecycled ∧
        (FileSys.keepDir { k with part } record.parentDir).bit = k.bit := by
      rcases keepDir_entered hb with hq | ⟨a, m, heq, hm, he⟩
      · exact ⟨(hquiet hq).1, (hquiet hq).2, hq.bits⟩
      · refine ⟨he.books hk hlen, fun j hj => ?_, he.bits⟩
        rw [he.bits]
        rcases he.held hj with hjm | hheld
        · refine hjm ▸ hparent m ?_
          rw [heq]
          exact hm
        · exact hnone j hheld
    have hslot : (FileSys.keepDir { k with part } record.parentDir).getFreeSlotInGlobal =
        k.getFreeSlotInGlobal ∧ (FileSys.keepDir { k with part } record.parentDir).part = part := by
      cases record.parentDir with
      | root => exact ⟨rfl, rfl⟩
      | opened a => exact ⟨rfl, rfl⟩
    have hroom : ∀ b, (FileSys.keepDir { k with part } record.parentDir).part.cnt b + 1 < 2 ^ 32 :=
      fun b => by
        have := hk1.room b
        omega
    rcases fileOpen_spec hk1.tied.steady hroom hopen with ⟨-, rfl⟩ | ⟨g, a, hg, hf, hvol, -⟩
    · exact ⟨hk1, hnone1⟩
    · have hbit : k'.bit = k.bit := by
        rw [← hbit1]
        unfold FileSys.bit
        rw [hvol]
      refine ⟨hf.books hk1, fun j hj => ?_⟩
      rcases hf.held hj with heq | hheld
      · rw [hbit, heq, hslot.2]
        exact hfree (by rw [← hslot.1, hg]; exact Option.some_ne_none _)
      · rw [hbit, ← hbit1]
        exact hnone1 j hheld

theorem sysChdir_numbers {path : List UInt8} {stack : Stack} (hkeep : k.MovesAllocated path stack)
    (h : sysChdir k t path stack = some (r, k')) : Books k' ∧ k'.NoneRecycled := by
  have hs := hk.tied.steady
  cases sysChdir_cases h with
  | failed n record part hfile hclose =>
    have hq := (hk.searched hfile).failed hs hclose
    exact ⟨hq.books hk, hq.noneRecycled hnone⟩
  | moved n record part hfile hn hdir hclose =>
    obtain ⟨k1, hk1⟩ : ∃ k1 : FileSys p, k1 = { k with
        pcb := Function.update k.pcb t { k.pcb t with cwdInodeNr := asUInt n } } := ⟨_, rfl⟩
    have hbooks : Books k1 := by
      rw [hk1]
      exact ⟨⟨hk.tied.steady, hk.tied.null, hk.tied.brk, hk.tied.low, hk.tied.users, hk.tied.room⟩,
        hk.dirs, hk.nonNull, hk.files⟩
    have hb : Borrowed k1.part record.parentDir part := by
      rw [hk1]
      exact hk.searched hfile
    have hq : Quiet k1 k1.bit k' := by
      apply hb.failed hbooks.tied.steady
      rw [hk1]
      exact hclose
    refine ⟨hq.books hbooks, hq.noneRecycled fun j hj => ?_⟩
    have hbit : k1.bit = k.bit := by rw [hk1]; rfl
    rw [hbit]
    rw [hk1] at hj
    rcases hj with hfileHeld | hdirHeld | ⟨u, hu, hcwd⟩
    · exact hnone j (Or.inl hfileHeld)
    · exact hnone j (Or.inr (Or.inl hdirHeld))
    · dsimp only at hcwd hu
      rw [Function.update_apply] at hcwd
      split at hcwd
      · have hset := hkeep (n, record, part) hfile hn hdir
        have hcwd : asUInt n = j := hcwd
        dsimp only at hset
        rwa [hcwd] at hset
      · exact hnone j (Or.inr (Or.inr ⟨u, hu, hcwd⟩))

theorem sysOpendir_numbers {name : List UInt8} {stack : Stack} {dir : Option DirHandle}
    (hlen : k.dirs.length < dirLimit) (hkeep : k.EntersAllocated name stack)
    (h : sysOpendir k name stack = some (dir, k')) : Books k' ∧ k'.NoneRecycled := by
  rcases sysOpendir_entered hk.tied.steady hk.room h with hq | ⟨n, record, part, a, hname, hfile, hn, hdir, he⟩
  · exact ⟨hq.books hk, hq.noneRecycled hnone⟩
  · have hset := hkeep _ hfile hname hn hdir
    refine ⟨he.books hk hlen, fun j hj => ?_⟩
    rw [he.bits]
    rcases he.held hj with heq | hheld
    · rw [heq]
      exact hset
    · exact hnone j hheld

theorem sysUnlink_numbers {pathname : List UInt8} {heap : Grants} {stack : Stack}
    (hkeep : k.UnlinksUnheld pathname heap stack)
    (h : sysUnlink k pathname heap stack = some (r, k')) : Books k' ∧ k'.NoneRecycled := by
  rcases sysUnlink_quiet hk.tied.steady hk.room h with hq | ⟨n, record, part, hfile, hn, hdir, huse, hio, hq⟩
  · exact ⟨hq.books hk, hq.noneRecycled hnone⟩
  · obtain ⟨hnd, hnc⟩ := hkeep _ hfile hn hdir huse hio
    refine ⟨hq.books hk, hq.noneRecycled fun j hj => ?_⟩
    rw [Function.update_apply]
    split
    · next heq =>
      rw [heq] at hj
      rcases hj with hfileHeld | hdirHeld | hcwdHeld
      · exact absurd hfileHeld (not_heldByFile (hk.searched hfile) huse)
      · exact absurd hdirHeld hnd
      · exact absurd hcwdHeld hnc
    · exact hnone j hj

theorem sysRmdir_numbers {pathname : List UInt8} {heap : Grants} {stack : Stack}
    (hkeep : k.RemovesUnheld pathname heap stack)
    (h : sysRmdir k pathname heap stack = some (r, k')) : Books k' ∧ k'.NoneRecycled := by
  rcases sysRmdir_quiet hk.tied.steady hk.room h with
    hq | ⟨n, record, part, dir, part', child, hfile, hn, hreg, hopen, hchild, hempty, hio, hq⟩
  · exact ⟨hq.books hk, hq.noneRecycled hnone⟩
  · have hunheld := hkeep _ hfile hn hreg _ hopen child hchild hempty hio
    refine ⟨hq.books hk, hq.noneRecycled fun j hj => ?_⟩
    rw [Function.update_apply]
    split
    · next heq =>
      rw [heq] at hj
      exact absurd hj hunheld
    · exact hnone j hj

/-- One call. -/
theorem fsStep_numbers {op : FsOp} (hlen : k.dirs.length < dirLimit) (hkeep : KeepsNumbers k op)
    (hstep : k.fsStep op = some k') : Books k' ∧ k'.NoneRecycled := by
  have hclosed : ∀ {k' : FileSys p}, (Books k' ∧ k'.bit = k.bit ∧ ∀ n, k'.Held n → k.Held n) →
      Books k' ∧ k'.NoneRecycled := fun hall =>
    ⟨hall.1, fun n hn => by rw [hall.2.1]; exact hnone n (hall.2.2 n hn)⟩
  cases op with
  | sysOpen t pathname flags heap stack =>
    obtain ⟨⟨r, k1⟩, hcall, rfl⟩ := Option.map_eq_some_iff.mp hstep
    exact sysOpen_numbers hk hnone hlen hkeep hcall
  | sysClose t fd =>
    obtain ⟨⟨r, k1⟩, hcall, rfl⟩ := Option.map_eq_some_iff.mp hstep
    exact hclosed (sysClose_books hk hcall)
  | sysOpendir name stack =>
    obtain ⟨⟨r, k1⟩, hcall, rfl⟩ := Option.map_eq_some_iff.mp hstep
    exact sysOpendir_numbers hk hnone hlen hkeep hcall
  | sysClosedir dir =>
    obtain ⟨⟨r, k1⟩, hcall, rfl⟩ := Option.map_eq_some_iff.mp hstep
    exact hclosed (sysClosedir_books hk hcall)
  | sysChdir t path stack =>
    obtain ⟨⟨r, k1⟩, hcall, rfl⟩ := Option.map_eq_some_iff.mp hstep
    exact sysChdir_numbers hk hnone hkeep hcall
  | sysMkdir pathname heap stack =>
    obtain ⟨⟨r, k1⟩, hcall, rfl⟩ := Option.map_eq_some_iff.mp hstep
    obtain ⟨bits, hq, hset⟩ := sysMkdir_quiet hk.tied.steady hk.room hcall
    exact ⟨hq.books hk, hq.noneRecycled fun n hn => hset n (hnone n hn)⟩
  | sysUnlink pathname heap stack =>
    obtain ⟨⟨r, k1⟩, hcall, rfl⟩ := Option.map_eq_some_iff.mp hstep
    exact sysUnlink_numbers hk hnone hkeep hcall
  | sysRmdir pathname heap stack =>
    obtain ⟨⟨r, k1⟩, hcall, rfl⟩ := Option.map_eq_some_iff.mp hstep
    exact sysRmdir_numbers hk hnone hkeep hcall

end

/-- The file system after boot: no file is open, and the directories that are open
are accounted for and allocated, like those the tasks are in. -/
structure Booted (k : FileSys p) : Prop where
  steady : Steady k.part
  null : k.part.noAt 0 = none
  brk : 0 < k.part.brk
  table : ∀ g, (k.fileTable g).fdInode = 0 ∧ (k.fileTable g).fdFlag ≠ pipeFlag
  users : ∀ a, a ≠ 0 → k.part.cnt a = k.dirUsers a
  dirs : k.dirs.length ≤ dirLimit
  nonNull : 0 ∉ k.rootDir :: k.dirs
  held : k.NoneRecycled

/-- Files and directories are opened, made and removed. No more directories are
opened than memory holds. -/
def numberMachine (p : Partition) : Machine (FileSys p) FsOp where
  start := Booted
  may := fun k _ => k.dirs.length < dirLimit
  step := FileSys.fsStep

theorem Booted.books {k : FileSys p} (h : Booted k) : Books k := by
  refine ⟨⟨h.steady, h.null, h.brk, fun g _ => (h.table g).1, fun a ha => ?_,
    dirUsers_room h.dirs⟩, h.dirs, h.nonNull, fun g => (h.table g).2⟩
  have hslots : (k.slots a).card = 0 :=
    card_holders_eq_zero.mpr fun g _ heq => ha (heq.symm.trans (h.table g).1)
  rw [hslots, Nat.zero_add]
  exact h.users a ha

/-- **A number in use stays allocated**, in every run in which paths lead to inodes
that have their bits set and nothing that is in use is removed. Whatever is open is
a struct in memory. -/
theorem numbers_stay_allocated (k : FileSys p) (h : (numberMachine p).Reach KeepsNumbers k) :
    (∀ n, k.Held n → k.bit n = true) ∧
      (∀ g, (k.fileTable g).fdInode ≠ 0 →
        ∃ n, k.part.noAt (k.fileTable g).fdInode = some n) ∧
      ∀ a ∈ k.rootDir :: k.dirs, ∃ n, k.part.noAt a = some n := by
  have hboth : Books k ∧ k.NoneRecycled := by
    refine Machine.Reach.invariant (I := fun k => Books k ∧ k.NoneRecycled) ?_ ?_ h
    · intro k hk
      exact ⟨hk.books, hk.held⟩
    · intro k op k' hk hlen hkeep hstep
      exact fsStep_numbers hk.1 hk.2 hlen hkeep hstep
  exact ⟨hboth.2, fun g hg => hboth.1.tied.valid hg, fun a ha => hboth.1.dir_valid ha⟩

/-! ## A directory is removed while a process is in it -/

instance (k : FileSys p) (n : Nat) : Decidable (k.HeldByDir n) :=
  inferInstanceAs (Decidable (∃ a ∈ k.rootDir :: k.dirs, k.part.noAt a = some n))

instance (k : FileSys p) (n : Nat) : Decidable (k.HeldAsCwd n) :=
  inferInstanceAs (Decidable (∃ t ∈ k.live, (k.pcb t).cwdInodeNr = n))

instance (k : FileSys p) (n : Nat) : Decidable (k.HeldByFile n) :=
  inferInstanceAs (Decidable (∃ g, g < 32 ∧ (k.fileTable g).fdInode ≠ 0 ∧
    k.part.noAt (k.fileTable g).fdInode = some n))

instance (k : FileSys p) (n : Nat) : Decidable (k.Held n) :=
  inferInstanceAs (Decidable (k.HeldByFile n ∨ k.HeldByDir n ∨ k.HeldAsCwd n))

instance (k : FileSys p) (op : FsOp) : Decidable ((numberMachine p).may k op) :=
  inferInstanceAs (Decidable (k.dirs.length < dirLimit))

instance (k : FileSys p) (op : FsOp) : Decidable (KeepsNumbers k op) :=
  match op with
  | .sysOpen _ pathname _ _ stack =>
    Option.decidableForallMem (searchFile k.rootDir stack.dirE k.part pathname)
  | .sysOpendir name stack =>
    Option.decidableForallMem (searchFile k.rootDir stack.dirE k.part name)
  | .sysChdir _ path stack =>
    Option.decidableForallMem (searchFile k.rootDir stack.dirE k.part path)
  | .sysUnlink pathname _ stack =>
    Option.decidableForallMem (searchFile k.rootDir stack.dirE k.part pathname)
  | .sysRmdir pathname _ stack =>
    Option.decidableForallMem (searchFile k.rootDir stack.dirE k.part pathname)
  | .sysClose .. => isTrue trivial
  | .sysClosedir .. => isTrue trivial
  | .sysMkdir .. => isTrue trivial

theorem pipeFlag_ne_zero : (0 : UInt32) ≠ pipeFlag := by decide

theorem small_booted : Booted smallSys := by
  refine ⟨small_steady, small_noFiles.null, small_noFiles.brk, fun _ => ⟨rfl, pipeFlag_ne_zero⟩,
    fun a _ => ?_, by decide, by decide, fun n hn => ?_⟩
  · show smallSys.part.cnt a = 0 + if a = 1 then 1 else 0
    rw [Mounted.cnt, small_inodeAt]
    split <;> rfl
  · have h0 : n = 0 := by
      rcases hn with ⟨g, -, hocc, -⟩ | ⟨a, ha, hno⟩ | ⟨t, -, hcwd⟩
      · exact absurd rfl hocc
      · rw [List.mem_singleton.mp ha, Mounted.noAt, small_inodeAt] at hno
        exact (Option.some.inj hno).symm
      · exact hcwd.symm
    rw [h0]
    decide +kernel

/-- `/a`. -/
def patha : List UInt8 := [47, 97]

/-- A directory is made and opened, a file in the root opened and removed after it
was closed; the directory is removed when it is closed. -/
def removeInTurn : List FsOp :=
  [.sysMkdir patha ⟨true, true⟩ noStack, .sysOpendir patha noStack,
    .sysOpen 1 pathAA 0 ⟨true, true⟩ noStack, .sysClose 1 3, .sysClosedir (.opened 3),
    .sysUnlink pathAA ⟨true, true⟩ noStack, .sysRmdir patha ⟨true, true⟩ noStack]

theorem numbers_stay_allocated_in_turn :
    ∃ k, (numberMachine blankPartition).follow KeepsNumbers smallSys removeInTurn = some k ∧
      k.bit 2 = false ∧ ∀ n, k.Held n → k.bit n = true := by
  have hsome : ((numberMachine blankPartition).follow KeepsNumbers smallSys removeInTurn).map
      (fun k => k.bit 2) = some false := by decide +kernel
  obtain ⟨k, hk, hbit⟩ := Option.map_eq_some_iff.mp hsome
  have hreach : (numberMachine blankPartition).Reach KeepsNumbers k :=
    Machine.reach_of_follow (Machine.Reach.start small_booted) hk
  exact ⟨k, hk, hbit, (numbers_stay_allocated k hreach).1⟩

/-- A process goes into a new directory, which is then removed. -/
def removeUnderProcess : List FsOp :=
  [.sysMkdir patha ⟨true, true⟩ noStack, .sysChdir 1 patha noStack,
    .sysRmdir patha ⟨true, true⟩ noStack]

/-- **The number of its working directory is free**, and the next file gets it. -/
theorem rmdir_frees_working_directory :
    ∃ k, (numberMachine blankPartition).Reachable k ∧ 1 ∈ k.live ∧ (k.pcb 1).cwdInodeNr = 2 ∧
      k.part.vol.inodeBitmap.bitmapScan 1 = some 2 ∧ ¬∀ n, k.Held n → k.bit n = true := by
  have hsome : ((numberMachine blankPartition).follow (fun _ _ => True) smallSys
      removeUnderProcess).map (fun k => (decide (1 ∈ k.live), (k.pcb 1).cwdInodeNr, k.bit 2,
        k.part.vol.inodeBitmap.bitmapScan 1)) = some (true, 2, false, some 2) := by decide +kernel
  obtain ⟨k, hk, he⟩ := Option.map_eq_some_iff.mp hsome
  simp only [Prod.mk.injEq, decide_eq_true_eq] at he
  obtain ⟨hlive, hcwd, hbit, hscan⟩ := he
  have hreach : (numberMachine blankPartition).Reachable k :=
    Machine.reach_of_follow (Machine.Reach.start small_booted) hk
  refine ⟨k, hreach, hlive, hcwd, hscan, fun hall => ?_⟩
  have hset := hall 2 (Or.inr (Or.inr ⟨1, hlive, hcwd⟩))
  rw [hbit] at hset
  cases hset

end OsCore.Fs
