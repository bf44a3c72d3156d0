import OsCore.Fs.DescriptorIo
import OsCore.Fs.FileSlots
import OsCore.Fs.WriteLimits
import OsCore.Fs.Writers

/-!
# The position of an open file (`fs/file.c`)

Three calls move `fd_pos`. `file_read` stops it at the size, and `sys_lseek` sets it
to less than the size. `file_write` sets it to `i_size - 1` and adds what it writes,
while the size grows by the same. So a position stays inside its file, in the entry
that is moved and in all others on the same inode, since no call makes a file smaller.

The exception is `i_size - 1` of an empty file. If bytes follow, the sum wraps back
into the file; a write of no bytes leaves the position at `2 ^ 32 - 1`. That is all
that can go wrong (`positions_inside`).

The directory a file is created in grows as well. Its struct is not one of a file that
is open, as `sys_open` refuses directories.
-/

namespace OsCore.Fs

open OsCore.Lib

variable {p : Partition}

/-! ## The calls -/

/-- A call of `file_read` for entry `g` of `file_table`. -/
def FileSys.fileReadAt (k : FileSys p) (g : Nat) (buf : Mem) (count : Nat) :
    Option (Int × Mem × FileSys p) := do
  let file := k.fileTable g
  let inode ← k.part.inodeAt file.fdInode
  let (ret, f, buf) ← fileRead k.part.vol ⟨file.fdPos, file.fdFlag, inode⟩ buf count
  return (ret, buf, k.setSlot g { file with fdPos := f.fdPos })

/-- The calls that open files and those that move their positions. -/
inductive PosOp
  | fileCreate (t : Nat) (parentDir : DirHandle) (filename : List UInt8) (flag : UInt8)
      (heap : Grants)
  | fileOpen (t inodeNo : Nat) (flag : UInt8)
  | fileRead (g : Nat) (buf : Mem) (count : UInt32)
  | fileWrite (g : Nat) (buf : Mem) (count : UInt32)
  | sysLseek (t : Nat) (fd offset : Int) (whence : Whence)

def FileSys.posStep (k : FileSys p) : PosOp → Option (FileSys p)
  | .fileCreate t parentDir filename flag heap =>
    (fileCreate k t parentDir filename flag heap).map (·.2)
  | .fileOpen t inodeNo flag => (fileOpen k t inodeNo flag).map (·.2)
  | .fileRead g buf count => (k.fileReadAt g buf count.toNat).map (·.2.2)
  | .fileWrite g buf count => (k.fileWriteAt g buf count.toNat).map (·.2)
  | .sysLseek t fd offset whence => (k.sysLseek t fd offset whence).map (·.2)

/-- No file is open; directories may be, any number of them. -/
structure FilesClosed (k : FileSys p) : Prop where
  part : Addressed k.part
  table : ∀ g, (k.fileTable g).fdInode = 0

/-- A file is created in a directory, and open files are no directories. -/
def PosMay (k : FileSys p) : PosOp → Prop
  | .fileCreate _ parentDir _ _ _ => ∀ g, (k.fileTable g).fdInode ≠ parentDir.inode k.rootDir
  | _ => True

/-- Regular files are opened, read, written and sought in. -/
def positionMachine (p : Partition) : Machine (FileSys p) PosOp where
  start := FilesClosed
  may := PosMay
  step := FileSys.posStep

/-- The position of every open file is at most its size. -/
def FileSys.Inside (k : FileSys p) : Prop :=
  ∀ g, (k.fileTable g).fdInode ≠ 0 → ∃ i, k.part.inodeAt (k.fileTable g).fdInode = some i ∧
    (k.fileTable g).fdPos.toNat ≤ i.size

/-- The call is not a write of no bytes to an empty file. -/
def NoEmptyWrite (k : FileSys p) : PosOp → Prop
  | .fileWrite g _ count =>
    count = 0 → ∀ i ∈ k.part.inodeAt (k.fileTable g).fdInode, i.size ≠ 0
  | _ => True

/-! ## What a call adds to the position -/

theorem writeLoop_fdPos {blocks : Nat → Nat} {buf : Mem} {count : Nat} :
    ∀ {fuel : Nat} {v v' : Vol p} {f f' : File} {bw bw' : Nat} {first : Bool}, bw ≤ count →
    writeLoop blocks buf count fuel v f bw first = some (v', f', bw') →
    f'.fdPos = f.fdPos + UInt32.ofNat (count - bw) := by
  intro fuel
  induction fuel with
  | zero =>
    intro v v' f f' bw bw' first hle h
    unfold writeLoop at h
    split at h
    · cases h
    · next hge =>
      obtain ⟨-, rfl, -⟩ := Prod.mk.inj (Option.some.inj h)
      rw [show count - bw = 0 by omega]
      exact (UInt32.add_zero _).symm
  | succ fuel ih =>
    intro v v' f f' bw bw' first hle h
    unfold writeLoop at h
    split at h
    · next hlt =>
      simp only [Option.bind_eq_bind, Option.bind_eq_some_iff, ensure_eq_some, exists_const] at h
      obtain ⟨-, ioBuf, -, disk, -, hrec⟩ := h
      rw [chunkSize_eq] at hrec
      generalize hc : min (count - bw) (512 - f.inode.size % 512) = c at hrec
      have hpos := ih (by omega) hrec
      rw [hpos]
      show f.fdPos + UInt32.ofNat c + _ = _
      rw [UInt32.add_assoc, ← UInt32.ofNat_add, show c + (count - (bw + c)) = count - bw by omega]
    · next hge =>
      obtain ⟨-, rfl, -⟩ := Prod.mk.inj (Option.some.inj h)
      rw [show count - bw = 0 by omega]
      exact (UInt32.add_zero _).symm

theorem readLoop_fdPos {v : Vol p} {blocks : Nat → Nat} {size : Nat} :
    ∀ {fuel : Nat} {f f' : File} {dst dst' : Mem} {br n : Nat}, br ≤ size →
    readLoop v blocks size fuel f dst br = some (f', dst', n) →
    f'.fdPos = f.fdPos + UInt32.ofNat (size - br) := by
  intro fuel
  induction fuel with
  | zero =>
    intro f f' dst dst' br n hle h
    unfold readLoop at h
    split at h
    · cases h
    · next hge =>
      obtain ⟨rfl, -⟩ := Prod.mk.inj (Option.some.inj h)
      rw [show size - br = 0 by omega]
      exact (UInt32.add_zero _).symm
  | succ fuel ih =>
    intro f f' dst dst' br n hle h
    unfold readLoop at h
    split at h
    · next hlt =>
      simp only [Option.bind_eq_bind, Option.bind_eq_some_iff, ensure_eq_some, exists_const] at h
      obtain ⟨-, ioBuf, -, hrec⟩ := h
      rw [chunkSize_eq] at hrec
      generalize hc : min (size - br) (512 - f.fdPos.toNat % 512) = c at hrec
      have hpos := ih (by omega) hrec
      rw [hpos]
      show f.fdPos + UInt32.ofNat c + _ = _
      rw [UInt32.add_assoc, ← UInt32.ofNat_add, show c + (size - (br + c)) = size - br by omega]
    · next hge =>
      obtain ⟨rfl, -⟩ := Prod.mk.inj (Option.some.inj h)
      rw [show size - br = 0 by omega]
      exact (UInt32.add_zero _).symm

/-- **`file_write`** refuses what is over the limit, or size and position both end
where the new bytes do; the position is one less. -/
theorem fileWrite_moves {v v' : Vol p} {f f' : File} {buf : Mem} {count : Nat} {r : Int}
    (h : fileWrite v f buf count = some (r, v', f')) :
    512 * 140 < (f.inode.size + count) % 2 ^ 32 ∧ f' = f ∨
      f.inode.size + count < 512 * 140 ∧ f'.inode.size = f.inode.size + count ∧
        f'.fdPos.toNat = (f.inode.size + count + (2 ^ 32 - 1)) % 2 ^ 32 := by
  by_cases hbig : (f.inode.size + count) % 2 ^ 32 > 512 * 140
  · refine Or.inl ⟨hbig, ?_⟩
    unfold fileWrite fileWriteWith at h
    simp only [if_pos hbig, Option.pure_def, Option.some.injEq, Prod.mk.injEq] at h
    exact h.2.2.symm
  · obtain ⟨hlim, hr⟩ := fileWrite_limit h (by omega)
    refine Or.inr ⟨hlim, ?_, ?_⟩
    · cases fileWrite_cases h with
      | refused hm1 => omega
      | written v1 v2 ino1 ino2 blocks d _ _ _ _ _ hino =>
        rw [hino, Inode.size_setSize (by omega)]
    · unfold fileWrite fileWriteWith at h
      simp only [if_neg hbig, Option.bind_eq_bind, Option.bind_eq_some_iff, Prod.exists] at h
      obtain ⟨ok1, v1, ino1, hfirst, h⟩ := h
      obtain ⟨rfl, -⟩ := firstBlock_spec hfirst
      simp only [Bool.not_true, Bool.false_eq_true, if_false, Option.bind_eq_some_iff,
        Prod.exists] at h
      obtain ⟨-, -, ok2, v2, ino2, blocks, hcol, h⟩ := h
      obtain ⟨rfl, -⟩ := collectWrite_size hcol
      simp only [Bool.not_true, Bool.false_eq_true, if_false, Option.bind_eq_some_iff,
        Prod.exists, Option.pure_def, Option.some.injEq, Prod.mk.injEq] at h
      obtain ⟨v3, f3, bw, hloop, v4, -, -, -, rfl⟩ := h
      have hpos := writeLoop_fdPos (Nat.zero_le count) hloop
      rw [hpos, Nat.sub_zero, ← UInt32.ofNat_add, UInt32.toNat_ofNat']
      omega

/-- **`file_read`** moves the position to the end at most. -/
theorem fileRead_moves {v : Vol p} {f f' : File} {dst dst' : Mem} {count : Nat} {r : Int}
    (h : fileRead v f dst count = some (r, f', dst')) (hpos : f.fdPos.toNat ≤ f.inode.size) :
    f'.fdPos.toNat ≤ f.inode.size := by
  have hlt := f.inode.size_lt
  unfold fileRead at h
  dsimp only at h
  generalize hn : (if (f.fdPos.toNat + count) % 2 ^ 32 > f.inode.size then
    (f.inode.size + 2 ^ 32 - f.fdPos.toNat) % 2 ^ 32 else count) = n at h
  split at h
  · -- the position is at the end
    simp only [Option.pure_def, Option.some.injEq, Prod.mk.injEq] at h
    rw [← h.2.1]
    exact hpos
  · simp only [Option.bind_eq_bind, Option.bind_eq_some_iff, Prod.exists, Option.pure_def,
      Option.some.injEq, Prod.mk.injEq] at h
    obtain ⟨-, -, blocks, -, f1, dst1, bytesRead, hloop, -, rfl, -⟩ := h
    have hmove := readLoop_fdPos (Nat.zero_le n) hloop
    rw [hmove, Nat.sub_zero, UInt32.toNat_add, UInt32.toNat_ofNat']
    rcases Nat.eq_zero_or_pos n with hzero | hone
    · rw [hzero]
      omega
    · -- a request whose end wraps would leave the list of blocks
      have hroom := readLoop_room hone hloop
      split at hn <;> omega

/-- **`sys_lseek`** sets the position to less than the size, or leaves it. -/
theorem lseek_moves {f : File} (hpos : f.fdPos.toNat ≤ f.inode.size) (offset : Int)
    (whence : Whence) : (lseek f offset whence).2.fdPos.toNat ≤ f.inode.size := by
  have hsize : toInt32 f.inode.size ≤ f.inode.size := by
    unfold toInt32
    split <;> omega
  have hset : ∀ newPos : Int,
      (if newPos < 0 ∨ newPos > toInt32 f.inode.size - 1 then ((-1 : Int), f)
        else (newPos, { f with fdPos := UInt32.ofNat newPos.toNat })).2.fdPos.toNat ≤
        f.inode.size := by
    intro newPos
    split
    · exact hpos
    · show (UInt32.ofNat newPos.toNat).toNat ≤ _
      rw [UInt32.toNat_ofNat']
      omega
  cases whence with
  | seekSet => exact hset offset
  | seekCur => exact hset _
  | seekEnd => exact hset _

/-! ## Structs and their sizes -/

section

variable {s s' : Mounted p}

/-- What structs are there stay, and are no smaller. -/
def Grows (s s' : Mounted p) : Prop :=
  ∀ a i, s.inodeAt a = some i → ∃ i', s'.inodeAt a = some i' ∧ i.size ≤ i'.size

theorem Grows.trans {s1 s2 s3 : Mounted p} (h : Grows s1 s2) (h' : Grows s2 s3) :
    Grows s1 s3 := by
  intro a i hi
  obtain ⟨i', hi', hle⟩ := h a i hi
  obtain ⟨i'', hi'', hle'⟩ := h' a i' hi'
  exact ⟨i'', hi'', Nat.le_trans hle hle'⟩

theorem Grows.modifyInode (s : Mounted p) (a : Nat) {f : Inode → Inode}
    (hsize : ∀ i, s.inodeAt a = some i → i.size ≤ (f i).size) : Grows s (s.modifyInode a f) := by
  intro b i hi
  rw [Mounted.inodeAt_modifyInode]
  split
  · next hb =>
    rw [hb] at hi
    exact ⟨f i, by rw [hi, Option.map_some], hsize i hi⟩
  · exact ⟨i, hi, Nat.le_refl _⟩

theorem Grows.cons (h : Addressed s) (v : Vol p) (i : Inode) :
    Grows s ⟨v, (s.brk, i) :: s.openInodes, s.brk + 1⟩ := by
  intro b j hj
  have hne : b ≠ s.brk := Nat.ne_of_lt (h.inodeAt_lt hj)
  refine ⟨j, ?_, Nat.le_refl _⟩
  rw [Mounted.inodeAt_cons, if_neg hne]
  exact hj

/-- A struct is changed, and the volume with it. -/
theorem Grows.replace (h : Addressed s) (vol : Vol p) {a : Nat} {i i' : Inode}
    (hi : s.inodeAt a = some i) (hle : i.size ≤ i'.size) {part : Mounted p}
    (hpart : ({ s with vol } : Mounted p).modifyInode a (fun _ => i') = part) :
    Addressed part ∧ Grows s part ∧ part.inodeAt a = some i' := by
  have hvol : Addressed ({ s with vol } : Mounted p) :=
    ⟨⟨h.null, h.brk⟩, h.below, h.nodup⟩
  refine ⟨hpart ▸ hvol.modifyInode _ _, ?_, ?_⟩
  · rw [← hpart]
    apply Grows.modifyInode { s with vol } a
    intro j hj
    obtain rfl : i = j := Option.some.inj (hi.symm.trans hj)
    exact hle
  · rw [← hpart, Mounted.inodeAt_modifyInode, if_pos rfl]
    show (s.inodeAt a).map _ = _
    rw [hi, Option.map_some]

/-- `inode_open` finds a struct or adds one. -/
theorem inodeOpen_grows {n a : Nat} (h : Addressed s) (hopen : inodeOpen s n = some (a, s')) :
    Addressed s' ∧ Grows s s' ∧ ∃ i, s'.inodeAt a = some i := by
  cases hfind : s.openInodes.find? fun e => e.2.no == n with
  | some e =>
    obtain ⟨b, i⟩ := e
    simp only [inodeOpen, hfind, Option.some.injEq, Prod.mk.injEq] at hopen
    obtain ⟨rfl, rfl⟩ := hopen
    refine ⟨h.modifyInode _ _, Grows.modifyInode s b fun _ _ => Nat.le_refl _, ?_⟩
    rw [Mounted.inodeAt_modifyInode, if_pos rfl]
    cases hat : s.inodeAt b with
    | some j => exact ⟨_, rfl⟩
    | none =>
      rw [Mounted.inodeAt, Option.map_eq_none_iff, List.find?_eq_none] at hat
      exact absurd (by simp) (hat _ (List.mem_of_find?_eq_some hfind))
  | none =>
    have hmiss : s.Misses n := fun e he => by simpa using List.find?_eq_none.mp hfind e he
    rw [inodeOpen_miss (inodeOpen_lt hmiss hopen) hmiss, Option.some.injEq, Prod.mk.injEq] at hopen
    obtain ⟨rfl, rfl⟩ := hopen
    refine ⟨h.cons _ _, Grows.cons h _ _, ?_⟩
    rw [Mounted.inodeAt_cons, if_pos rfl]
    exact ⟨_, rfl⟩

end

/-! ## One call -/

/-- What the bound rests on: structs are where they should be, and no entry is a
pipe's. -/
structure Files (k : FileSys p) : Prop where
  part : Addressed k.part
  kind : ∀ g, (k.fileTable g).fdInode ≠ 0 → (k.fileTable g).fdFlag ≠ pipeFlag

section

variable {k k' : FileSys p}

/-- **One entry changes** and the files of the others are no smaller: then it is up
to that entry. -/
theorem FileSys.Inside.update (hin : k.Inside) {g : Nat} {f : FileSlot}
    (htable : k'.fileTable = Function.update k.fileTable g f)
    (hgrow : ∀ g', (k.fileTable g').fdInode ≠ 0 → ∀ i,
      k.part.inodeAt (k.fileTable g').fdInode = some i →
      ∃ i', k'.part.inodeAt (k.fileTable g').fdInode = some i' ∧ i.size ≤ i'.size) :
    k'.Inside ↔ (f.fdInode ≠ 0 →
      ∃ i, k'.part.inodeAt f.fdInode = some i ∧ f.fdPos.toNat ≤ i.size) := by
  unfold FileSys.Inside
  rw [htable]
  constructor
  · intro h
    have hg := h g
    rw [Function.update_self] at hg
    exact hg
  · intro h g' hg'
    by_cases he : g' = g
    · rw [he, Function.update_self] at hg' ⊢
      exact h hg'
    · rw [Function.update_of_ne he] at hg' ⊢
      obtain ⟨i, hi, hle⟩ := hin g' hg'
      obtain ⟨i', hi', hle'⟩ := hgrow g' hg' i hi
      exact ⟨i', hi', Nat.le_trans hle hle'⟩

theorem Files.update (hf : Files k) {g : Nat} {f : FileSlot} (hpart : Addressed k'.part)
    (htable : k'.fileTable = Function.update k.fileTable g f) (hkind : f.fdFlag ≠ pipeFlag) :
    Files k' := by
  refine ⟨hpart, fun g' hg' => ?_⟩
  rw [htable] at hg' ⊢
  by_cases he : g' = g
  · rw [he, Function.update_self]
    exact hkind
  · rw [Function.update_of_ne he] at hg' ⊢
    exact hf.kind g' hg'

/-- What a call finds in an entry with a struct. -/
theorem Files.inside_at (hf : Files k) (hin : k.Inside) {g : Nat} {i : Inode}
    (hi : k.part.inodeAt (k.fileTable g).fdInode = some i) :
    (k.fileTable g).fdInode ≠ 0 ∧ (k.fileTable g).fdPos.toNat ≤ i.size := by
  have hocc : (k.fileTable g).fdInode ≠ 0 := hf.part.toNonNull.ne_zero hi
  obtain ⟨j, hj, hle⟩ := hin g hocc
  obtain rfl : j = i := Option.some.inj (hj.symm.trans hi)
  exact ⟨hocc, hle⟩

/-- A position is set, of an entry that is open. -/
theorem Files.setPos (hf : Files k) (hin : k.Inside) {g : Nat} {i : Inode} {fdPos : UInt32}
    (hi : k.part.inodeAt (k.fileTable g).fdInode = some i) (hpos : fdPos.toNat ≤ i.size) :
    Files (k.setSlot g { k.fileTable g with fdPos }) ∧
      (k.setSlot g { k.fileTable g with fdPos }).Inside := by
  have htable : (k.setSlot g { k.fileTable g with fdPos }).fileTable =
      Function.update k.fileTable g { k.fileTable g with fdPos } := rfl
  refine ⟨hf.update hf.part htable (hf.kind g (hf.part.toNonNull.ne_zero hi)), ?_⟩
  exact (hin.update htable fun _ _ i hi => ⟨i, hi, Nat.le_refl _⟩).mpr fun _ => ⟨i, hi, hpos⟩

theorem fileCreate_inside (hf : Files k) (hin : k.Inside) {t : Nat} {parentDir : DirHandle}
    {filename : List UInt8} {flag : UInt8} {heap : Grants} {r : Int}
    (hmay : ∀ g, (k.fileTable g).fdInode ≠ parentDir.inode k.rootDir)
    (h : fileCreate k t parentDir filename flag heap = some (r, k')) : Files k' ∧ k'.Inside := by
  rcases fileCreate_fills h with ⟨-, vol, -, rfl⟩ | ⟨-, g, n, hslot, -, -, -, hfill⟩
  · exact ⟨⟨⟨⟨hf.part.null, hf.part.brk⟩, hf.part.below, hf.part.nodup⟩, hf.kind⟩, hin⟩
  · obtain ⟨hslotted, -, ⟨parent, parent', vol, -, -, -, hpart⟩, -⟩ := fillSlot_spec hslot hfill
    have hdir := hf.part.modifyInode (parentDir.inode k.rootDir) fun _ => parent'
    have hnew := hdir.cons vol ((newInode n).setOpenCnts 1)
    refine ⟨hf.update (hpart ▸ hnew) hslotted.table (toUInt32_ne_pipeFlag flag), ?_⟩
    refine (hin.update hslotted.table fun g' _ i hi => ?_).mpr fun _ => ?_
    · -- the parent's struct is none of an open file
      have hsame : (k.part.modifyInode (parentDir.inode k.rootDir) fun _ => parent').inodeAt
          (k.fileTable g').fdInode = some i := by
        rw [Mounted.inodeAt_modifyInode, if_neg (hmay g')]
        exact hi
      rw [hpart]
      exact Grows.cons hdir vol _ _ i hsame
    · rw [hpart]
      refine ⟨(newInode n).setOpenCnts 1, ?_, Nat.zero_le _⟩
      rw [Mounted.inodeAt_cons, if_pos rfl]

theorem fileOpen_inside (hf : Files k) (hin : k.Inside) {t n : Nat} {flag : UInt8} {r : Int}
    (h : fileOpen k t n flag = some (r, k')) : Files k' ∧ k'.Inside := by
  rcases fileOpen_slotted h with ⟨-, rfl⟩ | ⟨g, a, part, -, hslotted, -, hopen, hpart⟩
  · exact ⟨hf, hin⟩
  · obtain ⟨haddr, hgrow, i, hi⟩ := inodeOpen_grows hf.part hopen
    have hdeny : Grows part (part.modifyInode a fun i => i.setWriteDeny 1) :=
      Grows.modifyInode part a fun _ _ => Nat.le_refl _
    have hboth : Addressed k'.part ∧ Grows part k'.part := by
      rcases hpart with heq | heq
      · rw [heq]
        exact ⟨haddr, fun b j hj => ⟨j, hj, Nat.le_refl _⟩⟩
      · rw [heq]
        exact ⟨haddr.modifyInode _ _, hdeny⟩
    refine ⟨hf.update hboth.1 hslotted.table (toUInt32_ne_pipeFlag flag), ?_⟩
    refine (hin.update hslotted.table fun g' _ j hj => ?_).mpr fun _ => ?_
    · exact hgrow.trans hboth.2 _ j hj
    · obtain ⟨i', hi', -⟩ := hboth.2 a i hi
      exact ⟨i', hi', Nat.zero_le _⟩

theorem fileReadAt_inside (hf : Files k) (hin : k.Inside) {g count : Nat} {buf buf' : Mem}
    {r : Int} (h : k.fileReadAt g buf count = some (r, buf', k')) : Files k' ∧ k'.Inside := by
  simp only [FileSys.fileReadAt, Option.bind_eq_bind, Option.bind_eq_some_iff, Prod.exists,
    Option.pure_def, Option.some.injEq, Prod.mk.injEq] at h
  obtain ⟨i, hi, ret, f, buf1, hread, -, -, rfl⟩ := h
  exact hf.setPos hin hi (fileRead_moves hread (hf.inside_at hin hi).2)

theorem sysLseek_inside (hf : Files k) (hin : k.Inside) {t : Nat} {fd offset : Int}
    {whence : Whence} {r : Int} (h : k.sysLseek t fd offset whence = some (r, k')) :
    Files k' ∧ k'.Inside := by
  unfold FileSys.sysLseek at h
  split at h
  · obtain ⟨-, rfl⟩ := Prod.mk.inj (Option.some.inj h)
    exact ⟨hf, hin⟩
  · simp only [Option.bind_eq_bind, Option.bind_eq_some_iff, Option.pure_def, Option.some.injEq,
      Prod.mk.injEq] at h
    obtain ⟨-, -, g, -, i, hi, -, rfl⟩ := h
    have hi : k.part.inodeAt (k.fileTable g).fdInode = some i := by
      unfold FileSys.pointee at hi
      rwa [if_neg fun hpipe => hf.kind g hpipe.2 hpipe.1] at hi
    exact hf.setPos hin hi (lseek_moves (hf.inside_at hin hi).2 offset whence)

/-- A write of no bytes to an empty file is the one that goes wrong. -/
theorem fileWriteAt_inside (hf : Files k) (hin : k.Inside) {g count : Nat} {buf : Mem} {r : Int}
    (h : k.fileWriteAt g buf count = some (r, k')) : Files k' ∧ (k'.Inside ↔
      (count = 0 → ∀ i ∈ k.part.inodeAt (k.fileTable g).fdInode, i.size ≠ 0)) := by
  simp only [FileSys.fileWriteAt, Option.bind_eq_bind, Option.bind_eq_some_iff, Prod.exists,
    Option.pure_def, Option.some.injEq, Prod.mk.injEq] at h
  obtain ⟨j, hi, ret, vol, f, hwrite, -, rfl⟩ := h
  obtain ⟨hocc, hle⟩ := hf.inside_at hin hi
  have hmoves := fileWrite_moves hwrite
  have hgrown : j.size ≤ f.inode.size := by
    rcases hmoves with ⟨-, rfl⟩ | ⟨-, hsize, -⟩
    · exact Nat.le_refl _
    · rw [hsize]
      exact Nat.le_add_right _ _
  generalize hpart : ({ k.part with vol } : Mounted p).modifyInode (k.fileTable g).fdInode
    (fun _ => f.inode) = part
  obtain ⟨haddr, hgrow, hat⟩ := Grows.replace hf.part vol hi hgrown hpart
  have htable : ({ k with part }.setSlot g { k.fileTable g with fdPos := f.fdPos }).fileTable =
      Function.update k.fileTable g { k.fileTable g with fdPos := f.fdPos } := rfl
  refine ⟨hf.update haddr htable (hf.kind g hocc), ?_⟩
  refine (hin.update htable fun g' _ i' hi' => hgrow _ i' hi').trans ?_
  have hlt := j.size_lt
  constructor
  · intro h hzero i' hi' hempty
    obtain rfl : j = i' := Option.some.inj (hi.symm.trans hi')
    obtain ⟨i'', hi'', hle''⟩ := h hocc
    obtain rfl : f.inode = i'' := Option.some.inj (hat.symm.trans hi'')
    dsimp only at hmoves hle''
    omega
  · intro h _
    refine ⟨f.inode, hat, ?_⟩
    rcases hmoves with ⟨hbig, rfl⟩ | ⟨hlim, hsize, hpos⟩
    · exact hle
    · have hsome : ¬(count = 0 ∧ j.size = 0) := fun hboth => h hboth.1 j hi hboth.2
      dsimp only at hlim hsize hpos ⊢
      omega

/-- **One call.** -/
theorem posStep_spec (hf : Files k) (hin : k.Inside) {op : PosOp} (hmay : PosMay k op)
    (hstep : k.posStep op = some k') : Files k' ∧ (k'.Inside ↔ NoEmptyWrite k op) := by
  cases op with
  | fileCreate t parentDir filename flag heap =>
    obtain ⟨⟨r, k1⟩, hcall, rfl⟩ := Option.map_eq_some_iff.mp hstep
    obtain ⟨hf', hin'⟩ := fileCreate_inside hf hin hmay hcall
    exact ⟨hf', iff_of_true hin' trivial⟩
  | fileOpen t inodeNo flag =>
    obtain ⟨⟨r, k1⟩, hcall, rfl⟩ := Option.map_eq_some_iff.mp hstep
    obtain ⟨hf', hin'⟩ := fileOpen_inside hf hin hcall
    exact ⟨hf', iff_of_true hin' trivial⟩
  | fileRead g buf count =>
    obtain ⟨⟨r, buf', k1⟩, hcall, rfl⟩ := Option.map_eq_some_iff.mp hstep
    obtain ⟨hf', hin'⟩ := fileReadAt_inside hf hin hcall
    exact ⟨hf', iff_of_true hin' trivial⟩
  | fileWrite g buf count =>
    obtain ⟨⟨r, k1⟩, hcall, rfl⟩ := Option.map_eq_some_iff.mp hstep
    obtain ⟨hf', hiff⟩ := fileWriteAt_inside hf hin hcall
    refine ⟨hf', hiff.trans (imp_congr_left ?_)⟩
    exact ⟨fun h0 => UInt32.toNat_inj.mp h0, fun h0 => congrArg UInt32.toNat h0⟩
  | sysLseek t fd offset whence =>
    obtain ⟨⟨r, k1⟩, hcall, rfl⟩ := Option.map_eq_some_iff.mp hstep
    obtain ⟨hf', hin'⟩ := sysLseek_inside hf hin hcall
    exact ⟨hf', iff_of_true hin' trivial⟩

theorem FilesClosed.inside (h : FilesClosed k) : Files k ∧ k.Inside :=
  ⟨⟨h.part, fun g hg => absurd (h.table g) hg⟩, fun g hg => absurd (h.table g) hg⟩

end

/-- **The position stays inside the file**, in every run without a write of no bytes
to an empty file; and in every state of such a run the next call keeps it so just if
it is none. -/
theorem positions_inside (k : FileSys p) (h : (positionMachine p).Reach NoEmptyWrite k) :
    k.Inside ∧ ∀ op k', PosMay k op → k.posStep op = some k' →
      (k'.Inside ↔ NoEmptyWrite k op) := by
  have hboth : Files k ∧ k.Inside := by
    refine Machine.Reach.invariant (I := fun k => Files k ∧ k.Inside) ?_ ?_ h
    · intro k hk
      exact hk.inside
    · intro k op k' hk hmay hno hstep
      obtain ⟨hf', hiff⟩ := posStep_spec hk.1 hk.2 hmay hstep
      exact ⟨hf', hiff.mpr hno⟩
  exact ⟨hboth.2, fun op k' hmay hstep => (posStep_spec hboth.1 hboth.2 hmay hstep).2⟩

theorem small_filesClosed : FilesClosed smallSys :=
  ⟨⟨⟨small_inodeAt 0, by decide⟩, small_steady.below, small_steady.nodup⟩, fun _ => rfl⟩

/-- Open the file for writing, and write `count` bytes. -/
def openAndWrite (count : UInt32) : List PosOp := [.fileOpen 0 1 2, .fileWrite 3 Mem.zero count]

/-- The states of the two steps. -/
theorem openAndWrite_steps {G : FileSys blankPartition → PosOp → Prop} {count : UInt32}
    {k : FileSys blankPartition}
    (h : (positionMachine blankPartition).run smallSys (openAndWrite count) = some k)
    (hopen : G smallSys (.fileOpen 0 1 2)) (hwrite : ∀ k, G k (.fileWrite 3 Mem.zero count)) :
    (positionMachine blankPartition).Reach G k := by
  obtain ⟨k1, h1, h⟩ := Option.bind_eq_some_iff.mp h
  obtain ⟨k2, h2, h⟩ := Option.bind_eq_some_iff.mp h
  obtain rfl := Option.some.inj h
  have hreach : (positionMachine blankPartition).Reach G k1 :=
    Machine.Reach.step (a := PosOp.fileOpen 0 1 2) (Machine.Reach.start small_filesClosed)
      trivial hopen h1
  exact Machine.Reach.step (a := PosOp.fileWrite 3 Mem.zero count) hreach trivial (hwrite k1) h2

theorem positions_inside_three_bytes :
    ∃ k, (positionMachine blankPartition).run smallSys (openAndWrite 3) = some k ∧
      (k.fileTable 3).fdPos = 2 ∧ k.Inside := by
  have hsome : ((positionMachine blankPartition).run smallSys (openAndWrite 3)).map
      (fun k => (k.fileTable 3).fdPos) = some 2 := by decide +kernel
  obtain ⟨k, hk, hpos⟩ := Option.map_eq_some_iff.mp hsome
  have hreach : (positionMachine blankPartition).Reach NoEmptyWrite k :=
    openAndWrite_steps hk trivial fun _ h0 => absurd h0 (by decide)
  exact ⟨k, hk, hpos, (positions_inside k hreach).1⟩

/-- **A write of no bytes** leaves the position of an empty file at the end of the
address space, and a read from there stops the kernel. -/
theorem empty_write_leaves_file :
    ∃ k, (positionMachine blankPartition).Reachable k ∧ (k.fileTable 3).fdPos = 2 ^ 32 - 1 ∧
      (k.part.inodeAt (k.fileTable 3).fdInode).map Inode.size = some 0 ∧ ¬k.Inside ∧
      k.posStep (.fileRead 3 Mem.zero 2) = none := by
  have hsome : ((positionMachine blankPartition).run smallSys (openAndWrite 0)).map
      (fun k => ((k.fileTable 3).fdInode, (k.fileTable 3).fdPos,
        (k.part.inodeAt (k.fileTable 3).fdInode).map Inode.size,
        (k.posStep (.fileRead 3 Mem.zero 2)).isNone)) =
        some (2, 2 ^ 32 - 1, some 0, true) := by decide +kernel
  obtain ⟨k, hk, he⟩ := Option.map_eq_some_iff.mp hsome
  simp only [Prod.mk.injEq, Option.isNone_iff_eq_none] at he
  obtain ⟨hocc, hpos, hsize, hread⟩ := he
  refine ⟨k, openAndWrite_steps hk trivial fun _ => trivial, hpos, hsize, ?_, hread⟩
  intro hin
  obtain ⟨i, hi, hle⟩ := hin 3 (by rw [hocc]; decide)
  rw [hi, Option.map_some, Option.some.injEq] at hsize
  rw [hpos, hsize] at hle
  exact absurd hle (by decide)

end OsCore.Fs
