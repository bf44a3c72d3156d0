import OsCore.Fs.WriteBlocks

/-!
# File contents: what was written is what is read

`Holds v ino content` ties an inode to the bytes it is meant to hold: its size
is their number, byte `j` is on block `j / 512` at offset `j % 512`, and once
anything has been written the block the *next* byte goes to is there as well.
The last clause is what makes the four cases of `file_read` agree with the
four of `file_write`: the reader looks at block `(pos + count) / 512`, one past
the data when a file ends on a block boundary.

A run of writes to any number of files keeps `Holds` for each of them
(`run_holds`): the written file by `FileWritten`, all others because a write
changes only blocks of its own inode. `file_contents_round_trip` reads the
result back through `sys_lseek` and `file_read`.
-/

namespace OsCore.Fs

variable {p : Partition}

/-! ## The read path -/

/-- The reader finds the addresses the inode has, whichever case it takes. -/
theorem collectRead_eq (v : Vol p) (ino : Inode) {startIdx endIdx : Nat}
    (hle : startIdx ≤ endIdx) (hend : endIdx < 140)
    (htab : 12 ≤ endIdx → ino.sec 12 ≠ 0 ∧ ino.sec 12 ≤ maxLba) :
    ∃ blocks, collectRead v ino startIdx endIdx = some blocks ∧
      ∀ k, startIdx ≤ k → k ≤ endIdx → blocks k = fileBlock v.disk ino k := by
  have hread : ∀ b0 : Nat → Nat, 12 ≤ endIdx → ∃ blocks,
      readTable v.disk (ino.sec 12) b0 = some blocks ∧
        ∀ k, blocks k = if 12 ≤ k ∧ k < 140 then fileBlock v.disk ino k else b0 k := by
    intro b0 h12
    obtain ⟨hnz, hmax⟩ := htab h12
    have hsome : ∃ blocks, readTable v.disk (ino.sec 12) b0 = some blocks := by
      simp [readTable, ideRead, hmax]
    obtain ⟨blocks, hb⟩ := hsome
    refine ⟨blocks, hb, fun k => ?_⟩
    rw [(readTable_spec hb).2 k]
    split
    next hk => rw [fileBlock_indirect _ hk.1 hk.2 hnz]
    next => rfl
  unfold collectRead
  dsimp only
  by_cases hsame : startIdx = endIdx
  · rw [if_pos hsame]
    by_cases h12 : endIdx < 12
    · rw [if_pos h12]
      refine ⟨_, rfl, fun k h1 h2 => ?_⟩
      obtain rfl : k = endIdx := by omega
      rw [setWord, if_pos rfl, fileBlock_direct _ _ h12]
    · rw [if_neg h12]
      obtain ⟨blocks, hb, hk⟩ := hread (fun _ => 0) (by omega)
      exact ⟨blocks, hb, fun k h1 h2 => by rw [hk, if_pos (by omega)]⟩
  · rw [if_neg hsame]
    by_cases h12 : endIdx < 12
    · rw [if_pos h12]
      refine ⟨_, rfl, fun k h1 h2 => ?_⟩
      rw [copyDirect, if_pos (by omega), fileBlock_direct _ _ (by omega)]
    · rw [if_neg h12]
      by_cases hs : startIdx < 12
      · rw [if_pos hs, ensure_pos (htab (by omega)).1]
        obtain ⟨blocks, hb, hk⟩ := hread (copyDirect ino startIdx 12 fun _ => 0) (by omega)
        refine ⟨blocks, hb, fun k h1 h2 => ?_⟩
        rw [hk]
        by_cases hk12 : 12 ≤ k
        · rw [if_pos (by omega)]
        · rw [if_neg (by omega), copyDirect, if_pos (by omega), fileBlock_direct _ _ (by omega)]
      · rw [if_neg hs, ensure_pos (htab (by omega)).1]
        obtain ⟨blocks, hb, hk⟩ := hread (fun _ => 0) (by omega)
        exact ⟨blocks, hb, fun k h1 h2 => by rw [hk, if_pos (by omega)]⟩

/-- Byte `j` of the file whose blocks are listed in `blocks`. -/
def diskByte (disk : Mem) (blocks : Nat → Nat) (j : Nat) : UInt8 :=
  disk (512 * blocks (j / 512) + j % 512)

/-- The copy loop fills the buffer with the bytes from the file position on. -/
theorem readLoop_eq (v : Vol p) (blocks : Nat → Nat) {size : Nat} :
    ∀ (fuel : Nat) (f : File) (dst : Mem) (br : Nat), br ≤ size → size - br ≤ fuel →
    (∀ j, f.fdPos.toNat ≤ j → j < f.fdPos.toNat + (size - br) →
      j / 512 < 140 ∧ blocks (j / 512) ≤ maxLba) →
    ∃ f', readLoop v blocks size fuel f dst br = some (f',
      dst.blit br (fun i => diskByte v.disk blocks (f.fdPos.toNat + i)) (size - br), size) ∧
      f'.fdPos.toNat = f.fdPos.toNat + (size - br) ∧ f'.inode = f.inode := by
  intro fuel
  induction fuel with
  | zero =>
    intro f dst br hle hfuel hblk
    obtain rfl : br = size := by omega
    refine ⟨f, ?_, by omega, rfl⟩
    unfold readLoop
    rw [if_neg (by omega), Nat.sub_self]
    congr 3
    funext i
    rw [Mem.blit_out (by omega)]
  | succ fuel ih =>
    intro f dst br hle hfuel hblk
    by_cases hlt : br < size
    · generalize hpos : f.fdPos.toNat = pos at hblk ⊢
      have hmin := chunkSize_eq (size - br) (512 - pos % 512)
      generalize hc : min (size - br) (512 - pos % 512) = c at hmin
      obtain ⟨hroom, hmax⟩ := hblk pos (by omega) (by omega)
      have hpos' : (f.fdPos + UInt32.ofNat c).toNat = pos + c := by
        rw [UInt32.toNat_add, hpos, UInt32.toNat_ofNat']
        omega
      obtain ⟨f', hf', hfd, hino⟩ := ih { f with fdPos := f.fdPos + UInt32.ofNat c }
        (dst.blit br
          ((Mem.zero.blit 0 (v.disk.shift (512 * blocks (pos / 512))) (512 * 1)).shift (pos % 512)) c)
        (br + c) (by omega) (by omega) (fun j h1 h2 => by
          rw [hpos'] at h1 h2
          exact hblk j (by omega) (by omega))
      rw [hpos'] at hfd
      refine ⟨f', ?_, by omega, hino⟩
      unfold readLoop
      rw [if_pos hlt]
      simp only [hpos, hmin, ensure_pos hroom, Option.bind_eq_bind, Option.bind_some,
        (ideRead_eq_some.mpr ⟨hmax, by omega, rfl⟩ :
          ideRead v.disk (blocks (pos / 512)) Mem.zero 1 = some _), hf']
      congr 3
      funext i
      by_cases h1 : br + c ≤ i ∧ i < br + (size - br)
      · rw [Mem.blit_in h1.1 (by omega), Mem.blit_in (by omega) h1.2, hpos']
        congr 1
        omega
      · rw [Mem.blit_out (by omega)]
        by_cases h2 : br ≤ i ∧ i < br + c
        · rw [Mem.blit_in h2.1 h2.2, Mem.blit_in (by omega) (by omega), Mem.shift,
            Mem.blit_in (by omega) (by omega), Mem.shift, diskByte,
            show (pos + (i - br)) / 512 = pos / 512 by omega,
            show (pos + (i - br)) % 512 = pos % 512 + (i - br) by omega]
          congr 1
        · rw [Mem.blit_out (by omega), Mem.blit_out (by omega)]
    · obtain rfl : br = size := by omega
      refine ⟨f, ?_, by omega, rfl⟩
      unfold readLoop
      rw [if_neg (by omega), Nat.sub_self]
      congr 3
      funext i
      rw [Mem.blit_out (by omega)]

/-! ## What an inode holds -/

/-- The inode holds `content`. -/
structure Holds (v : Vol p) (ino : Inode) (content : List UInt8) : Prop where
  size : ino.size = content.length
  room : content.length / 512 < 140
  empty : ino.sec 0 = 0 → content = []
  ahead : ino.sec 0 ≠ 0 → ∀ k, k ≤ content.length / 512 → fileBlock v.disk ino k ≠ 0
  table : ino.sec 12 ≤ maxLba
  reach : ∀ j, j < content.length → fileBlock v.disk ino (j / 512) ≤ maxLba
  byte : ∀ j (h : j < content.length), diskByte v.disk (fileBlock v.disk ino) j = content[j]

theorem Holds.nonzero {v : Vol p} {ino : Inode} {content : List UInt8} (h : Holds v ino content)
    {j : Nat} (hj : j < content.length) : fileBlock v.disk ino (j / 512) ≠ 0 := by
  refine h.ahead (fun h0 => ?_) _ (by omega)
  rw [h.empty h0] at hj
  exact absurd hj (by simp)

theorem getD_of_lt {l : List UInt8} {j : Nat} (h : j < l.length) : l.getD j 0 = l[j] := by
  simp [List.getD, h]

/-- **Reading a file that holds `content`**: everything up to its end, or to
the end of the request, as long as the block behind that is one of the first
139. -/
theorem fileRead_within {v : Vol p} {f : File} {content : List UInt8} (dst : Mem) (count : Nat)
    (h : Holds v f.inode content) (hpos : f.fdPos.toNat ≤ content.length)
    (hcount : f.fdPos.toNat + count < 2 ^ 32) (hmore : 0 < count → f.fdPos.toNat < content.length)
    (hend : f.fdPos.toNat + min count (content.length - f.fdPos.toNat) < 139 * 512) :
    ∃ f', fileRead v f dst count = some
      (((min count (content.length - f.fdPos.toNat) : Nat) : Int), f',
        dst.blit 0 (fun i => content.getD (f.fdPos.toNat + i) 0)
          (min count (content.length - f.fdPos.toNat))) ∧
      f'.fdPos.toNat = f.fdPos.toNat + min count (content.length - f.fdPos.toNat) ∧
      f'.inode = f.inode := by
  generalize hp : f.fdPos.toNat = pos at hpos hcount hmore hend
  generalize hn : min count (content.length - pos) = n at hend
  have hsize : (if (pos + count) % 2 ^ 32 > f.inode.size then
      (f.inode.size + 2 ^ 32 - pos) % 2 ^ 32 else count) = n := by
    rw [h.size]
    split <;> omega
  have hzero : ¬((pos + count) % 2 ^ 32 > f.inode.size ∧ n = 0) := by
    rw [h.size]
    omega
  -- the last block looked at is at most the one the next write would use
  have hlast : (pos + n) % 2 ^ 32 / 512 ≤ content.length / 512 := by omega
  obtain ⟨blocks, hblocks, hlist⟩ := collectRead_eq v f.inode
    (show pos / 512 ≤ (pos + n) % 2 ^ 32 / 512 by omega) (by omega) (fun h12 => by
      refine ⟨table_of_fileBlock h12 (h.ahead (fun h0 => ?_) _ hlast), h.table⟩
      have hnil := congrArg List.length (h.empty h0)
      rw [List.length_nil] at hnil
      omega)
  obtain ⟨f', hloop, hfd, hino⟩ := readLoop_eq v blocks n f dst 0 (Nat.zero_le _)
    (Nat.le_refl _) (fun j h1 h2 => by
      rw [hp] at h1 h2
      rw [hlist (j / 512) (by omega) (by omega)]
      exact ⟨by omega, h.reach j (by omega)⟩)
  refine ⟨f', ?_, by rw [hfd, hp, Nat.sub_zero], hino⟩
  unfold fileRead
  simp only [hp, hsize, if_neg hzero, hblocks, Option.bind_eq_bind, Option.bind_some,
    ensure_pos (show pos / 512 < 139 ∧ (pos + n) % 2 ^ 32 / 512 < 139 by omega), hloop,
    Option.pure_def]
  congr 2
  · exact if_pos (by omega)
  · congr 1
    funext i
    rw [Nat.sub_zero]
    by_cases hi : i < n
    · rw [Mem.blit_in (by omega) (by omega), Mem.blit_in (by omega) (by omega), Nat.sub_zero,
        getD_of_lt (by omega), ← h.byte (pos + i) (by omega), diskByte, diskByte,
        hlist _ (by omega) (by omega)]
    · rw [Mem.blit_out (by omega), Mem.blit_out (by omega)]

/-! ## One write -/

/-- The buffer of a call, as the bytes it holds. -/
def bytesOf (buf : Mem) (count : Nat) : List UInt8 := (List.range count).map buf

@[simp] theorem length_bytesOf (buf : Mem) (count : Nat) : (bytesOf buf count).length = count := by
  simp [bytesOf]

/-- The written file holds the new bytes after the old ones. -/
theorem FileWritten.holds {v v' : Vol p} {f f' : File} {buf : Mem} {count : Nat}
    {content : List UInt8} (h : FileWritten v f buf count v' f') (hv : Held v f.inode)
    (hc : Holds v f.inode content) : Holds v' f'.inode (content ++ bytesOf buf count) := by
  have hv' := h.ext.held hv
  have hsize := hc.size
  have hroom := h.room
  have hlen : (content ++ bytesOf buf count).length = content.length + count := by simp
  have hold : ∀ k, f.inode.sec 0 ≠ 0 → k ≤ content.length / 512 →
      fileBlock v'.disk f'.inode k = fileBlock v.disk f.inode k := fun k h0 hk =>
    h.keep k (by omega) (hc.ahead h0 k hk)
  have hahead : ∀ k, k ≤ (content.length + count) / 512 → fileBlock v'.disk f'.inode k ≠ 0 := by
    intro k hk
    by_cases hlast : k ≤ content.length / 512
    · by_cases h0 : f.inode.sec 0 = 0
      · rw [hc.empty h0] at hlast
        obtain rfl : k = 0 := by simpa using hlast
        rw [fileBlock_direct _ _ (by decide)]
        exact h.first
      · rw [hold k h0 hlast]
        exact hc.ahead h0 k hlast
    · exact h.new k (by omega) (by omega)
  obtain ⟨hbytes, hfront⟩ := h.bytes (hahead _ (by omega))
  refine ⟨by rw [h.size, hlen, hsize], by rw [hlen]; omega, fun h0 => absurd h0 h.first,
    fun _ k hk => hahead k (by omega), ?_, fun j hj => ?_, fun j hj => ?_⟩
  · rcases h.table with ht | ht
    · rw [ht]
      exact hc.table
    · exact ht
  · rw [hlen] at hj
    by_cases hlt : j < content.length
    · have h0 : f.inode.sec 0 ≠ 0 := fun h0 => by simp [hc.empty h0] at hlt
      rw [hold _ h0 (by omega)]
      exact hc.reach j hlt
    · exact h.reach j (by omega) (by omega)
  · rw [hlen] at hj
    by_cases hlt : j < content.length
    · have h0 : f.inode.sec 0 ≠ 0 := fun h0 => by simp [hc.empty h0] at hlt
      rw [List.getElem_append_left hlt, ← hc.byte j hlt, diskByte, diskByte]
      obtain ⟨hge, hne⟩ := hv'.block (by omega) (hahead (j / 512) (by omega))
      rw [← hold _ h0 (by omega)]
      rcases Nat.lt_or_ge (j / 512) (content.length / 512) with hk | hk
      · have hdiv : (512 * fileBlock v'.disk f'.inode (j / 512) + j % 512) / 512 =
            fileBlock v'.disk f'.inode (j / 512) := by omega
        have hpos := dataStartLba_pos p
        refine h.frame _ (not_metaAddr_of_data (by omega)) (by omega) (by omega)
          fun k h1 h2 he => ?_
        rw [hdiv] at he
        have := hv'.block_inj (by omega) (by omega) (hahead k (by omega)) he
        omega
      · have hf := hfront (j % 512) (by omega)
        rw [show f.inode.size / 512 = j / 512 by omega] at hf
        exact hf
    · rw [List.getElem_append_right (by omega), diskByte, hbytes j (by omega) (by omega)]
      simp [bytesOf, hsize]

/-- A file keeps what it holds while another one is written. -/
theorem Holds.other {v v' : Vol p} {i j : Inode} {i' : Option Inode} {content : List UInt8}
    (h : Holds v j content) (hr : Rewrites v i v' i') (hv : Held v j)
    (hij : ∀ k l, slot v.disk j k ≠ 0 → slot v.disk i l ≠ slot v.disk j k) :
    Holds v' j content := by
  have hroom := h.room
  have hslot : ∀ k, slot v'.disk j k = slot v.disk j k := hr.slot_other
    (fun hne => by have := hv.used 140; rw [slot_table] at this; exact this hne)
    (fun hne k => by have := hij 140 k; rw [slot_table] at this; exact this hne)
  have hblock : ∀ k, k < 140 → fileBlock v'.disk j k = fileBlock v.disk j k := fun k hk => by
    rw [← slot_block _ _ hk, ← slot_block _ _ hk]
    exact hslot k
  refine ⟨h.size, h.room, h.empty, fun h0 k hk => ?_, h.table, fun k hk => ?_, fun k hk => ?_⟩
  · rw [hblock k (by omega)]
    exact h.ahead h0 k hk
  · rw [hblock _ (by omega)]
    exact h.reach k hk
  · have hnz := h.nonzero hk
    rw [← h.byte k hk, diskByte, diskByte, hblock _ (by omega)]
    rw [← slot_block v.disk j (by omega)] at hnz ⊢
    exact hr.bytes_other hnz (hv.used _ hnz) (fun l => hij _ l hnz) (by omega)

/-! ## Runs -/

/-- A volume and the inodes of the files on it, whatever they are named by. -/
structure Store (N : Type) (p : Partition) where
  vol : Vol p
  inode : N → Inode

/-- A call of `file_write`: any `struct file` on the inode of `file`. -/
structure WriteOp (N : Type) where
  file : N
  fdPos : UInt32
  fdFlag : UInt32
  buf : Mem
  count : Nat

/-- The bytes the calls on file `n` were given, one after the other. -/
def contents {N : Type} [DecidableEq N] (ops : List (WriteOp N)) (n : N) : List UInt8 :=
  (ops.filter (·.file = n)).flatMap fun op => bytesOf op.buf op.count

section Runs

variable {N : Type} [DecidableEq N]

/-- One call that succeeds. -/
def Store.write (s : Store N p) (op : WriteOp N) : Option (Store N p) := do
  let (r, vol, f) ← fileWrite s.vol ⟨op.fdPos, op.fdFlag, s.inode op.file⟩ op.buf op.count
  ensure (r ≠ -1)
  return { vol, inode := fun n => if n = op.file then f.inode else s.inode n }

/-- A sequence of calls that all succeed. -/
def Store.writes (s : Store N p) (ops : List (WriteOp N)) : Option (Store N p) :=
  ops.foldlM Store.write s

/-- The files hold `content` and share no block. -/
structure Store.Inv (s : Store N p) (content : N → List UInt8) : Prop where
  owned : Owned s.vol fun n => some (s.inode n)
  holds : ∀ n, Holds s.vol (s.inode n) (content n)

theorem Store.write_inv {s s' : Store N p} {op : WriteOp N} {content : N → List UInt8}
    (h : s.write op = some s') (hs : s.Inv content) :
    s'.Inv fun n => if n = op.file then content n ++ bytesOf op.buf op.count else content n := by
  unfold Store.write at h
  simp only [Option.bind_eq_bind, Option.bind_eq_some_iff, Prod.exists, ensure_eq_some,
    exists_const, Option.pure_def, Option.some.injEq] at h
  obtain ⟨r, v', f', hw, hr, rfl⟩ := h
  have hheld : ∀ n, Held s.vol (s.inode n) := fun n => hs.owned.held rfl
  rcases fileWrite_spec (hheld op.file) hw with ⟨h1, -, -⟩ | ⟨-, hw⟩
  · exact absurd h1 hr
  · have hrw := hw.rewrites (hheld op.file)
    refine ⟨Rewrites.owned (n := op.file) (i := s.inode op.file) ?_ rfl (fun m hm => ?_) hs.owned,
      fun n => ?_⟩ <;> dsimp only
    · rw [if_pos rfl]
      exact hrw
    · rw [if_neg hm]
    · by_cases hn : n = op.file
      · subst hn
        rw [if_pos rfl, if_pos rfl]
        exact hw.holds (hheld op.file) (hs.holds op.file)
      · rw [if_neg hn, if_neg hn]
        refine (hs.holds n).other hrw (hheld n) fun k l hne he => hn ?_
        exact congrArg Prod.fst (hs.owned.inj (n, k) (op.file, l) he.symm hne)

theorem Store.writes_inv : ∀ {ops : List (WriteOp N)} {s s' : Store N p} {content : N → List UInt8},
    s.writes ops = some s' → s.Inv content → s'.Inv fun n => content n ++ contents ops n := by
  intro ops
  induction ops with
  | nil =>
    intro s s' content h hs
    obtain rfl := Option.some.inj h
    simpa [contents] using hs
  | cons op ops ih =>
    intro s s' content h hs
    simp only [Store.writes, List.foldlM_cons, Option.bind_eq_bind, Option.bind_eq_some_iff] at h
    obtain ⟨s1, h1, h⟩ := h
    have hinv := ih h (Store.write_inv h1 hs)
    have hc : (fun n => (if n = op.file then content n ++ bytesOf op.buf op.count else content n) ++
        contents ops n) = fun n => content n ++ contents (op :: ops) n := by
      funext n
      by_cases hn : op.file = n
      · subst hn
        simp [contents]
      · simp [contents, hn, Ne.symm hn]
    rw [hc] at hinv
    exact hinv

/-- A file as `file_create` leaves it, before its first byte. -/
def Created (ino : Inode) : Prop := ∃ no old, ino = Inode.inodeInit no old

theorem Created.sec {ino : Inode} (h : Created ino) (k : Nat) : ino.sec k = 0 := by
  obtain ⟨no, old, rfl⟩ := h
  unfold Inode.sec
  split <;> rfl

theorem Created.slot {ino : Inode} (h : Created ino) (disk : Mem) (k : Nat) :
    slot disk ino k = 0 := by
  unfold Fs.slot
  split
  · exact h.sec 12
  · unfold fileBlock
    split
    · exact h.sec k
    · rw [if_neg (by simp [h.sec 12])]

theorem Created.holds {ino : Inode} (h : Created ino) (v : Vol p) : Holds v ino [] := by
  refine ⟨?_, by decide, fun _ => rfl, fun h0 => absurd (h.sec 0) h0, by rw [h.sec]; decide,
    fun j hj => absurd hj (by simp), fun j hj => absurd hj (by simp)⟩
  obtain ⟨no, old, rfl⟩ := h
  rfl

/-- Seek to `pos` on descriptor `fd`, then read `count` bytes into `dst`. -/
def readAt (v : Vol p) (fdTable : Nat → Int) (fileTable : Nat → File) (fd : Int) (pos : Nat)
    (count : Nat) (dst : Mem) : Option (Int × Int × Mem) := do
  let (newPos, fileTable) ← sysLseek fdTable fileTable fd pos .seekSet
  let g ← fdLocal2global fdTable fd.toNat
  let (r, _, dst) ← fileRead v (fileTable g) dst count
  return (newPos, r, dst)

theorem readAt_holds {v : Vol p} {fdTable : Nat → Int} {fileTable : Nat → File}
    {fd g pos count : Nat} {content : List UInt8} (dst : Mem) (hg : fdTable fd = g) (hg32 : g < 32)
    (h : Holds v (fileTable g).inode content) (hlen : content.length < 139 * 512)
    (hpos : pos < content.length) (hcount : pos + count < 2 ^ 32) :
    readAt v fdTable fileTable fd pos count dst = some ((pos : Int),
      ((min count (content.length - pos) : Nat) : Int),
      dst.blit 0 (fun i => content.getD (pos + i) 0) (min count (content.length - pos))) := by
  have hglob : fdLocal2global fdTable fd = some g := by
    simp only [fdLocal2global, hg, Int.toNat_natCast]
    rw [ensure_pos (by omega)]
    rfl
  have hsz : toInt32 (fileTable g).inode.size = content.length := by
    rw [h.size, toInt32, if_pos (by omega)]
  have hseek : lseek (fileTable g) pos .seekSet =
      ((pos : Int), ⟨UInt32.ofNat pos, (fileTable g).fdFlag, (fileTable g).inode⟩) := by
    simp only [lseek, hsz, Int.toNat_natCast]
    rw [if_neg (by omega)]
  have hfd : (UInt32.ofNat pos).toNat = pos := by
    rw [UInt32.toNat_ofNat']
    omega
  obtain ⟨f', hread, -, -⟩ := fileRead_within
    (f := ⟨UInt32.ofNat pos, (fileTable g).fdFlag, (fileTable g).inode⟩) dst count h
    (by rw [hfd]; omega) (by rw [hfd]; exact hcount) (fun _ => by rw [hfd]; exact hpos)
    (by rw [hfd]; omega)
  dsimp only at hread
  rw [hfd] at hread
  simp only [readAt, sysLseek, Int.toNat_natCast, hglob, Option.bind_eq_bind, Option.bind_some,
    if_neg (show ¬((fd : Int) < 0) by omega), Option.pure_def, hseek, if_true, hread]

/-- **File contents round trip.** Files are created, then any sequence of
successful writes goes to them in any order. A file whose length stayed below
139 blocks is read back, from every position in it, as exactly the bytes
written to it, and one more write to another file changes nothing of that. -/
theorem file_contents_round_trip {s s' : Store N p} {ops : List (WriteOp N)}
    (hnew : ∀ n, Created (s.inode n)) (hrun : s.writes ops = some s') (n : N)
    (hlen : (contents ops n).length < 139 * 512) (fdTable : Nat → Int) (fileTable : Nat → File)
    (fd g : Nat) (hfd : fdTable fd = g) (hg : g < 32) (hfile : (fileTable g).inode = s'.inode n)
    (pos count : Nat) (hpos : pos < (contents ops n).length) (hcount : pos + count < 2 ^ 32)
    (dst : Mem) :
    readAt s'.vol fdTable fileTable fd pos count dst = some ((pos : Int),
      ((min count ((contents ops n).length - pos) : Nat) : Int),
      dst.blit 0 (fun i => (contents ops n).getD (pos + i) 0)
        (min count ((contents ops n).length - pos))) ∧
    ∀ op s'', op.file ≠ n → s'.write op = some s'' → s''.inode n = s'.inode n ∧
      readAt s''.vol fdTable fileTable fd pos count dst =
        readAt s'.vol fdTable fileTable fd pos count dst := by
  have hinit : s.Inv fun _ => [] := by
    refine ⟨⟨fun _ _ _ hne => absurd ?_ hne, fun _ hne => absurd ?_ hne⟩, fun n => (hnew n).holds _⟩
    · exact (hnew _).slot _ _
    · exact (hnew _).slot _ _
  have hinv := Store.writes_inv hrun hinit
  have hread := readAt_holds dst hfd hg (by rw [hfile]; exact hinv.holds n) hlen hpos hcount
  refine ⟨hread, fun op s'' hne hop => ?_⟩
  have hother : s''.inode n = s'.inode n := by
    unfold Store.write at hop
    simp only [Option.bind_eq_bind, Option.bind_eq_some_iff, Prod.exists, Option.pure_def,
      Option.some.injEq] at hop
    obtain ⟨r, v', f', -, -, -, rfl⟩ := hop
    exact if_neg hne.symm
  have hholds := (Store.write_inv hop hinv).holds n
  rw [if_neg hne.symm, hother] at hholds
  refine ⟨hother, ?_⟩
  rw [hread]
  exact readAt_holds dst hfd hg (by rw [hfile]; exact hholds) hlen hpos hcount

end Runs

/-- Two files on a small volume whose first block is taken. -/
def twoFiles : Store Bool blankPartition where
  vol := blankVol.setBlock 0 true
  inode _ := blankInode 7

/-- Three bytes to one file, two to the other, one more to the first. -/
def someWrites : List (WriteOp Bool) :=
  [⟨true, 0, 0, fun i => UInt8.ofNat (i + 1), 3⟩, ⟨false, 0, 0, fun _ => 9, 2⟩,
    ⟨true, 0, 0, fun _ => 5, 1⟩]

theorem file_contents_round_trip_two_files :
    ∃ s' dst, twoFiles.writes someWrites = some s' ∧ contents someWrites true = [1, 2, 3, 5] ∧
      readAt s'.vol (fun _ => 3) (fun _ => ⟨0, 0, s'.inode true⟩) (3 : Nat) 1 10 Mem.zero =
        some (((1 : Nat) : Int), ((3 : Nat) : Int), dst) ∧
      dst 0 = 2 ∧ dst 1 = 3 ∧ dst 2 = 5 ∧ dst 3 = 0 := by
  have hsome : (twoFiles.writes someWrites).isSome = true := by decide +kernel
  obtain ⟨s', hs'⟩ := Option.isSome_iff_exists.mp hsome
  have hread := (file_contents_round_trip (fun _ => ⟨7, _, rfl⟩) hs' true (by decide)
    (fun _ => 3) (fun _ => ⟨0, 0, s'.inode true⟩) 3 3 rfl (by decide) rfl 1 10 (by decide)
    (by decide) Mem.zero).1
  exact ⟨s', _, hs', by decide, hread, by decide, by decide, by decide, by decide⟩

end OsCore.Fs
