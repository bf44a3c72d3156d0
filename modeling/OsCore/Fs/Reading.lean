import OsCore.Fs.Descriptors
import OsCore.Fs.WriteLimits

/-!
# A file that is read through its descriptor

`OnFile` ties a descriptor to the bytes of its file and to the position it is at.
`sys_lseek` to an offset behind the end leaves the position where it is
(`seekTo`), and `sys_read` takes what is left of the file, up to the count; both
answers can be told from the position alone. So a caller that looks at neither, as
`segment_load` does, reads from wherever the last read has ended.
-/

namespace OsCore.Fs

open OsCore.Lib

variable {p : Partition}

/-- `sys_read(fd, buf, count)` by task `t`, into a buffer of zeros. The keyboard and
pipes end the model. -/
def FileSys.sysRead (k : FileSys p) (t : Nat) (fd : Int) (count : Nat) :
    Option (Int × Mem × FileSys p) := do
  if fd < 0 ∨ fd = 1 ∨ fd = 2 then return (-1, Mem.zero, k)
  ensure (2 < fd ∧ fd < 8)
  let globalFd ← fdLocal2global (k.pcb t).fdTable fd.toNat
  let file := k.fileTable globalFd
  ensure (file.fdFlag ≠ pipeFlag)
  let inode ← k.part.inodeAt file.fdInode
  let (ret, f, buf) ← fileRead k.part.vol ⟨file.fdPos, file.fdFlag, inode⟩ Mem.zero count
  return (ret, buf, k.setSlot globalFd { file with fdPos := f.fdPos })

/-- Where `sys_lseek(fd, off, SEEK_SET)` leaves a file that was at `pos`. -/
def seekTo (content : List UInt8) (pos off : Nat) : Nat :=
  if off < content.length then off else pos

/-- What `sys_read` takes at `pos`. -/
def taken (content : List UInt8) (pos count : Nat) : List UInt8 := (content.drop pos).take count

/-- Descriptor `fd` of task `t` is on entry `g` of `file_table`, which is for a regular
file that holds `content` and is at `pos`. -/
structure OnFile (k : FileSys p) (t : Nat) (fd : Int) (g : Nat) (ino : Inode)
    (content : List UInt8) (pos : Nat) : Prop where
  low : 2 < fd
  high : fd < 8
  slot : (k.pcb t).fdTable fd.toNat = g
  lt : g < 32
  flag : (k.fileTable g).fdFlag ≠ pipeFlag
  at' : (k.fileTable g).fdPos.toNat = pos
  inode : k.part.inodeAt (k.fileTable g).fdInode = some ino
  holds : Holds k.part.vol ino content
  inside : pos ≤ content.length

section

variable {k k' : FileSys p} {t g : Nat} {fd : Int} {ino : Inode} {content : List UInt8} {pos : Nat}

theorem Holds.length_lt {v : Vol p} (h : Holds v ino content) : content.length < 71680 := by
  have := h.room
  omega

theorem OnFile.local2global (h : OnFile k t fd g ino content pos) :
    fdLocal2global (k.pcb t).fdTable fd.toNat = some g := by
  have hlt := h.lt
  simp only [fdLocal2global, h.slot]
  rw [ensure_pos ⟨by omega, by omega⟩]
  simp

theorem OnFile.pointee (h : OnFile k t fd g ino content pos) : k.pointee g = some ino := by
  rw [FileSys.pointee, if_neg (fun hc => h.flag hc.1), h.inode]

/-- The same file at another position. -/
theorem OnFile.moved (h : OnFile k t fd g ino content pos) {q : UInt32}
    (hpos : q.toNat ≤ content.length) :
    OnFile (k.setSlot g { k.fileTable g with fdPos := q }) t fd g ino content q.toNat where
  low := h.low
  high := h.high
  slot := h.slot
  lt := h.lt
  flag := by simpa [FileSys.setSlot] using h.flag
  at' := by simp [FileSys.setSlot]
  inode := by simpa [FileSys.setSlot] using h.inode
  holds := h.holds
  inside := hpos

/-- **`sys_lseek` from the start of the file.** -/
theorem OnFile.seek (h : OnFile k t fd g ino content pos) {off : Nat} (hoff : off < 2 ^ 32) :
    ∃ r k', k.sysLseek t fd (toInt32 off) .seekSet = some (r, k') ∧ k'.part = k.part ∧
      k'.pcb = k.pcb ∧ OnFile k' t fd g ino content (seekTo content pos off) := by
  have hlow := h.low
  have hlen := h.holds.length_lt
  have hsize : toInt32 ino.size = content.length := by
    rw [h.holds.size, toInt32, if_pos (by omega)]
  have hglobal := h.local2global
  have hpointee := h.pointee
  unfold FileSys.sysLseek
  rw [if_neg (by omega), ensure_pos h.high]
  simp only [Option.bind_eq_bind, Option.bind_some, hglobal, hpointee, lseek, hsize]
  by_cases hin : off < content.length
  · have hint : toInt32 off = off := if_pos (by omega)
    have hto : (UInt32.ofNat off).toNat = off := by
      rw [UInt32.toNat_ofNat']
      omega
    rw [hint, if_neg (by omega)]
    have hmoved := h.moved (q := UInt32.ofNat off) (by omega)
    rw [hto] at hmoved
    refine ⟨off, _, rfl, rfl, rfl, ?_⟩
    rw [seekTo, if_pos hin]
    exact hmoved
  · have hbad : toInt32 off < 0 ∨ toInt32 off > (content.length : Int) - 1 := by
      unfold toInt32
      split <;> omega
    rw [if_pos hbad]
    have hmoved := h.moved (q := (k.fileTable g).fdPos) (by rw [h.at']; exact h.inside)
    rw [h.at'] at hmoved
    refine ⟨-1, _, rfl, rfl, rfl, ?_⟩
    rw [seekTo, if_neg hin]
    exact hmoved

theorem length_taken (content : List UInt8) (pos count : Nat) :
    (taken content pos count).length = min count (content.length - pos) := by
  simp [taken]

/-- **`sys_read`**: what is left of the file, up to the count. -/
theorem OnFile.read (h : OnFile k t fd g ino content pos) {count : Nat} (hcount : count < 2 ^ 32)
    {r : Int} {buf : Mem} (hrun : k.sysRead t fd count = some (r, buf, k')) :
    (r = if 0 < count ∧ pos = content.length then -1 else ((taken content pos count).length : Int)) ∧
      bytesOf buf r.toNat = taken content pos count ∧ k'.part = k.part ∧ k'.pcb = k.pcb ∧
      OnFile k' t fd g ino content (pos + (taken content pos count).length) := by
  have hlow := h.low
  have hlen := h.holds.length_lt
  have hin := h.inside
  have hsize := h.holds.size
  simp only [FileSys.sysRead, if_neg (show ¬(fd < 0 ∨ fd = 1 ∨ fd = 2) by omega),
    Option.bind_eq_bind, Option.bind_eq_some_iff, ensure_eq_some, Option.pure_def,
    Option.some.injEq, Prod.mk.injEq, Prod.exists, exists_const] at hrun
  obtain ⟨-, g', hg', -, ino', hino', r', f', buf', hread, rfl, rfl, rfl⟩ := hrun
  rw [h.local2global] at hg'
  obtain rfl := Option.some.inj hg'
  rw [h.inode] at hino'
  obtain rfl := Option.some.inj hino'
  rw [length_taken]
  by_cases hend : 0 < count ∧ pos = content.length
  · -- the end of the file
    have hword := (readable_of_fileRead hread (by dsimp only; rw [h.at', hsize]; omega)
      (by dsimp only; omega) hcount).1
    dsimp only at hword
    rw [h.at'] at hword
    have hover : (pos + count) % 2 ^ 32 > ino.size := by omega
    have hzero : (ino.size + 2 ^ 32 - pos) % 2 ^ 32 = 0 := by omega
    simp only [fileRead, h.at', hzero, hover, and_self, if_true, Option.pure_def,
      Option.some.injEq, Prod.mk.injEq] at hread
    obtain ⟨rfl, rfl, rfl⟩ := hread
    have hmoved := h.moved (q := (k.fileTable g).fdPos) (by rw [h.at']; exact hin)
    rw [h.at'] at hmoved
    refine ⟨by rw [if_pos hend], ?_, rfl, rfl, ?_⟩
    · have hnil : taken content pos count = [] := by
        rw [← List.length_eq_zero_iff, length_taken]
        omega
      rw [hnil]
      rfl
    · rw [show pos + min count (content.length - pos) = pos by omega]
      exact hmoved
  · obtain ⟨hword, hroom⟩ := readable_of_fileRead hread (by dsimp only; rw [h.at', hsize]; omega)
      (by dsimp only; omega) hcount
    dsimp only at hword hroom
    rw [h.at'] at hword hroom
    rw [hsize] at hroom
    obtain ⟨f, hf, hfd, -⟩ := fileRead_within (f := ⟨(k.fileTable g).fdPos,
      (k.fileTable g).fdFlag, ino⟩) Mem.zero count h.holds (by dsimp only; rw [h.at']; exact hin)
      (by dsimp only; rw [h.at']; exact hword) (by dsimp only; rw [h.at']; omega)
      (by dsimp only; rw [h.at']; omega)
    dsimp only at hf hfd
    rw [h.at'] at hf hfd
    rw [hf, Option.some.injEq, Prod.mk.injEq, Prod.mk.injEq] at hread
    obtain ⟨rfl, rfl, rfl⟩ := hread
    have hmoved := h.moved (q := f.fdPos) (by rw [hfd]; omega)
    rw [hfd] at hmoved
    refine ⟨by rw [if_neg hend], ?_, rfl, rfl, hmoved⟩
    refine List.ext_getElem ?_ fun i h1 h2 => ?_
    · rw [length_bytesOf, length_taken, Int.toNat_natCast]
    · rw [length_bytesOf, Int.toNat_natCast] at h1
      rw [length_taken] at h2
      simp only [bytesOf, List.getElem_map, List.getElem_range, taken, List.getElem_take,
        List.getElem_drop]
      rw [Mem.blit_in (by omega) (by omega), Nat.sub_zero, getD_of_lt (by omega)]

/-- `sys_close` of a file empties its place in the table. -/
theorem OnFile.close (h : OnFile k t fd g ino content pos) {r : Int}
    (hclose : sysClose k t fd = some (r, k')) : k'.pcb = (k.setFd t fd.toNat (-1)).pcb := by
  have hlow := h.low
  cases sysClose_cases hclose with
  | std hstd => omega
  | pipe i g' hi _ _ hslot hpipe =>
    subst hi
    have hg : (g' : Int) = g := hslot.symm.trans h.slot
    rw [Int.ofNat.inj hg] at hpipe
    exact absurd hpipe h.flag
  | file i g' r' k1 hi _ _ _ _ hfile heq =>
    subst hi
    subst heq
    simp only [fileClose, Option.bind_eq_bind, Option.bind_eq_some_iff, Option.pure_def,
      Option.some.injEq, Prod.mk.injEq] at hfile
    obtain ⟨-, -, k2, hk2, -, rfl⟩ := hfile
    obtain ⟨-, part, -, rfl⟩ := FileSys.inodeClose_eq hk2
    rfl

end

end OsCore.Fs
