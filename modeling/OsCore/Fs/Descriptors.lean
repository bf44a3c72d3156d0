import OsCore.Fs.Syscalls
import OsCore.Thread.Sync

/-!
# Descriptors that are shared (`shell/pipe.c`, `userprog/fork.c`, `userprog/wait_exit.c`)

`sys_fork` copies the descriptor table, so that two processes come to share an
entry of `file_table`. What counts the sharers depends on the kind of the entry.
A pipe keeps their number in `fd_pos`, which a file uses for its position; a
regular file counts them in its inode only, and `file_close` empties the entry
whoever else has a descriptor for it.

A descriptor is a pair of a task and a place `3 ≤ i < 8` in its table. `Sound` is
what holds of the entries and a set of descriptors: descriptors point to occupied
entries, and a pipe counts its descriptors, or up to `slack` more. It is stated
for any set, since `sys_fork` and `sys_exit` work through a table one descriptor at
a time: `Sound.take` and `Sound.drop` are one round of their loops.

Tasks go by the page number of their PCB, so there are fewer than `2 ^ 20`.
-/

namespace OsCore.Fs

open OsCore.Lib

variable {p : Partition}

/-! ## The calls -/

/-- `sys_pipe` by task `t`, with the page `get_kernel_pages` answers: the two
descriptors. Without a free entry the code stores in front of `file_table`, and a
page of `NULL` is written to before it is looked at; both end the model. -/
def sysPipe (k : FileSys p) (t page : Nat) : Option (Int × Int × FileSys p) := do
  let globalFd ← k.getFreeSlotInGlobal
  ensure (page ≠ 0)
  let k := k.setSlot globalFd ⟨2, pipeFlag, page⟩
  let (fd0, k) := k.pcbFdInstall t globalFd
  let (fd1, k) := k.pcbFdInstall t globalFd
  return (fd0, fd1, k)

/-- `update_inode_open_cnts(child)` while `t` runs: `n` descriptors from `localFd`
on. -/
def updateInodeOpenCnts (t child : Nat) : Nat → Nat → FileSys p → Option (FileSys p)
  | 0, _, k => some k
  | n + 1, localFd, k => do
    let globalFd := (k.pcb child).fdTable localFd
    ensure (globalFd < 32)
    if globalFd = -1 then updateInodeOpenCnts t child n (localFd + 1) k
    else
      -- `is_pipe` goes by the table of the task that runs
      let g ← fdLocal2global (k.pcb t).fdTable localFd
      let file := k.fileTable globalFd.toNat
      if (k.fileTable g).fdFlag = pipeFlag then
        updateInodeOpenCnts t child n (localFd + 1)
          (k.setSlot globalFd.toNat { file with fdPos := file.fdPos + 1 })
      else
        let part := k.part.modifyInode file.fdInode fun i => i.setOpenCnts (i.iOpenCnts.toNat + 1)
        updateInodeOpenCnts t child n (localFd + 1) { k with part }

/-- `sys_fork` by task `t`: the part of `copy_process` that concerns files. When a
request for pages is refused it does not come to that. -/
def sysFork (k : FileSys p) (t child : Nat) (granted : Bool) : Option (FileSys p) := do
  ensure ((k.pcb t).isProcess = true)
  if granted then
    let k ← updateInodeOpenCnts t child 5 3
      { k with pcb := Function.update k.pcb child (k.pcb t) }
    return { k with live := insert child k.live }
  else return k

/-- The loop over the descriptors in `release_prog_resource(t)`, where `t` is the
task that runs: `n` of them from `fdIdx` on. -/
def releaseFiles (t : Nat) : Nat → Nat → FileSys p → Option (FileSys p)
  | 0, _, k => some k
  | n + 1, fdIdx, k =>
    if (k.pcb t).fdTable fdIdx ≠ -1 then do
      let globalFd ← fdLocal2global (k.pcb t).fdTable fdIdx
      let file := k.fileTable globalFd
      if file.fdFlag = pipeFlag then
        let fdPos := file.fdPos - 1
        let fdInode := if fdPos = 0 then 0 else file.fdInode
        releaseFiles t n (fdIdx + 1) (k.setSlot globalFd { file with fdPos, fdInode })
      else
        let (_, k) ← sysClose k t fdIdx
        releaseFiles t n (fdIdx + 1) k
    else releaseFiles t n (fdIdx + 1) k

/-- `sys_exit` by task `t`, as far as it concerns files. -/
def sysExit (k : FileSys p) (t : Nat) : Option (FileSys p) := do
  let k ← releaseFiles t 5 3 k
  return { k with live := k.live.erase t }

/-- The page of a pipe read as a `struct inode`, as long as nobody holds the lock
at its front: `i_size` is where the value of the lock's semaphore is. -/
def pipeInode : Inode := (newInode 0).setSize Thread.lockInit.semaphore.value

/-- What `fd_inode` of entry `g` points to. -/
def FileSys.pointee (k : FileSys p) (g : Nat) : Option Inode :=
  if (k.fileTable g).fdFlag = pipeFlag ∧ (k.fileTable g).fdInode ≠ 0 then some pipeInode
  else k.part.inodeAt (k.fileTable g).fdInode

/-- `sys_lseek(fd, offset, whence)` by task `t`. -/
def FileSys.sysLseek (k : FileSys p) (t : Nat) (fd offset : Int) (whence : Whence) :
    Option (Int × FileSys p) := do
  if fd < 0 then return (-1, k)
  ensure (fd < 8)
  let globalFd ← fdLocal2global (k.pcb t).fdTable fd.toNat
  let file := k.fileTable globalFd
  let inode ← k.pointee globalFd
  let (newPos, pf) := lseek ⟨file.fdPos, file.fdFlag, inode⟩ offset whence
  return (newPos, k.setSlot globalFd { file with fdPos := pf.fdPos })

/-! ## Entries and their descriptors -/

/-- As many pages as an address space has. -/
def pages : Nat := 2 ^ 20

/-- Entries and a set `D` of descriptors fit together; a pipe counts between as
many descriptors as there are and `slack` more. -/
structure Sound (slack : Nat) (D : Finset (Nat × Nat)) (table : Nat → FileSlot)
    (fd : Nat × Nat → Int) : Prop where
  small : ∀ x ∈ D, x.1 < pages ∧ 3 ≤ x.2 ∧ x.2 < 8
  fds : ∀ x ∈ D, fd x = -1 ∨ ∃ g : Nat, fd x = g ∧ 3 ≤ g ∧ g < 32 ∧ (table g).fdInode ≠ 0
  pipes : ∀ g : Nat, (table g).fdInode ≠ 0 → (table g).fdFlag = pipeFlag →
    0 < (table g).fdPos.toNat ∧ (holders D fd (g : Int)).card ≤ (table g).fdPos.toNat ∧
      (table g).fdPos.toNat ≤ (holders D fd (g : Int)).card + slack
  own : ∀ x ∈ D, ∀ y ∈ D, ∀ g : Nat, x.1 = y.1 → fd x = g → fd y = g →
    (table g).fdFlag ≠ pipeFlag → x = y

namespace Sound

variable {slack : Nat} {D : Finset (Nat × Nat)} {table : Nat → FileSlot} {fd : Nat × Nat → Int}
  (h : Sound slack D table fd)

include h

theorem card_le (g : Int) : (holders D fd g).card ≤ pages * 5 := by
  have hsub : ∀ n, (∀ x ∈ D, x.1 < n ∧ 3 ≤ x.2 ∧ x.2 < 8) → D.card ≤ n * 5 := by
    intro n hn
    have hle : D ⊆ Finset.range n ×ˢ Finset.Ico 3 8 := fun x hx =>
      Finset.mem_product.mpr ⟨Finset.mem_range.mpr (hn x hx).1, Finset.mem_Ico.mpr (hn x hx).2⟩
    refine (Finset.card_le_card hle).trans_eq ?_
    rw [Finset.card_product, Finset.card_range, Nat.card_Ico]
  exact (Finset.card_filter_le _ _).trans (hsub pages h.small)

/-- Nobody has a descriptor for a free entry. -/
theorem not_held {g : Nat} (hg : (table g).fdInode = 0) {x : Nat × Nat} (hx : x ∈ D) :
    fd x ≠ g := by
  intro hfd
  rcases h.fds x hx with h1 | ⟨g', heq, -, -, hocc⟩
  · omega
  · obtain rfl : g' = g := by omega
    exact hocc hg

theorem card_free {g : Nat} (hg : (table g).fdInode = 0) : (holders D fd (g : Int)).card = 0 :=
  card_holders_eq_zero.mpr fun _ hx => h.not_held hg hx

theorem congr_fd {fd' : Nat × Nat → Int} (hfd : ∀ x ∈ D, fd' x = fd x) :
    Sound slack D table fd' := by
  refine ⟨h.small, fun x hx => ?_, fun g hocc hpipe => ?_, fun x hx y hy g hxy hgx hgy => ?_⟩
  · rw [hfd x hx]
    exact h.fds x hx
  · rw [holders_congr hfd]
    exact h.pipes g hocc hpipe
  · rw [hfd x hx] at hgx
    rw [hfd y hy] at hgy
    exact h.own x hx y hy g hxy hgx hgy

/-- **A free entry is filled**, for descriptors that were for nothing. -/
theorem fill {g : Nat} {f : FileSlot} {fd' : Nat × Nat → Int} (h3 : 3 ≤ g) (h32 : g < 32)
    (hfree : (table g).fdInode = 0) (hocc : f.fdInode ≠ 0)
    (hfd : ∀ x ∈ D, fd' x = fd x ∨ fd x = -1 ∧ fd' x = g)
    (hpipe : f.fdFlag = pipeFlag → 0 < f.fdPos.toNat ∧
      (holders D fd' (g : Int)).card ≤ f.fdPos.toNat ∧
      f.fdPos.toNat ≤ (holders D fd' (g : Int)).card + slack)
    (hfile : f.fdFlag ≠ pipeFlag → ∀ x ∈ D, ∀ y ∈ D, fd' x = g → fd' y = g → x = y) :
    Sound slack D (Function.update table g f) fd' := by
  -- the descriptors of another entry stay what they are
  have hback : ∀ x ∈ D, ∀ g' : Nat, g' ≠ g → (fd' x = g' ↔ fd x = g') := by
    intro x hx g' hne
    rcases hfd x hx with heq | ⟨h1, heq⟩
    · rw [heq]
    · rw [h1, heq]
      omega
  refine ⟨h.small, fun x hx => ?_, fun g' hocc' hpipe' => ?_,
    fun x hx y hy g' hxy hgx hgy hreg => ?_⟩
  · rcases hfd x hx with heq | ⟨-, heq⟩
    · rw [heq]
      rcases h.fds x hx with h1 | ⟨g', hg', h3', h32', hocc'⟩
      · exact Or.inl h1
      · have hne : g' ≠ g := fun he => hocc' (he ▸ hfree)
        refine Or.inr ⟨g', hg', h3', h32', ?_⟩
        rw [Function.update_of_ne hne]
        exact hocc'
    · refine Or.inr ⟨g, heq, h3, h32, ?_⟩
      rw [Function.update_self]
      exact hocc
  · by_cases he : g' = g
    · rw [he, Function.update_self] at hpipe' ⊢
      exact hpipe hpipe'
    · rw [Function.update_of_ne he] at hocc' hpipe' ⊢
      have hcard : holders D fd' (g' : Int) = holders D fd (g' : Int) :=
        Finset.filter_congr fun x hx => hback x hx g' he
      rw [hcard]
      exact h.pipes g' hocc' hpipe'
  · by_cases he : g' = g
    · rw [he, Function.update_self] at hreg
      rw [he] at hgx hgy
      exact hfile hreg x hx y hy hgx hgy
    · rw [Function.update_of_ne he] at hreg
      exact h.own x hx y hy g' hxy ((hback x hx g' he).mp hgx) ((hback y hy g' he).mp hgy) hreg

/-- One descriptor more, that is for nothing. -/
theorem take_none {x : Nat × Nat} (hsmall : x.1 < pages ∧ 3 ≤ x.2 ∧ x.2 < 8) (hfd : fd x = -1) :
    Sound slack (insert x D) table fd := by
  by_cases hx : x ∈ D
  · rw [Finset.insert_eq_of_mem hx]
    exact h
  refine ⟨fun y hy => ?_, fun y hy => ?_, fun g hocc hpipe => ?_, fun y hy z hz g hyz hgy hgz => ?_⟩
  · rcases Finset.mem_insert.mp hy with rfl | hy
    · exact hsmall
    · exact h.small y hy
  · rcases Finset.mem_insert.mp hy with rfl | hy
    · exact Or.inl hfd
    · exact h.fds y hy
  · rw [card_holders_insert hx, if_neg (by omega), Nat.add_zero]
    exact h.pipes g hocc hpipe
  · rcases Finset.mem_insert.mp hy with rfl | hy
    · omega
    · rcases Finset.mem_insert.mp hz with rfl | hz
      · omega
      · exact h.own y hy z hz g hyz hgy hgz

/-- **One descriptor more** for an entry: a pipe counts it. -/
theorem take {x : Nat × Nat} {g : Nat} (hx : x ∉ D)
    (hsmall : x.1 < pages ∧ 3 ≤ x.2 ∧ x.2 < 8) (hfd : fd x = g)
    (hg : 3 ≤ g ∧ g < 32 ∧ (table g).fdInode ≠ 0) (hslack : slack ≤ pages)
    (hown : (table g).fdFlag ≠ pipeFlag → ∀ y ∈ D, y.1 = x.1 → fd y ≠ g)
    {table' : Nat → FileSlot} (htable : table' = if (table g).fdFlag = pipeFlag then
      Function.update table g { table g with fdPos := (table g).fdPos + 1 } else table) :
    Sound slack (insert x D) table' fd := by
  -- kind and struct of an entry stay
  have hkeep : ∀ g', (table' g').fdFlag = (table g').fdFlag ∧
      (table' g').fdInode = (table g').fdInode := by
    intro g'
    rw [htable]
    split
    · rw [Function.update_apply]
      split
      · next he => rw [he]; exact ⟨rfl, rfl⟩
      · exact ⟨rfl, rfl⟩
    · exact ⟨rfl, rfl⟩
  refine ⟨fun y hy => ?_, fun y hy => ?_, fun g' hocc hpipe => ?_,
    fun y hy z hz g' hyz hgy hgz hreg => ?_⟩
  · rcases Finset.mem_insert.mp hy with rfl | hy
    · exact hsmall
    · exact h.small y hy
  · rcases Finset.mem_insert.mp hy with rfl | hy
    · refine Or.inr ⟨g, hfd, hg.1, hg.2.1, ?_⟩
      rw [(hkeep g).2]
      exact hg.2.2
    · rcases h.fds y hy with h1 | ⟨g', heq, h3, h32, hocc⟩
      · exact Or.inl h1
      · refine Or.inr ⟨g', heq, h3, h32, ?_⟩
        rw [(hkeep g').2]
        exact hocc
  · rw [(hkeep g').1] at hpipe
    rw [(hkeep g').2] at hocc
    obtain ⟨hpos, hle, hge⟩ := h.pipes g' hocc hpipe
    rw [card_holders_insert hx, hfd]
    by_cases he : g' = g
    · subst he
      have hcard := h.card_le (g' : Int)
      have hlt : (table g').fdPos.toNat + 1 < 2 ^ 32 := by
        have hpages : pages * 6 + 1 < 2 ^ 32 := by decide
        omega
      rw [if_pos rfl, htable, if_pos hpipe, Function.update_self]
      show 0 < ((table g').fdPos + 1).toNat ∧ _ ∧ _
      rw [UInt32.toNat_add, UInt32.toNat_one, Nat.mod_eq_of_lt hlt]
      omega
    · have hsame : table' g' = table g' := by
        rw [htable]
        split
        · exact Function.update_of_ne he _ _
        · rfl
      rw [if_neg (by omega), hsame]
      exact ⟨hpos, hle, hge⟩
  · rw [(hkeep g').1] at hreg
    rcases Finset.mem_insert.mp hy with rfl | hyD
    · obtain rfl : g' = g := by omega
      rcases Finset.mem_insert.mp hz with rfl | hzD
      · rfl
      · exact absurd hgz (hown hreg z hzD hyz.symm)
    · rcases Finset.mem_insert.mp hz with rfl | hzD
      · obtain rfl : g' = g := by omega
        exact absurd hgy (hown hreg y hyD hyz)
      · exact h.own y hyD z hzD g' hyz hgy hgz hreg

/-- An entry changes that no other descriptor is for. -/
theorem forget {x : Nat × Nat} {g : Nat} {f : FileSlot} (hfd : fd x = g)
    (hsole : ∀ y ∈ D, y ≠ x → fd y ≠ g) (hf : f.fdInode = 0) :
    Sound slack (D.erase x) (Function.update table g f) fd := by
  have hne : ∀ y ∈ D.erase x, ∀ g' : Nat, fd y = g' → g' ≠ g := by
    intro y hy g' hgy he
    subst he
    exact hsole y (Finset.mem_of_mem_erase hy) (Finset.ne_of_mem_erase hy) hgy
  refine ⟨fun y hy => h.small y (Finset.mem_of_mem_erase hy), fun y hy => ?_,
    fun g' hocc hpipe => ?_, fun y hy z hz g' hyz hgy hgz hreg => ?_⟩
  · rcases h.fds y (Finset.mem_of_mem_erase hy) with h1 | ⟨g', heq, h3, h32, hocc⟩
    · exact Or.inl h1
    · refine Or.inr ⟨g', heq, h3, h32, ?_⟩
      rw [Function.update_of_ne (hne y hy g' heq)]
      exact hocc
  · by_cases he : g' = g
    · rw [he, Function.update_self] at hocc
      exact absurd hf hocc
    · rw [Function.update_of_ne he] at hocc hpipe ⊢
      rw [holders_erase (by omega)]
      exact h.pipes g' hocc hpipe
  · rw [Function.update_of_ne (hne y hy g' hgy)] at hreg
    exact h.own y (Finset.mem_of_mem_erase hy) z (Finset.mem_of_mem_erase hz) g' hyz hgy hgz hreg

/-- A descriptor that is for nothing goes. -/
theorem erase {x : Nat × Nat} (hfd : fd x = -1) : Sound slack (D.erase x) table fd := by
  refine ⟨fun y hy => h.small y (Finset.mem_of_mem_erase hy),
    fun y hy => h.fds y (Finset.mem_of_mem_erase hy), fun g hocc hpipe => ?_,
    fun y hy z hz => h.own y (Finset.mem_of_mem_erase hy) z (Finset.mem_of_mem_erase hz)⟩
  rw [holders_erase (by omega)]
  exact h.pipes g hocc hpipe

/-- **One descriptor less** for a pipe. -/
theorem drop {x : Nat × Nat} {g : Nat} (hx : x ∈ D) (hfd : fd x = g)
    (hocc : (table g).fdInode ≠ 0) (hpipe : (table g).fdFlag = pipeFlag) :
    Sound slack (D.erase x) (Function.update table g (table g).drop) fd := by
  obtain ⟨hpos, hle, hge⟩ := h.pipes g hocc hpipe
  have hcard := card_holders_erase hx (f := fd) (g : Int)
  rw [if_pos hfd] at hcard
  have hone : (1 : UInt32) ≤ (table g).fdPos := by
    rw [UInt32.le_iff_toNat_le]
    exact hpos
  have hsub : ((table g).fdPos - 1).toNat = (table g).fdPos.toNat - 1 :=
    UInt32.toNat_sub_of_le _ _ hone
  by_cases hlast : (table g).fdPos - 1 = 0
  · -- the page goes: there is no other descriptor
    have hzero : (holders (D.erase x) fd (g : Int)).card = 0 := by
      rw [hlast, UInt32.toNat_zero] at hsub
      omega
    refine h.forget hfd (fun y hy hyx => ?_) (if_pos hlast)
    exact card_holders_eq_zero.mp hzero y (Finset.mem_erase.mpr ⟨hyx, hy⟩)
  · have hkeep : (table g).drop.fdInode = (table g).fdInode := if_neg hlast
    have hnz : ((table g).fdPos - 1).toNat ≠ 0 := fun h0 =>
      hlast (UInt32.toNat_inj.mp (h0.trans UInt32.toNat_zero.symm))
    refine ⟨fun y hy => h.small y (Finset.mem_of_mem_erase hy), fun y hy => ?_,
      fun g' hocc' hpipe' => ?_, fun y hy z hz g' hyz hgy hgz hreg => ?_⟩
    · rcases h.fds y (Finset.mem_of_mem_erase hy) with h1 | ⟨g', heq, h3, h32, hocc'⟩
      · exact Or.inl h1
      · refine Or.inr ⟨g', heq, h3, h32, ?_⟩
        rw [Function.update_apply]
        split
        · rw [hkeep]
          exact hocc
        · exact hocc'
    · by_cases he : g' = g
      · subst he
        rw [Function.update_self]
        show 0 < ((table g').fdPos - 1).toNat ∧ _ ≤ ((table g').fdPos - 1).toNat ∧
          ((table g').fdPos - 1).toNat ≤ _
        omega
      · rw [Function.update_of_ne he] at hocc' hpipe' ⊢
        have hsame := card_holders_erase hx (f := fd) (g' : Int)
        rw [if_neg (by omega), Nat.add_zero] at hsame
        rw [hsame]
        exact h.pipes g' hocc' hpipe'
    · apply h.own y (Finset.mem_of_mem_erase hy) z (Finset.mem_of_mem_erase hz) g' hyz hgy hgz
      by_cases he : g' = g
      · subst he
        rw [Function.update_self] at hreg
        exact hreg
      · rw [Function.update_of_ne he] at hreg
        exact hreg

end Sound

/-! ## No struct at `NULL` -/

/-- No `struct inode` is at address 0, nor will one be. -/
structure NonNull (s : Mounted p) : Prop where
  null : s.inodeAt 0 = none
  brk : 0 < s.brk

theorem NonNull.modifyInode {s : Mounted p} (h : NonNull s) (a : Nat) (f : Inode → Inode) :
    NonNull (s.modifyInode a f) := by
  refine ⟨?_, h.brk⟩
  rw [Mounted.inodeAt_modifyInode]
  split
  · next h0 => rw [← h0, h.null, Option.map_none]
  · exact h.null

theorem NonNull.cons {s : Mounted p} (h : NonNull s) (v : Vol p) (i : Inode) :
    NonNull ⟨v, (s.brk, i) :: s.openInodes, s.brk + 1⟩ := by
  refine ⟨?_, Nat.succ_pos _⟩
  have hne : 0 ≠ s.brk := Nat.ne_of_lt h.brk
  rw [Mounted.inodeAt_cons, if_neg hne]
  exact h.null

theorem NonNull.ne_zero {s : Mounted p} (h : NonNull s) {a : Nat} {i : Inode}
    (hi : s.inodeAt a = some i) : a ≠ 0 := by
  intro h0
  rw [h0, h.null] at hi
  cases hi

theorem inodeOpen_nonNull {s s' : Mounted p} {n a : Nat} (h : NonNull s)
    (hopen : inodeOpen s n = some (a, s')) : a ≠ 0 ∧ NonNull s' := by
  cases hfind : s.openInodes.find? fun e => e.2.no == n with
  | some e =>
    obtain ⟨b, i⟩ := e
    simp only [inodeOpen, hfind, Option.some.injEq, Prod.mk.injEq] at hopen
    obtain ⟨rfl, rfl⟩ := hopen
    refine ⟨?_, h.modifyInode _ _⟩
    intro h0
    subst h0
    -- the list has no struct at 0, so the search for the number cannot have found one
    have hnone := h.null
    rw [Mounted.inodeAt, Option.map_eq_none_iff, List.find?_eq_none] at hnone
    exact hnone _ (List.mem_of_find?_eq_some hfind) (by simp)
  | none =>
    have hmiss : s.Misses n := fun e he => by simpa using List.find?_eq_none.mp hfind e he
    rw [inodeOpen_miss (inodeOpen_lt hmiss hopen) hmiss, Option.some.injEq, Prod.mk.injEq] at hopen
    obtain ⟨rfl, rfl⟩ := hopen
    exact ⟨Nat.ne_of_gt h.brk, h.cons _ _⟩

theorem inodeClose_nonNull {s s' : Mounted p} {a : Nat} (h : NonNull s)
    (hclose : inodeClose s a = some s') : NonNull s' := by
  simp only [inodeClose, Option.bind_eq_bind, Option.bind_eq_some_iff] at hclose
  obtain ⟨i, -, hclose⟩ := hclose
  split at hclose
  · obtain rfl := Option.some.inj hclose
    refine ⟨?_, h.brk⟩
    have hnone := h.null
    rw [Mounted.inodeAt, Option.map_eq_none_iff, List.find?_eq_none] at hnone ⊢
    exact fun e he => hnone e (List.mem_filter.mp he).1
  · obtain rfl := Option.some.inj hclose
    exact h.modifyInode _ _

theorem dirOpen_nonNull {s s' : Mounted p} {n : Nat} {dir : DirHandle} (h : NonNull s)
    (hopen : dirOpen s n = some (dir, s')) : NonNull s' := by
  simp only [dirOpen, Option.bind_eq_bind, Option.bind_eq_some_iff, Prod.exists, Option.pure_def,
    Option.some.injEq, Prod.mk.injEq] at hopen
  obtain ⟨a, s1, hopen, -, rfl⟩ := hopen
  exact (inodeOpen_nonNull h hopen).2

theorem dirClose_nonNull {s s' : Mounted p} {dir : DirHandle} (h : NonNull s)
    (hclose : dirClose s dir = some s') : NonNull s' := by
  cases dir with
  | root =>
    obtain rfl := Option.some.inj hclose
    exact h
  | opened a => exact inodeClose_nonNull h hclose

/-! ## What `sys_open` does to the tables -/

/-- The tables are the same. -/
structure SameTables (k k' : FileSys p) : Prop where
  table : k'.fileTable = k.fileTable
  pcb : k'.pcb = k.pcb
  live : k'.live = k.live

section

variable {k k' : FileSys p} {t : Nat} {r : Int}

theorem dirClose_tables {dir : DirHandle} (hn : NonNull k.part) (h : k.dirClose dir = some k') :
    NonNull k'.part ∧ SameTables k k' := by
  obtain ⟨part, hclose, rfl⟩ := dirClose_eq h
  exact ⟨dirClose_nonNull hn hclose, rfl, rfl, rfl⟩

/-- How `sys_open` leaves the tables: as they were, or with one entry filled. -/
inductive Opened (k : FileSys p) (t : Nat) (flags : UInt8) (k' : FileSys p) : Prop
  | failed : SameTables k k' → Opened k t flags k'
  | filled {k1 k2 : FileSys p} {g a : Nat} : SameTables k k1 → Slotted k1 t g a flags k2 →
      a ≠ 0 → SameTables k2 k' → Opened k t flags k'

theorem searchFile_nonNull {rootDir : Nat} {dirE : DirEntry} {s part : Mounted p}
    {path : List UInt8} {n : Int} {record : PathSearchRecord} (hn : NonNull s)
    (h : searchFile rootDir dirE s path = some (n, record, part)) : NonNull part :=
  searchFile_keeps (P := fun _ => NonNull)
    (fun hst hclose hopen => dirOpen_nonNull (dirClose_nonNull hst hclose) hopen) hn h

/-- Not closing a directory concerns nothing else. -/
theorem keepDir_tables (k : FileSys p) (dir : DirHandle) :
    SameTables k (k.keepDir dir) ∧ (k.keepDir dir).part = k.part := by
  cases dir with
  | root => exact ⟨⟨rfl, rfl, rfl⟩, rfl⟩
  | opened a => exact ⟨⟨rfl, rfl, rfl⟩, rfl⟩

theorem sysOpen_opened {pathname : List UInt8} {flags : UInt8} {heap : Grants} {stack : Stack}
    (hn : NonNull k.part) (h : sysOpen k t pathname flags heap stack = some (r, k')) :
    NonNull k'.part ∧ Opened k t flags k' := by
  have hsearched : ∀ {n record part}, searchFile k.rootDir stack.dirE k.part pathname =
      some (n, record, part) → NonNull part := fun hfile => searchFile_nonNull hn hfile
  cases sysOpen_cases h with
  | slash heq =>
    subst heq
    exact ⟨hn, .failed ⟨rfl, rfl, rfl⟩⟩
  | failed n record part hfile hclose =>
    obtain ⟨hn2, htab⟩ := dirClose_tables (hsearched hfile) hclose
    exact ⟨hn2, .failed ⟨htab.table, htab.pcb, htab.live⟩⟩
  | created record part k2 _ hfile _ _ _ hcreate hclose =>
    have hn1 := hsearched hfile
    rcases fileCreate_made hcreate with ⟨-, vol, -, rfl⟩ | ⟨-, g, n, hmade⟩
    · obtain ⟨hn3, htab⟩ := dirClose_tables (k := ({ k with part } : FileSys p).setVol vol)
        ⟨hn1.null, hn1.brk⟩ hclose
      exact ⟨hn3, .failed ⟨htab.table, htab.pcb, htab.live⟩⟩
    · obtain ⟨dir, parent, parent', vol, -, -, -, hpart⟩ := hmade.list
      have hn2 : NonNull k2.part := by
        rw [hpart]
        exact (hn1.modifyInode dir _).cons vol _
      obtain ⟨hn3, htab⟩ := dirClose_tables hn2 hclose
      have htab1 : SameTables k { k with part } := ⟨rfl, rfl, rfl⟩
      exact ⟨hn3, .filled htab1 hmade.slotted (Nat.ne_of_gt hn1.brk) htab⟩
  | opened n record part _ hfile _ _ _ _ hopen =>
    have hn1 := hsearched hfile
    obtain ⟨⟨htab, hpcb, hlive⟩, hpart1⟩ :=
      keepDir_tables ({ k with part } : FileSys p) record.parentDir
    have hkeep : SameTables k (FileSys.keepDir { k with part } record.parentDir) :=
      ⟨htab, hpcb, hlive⟩
    rcases fileOpen_slotted hopen with ⟨-, rfl⟩ | ⟨g, a, part', -, hslotted, -, hinode, hpart⟩
    · rw [hpart1]
      exact ⟨hn1, .failed hkeep⟩
    · rw [hpart1] at hinode
      obtain ⟨ha, hn2⟩ := inodeOpen_nonNull hn1 hinode
      refine ⟨?_, .filled hkeep hslotted ha ⟨rfl, rfl, rfl⟩⟩
      rcases hpart with heq | heq
      · rw [heq]
        exact hn2
      · rw [heq]
        exact hn2.modifyInode _ _

end

end OsCore.Fs
