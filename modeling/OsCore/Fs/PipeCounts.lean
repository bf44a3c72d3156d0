import OsCore.Fs.SharedFiles

/-!
# How many descriptors a pipe has

An entry of `file_table` that stands for a pipe has no use for `fd_pos`, and the
number of its descriptors is kept there. `sys_pipe` starts it at 2, `fork` adds one
for each descriptor the child gets, `close` and `exit` take one away, and the page
goes with the last. So the page is there just as long as a descriptor is, if the
number is exact.

Two calls can make it wrong. `sys_pipe` does not look at what `pcb_fd_install`
answers, so in a table with less than two free places the pipe counts descriptors
that nobody got. And `lseek` does not ask what kind of entry it moves: it reads the
lock at the front of the page as an inode of size 1, which lets it set `fd_pos` to 0
and nothing else. `pipe_counts_exact` says that there is no third way.
-/

namespace OsCore.Fs

open OsCore.Lib

variable {p : Partition}

/-! ## `lseek` on a pipe -/

/-- The position `sys_lseek` works out for a pipe that has `fdPos` descriptors. -/
def pipeSeek (fdPos : UInt32) (offset : Int) : Whence → Int
  | .seekSet => offset
  | .seekCur => (toInt32 fdPos.toNat + offset).bmod (2 ^ 32)
  | .seekEnd => (1 + offset).bmod (2 ^ 32)

theorem pipeInode_size : toInt32 pipeInode.size = 1 := by decide

/-- Only position 0 is inside of a file of size 1. -/
theorem lseek_pipe (fdPos fdFlag : UInt32) (offset : Int) (whence : Whence) :
    lseek ⟨fdPos, fdFlag, pipeInode⟩ offset whence =
      if pipeSeek fdPos offset whence = 0 then (0, ⟨0, fdFlag, pipeInode⟩)
      else (-1, ⟨fdPos, fdFlag, pipeInode⟩) := by
  have heq : lseek ⟨fdPos, fdFlag, pipeInode⟩ offset whence =
      if pipeSeek fdPos offset whence < 0 ∨ pipeSeek fdPos offset whence > 0 then
        (-1, ⟨fdPos, fdFlag, pipeInode⟩)
      else (pipeSeek fdPos offset whence,
        ⟨UInt32.ofNat (pipeSeek fdPos offset whence).toNat, fdFlag, pipeInode⟩) := by
    unfold lseek
    dsimp only
    rw [pipeInode_size]
    cases whence <;> rfl
  rw [heq]
  by_cases h0 : pipeSeek fdPos offset whence = 0
  · rw [if_pos h0, h0]
    rfl
  · rw [if_neg h0, if_pos (by omega)]

/-- Every occupied entry is a pipe. -/
def FileSys.OnlyPipes (k : FileSys p) : Prop :=
  ∀ g, (k.fileTable g).fdInode ≠ 0 → (k.fileTable g).fdFlag = pipeFlag

section

variable {k k' : FileSys p} {t : Nat}

/-- **`sys_lseek`** sets the count of a pipe to 0, or changes nothing. -/
theorem sysLseek_pipe {fd offset r : Int} {whence : Whence} (hn : NonNull k.part)
    (hpipes : k.OnlyPipes) (h : k.sysLseek t fd offset whence = some (r, k')) :
    k' = k ∧ (∀ g : Nat, 0 ≤ fd → k.fd (t, fd.toNat) = g →
        pipeSeek (k.fileTable g).fdPos offset whence ≠ 0) ∨
      ∃ g : Nat, g < 32 ∧ 0 ≤ fd ∧ fd < 8 ∧ k.fd (t, fd.toNat) = g ∧ (k.fileTable g).fdInode ≠ 0 ∧
        pipeSeek (k.fileTable g).fdPos offset whence = 0 ∧
        k' = k.setSlot g { k.fileTable g with fdPos := 0 } := by
  unfold FileSys.sysLseek at h
  split at h
  · next hneg =>
    exact Or.inl ⟨(Prod.mk.inj (Option.some.inj h)).2.symm, fun g h0 => absurd h0 (by omega)⟩
  · next hpos =>
    simp only [Option.bind_eq_bind, Option.bind_eq_some_iff, ensure_eq_some, fdLocal2global,
      Option.pure_def, Option.some.injEq, Prod.mk.injEq] at h
    obtain ⟨-, h8, g, ⟨-, ⟨hg0, hg32⟩, hg⟩, inode, hinode, -, heq⟩ := h
    have hfd : k.fd (t, fd.toNat) = g := by
      show (k.pcb t).fdTable fd.toNat = g
      omega
    -- nothing is at `NULL`, so the entry is occupied
    have hocc : (k.fileTable g).fdInode ≠ 0 := by
      intro h0
      rw [FileSys.pointee, if_neg (fun hc => hc.2 h0), h0, hn.null] at hinode
      cases hinode
    have hpipe := hpipes g hocc
    rw [FileSys.pointee, if_pos ⟨hpipe, hocc⟩, Option.some.injEq] at hinode
    subst hinode
    rw [lseek_pipe] at heq
    subst heq
    by_cases h0 : pipeSeek (k.fileTable g).fdPos offset whence = 0
    · refine Or.inr ⟨g, by omega, by omega, h8, hfd, hocc, h0, ?_⟩
      rw [if_pos h0]
    · refine Or.inl ⟨?_, fun g' _ hg' => ?_⟩
      · rw [if_neg h0]
        show k.setSlot g (k.fileTable g) = k
        unfold FileSys.setSlot
        rw [Function.update_eq_self]
      · obtain rfl : g' = g := by omega
        exact h0

end

/-! ## Runs -/

/-- Every pipe counts its descriptors. -/
def FileSys.Exact (k : FileSys p) : Prop :=
  ∀ g : Nat, (k.fileTable g).fdFlag = pipeFlag → (k.fileTable g).fdInode ≠ 0 →
    (k.fileTable g).fdPos.toNat = (holders k.descriptors k.fd (g : Int)).card

/-- Pipes are made, shared and closed. -/
def pipeMachine (p : Partition) : Machine (FileSys p) FdOp where
  start := AllClosed
  may := fun k op => k.mayCall op ∧ op.isOpen = false
  step := FileSys.fdStep

/-- A seek does not come to position 0 of the pipe at entry `g`. -/
def FileSys.SeeksOff (k : FileSys p) (g : Nat) (offset : Int) (whence : Whence) : Prop :=
  (k.fileTable g).fdInode ≠ 0 → pipeSeek (k.fileTable g).fdPos offset whence ≠ 0

/-- `sys_pipe` finds room for both descriptors, and `sys_lseek` does not come to
position 0 of a pipe. -/
def KeepsCount (k : FileSys p) : FdOp → Prop
  | .sysPipe t _ => 2 ≤ k.freePlaces t
  | .sysLseek t fd offset whence => 0 ≤ fd → fd < 8 →
      ∀ g : Nat, g < 32 → k.fd (t, fd.toNat) = g → k.SeeksOff g offset whence
  | _ => True

/-- What holds between calls. -/
structure PipesCounted (k : FileSys p) : Prop where
  nonNull : NonNull k.part
  onlyPipes : k.OnlyPipes
  sound : k.Sound 0

section

variable {k k' : FileSys p} {t : Nat}

theorem PipesCounted.exact (h : PipesCounted k) : k.Exact := by
  intro g hpipe hocc
  obtain ⟨-, hle, hge⟩ := Sound.pipes h.sound g hocc hpipe
  omega

/-- The page of a pipe is there just as long as a descriptor for it. -/
theorem PipesCounted.occupied_iff (h : PipesCounted k) (g : Nat) :
    (k.fileTable g).fdInode ≠ 0 ↔
      ∃ t ∈ k.live, ∃ i, 3 ≤ i ∧ i < 8 ∧ k.fd (t, i) = g := by
  constructor
  · intro hocc
    have hpipe := h.onlyPipes g hocc
    obtain ⟨hpos, -, hge⟩ := Sound.pipes h.sound g hocc hpipe
    obtain ⟨x, hx⟩ := Finset.card_pos.mp (Nat.lt_of_lt_of_le hpos hge)
    obtain ⟨hxD, hxg⟩ := mem_holders.mp hx
    obtain ⟨hlive, h3, h8⟩ := FileSys.mem_descriptors.mp hxD
    exact ⟨x.1, hlive, x.2, h3, h8, hxg⟩
  · intro ⟨t, ht, i, h3, h8, hg⟩ hnull
    exact Sound.not_held h.sound hnull (FileSys.mem_descriptors.mpr ⟨ht, h3, h8⟩) hg

theorem NoneFilled.onlyPipes (h : NoneFilled k.fileTable k'.fileTable) (hk : k.OnlyPipes) :
    k'.OnlyPipes := by
  intro g hocc
  rw [(h g).1]
  exact hk g ((h g).2 hocc)

/-- No descriptor is for a file. -/
theorem PipesCounted.no_file (h : PipesCounted k) (ht : t ∈ k.live) {i g : Nat} (h3 : 3 ≤ i)
    (h8 : i < 8) (hg : k.fd (t, i) = g) : (k.fileTable g).fdFlag = pipeFlag :=
  h.onlyPipes g fun hnull =>
    Sound.not_held h.sound hnull (FileSys.mem_descriptors.mpr ⟨ht, h3, h8⟩) hg

/-- One call. -/
theorem fdStep_counted {op : FdOp} (hk : PipesCounted k) (hmay : k.mayCall op)
    (hopen : op.isOpen = false) (hkeep : KeepsCount k op) (hstep : k.fdStep op = some k') :
    PipesCounted k' := by
  cases op with
  | sysOpen => cases hopen
  | sysClose t fd =>
    obtain ⟨⟨r, k1⟩, hcall, rfl⟩ := Option.map_eq_some_iff.mp hstep
    obtain ⟨hn', htable, hk'⟩ := sysClose_sound hmay hk.nonNull hk.sound
      (fun i g _ h3 h8 hg hfile => absurd (hk.no_file hmay h3 h8 hg) hfile) hcall
    exact ⟨hn', htable.onlyPipes hk.onlyPipes, hk'⟩
  | sysPipe t page =>
    obtain ⟨⟨fd0, fd1, k1⟩, hcall, rfl⟩ := Option.map_eq_some_iff.mp hstep
    obtain ⟨g, hpiped⟩ := sysPipe_piped hmay hcall
    refine ⟨?_, fun g' hocc => ?_, hpiped.sound hk.sound hkeep⟩
    · dsimp only
      rw [hpiped.part]
      exact hk.nonNull
    · dsimp only at hocc ⊢
      rw [hpiped.table, Function.update_apply] at hocc ⊢
      split
      · rfl
      · next hne =>
        rw [if_neg hne] at hocc
        exact hk.onlyPipes g' hocc
  | sysFork t child granted =>
    obtain ⟨ht, hc, hpage⟩ := hmay
    obtain ⟨hn', htable, hk'⟩ :=
      sysFork_sound ht hc hpage (Nat.zero_le _) hk.nonNull hk.sound hstep
    exact ⟨hn', htable.onlyPipes hk.onlyPipes, hk'⟩
  | sysExit t =>
    obtain ⟨hn', htable, hk'⟩ := sysExit_sound hmay hk.nonNull hk.sound
      (fun i g h3 h8 hg hfile => absurd (hk.no_file hmay h3 h8 hg) hfile) hstep
    exact ⟨hn', htable.onlyPipes hk.onlyPipes, hk'⟩
  | sysLseek t fd offset whence =>
    obtain ⟨⟨r, k1⟩, hcall, rfl⟩ := Option.map_eq_some_iff.mp hstep
    rcases sysLseek_pipe hk.nonNull hk.onlyPipes hcall with
      ⟨rfl, -⟩ | ⟨g, hg32, h0, h8, hg, hocc, hzero, -⟩
    · exact hk
    · exact absurd hzero (hkeep h0 h8 g hg32 hg hocc)

/-- A call that does neither of the two things leaves a wrong count. -/
theorem keepsCount_of_exact {op : FdOp} (hk : PipesCounted k) (hmay : k.mayCall op)
    (hstep : k.fdStep op = some k') (hexact : k'.Exact) : KeepsCount k op := by
  cases op with
  | sysPipe t page =>
    obtain ⟨⟨fd0, fd1, k1⟩, hcall, rfl⟩ := Option.map_eq_some_iff.mp hstep
    obtain ⟨g, hpiped⟩ := sysPipe_piped hmay hcall
    have hslot : k1.fileTable g = ⟨2, pipeFlag, page⟩ := by
      rw [hpiped.table, Function.update_self]
    have hcount := hpiped.count
    have hD : k1.descriptors = k.descriptors := by
      rw [FileSys.descriptors, FileSys.descriptors, hpiped.live]
    rw [Sound.card_free hk.sound hpiped.free, Nat.zero_add, ← hD,
      ← hexact g (by dsimp only; rw [hslot]) (by dsimp only; rw [hslot]; exact hpiped.nonNull)] at hcount
    dsimp only at hcount
    rw [hslot] at hcount
    have htwo : 2 = min 2 (k.freePlaces t) := hcount
    show 2 ≤ k.freePlaces t
    omega
  | sysLseek t fd offset whence =>
    obtain ⟨⟨r, k1⟩, hcall, rfl⟩ := Option.map_eq_some_iff.mp hstep
    intro h0' _ g' _ hg' _
    rcases sysLseek_pipe hk.nonNull hk.onlyPipes hcall with
      ⟨rfl, hne⟩ | ⟨g, hg32, h0, h8, hg, hocc, hzero, rfl⟩
    · exact hne g' h0' hg'
    · -- the count is 0 now, and the pipe has its descriptors still
      have hslot : ((k.setSlot g { k.fileTable g with fdPos := 0 }).fileTable g) =
          { k.fileTable g with fdPos := 0 } := Function.update_self ..
      have hpipe := hk.onlyPipes g hocc
      have hcard := hexact g (by dsimp only; rw [hslot]; exact hpipe)
        (by dsimp only; rw [hslot]; exact hocc)
      dsimp only at hcard
      rw [hslot] at hcard
      obtain ⟨hpos, -, hge⟩ := Sound.pipes hk.sound g hocc hpipe
      have hnone : 0 = (holders k.descriptors k.fd (g : Int)).card := hcard
      omega
  | sysOpen => exact trivial
  | sysClose => exact trivial
  | sysFork => exact trivial
  | sysExit => exact trivial

end

/-- **A pipe counts its descriptors, and its page is there as long as one of them**,
in every run in which `sys_pipe` finds room for both and `sys_lseek` does not come to
position 0 of a pipe; and in every state of such a run the next call keeps it so just
if it meets that condition. -/
theorem pipe_counts_exact (k : FileSys p) (h : (pipeMachine p).Reach KeepsCount k) :
    k.Exact ∧
      (∀ g : Nat, (k.fileTable g).fdInode ≠ 0 ↔
        ∃ t ∈ k.live, ∃ i, 3 ≤ i ∧ i < 8 ∧ k.fd (t, i) = g) ∧
      ∀ op k', (pipeMachine p).may k op → k.fdStep op = some k' →
        (k'.Exact ↔ KeepsCount k op) := by
  have hk : PipesCounted k := by
    refine Machine.Reach.invariant (I := PipesCounted) ?_ ?_ h
    · intro k hk
      exact ⟨hk.nonNull, fun g hocc => absurd (hk.table g) hocc, hk.sound⟩
    · intro k op k' hk hmay hkeep hstep
      exact fdStep_counted hk hmay.1 hmay.2 hkeep hstep
  refine ⟨hk.exact, hk.occupied_iff, fun op k' hmay hstep => ?_⟩
  exact ⟨keepsCount_of_exact hk hmay.1 hstep,
    fun hkeep => (fdStep_counted hk hmay.1 hmay.2 hkeep hstep).exact⟩

/-! ## Two runs -/

instance (k : FileSys p) (op : FdOp) : Decidable ((pipeMachine p).may k op) :=
  inferInstanceAs (Decidable (k.mayCall op ∧ op.isOpen = false))

instance (k : FileSys p) (g : Nat) (offset : Int) (whence : Whence) :
    Decidable (k.SeeksOff g offset whence) :=
  inferInstanceAs (Decidable ((k.fileTable g).fdInode ≠ 0 →
    pipeSeek (k.fileTable g).fdPos offset whence ≠ 0))

instance (k : FileSys p) (op : FdOp) : Decidable (KeepsCount k op) :=
  match op with
  | .sysPipe t _ => inferInstanceAs (Decidable (2 ≤ k.freePlaces t))
  | .sysLseek t fd offset whence => inferInstanceAs (Decidable (0 ≤ fd → fd < 8 →
      ∀ g : Nat, g < 32 → k.fd (t, fd.toNat) = g → k.SeeksOff g offset whence))
  | .sysOpen .. => isTrue trivial
  | .sysClose .. => isTrue trivial
  | .sysFork .. => isTrue trivial
  | .sysExit .. => isTrue trivial

/-- A process makes two pipes and forks; the child closes an end, tries to move the
position, and the parent exits. -/
def twoPipes : List FdOp :=
  [.sysPipe 1 7, .sysPipe 1 8, .sysFork 1 2 true, .sysClose 2 4, .sysLseek 2 3 5 .seekSet,
    .sysExit 1]

theorem pipe_counts_exact_after_exit :
    ∃ k, (pipeMachine blankPartition).follow KeepsCount smallSys twoPipes = some k ∧
      (k.fileTable 3).fdPos = 1 ∧ (k.fileTable 4).fdPos = 2 ∧ k.Exact := by
  have hsome : ((pipeMachine blankPartition).follow KeepsCount smallSys twoPipes).map
      (fun k => ((k.fileTable 3).fdPos, (k.fileTable 4).fdPos)) = some (1, 2) := by decide +kernel
  obtain ⟨k, hk, he⟩ := Option.map_eq_some_iff.mp hsome
  obtain ⟨h3, h4⟩ := Prod.mk.inj he
  have hreach : (pipeMachine blankPartition).Reach KeepsCount k :=
    Machine.reach_of_follow (Machine.Reach.start small_allClosed) hk
  exact ⟨k, hk, h3, h4, (pipe_counts_exact k hreach).1⟩

/-- **A pipe with two descriptors that counts none**, after a seek to its start. -/
theorem lseek_zeroes_pipe_count :
    ∃ k, (pipeMachine blankPartition).Reachable k ∧ k.fd (1, 3) = 3 ∧ k.fd (1, 4) = 3 ∧
      (k.fileTable 3).fdInode = 7 ∧ (k.fileTable 3).fdPos = 0 ∧ ¬k.Exact := by
  have hsome : ((pipeMachine blankPartition).follow (fun _ _ => True) smallSys
      [.sysPipe 1 7, .sysLseek 1 3 0 .seekSet]).map (fun k => (decide (1 ∈ k.live), k.fd (1, 3),
        k.fd (1, 4), k.fileTable 3)) = some (true, 3, 3, ⟨0, pipeFlag, 7⟩) := by decide +kernel
  obtain ⟨k, hk, he⟩ := Option.map_eq_some_iff.mp hsome
  simp only [Prod.mk.injEq, decide_eq_true_eq] at he
  obtain ⟨hlive, h3, h4, hslot⟩ := he
  have hreach : (pipeMachine blankPartition).Reachable k :=
    Machine.reach_of_follow (Machine.Reach.start small_allClosed) hk
  refine ⟨k, hreach, h3, h4, by rw [hslot], by rw [hslot], fun hexact => ?_⟩
  have hcard := hexact 3 (by rw [hslot]) (by rw [hslot]; decide)
  rw [hslot] at hcard
  have hpos : 0 < (holders k.descriptors k.fd ((3 : Nat) : Int)).card :=
    card_holders_pos (FileSys.mem_descriptors.mpr ⟨hlive, by decide, by decide⟩) h3
  exact absurd hcard (Nat.ne_of_lt hpos)

end OsCore.Fs
