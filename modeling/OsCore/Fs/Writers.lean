import OsCore.Fs.FileTable
import OsCore.Fs.PathSearch
import OsCore.Lib.Holders
import OsCore.Lib.Machine

/-!
# Writers of a file

`write_deny` is there so that a file has one writer at a time. `file_open` does
refuse a second one while the flag is set, but it has filled the entry of
`file_table` by then and leaves it so; and the flag is not the writer's own:
`file_close` clears it for a reader too, and `file_create` does not set it.

So whether a file has two writers is up to the callers alone
(`one_writer`): in a run in which nobody asks to write a file that an entry is
open on for writing, there is one, and any other request makes two.
-/

namespace OsCore.Fs

open OsCore.Lib

variable {p : Partition}

/-! ## Entries and the structs they point to -/

namespace FileSys

/-- The entries of `file_table` that point to the struct at `a`. -/
def slots (k : FileSys p) (a : Nat) : Finset Nat :=
  holders (Finset.range 32) (FileSlot.fdInode ∘ k.fileTable) a

/-- Entry `g` is occupied, open for writing, on the inode numbered `n`. -/
def Writer (k : FileSys p) (g n : Nat) : Prop :=
  (k.fileTable g).fdInode ≠ 0 ∧ writes (k.fileTable g).fdFlag = true ∧
    k.part.noAt (k.fileTable g).fdInode = some n

/-- No inode has two writers. -/
def OneWriter (k : FileSys p) : Prop := ∀ n g g', k.Writer g n → k.Writer g' n → g = g'

theorem card_slots_le (k : FileSys p) (a : Nat) : (k.slots a).card ≤ 32 :=
  (Finset.card_filter_le _ _).trans (Finset.card_range 32).le

/-- One entry changes. -/
theorem card_slots_update {k k' : FileSys p} {g : Nat} (hg : g < 32) {f : FileSlot}
    (h : k'.fileTable = Function.update k.fileTable g f) (a : Nat) :
    (k'.slots a).card + (if (k.fileTable g).fdInode = a then 1 else 0) =
      (k.slots a).card + if f.fdInode = a then 1 else 0 := by
  unfold slots
  rw [h, Function.comp_update]
  exact card_holders_update (Finset.mem_range.mpr hg) f.fdInode a

end FileSys

/-- The tables are sound: a struct counts the entries that point to it, and
`others` besides. `low` are the entries no file is put in. -/
structure Tied (others : Nat → Nat) (k : FileSys p) : Prop where
  steady : Steady k.part
  null : k.part.noAt 0 = none
  brk : 0 < k.part.brk
  low : ∀ g, g < 3 ∨ 32 ≤ g → (k.fileTable g).fdInode = 0
  users : ∀ a, a ≠ 0 → k.part.cnt a = (k.slots a).card + others a
  room : ∀ a, others a + 64 < 2 ^ 32

section

variable {k k' : FileSys p} {others : Nat → Nat} (h : Tied others k)

include h

theorem Tied.cnt_null : k.part.cnt 0 = 0 := h.steady.cnt_eq_zero_iff.mpr h.null

theorem Tied.open_room (a : Nat) : k.part.cnt a + 1 < 2 ^ 32 := by
  by_cases ha : a = 0
  · rw [ha, h.cnt_null]
    decide
  · have := h.users a ha
    have := h.room a
    have := k.card_slots_le a
    omega

/-- An occupied entry points to a struct. -/
theorem Tied.valid {g : Nat} (hg : (k.fileTable g).fdInode ≠ 0) :
    ∃ n, k.part.noAt (k.fileTable g).fdInode = some n := by
  have hlt : g < 32 := by
    by_contra hge
    exact hg (h.low g (Or.inr (by omega)))
  have hpos : 0 < (k.slots (k.fileTable g).fdInode).card :=
    card_holders_pos (Finset.mem_range.mpr hlt) rfl
  have hcnt := h.users _ hg
  apply Option.ne_none_iff_exists'.mp
  intro hnone
  have := h.steady.cnt_eq_zero_iff.mpr hnone
  omega

/-- No struct is opened at address 0. -/
theorem Tied.opens_ne_zero {a m : Nat} {s : Mounted p} (ho : Opens k.part a m s) : a ≠ 0 := by
  intro ha
  subst ha
  rcases ho.was with ⟨-, hle⟩ | hsome
  · have := h.brk
    omega
  · rw [h.null] at hsome
    cases hsome

theorem Tied.filled {t g a m : Nat} {flag : UInt8} (hf : Filled k t g a m flag k') :
    Tied others k' := by
  have ha := h.opens_ne_zero hf.opens
  refine ⟨hf.opens.steady, ?_, Nat.lt_of_lt_of_le h.brk hf.opens.brk, fun b hb => ?_,
    fun b hb => ?_, h.room⟩
  · rw [hf.opens.no, Function.update_of_ne ha.symm]
    exact h.null
  · have := hf.ge
    have := hf.lt
    rw [hf.table, Function.update_of_ne (by omega)]
    exact h.low b hb
  · have hcard := FileSys.card_slots_update hf.lt hf.table b
    rw [hf.free, if_neg hb.symm] at hcard
    rw [hf.opens.cnt, Function.update_apply]
    by_cases hba : b = a
    · have := h.users a ha
      rw [if_pos hba.symm, hba] at hcard
      rw [if_pos hba, hba]
      omega
    · have := h.users b hb
      rw [if_neg (Ne.symm hba)] at hcard
      rw [if_neg hba]
      omega

theorem Tied.same (hpart : Same k.part k'.part) (htable : k'.fileTable = k.fileTable) :
    Tied others k' := by
  refine ⟨hpart.steady, hpart.no ▸ h.null, Nat.lt_of_lt_of_le h.brk hpart.brk, ?_, ?_, h.room⟩
  · rw [htable]
    exact h.low
  · rw [hpart.cnt]
    unfold FileSys.slots
    rw [htable]
    exact h.users

theorem Tied.closed {g : Nat} {f : FileSlot} (hf : f.fdInode = 0)
    (hc : Closes k.part (k.fileTable g).fdInode k'.part)
    (htable : k'.fileTable = Function.update k.fileTable g f) : Tied others k' := by
  have hne : (k.fileTable g).fdInode ≠ 0 := fun h0 => by
    have := hc.pos
    rw [h0, h.cnt_null] at this
    omega
  have hlt : g < 32 := by
    by_contra hge
    exact hne (h.low g (Or.inr (by omega)))
  refine ⟨hc.steady, ?_, Nat.lt_of_lt_of_le h.brk hc.brk, fun b hb => ?_, fun b hb => ?_, h.room⟩
  · rw [hc.no]
    split
    · rw [Function.update_of_ne hne.symm]
      exact h.null
    · exact h.null
  · rw [htable, Function.update_apply]
    split
    · exact hf
    · exact h.low b hb
  · have hcard := FileSys.card_slots_update hlt htable b
    rw [hf, if_neg hb.symm] at hcard
    rw [hc.cnt, Function.update_apply]
    by_cases hba : b = (k.fileTable g).fdInode
    · have := h.users _ hne
      have := hc.pos
      rw [if_pos hba.symm, hba] at hcard
      rw [if_pos hba, hba]
      omega
    · have := h.users b hb
      rw [if_neg (Ne.symm hba)] at hcard
      rw [if_neg hba]
      omega

/-- The writers after an entry was filled. -/
theorem Filled.writer_iff {t g a m : Nat} {flag : UInt8} (hf : Filled k t g a m flag k')
    {g' n : Nat} : k'.Writer g' n ↔
      if g' = g then writes flag.toUInt32 = true ∧ n = m else k.Writer g' n := by
  have ha := h.opens_ne_zero hf.opens
  unfold FileSys.Writer
  rw [hf.table, hf.opens.no]
  by_cases hg : g' = g
  · rw [if_pos hg, hg, Function.update_self, Function.update_self, Option.some.injEq]
    exact ⟨fun hw => ⟨hw.2.1, hw.2.2.symm⟩, fun hw => ⟨ha, hw.1, hw.2.symm⟩⟩
  · rw [if_neg hg, Function.update_of_ne hg, Function.update_apply]
    by_cases heq : (k.fileTable g').fdInode = a
    · -- an entry that is there already: the struct keeps its number
      have hm : k.part.noAt a = some m := by
        obtain ⟨n', hn'⟩ := h.valid (heq ▸ ha)
        rw [heq] at hn'
        exact hf.opens.was.resolve_left fun hnone => by rw [hn'] at hnone; cases hnone.1
      rw [if_pos heq, heq, hm]
    · rw [if_neg heq]

/-- Who asks to write an inode is the only one. -/
theorem Filled.oneWriter_iff {t g a m : Nat} {flag : UInt8} (hf : Filled k t g a m flag k')
    (hone : k.OneWriter) : k'.OneWriter ↔
      (writes flag.toUInt32 = true → ∀ g', g' < 32 → ¬k.Writer g' m) := by
  have hfree : ∀ n, ¬k.Writer g n := fun n hw => hw.1 hf.free
  have hiff : ∀ g' n, k'.Writer g' n ↔
      if g' = g then writes flag.toUInt32 = true ∧ n = m else k.Writer g' n :=
    fun _ _ => hf.writer_iff h
  constructor
  · intro hone' hw g' _ hg'
    have hne : g' ≠ g := fun he => hfree m (he ▸ hg')
    refine hne (hone' m g' g ((hiff g' m).mpr ?_) ((hiff g m).mpr ?_))
    · rw [if_neg hne]
      exact hg'
    · rw [if_pos rfl]
      exact ⟨hw, rfl⟩
  · intro hsole n g1 g2 h1 h2
    rw [hiff] at h1 h2
    have hlt : ∀ g', k.Writer g' n → g' < 32 := fun g' hw => by
      by_contra hge
      exact hw.1 (h.low g' (Or.inr (by omega)))
    by_cases e1 : g1 = g
    · by_cases e2 : g2 = g
      · rw [e1, e2]
      · rw [if_pos e1] at h1
        rw [if_neg e2] at h2
        rw [h1.2] at h2
        exact absurd h2 (hsole h1.1 g2 (hlt g2 (h1.2.symm ▸ h2)))
    · rw [if_neg e1] at h1
      by_cases e2 : g2 = g
      · rw [if_pos e2] at h2
        rw [h2.2] at h1
        exact absurd h1 (hsole h2.1 g1 (hlt g1 (h2.2.symm ▸ h1)))
      · rw [if_neg e2] at h2
        exact hone n g1 g2 h1 h2

omit h in
theorem FileSys.OneWriter.same (hone : k.OneWriter) (hpart : Same k.part k'.part)
    (htable : k'.fileTable = k.fileTable) : k'.OneWriter := by
  intro n g g' h1 h2
  unfold FileSys.Writer at h1 h2
  rw [hpart.no, htable] at h1 h2
  exact hone n g g' h1 h2

omit h in
theorem FileSys.OneWriter.closed {g : Nat} {f : FileSlot} (hone : k.OneWriter)
    (hf : f.fdInode = 0) (hc : Closes k.part (k.fileTable g).fdInode k'.part)
    (htable : k'.fileTable = Function.update k.fileTable g f) : k'.OneWriter := by
  have hback : ∀ g' n, k'.Writer g' n → k.Writer g' n := by
    intro g' n hw
    unfold FileSys.Writer at hw ⊢
    rw [htable, Function.update_apply] at hw
    split at hw
    · exact absurd hf hw.1
    · refine ⟨hw.1, hw.2.1, ?_⟩
      have hno := hw.2.2
      rw [hc.no] at hno
      split at hno
      · rw [Function.update_apply] at hno
        split at hno
        · cases hno
        · exact hno
      · exact hno
  intro n g1 g2 h1 h2
  exact hone n g1 g2 (hback g1 n h1) (hback g2 n h2)

end

/-! ## Runs -/

/-- The calls of `fs/file.c` that open and close files. -/
inductive FileOp
  | fileCreate (t : Nat) (parentDir : DirHandle) (filename : List UInt8) (flag : UInt8)
      (heap : Grants)
  | fileOpen (t inodeNo : Nat) (flag : UInt8)
  | fileClose (g : Nat)

def FileSys.fileStep (k : FileSys p) : FileOp → Option (FileSys p)
  | .fileCreate t parentDir filename flag heap =>
    (fileCreate k t parentDir filename flag heap).map (·.2)
  | .fileOpen t inodeNo flag => (fileOpen k t inodeNo flag).map (·.2)
  | .fileClose g => (fileClose k g).map (·.2)

/-- No file is open; directories may be, any number of them. -/
structure NoFiles (k : FileSys p) : Prop where
  steady : Steady k.part
  null : k.part.noAt 0 = none
  brk : 0 < k.part.brk
  table : ∀ g, (k.fileTable g).fdInode = 0
  room : ∀ a, k.part.cnt a + 64 < 2 ^ 32

/-- Files are opened and closed, one call after the other. -/
def fileMachine (p : Partition) : Machine (FileSys p) FileOp where
  start := NoFiles
  may := fun _ _ => True
  step := FileSys.fileStep

/-- A call that fills an entry for writing does so for an inode without a
writer. -/
def SoleWriter (k : FileSys p) : FileOp → Prop
  | .fileCreate _ _ _ flag heap => k.CanCreate heap → writes flag.toUInt32 = true → ∀ g, g < 32 →
      ∀ n ∈ k.part.noAt (k.fileTable g).fdInode,
        k.part.vol.inodeBitmap.bitmapScan 1 = some (n : Int) → ¬k.Writer g n
  | .fileOpen _ inodeNo flag => k.getFreeSlotInGlobal ≠ none → writes flag.toUInt32 = true →
      ∀ g, g < 32 → ¬k.Writer g (inodeOf k.part inodeNo).no
  | .fileClose _ => True

section

variable {k k' : FileSys p}

theorem NoFiles.tied (h : NoFiles k) : Tied k.part.cnt k := by
  refine ⟨h.steady, h.null, h.brk, fun g _ => h.table g, fun a ha => ?_, h.room⟩
  have : (k.slots a).card = 0 :=
    card_holders_eq_zero.mpr fun g _ heq => ha (heq.symm.trans (h.table g))
  omega

theorem NoFiles.oneWriter (h : NoFiles k) : k.OneWriter := fun _ g _ hw _ => absurd (h.table g) hw.1

/-- One call. -/
theorem fileStep_spec {others : Nat → Nat} (h : Tied others k) (hone : k.OneWriter) {op : FileOp}
    (hstep : k.fileStep op = some k') :
    Tied others k' ∧ (k'.OneWriter ↔ SoleWriter k op) := by
  cases op with
  | fileCreate t parentDir filename flag heap =>
    obtain ⟨⟨r, k''⟩, hcall, rfl⟩ := Option.map_eq_some_iff.mp hstep
    rcases fileCreate_made hcall with ⟨hcan, vol, -, heq⟩ | ⟨hcan, g, n, hmade⟩
    · have hsame : Same k.part (k.setVol vol).part := Same.of_eq h.steady rfl (Nat.le_refl _)
      dsimp only
      rw [heq]
      exact ⟨h.same hsame rfl, iff_of_true (hone.same hsame rfl) fun hcan' => absurd hcan' hcan⟩
    · have hf := hmade.filled h.steady
      refine ⟨h.filled hf, (hf.oneWriter_iff h hone).trans ?_⟩
      constructor
      · intro hsole _ hw g' hg' n' _ hscan'
        obtain rfl : n' = n := by
          have := hmade.scan.symm.trans hscan'
          simpa using this.symm
        exact hsole hw g' hg'
      · intro hsole hw g' hg' hwr
        exact hsole hcan hw g' hg' n hwr.2.2 hmade.scan hwr
  | fileOpen t inodeNo flag =>
    obtain ⟨⟨r, k''⟩, hcall, rfl⟩ := Option.map_eq_some_iff.mp hstep
    rcases fileOpen_spec h.steady h.open_room hcall with ⟨hnone, rfl⟩ | ⟨g, a, hslot, hf, -, -⟩
    · exact ⟨h, iff_of_true hone fun hne => absurd hnone hne⟩
    · refine ⟨h.filled hf, (hf.oneWriter_iff h hone).trans ⟨fun hsole _ => hsole, fun hsole => ?_⟩⟩
      exact hsole (by simp [hslot])
  | fileClose g =>
    obtain ⟨⟨r, k''⟩, hcall, rfl⟩ := Option.map_eq_some_iff.mp hstep
    obtain ⟨-, hc, -, heq⟩ := fileClose_spec h.steady hcall
    have htable := congrArg FileSys.fileTable heq
    exact ⟨h.closed rfl hc htable, iff_of_true (hone.closed rfl hc htable) trivial⟩

end

/-- **At most one writer**, in every run in which a file that has one is not asked
for by another; and in every state of such a run the next call keeps it so just if
it does not ask for that. Entries point to structs in memory throughout. -/
theorem one_writer (k : FileSys p) (h : (fileMachine p).Reach SoleWriter k) :
    k.OneWriter ∧ (∀ g, (k.fileTable g).fdInode ≠ 0 →
        ∃ n, k.part.noAt (k.fileTable g).fdInode = some n) ∧
      ∀ op k', k.fileStep op = some k' → (k'.OneWriter ↔ SoleWriter k op) := by
  have hboth : (∃ others, Tied others k) ∧ k.OneWriter := by
    refine Machine.Reach.invariant (I := fun k => (∃ others, Tied others k) ∧ k.OneWriter) ?_ ?_ h
    · intro k hk
      exact ⟨⟨_, hk.tied⟩, hk.oneWriter⟩
    · intro k op k' hk _ hsole hstep
      obtain ⟨⟨others, htied⟩, hone⟩ := hk
      obtain ⟨htied', hiff⟩ := fileStep_spec htied hone hstep
      exact ⟨⟨others, htied'⟩, hiff.mpr hsole⟩
  obtain ⟨⟨others, htied⟩, hone⟩ := hboth
  exact ⟨hone, fun g hg => htied.valid hg, fun op k' hstep => (fileStep_spec htied hone hstep).2⟩

/-! ## A reader and two writers -/

/-- The small tree with the inode of its file on disk, mounted by a kernel thread
(task 0), beside it a user process (task 1). -/
def smallSys : FileSys blankPartition where
  part :=
    { vol :=
        { ((blankVol.setBlock 0 true).setInode 0 true).setInode 1 true with
          disk := smallDisk.blit (blankPartition.slotAddr 1) (blankInode 1).bytes 76 }
      openInodes := [(1, smallRoot)]
      brk := 2 }
  rootDir := 1
  fileTable := fun _ => ⟨0, 0, 0⟩
  userInodes := []
  dirs := []
  live := {0, 1}
  pcb := fun t => ⟨fun i => if i < 3 then i else -1, 0, t == 1⟩

theorem small_inodeAt (a : Nat) :
    smallSys.part.inodeAt a = if a = 1 then some smallRoot else none := by
  rw [Mounted.inodeAt_eq_lookup]
  show Mounted.lookup [(1, smallRoot)] a = _
  rw [Mounted.lookup_cons]
  by_cases h : a = 1
  · rw [if_pos h.symm, if_pos h]
  · rw [if_neg (Ne.symm h), if_neg h]
    rfl

theorem small_steady : Steady smallSys.part := by
  refine ⟨fun e he => ?_, by decide, fun e he => ?_⟩
  · rw [List.mem_singleton.mp he]
    decide
  · rw [List.mem_singleton.mp he]
    decide

theorem small_noFiles : NoFiles smallSys := by
  refine ⟨small_steady, ?_, by decide, fun _ => rfl, fun a => ?_⟩
  · rw [Mounted.noAt, small_inodeAt]
    rfl
  · rw [Mounted.cnt, small_inodeAt]
    split <;> decide

instance (k : FileSys p) (g n : Nat) : Decidable (k.Writer g n) :=
  inferInstanceAs (Decidable (_ ∧ _ ∧ _))

instance (k : FileSys p) (heap : Grants) : Decidable (k.CanCreate heap) :=
  inferInstanceAs (Decidable (_ ∧ _ ∧ _))

instance (k : FileSys p) (op : FileOp) : Decidable (SoleWriter k op) :=
  match op with
  | .fileCreate _ _ _ flag heap => inferInstanceAs (Decidable (k.CanCreate heap →
      writes flag.toUInt32 = true → ∀ g, g < 32 → ∀ n ∈ k.part.noAt (k.fileTable g).fdInode,
        k.part.vol.inodeBitmap.bitmapScan 1 = some (n : Int) → ¬k.Writer g n))
  | .fileOpen _ inodeNo flag => inferInstanceAs (Decidable (k.getFreeSlotInGlobal ≠ none →
      writes flag.toUInt32 = true → ∀ g, g < 32 → ¬k.Writer g (inodeOf k.part inodeNo).no))
  | .fileClose _ => isTrue trivial

instance (k : FileSys p) (op : FileOp) : Decidable ((fileMachine p).may k op) := isTrue trivial

/-- `AA` is written and read, then another file is made, and `AA` is opened for
writing after the writer has closed it. -/
theorem one_writer_in_turn :
    ∃ k, (fileMachine blankPartition).follow SoleWriter smallSys [.fileOpen 0 1 1, .fileOpen 1 1 0,
        .fileCreate 0 .root [66] 2 ⟨true, true⟩, .fileClose 3, .fileOpen 1 1 1] = some k ∧
      k.Writer 3 1 ∧ k.Writer 5 2 ∧ k.OneWriter := by
  have hsome : ((fileMachine blankPartition).follow SoleWriter smallSys [.fileOpen 0 1 1,
      .fileOpen 1 1 0, .fileCreate 0 .root [66] 2 ⟨true, true⟩, .fileClose 3,
      .fileOpen 1 1 1]).map (fun k => (decide (k.Writer 3 1), decide (k.Writer 5 2))) =
        some (true, true) := by decide +kernel
  obtain ⟨k, hk, he⟩ := Option.map_eq_some_iff.mp hsome
  simp only [Prod.mk.injEq, decide_eq_true_eq] at he
  have hreach : (fileMachine blankPartition).Reach SoleWriter k :=
    Machine.reach_of_follow (Machine.Reach.start small_noFiles) hk
  exact ⟨k, hk, he.1, he.2, (one_writer k hreach).1⟩

/-- The file is opened for writing by one process and for reading by another; the
reader closes it, and opens it again for writing. -/
def readerBetween : List FileOp :=
  [.fileOpen 0 1 1, .fileOpen 1 1 0, .fileClose 4, .fileOpen 1 1 1]

/-- **Two writers**, both with a descriptor: the reader's close took the flag
away. -/
theorem reader_lets_second_writer_in :
    ∃ k, (fileMachine blankPartition).Reachable k ∧ k.Writer 3 1 ∧ k.Writer 4 1 ∧
      (k.pcb 0).fdTable 3 = 3 ∧ (k.pcb 1).fdTable 4 = 4 ∧ ¬k.OneWriter := by
  have hsome : ((fileMachine blankPartition).follow (fun _ _ => True) smallSys readerBetween).map
      (fun k => (decide (k.Writer 3 1), decide (k.Writer 4 1), (k.pcb 0).fdTable 3,
        (k.pcb 1).fdTable 4)) = some (true, true, 3, 4) := by decide +kernel
  obtain ⟨k, hk, he⟩ := Option.map_eq_some_iff.mp hsome
  simp only [Prod.mk.injEq, decide_eq_true_eq] at he
  obtain ⟨h3, h4, hfd3, hfd4⟩ := he
  have hreach : (fileMachine blankPartition).Reachable k :=
    Machine.reach_of_follow (Machine.Reach.start small_noFiles) hk
  exact ⟨k, hreach, h3, h4, hfd3, hfd4, fun hone => absurd (hone 1 3 4 h3 h4) (by decide)⟩

end OsCore.Fs
