import OsCore.Fs.Descriptors

/-!
# Closing a file that others have open

`close`, `exit` and `fork` treat the two kinds of entries differently. For a pipe
they keep count, and the entry lives as long as a descriptor for it. For a regular
file `close` and `exit` empty the entry at once; the descriptors that a fork made
of the same entry then stand for nothing, or for whatever file the entry is filled
with next.

`descriptors_stay_valid` says that this is the only way a descriptor goes bad:
where an entry for a file is closed by the one task that has it, all descriptors
of live tasks stand for occupied entries.
-/

namespace OsCore.Fs

open OsCore.Lib

variable {p : Partition}

/-! ## One call -/

namespace FileSys

/-- The descriptors of live tasks. -/
def descriptors (k : FileSys p) : Finset (Nat × Nat) := k.live ×ˢ Finset.Ico 3 8

theorem mem_descriptors {k : FileSys p} {x : Nat × Nat} :
    x ∈ k.descriptors ↔ x.1 ∈ k.live ∧ 3 ≤ x.2 ∧ x.2 < 8 := by
  rw [descriptors, Finset.mem_product, Finset.mem_Ico]

theorem fd_setFd (k : FileSys p) (t i : Nat) (g : Int) :
    (k.setFd t i g).fd = Function.update k.fd (t, i) g := by
  funext x
  obtain ⟨u, j⟩ := x
  by_cases hu : u = t
  · subst hu
    by_cases hj : j = i
    · subst hj
      simp [fd, setFd]
    · simp [fd, setFd, hj]
  · simp [fd, setFd, hu]

/-- All is well with the descriptors of live tasks. -/
def Sound (slack : Nat) (k : FileSys p) : Prop := Fs.Sound slack k.descriptors k.fileTable k.fd

end FileSys

/-- No entry changes its kind, and none is filled. -/
def NoneFilled (table table' : Nat → FileSlot) : Prop :=
  ∀ g, (table' g).fdFlag = (table g).fdFlag ∧ ((table' g).fdInode ≠ 0 → (table g).fdInode ≠ 0)

theorem NoneFilled.refl (table : Nat → FileSlot) : NoneFilled table table := fun _ => ⟨rfl, id⟩

theorem NoneFilled.trans {a b c : Nat → FileSlot} (h1 : NoneFilled a b) (h2 : NoneFilled b c) :
    NoneFilled a c := fun g =>
  ⟨(h2 g).1.trans (h1 g).1, fun hne => (h1 g).2 ((h2 g).2 hne)⟩

theorem NoneFilled.update {table : Nat → FileSlot} {g : Nat} {f : FileSlot}
    (hflag : f.fdFlag = (table g).fdFlag) (hinode : f.fdInode ≠ 0 → (table g).fdInode ≠ 0) :
    NoneFilled table (Function.update table g f) := by
  intro g'
  by_cases he : g' = g
  · subst he
    rw [Function.update_self]
    exact ⟨hflag, hinode⟩
  · rw [Function.update_of_ne he]
    exact ⟨rfl, id⟩

theorem FileSlot.drop_inode {f : FileSlot} (h : f.drop.fdInode ≠ 0) : f.fdInode ≠ 0 := by
  unfold FileSlot.drop at h
  split at h
  · exact absurd rfl h
  · exact h

section

variable {k k' : FileSys p} {slack t : Nat}

theorem SameTables.sound (h : SameTables k k') (hk : k.Sound slack) : k'.Sound slack := by
  unfold FileSys.Sound FileSys.descriptors at hk ⊢
  have hfd : k'.fd = k.fd := by
    funext x
    rw [FileSys.fd, FileSys.fd, h.pcb]
  rw [h.table, h.live, hfd]
  exact hk

theorem Slotted.sound {g a : Nat} {flags : UInt8} (h : Slotted k t g a flags k') (ha : a ≠ 0)
    (hk : k.Sound slack) : k'.Sound slack := by
  have hlive : k'.descriptors = k.descriptors := by
    rw [FileSys.descriptors, FileSys.descriptors, h.live]
  have hfd : k'.fd = k.fd ∨ ∃ i, k.fd (t, i) = -1 ∧ k'.fd = Function.update k.fd (t, i) (g : Int) := by
    rcases h.pcb with heq | ⟨i, -, -, hfree, heq⟩
    · apply Or.inl
      funext x
      rw [FileSys.fd, FileSys.fd, heq]
    · refine Or.inr ⟨i, hfree, ?_⟩
      rw [← k.fd_setFd]
      funext x
      rw [FileSys.fd, FileSys.fd, heq]
  unfold FileSys.Sound
  rw [hlive, h.table]
  refine Sound.fill hk h.ge h.lt h.free ha (fun x _ => ?_)
    (fun hpipe => absurd hpipe (toUInt32_ne_pipeFlag flags)) fun _ x hx y hy hgx hgy => ?_
  · rcases hfd with heq | ⟨i, hi, heq⟩
    · exact Or.inl (by rw [heq])
    · rw [heq, Function.update_apply]
      split
      · next hxi => exact Or.inr ⟨hxi ▸ hi, rfl⟩
      · exact Or.inl rfl
  · -- the entry was free, so the new descriptor is the only one
    rcases hfd with heq | ⟨i, -, heq⟩
    · rw [heq] at hgx
      exact absurd hgx (Sound.not_held hk h.free hx)
    · rw [heq, Function.update_apply] at hgx hgy
      split at hgx
      · next hxi =>
        split at hgy
        · next hyi => rw [hxi, hyi]
        · exact absurd hgy (Sound.not_held hk h.free hy)
      · exact absurd hgx (Sound.not_held hk h.free hx)

theorem Opened.sound {flags : UInt8} (h : Opened k t flags k') (hk : k.Sound slack) :
    k'.Sound slack := by
  cases h with
  | failed h => exact h.sound hk
  | filled h1 h2 ha h3 => exact h3.sound (h2.sound ha (h1.sound hk))

/-- `file_close` on the tables. -/
theorem fileClose_tables {g : Nat} {r : Int} (hn : NonNull k.part)
    (h : fileClose k g = some (r, k')) : NonNull k'.part ∧ (k.fileTable g).fdInode ≠ 0 ∧
      k' = { k with part := k'.part }.setSlot g { k.fileTable g with fdInode := 0 } := by
  simp only [fileClose, Option.bind_eq_bind, Option.bind_eq_some_iff, Option.pure_def,
    Option.some.injEq, Prod.mk.injEq] at h
  obtain ⟨i, hi, k1, hk1, rfl, rfl⟩ := h
  obtain ⟨-, part, hclose, rfl⟩ := FileSys.inodeClose_eq hk1
  exact ⟨inodeClose_nonNull (hn.modifyInode _ _) hclose, hn.ne_zero hi, rfl⟩

/-- A descriptor goes and its place in the table is free. -/
theorem Sound.clear {D : Finset (Nat × Nat)} {table : Nat → FileSlot} {fd : Nat × Nat → Int}
    {x : Nat × Nat} (hx : x ∈ D) (hsmall : x.1 < pages ∧ 3 ≤ x.2 ∧ x.2 < 8)
    (h : Sound slack (D.erase x) table fd) : Sound slack D table (Function.update fd x (-1)) := by
  have hfd : ∀ y ∈ D.erase x, Function.update fd x (-1) y = fd y := fun y hy =>
    Function.update_of_ne (Finset.ne_of_mem_erase hy) _ _
  have htake := (h.congr_fd hfd).take_none hsmall (Function.update_self ..)
  rwa [Finset.insert_erase hx] at htake

/-- Nobody but `t` has a descriptor for entry `g`. -/
def FileSys.Sole (k : FileSys p) (t g : Nat) : Prop :=
  ∀ t' ∈ k.live, t' ≠ t → ∀ i, 3 ≤ i → i < 8 → k.fd (t', i) ≠ g

/-- What `sys_close` of descriptor `i` does, seen from any set `D` of descriptors
that has it. -/
structure Closed (slack : Nat) (D : Finset (Nat × Nat)) (k : FileSys p) (t i : Nat)
    (k' : FileSys p) : Prop where
  part : NonNull k'.part
  live : k'.live = k.live
  table : NoneFilled k.fileTable k'.fileTable
  fd : k'.fd = Function.update k.fd (t, i) (-1)
  sound : Fs.Sound slack (D.erase (t, i)) k'.fileTable k.fd

/-- A pipe is closed, or a file nobody else has. -/
theorem CloseCall.closed {i : Nat} {D : Finset (Nat × Nat)} (h : CloseCall k t i k') (h3 : 3 ≤ i)
    (hx : (t, i) ∈ D) (hn : NonNull k.part) (hk : Fs.Sound slack D k.fileTable k.fd)
    (hothers : ∀ g : Nat, k.fd (t, i) = g → (k.fileTable g).fdFlag ≠ pipeFlag →
      ∀ y ∈ D, y.1 ≠ t → k.fd y ≠ g) : Closed slack D k t i k' := by
  cases h with
  | std h2 _ => omega
  | pipe i' g hi _ h8 hg hpipe heq =>
    obtain rfl : i = i' := by omega
    subst heq
    obtain ⟨g', hg', -, -, hocc⟩ := (hk.fds _ hx).resolve_left (by omega)
    obtain rfl : g' = g := by omega
    exact ⟨hn, rfl, NoneFilled.update rfl FileSlot.drop_inode, FileSys.fd_setFd .., hk.drop hx hg hocc hpipe⟩
  | file i' g r k1 hi _ h8 hg hfile hclose heq =>
    obtain rfl : i = i' := by omega
    subst heq
    obtain ⟨hn1, -, hk1⟩ := fileClose_tables hn hclose
    have hsole : ∀ y ∈ D, y ≠ (t, i) → k.fd y ≠ g := by
      intro y hy hne hgy
      by_cases hyt : y.1 = t
      · exact hne (hk.own y hy (t, i) hx g hyt hgy hg hfile)
      · exact hothers g hg hfile y hy hyt hgy
    refine ⟨hn1, ?_, ?_, ?_, ?_⟩
    · rw [hk1]
      rfl
    · rw [hk1]
      exact NoneFilled.update rfl fun h0 => absurd rfl h0
    · rw [FileSys.fd_setFd, hk1]
      rfl
    · rw [hk1]
      exact hk.forget hg hsole rfl

/-- A file is closed, whoever else has it. -/
theorem CloseCall.empties {i g : Nat} (h : CloseCall k t i k') (h3 : 3 ≤ i) (hn : NonNull k.part)
    (hg : k.fd (t, i) = g) (hfile : (k.fileTable g).fdFlag ≠ pipeFlag) :
    NonNull k'.part ∧ k'.live = k.live ∧ NoneFilled k.fileTable k'.fileTable ∧
      (∀ x, x ≠ (t, i) → k'.fd x = k.fd x) ∧
      ∀ g : Nat, k.fd (t, i) = g → (k.fileTable g).fdFlag ≠ pipeFlag →
        (k'.fileTable g).fdInode = 0 := by
  cases h with
  | std h2 _ => omega
  | pipe i' g' hi _ _ hg' hpipe _ =>
    obtain rfl : i = i' := by omega
    obtain rfl : g = g' := by omega
    exact absurd hpipe hfile
  | file i' g' r k1 hi _ _ hg' _ hclose heq =>
    obtain rfl : i = i' := by omega
    obtain rfl : g = g' := by omega
    subst heq
    obtain ⟨hn1, -, hk1⟩ := fileClose_tables hn hclose
    refine ⟨hn1, ?_, ?_, fun x hx => ?_, fun g' hg'' _ => ?_⟩
    · rw [hk1]
      rfl
    · rw [hk1]
      exact NoneFilled.update rfl fun h0 => absurd rfl h0
    · rw [FileSys.fd_setFd, Function.update_of_ne hx, hk1]
      rfl
    · obtain rfl : g' = g := by omega
      rw [hk1]
      show (Function.update k.fileTable g' _ g').fdInode = 0
      rw [Function.update_self]

/-- **`sys_close`** of a pipe, or of a file nobody else has. -/
theorem sysClose_sound {fd r : Int} (ht : t ∈ k.live) (hn : NonNull k.part) (hk : k.Sound slack)
    (hsole : ∀ i g : Nat, fd = i → 3 ≤ i → i < 8 → k.fd (t, i) = g →
      (k.fileTable g).fdFlag ≠ pipeFlag → k.Sole t g)
    (h : sysClose k t fd = some (r, k')) :
    NonNull k'.part ∧ NoneFilled k.fileTable k'.fileTable ∧ k'.Sound slack := by
  have hcall := sysClose_cases h
  by_cases h2 : fd ≤ 2
  · cases hcall with
    | std _ heq =>
      subst heq
      exact ⟨hn, NoneFilled.refl _, hk⟩
    | pipe i g hi h3 => omega
    | file i g r k1 hi h3 => omega
  · obtain ⟨i, rfl⟩ : ∃ i : Nat, fd = i := ⟨fd.toNat, by omega⟩
    have h8 : i < 8 := by
      cases hcall with
      | std h2' _ => omega
      | pipe i' g hi _ h8 => omega
      | file i' g r k1 hi _ h8 => omega
    have hx : (t, i) ∈ k.descriptors := FileSys.mem_descriptors.mpr ⟨ht, by omega, h8⟩
    have hc := hcall.closed (by omega) hx hn hk fun g hg hfile y hy hyt => by
      obtain ⟨hylive, hy3, hy8⟩ := FileSys.mem_descriptors.mp hy
      exact hsole i g rfl (by omega) h8 hg hfile y.1 hylive hyt y.2 hy3 hy8
    refine ⟨hc.part, hc.table, ?_⟩
    unfold FileSys.Sound FileSys.descriptors
    rw [hc.live, hc.fd]
    exact Sound.clear hx (Sound.small hk _ hx) hc.sound

/-- How many descriptors task `t` can still get. -/
def FileSys.freePlaces (k : FileSys p) (t : Nat) : Nat :=
  (holders (Finset.Ico 3 8) (k.pcb t).fdTable (-1)).card

/-- What a descriptor for entry `g`, if there is a place for one, changes. -/
structure Gets (k : FileSys p) (t g : Nat) (k' : FileSys p) : Prop where
  part : k'.part = k.part
  table : k'.fileTable = k.fileTable
  live : k'.live = k.live
  fd : ∀ x, k'.fd x = k.fd x ∨ k.fd x = -1 ∧ k'.fd x = g
  count : (holders k.descriptors k'.fd (g : Int)).card =
    (holders k.descriptors k.fd (g : Int)).card + min 1 (k.freePlaces t)
  free : k'.freePlaces t = k.freePlaces t - 1

theorem Installed.gets {g : Nat} {r : Int} (h : Installed k t g r k') (ht : t ∈ k.live) :
    Gets k t g k' := by
  cases h with
  | full hfull =>
    have hzero : k.freePlaces t = 0 := card_holders_eq_zero.mpr fun i hi =>
      hfull i (Finset.mem_Ico.mp hi).1 (Finset.mem_Ico.mp hi).2
    exact ⟨rfl, rfl, rfl, fun _ => Or.inl rfl, by rw [hzero]; rfl, by rw [hzero]⟩
  | fd i h3 h8 hfree =>
    have hi : i ∈ Finset.Ico 3 8 := Finset.mem_Ico.mpr ⟨h3, h8⟩
    have hx : (t, i) ∈ k.descriptors := FileSys.mem_descriptors.mpr ⟨ht, h3, h8⟩
    have hfd : k.fd (t, i) = -1 := hfree
    have hpos : 0 < k.freePlaces t := card_holders_pos hi hfree
    refine ⟨rfl, rfl, rfl, fun x => ?_, ?_, ?_⟩
    · rw [FileSys.fd_setFd, Function.update_apply]
      split
      · next hxi => exact Or.inr ⟨hxi ▸ hfd, rfl⟩
      · exact Or.inl rfl
    · have hcard := card_holders_update hx (f := k.fd) (g : Int) (g : Int)
      rw [if_neg (by omega), if_pos rfl, Nat.add_zero] at hcard
      rw [FileSys.fd_setFd, hcard]
      omega
    · have hcard := card_holders_update hi (f := (k.pcb t).fdTable) (g : Int) (-1)
      rw [if_pos hfree, if_neg (by omega), Nat.add_zero] at hcard
      have htable : ((k.setFd t i g).pcb t).fdTable =
          Function.update (k.pcb t).fdTable i (g : Int) := by
        simp [FileSys.setFd]
      rw [FileSys.freePlaces, htable]
      exact Nat.eq_sub_of_add_eq hcard

/-- Entry `g` is a pipe now. It counts two descriptors, and `t` has got as many as
there was room for. -/
structure Piped (k : FileSys p) (t g page : Nat) (k' : FileSys p) : Prop where
  ge : 3 ≤ g
  lt : g < 32
  free : (k.fileTable g).fdInode = 0
  nonNull : page ≠ 0
  part : k'.part = k.part
  table : k'.fileTable = Function.update k.fileTable g ⟨2, pipeFlag, page⟩
  live : k'.live = k.live
  fd : ∀ x, k'.fd x = k.fd x ∨ k.fd x = -1 ∧ k'.fd x = g
  count : (holders k.descriptors k'.fd (g : Int)).card =
    (holders k.descriptors k.fd (g : Int)).card + min 2 (k.freePlaces t)

theorem sysPipe_piped {page : Nat} {fd0 fd1 : Int} (ht : t ∈ k.live)
    (h : sysPipe k t page = some (fd0, fd1, k')) : ∃ g, Piped k t g page k' := by
  simp only [sysPipe, Option.bind_eq_bind, Option.bind_eq_some_iff, ensure_eq_some, Option.pure_def,
    Option.some.injEq, Prod.mk.injEq] at h
  obtain ⟨g, hslot, -, hpage, -, -, rfl⟩ := h
  obtain ⟨h3, h32, hfree⟩ := getFreeSlot_some hslot
  obtain ⟨r1, k1, hk1⟩ : ∃ r1 k1,
      (k.setSlot g ⟨2, pipeFlag, page⟩).pcbFdInstall t g = (r1, k1) := ⟨_, _, rfl⟩
  obtain ⟨r2, k2, hk2⟩ : ∃ r2 k2, k1.pcbFdInstall t g = (r2, k2) := ⟨_, _, rfl⟩
  have hg1 := (pcbFdInstall_spec hk1).gets ht
  have hg2 := (pcbFdInstall_spec hk2).gets (hg1.live ▸ ht)
  rw [hk1]
  dsimp only
  rw [hk2]
  refine ⟨g, h3, h32, hfree, hpage, hg2.part.trans hg1.part, hg2.table.trans hg1.table,
    hg2.live.trans hg1.live, fun x => ?_, ?_⟩
  · rcases hg2.fd x with heq2 | ⟨hnone, heq2⟩
    · rw [heq2]
      exact hg1.fd x
    · rcases hg1.fd x with heq1 | ⟨-, heq1⟩
      · exact Or.inr ⟨heq1 ▸ hnone, heq2⟩
      · omega
  · have hD1 : k1.descriptors = k.descriptors := by
      rw [FileSys.descriptors, FileSys.descriptors, hg1.live]
      rfl
    have h1 : (holders k.descriptors k1.fd (g : Int)).card =
        (holders k.descriptors k.fd (g : Int)).card + min 1 (k.freePlaces t) := hg1.count
    have hfree1 : k1.freePlaces t = k.freePlaces t - 1 := hg1.free
    have h2 := hg2.count
    rw [hD1, h1, hfree1] at h2
    dsimp only
    omega

/-- **`sys_pipe`.** Where there is room for both descriptors, or what is missing
may be missing. -/
theorem Piped.sound {g page : Nat} (h : Piped k t g page k') (hk : k.Sound slack)
    (hroom : 2 ≤ k.freePlaces t + slack) : k'.Sound slack := by
  have hcard := h.count
  rw [Sound.card_free hk h.free, Nat.zero_add] at hcard
  have hD : k'.descriptors = k.descriptors := by
    rw [FileSys.descriptors, FileSys.descriptors, h.live]
  unfold FileSys.Sound
  rw [hD, h.table]
  refine Sound.fill hk h.ge h.lt h.free h.nonNull (fun x _ => h.fd x) (fun _ => ?_)
    fun hreg => absurd rfl hreg
  rw [hcard]
  show 0 < 2 ∧ _ ≤ 2 ∧ 2 ≤ _
  omega

end

/-! ## `fork` and `exit`, one descriptor at a time -/

/-- The descriptors of live tasks, and those of `child` before place `i`. -/
def FileSys.copied (k : FileSys p) (child i : Nat) : Finset (Nat × Nat) :=
  k.descriptors ∪ {child} ×ˢ Finset.Ico 3 i

section

variable {k k' : FileSys p} {slack t child : Nat}

theorem FileSys.mem_copied {i : Nat} {x : Nat × Nat} :
    x ∈ k.copied child i ↔ x ∈ k.descriptors ∨ x.1 = child ∧ 3 ≤ x.2 ∧ x.2 < i := by
  rw [copied, Finset.mem_union, Finset.mem_product, Finset.mem_singleton, Finset.mem_Ico]

theorem FileSys.copied_succ {i : Nat} (h3 : 3 ≤ i) :
    k.copied child (i + 1) = insert (child, i) (k.copied child i) := by
  ext x
  rw [Finset.mem_insert, mem_copied, mem_copied, Prod.ext_iff]
  constructor
  · intro h
    rcases h with h | ⟨hc, hx3, hlt⟩
    · exact Or.inr (Or.inl h)
    · rcases Nat.lt_succ_iff_lt_or_eq.mp hlt with hlt | heq
      · exact Or.inr (Or.inr ⟨hc, hx3, hlt⟩)
      · exact Or.inl ⟨hc, heq⟩
  · intro h
    rcases h with ⟨hc, heq⟩ | h | ⟨hc, hx3, hlt⟩
    · exact Or.inr ⟨hc, heq ▸ h3, heq ▸ Nat.lt_succ_self _⟩
    · exact Or.inl h
    · exact Or.inr ⟨hc, hx3, Nat.lt_succ_of_lt hlt⟩

/-- The loop of `update_inode_open_cnts`, where the table of `child` is a copy of
that of `t`: descriptor after descriptor of the child is accounted for. -/
theorem updateInodeOpenCnts_sound (ht : t ∈ k.live) (hc : child ∉ k.live) (hpage : child < pages)
    (hslack : slack ≤ pages) {n i : Nat} (hi : i + n = 8) (h3 : 3 ≤ i) (hn : NonNull k.part)
    (hcopy : (k.pcb child).fdTable = (k.pcb t).fdTable)
    (hk : Fs.Sound slack (k.copied child i) k.fileTable k.fd)
    (h : updateInodeOpenCnts t child n i k = some k') :
    NonNull k'.part ∧ k'.pcb = k.pcb ∧ k'.live = k.live ∧ NoneFilled k.fileTable k'.fileTable ∧
      Fs.Sound slack (k.copied child 8) k'.fileTable k.fd := by
  induction n generalizing i k with
  | zero =>
    obtain rfl : i = 8 := by omega
    obtain rfl := Option.some.inj h
    exact ⟨hn, rfl, rfl, NoneFilled.refl _, hk⟩
  | succ n ih =>
    have hsmall : child < pages ∧ 3 ≤ i ∧ i < 8 := ⟨hpage, h3, by omega⟩
    have hnew : (child, i) ∉ k.copied child i := by
      rw [FileSys.mem_copied, FileSys.mem_descriptors]
      intro hor
      rcases hor with ⟨hlive, -⟩ | ⟨-, -, hlt⟩
      · exact hc hlive
      · exact Nat.lt_irrefl i hlt
    have hfd : k.fd (child, i) = (k.pcb t).fdTable i := congrFun hcopy i
    unfold updateInodeOpenCnts at h
    simp only [hcopy, Option.bind_eq_bind, Option.bind_eq_some_iff, ensure_eq_some] at h
    obtain ⟨-, hlt, h⟩ := h
    split at h
    · next hnone =>
      refine ih ht hc (by omega) (by omega) hn hcopy ?_ h
      rw [FileSys.copied_succ h3]
      exact hk.take_none hsmall (hfd.trans hnone)
    · next hsome =>
      -- the running task's table has the same entry at `i`
      have hx : (t, i) ∈ k.copied child i :=
        FileSys.mem_copied.mpr (Or.inl (FileSys.mem_descriptors.mpr ⟨ht, h3, by omega⟩))
      obtain ⟨g, hg, hg3, hg32, hocc⟩ := (hk.fds _ hx).resolve_left hsome
      have hg' : (k.pcb t).fdTable i = (g : Int) := hg
      have hown : (k.fileTable g).fdFlag ≠ pipeFlag →
          ∀ y ∈ k.copied child i, y.1 = child → k.fd y ≠ g := by
        intro hreg y hy hyc hgy
        rcases FileSys.mem_copied.mp hy with hyD | ⟨-, hy3, hyi⟩
        · exact hc (hyc ▸ (FileSys.mem_descriptors.mp hyD).1)
        · have hty : k.fd (t, y.2) = g := by
            rw [← hgy]
            show (k.pcb t).fdTable y.2 = (k.pcb y.1).fdTable y.2
            rw [hyc, hcopy]
          have htD : (t, y.2) ∈ k.copied child i :=
            FileSys.mem_copied.mpr (Or.inl (FileSys.mem_descriptors.mpr ⟨ht, hy3, by omega⟩))
          have hsame := hk.own (t, y.2) htD (t, i) hx g rfl hty hg hreg
          exact absurd (Prod.mk.inj hsame).2 (by omega)
      have htake := hk.take hnew hsmall (hfd.trans hg') ⟨hg3, hg32, hocc⟩ hslack hown rfl
      rw [← FileSys.copied_succ h3] at htake
      simp only [fdLocal2global, Option.bind_eq_bind, Option.bind_eq_some_iff, ensure_eq_some, hg',
        Int.toNat_natCast, Option.pure_def, Option.some.injEq] at h
      obtain ⟨_, ⟨-, -, rfl⟩, h⟩ := h
      split at h
      · next hpipe =>
        rw [if_pos hpipe] at htake
        obtain ⟨hn', hpcb, hlive, hshrink, hsound⟩ := ih (k := k.setSlot g _) ht hc (by omega)
          (by omega) hn hcopy htake h
        have hfirst : NoneFilled k.fileTable (Function.update k.fileTable g
            { k.fileTable g with fdPos := (k.fileTable g).fdPos + 1 }) := NoneFilled.update rfl id
        exact ⟨hn', hpcb, hlive, hfirst.trans hshrink, hsound⟩
      · next hfile =>
        rw [if_neg hfile] at htake
        have hn1 := hn.modifyInode (k.fileTable g).fdInode fun i =>
          i.setOpenCnts (i.iOpenCnts.toNat + 1)
        exact ih (k := { k with part := k.part.modifyInode (k.fileTable g).fdInode _ }) ht hc
          (by omega) (by omega) hn1 hcopy htake h

/-- **`sys_fork`** by `t` for a new task `child`. -/
theorem sysFork_sound {granted : Bool} (ht : t ∈ k.live) (hc : child ∉ k.live)
    (hpage : child < pages) (hslack : slack ≤ pages) (hn : NonNull k.part) (hk : k.Sound slack)
    (h : sysFork k t child granted = some k') :
    NonNull k'.part ∧ NoneFilled k.fileTable k'.fileTable ∧ k'.Sound slack := by
  simp only [sysFork, Option.bind_eq_bind, Option.bind_eq_some_iff, ensure_eq_some] at h
  obtain ⟨-, -, h⟩ := h
  split at h
  · simp only [Option.bind_eq_some_iff, Option.pure_def, Option.some.injEq] at h
    obtain ⟨k1, hloop, rfl⟩ := h
    have hne : t ≠ child := fun he => hc (he ▸ ht)
    obtain ⟨k0, hk0⟩ : ∃ k0 : FileSys p, k0 = { k with pcb := Function.update k.pcb child (k.pcb t) } :=
      ⟨_, rfl⟩
    rw [← hk0] at hloop
    have hlive0 : k0.live = k.live := by rw [hk0]
    have hcopy : (k0.pcb child).fdTable = (k0.pcb t).fdTable := by
      rw [hk0]
      dsimp only
      rw [Function.update_self, Function.update_of_ne hne]
    have hsound : Fs.Sound slack (k0.copied child 3) k0.fileTable k0.fd := by
      have hD : k0.copied child 3 = k.descriptors := by
        ext x
        rw [FileSys.mem_copied, FileSys.mem_descriptors, FileSys.mem_descriptors, hlive0]
        exact or_iff_left fun hx => absurd hx.2.2 (by omega)
      rw [hD, hk0]
      apply Sound.congr_fd hk
      intro x hx
      have hxc : x.1 ≠ child := fun he => hc (he ▸ (FileSys.mem_descriptors.mp hx).1)
      show (Function.update k.pcb child (k.pcb t) x.1).fdTable x.2 = (k.pcb x.1).fdTable x.2
      rw [Function.update_of_ne hxc]
    obtain ⟨hn', hpcb, hlive, hshrink, hend⟩ := updateInodeOpenCnts_sound (hlive0 ▸ ht)
      (hlive0 ▸ hc) hpage hslack rfl (Nat.le_refl 3) (by rw [hk0]; exact hn) hcopy hsound hloop
    refine ⟨hn', by rw [hk0] at hshrink; exact hshrink, ?_⟩
    have hD : k0.copied child 8 =
        FileSys.descriptors { k1 with live := insert child k1.live } := by
      ext x
      rw [FileSys.mem_copied, FileSys.mem_descriptors, FileSys.mem_descriptors, hlive,
        Finset.mem_insert]
      tauto
    unfold FileSys.Sound
    rw [← hD]
    apply hend.congr_fd
    intro x _
    rw [FileSys.fd, FileSys.fd, hpcb]
  · obtain rfl := Option.some.inj h
    exact ⟨hn, NoneFilled.refl _, hk⟩

/-- The descriptors of live tasks, those of `t` only from place `i` on. -/
def FileSys.remaining (k : FileSys p) (t i : Nat) : Finset (Nat × Nat) :=
  k.descriptors.filter fun x => x.1 = t → i ≤ x.2

theorem FileSys.mem_remaining {i : Nat} {x : Nat × Nat} :
    x ∈ k.remaining t i ↔ x ∈ k.descriptors ∧ (x.1 = t → i ≤ x.2) := Finset.mem_filter

theorem FileSys.remaining_succ (i : Nat) :
    k.remaining t (i + 1) = (k.remaining t i).erase (t, i) := by
  ext x
  rw [Finset.mem_erase, mem_remaining, mem_remaining, ne_eq, Prod.ext_iff]
  dsimp only
  constructor
  · intro ⟨hx, hle⟩
    exact ⟨fun heq => absurd (hle heq.1) (by omega), hx, fun ht => Nat.le_of_succ_le (hle ht)⟩
  · intro ⟨hne, hx, hle⟩
    refine ⟨hx, fun ht => Nat.lt_of_le_of_ne (hle ht) fun heq => hne ⟨ht, heq.symm⟩⟩

/-- `t` shares none of the files it has open from place `i` on. -/
def FileSys.SoleFrom (k : FileSys p) (t i : Nat) : Prop :=
  ∀ j g : Nat, i ≤ j → j < 8 → k.fd (t, j) = g → (k.fileTable g).fdFlag ≠ pipeFlag → k.Sole t g

/-- One round in the loop of `release_prog_resource` leads from `k` to `k1`. -/
theorem FileSys.SoleFrom.next {k1 : FileSys p} {i : Nat} (h : k.SoleFrom t i)
    (hlive : k1.live = k.live) (htable : NoneFilled k.fileTable k1.fileTable)
    (hfd : ∀ x, x ≠ (t, i) → k1.fd x = k.fd x) : k1.SoleFrom t (i + 1) := by
  intro j g hij h8 hg hfile
  have hjt : (t, j) ≠ (t, i) := fun he => absurd (Prod.mk.inj he).2 (by omega)
  rw [hfd _ hjt] at hg
  rw [(htable g).1] at hfile
  intro t' ht' hne j' h3 h8'
  rw [hlive] at ht'
  have hne' : (t', j') ≠ (t, i) := fun he => hne (Prod.mk.inj he).1
  rw [hfd _ hne']
  exact h j g (by omega) h8 hg hfile t' ht' hne j' h3 h8'

/-- One round of the loop. -/
inductive Round (k : FileSys p) (t i : Nat) (k1 : FileSys p) : Prop
  | none : k.fd (t, i) = -1 → k1 = k → Round k t i k1
  | pipe (g : Nat) : k.fd (t, i) = g → (k.fileTable g).fdFlag = pipeFlag →
      k1 = k.setSlot g (k.fileTable g).drop → Round k t i k1
  | file (g : Nat) : k.fd (t, i) = g → (k.fileTable g).fdFlag ≠ pipeFlag → CloseCall k t i k1 →
      Round k t i k1

theorem releaseFiles_succ {n i : Nat} (h : releaseFiles t (n + 1) i k = some k') :
    ∃ k1, Round k t i k1 ∧ releaseFiles t n (i + 1) k1 = some k' := by
  unfold releaseFiles at h
  split at h
  · simp only [fdLocal2global, Option.bind_eq_bind, Option.bind_eq_some_iff, ensure_eq_some,
      Option.pure_def, Option.some.injEq] at h
    obtain ⟨g, ⟨-, ⟨hge, -⟩, hg⟩, h⟩ := h
    have hfd : k.fd (t, i) = g := by
      show (k.pcb t).fdTable i = g
      omega
    split at h
    · next hpipe => exact ⟨_, .pipe g hfd hpipe rfl, h⟩
    · next hfile =>
      simp only [Option.bind_eq_some_iff, Prod.exists] at h
      obtain ⟨r, k1, hclose, h⟩ := h
      exact ⟨k1, .file g hfd hfile (sysClose_cases hclose), h⟩
  · next hnone => exact ⟨k, .none (not_not.mp hnone) rfl, h⟩

/-- The loop over the descriptors in `release_prog_resource`. -/
theorem releaseFiles_sound (ht : t ∈ k.live) {n i : Nat} (hi : i + n = 8) (h3 : 3 ≤ i)
    (hn : NonNull k.part) (hk : Fs.Sound slack (k.remaining t i) k.fileTable k.fd)
    (hsole : k.SoleFrom t i) (h : releaseFiles t n i k = some k') :
    NonNull k'.part ∧ k'.live = k.live ∧ NoneFilled k.fileTable k'.fileTable ∧
      Fs.Sound slack (k.remaining t 8) k'.fileTable k'.fd := by
  induction n generalizing i k with
  | zero =>
    obtain rfl : i = 8 := by omega
    obtain rfl := Option.some.inj h
    exact ⟨hn, rfl, NoneFilled.refl _, hk⟩
  | succ n ih =>
    have hx : (t, i) ∈ k.remaining t i :=
      FileSys.mem_remaining.mpr ⟨FileSys.mem_descriptors.mpr ⟨ht, h3, by omega⟩, fun _ => Nat.le_refl i⟩
    obtain ⟨k1, hround, h⟩ := releaseFiles_succ h
    obtain ⟨hn1, hlive, htable, hfd, hk1⟩ : NonNull k1.part ∧ k1.live = k.live ∧
        NoneFilled k.fileTable k1.fileTable ∧ (∀ x, x ≠ (t, i) → k1.fd x = k.fd x) ∧
        Fs.Sound slack ((k.remaining t i).erase (t, i)) k1.fileTable k.fd := by
      cases hround with
      | none hnone heq =>
        subst heq
        exact ⟨hn, rfl, NoneFilled.refl _, fun _ _ => rfl, hk.erase hnone⟩
      | pipe g hg hpipe heq =>
        subst heq
        obtain ⟨g', hg', -, -, hocc⟩ := (hk.fds _ hx).resolve_left (by omega)
        obtain rfl : g' = g := by omega
        exact ⟨hn, rfl, NoneFilled.update rfl FileSlot.drop_inode, fun _ _ => rfl,
          hk.drop hx hg hocc hpipe⟩
      | file g hg hfile hcall =>
        have hc := hcall.closed h3 hx hn hk fun g' hg'' hfile' y hy hyt => by
          obtain ⟨hyD, -⟩ := FileSys.mem_remaining.mp hy
          obtain ⟨hylive, hy3, hy8⟩ := FileSys.mem_descriptors.mp hyD
          exact hsole i g' (Nat.le_refl i) (by omega) hg'' hfile' y.1 hylive hyt y.2 hy3 hy8
        refine ⟨hc.part, hc.live, hc.table, fun x hx => ?_, hc.sound⟩
        rw [hc.fd, Function.update_of_ne hx]
    have hD : ∀ j, k1.remaining t j = k.remaining t j := fun j => by
      rw [FileSys.remaining, FileSys.remaining, FileSys.descriptors, FileSys.descriptors, hlive]
    have hk1' : Fs.Sound slack (k1.remaining t (i + 1)) k1.fileTable k1.fd := by
      rw [hD, FileSys.remaining_succ]
      exact hk1.congr_fd fun x hx => hfd x (Finset.ne_of_mem_erase hx)
    obtain ⟨hn', hlive', htable', hend⟩ := ih (hlive ▸ ht) (by omega) (by omega) hn1 hk1'
      (hsole.next hlive htable hfd) h
    rw [hD] at hend
    exact ⟨hn', hlive'.trans hlive, htable.trans htable', hend⟩

/-- What the loop does to other tasks' descriptors, whatever state the tables are
in: nothing, but the entries of the files are gone. -/
theorem releaseFiles_empties {n i : Nat} (h3 : 3 ≤ i) (hn : NonNull k.part)
    (h : releaseFiles t n i k = some k') :
    k'.live = k.live ∧ NoneFilled k.fileTable k'.fileTable ∧ (∀ x, x.1 ≠ t → k'.fd x = k.fd x) ∧
      ∀ j g : Nat, i ≤ j → j < i + n → k.fd (t, j) = g → (k.fileTable g).fdFlag ≠ pipeFlag →
        (k'.fileTable g).fdInode = 0 := by
  induction n generalizing i k with
  | zero =>
    obtain rfl := Option.some.inj h
    exact ⟨rfl, NoneFilled.refl _, fun _ _ => rfl, fun j g hij hj => by omega⟩
  | succ n ih =>
    obtain ⟨k1, hround, h⟩ := releaseFiles_succ h
    obtain ⟨hn1, hlive, htable, hfd, hzero⟩ : NonNull k1.part ∧ k1.live = k.live ∧
        NoneFilled k.fileTable k1.fileTable ∧ (∀ x, x ≠ (t, i) → k1.fd x = k.fd x) ∧
        ∀ g : Nat, k.fd (t, i) = g → (k.fileTable g).fdFlag ≠ pipeFlag →
          (k1.fileTable g).fdInode = 0 := by
      cases hround with
      | none hnone heq =>
        subst heq
        exact ⟨hn, rfl, NoneFilled.refl _, fun _ _ => rfl, fun g hg => by omega⟩
      | pipe g hg hpipe heq =>
        subst heq
        refine ⟨hn, rfl, NoneFilled.update rfl FileSlot.drop_inode, fun _ _ => rfl, fun g' hg' hfile => ?_⟩
        obtain rfl : g' = g := by omega
        exact absurd hpipe hfile
      | file g hg hfile hcall => exact hcall.empties h3 hn hg hfile
    obtain ⟨hlive', htable', hfd', hzero'⟩ := ih (by omega) hn1 h
    refine ⟨hlive'.trans hlive, htable.trans htable', fun x hx => ?_, fun j g hij hj hg hfile => ?_⟩
    · rw [hfd' x hx]
      exact hfd x fun he => hx (congrArg Prod.fst he)
    · by_cases he : j = i
      · subst he
        by_contra hne
        exact (htable' g).2 hne (hzero g hg hfile)
      · have hji : (t, j) ≠ (t, i) := fun heq => he (Prod.mk.inj heq).2
        apply hzero' j g (by omega) (by omega) ((hfd _ hji).trans hg)
        rw [(htable g).1]
        exact hfile

/-- **`sys_exit`** of a task that shares none of its files. -/
theorem sysExit_sound (ht : t ∈ k.live) (hn : NonNull k.part) (hk : k.Sound slack)
    (hsole : k.SoleFrom t 3) (h : sysExit k t = some k') :
    NonNull k'.part ∧ NoneFilled k.fileTable k'.fileTable ∧ k'.Sound slack := by
  simp only [sysExit, Option.bind_eq_bind, Option.bind_eq_some_iff, Option.pure_def,
    Option.some.injEq] at h
  obtain ⟨k1, hloop, rfl⟩ := h
  have hall : k.remaining t 3 = k.descriptors := Finset.filter_true_of_mem fun x hx _ =>
    (FileSys.mem_descriptors.mp hx).2.1
  obtain ⟨hn', hlive, htable, hend⟩ := releaseFiles_sound ht rfl (Nat.le_refl 3) hn
    (by rw [hall]; exact hk) hsole hloop
  refine ⟨hn', htable, ?_⟩
  have hD : k.remaining t 8 = FileSys.descriptors { k1 with live := k1.live.erase t } := by
    ext x
    rw [FileSys.mem_remaining, FileSys.mem_descriptors, FileSys.mem_descriptors, hlive,
      Finset.mem_erase]
    constructor
    · intro ⟨⟨hx, hx3, hx8⟩, hle⟩
      exact ⟨⟨fun he => absurd (hle he) (by omega), hx⟩, hx3, hx8⟩
    · intro ⟨⟨hne, hx⟩, hx3, hx8⟩
      exact ⟨⟨hx, hx3, hx8⟩, fun he => absurd he hne⟩
  unfold FileSys.Sound
  rw [← hD]
  exact hend

end

/-! ## Runs -/

/-- The calls that make descriptors, copy and close them, and move positions. -/
inductive FdOp
  | sysOpen (t : Nat) (pathname : List UInt8) (flags : UInt8) (heap : Grants) (stack : Stack)
  | sysClose (t : Nat) (fd : Int)
  | sysPipe (t page : Nat)
  | sysFork (t child : Nat) (granted : Bool)
  | sysExit (t : Nat)
  | sysLseek (t : Nat) (fd offset : Int) (whence : Whence)

namespace FdOp

def isLseek : FdOp → Bool
  | sysLseek .. => true
  | _ => false

def isOpen : FdOp → Bool
  | sysOpen .. => true
  | _ => false

end FdOp

namespace FileSys

def fdStep (k : FileSys p) : FdOp → Option (FileSys p)
  | .sysOpen t pathname flags heap stack => (Fs.sysOpen k t pathname flags heap stack).map (·.2)
  | .sysClose t fd => (Fs.sysClose k t fd).map (·.2)
  | .sysPipe t page => (Fs.sysPipe k t page).map (·.2.2)
  | .sysFork t child granted => Fs.sysFork k t child granted
  | .sysExit t => Fs.sysExit k t
  | .sysLseek t fd offset whence => (k.sysLseek t fd offset whence).map (·.2)

/-- Live tasks make the calls, and a new task gets a page no live task has. -/
def mayCall (k : FileSys p) : FdOp → Prop
  | .sysOpen t _ _ _ _ => t ∈ k.live
  | .sysClose t _ => t ∈ k.live
  | .sysPipe t _ => t ∈ k.live
  | .sysFork t child _ => t ∈ k.live ∧ child ∉ k.live ∧ child < pages
  | .sysExit t => t ∈ k.live
  | .sysLseek t _ _ _ => t ∈ k.live

/-- Every descriptor of a live task stands for an occupied entry. -/
def Valid (k : FileSys p) : Prop :=
  ∀ t ∈ k.live, ∀ i, 3 ≤ i → i < 8 → k.fd (t, i) ≠ -1 →
    ∃ g : Nat, k.fd (t, i) = g ∧ 3 ≤ g ∧ g < 32 ∧ (k.fileTable g).fdInode ≠ 0

end FileSys

/-- Nothing is open. -/
structure AllClosed (k : FileSys p) : Prop where
  nonNull : NonNull k.part
  table : ∀ g, (k.fileTable g).fdInode = 0
  pages : ∀ t ∈ k.live, t < pages
  fds : ∀ t ∈ k.live, ∀ i, 3 ≤ i → i < 8 → k.fd (t, i) = -1

/-- Files and pipes are opened, shared and closed. -/
def descriptorMachine (p : Partition) : Machine (FileSys p) FdOp where
  start := AllClosed
  may := fun k op => k.mayCall op ∧ op.isLseek = false
  step := FileSys.fdStep

/-- If descriptor `i` of `t` is for a file, nobody else has one for the same entry. -/
def FileSys.SoleFile (k : FileSys p) (t i : Nat) : Prop :=
  ∀ g : Nat, g < 32 → k.fd (t, i) = g → (k.fileTable g).fdFlag ≠ pipeFlag → k.Sole t g

/-- A file that is closed, or that the exiting task has open, is not open
elsewhere. -/
def Unshared (k : FileSys p) : FdOp → Prop
  | .sysClose t fd => ∀ i : Nat, i < 8 → 3 ≤ i → fd = i → k.SoleFile t i
  | .sysExit t => ∀ i : Nat, i < 8 → 3 ≤ i → k.SoleFile t i
  | _ => True

section

variable {k k' : FileSys p} {slack : Nat}

theorem AllClosed.sound (h : AllClosed k) : k.Sound slack := by
  refine ⟨fun x hx => ?_, fun x hx => ?_, fun g hocc => absurd (h.table g) hocc,
    fun x hx y _ g _ hgx => ?_⟩
  · obtain ⟨hlive, h3, h8⟩ := FileSys.mem_descriptors.mp hx
    exact ⟨h.pages x.1 hlive, h3, h8⟩
  · obtain ⟨hlive, h3, h8⟩ := FileSys.mem_descriptors.mp hx
    exact Or.inl (h.fds x.1 hlive x.2 h3 h8)
  · obtain ⟨hlive, h3, h8⟩ := FileSys.mem_descriptors.mp hx
    have hnone : k.fd x = -1 := h.fds x.1 hlive x.2 h3 h8
    omega

theorem FileSys.Sound.valid (h : k.Sound slack) : k.Valid := fun t ht i h3 h8 hne =>
  (Fs.Sound.fds h (t, i) (mem_descriptors.mpr ⟨ht, h3, h8⟩)).resolve_left hne

/-- A descriptor of a live task is for an entry of the table. -/
theorem FileSys.Sound.lt {t i g : Nat} (h : k.Sound slack) (ht : t ∈ k.live) (h3 : 3 ≤ i)
    (h8 : i < 8) (hg : k.fd (t, i) = g) : g < 32 := by
  obtain ⟨g', hg', -, hlt, -⟩ := h.valid t ht i h3 h8 (by omega)
  omega

/-- One call. -/
theorem fdStep_sound {op : FdOp} (hn : NonNull k.part) (hk : k.Sound 2) (hmay : k.mayCall op)
    (hseek : op.isLseek = false) (hsole : Unshared k op) (hstep : k.fdStep op = some k') :
    NonNull k'.part ∧ k'.Sound 2 := by
  cases op with
  | sysOpen t pathname flags heap stack =>
    obtain ⟨⟨r, k1⟩, hcall, rfl⟩ := Option.map_eq_some_iff.mp hstep
    obtain ⟨hn', hopened⟩ := sysOpen_opened hn hcall
    exact ⟨hn', hopened.sound hk⟩
  | sysClose t fd =>
    obtain ⟨⟨r, k1⟩, hcall, rfl⟩ := Option.map_eq_some_iff.mp hstep
    obtain ⟨hn', -, hk'⟩ := sysClose_sound hmay hn hk
      (fun i g hi h3 h8 hg => hsole i h8 h3 hi g (hk.lt hmay h3 h8 hg) hg) hcall
    exact ⟨hn', hk'⟩
  | sysPipe t page =>
    obtain ⟨⟨fd0, fd1, k1⟩, hcall, rfl⟩ := Option.map_eq_some_iff.mp hstep
    obtain ⟨g, hpiped⟩ := sysPipe_piped hmay hcall
    refine ⟨?_, hpiped.sound hk (Nat.le_add_left _ _)⟩
    dsimp only
    rw [hpiped.part]
    exact hn
  | sysFork t child granted =>
    obtain ⟨ht, hc, hpage⟩ := hmay
    obtain ⟨hn', -, hk'⟩ := sysFork_sound ht hc hpage (by decide) hn hk hstep
    exact ⟨hn', hk'⟩
  | sysExit t =>
    obtain ⟨hn', -, hk'⟩ := sysExit_sound hmay hn hk
      (fun i g h3 h8 hg => hsole i h8 h3 g (hk.lt hmay h3 h8 hg) hg) hstep
    exact ⟨hn', hk'⟩
  | sysLseek t fd offset whence => cases hseek

/-- After a close of a shared file, or the exit of a task that shares one, a
descriptor stands for nothing. -/
theorem unshared_of_valid {op : FdOp} (hn : NonNull k.part)
    (hmay : k.mayCall op) (hstep : k.fdStep op = some k') (hvalid : k'.Valid) : Unshared k op := by
  cases op with
  | sysClose t fd =>
    intro i h8 h3 hi g _ hg hfile t' ht' hne j hj3 hj8 hj
    subst hi
    obtain ⟨⟨r, k1⟩, hcall, rfl⟩ := Option.map_eq_some_iff.mp hstep
    obtain ⟨-, hlive, -, hfd, hzero⟩ := (sysClose_cases hcall).empties h3 hn hg hfile
    have hj' : k1.fd (t', j) = g := (hfd (t', j) fun he => hne (Prod.mk.inj he).1).trans hj
    obtain ⟨g', hg', -, -, hocc⟩ := hvalid t' (hlive ▸ ht') j hj3 hj8
      fun hnone => absurd (hj'.symm.trans hnone) (by omega)
    obtain rfl : g' = g := Int.ofNat_inj.mp (hg'.symm.trans hj')
    exact hocc (hzero g' hg hfile)
  | sysExit t =>
    intro i h8 h3 g _ hg hfile t' ht' hne j hj3 hj8 hj
    simp only [FileSys.fdStep, sysExit, Option.bind_eq_bind, Option.bind_eq_some_iff,
      Option.pure_def, Option.some.injEq] at hstep
    obtain ⟨k1, hloop, rfl⟩ := hstep
    obtain ⟨hlive, -, hfd, hzero⟩ := releaseFiles_empties (Nat.le_refl 3) hn hloop
    have hj' : k1.fd (t', j) = g := (hfd (t', j) hne).trans hj
    have ht1 : t' ∈ k1.live.erase t := Finset.mem_erase.mpr ⟨hne, hlive ▸ ht'⟩
    obtain ⟨g', hg', -, -, hocc⟩ := hvalid t' ht1 j hj3 hj8
      fun hnone => absurd (hj'.symm.trans hnone) (by omega)
    obtain rfl : g' = g := Int.ofNat_inj.mp (hg'.symm.trans hj')
    exact hocc (hzero i g' h3 h8 hg hfile)
  | sysOpen => exact trivial
  | sysPipe => exact trivial
  | sysFork => exact trivial
  | sysLseek => exact trivial

end

/-- **Descriptors of live tasks stand for occupied entries**, in every run in which
no file is closed, by a close or an exit, while another task shares it; and in every
state of such a run the next call keeps it so just if it does not do that. -/
theorem descriptors_stay_valid (k : FileSys p) (h : (descriptorMachine p).Reach Unshared k) :
    k.Valid ∧ ∀ op k', (descriptorMachine p).may k op → k.fdStep op = some k' →
      (k'.Valid ↔ Unshared k op) := by
  have hboth : NonNull k.part ∧ k.Sound 2 := by
    refine Machine.Reach.invariant (I := fun k => NonNull k.part ∧ k.Sound 2) ?_ ?_ h
    · intro k hk
      exact ⟨hk.nonNull, hk.sound⟩
    · intro k op k' hk hmay hsole hstep
      exact fdStep_sound hk.1 hk.2 hmay.1 hmay.2 hsole hstep
  obtain ⟨hn, hk⟩ := hboth
  refine ⟨hk.valid, fun op k' hmay hstep => ⟨unshared_of_valid hn hmay.1 hstep, fun hsole => ?_⟩⟩
  exact (fdStep_sound hn hk hmay.1 hmay.2 hsole hstep).2.valid

/-! ## A file that two processes have open -/

instance (k : FileSys p) (op : FdOp) : Decidable (k.mayCall op) :=
  match op with
  | .sysOpen t _ _ _ _ => inferInstanceAs (Decidable (t ∈ k.live))
  | .sysClose t _ => inferInstanceAs (Decidable (t ∈ k.live))
  | .sysPipe t _ => inferInstanceAs (Decidable (t ∈ k.live))
  | .sysFork t child _ =>
    inferInstanceAs (Decidable (t ∈ k.live ∧ child ∉ k.live ∧ child < pages))
  | .sysExit t => inferInstanceAs (Decidable (t ∈ k.live))
  | .sysLseek t _ _ _ => inferInstanceAs (Decidable (t ∈ k.live))

instance (k : FileSys p) (op : FdOp) : Decidable ((descriptorMachine p).may k op) :=
  inferInstanceAs (Decidable (k.mayCall op ∧ op.isLseek = false))

instance (k : FileSys p) (t g : Nat) : Decidable (k.Sole t g) :=
  decidable_of_iff (∀ t' ∈ k.live, t' ≠ t → ∀ i, i < 8 → 3 ≤ i → k.fd (t', i) ≠ g)
    ⟨fun h t' ht hne i h3 h8 => h t' ht hne i h8 h3, fun h t' ht hne i h8 h3 => h t' ht hne i h3 h8⟩

instance (k : FileSys p) (t i : Nat) : Decidable (k.SoleFile t i) :=
  inferInstanceAs (Decidable (∀ g : Nat, g < 32 → k.fd (t, i) = g →
    (k.fileTable g).fdFlag ≠ pipeFlag → k.Sole t g))

instance (k : FileSys p) (op : FdOp) : Decidable (Unshared k op) :=
  match op with
  | .sysClose t fd =>
    inferInstanceAs (Decidable (∀ i : Nat, i < 8 → 3 ≤ i → fd = i → k.SoleFile t i))
  | .sysExit t => inferInstanceAs (Decidable (∀ i : Nat, i < 8 → 3 ≤ i → k.SoleFile t i))
  | .sysOpen .. => isTrue trivial
  | .sysPipe .. => isTrue trivial
  | .sysFork .. => isTrue trivial
  | .sysLseek .. => isTrue trivial

theorem small_nonNull : NonNull smallSys.part := by
  refine ⟨?_, by decide⟩
  rw [small_inodeAt]
  rfl

theorem small_allClosed : AllClosed smallSys := by
  refine ⟨small_nonNull, fun _ => rfl, fun t ht => ?_, fun t ht i h3 h8 => ?_⟩
  · have ht2 : t < 2 := by
      rcases Finset.mem_insert.mp ht with rfl | ht
      · decide
      · rw [Finset.mem_singleton.mp ht]
        decide
    have : 2 < pages := by decide
    omega
  · show (if i < 3 then (i : Int) else -1) = -1
    rw [if_neg (by omega)]

/-- A process has a pipe, forks and exits; its child goes on with the pipe and a
file of its own. -/
def pipeThroughFork : List FdOp :=
  [.sysPipe 1 7, .sysFork 1 2 true, .sysClose 2 4, .sysExit 1,
    .sysOpen 2 pathAA 0 ⟨true, true⟩ noStack, .sysClose 2 3]

theorem descriptors_stay_valid_after_fork :
    ∃ k, (descriptorMachine blankPartition).follow Unshared smallSys pipeThroughFork = some k ∧
      k.fd (2, 4) = 4 ∧ k.Valid := by
  have hsome : ((descriptorMachine blankPartition).follow Unshared smallSys pipeThroughFork).map
      (fun k => k.fd (2, 4)) = some 4 := by decide +kernel
  obtain ⟨k, hk, hfd⟩ := Option.map_eq_some_iff.mp hsome
  have hreach : (descriptorMachine blankPartition).Reach Unshared k :=
    Machine.reach_of_follow (Machine.Reach.start small_allClosed) hk
  exact ⟨k, hk, hfd, (descriptors_stay_valid k hreach).1⟩

/-- A process opens a file and forks, and its child closes the file. -/
def childCloses : List FdOp :=
  [.sysOpen 1 pathAA 0 ⟨true, true⟩ noStack, .sysFork 1 2 true, .sysClose 2 3]

/-- **The parent's descriptor stands for an empty entry.** -/
theorem child_closes_for_parent :
    ∃ k, (descriptorMachine blankPartition).Reachable k ∧ 1 ∈ k.live ∧ k.fd (1, 3) = 3 ∧
      (k.fileTable 3).fdInode = 0 ∧ ¬k.Valid := by
  have hsome : ((descriptorMachine blankPartition).follow (fun _ _ => True) smallSys
      childCloses).map (fun k => (decide (1 ∈ k.live), k.fd (1, 3), (k.fileTable 3).fdInode)) =
        some (true, 3, 0) := by decide +kernel
  obtain ⟨k, hk, he⟩ := Option.map_eq_some_iff.mp hsome
  simp only [Prod.mk.injEq, decide_eq_true_eq] at he
  obtain ⟨hlive, hfd, hnull⟩ := he
  have hreach : (descriptorMachine blankPartition).Reachable k :=
    Machine.reach_of_follow (Machine.Reach.start small_allClosed) hk
  refine ⟨k, hreach, hlive, hfd, hnull, fun hvalid => ?_⟩
  obtain ⟨g, hg, -, -, hocc⟩ := hvalid 1 hlive 3 (by decide) (by decide) (by omega)
  obtain rfl : g = 3 := by omega
  exact hocc hnull

end OsCore.Fs
