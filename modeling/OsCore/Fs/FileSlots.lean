import OsCore.Fs.InodeCache

/-!
# `file_open` with other processes in between

`file_open` looks for a free entry of `file_table`, opens the inode, and stores the
struct in the entry. The entry is free until then, and where the inode has to be
read from disk another process runs in between: the search it makes finds the same
entry. `fileOpenStore` is what `file_open` does after `inode_open`
(`fileOpen_stages`).

A process calls `file_open` once; `stage` is how far it has come. Whoever begins
while another sleeps between search and store gets the other's entry
(`one_entry_for_two`). In every run in which no process does, all descriptors that
have been returned refer to entries of their own, with the inode and the flags
asked for (`entries_exclusive`).
-/

namespace OsCore.Fs

open OsCore.Lib

variable {p : Partition}

/-! ## The stages -/

/-- `file_open` after `inode_open` has returned the struct at `a`. -/
def fileOpenStore (k : FileSys p) (t fdIdx a : Nat) (part : Mounted p) (flag : UInt8) :
    Option (Int × FileSys p) := do
  let k := { k with part }.setSlot fdIdx ⟨0, flag.toUInt32, a⟩
  if writes flag.toUInt32 then
    let inode ← part.inodeAt a
    if inode.writeDeny = 0 then
      let part := part.modifyInode a fun i => i.setWriteDeny 1
      return { k with part }.pcbFdInstall t fdIdx
    else return (-1, k)
  else return k.pcbFdInstall t fdIdx

theorem fileOpen_stages (k : FileSys p) (t n : Nat) (flag : UInt8) :
    fileOpen k t n flag = match k.getFreeSlotInGlobal with
      | none => some (-1, k)
      | some fdIdx => (inodeOpen k.part n).bind fun r => fileOpenStore k t fdIdx r.1 r.2 flag := by
  unfold fileOpen
  cases k.getFreeSlotInGlobal with
  | none => rfl
  | some fdIdx => rfl

/-- How far a process has come with its call. -/
inductive OpenStage
  | before
  /-- in the `ide_read` of `inode_open`, with the entry it has found -/
  | reading (fdIdx inodeNo : Nat) (flag : UInt8)
  | returned (fd : Int) (inodeNo : Nat) (flag : UInt8)
  deriving DecidableEq

def OpenStage.IsReading : OpenStage → Prop
  | .reading _ _ _ => True
  | _ => False

instance (stage : OpenStage) : Decidable stage.IsReading :=
  match stage with
  | .before | .returned _ _ _ => isFalse id
  | .reading _ _ _ => isTrue trivial

structure SlotState (p : Partition) (N : Nat) where
  sys : FileSys p
  stage : Fin N → OpenStage

inductive SlotOp (N : Nat)
  | fileOpen (t : Fin N) (inodeNo : Nat) (flag : UInt8)
  | resume (t : Fin N)

variable {N : Nat}

namespace SlotState

variable (s : SlotState p N)

def goto (t : Fin N) (stage : OpenStage) : SlotState p N :=
  { s with stage := Function.update s.stage t stage }

/-- The struct is there: it is stored, and the call returns. -/
def store (t : Fin N) (fdIdx inodeNo : Nat) (flag : UInt8) (r : Nat × Mounted p) :
    Option (SlotState p N) := do
  let (fd, sys) ← fileOpenStore s.sys t fdIdx r.1 r.2 flag
  return { s with sys }.goto t (.returned fd inodeNo flag)

def step : SlotOp N → Option (SlotState p N)
  | .fileOpen t inodeNo flag =>
    match s.sys.getFreeSlotInGlobal with
    | none => some (s.goto t (.returned (-1) inodeNo flag))
    | some fdIdx =>
      match inodeOpenHit s.sys.part inodeNo with
      | some r => s.store t fdIdx inodeNo flag r
      | none => do
        let _ ← inodeLocate p inodeNo
        return s.goto t (.reading fdIdx inodeNo flag)
  | .resume t =>
    match s.stage t with
    | .reading fdIdx inodeNo flag => do
      let r ← inodeOpenLoad s.sys.part inodeNo
      s.store t fdIdx inodeNo flag r
    | _ => none

/-- A process makes its one call, for an inode the disk has. -/
def May : SlotOp N → Prop
  | .fileOpen t inodeNo _ => s.stage t = .before ∧
      (Inode.ofMem s.sys.part.vol.disk (p.slotAddr inodeNo)).no = inodeNo
  | .resume t => (s.stage t).IsReading

end SlotState

/-- The structs in memory have addresses of their own, below the heap's end and not
`NULL`. -/
structure Addressed (s : Mounted p) : Prop extends NonNull s where
  below : ∀ e ∈ s.openInodes, e.1 < s.brk
  nodup : (s.openInodes.map (·.1)).Nodup

def slotMachine (p : Partition) (N : Nat) : Machine (SlotState p N) (SlotOp N) where
  start s := Addressed s.sys.part ∧ ∀ t, s.stage t = .before
  may := SlotState.May
  step := SlotState.step

/-- No `file_open` begins while another process is between search and store. -/
def NoneReading (s : SlotState p N) : SlotOp N → Prop
  | .fileOpen _ _ _ => ∀ u, ¬(s.stage u).IsReading
  | .resume _ => True

/-- `g` is the entry that descriptor `fd` of `t` refers to, with the inode and the
flags that were asked for. -/
structure OwnsEntry (s : SlotState p N) (t : Fin N) (fd : Int) (inodeNo : Nat) (flag : UInt8)
    (g : Nat) : Prop where
  fd : (s.sys.pcb t).fdTable fd.toNat = g
  flag : (s.sys.fileTable g).fdFlag = flag.toUInt32
  inode : s.sys.part.noAt (s.sys.fileTable g).fdInode = some inodeNo

/-- Every descriptor that has been returned refers to an entry as its caller asked
for it, and no two to the same. -/
structure EntriesExclusive (s : SlotState p N) : Prop where
  own : ∀ t fd n flag, s.stage t = .returned fd n flag → fd ≠ -1 → ∃ g, OwnsEntry s t fd n flag g
  apart : ∀ t u fd n flag fd' n' flag', t ≠ u → s.stage t = .returned fd n flag → fd ≠ -1 →
    s.stage u = .returned fd' n' flag' → fd' ≠ -1 →
    (s.sys.pcb t).fdTable fd.toNat ≠ (s.sys.pcb u).fdTable fd'.toNat

/-! ## What a stage does -/

theorem Addressed.modifyInode {s : Mounted p} (h : Addressed s) (a : Nat) (f : Inode → Inode) :
    Addressed (s.modifyInode a f) := by
  refine ⟨h.toNonNull.modifyInode a f, fun e he => ?_, ?_⟩
  · obtain ⟨i, hi, -⟩ := Mounted.mem_modifyInode he
    exact h.below (e.1, i) hi
  · rw [Mounted.map_modifyInode]
    exact h.nodup

theorem Addressed.ne_zero {s : Mounted p} (h : Addressed s) {a n : Nat}
    (hno : s.noAt a = some n) : a ≠ 0 := by
  obtain ⟨i, hi, -⟩ := Option.map_eq_some_iff.mp hno
  exact h.toNonNull.ne_zero hi

/-- `inode_open` has returned the struct at `a` for the inode `n`. -/
structure Fetched (s : Mounted p) (n a : Nat) (s' : Mounted p) : Prop where
  addressed : Addressed s'
  vol : s'.vol = s.vol
  no : s'.noAt a = some n
  kept : ∀ b m, s.noAt b = some m → s'.noAt b = some m

theorem Addressed.hit {s s' : Mounted p} {n a : Nat} (h : Addressed s)
    (hhit : inodeOpenHit s n = some (a, s')) : Fetched s n a s' := by
  have hno := inodeOpenHit_no h.nodup hhit
  unfold inodeOpenHit at hhit
  cases hfind : s.openInodes.find? fun e => e.2.no == n with
  | none =>
    rw [hfind] at hhit
    cases hhit
  | some e =>
    rw [hfind] at hhit
    obtain ⟨rfl, rfl⟩ := Prod.mk.inj (Option.some.inj hhit)
    have hsame := s.noAt_modifyInode e.1 (f := fun i => i.setOpenCnts (i.iOpenCnts.toNat + 1))
      fun _ _ => rfl
    refine ⟨h.modifyInode _ _, rfl, ?_, fun b m hb => ?_⟩
    · rw [hsame]
      exact hno
    · rw [hsame]
      exact hb

/-- A struct is added at the heap's end. -/
theorem Addressed.cons {s : Mounted p} (h : Addressed s) (v : Vol p) (i : Inode) :
    Addressed (⟨v, (s.brk, i) :: s.openInodes, s.brk + 1⟩ : Mounted p) := by
  refine ⟨h.toNonNull.cons v i, fun e he => ?_, ?_⟩
  · rcases List.mem_cons.mp he with rfl | he
    · exact Nat.lt_succ_self _
    · exact Nat.lt_succ_of_lt (h.below e he)
  · show (s.brk :: s.openInodes.map (·.1)).Nodup
    refine List.nodup_cons.mpr ⟨fun hmem => ?_, h.nodup⟩
    obtain ⟨e, he, heq⟩ := List.mem_map.mp hmem
    have := h.below e he
    omega

theorem Addressed.inodeAt_lt {s : Mounted p} (h : Addressed s) {a : Nat} {i : Inode}
    (hi : s.inodeAt a = some i) : a < s.brk :=
  h.below _ (Mounted.lookup_mem hi)

theorem Addressed.load {s s' : Mounted p} {n a : Nat} (h : Addressed s)
    (hn : (Inode.ofMem s.vol.disk (p.slotAddr n)).no = n)
    (hload : inodeOpenLoad s n = some (a, s')) : Fetched s n a s' := by
  obtain ⟨rfl, rfl⟩ := inodeOpenLoad_eq hload
  refine ⟨h.cons _ _, rfl, ?_, fun b m hb => ?_⟩
  · rw [Mounted.noAt, Mounted.inodeAt_cons, if_pos rfl]
    exact congrArg some hn
  · obtain ⟨i, hi, hin⟩ := Option.map_eq_some_iff.mp hb
    have hne : b ≠ s.brk := Nat.ne_of_lt (h.inodeAt_lt hi)
    rw [Mounted.noAt, Mounted.inodeAt_cons, if_neg hne]
    exact hb

/-- `file_open` has stored the struct at `a` in entry `g` and returned `fd`. -/
structure Stored (k : FileSys p) (t g a : Nat) (part : Mounted p) (flag : UInt8) (fd : Int)
    (k' : FileSys p) : Prop where
  table : k'.fileTable = Function.update k.fileTable g ⟨0, flag.toUInt32, a⟩
  no : k'.part.noAt = part.noAt
  vol : k'.part.vol = part.vol
  addressed : Addressed part → Addressed k'.part
  others : ∀ u, u ≠ t → k'.pcb u = k.pcb u
  fd : fd ≠ -1 → (k'.pcb t).fdTable fd.toNat = g

theorem pcbFdInstall_stored {k k' : FileSys p} {t g a : Nat} {part part' : Mounted p}
    {flag : UInt8} {fd : Int} (hno : part'.noAt = part.noAt) (hvol : part'.vol = part.vol)
    (haddr : Addressed part → Addressed part')
    (h : ({ k with part := part' }.setSlot g ⟨0, flag.toUInt32, a⟩).pcbFdInstall t g = (fd, k')) :
    Stored k t g a part flag fd k' := by
  cases pcbFdInstall_spec h with
  | full _ => exact ⟨rfl, hno, hvol, haddr, fun _ _ => rfl, fun hne => absurd rfl hne⟩
  | fd i h3 h8 hfree =>
    refine ⟨rfl, hno, hvol, haddr, fun u hu => ?_, fun _ => ?_⟩
    · exact Function.update_of_ne hu _ _
    · simp [FileSys.setFd, FileSys.setSlot]

theorem fileOpenStore_spec {k k' : FileSys p} {t g a : Nat} {part : Mounted p} {flag : UInt8}
    {fd : Int} (h : fileOpenStore k t g a part flag = some (fd, k')) :
    Stored k t g a part flag fd k' := by
  unfold fileOpenStore at h
  by_cases hw : writes flag.toUInt32 = true
  · simp only [if_pos hw, Option.bind_eq_bind, Option.bind_eq_some_iff] at h
    obtain ⟨i, -, h⟩ := h
    by_cases hdeny : i.writeDeny = 0
    · rw [if_pos hdeny] at h
      have hno := part.noAt_modifyInode a (f := fun i => i.setWriteDeny 1) fun _ _ => rfl
      exact pcbFdInstall_stored hno rfl (fun hp => hp.modifyInode a _) (Option.some.inj h)
    · rw [if_neg hdeny] at h
      obtain ⟨rfl, rfl⟩ := Prod.mk.inj (Option.some.inj h)
      exact ⟨rfl, rfl, rfl, id, fun _ _ => rfl, fun hne => absurd rfl hne⟩
  · simp only [if_neg hw] at h
    exact pcbFdInstall_stored rfl rfl id (Option.some.inj h)

/-! ## The invariant -/

structure SlotInv (s : SlotState p N) : Prop extends EntriesExclusive s where
  addressed : Addressed s.sys.part
  /-- the entry a process has found is still free -/
  reading : ∀ t g n flag, s.stage t = .reading g n flag → (s.sys.fileTable g).fdInode = 0 ∧
    (Inode.ofMem s.sys.part.vol.disk (p.slotAddr n)).no = n
  alone : ∀ t u, (s.stage t).IsReading → (s.stage u).IsReading → t = u

section

variable {s s' : SlotState p N} {t : Fin N}

/-- **The store.** The entry was free, so it was none of those that descriptors
refer to, and no other process has found it. -/
theorem store_inv (h : SlotInv s) {g n : Nat} {flag : UInt8} {r : Nat × Mounted p}
    (hfree : (s.sys.fileTable g).fdInode = 0) (hf : Fetched s.sys.part n r.1 r.2)
    (hnone : ∀ u, u ≠ t → ¬(s.stage u).IsReading)
    (hnot : ∀ fd n flag, s.stage t ≠ .returned fd n flag)
    (hstore : s.store t g n flag r = some s') : SlotInv s' := by
  simp only [SlotState.store, Option.bind_eq_bind, Option.bind_eq_some_iff, Prod.exists,
    Option.pure_def, Option.some.injEq] at hstore
  obtain ⟨fd, sys, hspec, rfl⟩ := hstore
  have hst := fileOpenStore_spec hspec
  have hstage : ∀ u, u ≠ t → Function.update s.stage t (.returned fd n flag) u = s.stage u :=
    fun u hu => Function.update_of_ne hu _ _
  have hpcb : ∀ u : Fin N, u ≠ t → sys.pcb u = s.sys.pcb u :=
    fun u hu => hst.others u fun he => hu (Fin.ext he)
  have hnew : sys.fileTable g = ⟨0, flag.toUInt32, r.1⟩ := by rw [hst.table, Function.update_self]
  -- an entry with a struct is not the one that was free
  have hne : ∀ {u fd' n' flag' g'}, OwnsEntry s u fd' n' flag' g' → g' ≠ g := by
    intro u fd' n' flag' g' ho heq
    have hz := h.addressed.ne_zero ho.inode
    rw [heq] at hz
    exact hz hfree
  have hown : ∀ {u fd' n' flag' g'}, u ≠ t → OwnsEntry s u fd' n' flag' g' →
      OwnsEntry ({ s with sys }.goto t (.returned fd n flag)) u fd' n' flag' g' := by
    intro u fd' n' flag' g' hu ho
    have hg : sys.fileTable g' = s.sys.fileTable g' := by
      rw [hst.table, Function.update_of_ne (hne ho)]
    refine ⟨?_, ?_, ?_⟩
    · show (sys.pcb u).fdTable fd'.toNat = g'
      rw [hpcb u hu]
      exact ho.fd
    · show (sys.fileTable g').fdFlag = flag'.toUInt32
      rw [hg]
      exact ho.flag
    · show sys.part.noAt (sys.fileTable g').fdInode = some n'
      rw [hg, hst.no]
      exact hf.kept _ _ ho.inode
  have hself : fd ≠ -1 → OwnsEntry ({ s with sys }.goto t (.returned fd n flag)) t fd n flag g := by
    intro hfd
    refine ⟨hst.fd hfd, ?_, ?_⟩
    · show (sys.fileTable g).fdFlag = flag.toUInt32
      rw [hnew]
    · show sys.part.noAt (sys.fileTable g).fdInode = some n
      rw [hnew, hst.no]
      exact hf.no
  have hapart : ∀ u fd' n' flag', u ≠ t → s.stage u = .returned fd' n' flag' → fd' ≠ -1 →
      fd ≠ -1 → (sys.pcb t).fdTable fd.toNat ≠ (sys.pcb u).fdTable fd'.toNat := by
    intro u fd' n' flag' hu hs' hfd' hfd
    obtain ⟨g', ho⟩ := h.own u fd' n' flag' hs' hfd'
    rw [hst.fd hfd, hpcb u hu, ho.fd]
    exact fun he => hne ho (Int.ofNat.inj he).symm
  refine ⟨⟨fun u fd' n' flag' hs' hfd' => ?_, ?_⟩, hst.addressed hf.addressed, ?_, ?_⟩
  · by_cases hu : u = t
    · subst hu
      have hs' : Function.update s.stage u (.returned fd n flag) u = .returned fd' n' flag' := hs'
      rw [Function.update_self] at hs'
      cases hs'
      exact ⟨g, hself hfd'⟩
    · obtain ⟨g', ho⟩ := h.own u fd' n' flag' ((hstage u hu).symm.trans hs') hfd'
      exact ⟨g', hown hu ho⟩
  · intro u w fd₁ n₁ flag₁ fd₂ n₂ flag₂ huw hs₁ hfd₁ hs₂ hfd₂
    by_cases hu : u = t
    · subst hu
      have hs₁ : Function.update s.stage u (.returned fd n flag) u = .returned fd₁ n₁ flag₁ := hs₁
      rw [Function.update_self] at hs₁
      cases hs₁
      have hw := (hstage w (Ne.symm huw)).symm.trans hs₂
      exact hapart w fd₂ n₂ flag₂ (Ne.symm huw) hw hfd₂ hfd₁
    · have hold₁ : s.stage u = .returned fd₁ n₁ flag₁ := (hstage u hu).symm.trans hs₁
      by_cases hw : w = t
      · subst hw
        have hs₂ : Function.update s.stage w (.returned fd n flag) w = .returned fd₂ n₂ flag₂ := hs₂
        rw [Function.update_self] at hs₂
        cases hs₂
        exact (hapart u fd₁ n₁ flag₁ hu hold₁ hfd₁ hfd₂).symm
      · have hs₂ := (hstage w hw).symm.trans hs₂
        show (sys.pcb u).fdTable fd₁.toNat ≠ (sys.pcb w).fdTable fd₂.toNat
        rw [hpcb u hu, hpcb w hw]
        exact h.apart u w fd₁ n₁ flag₁ fd₂ n₂ flag₂ huw hold₁ hfd₁ hs₂ hfd₂
  · intro u g' n' flag' hs'
    by_cases hu : u = t
    · subst hu
      have hs' : Function.update s.stage u (.returned fd n flag) u = .reading g' n' flag' := hs'
      rw [Function.update_self] at hs'
      cases hs'
    · have hs' := (hstage u hu).symm.trans hs'
      refine absurd ?_ (hnone u hu)
      rw [hs']
      trivial
  · intro u w hu hw
    by_cases hut : u = t
    · subst hut
      have hu : (Function.update s.stage u (.returned fd n flag) u).IsReading := hu
      rw [Function.update_self] at hu
      exact hu.elim
    · have hu : (Function.update s.stage t (.returned fd n flag) u).IsReading := hu
      rw [hstage u hut] at hu
      exact absurd hu (hnone u hut)

/-- A step that only moves `t` on, to a stage without a descriptor. -/
theorem SlotInv.goto (h : SlotInv s) {stage : OpenStage}
    (hret : ∀ fd n flag, stage = .returned fd n flag → fd = -1)
    (hread : ∀ g n flag, stage = .reading g n flag → (s.sys.fileTable g).fdInode = 0 ∧
      (Inode.ofMem s.sys.part.vol.disk (p.slotAddr n)).no = n)
    (hnone : ∀ u, ¬(s.stage u).IsReading) : SlotInv (s.goto t stage) := by
  have hcases : ∀ {u stage'}, (s.goto t stage).stage u = stage' →
      u = t ∧ stage = stage' ∨ s.stage u = stage' := by
    intro u stage' hu
    have hu : Function.update s.stage t stage u = stage' := hu
    rw [Function.update_apply] at hu
    split at hu
    · next hut => exact Or.inl ⟨hut, hu⟩
    · exact Or.inr hu
  have hold : ∀ {u fd n flag}, (s.goto t stage).stage u = .returned fd n flag → fd ≠ -1 →
      s.stage u = .returned fd n flag := by
    intro u fd n flag hu hfd
    rcases hcases hu with ⟨-, heq⟩ | hu
    · exact absurd (hret fd n flag heq) hfd
    · exact hu
  refine ⟨⟨fun u fd n flag hu hfd => ?_, ?_⟩, h.addressed, fun u g n flag hu => ?_, ?_⟩
  · obtain ⟨g, ho⟩ := h.own u fd n flag (hold hu hfd) hfd
    exact ⟨g, ho.fd, ho.flag, ho.inode⟩
  · intro u w fd₁ n₁ flag₁ fd₂ n₂ flag₂ huw hs₁ hfd₁ hs₂ hfd₂
    exact h.apart u w fd₁ n₁ flag₁ fd₂ n₂ flag₂ huw (hold hs₁ hfd₁) hfd₁ (hold hs₂ hfd₂) hfd₂
  · rcases hcases hu with ⟨-, heq⟩ | hu
    · exact hread g n flag heq
    · exact h.reading u g n flag hu
  · have honly : ∀ u, ((s.goto t stage).stage u).IsReading → u = t := by
      intro u hu
      by_contra hut
      have hu : (Function.update s.stage t stage u).IsReading := hu
      rw [Function.update_of_ne hut] at hu
      exact hnone u hu
    intro u w hu hw
    rw [honly u hu, honly w hw]

theorem slot_step (h : SlotInv s) {op : SlotOp N} (hmay : s.May op) (hfree : NoneReading s op)
    (hstep : s.step op = some s') : SlotInv s' := by
  cases op with
  | fileOpen t n flag =>
    obtain ⟨hbefore, hn⟩ := hmay
    have hnot : ∀ fd n flag, s.stage t ≠ .returned fd n flag := by
      intro fd n flag he
      rw [hbefore] at he
      cases he
    unfold SlotState.step at hstep
    cases hslot : s.sys.getFreeSlotInGlobal with
    | none =>
      simp only [hslot, Option.some.injEq] at hstep
      subst hstep
      refine h.goto (fun fd n flag heq => ?_) (fun g n flag heq => ?_) hfree
      · cases heq
        rfl
      · cases heq
    | some g =>
      have hg := (getFreeSlot_some hslot).2.2
      cases hhit : inodeOpenHit s.sys.part n with
      | some r =>
        simp only [hslot, hhit] at hstep
        exact store_inv h hg (h.addressed.hit hhit) (fun u _ => hfree u) hnot hstep
      | none =>
        simp only [hslot, hhit, Option.bind_eq_bind, Option.bind_eq_some_iff, Option.pure_def,
          Option.some.injEq] at hstep
        obtain ⟨-, -, rfl⟩ := hstep
        refine h.goto (fun fd n flag heq => ?_) (fun g' n' flag' heq => ?_) hfree
        · cases heq
        · cases heq
          exact ⟨hg, hn⟩
  | resume t =>
    unfold SlotState.step at hstep
    cases hstage : s.stage t with
    | before =>
      simp only [hstage] at hstep
      cases hstep
    | returned fd n flag =>
      simp only [hstage] at hstep
      cases hstep
    | reading g n flag =>
      simp only [hstage, Option.bind_eq_bind, Option.bind_eq_some_iff] at hstep
      obtain ⟨r, hload, hstore⟩ := hstep
      obtain ⟨hg, hn⟩ := h.reading t g n flag hstage
      refine store_inv h hg (h.addressed.load hn hload) (fun u hu hr => ?_) (fun fd n flag he => ?_)
        hstore
      · refine hu (h.alone u t hr ?_)
        rw [hstage]
        trivial
      · rw [hstage] at he
        cases he

end

/-- **Entries are exclusive** in every run in which no `file_open` begins while
another process is between search and store. -/
theorem entries_exclusive (s : SlotState p N) (h : (slotMachine p N).Reach NoneReading s) :
    EntriesExclusive s := by
  have hinv : SlotInv s := by
    refine Machine.Reach.invariant ?_ ?_ h
    · intro s hs
      obtain ⟨haddr, hbefore⟩ := hs
      have hne : ∀ {t stage}, s.stage t = stage → stage = .before :=
        fun {t} _ ht => ht.symm.trans (hbefore t)
      refine ⟨⟨fun t fd n flag ht => ?_, fun t u fd n flag fd' n' flag' _ ht => ?_⟩, haddr,
        fun t g n flag ht => ?_, fun t u ht => ?_⟩
      · cases hne ht
      · cases hne ht
      · cases hne ht
      · rw [hbefore t] at ht
        exact ht.elim
    · intro s op s' hinv hmay hfree hstep
      exact slot_step hinv hmay hfree hstep
  exact hinv.toEntriesExclusive

/-! ## Two processes -/

/-- The small tree and two processes. -/
def smallSlots : SlotState blankPartition 2 := ⟨smallSys, fun _ => .before⟩

theorem small_addressed : Addressed smallSlots.sys.part := by
  refine ⟨⟨?_, by decide⟩, small_steady.below, small_steady.nodup⟩
  show smallSys.part.inodeAt 0 = none
  rw [small_inodeAt]
  rfl

instance (s : SlotState p N) (op : SlotOp N) : Decidable ((slotMachine p N).may s op) := by
  cases op <;> unfold slotMachine SlotState.May <;> infer_instance

instance (s : SlotState p N) (op : SlotOp N) : Decidable (NoneReading s op) := by
  cases op <;> unfold NoneReading <;> infer_instance

/-- The two calls one after the other, for reading and for writing. -/
theorem entries_exclusive_in_turn :
    ∃ s, (slotMachine blankPartition 2).follow NoneReading smallSlots [.fileOpen 0 1 0, .resume 0,
        .fileOpen 1 1 1] = some s ∧
      s.stage 0 = .returned 3 1 0 ∧ s.stage 1 = .returned 3 1 1 ∧ (s.sys.pcb 0).fdTable 3 = 3 ∧
      (s.sys.pcb 1).fdTable 3 = 4 ∧ EntriesExclusive s := by
  have hsome : ((slotMachine blankPartition 2).follow NoneReading smallSlots [.fileOpen 0 1 0,
      .resume 0, .fileOpen 1 1 1]).map (fun s => (s.stage 0, s.stage 1,
        (s.sys.pcb 0).fdTable 3, (s.sys.pcb 1).fdTable 3)) =
        some (.returned 3 1 0, .returned 3 1 1, 3, 4) := by decide +kernel
  obtain ⟨s, hs, he⟩ := Option.map_eq_some_iff.mp hsome
  simp only [Prod.mk.injEq] at he
  obtain ⟨h0, h1, hfd0, hfd1⟩ := he
  have hreach : (slotMachine blankPartition 2).Reach NoneReading s :=
    Machine.reach_of_follow (Machine.Reach.start ⟨small_addressed, fun _ => rfl⟩) hs
  exact ⟨s, hs, h0, h1, hfd0, hfd1, entries_exclusive s hreach⟩

/-- **Two descriptors for one entry**: process 1 looks for a free entry while
process 0 reads its inode, and the flags left there are those of the last to
store. -/
theorem one_entry_for_two :
    ∃ s, (slotMachine blankPartition 2).Reachable s ∧ s.stage 0 = .returned 3 1 0 ∧
      s.stage 1 = .returned 3 1 1 ∧ (s.sys.pcb 0).fdTable 3 = 3 ∧ (s.sys.pcb 1).fdTable 3 = 3 ∧
      (s.sys.fileTable 3).fdFlag = 1 ∧ ¬EntriesExclusive s := by
  have hsome : ((slotMachine blankPartition 2).follow (fun _ _ => True) smallSlots
      [.fileOpen 0 1 0, .fileOpen 1 1 1, .resume 0, .resume 1]).map (fun s => (s.stage 0, s.stage 1,
        (s.sys.pcb 0).fdTable 3, (s.sys.pcb 1).fdTable 3, (s.sys.fileTable 3).fdFlag)) =
        some (.returned 3 1 0, .returned 3 1 1, 3, 3, 1) := by decide +kernel
  obtain ⟨s, hs, he⟩ := Option.map_eq_some_iff.mp hsome
  simp only [Prod.mk.injEq] at he
  obtain ⟨h0, h1, hfd0, hfd1, hflag⟩ := he
  have hreach : (slotMachine blankPartition 2).Reachable s :=
    Machine.reach_of_follow (Machine.Reach.start ⟨small_addressed, fun _ => rfl⟩) hs
  refine ⟨s, hreach, h0, h1, hfd0, hfd1, hflag, fun hexcl => ?_⟩
  exact hexcl.apart 0 1 3 1 0 3 1 1 (by decide) h0 (by decide) h1 (by decide)
    (hfd0.trans hfd1.symm)

end OsCore.Fs
