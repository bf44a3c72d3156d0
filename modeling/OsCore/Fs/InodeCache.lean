import OsCore.Fs.Descriptors

/-!
# `inode_open` with other processes in between

A system call runs with interrupts off, so the processor goes to another process
only where the call blocks. `inode_open` does: after it has looked for the number
in `open_inodes` and not found it, it asks the heap for memory, whose lock it may
have to wait for, and reads the table from disk, which it always waits for. Only
then the struct joins the list. `inodeOpenHit` and `inodeOpenLoad` are the parts
before and after; one behind the other they are `inodeOpen` (`inodeOpen_halves`).
What follows the insertion, and the whole of `inode_close`, touches the list in one
piece.

`CacheState` is the list with its users: processes between the two halves, and the
opens that have not been closed. Two processes that are both between the halves
with one number both insert a struct for it (`two_copies`). In every run in which
no `inode_open` begins while another one reads the same inode, there is one struct
for each number and it counts its users (`one_copy`).
-/

namespace OsCore.Fs

open OsCore.Lib

variable {p : Partition}

/-! ## Two halves -/

/-- `inode_open` up to the point where it may block: a struct found in the list is
counted and returned. -/
def inodeOpenHit (s : Mounted p) (inodeNo : Nat) : Option (Nat × Mounted p) :=
  match s.openInodes.find? fun e => e.2.no == inodeNo with
  | some (a, _) => some (a, s.modifyInode a fun i => i.setOpenCnts (i.iOpenCnts.toNat + 1))
  | none => none

/-- `inode_open` from the transfer on. -/
def inodeOpenLoad (s : Mounted p) (inodeNo : Nat) : Option (Nat × Mounted p) := do
  let pos ← inodeLocate p inodeNo
  let inodeBuf ← ideRead s.vol.disk pos.secLba Mem.zero pos.sects
  let found := (Inode.ofMem inodeBuf pos.offSize).setOpenCnts 1
  return (s.brk, { s with openInodes := (s.brk, found) :: s.openInodes, brk := s.brk + 1 })

theorem inodeOpen_halves (s : Mounted p) (n : Nat) :
    inodeOpen s n = match inodeOpenHit s n with
      | some r => some r
      | none => inodeOpenLoad s n := by
  unfold inodeOpen inodeOpenHit
  cases s.openInodes.find? fun e => e.2.no == n with
  | some e => rfl
  | none => rfl

/-- The search fails just if no struct has the number. -/
theorem inodeOpenHit_none {s : Mounted p} {n : Nat} : inodeOpenHit s n = none ↔ s.Misses n := by
  unfold inodeOpenHit
  constructor
  · intro h e he
    cases hfind : s.openInodes.find? fun e => e.2.no == n with
    | some e' =>
      rw [hfind] at h
      cases h
    | none => simpa using List.find?_eq_none.mp hfind e he
  · intro h
    rw [List.find?_eq_none.mpr fun e he => by simpa using h e he]

theorem inodeOpenHit_no {s s' : Mounted p} {n a : Nat} (hs : (s.openInodes.map (·.1)).Nodup)
    (h : inodeOpenHit s n = some (a, s')) : s.noAt a = some n := by
  unfold inodeOpenHit at h
  cases hfind : s.openInodes.find? fun e => e.2.no == n with
  | none =>
    rw [hfind] at h
    cases h
  | some e =>
    rw [hfind] at h
    obtain ⟨rfl, -⟩ := Prod.mk.inj (Option.some.inj h)
    have hno : e.2.no = n := by simpa using List.find?_some hfind
    rw [Mounted.noAt_of_inodeAt (Mounted.lookup_of_mem hs (List.mem_of_find?_eq_some hfind)), hno]

theorem inodeOpenHit_opens {s s' : Mounted p} {n a : Nat} (hs : Steady s)
    (hroom : ∀ b, s.cnt b + 1 < 2 ^ 32) (h : inodeOpenHit s n = some (a, s')) :
    Opens s a n s' ∧ s'.vol = s.vol := by
  have hopen : inodeOpen s n = some (a, s') := by rw [inodeOpen_halves, h]
  obtain ⟨ho, hvol⟩ := inodeOpen_opens hs hroom hopen
  have hno := inodeOpenHit_no hs.nodup h
  rcases ho.was with ⟨hnone, -⟩ | hsome
  · rw [hno] at hnone
    cases hnone
  · rw [hno, Option.some.injEq] at hsome
    rw [← hsome] at ho
    exact ⟨ho, hvol⟩

/-- After the transfer, a struct with the contents of the slot joins the list. -/
theorem inodeOpenLoad_eq {s s' : Mounted p} {n a : Nat} (h : inodeOpenLoad s n = some (a, s')) :
    a = s.brk ∧ s' = { s with
      openInodes := (s.brk, (Inode.ofMem s.vol.disk (p.slotAddr n)).setOpenCnts 1) :: s.openInodes
      brk := s.brk + 1 } := by
  have hn : n < 4096 := by
    simp only [inodeOpenLoad, inodeLocate, Option.bind_eq_bind, Option.bind_eq_some_iff,
      ensure_eq_some] at h
    obtain ⟨-, ⟨-, hn, -⟩, -⟩ := h
    exact hn
  -- the read does not look at the list, so it ends as with an empty one
  have hempty := inodeOpen_miss (s := { s with openInodes := [] }) (n := n) hn
    fun e he => absurd he List.not_mem_nil
  rw [inodeOpen_halves, inodeOpenHit_none.mpr fun e he => absurd he List.not_mem_nil] at hempty
  simp only [inodeOpenLoad, Option.bind_eq_bind, Option.bind_eq_some_iff, Option.pure_def,
    Option.some.injEq, Prod.mk.injEq, Mounted.mk.injEq, List.cons.injEq] at h hempty
  obtain ⟨pos, hpos, buf, hbuf, rfl, rfl⟩ := h
  obtain ⟨pos', hpos', buf', hbuf', -, -, ⟨⟨-, hfound⟩, -⟩, -⟩ := hempty
  obtain rfl : pos = pos' := Option.some.inj (hpos.symm.trans hpos')
  obtain rfl : buf = buf' := Option.some.inj (hbuf.symm.trans hbuf')
  rw [hfound]
  exact ⟨rfl, rfl⟩

theorem inodeOpenLoad_opens {s s' : Mounted p} {n a : Nat} (hs : Steady s)
    (h : inodeOpenLoad s n = some (a, s')) :
    Opens s a (Inode.ofMem s.vol.disk (p.slotAddr n)).no s' ∧ s'.vol = s.vol := by
  obtain ⟨rfl, rfl⟩ := inodeOpenLoad_eq h
  have hone : ((Inode.ofMem s.vol.disk (p.slotAddr n)).setOpenCnts 1).iOpenCnts = 1 :=
    UInt32.toNat_inj.mp (setOpenCnts_toNat _ 1)
  exact ⟨Opens.cons hs hone, rfl⟩

/-! ## Processes that open and close -/

/-- An open that has not been closed: whose, of which inode, and the struct it was
given. -/
structure OpenHandle where
  proc : Nat
  no : Nat
  addr : Nat
  deriving DecidableEq

/-- The list and `N` processes; `loading` is the number a process is reading the
inode of. -/
structure CacheState (p : Partition) (N : Nat) where
  part : Mounted p
  loading : Fin N → Option Nat
  opens : List OpenHandle

inductive CacheOp (N : Nat)
  | inodeOpen (t : Fin N) (inodeNo : Nat)
  /-- the transfer is over, and `inode_open` goes on -/
  | resume (t : Fin N)
  | inodeClose (t : Fin N) (inodeNo addr : Nat)

variable {N : Nat}

def CacheState.step (s : CacheState p N) : CacheOp N → Option (CacheState p N)
  | .inodeOpen t inodeNo =>
    match inodeOpenHit s.part inodeNo with
    | some (a, part) => some { s with part, opens := ⟨t, inodeNo, a⟩ :: s.opens }
    | none => do
      -- `inode_locate` comes before the memory and the transfer are asked for
      let _ ← inodeLocate p inodeNo
      return { s with loading := Function.update s.loading t (some inodeNo) }
  | .resume t => do
    let inodeNo ← s.loading t
    let (a, part) ← inodeOpenLoad s.part inodeNo
    return ⟨part, Function.update s.loading t none, ⟨t, inodeNo, a⟩ :: s.opens⟩
  | .inodeClose t inodeNo addr => do
    let part ← inodeClose s.part addr
    return { s with part, opens := s.opens.erase ⟨t, inodeNo, addr⟩ }

/-- A process opens inodes the disk has and closes what it has opened. An open is
an entry of `file_table` or a `struct dir` in memory, so there are fewer than the
count can hold. -/
def CacheState.May (s : CacheState p N) : CacheOp N → Prop
  | .inodeOpen t inodeNo => s.loading t = none ∧ s.opens.length + 1 < 2 ^ 32 ∧
      (Inode.ofMem s.part.vol.disk (p.slotAddr inodeNo)).no = inodeNo
  | .resume t => s.loading t ≠ none
  | .inodeClose t inodeNo addr => s.loading t = none ∧ ⟨t, inodeNo, addr⟩ ∈ s.opens

/-- The structs and the opens agree. -/
structure CacheBooks (s : CacheState p N) : Prop where
  steady : Steady s.part
  /-- one struct for each number -/
  unique : ∀ a b n, s.part.noAt a = some n → s.part.noAt b = some n → a = b
  held : ∀ h ∈ s.opens, s.part.noAt h.addr = some h.no
  counted : ∀ a, s.part.cnt a = s.opens.countP fun h => h.addr = a

def cacheMachine (p : Partition) (N : Nat) : Machine (CacheState p N) (CacheOp N) where
  start s := CacheBooks s ∧ ∀ t, s.loading t = none
  may := CacheState.May
  step := CacheState.step

/-- No `inode_open` begins while another process reads the same inode. -/
def NotLoading (s : CacheState p N) : CacheOp N → Prop
  | .inodeOpen _ inodeNo => ∀ u, s.loading u ≠ some inodeNo
  | _ => True

/-- What the list is to be: no two structs with one number, and each with the
number of opens of its inode. -/
structure OneCopy (s : CacheState p N) : Prop where
  nodup : (s.part.openInodes.map fun e => e.2.no).Nodup
  counted : ∀ e ∈ s.part.openInodes,
    e.2.iOpenCnts.toNat = s.opens.countP fun h => h.no = e.2.no

/-! ## The invariant -/

/-- While an inode is read, it is read once and has no struct yet. -/
structure CacheInv (s : CacheState p N) : Prop extends CacheBooks s where
  alone : ∀ t u n, s.loading t = some n → s.loading u = some n → t = u
  absent : ∀ t n, s.loading t = some n → ∀ a, s.part.noAt a ≠ some n
  onDisk : ∀ t n, s.loading t = some n → (Inode.ofMem s.part.vol.disk (p.slotAddr n)).no = n

section

variable {s s' : CacheState p N}

theorem CacheBooks.room (h : CacheBooks s) (hlen : s.opens.length + 1 < 2 ^ 32) (b : Nat) :
    s.part.cnt b + 1 < 2 ^ 32 := by
  rw [h.counted]
  have hle := List.countP_le_length (p := fun h : OpenHandle => decide (h.addr = b)) (l := s.opens)
  omega

/-- An open that is through, on a struct that has the number or on a new one where
none has. -/
theorem CacheBooks.opened (h : CacheBooks s) {part : Mounted p} {t n a : Nat}
    {loading : Fin N → Option Nat} (ho : Opens s.part a n part)
    (hother : ∀ b, s.part.noAt b = some n → b = a) :
    CacheBooks ⟨part, loading, ⟨t, n, a⟩ :: s.opens⟩ := by
  -- the numbers of the old structs are kept, the one at `a` included
  have hkeep : ∀ b m, s.part.noAt b = some m → part.noAt b = some m := by
    intro b m hb
    rw [ho.no, Function.update_apply]
    split
    · next hba =>
      rcases ho.was with ⟨hnone, -⟩ | hsome
      · rw [hba, hnone] at hb
        cases hb
      · rw [hba, hsome] at hb
        exact hb
    · exact hb
  refine ⟨ho.steady, fun b c m hb hc => ?_, fun g hg => ?_, fun b => ?_⟩
  · have hb : part.noAt b = some m := hb
    have hc : part.noAt c = some m := hc
    rw [ho.no, Function.update_apply] at hb hc
    split at hb <;> split at hc
    · next hba hca => rw [hba, hca]
    · next hba _ =>
      cases hb
      rw [hba, hother c hc]
    · next _ hca =>
      cases hc
      rw [hca, hother b hb]
    · exact h.unique b c m hb hc
  · rcases List.mem_cons.mp hg with rfl | hg
    · show part.noAt a = some n
      rw [ho.no, Function.update_self]
    · exact hkeep _ _ (h.held g hg)
  · show part.cnt b = _
    rw [ho.cnt, Function.update_apply, List.countP_cons]
    by_cases hb : b = a
    · rw [if_pos hb, hb, h.counted a]
      simp
    · rw [if_neg hb, h.counted b]
      simp [Ne.symm hb]

/-- An open that is closed. -/
theorem CacheBooks.closed (h : CacheBooks s) {part : Mounted p} {g : OpenHandle}
    (hg : g ∈ s.opens) (hc : Closes s.part g.addr part) :
    CacheBooks { s with part, opens := s.opens.erase g } := by
  have hback : ∀ b m, part.noAt b = some m → s.part.noAt b = some m := by
    intro b m hb
    rw [hc.no] at hb
    split at hb
    · rw [Function.update_apply] at hb
      split at hb
      · cases hb
      · exact hb
    · exact hb
  have hcount : ∀ b, part.cnt b = (s.opens.erase g).countP fun h => h.addr = b := by
    intro b
    rw [hc.cnt, Function.update_apply, List.countP_erase]
    by_cases hb : b = g.addr
    · rw [if_pos hb, hb, h.counted]
      simp [hg]
    · rw [if_neg hb, h.counted]
      simp [Ne.symm hb]
  refine ⟨hc.steady, fun b c m hb hc' => h.unique b c m (hback b m hb) (hback c m hc'),
    fun e he => ?_, hcount⟩
  · show part.noAt e.addr = some e.no
    have hmem := List.mem_of_mem_erase he
    rw [hc.no]
    split
    · next hone =>
      rw [Function.update_apply, if_neg ?_]
      · exact h.held e hmem
      · -- the last user of a struct is not there twice
        intro heq
        have hzero := hcount g.addr
        rw [hc.cnt, Function.update_self, hone] at hzero
        have hpos : 0 < (s.opens.erase g).countP fun h => h.addr = g.addr :=
          List.countP_pos_iff.mpr ⟨e, he, by simpa using heq⟩
        omega
    · exact h.held e hmem

theorem hit_inv (h : CacheInv s) {t : Fin N} {n a : Nat} {part : Mounted p}
    (hmay : s.May (.inodeOpen t n)) (hfree : NotLoading s (.inodeOpen t n))
    (hhit : inodeOpenHit s.part n = some (a, part)) :
    CacheInv { s with part, opens := ⟨t, n, a⟩ :: s.opens } := by
  obtain ⟨ho, hvol⟩ := inodeOpenHit_opens h.steady (h.room hmay.2.1) hhit
  have hno := inodeOpenHit_no h.steady.nodup hhit
  refine ⟨h.opened ho fun b hb => h.unique b a n hb hno, h.alone, fun u m hu b => ?_,
    fun u m hu => ?_⟩
  · show part.noAt b ≠ some m
    rw [ho.no, Function.update_apply]
    split
    · intro heq
      cases heq
      exact hfree u hu
    · exact h.absent u m hu b
  · show (Inode.ofMem part.vol.disk (p.slotAddr m)).no = m
    rw [hvol]
    exact h.onDisk u m hu

theorem miss_inv (h : CacheInv s) {t : Fin N} {n : Nat} (hmay : s.May (.inodeOpen t n))
    (hfree : NotLoading s (.inodeOpen t n)) (hmiss : inodeOpenHit s.part n = none) :
    CacheInv { s with loading := Function.update s.loading t (some n) } := by
  have hmiss := inodeOpenHit_none.mp hmiss
  refine ⟨⟨h.steady, h.unique, h.held, h.counted⟩, fun u w m hu hw => ?_, fun u m hu a => ?_,
    fun u m hu => ?_⟩
  · have hu : Function.update s.loading t (some n) u = some m := hu
    have hw : Function.update s.loading t (some n) w = some m := hw
    rw [Function.update_apply] at hu hw
    split at hu <;> split at hw
    · next hut hwt => rw [hut, hwt]
    · cases hu
      exact absurd hw (hfree w)
    · cases hw
      exact absurd hu (hfree u)
    · exact h.alone u w m hu hw
  · have hu : Function.update s.loading t (some n) u = some m := hu
    rw [Function.update_apply] at hu
    split at hu
    · cases hu
      intro hno
      obtain ⟨i, hi, hin⟩ := Option.map_eq_some_iff.mp hno
      exact hmiss (a, i) (Mounted.lookup_mem hi) hin
    · exact h.absent u m hu a
  · have hu : Function.update s.loading t (some n) u = some m := hu
    rw [Function.update_apply] at hu
    split at hu
    · cases hu
      exact hmay.2.2
    · exact h.onDisk u m hu

theorem resume_inv (h : CacheInv s) {t : Fin N} {n a : Nat} {part : Mounted p}
    (hn : s.loading t = some n) (hload : inodeOpenLoad s.part n = some (a, part)) :
    CacheInv ⟨part, Function.update s.loading t none, ⟨t, n, a⟩ :: s.opens⟩ := by
  obtain ⟨ho, hvol⟩ := inodeOpenLoad_opens h.steady hload
  rw [h.onDisk t n hn] at ho
  -- no other process was reading this inode
  have hother : ∀ u m, Function.update s.loading t none u = some m →
      s.loading u = some m ∧ m ≠ n := by
    intro u m hu
    rw [Function.update_apply] at hu
    split at hu
    · cases hu
    · next hut => exact ⟨hu, fun heq => hut (h.alone u t n (heq ▸ hu) hn)⟩
  refine ⟨h.opened ho fun b hb => absurd hb (h.absent t n hn b), fun u w m hu hw => ?_,
    fun u m hu b => ?_, fun u m hu => ?_⟩
  · exact h.alone u w m (hother u m hu).1 (hother w m hw).1
  · obtain ⟨hu, hmn⟩ := hother u m hu
    show part.noAt b ≠ some m
    rw [ho.no, Function.update_apply]
    split
    · intro heq
      exact hmn (Option.some.inj heq).symm
    · exact h.absent u m hu b
  · show (Inode.ofMem part.vol.disk (p.slotAddr m)).no = m
    rw [hvol]
    exact h.onDisk u m (hother u m hu).1

theorem close_inv (h : CacheInv s) {t : Fin N} {n a : Nat} {part : Mounted p}
    (hmem : ⟨t, n, a⟩ ∈ s.opens) (hclose : inodeClose s.part a = some part) :
    CacheInv { s with part, opens := s.opens.erase ⟨t, n, a⟩ } := by
  obtain ⟨hc, hvol⟩ := inodeClose_closes h.steady hclose
  refine ⟨h.closed hmem hc, h.alone, fun u m hu b hb => ?_, fun u m hu => ?_⟩
  · have hb : part.noAt b = some m := hb
    rw [hc.no] at hb
    split at hb
    · rw [Function.update_apply] at hb
      split at hb
      · cases hb
      · exact h.absent u m hu b hb
    · exact h.absent u m hu b hb
  · show (Inode.ofMem part.vol.disk (p.slotAddr m)).no = m
    rw [hvol]
    exact h.onDisk u m hu

theorem cache_step (h : CacheInv s) {op : CacheOp N} (hmay : s.May op) (hfree : NotLoading s op)
    (hstep : s.step op = some s') : CacheInv s' := by
  cases op with
  | inodeOpen t n =>
    unfold CacheState.step at hstep
    cases hhit : inodeOpenHit s.part n with
    | some r =>
      obtain ⟨a, part⟩ := r
      simp only [hhit, Option.some.injEq] at hstep
      subst hstep
      exact hit_inv h hmay hfree hhit
    | none =>
      simp only [hhit, Option.bind_eq_bind, Option.bind_eq_some_iff, Option.pure_def,
        Option.some.injEq] at hstep
      obtain ⟨-, -, rfl⟩ := hstep
      exact miss_inv h hmay hfree hhit
  | resume t =>
    simp only [CacheState.step, Option.bind_eq_bind, Option.bind_eq_some_iff, Prod.exists,
      Option.pure_def, Option.some.injEq] at hstep
    obtain ⟨n, hn, a, part, hload, rfl⟩ := hstep
    exact resume_inv h hn hload
  | inodeClose t n a =>
    simp only [CacheState.step, Option.bind_eq_bind, Option.bind_eq_some_iff, Option.pure_def,
      Option.some.injEq] at hstep
    obtain ⟨part, hclose, rfl⟩ := hstep
    exact close_inv h hmay.2 hclose

/-- The books by address are the books by number. -/
theorem CacheBooks.oneCopy (h : CacheBooks s) : OneCopy s := by
  refine ⟨?_, fun e he => ?_⟩
  · refine List.Nodup.map_on (fun e he e' he' heq => ?_) (List.Nodup.of_map _ h.steady.nodup)
    have hat := h.steady.inodeAt_of_mem he
    have hat' := h.steady.inodeAt_of_mem he'
    have haddr : e.1 = e'.1 := by
      apply h.unique e.1 e'.1 e.2.no (Mounted.noAt_of_inodeAt hat)
      rw [heq]
      exact Mounted.noAt_of_inodeAt hat'
    apply Prod.ext haddr
    rw [haddr, hat', Option.some.injEq] at hat
    exact hat.symm
  · have hat := h.steady.inodeAt_of_mem he
    have hno := Mounted.noAt_of_inodeAt hat
    rw [← Mounted.cnt_of_inodeAt hat, h.counted]
    apply List.countP_congr
    intro g hg
    have hgno := h.held g hg
    simp only [decide_eq_true_eq]
    constructor
    · intro heq
      rw [heq, hno, Option.some.injEq] at hgno
      exact hgno.symm
    · intro heq
      rw [heq] at hgno
      exact h.unique _ _ _ hgno hno

end

/-- **One struct for each inode**, with the number of its users, in every run in
which no `inode_open` begins while another process reads the same inode. -/
theorem one_copy (s : CacheState p N) (h : (cacheMachine p N).Reach NotLoading s) : OneCopy s := by
  have hinv : CacheInv s := by
    refine Machine.Reach.invariant ?_ ?_ h
    · intro s hs
      obtain ⟨hbooks, hnone⟩ := hs
      have hload : ∀ {t n}, s.loading t = some n → False := by
        intro t n ht
        rw [hnone t] at ht
        cases ht
      exact ⟨hbooks, fun _ _ _ ht => (hload ht).elim, fun _ _ ht => (hload ht).elim,
        fun _ _ ht => (hload ht).elim⟩
    · intro s op s' hinv hmay hfree hstep
      exact cache_step hinv hmay hfree hstep
  exact hinv.oneCopy

/-! ## Two processes -/

/-- The small tree with its root open, and two processes. -/
def smallCache : CacheState blankPartition 2 where
  part := smallSys.part
  loading := fun _ => none
  opens := [⟨0, 0, 1⟩]

theorem small_cacheBooks : CacheBooks smallCache := by
  have hno : ∀ a n, smallCache.part.noAt a = some n → a = 1 ∧ n = 0 := by
    intro a n h
    have h : smallSys.part.noAt a = some n := h
    rw [Mounted.noAt, small_inodeAt] at h
    split at h
    · next ha => exact ⟨ha, (Option.some.inj h).symm⟩
    · cases h
  refine ⟨small_steady, fun a b n ha hb => ?_, fun g hg => ?_, fun a => ?_⟩
  · rw [(hno a n ha).1, (hno b n hb).1]
  · rw [List.mem_singleton.mp hg]
    show smallSys.part.noAt 1 = some 0
    rw [Mounted.noAt, small_inodeAt]
    rfl
  · show smallSys.part.cnt a = _
    rw [Mounted.cnt, small_inodeAt]
    by_cases h : a = 1
    · rw [if_pos h, h]
      decide
    · rw [if_neg h]
      simp [smallCache, Ne.symm h]

instance (s : CacheState p N) (op : CacheOp N) : Decidable ((cacheMachine p N).may s op) := by
  cases op <;> unfold cacheMachine CacheState.May <;> infer_instance

instance (s : CacheState p N) (op : CacheOp N) : Decidable (NotLoading s op) := by
  cases op <;> unfold NotLoading <;> infer_instance

/-- Process 1 opens the inode after process 0 has got it from the disk, and
process 0 closes it. -/
theorem one_copy_in_turn :
    ∃ s, (cacheMachine blankPartition 2).follow NotLoading smallCache [.inodeOpen 0 1, .resume 0,
        .inodeOpen 1 1, .inodeClose 0 1 2] = some s ∧
      s.opens = [⟨1, 1, 2⟩, ⟨0, 0, 1⟩] ∧ OneCopy s := by
  have hsome : ((cacheMachine blankPartition 2).follow NotLoading smallCache [.inodeOpen 0 1,
      .resume 0, .inodeOpen 1 1, .inodeClose 0 1 2]).map (fun s => s.opens) =
        some [⟨1, 1, 2⟩, ⟨0, 0, 1⟩] := by decide +kernel
  obtain ⟨s, hs, he⟩ := Option.map_eq_some_iff.mp hsome
  have hreach : (cacheMachine blankPartition 2).Reach NotLoading s :=
    Machine.reach_of_follow (Machine.Reach.start ⟨small_cacheBooks, fun _ => rfl⟩) hs
  exact ⟨s, hs, he, one_copy s hreach⟩

/-- **Two structs for one inode**: both processes miss the list before either has
read the inode. -/
theorem two_copies :
    ∃ s, (cacheMachine blankPartition 2).Reachable s ∧
      s.part.openInodes.map (fun e => e.2.no) = [1, 1, 0] ∧
      s.opens.countP (fun h => h.no = 1) = 2 ∧
      s.part.openInodes.map (fun e => e.2.iOpenCnts) = [1, 1, 1] ∧ ¬OneCopy s := by
  have hsome : ((cacheMachine blankPartition 2).follow (fun _ _ => True) smallCache
      [.inodeOpen 0 1, .inodeOpen 1 1, .resume 0, .resume 1]).map
      (fun s => (s.part.openInodes.map (fun e => e.2.no), s.opens.countP (fun h => h.no = 1),
        s.part.openInodes.map (fun e => e.2.iOpenCnts))) =
        some ([1, 1, 0], 2, [1, 1, 1]) := by decide +kernel
  obtain ⟨s, hs, he⟩ := Option.map_eq_some_iff.mp hsome
  simp only [Prod.mk.injEq] at he
  obtain ⟨hno, hcount, hcnts⟩ := he
  have hreach : (cacheMachine blankPartition 2).Reachable s :=
    Machine.reach_of_follow (Machine.Reach.start ⟨small_cacheBooks, fun _ => rfl⟩) hs
  refine ⟨s, hreach, hno, hcount, hcnts, fun hone => ?_⟩
  have hnodup := hone.nodup
  rw [hno] at hnodup
  exact absurd hnodup (by decide)

end OsCore.Fs
