import OsCore.Lib.Machine
import OsCore.Userprog.UserHeap

/-!
# Parent and child after a fork

Runs of any number of processes: calls on their heaps, writes by their programs,
and forks. In all states of a run in which nobody frees a small block it
inherited, every process has a heap in two parts (`Reached.ok`), so what it
inherited and what it allocated does not overlap.

`heaps_independent` is about two runs from the same `sys_fork`: one with the
calls of the child and one without. A call of the child changes nothing the
others see, and the others go the same way in both runs because their next
state is a function of the two parts alone (`Agree`).

`child_empties_parents_list` is the run in which the child does free a small
block it inherited.
-/

namespace OsCore.Userprog

open OsCore.Kernel OsCore.Lib

variable {ι : Type}

section

variable [DecidableEq ι] {P : Pcbs ι} {w : World ι} {i : ι} {p : Proc} {h old : Heap}

/-! ## Runs -/

/-- Call `e` may be made. -/
def MayCall (P : Pcbs ι) (w : World ι) (e : ι × Call) : Prop :=
  ∃ p, w.procs e.1 = some p ∧ Permitted P e.1 p e.2

/-- A block that came with a `sys_fork` is only freed when it has pages of its
own. -/
def Spares (w : World ι) (e : ι × Call) : Prop :=
  ∀ p ptr, w.procs e.1 = some p → e.2 = .free ptr → ptr ∈ p.inherited →
    ∃ size, (ptr, size) ∈ p.live ∧ 1024 < size

/-- The worlds that grow from one process by calls and forks, where no process
frees a small block that it got by a `sys_fork`. -/
inductive Reached (P : Pcbs ι) : World ι → Prop
  | start (i : ι) (kernel user : Mem) : Reached P
      { kernel := blockDescInit kernel (P.owner i).descs
        procs := fun j => if j = i then some ⟨user, [], [], [], []⟩ else none }
  | call {w w' : World ι} (e : ι × Call) : Reached P w → MayCall P w e → Spares w e →
      w.call P e.1 e.2 = some w' → Reached P w'
  | fork {w w' : World ι} (parent child : ι) : Reached P w → w.fork P parent child = some w' →
      Reached P w'

/-- The calls from there on. -/
def callMachine (P : Pcbs ι) : Machine (World ι) (ι × Call) where
  start := Reached P
  may := MayCall P
  step w e := w.call P e.1 e.2

/-! ## All processes -/

/-- Every process is well. -/
def WorldOk (P : Pcbs ι) (w : World ι) : Prop :=
  ∀ i p, w.procs i = some p → ∃ h old, ProcOk P w i p h old

omit [DecidableEq ι] in
/-- What `Spares` says about the inherited part. -/
theorem Spares.large {c : Call} (hs : Spares w (i, c)) (hw : w.procs i = some p)
    (hp : ProcOk P w i p h old) (ptr : Nat) (hc : c = .free ptr) (hin : ptr ∈ old.used) :
    ∃ size, (ptr, size) ∈ old.live ∧ 1024 < size := by
  obtain ⟨size, he, hsize⟩ := hs p ptr hw hc (hp.inherited ptr hin)
  rw [hp.live] at he
  refine ⟨size, (List.mem_append.mp he).resolve_left fun hown => ?_, hsize⟩
  exact hp.apart.used hp.own.ok hp.oldOk (List.mem_map.mpr ⟨_, hown, rfl⟩) hin

theorem Done.worldOk {c : Call} {w' : World ι} {p' : Proc} (hd : Done P w i p h old c w' p')
    (hok : WorldOk P w) : WorldOk P w' := by
  intro j q hq
  by_cases hij : j = i
  · rw [hij, hd.proc] at hq
    cases hq
    rw [hij]
    exact ⟨_, _, hd.ok⟩
  · rw [hd.others j hij] at hq
    obtain ⟨g, gold, hg⟩ := hok j q hq
    exact ⟨g, gold, hd.frame (Ne.symm hij) hg⟩

theorem Reached.ok (hr : Reached P w) : WorldOk P w := by
  induction hr with
  | start i kernel user =>
    intro j q hq
    dsimp only at hq
    split at hq
    next hji =>
      cases hq
      rw [hji]
      refine ⟨noHeap, noHeap, ?_, rfl, rfl, ?_, fun A hA => absurd hA List.not_mem_nil,
        fun A hA => absurd hA List.not_mem_nil, fun q hq => absurd hq List.not_mem_nil,
        fun A hA => absurd hA List.not_mem_nil, fun A hA => absurd hA List.not_mem_nil⟩
      · apply write_represents (init_represents (P.owner i) kernel)
        intro a ha
        rcases ha with ⟨h1, h2⟩ | ⟨⟨e, he, -⟩, -⟩
        · have := descs_kernel P i
          exact view_kernel (by omega)
        · exact absurd he List.not_mem_nil
      · exact (init_represents (P.owner i) kernel).ok
    next => exact absurd hq (by simp)
  | call e _ hmay hspare hrun ih =>
    obtain ⟨p, hw, hper⟩ := hmay
    obtain ⟨h, old, hp⟩ := ih e.1 p hw
    obtain ⟨w', p', hd⟩ := hp.call hw hper (Spares.large hspare hw hp)
    rw [hd.run, Option.some.injEq] at hrun
    exact hrun ▸ hd.worldOk ih
  | fork parent child _ hrun ih =>
    obtain ⟨p, hw⟩ := fork_source hrun
    obtain ⟨h, old, hp⟩ := ih parent p hw
    obtain ⟨-, hrest, hothers, c, hc, hcok⟩ := fork_ok hrun hw hp
    intro j q hq
    by_cases hj : j = child
    · rw [hj, hc] at hq
      cases hq
      rw [hj]
      exact ⟨_, _, hcok⟩
    · rw [hrest j hj] at hq
      obtain ⟨g, gold, hg⟩ := ih j q hq
      exact ⟨g, gold, hothers j q g gold hj hg⟩

omit [DecidableEq ι] in
/-- The header of an inherited arena still tells how long its blocks are. -/
theorem ProcOk.lenRight_old (hok : WorldOk P w) (hp : ProcOk P w i p h old) {e : Nat × Nat}
    (he : e ∈ old.live) : LenRight (view w.kernel p.user) old e := by
  unfold LenRight blockLen
  rcases hp.oldOk.room e he with ⟨k, hb, hle⟩ | ⟨A, hA, hcls, hptr, hle⟩
  · obtain ⟨A, hA, hcls, hpage, -, -, -⟩ := hp.oldOk.block_in hb
    obtain ⟨j, hj, hdesc⟩ := hp.small A hA k hcls
    obtain ⟨q, hq⟩ := Option.isSome_iff_exists.mp hj
    obtain ⟨g, gold, hg⟩ := hok j q hq
    -- the descriptor is another process's, in memory all see
    have hk := (hp.oldOk.small A hA k hcls).1
    have hbase := descs_kernel P j
    have hpos := (P.owner j).descs_pos
    have hsize : (view w.kernel p.user).rd32 (descAt (P.owner j).descs k) = blockSize k := by
      rw [← hg.own.rep.size k hk]
      apply rd32_same
      intro b _
      unfold descAt
      rw [view_kernel (by omega)]
      exact (view_kernel (by omega)).symm
    refine Or.inl ⟨k, hb, hle, ?_⟩
    rw [← hpage, hdesc, if_neg (by unfold descAt; omega), hsize]
  · obtain ⟨h0, h4, -⟩ := hp.large A hA hcls
    refine Or.inr ⟨A, hA, hcls, hptr, hle, ?_⟩
    rw [hptr, Heap.block2arena_header (hp.oldOk.placed A hA).aligned, if_pos h0, h4]

omit [DecidableEq ι] in
/-- The blocks of a process, inherited or not, do not overlap. -/
theorem ProcOk.blocksApart (hok : WorldOk P w) (hp : ProcOk P w i p h old) :
    BlocksApart (p.heap w.kernel) := by
  apply blocksApart_of hp.whole (hp.held.trans Heap.ranges_append.symm) hp.live
  intro e he
  rcases List.mem_append.mp he with he | he
  · rcases hp.own.lenRight he with ⟨k, hb, hlen⟩ | ⟨A, hA, hlen⟩
    · exact Or.inl ⟨k, Heap.isBlock_append.mpr (Or.inl hb), hlen⟩
    · exact Or.inr ⟨A, List.mem_append_left _ hA, hlen⟩
  · rcases hp.lenRight_old hok he with ⟨k, hb, hlen⟩ | ⟨A, hA, hlen⟩
    · exact Or.inl ⟨k, Heap.isBlock_append.mpr (Or.inr hb), hlen⟩
    · exact Or.inr ⟨A, List.mem_append_right _ hA, hlen⟩

/-! ## With and without the child -/

/-- Two worlds that only `child` can tell apart, with `parent` in both. -/
structure Agree (P : Pcbs ι) (parent child : ι) (s t : World ι) : Prop where
  ok : WorldOk P s
  parent : (s.procs parent).isSome = true
  same : ∀ i, i ≠ child → (s.procs i = none ∧ t.procs i = none) ∨ ∃ p q h old,
    s.procs i = some p ∧ t.procs i = some q ∧ ProcOk P s i p h old ∧ ProcOk P t i q h old ∧
      p.results = q.results

omit [DecidableEq ι] in
theorem Permitted.congr {q : Proc} {c : Call} (hc : Permitted P i p c) (hheld : p.held = q.held)
    (hlive : p.live = q.live) : Permitted P i q c := by
  cases c with
  | malloc size answer =>
    intro a ha
    rw [← hheld]
    exact hc a ha
  | free ptr =>
    show ptr ∈ q.live.map (·.1)
    rw [← hlive]
    exact hc
  | store addr byte =>
    obtain ⟨hlt, hin⟩ := hc
    rw [hheld, hlive] at hin
    exact ⟨hlt, hin⟩

/-- The child's calls are not seen. -/
theorem Agree.hidden {parent child : ι} {s t : World ι} (hag : Agree P parent child s t) {c : Call}
    (hmay : MayCall P s (child, c)) (hspare : Spares s (child, c)) :
    ∃ s', s.call P child c = some s' ∧ Agree P parent child s' t := by
  obtain ⟨p, hw, hper⟩ := hmay
  obtain ⟨h, old, hp⟩ := hag.ok child p hw
  obtain ⟨s', p', hd⟩ := hp.call hw hper (Spares.large hspare hw hp)
  refine ⟨s', hd.run, hd.worldOk hag.ok, hd.isSome hag.parent, fun i hi => ?_⟩
  rw [hd.others i hi]
  rcases hag.same i hi with hnone | ⟨q, q', g, gold, hq, hq', hg, hg', hres⟩
  · exact Or.inl hnone
  · exact Or.inr ⟨q, q', g, gold, hq, hq', hd.frame (Ne.symm hi) hg, hg', hres⟩

/-- All others go the same way in both worlds. -/
theorem Agree.shown {parent child : ι} {s t : World ι} (hag : Agree P parent child s t) {c : Call} (hi : i ≠ child)
    (hmay : MayCall P s (i, c)) (hspare : Spares s (i, c)) :
    ∃ s' t', s.call P i c = some s' ∧ t.call P i c = some t' ∧ Agree P parent child s' t' := by
  obtain ⟨p, hw, hper⟩ := hmay
  rcases hag.same i hi with ⟨hnone, -⟩ | ⟨p1, q, h, old, hp1, hq, hp, hp', hres⟩
  · dsimp only at hw
    rw [hnone] at hw
    exact absurd hw (by simp)
  · cases hp1.symm.trans hw
    have hlarge := Spares.large hspare hw hp
    obtain ⟨s', p', hd⟩ := hp.call hw hper hlarge
    obtain ⟨t', q', hd'⟩ := hp'.call hq
      (hper.congr (hp.held.trans hp'.held.symm) (hp.live.trans hp'.live.symm)) hlarge
    refine ⟨s', t', hd.run, hd'.run, hd.worldOk hag.ok, hd.isSome hag.parent, fun j hj => ?_⟩
    by_cases hij : j = i
    · rw [hij, hd.proc, hd'.proc]
      exact Or.inr ⟨p', q', _, _, rfl, rfl, hd.ok, hd'.ok, by rw [hd.results, hd'.results, hres]⟩
    · rw [hd.others j hij, hd'.others j hij]
      rcases hag.same j hj with hnone | ⟨u, v, g, gold, hu, hv, hg, hg', hr⟩
      · exact Or.inl hnone
      · exact Or.inr ⟨u, v, g, gold, hu, hv, hd.frame (Ne.symm hij) hg, hd'.frame (Ne.symm hij) hg', hr⟩

omit [DecidableEq ι] in
/-- Right after the `sys_fork` the two worlds are one. -/
theorem Agree.refl {parent child : ι} (hok : WorldOk P w) (hw : (w.procs parent).isSome = true) :
    Agree P parent child w w := by
  refine ⟨hok, hw, fun i _ => ?_⟩
  cases hi : w.procs i with
  | none => exact Or.inl ⟨rfl, rfl⟩
  | some p =>
    obtain ⟨h, old, hp⟩ := hok i p hi
    exact Or.inr ⟨p, p, h, old, rfl, rfl, hp, hp, rfl⟩

/-- **The heaps of parent and child are independent**, as long as nobody frees a
block of at most 1024 bytes that it got by a `sys_fork`. Whatever calls follow the
`sys_fork`, they come back; the blocks of the parent do not overlap; and its
results, its blocks and pages and its free lists are those of the run without the
calls of the child. -/
theorem heaps_independent {w0 : World ι} {parent child : ι} (hw : Reached P w)
    (hfork : w.fork P parent child = some w0) {es : List (ι × Call)}
    (hes : (callMachine P).Grants Spares w0 es) :
    ∃ s t ps pt, (callMachine P).run w0 es = some s ∧
      (callMachine P).run w0 (es.filter (·.1 ≠ child)) = some t ∧
      s.procs parent = some ps ∧ t.procs parent = some pt ∧
      BlocksApart (ps.heap s.kernel) ∧ ps.results = pt.results ∧ ps.live = pt.live ∧
      ps.held = pt.held ∧ ∀ k, k < 7 → ∃ xs,
        IsList (view s.kernel ps.user) (listOf (P.owner parent) k) xs ∧
        IsList (view t.kernel pt.user) (listOf (P.owner parent) k) xs := by
  have hok : WorldOk P w0 := (Reached.fork parent child hw hfork).ok
  have hpar : parent ≠ child ∧ (w0.procs parent).isSome = true := by
    obtain ⟨p, hp⟩ := fork_source hfork
    obtain ⟨h, old, hpok⟩ := hw.ok parent p hp
    obtain ⟨hne, hrest, -⟩ := fork_ok hfork hp hpok
    exact ⟨hne, by rw [hrest parent hne, hp]; rfl⟩
  obtain ⟨s, t, hs, ht, hag⟩ := Machine.run_purge (M := callMachine P) (G := Spares)
    (Agree P parent child) (fun e => decide (e.1 = child))
    (fun s t e hag hmay hspare hh => hag.shown (of_decide_eq_false hh) hmay hspare)
    (fun s t e hag hmay hspare hh => by
      obtain ⟨i, c⟩ := e
      obtain rfl : i = child := of_decide_eq_true hh
      exact hag.hidden hmay hspare) (Agree.refl hok hpar.2) hes
  have hfilter : es.filter (·.1 ≠ child) = es.filter fun e => !decide (e.1 = child) :=
    List.filter_congr fun e _ => decide_not
  rcases hag.same parent hpar.1 with ⟨hnone, -⟩ | ⟨ps, pt, h, old, hps, hpt, hp, hp', hres⟩
  · have := hag.parent
    rw [hnone] at this
    exact absurd this (by simp)
  · refine ⟨s, t, ps, pt, hs, hfilter ▸ ht, hps, hpt, hp.blocksApart hag.ok, hres,
      hp.live.trans hp'.live.symm, hp.held.trans hp'.held.symm, fun k hk => ⟨h.free k, ?_, ?_⟩⟩
    · exact hp.own.rep.lists k hk
    · exact hp'.own.rep.lists k hk

end

/-! ## A parent, its child and one arena -/

inductive Side
  | parent
  | child
  deriving DecidableEq

/-- The kernel pool of a machine with 32 MB of memory. -/
theorem smallPool_le : 15 * 2 ^ 20 ≤ 65535 * 4096 := by decide

def twoPcbs : Pcbs Side where
  pcb
    | .parent => 0xc0200000
    | .child => 0xc0201000
  poolSize := 15 * 2 ^ 20
  kernel i := by cases i <;> decide
  word i := by cases i <;> decide
  apart i j hij := by
    cases i <;> cases j <;> first | exact absurd rfl hij | decide
  poolSize_le := smallPool_le

def onlyParent : World Side where
  kernel := blockDescInit Mem.zero (twoPcbs.owner .parent).descs
  procs j := if j = .parent then some ⟨Mem.zero, [], [], [], []⟩ else none

/-- The parent has one block of an arena with room for three. -/
def oneBlock : Option (World Side) :=
  onlyParent.call twoPcbs .parent (.malloc 1000 (some 0x8049000))

def afterFork : Option (World Side) := oneBlock.bind fun w => w.fork twoPcbs .parent .child

theorem afterFork_isSome : afterFork.isSome = true := by decide +kernel

theorem fresh_page {i : Side} {held : List (Nat × Nat)} {a : Nat} (halign : a % 4096 = 0) (hpos : 0 < a)
    (huser : a + 4096 ≤ kernelBase)
    (hapart : ∀ e ∈ held, a + 4096 ≤ e.1 ∨ e.1 + 4096 * e.2 ≤ a) :
    FreshPages (twoPcbs.owner i) held a (pagesAsked 1000) ∧ UserPages a (pagesAsked 1000) := by
  have hone : pagesAsked 1000 = 1 := rfl
  have hdescs := descs_kernel twoPcbs i
  have hbase : kernelBase ≤ 2 ^ 32 := by decide
  rw [hone]
  refine ⟨⟨⟨halign, hpos, Nat.zero_le _, Nat.one_pos, by omega, Or.inl (by omega)⟩, ?_⟩, huser⟩
  exact hapart

theorem reached_oneBlock {w : World Side} (h : oneBlock = some w) : Reached twoPcbs w := by
  have hstart : Reached twoPcbs onlyParent := by
    have hinit := Reached.start (P := twoPcbs) Side.parent Mem.zero Mem.zero
    exact hinit
  have hproc : onlyParent.procs .parent = some ⟨Mem.zero, [], [], [], []⟩ := rfl
  refine .call (.parent, .malloc 1000 (some 0x8049000)) hstart ⟨_, hproc, ?_⟩ ?_ h
  · intro a ha
    obtain rfl : 0x8049000 = a := Option.some.inj ha
    exact fresh_page (by decide) (by decide) (by decide) fun e he => absurd he List.not_mem_nil
  · exact fun p ptr _ hc => absurd hc (by simp)

/-- The pages and the blocks of a process, after the calls `es`. -/
def heapAfter (es : List (Side × Call)) (i : Side) : Option (List (Nat × Nat) × List (Nat × Nat)) :=
  (afterFork.bind fun w => (callMachine twoPcbs).run w es).bind fun w =>
    (w.procs i).map fun p => (p.held, p.live)

theorem heapAfter_eq {w0 w : World Side} {es : List (Side × Call)} {i : Side}
    {x : List (Nat × Nat) × List (Nat × Nat)} (hw0 : afterFork = some w0)
    (hrun : (callMachine twoPcbs).run w0 es = some w) (hx : heapAfter es i = some x) :
    ∃ p, w.procs i = some p ∧ p.held = x.1 ∧ p.live = x.2 := by
  rw [heapAfter, hw0, Option.bind_some, hrun, Option.bind_some] at hx
  obtain ⟨p, hp, he⟩ := Option.map_eq_some_iff.mp hx
  exact ⟨p, hp, congrArg Prod.fst he, congrArg Prod.snd he⟩

/-- The parent may ask for another 1000 bytes. -/
theorem parent_may {w0 s : World Side} {e : Side × Call} (hw0 : afterFork = some w0)
    (hstep : (callMachine twoPcbs).step w0 e = some s)
    (hx : heapAfter [e] .parent = some ([(0x8049000, 1)], [(0x804900c, 1000)])) :
    MayCall twoPcbs s (.parent, .malloc 1000 (some 0x804a000)) := by
  have hrun : (callMachine twoPcbs).run w0 [e] = some s := by
    rw [Machine.run, hstep]
    rfl
  obtain ⟨p, hp, hheld, -⟩ := heapAfter_eq hw0 hrun hx
  refine ⟨p, hp, fun a ha => ?_⟩
  obtain rfl : 0x804a000 = a := Option.some.inj ha
  apply fresh_page (by decide) (by decide) (by decide)
  intro e he
  rw [hheld] at he
  obtain rfl := List.mem_singleton.mp he
  decide

theorem heaps_independent_child_allocates : ∃ w w0 s t ps pt, Reached twoPcbs w ∧
    w.fork twoPcbs .parent .child = some w0 ∧
    (callMachine twoPcbs).run w0 [(.child, .malloc 1000 (some 0x804a000)),
      (.parent, .malloc 1000 (some 0x804a000))] = some s ∧
    (callMachine twoPcbs).run w0 [(.parent, .malloc 1000 (some 0x804a000))] = some t ∧
    s.procs .parent = some ps ∧ t.procs .parent = some pt ∧
    BlocksApart (ps.heap s.kernel) ∧ ps.results = pt.results := by
  have hchild : heapAfter [] .child = some ([(0x8049000, 1)], [(0x804900c, 1000)]) := by decide +kernel
  have hparent : heapAfter [(.child, .malloc 1000 (some 0x804a000))] .parent =
      some ([(0x8049000, 1)], [(0x804900c, 1000)]) := by decide +kernel
  obtain ⟨w0, hw0⟩ := Option.isSome_iff_exists.mp afterFork_isSome
  obtain ⟨w, hw, hfork⟩ := Option.bind_eq_some_iff.mp hw0
  obtain ⟨p, hp, hheld, -⟩ := heapAfter_eq hw0 rfl hchild
  have hgrants : (callMachine twoPcbs).Grants Spares w0
      [(.child, .malloc 1000 (some 0x804a000)), (.parent, .malloc 1000 (some 0x804a000))] := by
    refine ⟨⟨p, hp, fun a ha => ?_⟩, fun p ptr _ hc => absurd hc (by simp), fun s hs =>
      ⟨parent_may hw0 hs hparent, fun p ptr _ hc => absurd hc (by simp), fun _ _ => trivial⟩⟩
    obtain rfl : 0x804a000 = a := Option.some.inj ha
    apply fresh_page (by decide) (by decide) (by decide)
    intro e he
    rw [hheld] at he
    obtain rfl := List.mem_singleton.mp he
    decide
  obtain ⟨s, t, ps, pt, hs, ht, hps, hpt, hapart, hres, -⟩ :=
    heaps_independent (reached_oneBlock hw) hfork hgrants
  exact ⟨w, w0, s, t, ps, pt, reached_oneBlock hw, hfork, hs, ht, hps, hpt, hapart, hres⟩

/-- What the parent's `sys_malloc`s returned, after the calls `es`. -/
def parentResults (es : List (Side × Call)) : Option (List Nat) :=
  (afterFork.bind fun w => (callMachine twoPcbs).run w es).bind fun w =>
    (w.procs .parent).map (·.results)

theorem parentResults_some {w0 : World Side} {es : List (Side × Call)} {x : List Nat}
    (hw0 : afterFork = some w0) (hx : parentResults es = some x) :
    ∃ s ps, (callMachine twoPcbs).run w0 es = some s ∧ s.procs .parent = some ps ∧ ps.results = x := by
  rw [parentResults, hw0, Option.bind_some] at hx
  obtain ⟨s, hs, hx⟩ := Option.bind_eq_some_iff.mp hx
  obtain ⟨ps, hps, hres⟩ := Option.map_eq_some_iff.mp hx
  exact ⟨s, ps, hs, hps, hres⟩

/-- The child frees the block it inherited, the only one in use in its arena. Its
two neighbours go off the free list of the parent, and the parent's next
`sys_malloc` takes a new page instead of the second block. -/
theorem child_empties_parents_list : ∃ w w0 es s t ps pt, Reached twoPcbs w ∧
    w.fork twoPcbs .parent .child = some w0 ∧ (callMachine twoPcbs).Grants (fun _ _ => True) w0 es ∧
    (callMachine twoPcbs).run w0 es = some s ∧
    (callMachine twoPcbs).run w0 (es.filter (·.1 ≠ .child)) = some t ∧
    s.procs .parent = some ps ∧ t.procs .parent = some pt ∧
    ps.results = [0x804a00c, 0x804900c] ∧ pt.results = [0x804940c, 0x804900c] := by
  have hchild : heapAfter [] .child = some ([(0x8049000, 1)], [(0x804900c, 1000)]) := by decide +kernel
  have hparent : heapAfter [(.child, .free 0x804900c)] .parent =
      some ([(0x8049000, 1)], [(0x804900c, 1000)]) := by decide +kernel
  have hwith : parentResults [(.child, .free 0x804900c), (.parent, .malloc 1000 (some 0x804a000))] =
      some [0x804a00c, 0x804900c] := by decide +kernel
  have hwithout : parentResults [(.parent, .malloc 1000 (some 0x804a000))] =
      some [0x804940c, 0x804900c] := by decide +kernel
  obtain ⟨w0, hw0⟩ := Option.isSome_iff_exists.mp afterFork_isSome
  obtain ⟨w, hw, hfork⟩ := Option.bind_eq_some_iff.mp hw0
  obtain ⟨p, hp, -, hlive⟩ := heapAfter_eq hw0 rfl hchild
  obtain ⟨s, ps, hs, hps, hres⟩ := parentResults_some hw0 hwith
  obtain ⟨t, pt, ht, hpt, hres'⟩ := parentResults_some hw0 hwithout
  refine ⟨w, w0, [(.child, .free 0x804900c), (.parent, .malloc 1000 (some 0x804a000))], s, t, ps, pt,
    reached_oneBlock hw, hfork, ⟨⟨p, hp, ?_⟩, trivial, fun s hs =>
    ⟨parent_may hw0 hs hparent, trivial, fun _ _ => trivial⟩⟩, hs, ht, hps, hpt, hres, hres'⟩
  show 0x804900c ∈ p.live.map (·.1)
  rw [hlive]
  decide

end OsCore.Userprog
