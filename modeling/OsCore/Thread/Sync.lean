import OsCore.Thread.Scheduler

/-!
# Semaphores and locks

`sync.c` builds a recursive lock on a binary semaphore. The sections of
`sema_down` and `sema_up` that run with interrupts off are single steps here; all
other statements of `lock_acquire` and `lock_release` are steps of their own,
and between any two of them another thread may run. A thread that finds the
value 0 queues itself and sleeps; `sema_up` wakes the first sleeper up *and* sets
the value to 1, so a third thread may take it before the sleeper has tested it
again.

The state of a thread is the statement it is at (`Pc`). `inside`, `acquired` and
`released` are ghosts: whether it has passed the `sema_down` of its outermost
acquire and not yet its `sema_up`, and how often it has come back from each call.
`LockInv` ties them to the fields of the lock: `At` says for each statement what
`holder` and `holder_repeat_nr` are there.

`holder_repeat_nr` has 32 bits, so a lock acquired `2 ^ 32` times over is
counted as 0 and the release that follows fails its assertion
(`nested_acquires_wrap`). Every run that stays below that depth keeps all the
properties of a lock (`lock_correct`).
-/

namespace OsCore.Thread

open Lib

/-! ## The code -/

structure Semaphore where
  value : Nat
  waiters : List Nat

structure Lock where
  holder : Option Nat
  semaphore : Semaphore
  holderRepeatNr : Nat

def semaInit (value : Nat) : Semaphore := ⟨value, []⟩

def lockInit : Lock := ⟨none, semaInit 1, 0⟩

/-- One pass through the loop of `sema_down` by the thread `cur`: it takes the
semaphore (`true`), or queues itself and has to block (`false`). -/
def semaDownPass (sema : Semaphore) (cur : Nat) : Option (Semaphore × Bool) :=
  if sema.value = 0 then do
    ensure (cur ∉ sema.waiters)
    return ({ sema with waiters := sema.waiters ++ [cur] }, false)
  else do
    let value := (sema.value + 255) % 256
    ensure (value = 0)
    return ({ sema with value }, true)

/-- `sema_up`, and the thread it passes to `thread_unblock`. -/
def semaUp (sema : Semaphore) : Option (Semaphore × Option Nat) := do
  ensure (sema.value = 0)
  let value := (sema.value + 1) % 256
  ensure (value = 1)
  return (⟨value, sema.waiters.tail⟩, sema.waiters.head?)

/-- The statement a thread is at. -/
inductive Pc
  /-- in no call -/
  | idle
  /-- `if(plock->holder != running_thread())` -/
  | testHolder
  /-- in `sema_down`, before the first test -/
  | down
  /-- in `thread_block` of `sema_down` -/
  | asleep
  /-- `plock->holder = running_thread();` -/
  | setHolder
  /-- `ASSERT(plock->holder_repeat_nr == 0);` -/
  | checkZero
  /-- `plock->holder_repeat_nr = 1;` -/
  | setOne
  /-- `plock->holder_repeat_nr++;` -/
  | increase
  /-- `ASSERT(plock->holder == running_thread());` -/
  | checkHolder
  /-- `if(plock->holder_repeat_nr > 1)` -/
  | testNested
  /-- `plock->holder_repeat_nr--;` -/
  | decrease
  /-- `ASSERT(plock->holder_repeat_nr == 1);` -/
  | checkOne
  /-- `plock->holder = NULL;` -/
  | clearHolder
  /-- `plock->holder_repeat_nr = 0;` -/
  | clearNr
  /-- `sema_up(&plock->semaphore);` -/
  | up
  deriving DecidableEq

/-- One lock and all threads that use it. `ready` stands for a thread that has
the processor, or may be given it at any time. -/
structure LockState where
  lock : Lock
  status : Nat → TaskStatus
  pc : Nat → Pc
  inside : Nat → Bool
  acquired : Nat → Nat
  released : Nat → Nat

namespace LockState

variable (s : LockState) (t : Nat)

def goto (pc : Pc) : LockState := { s with pc := Function.update s.pc t pc }

/-- `lock_acquire` comes back. -/
def acquireReturns : LockState :=
  { s.goto t .idle with acquired := Function.update s.acquired t (s.acquired t + 1) }

/-- `lock_release` comes back. -/
def releaseReturns : LockState :=
  { s.goto t .idle with released := Function.update s.released t (s.released t + 1) }

/-- The test in `sema_down`, the first or one after a wake-up. -/
def goDown : Option LockState := do
  let (semaphore, taken) ← semaDownPass s.lock.semaphore t
  let s := { s with lock := { s.lock with semaphore } }
  if taken then
    return { s.goto t .setHolder with inside := Function.update s.inside t true }
  else
    return { s.goto t .asleep with status := Function.update s.status t .blocked }

/-- `sema_up`, with `thread_unblock` of the thread that was queued first. -/
def goUp : Option LockState := do
  let (semaphore, woken) ← semaUp s.lock.semaphore
  let s := { s with lock := { s.lock with semaphore }, inside := Function.update s.inside t false }
  match woken with
  | none => return s.releaseReturns t
  | some u => do
    ensure (s.status u).Asleep
    return { s.releaseReturns t with status := Function.update s.status u .ready }

/-- The thread `t` executes its next statement. -/
def go : Option LockState :=
  match s.pc t with
  | .idle => none
  | .testHolder => some (s.goto t (if s.lock.holder ≠ some t then .down else .increase))
  | .down => s.goDown t
  | .asleep => s.goDown t
  | .setHolder => some { s.goto t .checkZero with lock := { s.lock with holder := some t } }
  | .checkZero => do
    ensure (s.lock.holderRepeatNr = 0)
    return s.goto t .setOne
  | .setOne => some { s.acquireReturns t with lock := { s.lock with holderRepeatNr := 1 } }
  | .increase => some { s.acquireReturns t with
      lock := { s.lock with holderRepeatNr := (s.lock.holderRepeatNr + 1) % 2 ^ 32 } }
  | .checkHolder => do
    ensure (s.lock.holder = some t)
    return s.goto t .testNested
  | .testNested => some (s.goto t (if s.lock.holderRepeatNr > 1 then .decrease else .checkOne))
  | .decrease => some { s.releaseReturns t with
      lock := { s.lock with holderRepeatNr := s.lock.holderRepeatNr - 1 } }
  | .checkOne => do
    ensure (s.lock.holderRepeatNr = 1)
    return s.goto t .clearHolder
  | .clearHolder => some { s.goto t .clearNr with lock := { s.lock with holder := none } }
  | .clearNr => some { s.goto t .up with lock := { s.lock with holderRepeatNr := 0 } }
  | .up => s.goUp t

end LockState

inductive LockOp
  | acquire (t : Nat)
  | release (t : Nat)
  | go (t : Nat)

/-- How many times over `t` has acquired the lock. -/
def LockState.depth (s : LockState) (t : Nat) : Nat := s.acquired t - s.released t

def LockState.step (s : LockState) : LockOp → Option LockState
  | .acquire t => some (s.goto t .testHolder)
  | .release t => some (s.goto t .checkHolder)
  | .go t => s.go t

/-- A thread that is not asleep goes on with its call or makes one; it releases
only what it holds. -/
def LockState.May (s : LockState) : LockOp → Prop
  | .acquire t => s.status t = .ready ∧ s.pc t = .idle
  | .release t => s.status t = .ready ∧ s.pc t = .idle ∧ 0 < s.depth t
  | .go t => s.status t = .ready ∧ s.pc t ≠ .idle

/-- The lock right after `lock_init`. -/
def LockState.fresh : LockState where
  lock := lockInit
  status := fun _ => .ready
  pc := fun _ => .idle
  inside := fun _ => false
  acquired := fun _ => 0
  released := fun _ => 0

def lockMachine : Machine LockState LockOp where
  start s := s = .fresh
  may := LockState.May
  step := LockState.step

/-- No call of `lock_acquire` by a thread that has acquired the lock `2 ^ 32 - 1`
times over. -/
def ShallowCall (s : LockState) : LockOp → Prop
  | .acquire t => s.depth t + 1 < 2 ^ 32
  | _ => True

/-! ## The invariant -/

/-- What the lock looks like to a thread inside it, at each statement. -/
def At (lock : Lock) (t depth : Nat) : Pc → Prop
  | .idle | .checkHolder | .testNested =>
    lock.holder = some t ∧ lock.holderRepeatNr = depth ∧ 0 < depth
  | .testHolder | .increase =>
    lock.holder = some t ∧ lock.holderRepeatNr = depth ∧ 0 < depth ∧ depth + 1 < 2 ^ 32
  | .setHolder => lock.holder = none ∧ lock.holderRepeatNr = 0 ∧ depth = 0
  | .checkZero | .setOne => lock.holder = some t ∧ lock.holderRepeatNr = 0 ∧ depth = 0
  | .decrease => lock.holder = some t ∧ lock.holderRepeatNr = depth ∧ 1 < depth
  | .checkOne => lock.holder = some t ∧ lock.holderRepeatNr = depth ∧ depth = 1
  | .clearHolder => lock.holder = some t ∧ lock.holderRepeatNr = 1 ∧ depth = 1
  | .clearNr => lock.holder = none ∧ depth = 1
  | .up => lock.holder = none ∧ lock.holderRepeatNr = 0 ∧ depth = 1
  | .down | .asleep => False

/-- Where a thread that is not inside can be. -/
def Outside (pc : Pc) : Prop := pc = .idle ∨ pc = .testHolder ∨ pc = .down ∨ pc = .asleep

structure LockInv (s : LockState) : Prop where
  value : s.lock.semaphore.value = 0 ∨ s.lock.semaphore.value = 1
  /-- the value is 1 where nobody is inside, and then the lock is clear -/
  free : s.lock.semaphore.value = 1 →
    (∀ t, s.inside t = false) ∧ s.lock.holder = none ∧ s.lock.holderRepeatNr = 0
  unique : ∀ t u, s.inside t = true → s.inside u = true → t = u
  holder_inside : ∀ t, s.lock.holder = some t → s.inside t = true
  balance : ∀ t, s.released t ≤ s.acquired t
  at_inside : ∀ t, s.inside t = true → At s.lock t (s.depth t) (s.pc t)
  outside : ∀ t, s.inside t = false → Outside (s.pc t) ∧ s.depth t = 0
  status : ∀ t, s.status t = .ready ∨ (s.status t = .blocked ∧ s.pc t = .asleep)
  nodup : s.lock.semaphore.waiters.Nodup
  mem_waiters : ∀ t, t ∈ s.lock.semaphore.waiters ↔ s.pc t = .asleep ∧ s.status t = .blocked
  /-- a wake-up is under way -/
  woken : s.lock.semaphore.value = 1 → s.lock.semaphore.waiters ≠ [] →
    ∃ t, s.pc t = .asleep ∧ s.status t = .ready

theorem lockInv_fresh : LockInv .fresh where
  value := .inr rfl
  free := fun _ => ⟨fun _ => rfl, rfl, rfl⟩
  unique := fun _ _ h => nomatch h
  holder_inside := fun _ h => nomatch h
  balance := fun _ => Nat.le_refl _
  at_inside := fun _ h => nomatch h
  outside := fun _ _ => ⟨.inl rfl, rfl⟩
  status := fun _ => .inl rfl
  nodup := List.nodup_nil
  mem_waiters := fun _ => ⟨fun h => (nomatch h), fun h => (nomatch h.1)⟩
  woken := fun _ h => absurd rfl h

section

variable {s s' : LockState} {t : Nat}

theorem LockInv.value_zero (h : LockInv s) (hin : s.inside t = true) :
    s.lock.semaphore.value = 0 := by
  rcases h.value with hv | hv
  · exact hv
  · rw [(h.free hv).1 t] at hin
    cases hin

theorem LockInv.pc_inside (h : LockInv s) (hin : s.inside t = true) : s.pc t ≠ .asleep := by
  intro hpc
  have hat := h.at_inside t hin
  rw [hpc] at hat
  exact hat

/-- A step of the thread inside: it may change the lock's own two fields and its
counts, and goes on to a statement where `At` holds. -/
theorem LockInv.inside_step (h : LockInv s) (hin : s.inside t = true) {holder : Option Nat}
    (nr acq rel : Nat) (pc : Pc) (hholder : holder = none ∨ holder = some t) (hpc : pc ≠ .asleep)
    (hbal : rel ≤ acq) (hat : At ⟨holder, s.lock.semaphore, nr⟩ t (acq - rel) pc) :
    LockInv { s with
      lock := ⟨holder, s.lock.semaphore, nr⟩
      pc := Function.update s.pc t pc
      acquired := Function.update s.acquired t acq
      released := Function.update s.released t rel } := by
  have hv := h.value_zero hin
  have hpct := h.pc_inside hin
  have hready : s.status t = .ready := by
    rcases h.status t with hr | ⟨_, ha⟩
    · exact hr
    · exact absurd ha hpct
  have hone : s.lock.semaphore.value ≠ 1 := by omega
  refine ⟨h.value, fun h1 => absurd h1 hone, h.unique, ?_, ?_, ?_, ?_, ?_, h.nodup, ?_,
    fun h1 => absurd h1 hone⟩
  · intro u hu
    rcases hholder with hh | hh
    · rw [hh] at hu
      cases hu
    · rw [hh] at hu
      cases hu
      exact hin
  · intro u
    by_cases hu : u = t
    · subst hu
      simpa using hbal
    · simpa [hu] using h.balance u
  · intro u hiu
    cases h.unique t u hin hiu
    simpa [LockState.depth] using hat
  · intro u hiu
    have hu : u ≠ t := by
      intro heq
      subst heq
      rw [hin] at hiu
      cases hiu
    simpa [LockState.depth, hu] using h.outside u hiu
  · intro u
    by_cases hu : u = t
    · exact .inl (hu ▸ hready)
    · simpa [hu] using h.status u
  · intro u
    by_cases hu : u = t
    · subst hu
      simp [h.mem_waiters, hpct, hpc]
    · simpa [hu] using h.mem_waiters u

/-- A step of the thread inside that leaves its counts alone. -/
theorem LockInv.inside_move (h : LockInv s) (hin : s.inside t = true) {holder : Option Nat}
    {nr : Nat} (pc : Pc) (hholder : holder = none ∨ holder = some t) (hpc : pc ≠ .asleep)
    (hat : At ⟨holder, s.lock.semaphore, nr⟩ t (s.depth t) pc) :
    LockInv { s with
      lock := ⟨holder, s.lock.semaphore, nr⟩
      pc := Function.update s.pc t pc } := by
  have hstep := h.inside_step hin nr _ _ pc hholder hpc (h.balance t) hat
  rwa [Function.update_eq_self, Function.update_eq_self] at hstep

/-- A step of a thread outside that is not asleep and does not fall asleep. -/
theorem LockInv.outside_move (h : LockInv s) (hout : s.inside t = false) {pc : Pc}
    (hnot : s.pc t ≠ .asleep) (hpc : pc ≠ .asleep) (ho : Outside pc) : LockInv (s.goto t pc) := by
  have hready : s.status t = .ready := by
    rcases h.status t with hr | ⟨_, ha⟩
    · exact hr
    · exact absurd ha hnot
  refine ⟨h.value, h.free, h.unique, h.holder_inside, h.balance, ?_, ?_, ?_, h.nodup, ?_, ?_⟩
  · intro u hiu
    have hu : u ≠ t := by
      intro heq
      subst heq
      cases hout.symm.trans hiu
    simpa [LockState.goto, LockState.depth, hu] using h.at_inside u hiu
  · intro u hiu
    by_cases hu : u = t
    · subst hu
      exact ⟨by simpa [LockState.goto] using ho, (h.outside u hout).2⟩
    · simpa [LockState.goto, LockState.depth, hu] using h.outside u hiu
  · intro u
    by_cases hu : u = t
    · exact .inl (hu ▸ hready)
    · simpa [LockState.goto, hu] using h.status u
  · intro u
    by_cases hu : u = t
    · subst hu
      simp [LockState.goto, h.mem_waiters, hnot, hpc]
    · simpa [LockState.goto, hu] using h.mem_waiters u
  · intro hv hw
    obtain ⟨u, hu, hr⟩ := h.woken hv hw
    have hut : u ≠ t := by
      intro heq
      subst heq
      exact hnot hu
    exact ⟨u, by simpa [LockState.goto, hut] using hu, hr⟩

/-! ## `sema_down` and `sema_up` -/

/-- The thread takes the semaphore: nobody was inside. -/
theorem goDown_take (h : LockInv s) (hout : s.inside t = false) (hready : s.status t = .ready)
    (hv : s.lock.semaphore.value = 1) : ∃ s', s.goDown t = some s' ∧ LockInv s' := by
  obtain ⟨hnone, hholder, hnr⟩ := h.free hv
  have hpass : semaDownPass s.lock.semaphore t =
      some ({ s.lock.semaphore with value := 0 }, true) := by
    simp [semaDownPass, hv, ensure]
  refine ⟨{ s with
    lock := { s.lock with semaphore := { s.lock.semaphore with value := 0 } }
    pc := Function.update s.pc t .setHolder
    inside := Function.update s.inside t true }, by simp [LockState.goDown, hpass, LockState.goto], ?_⟩
  refine ⟨.inl rfl, fun h1 => absurd h1 (by simp), ?_, ?_, h.balance, ?_, ?_, ?_, h.nodup, ?_,
    fun h1 => absurd h1 (by simp)⟩
  · intro u w hu hw
    by_cases hut : u = t <;> by_cases hwt : w = t
    · rw [hut, hwt]
    · simp [hwt, hnone] at hw
    · simp [hut, hnone] at hu
    · simp [hut, hnone] at hu
  · intro u hu
    simp [hholder] at hu
  · intro u hu
    have hut : u = t := by
      by_contra hut
      simp [hut, hnone] at hu
    subst hut
    simp [At, LockState.depth, hholder, hnr]
    exact (h.outside u hout).2
  · intro u hu
    have hut : u ≠ t := by
      intro heq
      subst heq
      simp at hu
    simpa [hut, LockState.depth] using h.outside u (hnone u)
  · intro u
    by_cases hu : u = t
    · exact .inl (hu ▸ hready)
    · simpa [hu] using h.status u
  · intro u
    by_cases hu : u = t
    · subst hu
      simp [h.mem_waiters, hready]
    · simpa [hu] using h.mem_waiters u

/-- The thread queues itself: it was not queued yet. -/
theorem goDown_sleep (h : LockInv s) (hout : s.inside t = false) (hready : s.status t = .ready)
    (hv : s.lock.semaphore.value = 0) : ∃ s', s.goDown t = some s' ∧ LockInv s' := by
  have hn : t ∉ s.lock.semaphore.waiters := by
    intro hm
    have hb := ((h.mem_waiters t).mp hm).2
    rw [hready] at hb
    cases hb
  have hpass : semaDownPass s.lock.semaphore t =
      some ({ s.lock.semaphore with waiters := s.lock.semaphore.waiters ++ [t] }, false) := by
    simp [semaDownPass, hv, ensure_pos hn]
  refine ⟨{ s with
    lock := { s.lock with semaphore :=
      { s.lock.semaphore with waiters := s.lock.semaphore.waiters ++ [t] } }
    pc := Function.update s.pc t .asleep
    status := Function.update s.status t .blocked },
    by simp [LockState.goDown, hpass, LockState.goto], ?_⟩
  have hone : s.lock.semaphore.value ≠ 1 := by omega
  refine ⟨h.value, fun h1 => absurd h1 hone, h.unique, h.holder_inside, h.balance, ?_, ?_, ?_, ?_, ?_,
    fun h1 => absurd h1 hone⟩
  · intro u hiu
    have hu : u ≠ t := by
      intro heq
      subst heq
      rw [hiu] at hout
      cases hout
    have hat := h.at_inside u hiu
    simp only [Function.update_of_ne hu, LockState.depth]
    revert hat
    cases s.pc u <;> exact id
  · intro u hiu
    by_cases hu : u = t
    · subst hu
      exact ⟨.inr (.inr (.inr (by simp))), (h.outside u hout).2⟩
    · simpa [hu, LockState.depth] using h.outside u hiu
  · intro u
    by_cases hu : u = t
    · subst hu
      right
      simp
    · simpa [hu] using h.status u
  · exact List.nodup_append.mpr ⟨h.nodup, List.nodup_singleton _, by
      intro a ha b hb heq
      subst heq
      exact hn (List.mem_singleton.mp hb ▸ ha)⟩
  · intro u
    by_cases hu : u = t
    · subst hu
      simp
    · simpa [hu] using h.mem_waiters u

theorem goDown_spec (h : LockInv s) (hout : s.inside t = false) (hready : s.status t = .ready) :
    ∃ s', s.goDown t = some s' ∧ LockInv s' := by
  rcases h.value with hv | hv
  · exact goDown_sleep h hout hready hv
  · exact goDown_take h hout hready hv

/-- The lock after the `sema_up` of `t`, without the wake-up. -/
theorem LockInv.leave (h : LockInv s) (hin : s.inside t = true) (hpc : s.pc t = .up)
    {waiters : List Nat} {status : Nat → TaskStatus} (hsub : waiters.Nodup)
    (hst : ∀ u, status u = .ready ∨ (status u = .blocked ∧ s.pc u = .asleep))
    (hmem : ∀ u, u ∈ waiters ↔ s.pc u = .asleep ∧ status u = .blocked)
    (hwoken : waiters ≠ [] → ∃ u, s.pc u = .asleep ∧ status u = .ready) :
    LockInv { s with
      lock := { s.lock with semaphore := ⟨1, waiters⟩ }
      status
      pc := Function.update s.pc t .idle
      inside := Function.update s.inside t false
      released := Function.update s.released t (s.released t + 1) } := by
  have hat : s.lock.holder = none ∧ s.lock.holderRepeatNr = 0 ∧ s.depth t = 1 := by
    have hat := h.at_inside t hin
    rwa [hpc] at hat
  have hdepth : s.acquired t - s.released t = 1 := hat.2.2
  have hout : ∀ u, u ≠ t → s.inside u = false := by
    intro u hu
    cases hiu : s.inside u with
    | false => rfl
    | true => exact absurd (h.unique u t hiu hin) hu
  have hnone : ∀ u, Function.update s.inside t false u = false := by
    intro u
    by_cases hu : u = t
    · simp [hu]
    · simp [hu, hout u hu]
  have hasleep : ∀ u, s.pc u = .asleep → u ≠ t := by
    intro u hu heq
    subst heq
    rw [hpc] at hu
    cases hu
  refine ⟨.inr rfl, fun _ => ⟨hnone, hat.1, hat.2.1⟩, ?_, ?_, ?_, ?_, ?_, ?_, hsub, ?_, ?_⟩
  · intro u w hu
    simp [hnone] at hu
  · intro u hu
    simp [hat.1] at hu
  · intro u
    by_cases hu : u = t
    · subst hu
      simp
      omega
    · simpa [hu] using h.balance u
  · intro u hu
    simp [hnone] at hu
  · intro u _
    by_cases hu : u = t
    · subst hu
      refine ⟨.inl (by simp), ?_⟩
      simp [LockState.depth]
      omega
    · simpa [hu, LockState.depth] using h.outside u (hout u hu)
  · intro u
    rcases hst u with hr | ⟨hb, ha⟩
    · exact .inl hr
    · exact .inr ⟨hb, by simpa [hasleep u ha] using ha⟩
  · intro u
    by_cases hu : u = t
    · subst hu
      simp [hmem, hpc]
    · simpa [hu] using hmem u
  · intro _ hw
    obtain ⟨u, ha, hr⟩ := hwoken hw
    exact ⟨u, by simpa [hasleep u ha] using ha, hr⟩

theorem goUp_spec (h : LockInv s) (hin : s.inside t = true) (hpc : s.pc t = .up) :
    ∃ s', s.goUp t = some s' ∧ LockInv s' := by
  have hv := h.value_zero hin
  cases hw : s.lock.semaphore.waiters with
  | nil =>
    have hup : semaUp s.lock.semaphore = some (⟨1, []⟩, none) := by
      simp [semaUp, hv, hw, ensure]
    have hmem : ∀ u, u ∈ ([] : List Nat) ↔ s.pc u = .asleep ∧ s.status u = .blocked := by
      intro u
      rw [← hw]
      exact h.mem_waiters u
    exact ⟨_, by simp only [LockState.goUp, hup, Option.bind_eq_bind, Option.bind_some]; rfl,
      h.leave hin hpc List.nodup_nil h.status hmem (fun hne => absurd rfl hne)⟩
  | cons u ws =>
    have hup : semaUp s.lock.semaphore = some (⟨1, ws⟩, some u) := by
      simp [semaUp, hv, hw, ensure]
    have hu := (h.mem_waiters u).mp (by rw [hw]; exact List.mem_cons_self)
    have hnd : (u :: ws).Nodup := hw ▸ h.nodup
    have hun : u ∉ ws := (List.nodup_cons.mp hnd).1
    have hasleep : (s.status u).Asleep := .inl hu.2
    have hst : ∀ w, Function.update s.status u .ready w = .ready ∨
        (Function.update s.status u .ready w = .blocked ∧ s.pc w = .asleep) := by
      intro w
      by_cases hwu : w = u
      · left
        simp [hwu]
      · simpa [hwu] using h.status w
    have hmem : ∀ w, w ∈ ws ↔ s.pc w = .asleep ∧
        Function.update s.status u .ready w = .blocked := by
      intro w
      by_cases hwu : w = u
      · subst hwu
        simp [hun]
      · have hm := h.mem_waiters w
        rw [hw, List.mem_cons] at hm
        simpa [hwu] using hm
    refine ⟨_, ?_, h.leave hin hpc (List.nodup_cons.mp hnd).2 hst hmem
      (fun _ => ⟨u, hu.1, by simp⟩)⟩
    simp only [LockState.goUp, hup, Option.bind_eq_bind, Option.bind_some, ensure_pos hasleep]
    rfl

/-! ## All steps -/

/-- A thread inside executes its next statement. -/
theorem go_inside (h : LockInv s) (hin : s.inside t = true) (hpc : s.pc t ≠ .idle) :
    ∃ s', s.go t = some s' ∧ LockInv s' := by
  have hat := h.at_inside t hin
  have hdepth : s.acquired t - s.released t = s.depth t := rfl
  have hbal := h.balance t
  unfold LockState.go
  cases hp : s.pc t with
  | idle => exact absurd hp hpc
  | down => exact (hp ▸ hat : At _ _ _ .down).elim
  | asleep => exact (hp ▸ hat : At _ _ _ .asleep).elim
  | testHolder =>
    have hat : At _ _ _ .testHolder := hp ▸ hat
    refine ⟨_, rfl, ?_⟩
    rw [if_neg (by simp [hat.1])]
    exact h.inside_move hin .increase (.inr hat.1) (by decide) hat
  | setHolder =>
    have hat : At _ _ _ .setHolder := hp ▸ hat
    exact ⟨_, rfl, h.inside_move hin .checkZero (.inr rfl) (by decide) ⟨rfl, hat.2⟩⟩
  | checkZero =>
    have hat : At _ _ _ .checkZero := hp ▸ hat
    exact ⟨s.goto t .setOne, by simp only [ensure_pos hat.2.1]; rfl,
      h.inside_move hin .setOne (.inr hat.1) (by decide) hat⟩
  | setOne =>
    have hat : At _ _ _ .setOne := hp ▸ hat
    have hz := hat.2.2
    have hstep := h.inside_step hin 1 (s.acquired t + 1) (s.released t) .idle (.inr hat.1)
      (by decide) (by omega) ⟨hat.1, by simp only; omega, by omega⟩
    rw [Function.update_eq_self] at hstep
    exact ⟨_, rfl, hstep⟩
  | increase =>
    have hat : At _ _ _ .increase := hp ▸ hat
    obtain ⟨hh, hnr, hpos, hlt⟩ := hat
    have hnext : (s.lock.holderRepeatNr + 1) % 2 ^ 32 = s.acquired t + 1 - s.released t := by
      rw [hnr, Nat.mod_eq_of_lt hlt]
      omega
    have hstep := h.inside_step hin ((s.lock.holderRepeatNr + 1) % 2 ^ 32) (s.acquired t + 1)
      (s.released t) .idle (.inr hh) (by decide) (by omega) ⟨hh, hnext, by omega⟩
    rw [Function.update_eq_self] at hstep
    exact ⟨_, rfl, hstep⟩
  | checkHolder =>
    have hat : At _ _ _ .checkHolder := hp ▸ hat
    exact ⟨s.goto t .testNested, by simp only [ensure_pos hat.1]; rfl,
      h.inside_move hin .testNested (.inr hat.1) (by decide) hat⟩
  | testNested =>
    have hat : At _ _ _ .testNested := hp ▸ hat
    obtain ⟨hh, hnr, hpos⟩ := hat
    refine ⟨_, rfl, ?_⟩
    by_cases hn : s.lock.holderRepeatNr > 1
    · rw [if_pos hn]
      exact h.inside_move hin .decrease (.inr hh) (by decide) ⟨hh, hnr, by omega⟩
    · rw [if_neg hn]
      exact h.inside_move hin .checkOne (.inr hh) (by decide) ⟨hh, hnr, by omega⟩
  | decrease =>
    have hat : At _ _ _ .decrease := hp ▸ hat
    obtain ⟨hh, hnr, hpos⟩ := hat
    have hnext : s.lock.holderRepeatNr - 1 = s.acquired t - (s.released t + 1) := by omega
    have hstep := h.inside_step hin (s.lock.holderRepeatNr - 1) (s.acquired t) (s.released t + 1)
      .idle (.inr hh) (by decide) (by omega) ⟨hh, hnext, by omega⟩
    rw [Function.update_eq_self] at hstep
    exact ⟨_, rfl, hstep⟩
  | checkOne =>
    have hat : At _ _ _ .checkOne := hp ▸ hat
    obtain ⟨hh, hnr, hd⟩ := hat
    have hone : s.lock.holderRepeatNr = 1 := by omega
    exact ⟨s.goto t .clearHolder, by simp only [ensure_pos hone]; rfl,
      h.inside_move hin .clearHolder (.inr hh) (by decide) ⟨hh, hone, hd⟩⟩
  | clearHolder =>
    have hat : At _ _ _ .clearHolder := hp ▸ hat
    exact ⟨_, rfl, h.inside_move hin .clearNr (.inl rfl) (by decide) ⟨rfl, hat.2.2⟩⟩
  | clearNr =>
    have hat : At _ _ _ .clearNr := hp ▸ hat
    exact ⟨_, rfl, h.inside_move hin .up (.inl hat.1) (by decide) ⟨hat.1, rfl, hat.2⟩⟩
  | up => exact goUp_spec h hin hp

/-- A thread outside executes its next statement. -/
theorem go_outside (h : LockInv s) (hout : s.inside t = false) (hready : s.status t = .ready)
    (hpc : s.pc t ≠ .idle) : ∃ s', s.go t = some s' ∧ LockInv s' := by
  unfold LockState.go
  rcases (h.outside t hout).1 with hp | hp | hp | hp
  · exact absurd hp hpc
  · have hne : s.lock.holder ≠ some t := by
      intro hh
      cases hout.symm.trans (h.holder_inside t hh)
    rw [hp]
    refine ⟨_, rfl, ?_⟩
    rw [if_pos hne]
    exact h.outside_move hout (by rw [hp]; decide) (by decide) (.inr (.inr (.inl rfl)))
  · rw [hp]
    exact goDown_spec h hout hready
  · rw [hp]
    exact goDown_spec h hout hready

/-- **No statement fails, and each keeps the invariant**, below the depth at which
the count wraps. -/
theorem lock_step (h : LockInv s) {o : LockOp} (hmay : s.May o) (hshallow : ShallowCall s o) :
    ∃ s', s.step o = some s' ∧ LockInv s' := by
  cases o with
  | acquire t =>
    obtain ⟨hready, hpc⟩ := hmay
    refine ⟨_, rfl, ?_⟩
    cases hin : s.inside t with
    | true =>
      have hat : At _ _ _ .idle := hpc ▸ h.at_inside t hin
      exact h.inside_move hin .testHolder (.inr hat.1) (by decide)
        ⟨hat.1, hat.2.1, hat.2.2, hshallow⟩
    | false => exact h.outside_move hin (by rw [hpc]; decide) (by decide) (.inr (.inl rfl))
  | release t =>
    obtain ⟨hready, hpc, hheld⟩ := hmay
    refine ⟨_, rfl, ?_⟩
    cases hin : s.inside t with
    | true =>
      have hat : At _ _ _ .idle := hpc ▸ h.at_inside t hin
      exact h.inside_move hin .checkHolder (.inr hat.1) (by decide) hat
    | false =>
      have hz := (h.outside t hin).2
      omega
  | go t =>
    obtain ⟨hready, hpc⟩ := hmay
    cases hin : s.inside t with
    | true => exact go_inside h hin hpc
    | false => exact go_outside h hin hready hpc

theorem lockInv_of_reach (h : lockMachine.Reach ShallowCall s) : LockInv s := by
  refine Machine.Reach.invariant ?_ ?_ h
  · intro s heq
    subst heq
    exact lockInv_fresh
  · intro s op s' hinv hmay hshallow hstep
    obtain ⟨s₁, he, hinv'⟩ := lock_step hinv hmay hshallow
    cases he.symm.trans hstep
    exact hinv'

end

/-! ## What a lock is for -/

/-- What is asked of a lock, and of what may follow. -/
structure LockCorrect (s : LockState) : Prop where
  /-- at most one thread is inside -/
  exclusive : ∀ t u, s.inside t = true → s.inside u = true → t = u
  value : s.lock.semaphore.value = 0 ∨ s.lock.semaphore.value = 1
  value_inside : ∀ t, s.inside t = true → s.lock.semaphore.value = 0
  /-- no assertion fails in the next step, whoever makes it -/
  asserts : ∀ op, s.May op → (s.step op).isSome
  /-- between its calls, a thread is inside as long as it has released less often
  than acquired -/
  counted : ∀ t, s.pc t = .idle → s.released t ≤ s.acquired t ∧
    (s.inside t = true ↔ s.released t < s.acquired t)
  /-- where the value is 1 and threads wait, one has been woken up and has not
  tested it yet -/
  woken : s.lock.semaphore.value = 1 → s.lock.semaphore.waiters ≠ [] →
    ∃ t, t ∉ s.lock.semaphore.waiters ∧ s.pc t = .asleep ∧ s.status t = .ready

/-- Only a nested acquire that would wrap the count is not a shallow call, and no
assertion is made where a call begins. -/
theorem step_isSome {s : LockState} (h : LockInv s) {op : LockOp} (hmay : s.May op) :
    (s.step op).isSome := by
  cases op with
  | acquire t => rfl
  | release t => rfl
  | go t =>
    obtain ⟨s', hs', -⟩ := lock_step h hmay (trivial : ShallowCall s (.go t))
    rw [hs']
    rfl

/-- **Locks are correct** in every state of every run in which no thread calls
`lock_acquire` while it has acquired the lock `2 ^ 32 - 1` times over. -/
theorem lock_correct (s : LockState) (h : lockMachine.Reach ShallowCall s) : LockCorrect s := by
  have hinv := lockInv_of_reach h
  refine ⟨hinv.unique, hinv.value, fun t => hinv.value_zero, fun op => step_isSome hinv, ?_, ?_⟩
  · intro t hpc
    refine ⟨hinv.balance t, ?_⟩
    cases hin : s.inside t with
    | true =>
      have hat : At _ _ _ .idle := hpc ▸ hinv.at_inside t hin
      have hpos : 0 < s.acquired t - s.released t := hat.2.2
      exact ⟨fun _ => by omega, fun _ => rfl⟩
    | false =>
      have hz : s.acquired t - s.released t = 0 := (hinv.outside t hin).2
      exact ⟨fun hf => (nomatch hf), fun hlt => by omega⟩
  · intro hv hw
    obtain ⟨t, ha, hr⟩ := hinv.woken hv hw
    refine ⟨t, ?_, ha, hr⟩
    intro hm
    have hb := ((hinv.mem_waiters t).mp hm).2
    rw [hr] at hb
    cases hb

/-- A lock taken by thread 1 while thread 2 tries to. -/
def contendedOps : List LockOp :=
  [.acquire 1, .go 1, .go 1, .go 1, .go 1, .go 1, .acquire 2, .go 2, .go 2, .acquire 1, .go 1, .go 1]

instance (s : LockState) (op : LockOp) : Decidable (s.May op) := by
  cases op <;> unfold LockState.May <;> infer_instance

instance (s : LockState) (op : LockOp) : Decidable (ShallowCall s op) := by
  cases op <;> unfold ShallowCall <;> infer_instance

instance (s : LockState) (op : LockOp) : Decidable (lockMachine.may s op) :=
  inferInstanceAs (Decidable (s.May op))

/-- Thread 1 is inside twice over, and thread 2 asleep. -/
theorem lock_correct_contended :
    ∃ s, lockMachine.follow ShallowCall .fresh contendedOps = some s ∧
      s.lock.semaphore.waiters = [2] ∧ s.lock.holderRepeatNr = 2 ∧ LockCorrect s := by
  have hsome : (lockMachine.follow ShallowCall .fresh contendedOps).map
      (fun s => (s.lock.semaphore.waiters, s.lock.holderRepeatNr)) = some ([2], 2) := by
    decide +kernel
  obtain ⟨s, hs, he⟩ := Option.map_eq_some_iff.mp hsome
  have hreach : lockMachine.Reach ShallowCall s :=
    Machine.reach_of_follow (Machine.Reach.start rfl) hs
  exact ⟨s, hs, congrArg Prod.fst he, congrArg Prod.snd he, lock_correct s hreach⟩

/-! ## A count of 32 bits -/

/-- Thread 0 has acquired the lock `n` times over, and nobody has released it. -/
structure Nested (n : Nat) (s : LockState) : Prop where
  reach : lockMachine.Reachable s
  ready : s.status 0 = .ready
  idle : s.pc 0 = .idle
  holder : s.lock.holder = some 0
  count : s.lock.holderRepeatNr = n % 2 ^ 32
  acquired : s.acquired 0 = n
  released : s.released 0 = 0

theorem nested_one : ∃ s, Nested 1 s := by
  have hsome : (lockMachine.follow (fun _ _ => True) .fresh
      [.acquire 0, .go 0, .go 0, .go 0, .go 0, .go 0]).map (fun s =>
        (s.status 0, s.pc 0, s.lock.holder, s.lock.holderRepeatNr, s.acquired 0, s.released 0)) =
      some (.ready, .idle, some 0, 1, 1, 0) := by decide +kernel
  obtain ⟨s, hs, he⟩ := Option.map_eq_some_iff.mp hsome
  simp only [Prod.mk.injEq] at he
  obtain ⟨h1, h2, h3, h4, h5, h6⟩ := he
  exact ⟨s, Machine.reach_of_follow (Machine.Reach.start rfl) hs, h1, h2, h3, h4, h5, h6⟩

theorem LockState.goto_pc (s : LockState) (t : Nat) (pc : Pc) : (s.goto t pc).pc t = pc := by
  simp [LockState.goto]

/-- A thread that is not asleep and in a call takes one step. -/
theorem reachable_go {s s' : LockState} {t : Nat} (h : lockMachine.Reachable s)
    (hready : s.status t = .ready) (hpc : s.pc t ≠ .idle) (hgo : s.go t = some s') :
    lockMachine.Reachable s' :=
  Machine.Reach.step (a := LockOp.go t) h ⟨hready, hpc⟩ trivial hgo

theorem nested_succ {n : Nat} {s : LockState} (h : Nested n s) : ∃ s', Nested (n + 1) s' := by
  have h₁ : lockMachine.Reachable (s.goto 0 .testHolder) :=
    Machine.Reach.step (a := LockOp.acquire 0) h.reach ⟨h.ready, h.idle⟩ trivial rfl
  have hgo₁ : (s.goto 0 .testHolder).go 0 = some ((s.goto 0 .testHolder).goto 0 .increase) := by
    have hh : (s.goto 0 .testHolder).lock.holder = some 0 := h.holder
    rw [LockState.go, LockState.goto_pc]
    simp only [hh, ne_eq, not_true, if_false]
  have h₂ := reachable_go h₁ h.ready (by rw [LockState.goto_pc]; decide) hgo₁
  have hgo₂ : ((s.goto 0 .testHolder).goto 0 .increase).go 0 =
      some { ((s.goto 0 .testHolder).goto 0 .increase).acquireReturns 0 with
        lock := { s.lock with holderRepeatNr := (s.lock.holderRepeatNr + 1) % 2 ^ 32 } } := by
    rw [LockState.go, LockState.goto_pc]
    rfl
  have h₃ := reachable_go h₂ h.ready (by rw [LockState.goto_pc]; decide) hgo₂
  refine ⟨_, h₃, h.ready, LockState.goto_pc ((s.goto 0 .testHolder).goto 0 .increase) 0 .idle,
    h.holder, ?_, ?_, h.released⟩
  · show (s.lock.holderRepeatNr + 1) % 2 ^ 32 = (n + 1) % 2 ^ 32
    rw [h.count, Nat.mod_add_mod]
  · show Function.update s.acquired 0 (s.acquired 0 + 1) 0 = n + 1
    rw [Function.update_self, h.acquired]

theorem exists_nested (n : Nat) : ∃ s, Nested (n + 1) s := by
  induction n with
  | zero => exact nested_one
  | succ n ih =>
    obtain ⟨s, hs⟩ := ih
    exact nested_succ hs

/-- **The count wraps.** A thread that has acquired the lock `2 ^ 32` times and
starts to release it comes to an assertion that fails. -/
theorem nested_acquires_wrap : ∃ s, lockMachine.Reachable s ∧ s.acquired 0 = 2 ^ 32 ∧
    s.released 0 = 0 ∧ s.May (.go 0) ∧ s.step (.go 0) = none := by
  obtain ⟨s, h⟩ := exists_nested (2 ^ 32 - 1)
  have hnr : s.lock.holderRepeatNr = 0 := h.count.trans (Nat.mod_self _)
  have hdepth : 0 < s.depth 0 := by
    rw [LockState.depth, h.acquired, h.released]
    decide
  have h₁ : lockMachine.Reachable (s.goto 0 .checkHolder) :=
    Machine.Reach.step (a := LockOp.release 0) h.reach ⟨h.ready, h.idle, hdepth⟩ trivial rfl
  have hgo₁ : (s.goto 0 .checkHolder).go 0 = some ((s.goto 0 .checkHolder).goto 0 .testNested) := by
    have hh : (s.goto 0 .checkHolder).lock.holder = some 0 := h.holder
    rw [LockState.go, LockState.goto_pc]
    simp only [ensure_pos hh]
    rfl
  have h₂ := reachable_go h₁ h.ready (by rw [LockState.goto_pc]; decide) hgo₁
  have hgo₂ : ((s.goto 0 .checkHolder).goto 0 .testNested).go 0 =
      some (((s.goto 0 .checkHolder).goto 0 .testNested).goto 0 .checkOne) := by
    have hz : ¬((s.goto 0 .checkHolder).goto 0 .testNested).lock.holderRepeatNr > 1 := by
      show ¬s.lock.holderRepeatNr > 1
      omega
    rw [LockState.go, LockState.goto_pc]
    simp only [if_neg hz]
  have h₃ := reachable_go h₂ h.ready (by rw [LockState.goto_pc]; decide) hgo₂
  refine ⟨_, h₃, h.acquired, h.released, ⟨h.ready, by rw [LockState.goto_pc]; decide⟩, ?_⟩
  have hz : ¬(((s.goto 0 .checkHolder).goto 0 .testNested).goto 0 .checkOne).lock.holderRepeatNr =
      1 := by
    show ¬s.lock.holderRepeatNr = 1
    omega
  rw [LockState.step, LockState.go, LockState.goto_pc]
  simp only [ensure_neg hz]
  rfl

end OsCore.Thread
