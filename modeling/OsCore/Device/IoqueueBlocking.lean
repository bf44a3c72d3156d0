import OsCore.Device.Ioqueue
import OsCore.Thread.Sync

/-!
# Blocking on the ring buffer

One thread calls `ioq_putchar` and another `ioq_getchar`, again and again, with
interrupts off: a thread runs until it is in `thread_block`, and only there the
other may be given the processor. A step is therefore one stretch of a call: from
the test of its `while` loop to the next `thread_block`, or to the end of the
call.

A thread that has to wait acquires `ioq->lock`, notes itself in `ioq->producer`
or `ioq->consumer`, and sleeps *with the lock held*; it releases it when it runs
again, which is later than the moment it is woken up. In between, the other
thread may have to wait too. It then queues for the lock. What follows is a
lost wake-up: the lock is released, the queue is filled (or drained) once more
and the lock taken for the next sleep, all before the queued thread tests the
semaphore again, and then both are asleep (`both_sides_asleep`).

That is the only way to go wrong. As long as a thread that has to wait finds the
lock free, a thread is noted only where the queue is empty (or full) and the two
are never both blocked (`blocking_protocol`).
-/

namespace OsCore.Device

open Lib Thread

/-! ## The code -/

inductive Side
  | producer
  | consumer
  deriving DecidableEq

def Side.other : Side → Side
  | .producer => .consumer
  | .consumer => .producer

/-- The thread on each side. -/
def Side.tid : Side → Nat
  | .producer => 1
  | .consumer => 2

/-- Where a thread is when it does not run. -/
inductive CallPc
  /-- between two calls -/
  | between
  /-- at the test of the loop, after a `lock_release` -/
  | test
  /-- in `thread_block` of `sema_down` -/
  | inDown
  /-- in `thread_block` of `ioq_wait` -/
  | inWait
  deriving DecidableEq

structure IoqState where
  ioq : Ioqueue
  lock : Lock
  pc : Side → CallPc
  /-- `ready` is also the status of the thread that runs -/
  status : Side → TaskStatus
  /-- who has the processor, if one of the two has -/
  cur : Option Side

namespace IoqState

variable (s : IoqState) (x : Side)

/-- The test of the `while` loop. -/
def mustWait : Bool :=
  match x with
  | .producer => ioqFull s.ioq
  | .consumer => ioqEmpty s.ioq

/-- `ioq->producer` or `ioq->consumer`. -/
def waiter : Option Nat :=
  match x with
  | .producer => s.ioq.producer
  | .consumer => s.ioq.consumer

def setWaiter (w : Option Nat) : IoqState :=
  match x with
  | .producer => { s with ioq := { s.ioq with producer := w } }
  | .consumer => { s with ioq := { s.ioq with consumer := w } }

/-- `thread_block(TASK_BLOCKED)`: the processor is given away. -/
def block (pc : CallPc) : IoqState :=
  { s with
    pc := Function.update s.pc x pc
    status := Function.update s.status x .blocked
    cur := none }

/-- The calling thread runs on to `pc`. -/
def runTo (pc : CallPc) : IoqState := { s with pc := Function.update s.pc x pc, cur := some x }

/-- `thread_unblock` of the thread with the number `t`. -/
def unblock (t : Nat) : Option IoqState := do
  let y ← if t = Side.producer.tid then some Side.producer
    else if t = Side.consumer.tid then some Side.consumer else none
  ensure (s.status y).Asleep
  return { s with status := Function.update s.status y .ready }

/-- `wakeup`, where a thread was noted. -/
def wakeup (w : Option Nat) : Option IoqState :=
  match w with
  | none => some s
  | some t => s.unblock t

/-- `ioq_wait` up to its `thread_block`. -/
def ioqWait : Option IoqState := do
  ensure (s.waiter x = none)
  return (s.setWaiter x (some x.tid)).block x .inWait

/-- `lock_acquire` from `sema_down` on, then `ioq_wait`: to the next
`thread_block` in either. -/
def downThenWait : Option IoqState := do
  let (semaphore, taken) ← semaDownPass s.lock.semaphore x.tid
  if taken then
    ensure (s.lock.holderRepeatNr = 0)
    { s with lock := ⟨some x.tid, semaphore, 1⟩ }.ioqWait x
  else
    return { s with lock := { s.lock with semaphore } }.block x .inDown

/-- `lock_acquire` and `ioq_wait`. -/
def acquireThenWait : Option IoqState :=
  if s.lock.holder ≠ some x.tid then s.downThenWait x
  else { s with
    lock := { s.lock with holderRepeatNr := (s.lock.holderRepeatNr + 1) % 2 ^ 32 } }.ioqWait x

/-- `lock_release`. -/
def release : Option IoqState := do
  ensure (s.lock.holder = some x.tid)
  if s.lock.holderRepeatNr > 1 then
    return { s with lock := { s.lock with holderRepeatNr := s.lock.holderRepeatNr - 1 } }
  else
    ensure (s.lock.holderRepeatNr = 1)
    let (semaphore, woken) ← semaUp s.lock.semaphore
    { s with lock := ⟨none, semaphore, 0⟩ }.wakeup woken

/-- The end of a call, after its loop. -/
def transfer (byte : UInt8) : Option IoqState :=
  match x with
  | .producer =>
    let (ioq, woken) := storeByte s.ioq byte
    ({ s with ioq }.runTo x .between).wakeup woken
  | .consumer =>
    let (_, ioq, woken) := takeByte s.ioq
    ({ s with ioq }.runTo x .between).wakeup woken

/-- One stretch of the thread on side `x`; `byte` is what a call of `ioq_putchar`
is about. -/
def go (byte : UInt8) : Option IoqState :=
  match s.pc x with
  | .between | .test => if s.mustWait x then s.acquireThenWait x else s.transfer x byte
  | .inDown => s.downThenWait x
  | .inWait => do
    let s ← s.release x
    return s.runTo x .test

end IoqState

inductive IoqStep
  | go (x : Side) (byte : UInt8)
  /-- the running thread does something else between two calls -/
  | leave
  deriving DecidableEq

def IoqState.step (s : IoqState) : IoqStep → Option IoqState
  | .go x byte => s.go x byte
  | .leave => some { s with cur := none }

/-- A thread that is not asleep goes on, if the other does not have the
processor. -/
def IoqState.May (s : IoqState) : IoqStep → Prop
  | .go x _ => s.status x = .ready ∧ s.cur ≠ some x.other
  | .leave => ∀ x, s.cur = some x → s.pc x = .between

/-- After `ioqueue_init`, with both threads ready. -/
def IoqState.fresh (ioq : Ioqueue) : IoqState where
  ioq := ioqueueInit ioq
  lock := lockInit
  pc := fun _ => .between
  status := fun _ => .ready
  cur := none

def ioqMachine : Machine IoqState IoqStep where
  start s := ∃ ioq, s = .fresh ioq
  may := IoqState.May
  step := IoqState.step

/-- Interrupts are off all the time: the processor changes hands only inside
`thread_block`. -/
def OnlyBlocking (_ : IoqState) (op : IoqStep) : Prop := op ≠ .leave

/-- A call that has to wait finds the lock free: the other thread has not been
woken up from a sleep of its own without having run again. -/
def LockFree (s : IoqState) : IoqStep → Prop
  | .go x _ => (s.pc x = .between ∨ s.pc x = .test) → s.mustWait x = true →
      s.lock.semaphore.value = 1
  | .leave => True

/-- What is asked of the protocol. -/
structure NeverStranded (s : IoqState) : Prop where
  consumer_empty : s.ioq.consumer ≠ none → ioqEmpty s.ioq = true
  producer_full : s.ioq.producer ≠ none → ioqFull s.ioq = true
  not_both : ¬(s.status .producer = .blocked ∧ s.status .consumer = .blocked)

/-! ## While the lock is free when it is wanted -/

/-- The lock, by who sleeps with it or has not run since. -/
def lockOf : Option Side → Lock
  | none => lockInit
  | some x => ⟨some x.tid, ⟨0, []⟩, 1⟩

structure BlockInv (s : IoqState) : Prop where
  range : InRange s.ioq
  not_down : ∀ x, s.pc x ≠ .inDown
  lock : ∃ h, s.lock = lockOf h ∧ ∀ x, s.pc x = .inWait ↔ h = some x
  /-- a thread is noted just where it is asleep -/
  noted : ∀ x, (s.waiter x = none ∧ s.status x = .ready) ∨
    (s.waiter x = some x.tid ∧ s.status x = .blocked ∧ s.pc x = .inWait)
  waits : ∀ x, s.waiter x ≠ none → s.mustWait x = true

theorem blockInv_fresh (ioq : Ioqueue) : BlockInv (.fresh ioq) where
  range := inRange_init ioq
  not_down := by
    intro x hx
    cases hx
  lock := ⟨none, rfl, by
    intro x
    constructor
    · intro hx
      cases hx
    · intro hx
      cases hx⟩
  noted := by
    intro x
    cases x <;> exact .inl ⟨rfl, rfl⟩
  waits := by
    intro x hx
    cases x <;> exact absurd rfl hx

section

variable {s s' : IoqState} {x : Side}

/-- The state after `x` has gone to sleep with the lock. -/
def IoqState.sleepWith (s : IoqState) (x : Side) : IoqState :=
  ({ s with lock := lockOf (some x) }.setWaiter x (some x.tid)).block x .inWait

theorem sleepWith_waiter (s : IoqState) (x y : Side) :
    (s.sleepWith x).waiter y = if y = x then some x.tid else s.waiter y := by
  cases x <;> cases y <;> rfl

theorem sleepWith_mustWait (s : IoqState) (x y : Side) :
    (s.sleepWith x).mustWait y = s.mustWait y := by
  cases x <;> cases y <;> rfl

theorem sleepWith_pc (s : IoqState) (x y : Side) :
    (s.sleepWith x).pc y = if y = x then .inWait else s.pc y := by
  cases x <;> cases y <;> simp [IoqState.sleepWith, IoqState.block, IoqState.setWaiter]

theorem sleepWith_status (s : IoqState) (x y : Side) :
    (s.sleepWith x).status y = if y = x then .blocked else s.status y := by
  cases x <;> cases y <;> simp [IoqState.sleepWith, IoqState.block, IoqState.setWaiter]

theorem sleepWith_range (h : InRange s.ioq) (x : Side) : InRange (s.sleepWith x).ioq := by
  cases x <;> exact ⟨h.1, h.2, h.3, h.4⟩

theorem sleepWith_lock (s : IoqState) (x : Side) : (s.sleepWith x).lock = lockOf (some x) := by
  cases x <;> rfl

theorem BlockInv.waiter_none (h : BlockInv s) (hr : s.status x = .ready) : s.waiter x = none := by
  rcases h.noted x with hn | ⟨_, hb, _⟩
  · exact hn.1
  · rw [hr] at hb
    cases hb

/-- Waking up whoever is noted on side `y`. -/
theorem wakeup_spec {t : IoqState} {y : Side} {w : Option Nat}
    (hw : (w = none ∧ t.status y = .ready) ∨ (w = some y.tid ∧ t.status y = .blocked)) :
    t.wakeup w = some { t with status := Function.update t.status y .ready } := by
  rcases hw with ⟨rfl, hr⟩ | ⟨rfl, hb⟩
  · rw [← hr, Function.update_eq_self]
    rfl
  · have ha : (t.status y).Asleep := .inl hb
    cases y <;>
      simp [IoqState.wakeup, IoqState.unblock, Side.tid, ensure_pos ha]

/-- A call that does not wait leaves both threads awake. -/
theorem transfer_spec (h : BlockInv s) (hr : s.status x = .ready) (hmw : s.mustWait x = false)
    (byte : UInt8) : ∃ s', s.transfer x byte = some s' ∧ InRange s'.ioq ∧ s'.lock = s.lock ∧
      s'.pc = Function.update s.pc x .between ∧
      ∀ y, s'.waiter y = none ∧ s'.status y = .ready := by
  have hself := h.waiter_none hr
  cases x with
  | producer =>
    obtain ⟨hrange, -⟩ := storeByte_spec h.range hmw byte
    have hw : (s.ioq.consumer = none ∧ s.status .consumer = .ready) ∨
        (s.ioq.consumer = some Side.consumer.tid ∧ s.status .consumer = .blocked) := by
      rcases h.noted .consumer with hn | hn
      · exact .inl hn
      · exact .inr ⟨hn.1, hn.2.1⟩
    refine ⟨_, wakeup_spec (y := .consumer) hw, hrange, rfl, rfl, ?_⟩
    intro y
    cases y with
    | producer => exact ⟨hself, by simpa [IoqState.runTo] using hr⟩
    | consumer => exact ⟨rfl, by simp⟩
  | consumer =>
    obtain ⟨hrange, -⟩ := takeByte_spec h.range hmw
    have hw : (s.ioq.producer = none ∧ s.status .producer = .ready) ∨
        (s.ioq.producer = some Side.producer.tid ∧ s.status .producer = .blocked) := by
      rcases h.noted .producer with hn | hn
      · exact .inl hn
      · exact .inr ⟨hn.1, hn.2.1⟩
    refine ⟨_, wakeup_spec (y := .producer) hw, hrange, rfl, rfl, ?_⟩
    intro y
    cases y with
    | consumer => exact ⟨hself, by simpa [IoqState.runTo] using hr⟩
    | producer => exact ⟨rfl, by simp⟩

theorem transfer_inv (h : BlockInv s) (hr : s.status x = .ready) (hmw : s.mustWait x = false)
    (hpc : s.pc x ≠ .inWait) (byte : UInt8) :
    ∃ s', s.transfer x byte = some s' ∧ BlockInv s' := by
  obtain ⟨s', hs', hrange, hlock, hpc', hall⟩ := transfer_spec h hr hmw byte
  obtain ⟨o, ho, hsleep⟩ := h.lock
  refine ⟨s', hs', hrange, ?_, ⟨o, by rw [hlock, ho], ?_⟩, fun y => .inl (hall y), ?_⟩
  · intro y
    by_cases hy : y = x
    · simp [hpc', hy]
    · simpa [hpc', hy] using h.not_down y
  · intro y
    by_cases hy : y = x
    · subst hy
      simpa [hpc', hpc] using hsleep y
    · simpa [hpc', hy] using hsleep y
  · intro y hy
    exact absurd (hall y).1 hy

/-- A thread that has to wait and finds the lock free goes to sleep with it. -/
theorem wait_inv (h : BlockInv s) (hr : s.status x = .ready) (hmw : s.mustWait x = true)
    (hv : s.lock.semaphore.value = 1) : ∃ s', s.acquireThenWait x = some s' ∧ BlockInv s' := by
  obtain ⟨o, ho, hsleep⟩ := h.lock
  have hnone : o = none := by
    cases o with
    | none => rfl
    | some y =>
      rw [ho] at hv
      cases hv
  subst hnone
  have hself := h.waiter_none hr
  have hlock : s.lock = lockInit := ho
  have hother : ∀ y, s.waiter y = none ∧ s.status y = .ready := by
    intro y
    rcases h.noted y with hn | ⟨_, _, hp⟩
    · exact hn
    · cases (hsleep y).mp hp
  have hstep : s.acquireThenWait x = some (s.sleepWith x) := by
    have hw : ({ s with lock := lockOf (some x) } : IoqState).waiter x = none := by
      cases x <;> exact hself
    simp only [IoqState.acquireThenWait, IoqState.downThenWait, hlock, lockInit, semaInit,
      semaDownPass]
    cases x <;>
      simp only [Side.tid, lockOf] at hw ⊢ <;>
      simp [ensure, IoqState.ioqWait, hw, Side.tid, IoqState.sleepWith, lockOf]
  refine ⟨_, hstep, sleepWith_range h.range x, ?_, ⟨some x, sleepWith_lock s x, ?_⟩, ?_, ?_⟩
  · intro y
    rw [sleepWith_pc]
    split
    · decide
    · exact h.not_down y
  · intro y
    rw [sleepWith_pc]
    by_cases hy : y = x
    · simp [hy]
    · have hne : ¬some x = some y := fun he => hy (Option.some.inj he).symm
      simpa [hy, hne] using hsleep y
  · intro y
    rw [sleepWith_waiter, sleepWith_pc, sleepWith_status]
    by_cases hy : y = x
    · rw [if_pos hy, if_pos hy, if_pos hy, hy]
      exact .inr ⟨rfl, rfl, rfl⟩
    · rw [if_neg hy, if_neg hy]
      exact .inl (hother y)
  · intro y hw
    rw [sleepWith_waiter] at hw
    rw [sleepWith_mustWait]
    by_cases hy : y = x
    · rw [hy]
      exact hmw
    · rw [if_neg hy] at hw
      exact absurd (hother y).1 hw

/-- A thread that runs again after its sleep releases the lock. -/
theorem release_inv (h : BlockInv s) (hr : s.status x = .ready) (hpc : s.pc x = .inWait) :
    ∃ s', s.release x = some s' ∧ BlockInv (s'.runTo x .test) := by
  obtain ⟨o, ho, hsleep⟩ := h.lock
  have hx : o = some x := (hsleep x).mp hpc
  subst hx
  have hstep : s.release x = some { s with lock := lockInit } := by
    simp [IoqState.release, ho, lockOf, semaUp, ensure, IoqState.wakeup, lockInit, semaInit]
  refine ⟨_, hstep, h.range, ?_, ⟨none, rfl, ?_⟩, ?_, h.waits⟩
  · intro y
    by_cases hy : y = x
    · simp [IoqState.runTo, hy]
    · simpa [IoqState.runTo, hy] using h.not_down y
  · intro y
    by_cases hy : y = x
    · simp [IoqState.runTo, hy]
    · have hne : ¬some x = some y := fun he => hy (Option.some.inj he).symm
      simpa [IoqState.runTo, hy, hne] using hsleep y
  · intro y
    rcases h.noted y with hn | ⟨_, hb, hp⟩
    · exact .inl hn
    · cases Option.some.inj ((hsleep y).mp hp)
      rw [hr] at hb
      cases hb

theorem ioq_step (h : BlockInv s) {op : IoqStep} (hmay : s.May op) (hfree : LockFree s op) :
    ∃ s', s.step op = some s' ∧ BlockInv s' := by
  cases op with
  | leave => exact ⟨_, rfl, h.range, h.not_down, h.lock, h.noted, h.waits⟩
  | go x byte =>
    have hr := hmay.1
    have hcall : s.pc x = .between ∨ s.pc x = .test → ∃ s', s.go x byte = some s' ∧ BlockInv s' := by
      intro hpc
      have hgo : s.go x byte =
          if s.mustWait x then s.acquireThenWait x else s.transfer x byte := by
        rcases hpc with hpc | hpc <;> rw [IoqState.go, hpc]
      rw [hgo]
      cases hmw : s.mustWait x with
      | true => exact wait_inv h hr hmw (hfree hpc hmw)
      | false =>
        refine transfer_inv h hr hmw ?_ byte
        rcases hpc with hpc | hpc <;> rw [hpc] <;> decide
    cases hpc : s.pc x with
    | between => exact hcall (.inl hpc)
    | test => exact hcall (.inr hpc)
    | inDown => exact absurd hpc (h.not_down x)
    | inWait =>
      obtain ⟨s₁, hs₁, hinv⟩ := release_inv h hr hpc
      exact ⟨s₁.runTo x .test, by simp [IoqState.step, IoqState.go, hpc, hs₁], hinv⟩

end

/-- **The protocol holds while the lock is free when it is wanted.** -/
theorem blocking_protocol (s : IoqState) (h : ioqMachine.Reach LockFree s) : NeverStranded s := by
  have hinv : BlockInv s := by
    refine Machine.Reach.invariant ?_ ?_ h
    · intro s hin
      obtain ⟨ioq, rfl⟩ := hin
      exact blockInv_fresh ioq
    · intro s op s' hinv hmay hfree hstep
      obtain ⟨s₁, he, hinv'⟩ := ioq_step hinv hmay hfree
      cases he.symm.trans hstep
      exact hinv'
  refine ⟨hinv.waits .consumer, hinv.waits .producer, ?_⟩
  intro hin
  obtain ⟨hp, hc⟩ := hin
  obtain ⟨o, -, hsleep⟩ := hinv.lock
  have hin : ∀ x, s.status x = .blocked → o = some x := by
    intro x hb
    rcases hinv.noted x with ⟨_, hr⟩ | ⟨_, _, hpc⟩
    · rw [hb] at hr
      cases hr
    · exact (hsleep x).mp hpc
  cases (hin _ hp).symm.trans (hin _ hc)

instance (s : IoqState) (op : IoqStep) : Decidable (ioqMachine.may s op) :=
  match op with
  | .go x _ => inferInstanceAs (Decidable (s.status x = .ready ∧ s.cur ≠ some x.other))
  | .leave =>
    match h : s.cur with
    | none => isTrue fun x hx => absurd (h.symm.trans hx) (by simp)
    | some y => decidable_of_iff (s.pc y = .between)
        ⟨fun hy x hx => by cases h.symm.trans hx; exact hy, fun hall => hall y h⟩

instance (s : IoqState) (op : IoqStep) : Decidable (LockFree s op) := by
  cases op <;> unfold LockFree <;> infer_instance

/-- The consumer waits, the producer puts a byte and does something else, the
consumer takes the byte and waits again. -/
theorem blocking_protocol_one_byte :
    ∃ s, ioqMachine.follow LockFree (.fresh rawQueue)
        [.go .consumer 0, .go .producer 97, .leave, .go .consumer 0, .go .consumer 0,
          .go .consumer 0] = some s ∧
      s.ioq.consumer = some 2 ∧ NeverStranded s := by
  have hsome : (ioqMachine.follow LockFree (.fresh rawQueue)
      [.go .consumer 0, .go .producer 97, .leave, .go .consumer 0, .go .consumer 0,
        .go .consumer 0]).map (fun s => s.ioq.consumer) = some (some 2) := by decide +kernel
  obtain ⟨s, hs, he⟩ := Option.map_eq_some_iff.mp hsome
  have hreach : ioqMachine.Reach LockFree s :=
    Machine.reach_of_follow (Machine.Reach.start ⟨rawQueue, rfl⟩) hs
  exact ⟨s, hs, he, blocking_protocol s hreach⟩

/-! ## The lost wake-up -/

/-- A pair of values, one for each side. -/
def both {α : Type} (a b : α) : Side → α
  | .producer => a
  | .consumer => b

theorem update_producer {α : Type} (a b c : α) :
    Function.update (both a b) .producer c = both c b := by
  funext x
  cases x <;> rfl

theorem update_consumer {α : Type} (a b c : α) :
    Function.update (both a b) .consumer c = both a c := by
  funext x
  cases x <;> rfl

/-- A state with `n` bytes queued that is reached with interrupts off. -/
def Stage (n : Nat) (producer consumer : Option Nat) (lock : Lock) (pc : Side → CallPc)
    (status : Side → TaskStatus) (cur : Option Side) : Prop :=
  ∃ ioq, InRange ioq ∧ count ioq = n ∧ ioq.producer = producer ∧ ioq.consumer = consumer ∧
    ioqMachine.Reach OnlyBlocking ⟨ioq, lock, pc, status, cur⟩

section

variable {n : Nat} {lock : Lock} {p p' c : CallPc} {st : TaskStatus} {cur : Option Side}

/-- One more strict step. -/
theorem reach_go {s s' : IoqState} (x : Side) (byte : UInt8)
    (h : ioqMachine.Reach OnlyBlocking s) (hr : s.status x = .ready) (hcur : s.cur ≠ some x.other)
    (hgo : s.go x byte = some s') : ioqMachine.Reach OnlyBlocking s' :=
  Machine.Reach.step (a := IoqStep.go x byte) h ⟨hr, hcur⟩ (by simp [OnlyBlocking]) hgo

theorem not_full {ioq : Ioqueue} (h : InRange ioq) (hn : count ioq < 2047) :
    ioqFull ioq = false := by
  cases hf : ioqFull ioq with
  | false => rfl
  | true =>
    have hc : count ioq = bufsize - 1 := (ioqFull_iff h).mp hf
    simp only [bufsize] at hc
    omega

theorem not_empty {ioq : Ioqueue} (h : InRange ioq) (hn : 0 < count ioq) :
    ioqEmpty ioq = false := by
  cases hf : ioqEmpty ioq with
  | false => rfl
  | true =>
    have hc := (ioqEmpty_iff h).mp hf
    omega

/-- The producer puts a byte, waking up whoever is noted. -/
theorem stage_put {w : Option Nat}
    (hw : (w = none ∧ st = .ready) ∨ (w = some Side.consumer.tid ∧ st = .blocked))
    (h : Stage n none w lock (both .between c) (both .ready st) cur)
    (hcur : cur ≠ some .consumer) (hn : n < 2047) :
    Stage (n + 1) none none lock (both .between c) (both .ready .ready) (some .producer) := by
  obtain ⟨ioq, hr, rfl, hp, rfl, hreach⟩ := h
  have hfull := not_full hr hn
  obtain ⟨hr', hq'⟩ := storeByte_spec hr hfull 0
  have hcount : count (storeByte ioq 0).1 = count ioq + 1 := by
    rw [← length_queued, ← length_queued, hq', List.length_append, List.length_singleton]
  refine ⟨_, hr', hcount, hp, rfl, ?_⟩
  apply reach_go .producer 0 hreach rfl hcur
  have hwake := wakeup_spec (t := IoqState.mk (storeByte ioq 0).1 lock (both .between c)
    (both .ready st) (some .producer)) (y := .consumer) hw
  simp only [IoqState.go, both, IoqState.mustWait, hfull, IoqState.transfer, IoqState.runTo,
    Bool.false_eq_true, if_false, update_producer]
  rw [update_consumer] at hwake
  exact hwake

/-- The consumer takes a byte, with nobody noted. -/
theorem stage_take (hc : c = .between ∨ c = .test)
    (h : Stage (n + 1) none none lock (both p c) (both .ready .ready) cur)
    (hcur : cur ≠ some .producer) :
    Stage n none none lock (both p .between) (both .ready .ready) (some .consumer) := by
  obtain ⟨ioq, hr, hn, hp, hcons, hreach⟩ := h
  have hempty := not_empty hr (by omega)
  obtain ⟨hr', hq'⟩ := takeByte_spec hr hempty
  have hcount : count (takeByte ioq).2.1 = n := by
    have hl := congrArg List.length hq'
    rw [List.length_cons, length_queued, length_queued] at hl
    omega
  refine ⟨_, hr', hcount, rfl, hcons, ?_⟩
  apply reach_go .consumer 0 hreach rfl hcur
  have hgo : ∀ s : IoqState, s.pc .consumer = .between ∨ s.pc .consumer = .test →
      s.mustWait .consumer = false → s.go .consumer 0 = s.transfer .consumer 0 := by
    intro s hpc hmw
    rcases hpc with hpc | hpc <;> simp [IoqState.go, hpc, hmw]
  rw [hgo ⟨ioq, lock, both p c, both .ready .ready, cur⟩ hc hempty]
  simp only [IoqState.transfer, takeByte, hp, IoqState.wakeup, IoqState.runTo, update_consumer]

theorem stage_fill (k : Nat) (hk : n + k ≤ 2047)
    (h : Stage n none none lock (both .between c) (both .ready .ready) (some .producer)) :
    Stage (n + k) none none lock (both .between c) (both .ready .ready) (some .producer) := by
  induction k with
  | zero => exact h
  | succ k ih =>
    exact stage_put (n := n + k) (.inl ⟨rfl, rfl⟩) (ih (by omega)) (by simp) (by omega)

theorem stage_drain (h : Stage n none none lock (both p .between) (both .ready .ready)
    (some .consumer)) :
    Stage 0 none none lock (both p .between) (both .ready .ready) (some .consumer) := by
  induction n with
  | zero => exact h
  | succ n ih => exact ih (stage_take (.inl rfl) h (by simp))

/-- The consumer finds the queue empty and the lock free. -/
theorem stage_consumer_sleeps
    (h : Stage 0 none none lockInit (both p .between) (both .ready .ready) cur)
    (hcur : cur ≠ some .producer) :
    Stage 0 none (some 2) (lockOf (some .consumer)) (both p .inWait) (both .ready .blocked)
      none := by
  obtain ⟨ioq, hr, hn, hp, hcons, hreach⟩ := h
  have hempty := (ioqEmpty_iff hr).mpr hn
  refine ⟨{ ioq with consumer := some 2 }, ⟨hr.1, hr.2, hr.3, hr.4⟩, hn, hp, rfl, ?_⟩
  apply reach_go .consumer 0 hreach rfl hcur
  simp [IoqState.go, both, IoqState.mustWait, hempty, IoqState.acquireThenWait,
    IoqState.downThenWait, lockInit, semaInit, semaDownPass, ensure, IoqState.ioqWait,
    IoqState.waiter, hcons, IoqState.setWaiter, IoqState.block, update_consumer, lockOf, Side.tid]

end

/-- **The two threads end up asleep both**, with interrupts off all the time: the
consumer waits for the first byte; the producer fills the queue and queues for
the lock, which the consumer still has; the consumer releases it, drains the
queue and takes the lock again to wait; the producer tests the semaphore and
queues once more. -/
theorem both_sides_asleep : ∃ s, ioqMachine.Reach OnlyBlocking s ∧
    s.status .producer = .blocked ∧ s.status .consumer = .blocked := by
  have h₀ : Stage 0 none none lockInit (both .between .between) (both .ready .ready) none := by
    refine ⟨ioqueueInit rawQueue, inRange_init _, ?_, rfl, rfl, ?_⟩
    · rw [← length_queued, queued_init]
      rfl
    · have hs : IoqState.fresh rawQueue = ⟨ioqueueInit rawQueue, lockInit, both .between .between,
          both .ready .ready, none⟩ := by
        rw [IoqState.fresh]
        congr 1 <;> funext x <;> cases x <;> rfl
      exact hs ▸ Machine.Reach.start ⟨rawQueue, rfl⟩
  have h₁ := stage_consumer_sleeps h₀ (by simp)
  have h₂ := stage_fill 2046 (by decide) (stage_put (.inr ⟨rfl, rfl⟩) h₁ (by simp) (by decide))
  -- the queue is full, and the lock still with the consumer
  have h₃ : Stage 2047 none none ⟨some 2, ⟨0, [1]⟩, 1⟩ (both .inDown .inWait)
      (both .blocked .ready) none := by
    obtain ⟨ioq, hr, hn, hp, hcons, hreach⟩ := h₂
    have hfull := (ioqFull_iff hr).mpr hn
    refine ⟨ioq, hr, hn, hp, hcons, reach_go .producer 0 hreach rfl (by simp [Side.other]) ?_⟩
    simp [IoqState.go, both, IoqState.mustWait, hfull, IoqState.acquireThenWait,
      IoqState.downThenWait, lockOf, semaDownPass, ensure, IoqState.block, update_producer, Side.tid]
  -- the consumer runs again and gives the lock back
  have h₄ : Stage 2047 none none lockInit (both .inDown .test) (both .ready .ready)
      (some .consumer) := by
    obtain ⟨ioq, hr, hn, hp, hcons, hreach⟩ := h₃
    refine ⟨ioq, hr, hn, hp, hcons, reach_go .consumer 0 hreach rfl (by simp [Side.other]) ?_⟩
    simp [IoqState.go, both, IoqState.release, semaUp, ensure, IoqState.wakeup, IoqState.unblock,
      TaskStatus.Asleep, IoqState.runTo, update_producer, update_consumer, lockInit, semaInit,
      Side.tid]
  have h₅ := stage_drain (stage_take (n := 2046) (.inr rfl) h₄ (by simp))
  have h₆ := stage_consumer_sleeps h₅ (by simp)
  obtain ⟨ioq, hr, hn, hp, hcons, hreach⟩ := h₆
  refine ⟨⟨ioq, ⟨some 2, ⟨0, [1]⟩, 1⟩, both .inDown .inWait, both .blocked .blocked, none⟩,
    reach_go .producer 0 hreach rfl (by simp [Side.other]) ?_, rfl, rfl⟩
  simp [IoqState.go, both, IoqState.downThenWait, lockOf, semaDownPass, ensure, IoqState.block,
    update_producer, Side.tid]

end OsCore.Device
