import OsCore.Fs.Volume
import OsCore.Thread.Sync

/-!
# Commands and interrupts of an IDE channel (`device/ide.c`)

`ide_read` and `ide_write` move whole sectors; what they move is modelled in
`Fs.Volume`. Here they are programs that share a channel: the lock of the channel,
the flag `expecting_intr`, the semaphore `disk_done`, and a controller that
answers every command with one interrupt at a time of its own choosing.

A transfer of many sectors is cut into commands of at most 256. The thread sets
the flag, writes the command, and goes down on `disk_done`; `ide_read` does so
before it looks at the status and fetches the data, `ide_write` after it has
handed them over. The handler clears the flag and goes up. The interrupt may come
before the thread has gone down or after it fell asleep there.

Commands are numbered as they are written; `outstanding` are those whose interrupt
is still to come and `raised` those whose interrupt has come. The statements of
`lock_acquire` and `lock_release` are steps of `LockState`. A `busy_wait` that
gives up ends the system in `PANIC`; the runs here go on from one that does not.

`IdeInv` says what the channel looks like at each statement of the one thread that
holds the lock, and that it is at rest when no thread does. `disk_handshake` reads
the protocol off it.
-/

namespace OsCore.Device

open Lib Thread
open Fs (maxLba)

/-! ## The code -/

/-- A call of `ide_read` or `ide_write`. The disk it is for is one of the two of
the channel, and both go through the channel's one lock. -/
structure Transfer where
  write : Bool
  lba : UInt32
  secCnt : UInt32
  deriving DecidableEq

/-- The statement a thread is at. A command's number stays with the thread that
wrote it until the thread goes on to the next. -/
inductive IdePc
  /-- in no transfer -/
  | outside
  /-- in `lock_acquire` -/
  | acquire (x : Transfer)
  /-- `while (secs_done < sec_cnt)` -/
  | loop (x : Transfer) (secsDone : UInt32)
  /-- `channel->expecting_intr = true;` -/
  | expect (x : Transfer) (secsDone : UInt32)
  /-- `outb(reg_cmd(channel), cmd);` -/
  | command (x : Transfer) (secsDone : UInt32)
  /-- in `sema_down(&hd->my_channel->disk_done)`, asleep or not -/
  | down (x : Transfer) (secsDone : UInt32) (cmd : Nat)
  /-- in `busy_wait` -/
  | busyWait (x : Transfer) (secsDone : UInt32) (cmd : Nat)
  /-- `read_from_sector` or `write2sector` -/
  | sectors (x : Transfer) (secsDone : UInt32) (cmd : Nat)
  /-- `secs_done += secs_op;` -/
  | advance (x : Transfer) (secsDone : UInt32) (cmd : Nat)
  /-- in `lock_release` -/
  | release
  deriving DecidableEq

/-- The fields of `struct ide_channel` but the lock, with its controller. -/
structure Channel where
  expectingIntr : Bool
  diskDone : Semaphore
  issued : Nat
  outstanding : List Nat
  raised : List Nat

/-- A channel and all threads that use it; `asleep` are those blocked on
`disk_done`. -/
structure IdeState where
  locks : LockState
  channel : Channel
  pc : Nat → IdePc
  asleep : Nat → Bool

/-- `secs_op` of the pass that starts at `secs_done`. -/
def secsOp (x : Transfer) (secsDone : UInt32) : UInt32 :=
  if secsDone + 256 ≤ x.secCnt then 256 else x.secCnt - secsDone

namespace IdeState

variable (s : IdeState) (t : Nat)

def goto (pc : IdePc) : IdeState := { s with pc := Function.update s.pc t pc }

/-- The thread calls `ide_read` or `ide_write` and comes to `lock_acquire`. -/
def call (x : Transfer) : Option IdeState := do
  ensure (x.lba.toNat ≤ maxLba)
  ensure (0 < x.secCnt)
  let locks ← s.locks.step (.acquire t)
  return { s with locks }.goto t (.acquire x)

/-- A statement of `lock_acquire` or `lock_release`; where the call comes back, the
thread goes on to `next`. -/
def goLock (next : IdePc) : Option IdeState := do
  let locks ← s.locks.step (.go t)
  let s := { s with locks }
  return if locks.pc t = .idle then s.goto t next else s

/-- A pass through the loop of `sema_down`. -/
def goDown (next : IdePc) : Option IdeState := do
  let (diskDone, taken) ← semaDownPass s.channel.diskDone t
  let s := { s with channel := { s.channel with diskDone } }
  return if taken then s.goto t next else { s with asleep := Function.update s.asleep t true }

/-- The thread `t` executes its next statement. -/
def go : Option IdeState :=
  match s.pc t with
  | .outside => none
  | .acquire x => s.goLock t (.loop x 0)
  | .loop x secsDone =>
    if secsDone < x.secCnt then do
      -- `select_sector` asserts that the command's first sector is on the disk
      ensure ((x.lba + secsDone).toNat ≤ maxLba)
      return s.goto t (.expect x secsDone)
    else do
      let locks ← s.locks.step (.release t)
      return { s with locks }.goto t .release
  | .expect x secsDone =>
    some { s.goto t (.command x secsDone) with
      channel := { s.channel with expectingIntr := true } }
  | .command x secsDone =>
    let cmd := s.channel.issued
    let channel := { s.channel with
      issued := cmd + 1, outstanding := cmd :: s.channel.outstanding }
    some { s.goto t (if x.write then .busyWait x secsDone cmd else .down x secsDone cmd) with
      channel }
  | .down x secsDone cmd =>
    s.goDown t (if x.write then .advance x secsDone cmd else .busyWait x secsDone cmd)
  | .busyWait x secsDone cmd => some (s.goto t (.sectors x secsDone cmd))
  | .sectors x secsDone cmd =>
    some (s.goto t (if x.write then .down x secsDone cmd else .advance x secsDone cmd))
  | .advance x secsDone _ => some (s.goto t (.loop x (secsDone + secsOp x secsDone)))
  | .release => s.goLock t .outside

/-- The controller raises the interrupt of `cmd`, and `intr_hd_handler` runs. -/
def intrHdHandler (cmd : Nat) : Option IdeState :=
  let channel := { s.channel with
    outstanding := s.channel.outstanding.erase cmd, raised := cmd :: s.channel.raised }
  if channel.expectingIntr then do
    let (diskDone, woken) ← semaUp channel.diskDone
    let s := { s with channel := { channel with expectingIntr := false, diskDone } }
    match woken with
    | none => return s
    | some u => do
      -- `thread_unblock` asserts that its argument is blocked
      ensure (s.asleep u = true)
      return { s with asleep := Function.update s.asleep u false }
  else
    some { s with channel }

end IdeState

inductive IdeOp
  | call (t : Nat) (x : Transfer)
  | go (t : Nat)
  | intr (cmd : Nat)

def IdeState.step (s : IdeState) : IdeOp → Option IdeState
  | .call t x => s.call t x
  | .go t => s.go t
  | .intr cmd => s.intrHdHandler cmd

/-- A thread that is not asleep goes on with its transfer or begins one, and the
controller raises one interrupt for each command. -/
def IdeState.May (s : IdeState) : IdeOp → Prop
  | .call t _ => s.pc t = .outside
  | .go t => s.pc t ≠ .outside ∧ s.asleep t = false ∧ s.locks.status t = .ready
  | .intr cmd => cmd ∈ s.channel.outstanding

/-- The channel as `ide_init` leaves it. -/
def IdeState.fresh : IdeState where
  locks := .fresh
  channel := ⟨false, semaInit 0, 0, [], []⟩
  pc := fun _ => .outside
  asleep := fun _ => false

def ideMachine : Machine IdeState IdeOp where
  start s := s = .fresh
  may := IdeState.May
  step := IdeState.step

/-! ## A thread and the lock -/

section Lock

variable {s s' : LockState} {t u : Nat}

/-- In `lock_acquire`, called without holding the lock. -/
structure Acquiring (s : LockState) (t : Nat) : Prop where
  pc : s.pc t = .testHolder ∨ s.pc t = .down ∨ s.pc t = .asleep ∨ s.pc t = .setHolder ∨
    s.pc t = .checkZero ∨ s.pc t = .setOne
  depth : s.depth t = 0

/-- In `lock_release`, called holding the lock once. -/
structure Releasing (s : LockState) (t : Nat) : Prop where
  pc : s.pc t = .checkHolder ∨ s.pc t = .testNested ∨ s.pc t = .checkOne ∨ s.pc t = .clearHolder ∨
    s.pc t = .clearNr ∨ s.pc t = .up
  depth : s.depth t = 1

/-- Between calls, holding the lock `n` times. -/
structure Between (s : LockState) (t n : Nat) : Prop where
  pc : s.pc t = .idle
  depth : s.depth t = n

theorem inside_of_depth (h : LockInv s) (hd : s.depth t = 1) : s.inside t = true := by
  cases hin : s.inside t with
  | true => rfl
  | false =>
    have hz := (h.outside t hin).2
    omega

/-- A thread's step in the lock leaves the others where they are. -/
theorem go_others (h : s.go t = some s') (hu : u ≠ t) :
    s'.pc u = s.pc u ∧ s'.depth u = s.depth u := by
  unfold LockState.go at h
  cases hp : s.pc t <;> simp only [hp] at h
  case idle => cases h
  case down | asleep =>
    simp only [LockState.goDown, Option.bind_eq_bind, Option.bind_eq_some_iff, Prod.exists] at h
    obtain ⟨sema, taken, -, h⟩ := h
    cases taken <;>
      simp only [if_true, Bool.false_eq_true, if_false, Option.pure_def, Option.some.injEq] at h <;>
      subst h <;> simp [LockState.goto, LockState.depth, hu]
  case up =>
    simp only [LockState.goUp, Option.bind_eq_bind, Option.bind_eq_some_iff, Prod.exists] at h
    obtain ⟨sema, woken, -, h⟩ := h
    cases woken with
    | none =>
      simp only [Option.pure_def, Option.some.injEq] at h
      subst h
      simp [LockState.releaseReturns, LockState.goto, LockState.depth, hu]
    | some w =>
      simp only [Option.bind_eq_some_iff, Option.pure_def, Option.some.injEq] at h
      obtain ⟨-, -, rfl⟩ := h
      simp [LockState.releaseReturns, LockState.goto, LockState.depth, hu]
  case checkZero | checkHolder | checkOne =>
    simp only [Option.bind_eq_bind, Option.bind_eq_some_iff, Option.pure_def,
      Option.some.injEq] at h
    obtain ⟨-, -, rfl⟩ := h
    simp [LockState.goto, LockState.depth, hu]
  all_goals
    simp only [Option.some.injEq] at h
    subst h
    simp [LockState.acquireReturns, LockState.releaseReturns, LockState.goto, LockState.depth, hu]

/-- A pass through `sema_down` takes the semaphore or sleeps. -/
theorem goDown_acquiring (hd : s.depth t = 0) (h : s.goDown t = some s') : Acquiring s' t := by
  simp only [LockState.goDown, Option.bind_eq_bind, Option.bind_eq_some_iff, Prod.exists] at h
  obtain ⟨sema, taken, -, h⟩ := h
  cases taken with
  | true =>
    simp only [if_true, Option.pure_def, Option.some.injEq] at h
    subst h
    exact ⟨by simp [LockState.goto], hd⟩
  | false =>
    simp only [Bool.false_eq_true, if_false, Option.pure_def, Option.some.injEq] at h
    subst h
    exact ⟨by simp [LockState.goto], hd⟩

/-- A thread in `lock_acquire` stays there or comes back with the lock. -/
theorem acquiring_go (hinv : LockInv s) (h : Acquiring s t) (hgo : s.go t = some s') :
    Acquiring s' t ∨ Between s' t 1 := by
  have hd := h.depth
  have hbal := hinv.balance t
  unfold LockState.go at hgo
  rcases h.pc with hp | hp | hp | hp | hp | hp
  · have hne : s.lock.holder ≠ some t := by
      intro hh
      have hat := hinv.at_inside t (hinv.holder_inside t hh)
      rw [hp] at hat
      have hpos : 0 < s.depth t := hat.2.2.1
      omega
    rw [hp] at hgo
    simp only [if_pos hne, Option.some.injEq] at hgo
    subst hgo
    exact Or.inl ⟨by simp [LockState.goto], hd⟩
  · rw [hp] at hgo
    exact Or.inl (goDown_acquiring hd hgo)
  · rw [hp] at hgo
    exact Or.inl (goDown_acquiring hd hgo)
  · rw [hp] at hgo
    simp only [Option.some.injEq] at hgo
    subst hgo
    exact Or.inl ⟨by simp [LockState.goto], hd⟩
  · rw [hp] at hgo
    simp only [Option.bind_eq_bind, Option.bind_eq_some_iff, Option.pure_def,
      Option.some.injEq] at hgo
    obtain ⟨-, -, rfl⟩ := hgo
    exact Or.inl ⟨by simp [LockState.goto], hd⟩
  · rw [hp] at hgo
    simp only [Option.some.injEq] at hgo
    subst hgo
    refine Or.inr ⟨by simp [LockState.acquireReturns, LockState.goto], ?_⟩
    have hd' : s.acquired t - s.released t = 0 := hd
    simp [LockState.acquireReturns, LockState.goto, LockState.depth]
    omega

/-- A thread in `lock_release` stays there or comes back without the lock. -/
theorem releasing_go (hinv : LockInv s) (h : Releasing s t) (hgo : s.go t = some s') :
    Releasing s' t ∨ Between s' t 0 := by
  have hd := h.depth
  have hat := hinv.at_inside t (inside_of_depth hinv hd)
  unfold LockState.go at hgo
  rcases h.pc with hp | hp | hp | hp | hp | hp <;> rw [hp] at hgo hat
  · simp only [Option.bind_eq_bind, Option.bind_eq_some_iff, Option.pure_def,
      Option.some.injEq] at hgo
    obtain ⟨-, -, rfl⟩ := hgo
    exact Or.inl ⟨by simp [LockState.goto], hd⟩
  · -- the lock is held once, so this release is the outermost
    have hnr : ¬s.lock.holderRepeatNr > 1 := by
      have heq : s.lock.holderRepeatNr = s.depth t := hat.2.1
      omega
    simp only [if_neg hnr, Option.some.injEq] at hgo
    subst hgo
    exact Or.inl ⟨by simp [LockState.goto], hd⟩
  · simp only [Option.bind_eq_bind, Option.bind_eq_some_iff, Option.pure_def,
      Option.some.injEq] at hgo
    obtain ⟨-, -, rfl⟩ := hgo
    exact Or.inl ⟨by simp [LockState.goto], hd⟩
  · simp only [Option.some.injEq] at hgo
    subst hgo
    exact Or.inl ⟨by simp [LockState.goto], hd⟩
  · simp only [Option.some.injEq] at hgo
    subst hgo
    exact Or.inl ⟨by simp [LockState.goto], hd⟩
  · apply Or.inr
    have hd' : s.acquired t - s.released t = 1 := hd
    simp only [LockState.goUp, Option.bind_eq_bind, Option.bind_eq_some_iff, Prod.exists] at hgo
    obtain ⟨sema, woken, -, hgo⟩ := hgo
    cases woken with
    | none =>
      simp only [Option.pure_def, Option.some.injEq] at hgo
      subst hgo
      refine ⟨by simp [LockState.releaseReturns, LockState.goto], ?_⟩
      simp [LockState.releaseReturns, LockState.goto, LockState.depth]
      omega
    | some w =>
      simp only [Option.bind_eq_some_iff, Option.pure_def, Option.some.injEq] at hgo
      obtain ⟨-, -, rfl⟩ := hgo
      refine ⟨by simp [LockState.releaseReturns, LockState.goto], ?_⟩
      simp [LockState.releaseReturns, LockState.goto, LockState.depth]
      omega

end Lock

/-! ## The invariant -/

/-- No command is under way. -/
def Channel.AtRest (ch : Channel) : Prop :=
  ch.outstanding = [] ∧ ch.expectingIntr = false ∧ ch.diskDone = ⟨0, []⟩

/-- The next command has been announced. -/
def Channel.Armed (ch : Channel) : Prop :=
  ch.outstanding = [] ∧ ch.expectingIntr = true ∧ ch.diskDone = ⟨0, []⟩

/-- Thread `t` has written `cmd` and not yet gone down: the interrupt is still to
come, and finds `t` queued if it sleeps; or it has come and left the value 1. -/
def Channel.Pending (ch : Channel) (t : Nat) (asleep : Bool) (cmd : Nat) : Prop :=
  (ch.outstanding = [cmd] ∧ ch.expectingIntr = true ∧
    ch.diskDone = ⟨0, if asleep then [t] else []⟩) ∨
  (ch.outstanding = [] ∧ ch.expectingIntr = false ∧ ch.diskDone = ⟨1, []⟩ ∧ asleep = false ∧
    cmd ∈ ch.raised)

/-- Between `lock_acquire` and the return of `lock_release`. -/
def IdePc.InBody : IdePc → Prop
  | .outside | .acquire _ => False
  | _ => True

/-- How far a thread has come with its command. -/
inductive Phase
  | rest
  | armed
  | pending (cmd : Nat)
  /-- its `sema_down` has been passed -/
  | passed (cmd : Nat)
  deriving DecidableEq

def IdePc.phase : IdePc → Phase
  | .command _ _ => .armed
  | .down _ _ cmd => .pending cmd
  | .busyWait x _ cmd | .sectors x _ cmd => if x.write then .pending cmd else .passed cmd
  | .advance _ _ cmd => .passed cmd
  | _ => .rest

/-- What the channel looks like to the thread in the body. -/
def Channel.In (ch : Channel) (t : Nat) (asleep : Bool) : Phase → Prop
  | .rest => ch.AtRest
  | .armed => ch.Armed
  | .pending cmd => ch.Pending t asleep cmd
  | .passed cmd => ch.AtRest ∧ cmd ∈ ch.raised

/-- Where a thread is in the calls of the lock. -/
def LockAt (s : LockState) (t : Nat) : IdePc → Prop
  | .outside => Between s t 0
  | .acquire _ => Acquiring s t
  | .release => Releasing s t
  | _ => Between s t 1

/-- What holds where a thread is at `pc`. -/
structure IdeState.At (s : IdeState) (t : Nat) (pc : IdePc) : Prop where
  lock : LockAt s.locks t pc
  channel : pc.InBody → s.channel.In t (s.asleep t) pc.phase

structure IdeInv (s : IdeState) : Prop where
  lock : LockInv s.locks
  at_pc : ∀ t, s.At t (s.pc t)
  rest : (∀ t, ¬(s.pc t).InBody) → s.channel.AtRest
  sleepers : ∀ t, s.asleep t = true → ∃ x n cmd, s.pc t = .down x n cmd

theorem ideInv_fresh : IdeInv .fresh where
  lock := lockInv_fresh
  at_pc := fun _ => ⟨⟨rfl, rfl⟩, fun hb => hb.elim⟩
  rest := fun _ => ⟨rfl, rfl, rfl⟩
  sleepers := fun _ h => by cases h

section

variable {s s' : IdeState} {t u : Nat}

theorem LockAt.depth {locks : LockState} {pc : IdePc} (h : LockAt locks t pc) (hb : pc.InBody) :
    locks.depth t = 1 := by
  cases pc with
  | outside => exact hb.elim
  | acquire => exact hb.elim
  | release => exact Releasing.depth h
  | _ => exact Between.depth h

theorem LockAt.congr {locks locks' : LockState} {pc : IdePc} (h : LockAt locks u pc)
    (hpc : locks'.pc u = locks.pc u) (hdepth : locks'.depth u = locks.depth u) :
    LockAt locks' u pc := by
  cases pc with
  | acquire x =>
    refine ⟨?_, hdepth.trans (Acquiring.depth h)⟩
    rw [hpc]
    exact Acquiring.pc h
  | release =>
    refine ⟨?_, hdepth.trans (Releasing.depth h)⟩
    rw [hpc]
    exact Releasing.pc h
  | _ => exact ⟨hpc.trans (Between.pc h), hdepth.trans (Between.depth h)⟩

/-- The lock keeps all threads but one out. -/
theorem IdeInv.body_unique (h : IdeInv s) (ht : (s.pc t).InBody) (hu : (s.pc u).InBody) : t = u :=
  h.lock.unique t u (inside_of_depth h.lock ((h.at_pc t).lock.depth ht))
    (inside_of_depth h.lock ((h.at_pc u).lock.depth hu))

/-- What a step of thread `t` leaves alone: the other threads, and the channel
unless `t` is the one thread in the body. -/
structure Moves (s s' : IdeState) (t : Nat) : Prop where
  lockPc : ∀ u, u ≠ t → s'.locks.pc u = s.locks.pc u
  lockDepth : ∀ u, u ≠ t → s'.locks.depth u = s.locks.depth u
  pc : ∀ u, u ≠ t → s'.pc u = s.pc u
  asleep : ∀ u, u ≠ t → s'.asleep u = s.asleep u
  channel : s'.channel = s.channel ∨ (s.pc t).InBody

/-- **One thread's step keeps the invariant** if what it says of that thread still
holds, and the thread leaves the channel at rest when it leaves the body. -/
theorem IdeInv.step (h : IdeInv s) (hm : Moves s s' t) (hlock : LockInv s'.locks)
    (hat : s'.At t (s'.pc t))
    (hout : ¬(s'.pc t).InBody → (s.pc t).InBody → s'.channel.AtRest)
    (hsleep : s'.asleep t = true → ∃ x n cmd, s'.pc t = .down x n cmd) : IdeInv s' := by
  refine ⟨hlock, fun u => ?_, fun hnone => ?_, fun u hu => ?_⟩
  · by_cases hut : u = t
    · rw [hut]
      exact hat
    · rw [hm.pc u hut]
      refine ⟨(h.at_pc u).lock.congr (hm.lockPc u hut) (hm.lockDepth u hut), fun hb => ?_⟩
      rcases hm.channel with hch | htb
      · rw [hch, hm.asleep u hut]
        exact (h.at_pc u).channel hb
      · exact absurd (h.body_unique hb htb) hut
  · by_cases htb : (s.pc t).InBody
    · exact hout (hnone t) htb
    · rw [hm.channel.resolve_right htb]
      apply h.rest
      intro u
      by_cases hut : u = t
      · rw [hut]
        exact htb
      · rw [← hm.pc u hut]
        exact hnone u
  · by_cases hut : u = t
    · rw [hut] at hu ⊢
      exact hsleep hu
    · rw [hm.asleep u hut] at hu
      rw [hm.pc u hut]
      exact h.sleepers u hu

/-- A thread that is not at its `sema_down` is not asleep on `disk_done`. -/
theorem IdeInv.awake (h : IdeInv s) (hpc : ∀ x n cmd, s.pc t ≠ .down x n cmd) :
    s.asleep t = false := by
  cases ha : s.asleep t with
  | false => rfl
  | true =>
    obtain ⟨x, n, cmd, hd⟩ := h.sleepers t ha
    exact absurd hd (hpc x n cmd)

theorem IdeState.goto_pc (s : IdeState) (t : Nat) (pc : IdePc) : (s.goto t pc).pc t = pc :=
  Function.update_self ..

/-- A step inside the body that is not about the lock. -/
theorem IdeInv.body_step (h : IdeInv s) (hb : (s.pc t).InBody) {c : IdePc} (hb' : c.InBody)
    (channel : Channel) (asleep : Bool) (hlock : LockAt s.locks t c)
    (hch : channel.In t asleep c.phase)
    (hsleep : asleep = true → ∃ x n cmd, c = .down x n cmd) :
    IdeInv { s.goto t c with channel, asleep := Function.update s.asleep t asleep } := by
  refine h.step (t := t) ⟨fun _ _ => rfl, fun _ _ => rfl, fun u hu => ?_, fun u hu => ?_,
    Or.inr hb⟩ h.lock ?_ ?_ ?_
  · exact Function.update_of_ne hu _ _
  · exact Function.update_of_ne hu _ _
  · show IdeState.At _ t ((s.goto t c).pc t)
    rw [IdeState.goto_pc]
    refine ⟨hlock, fun _ => ?_⟩
    show channel.In t (Function.update s.asleep t asleep t) c.phase
    rw [Function.update_self]
    exact hch
  · intro hn
    refine absurd ?_ hn
    show ((s.goto t c).pc t).InBody
    rw [IdeState.goto_pc]
    exact hb'
  · intro ha
    have ha : Function.update s.asleep t asleep t = true := ha
    rw [Function.update_self] at ha
    show ∃ x n cmd, (s.goto t c).pc t = .down x n cmd
    rw [IdeState.goto_pc]
    exact hsleep ha

/-- The same for a thread that stays awake. -/
theorem IdeInv.body_move (h : IdeInv s) (hb : (s.pc t).InBody) (ha : s.asleep t = false)
    {c : IdePc} (hb' : c.InBody) (channel : Channel) (hlock : LockAt s.locks t c)
    (hch : channel.In t false c.phase) : IdeInv { s.goto t c with channel } := by
  have hsame : Function.update s.asleep t false = s.asleep := by
    rw [← ha, Function.update_eq_self]
  have hstep := h.body_step hb hb' channel false hlock hch fun hf => by cases hf
  rwa [hsame] at hstep

/-! ## The statements -/

/-- A statement of `lock_acquire` or `lock_release`. -/
theorem goLock_inv (h : IdeInv s) {next : IdePc} (hready : s.locks.status t = .ready)
    (hpc : s.locks.pc t ≠ .idle) (hdown : ∀ x n cmd, s.pc t ≠ .down x n cmd)
    (hback : ∀ locks, s.locks.go t = some locks →
      if locks.pc t = .idle then
        { s with locks }.At t next ∧ (¬next.InBody → (s.pc t).InBody → s.channel.AtRest)
      else { s with locks }.At t (s.pc t)) :
    ∃ s', s.goLock t next = some s' ∧ IdeInv s' := by
  obtain ⟨locks, hgo, hlock⟩ := lock_step h.lock (o := .go t) ⟨hready, hpc⟩ trivial
  have hback := hback locks hgo
  have hawake := h.awake hdown
  refine ⟨if locks.pc t = .idle then { s with locks }.goto t next else { s with locks }, ?_, ?_⟩
  · simp only [IdeState.goLock, hgo, Option.bind_eq_bind, Option.bind_some]
    rfl
  · by_cases hidle : locks.pc t = .idle
    · rw [if_pos hidle] at hback ⊢
      refine h.step (t := t) ⟨fun u hu => (go_others hgo hu).1, fun u hu => (go_others hgo hu).2,
        fun u hu => Function.update_of_ne hu _ _, fun _ _ => rfl, Or.inl rfl⟩ hlock ?_ ?_ ?_
      · rw [IdeState.goto_pc]
        exact ⟨hback.1.lock, hback.1.channel⟩
      · rw [IdeState.goto_pc]
        exact hback.2
      · intro ha
        cases hawake.symm.trans ha
    · rw [if_neg hidle] at hback ⊢
      refine h.step (t := t) ⟨fun u hu => (go_others hgo hu).1, fun u hu => (go_others hgo hu).2,
        fun _ _ => rfl, fun _ _ => rfl, Or.inl rfl⟩ hlock hback ?_ ?_
      · intro hn hb
        exact absurd hb hn
      · intro ha
        cases hawake.symm.trans ha

/-- A pass through the loop of `sema_down` on `disk_done`. -/
theorem goDown_inv (h : IdeInv s) {x : Transfer} {n : UInt32} {cmd : Nat}
    (hpc : s.pc t = .down x n cmd) (hawake : s.asleep t = false) :
    ∃ s', s.goDown t (if x.write then .advance x n cmd else .busyWait x n cmd) = some s' ∧
      IdeInv s' := by
  have hat : s.At t (.down x n cmd) := hpc ▸ h.at_pc t
  have hb : (s.pc t).InBody := by
    rw [hpc]
    trivial
  have hlock : Between s.locks t 1 := hat.lock
  rcases hat.channel trivial with ⟨hout, hexp, hsema⟩ | ⟨hout, hexp, hsema, -, hraised⟩
  · -- the interrupt is still to come: the thread queues itself and sleeps
    rw [hawake] at hsema
    have hpass : semaDownPass s.channel.diskDone t = some (⟨0, [t]⟩, false) := by
      rw [hsema]
      rfl
    refine ⟨{ s.goto t (.down x n cmd) with
      channel := { s.channel with diskDone := ⟨0, [t]⟩ }
      asleep := Function.update s.asleep t true }, ?_, ?_⟩
    · have hsame : Function.update s.pc t (.down x n cmd) = s.pc := by
        rw [← hpc, Function.update_eq_self]
      simp only [IdeState.goDown, hpass, Option.bind_eq_bind, Option.bind_some]
      simp [IdeState.goto, hsame]
    · exact h.body_step hb (c := .down x n cmd) trivial _ true hlock
        (Or.inl ⟨hout, hexp, rfl⟩) fun _ => ⟨x, n, cmd, rfl⟩
  · -- the interrupt has come: the thread takes the 1 it left
    have hpass : semaDownPass s.channel.diskDone t = some (⟨0, []⟩, true) := by
      rw [hsema]
      rfl
    refine ⟨{ s.goto t (if x.write then .advance x n cmd else .busyWait x n cmd) with
      channel := { s.channel with diskDone := ⟨0, []⟩ } }, ?_, ?_⟩
    · simp only [IdeState.goDown, hpass, Option.bind_eq_bind, Option.bind_some]
      rfl
    · have hpassed : ({ s.channel with diskDone := ⟨0, []⟩ } : Channel).In t false (.passed cmd) :=
        ⟨⟨hout, hexp, rfl⟩, hraised⟩
      cases hw : x.write with
      | true => exact h.body_move hb hawake (c := .advance x n cmd) trivial _ hlock hpassed
      | false =>
        apply h.body_move hb hawake (c := .busyWait x n cmd) trivial _ hlock
        rw [IdePc.phase, hw]
        exact hpassed

theorem ideAcquire_inv (h : IdeInv s) {x : Transfer} (hpc : s.pc t = .acquire x)
    (hready : s.locks.status t = .ready) : ∃ s', s.goLock t (.loop x 0) = some s' ∧ IdeInv s' := by
  have hat : Acquiring s.locks t := by
    have hat := (h.at_pc t).lock
    rwa [hpc] at hat
  have hidle : s.locks.pc t ≠ .idle := by
    rcases hat.pc with hp | hp | hp | hp | hp | hp <;> rw [hp] <;> decide
  apply goLock_inv h hready hidle (by rw [hpc]; intro _ _ _ he; cases he)
  intro locks hgo
  rcases acquiring_go h.lock hat hgo with hacq | hheld
  · have hne : locks.pc t ≠ .idle := by
      rcases hacq.pc with hp | hp | hp | hp | hp | hp <;> rw [hp] <;> decide
    rw [if_neg hne, hpc]
    exact ⟨hacq, fun hb => hb.elim⟩
  · -- the thread has got the lock: no other is in the body, and the channel is at rest
    rw [if_pos hheld.pc]
    have hnone : ∀ u, ¬(s.pc u).InBody := by
      intro u hu
      obtain ⟨locks', hgo', hlock⟩ := lock_step h.lock (o := .go t) ⟨hready, hidle⟩ trivial
      cases hgo'.symm.trans hgo
      by_cases hut : u = t
      · rw [hut, hpc] at hu
        exact hu
      · refine hut (hlock.unique u t (inside_of_depth hlock ?_) (inside_of_depth hlock hheld.depth))
        rw [(go_others hgo hut).2]
        exact (h.at_pc u).lock.depth hu
    exact ⟨⟨hheld, fun _ => h.rest hnone⟩, fun hn => absurd trivial hn⟩

theorem ideRelease_inv (h : IdeInv s) (hpc : s.pc t = .release)
    (hready : s.locks.status t = .ready) : ∃ s', s.goLock t .outside = some s' ∧ IdeInv s' := by
  have hat : s.At t .release := hpc ▸ h.at_pc t
  have hrel : Releasing s.locks t := hat.lock
  have hidle : s.locks.pc t ≠ .idle := by
    rcases hrel.pc with hp | hp | hp | hp | hp | hp <;> rw [hp] <;> decide
  apply goLock_inv h hready hidle (by rw [hpc]; intro _ _ _ he; cases he)
  intro locks hgo
  rcases releasing_go h.lock hrel hgo with hrel' | hfree
  · have hne : locks.pc t ≠ .idle := by
      rcases hrel'.pc with hp | hp | hp | hp | hp | hp <;> rw [hp] <;> decide
    rw [if_neg hne, hpc]
    exact ⟨hrel', hat.channel⟩
  · rw [if_pos hfree.pc]
    exact ⟨⟨hfree, fun hb => hb.elim⟩, fun _ _ => hat.channel trivial⟩

/-- The loop is over, and the thread comes to `lock_release`. -/
theorem leave_inv (h : IdeInv s) {x : Transfer} {n : UInt32} (hpc : s.pc t = .loop x n)
    (hready : s.locks.status t = .ready) {locks : LockState}
    (hlocks : s.locks.step (.release t) = some locks) :
    IdeInv ({ s with locks }.goto t .release) := by
  have hat : s.At t (.loop x n) := hpc ▸ h.at_pc t
  have hheld : Between s.locks t 1 := hat.lock
  have hmay : s.locks.May (.release t) := ⟨hready, hheld.pc, by rw [hheld.depth]; decide⟩
  obtain ⟨locks', hlocks', hlock⟩ := lock_step h.lock hmay trivial
  cases hlocks'.symm.trans hlocks
  cases hlocks
  refine h.step (t := t) ⟨fun u hu => Function.update_of_ne hu _ _, fun _ _ => rfl,
    fun u hu => Function.update_of_ne hu _ _, fun _ _ => rfl, Or.inl rfl⟩ hlock ?_ ?_ ?_
  · rw [IdeState.goto_pc]
    exact ⟨⟨Or.inl (LockState.goto_pc ..), hheld.depth⟩, hat.channel⟩
  · intro hn
    rw [IdeState.goto_pc] at hn
    exact absurd trivial hn
  · intro ha
    have hawake := h.awake (t := t) (by rw [hpc]; intro _ _ _ he; cases he)
    cases hawake.symm.trans ha

/-- The command is written: it is the only one outstanding. -/
theorem command_inv (h : IdeInv s) {x : Transfer} {n : UInt32} (hpc : s.pc t = .command x n)
    (hawake : s.asleep t = false) :
    IdeInv { s.goto t (if x.write then .busyWait x n s.channel.issued
        else .down x n s.channel.issued) with
      channel := { s.channel with
        issued := s.channel.issued + 1
        outstanding := s.channel.issued :: s.channel.outstanding } } := by
  have hat : s.At t (.command x n) := hpc ▸ h.at_pc t
  have hlock : Between s.locks t 1 := hat.lock
  obtain ⟨hout, hexp, hsema⟩ := hat.channel trivial
  have hb : (s.pc t).InBody := by
    rw [hpc]
    trivial
  have hnext : ({ s.channel with
      issued := s.channel.issued + 1
      outstanding := s.channel.issued :: s.channel.outstanding } : Channel).In t false
      (.pending s.channel.issued) :=
    Or.inl ⟨congrArg (List.cons s.channel.issued) hout, hexp, hsema⟩
  cases hw : x.write with
  | true =>
    apply h.body_move hb hawake (c := .busyWait x n s.channel.issued) trivial _ hlock
    rw [IdePc.phase, hw]
    exact hnext
  | false =>
    exact h.body_move hb hawake (c := .down x n s.channel.issued) trivial _ hlock hnext

/-- **A thread executes its next statement**: the invariant is kept. -/
theorem go_inv (h : IdeInv s) (hmay : s.May (.go t)) (hgo : s.go t = some s') : IdeInv s' := by
  obtain ⟨hne, hawake, hready⟩ := hmay
  have hat := h.at_pc t
  have hch := hat.channel
  rw [hawake] at hch
  unfold IdeState.go at hgo
  cases hpc : s.pc t with
  | outside => exact absurd hpc hne
  | acquire x =>
    rw [hpc] at hgo
    obtain ⟨s₁, hs₁, hinv⟩ := ideAcquire_inv h hpc hready
    cases hs₁.symm.trans hgo
    exact hinv
  | release =>
    rw [hpc] at hgo
    obtain ⟨s₁, hs₁, hinv⟩ := ideRelease_inv h hpc hready
    cases hs₁.symm.trans hgo
    exact hinv
  | loop x n =>
    rw [hpc] at hgo hat hch
    by_cases hn : n < x.secCnt
    · simp only [if_pos hn, Option.bind_eq_bind, Option.bind_eq_some_iff, Option.pure_def,
        Option.some.injEq] at hgo
      obtain ⟨-, -, rfl⟩ := hgo
      exact h.body_move (by rw [hpc]; trivial) hawake (c := .expect x n) trivial s.channel
        hat.lock (hch trivial)
    · simp only [if_neg hn, Option.bind_eq_bind, Option.bind_eq_some_iff, Option.pure_def,
        Option.some.injEq] at hgo
      obtain ⟨locks, hlocks, rfl⟩ := hgo
      exact leave_inv h hpc hready hlocks
  | expect x n =>
    rw [hpc] at hgo hat hch
    simp only [Option.some.injEq] at hgo
    subst hgo
    obtain ⟨hout, -, hsema⟩ := hch trivial
    exact h.body_move (by rw [hpc]; trivial) hawake (c := .command x n) trivial _ hat.lock
      ⟨hout, rfl, hsema⟩
  | command x n =>
    rw [hpc] at hgo
    simp only [Option.some.injEq] at hgo
    subst hgo
    exact command_inv h hpc hawake
  | down x n cmd =>
    rw [hpc] at hgo
    obtain ⟨s₁, hs₁, hinv⟩ := goDown_inv h hpc hawake
    cases hs₁.symm.trans hgo
    exact hinv
  | busyWait x n cmd =>
    rw [hpc] at hgo hat hch
    simp only [Option.some.injEq] at hgo
    subst hgo
    exact h.body_move (by rw [hpc]; trivial) hawake (c := .sectors x n cmd) trivial s.channel
      hat.lock (hch trivial)
  | sectors x n cmd =>
    rw [hpc] at hgo hat hch
    simp only [Option.some.injEq] at hgo
    subst hgo
    have hch := hch trivial
    -- `ide_write` has its `sema_down` still to come, `ide_read` is through with it
    cases hw : x.write with
    | true =>
      rw [IdePc.phase, hw] at hch
      exact h.body_move (by rw [hpc]; trivial) hawake (c := .down x n cmd) trivial s.channel
        hat.lock hch
    | false =>
      rw [IdePc.phase, hw] at hch
      exact h.body_move (by rw [hpc]; trivial) hawake (c := .advance x n cmd) trivial s.channel
        hat.lock hch
  | advance x n cmd =>
    rw [hpc] at hgo hat hch
    simp only [Option.some.injEq] at hgo
    subst hgo
    exact h.body_move (by rw [hpc]; trivial) hawake (c := .loop x (n + secsOp x n)) trivial
      s.channel hat.lock (hch trivial).1

/-- A command that is outstanding has its thread: one that wrote it and has not gone
down for it. -/
theorem IdeInv.owner (h : IdeInv s) {cmd : Nat} (hcmd : cmd ∈ s.channel.outstanding) :
    ∃ t, (s.pc t).InBody ∧ (s.pc t).phase = .pending cmd ∧ s.channel.outstanding = [cmd] ∧
      s.channel.expectingIntr = true ∧
      s.channel.diskDone = ⟨0, if s.asleep t then [t] else []⟩ := by
  obtain ⟨t, hb⟩ : ∃ t, (s.pc t).InBody := by
    by_contra hnone
    have hrest := h.rest fun t hb => hnone ⟨t, hb⟩
    rw [hrest.1] at hcmd
    cases hcmd
  have hempty : s.channel.outstanding ≠ [] := by
    intro hout
    rw [hout] at hcmd
    cases hcmd
  have hch := (h.at_pc t).channel hb
  refine ⟨t, hb, ?_⟩
  cases hp : (s.pc t).phase with
  | rest =>
    rw [hp] at hch
    exact absurd hch.1 hempty
  | armed =>
    rw [hp] at hch
    exact absurd hch.1 hempty
  | passed c =>
    rw [hp] at hch
    exact absurd hch.1.1 hempty
  | pending c =>
    rw [hp] at hch
    rcases hch with ⟨hout, hexp, hsema⟩ | ⟨hout, -⟩
    · rw [hout, List.mem_singleton] at hcmd
      subst hcmd
      exact ⟨rfl, hout, hexp, hsema⟩
    · exact absurd hout hempty

/-- **An interrupt**: no assertion of `sema_up` or `thread_unblock` fails, and the
command's thread finds the value 1. -/
theorem intr_inv (h : IdeInv s) {cmd : Nat} (hcmd : cmd ∈ s.channel.outstanding) :
    ∃ s', s.intrHdHandler cmd = some s' ∧ IdeInv s' := by
  obtain ⟨t, hb, hphase, hout, hexp, hsema⟩ := h.owner hcmd
  let channel : Channel :=
    ⟨false, ⟨1, []⟩, s.channel.issued, s.channel.outstanding.erase cmd, cmd :: s.channel.raised⟩
  have hpend : channel.Pending t false cmd := by
    refine Or.inr ⟨?_, rfl, rfl, rfl, List.mem_cons_self⟩
    show s.channel.outstanding.erase cmd = []
    rw [hout, List.erase_cons_head]
  refine ⟨{ s with channel, asleep := Function.update s.asleep t false }, ?_, ?_⟩
  · cases ha : s.asleep t with
    | true =>
      have hup : semaUp s.channel.diskDone = some (⟨1, []⟩, some t) := by
        rw [hsema, ha]
        rfl
      simp only [IdeState.intrHdHandler, hexp, if_true, hup, Option.bind_eq_bind,
        Option.bind_some, ha, ensure_pos]
      rfl
    | false =>
      have hup : semaUp s.channel.diskDone = some (⟨1, []⟩, none) := by
        rw [hsema, ha]
        rfl
      have hsame : Function.update s.asleep t false = s.asleep := by
        rw [← ha, Function.update_eq_self]
      simp only [IdeState.intrHdHandler, hexp, if_true, hup, Option.bind_eq_bind,
        Option.bind_some, hsame]
      rfl
  · refine h.step (t := t) ⟨fun _ _ => rfl, fun _ _ => rfl, fun _ _ => rfl,
      fun u hu => Function.update_of_ne hu _ _, Or.inr hb⟩ h.lock
      ⟨(h.at_pc t).lock, fun _ => ?_⟩ (fun hn => absurd hb hn) fun ha => ?_
    · show channel.In t (Function.update s.asleep t false t) (s.pc t).phase
      rw [Function.update_self, hphase]
      exact hpend
    · have ha : Function.update s.asleep t false t = true := ha
      rw [Function.update_self] at ha
      cases ha

/-- A transfer begins. -/
theorem call_inv (h : IdeInv s) {x : Transfer} (hpc : s.pc t = .outside)
    (hcall : s.call t x = some s') : IdeInv s' := by
  simp only [IdeState.call, Option.bind_eq_bind, Option.bind_eq_some_iff, Option.pure_def,
    Option.some.injEq] at hcall
  obtain ⟨-, -, -, -, locks, hlocks, rfl⟩ := hcall
  have hat : Between s.locks t 0 := by
    have hat := (h.at_pc t).lock
    rwa [hpc] at hat
  have hready : s.locks.status t = .ready := by
    rcases h.lock.status t with hr | ⟨-, ha⟩
    · exact hr
    · cases hat.pc.symm.trans ha
  have hshallow : ShallowCall s.locks (.acquire t) := by
    show s.locks.depth t + 1 < 2 ^ 32
    rw [hat.depth]
    decide
  obtain ⟨locks', hlocks', hlock⟩ := lock_step h.lock (o := .acquire t) ⟨hready, hat.pc⟩ hshallow
  cases hlocks'.symm.trans hlocks
  cases hlocks
  refine h.step (t := t) ⟨fun u hu => Function.update_of_ne hu _ _, fun _ _ => rfl,
    fun u hu => Function.update_of_ne hu _ _, fun _ _ => rfl, Or.inl rfl⟩ hlock ?_ ?_ ?_
  · rw [IdeState.goto_pc]
    exact ⟨⟨Or.inl (LockState.goto_pc ..), hat.depth⟩, fun hb => hb.elim⟩
  · intro _ hb
    rw [hpc] at hb
    exact hb.elim
  · intro ha
    have hawake := h.awake (t := t) (by rw [hpc]; intro _ _ _ he; cases he)
    cases hawake.symm.trans ha

theorem ide_step (h : IdeInv s) {op : IdeOp} (hmay : s.May op) (hstep : s.step op = some s') :
    IdeInv s' := by
  cases op with
  | call t x => exact call_inv h hmay hstep
  | go t => exact go_inv h hmay hstep
  | intr cmd =>
    obtain ⟨s₁, hs₁, hinv⟩ := intr_inv h hmay
    cases hs₁.symm.trans hstep
    exact hinv

theorem ideInv_of_reachable (h : ideMachine.Reachable s) : IdeInv s := by
  refine Machine.Reach.invariant ?_ ?_ h
  · intro s hs
    rw [hs]
    exact ideInv_fresh
  · intro s op s' hinv hmay _ hstep
    exact ide_step hinv hmay hstep

end

/-! ## The handshake -/

/-- What the driver relies on. -/
structure Handshake (s : IdeState) : Prop where
  value : s.channel.diskDone.value = 0 ∨ s.channel.diskDone.value = 1
  /-- `sema_down(&disk_done)` passes its assertions, whichever thread comes to it -/
  down : ∀ t, s.May (.go t) → ∀ x n cmd, s.pc t = .down x n cmd →
    (semaDownPass s.channel.diskDone t).isSome
  /-- so do the `sema_down` and `sema_up` of the channel's lock -/
  lock : ∀ t, s.May (.go t) → (∃ x, s.pc t = .acquire x) ∨ s.pc t = .release → (s.go t).isSome
  /-- and the `sema_up(&disk_done)` of an interrupt, whenever it comes -/
  up : ∀ cmd ∈ s.channel.outstanding, (s.intrHdHandler cmd).isSome
  one : s.channel.outstanding.length ≤ 1
  /-- a thread is past the `sema_down` of a command only after its interrupt -/
  paired : ∀ t cmd, (s.pc t).InBody → (s.pc t).phase = .passed cmd →
    cmd ∈ s.channel.raised ∧ cmd ∉ s.channel.outstanding

/-- The channel is as the thread in the body has it, or at rest. -/
theorem IdeInv.bounds {s : IdeState} (h : IdeInv s) :
    (s.channel.diskDone.value = 0 ∨ s.channel.diskDone.value = 1) ∧
      s.channel.outstanding.length ≤ 1 := by
  have hrest : s.channel.AtRest → (s.channel.diskDone.value = 0 ∨
      s.channel.diskDone.value = 1) ∧ s.channel.outstanding.length ≤ 1 := by
    intro ⟨hout, _, hsema⟩
    rw [hout, hsema]
    exact ⟨Or.inl rfl, Nat.zero_le _⟩
  by_cases hb : ∃ t, (s.pc t).InBody
  case neg => exact hrest (h.rest fun t ht => hb ⟨t, ht⟩)
  obtain ⟨t, hb⟩ := hb
  have hch := (h.at_pc t).channel hb
  cases hp : (s.pc t).phase with
  | rest =>
    rw [hp] at hch
    exact hrest hch
  | passed c =>
    rw [hp] at hch
    exact hrest hch.1
  | armed =>
    rw [hp] at hch
    obtain ⟨hout, -, hsema⟩ := hch
    rw [hout, hsema]
    exact ⟨Or.inl rfl, Nat.zero_le _⟩
  | pending c =>
    rw [hp] at hch
    rcases hch with ⟨hout, -, hsema⟩ | ⟨hout, -, hsema, -⟩
    · rw [hout, hsema]
      exact ⟨Or.inl rfl, Nat.le_refl _⟩
    · rw [hout, hsema]
      exact ⟨Or.inr rfl, Nat.zero_le _⟩

/-- **The handshake holds** in every state of every run: any number of threads,
transfers of any length, interrupts at any time. -/
theorem disk_handshake (s : IdeState) (h : ideMachine.Reachable s) : Handshake s := by
  have hinv := ideInv_of_reachable h
  obtain ⟨hvalue, hone⟩ := hinv.bounds
  refine ⟨hvalue, ?_, ?_, ?_, hone, ?_⟩
  · intro t hmay x n cmd hpc
    obtain ⟨s', hs', -⟩ := goDown_inv hinv hpc hmay.2.1
    cases hpass : semaDownPass s.channel.diskDone t with
    | some r => rfl
    | none =>
      simp only [IdeState.goDown, hpass] at hs'
      cases hs'
  · intro t hmay hpc
    have hready := hmay.2.2
    unfold IdeState.go
    rcases hpc with ⟨x, hpc⟩ | hpc
    · obtain ⟨s', hs', -⟩ := ideAcquire_inv hinv hpc hready
      rw [hpc]
      exact Option.isSome_of_eq_some hs'
    · obtain ⟨s', hs', -⟩ := ideRelease_inv hinv hpc hready
      rw [hpc]
      exact Option.isSome_of_eq_some hs'
  · intro cmd hcmd
    obtain ⟨s', hs', -⟩ := intr_inv hinv hcmd
    exact Option.isSome_of_eq_some hs'
  · intro t cmd hb hphase
    have hch := (hinv.at_pc t).channel hb
    rw [hphase] at hch
    refine ⟨hch.2, ?_⟩
    rw [hch.1.1]
    exact List.not_mem_nil

/-- Thread 1 reads a sector and sleeps until its interrupt, while thread 2 comes to
the lock with a write. -/
def sharedOps : List IdeOp :=
  [.call 1 ⟨false, 7, 1⟩, .go 1, .go 1, .go 1, .go 1, .go 1, .go 1, .go 1, .go 1, .go 1,
    .call 2 ⟨true, 9, 2⟩, .go 2, .go 2, .intr 0, .go 1]

instance (s : IdeState) (op : IdeOp) : Decidable (ideMachine.may s op) := by
  cases op <;> unfold ideMachine IdeState.May <;> infer_instance

theorem disk_handshake_two_threads :
    ∃ s, ideMachine.follow (fun _ _ => True) .fresh sharedOps = some s ∧
      (s.pc 1).phase = .passed 0 ∧ s.locks.lock.semaphore.waiters = [2] ∧ Handshake s := by
  have hsome : (ideMachine.follow (fun _ _ => True) .fresh sharedOps).map
      (fun s => ((s.pc 1).phase, s.locks.lock.semaphore.waiters)) = some (.passed 0, [2]) := by
    decide +kernel
  obtain ⟨s, hs, he⟩ := Option.map_eq_some_iff.mp hsome
  have hreach : ideMachine.Reachable s := Machine.reach_of_follow (Machine.Reach.start rfl) hs
  exact ⟨s, hs, congrArg Prod.fst he, congrArg Prod.snd he, disk_handshake s hreach⟩

end OsCore.Device
