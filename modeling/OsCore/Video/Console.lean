import OsCore.Device.Ide
import OsCore.Video.Print

/-!
# The console (`device/console.c`)

`console_put_str` prints a string under the lock of the console, character by
character; `console_put_char` and `console_put_int` do the same with one character and
with a numeral. A thread may lose the processor between any two characters and at every
statement of `lock_acquire` and `lock_release`.

`log`, `printed` and `called` are ghosts: the strings that are through, what has been
printed of the one under way, and the calls of each thread. `ConsoleInv` says that the
screen has the strings of the log one behind the other with the part of the last one, and
that this part belongs to the one thread that has the lock. So no two strings are
mixed up, and none is lost (`console_serializes`).

The kernel prints without the lock while it starts, where there is one thread, and in
`cls_screen`; these are no part of the runs here.
-/

namespace OsCore.Device

open Lib Thread
open Print (Vga putChar putStr)

/-! ## The code -/

structure ConsoleState where
  consoleLock : LockState
  vga : Vga
  /-- what `put_str` has still before it -/
  rest : Nat → Option (List UInt8)
  message : Nat → List UInt8
  printed : List UInt8
  log : List (Nat × List UInt8)
  called : Nat → List (List UInt8)

namespace ConsoleState

variable (s : ConsoleState) (t : Nat)

/-- `console_put_str(str)`, up to the call of `console_acquire`. -/
def call (str : List UInt8) : Option ConsoleState := do
  let consoleLock ← s.consoleLock.step (.acquire t)
  return { s with
    consoleLock
    rest := Function.update s.rest t (some str)
    message := Function.update s.message t str
    called := Function.update s.called t (s.called t ++ [str]) }

/-- A statement of `lock_acquire` or `lock_release`. -/
def go : Option ConsoleState := do
  let consoleLock ← s.consoleLock.step (.go t)
  return { s with consoleLock }

/-- `put_char` of the next character. -/
def put : Option ConsoleState :=
  match s.rest t with
  | some (c :: rest) => do
    let vga ← putChar s.vga c
    return { s with
      vga
      rest := Function.update s.rest t (some rest)
      printed := s.printed ++ [c] }
  | _ => none

/-- `put_str` has come back: the call of `console_release`. -/
def release : Option ConsoleState := do
  let consoleLock ← s.consoleLock.step (.release t)
  return { s with
    consoleLock
    rest := Function.update s.rest t none
    printed := []
    log := s.log ++ [(t, s.message t)] }

end ConsoleState

inductive ConsoleOp
  | call (t : Nat) (str : List UInt8)
  | go (t : Nat)
  | put (t : Nat)
  | release (t : Nat)

def ConsoleState.step (s : ConsoleState) : ConsoleOp → Option ConsoleState
  | .call t str => s.call t str
  | .go t => s.go t
  | .put t => s.put t
  | .release t => s.release t

/-- The thread is not in a call of the lock, and may run. -/
def ConsoleState.Idle (s : ConsoleState) (t : Nat) : Prop :=
  s.consoleLock.status t = .ready ∧ s.consoleLock.pc t = .idle

def ConsoleState.May (s : ConsoleState) : ConsoleOp → Prop
  | .call t _ => s.Idle t ∧ s.rest t = none
  | .go t => s.consoleLock.May (.go t)
  | .put t => s.Idle t ∧ s.rest t ≠ none ∧ s.rest t ≠ some []
  | .release t => s.Idle t ∧ s.rest t = some []

/-- After `console_init`, with the screen `vga`. -/
def ConsoleState.fresh (vga : Vga) : ConsoleState where
  consoleLock := .fresh
  vga
  rest := fun _ => none
  message := fun _ => []
  printed := []
  log := []
  called := fun _ => []

def consoleMachine (vga : Vga) : Machine ConsoleState ConsoleOp where
  start s := s = .fresh vga
  may := ConsoleState.May
  step := ConsoleState.step

/-! ## The invariant -/

/-- In `put_str`. -/
structure ConsoleState.Printing (s : ConsoleState) (t : Nat) : Prop where
  lock : Between s.consoleLock t 1
  rest : (s.rest t).isSome

/-- Where a thread is, and what it has still to print. -/
def ConsoleState.At (s : ConsoleState) (t : Nat) : Option (List UInt8) → Prop
  | none => Releasing s.consoleLock t ∨ Between s.consoleLock t 0
  | some rest => (Acquiring s.consoleLock t ∧ s.message t = rest) ∨
      (Between s.consoleLock t 1 ∧ s.message t = s.printed ++ rest)

/-- The strings of `t` that are through. -/
def ConsoleState.through (s : ConsoleState) (t : Nat) : List (List UInt8) :=
  (s.log.filter fun e => e.1 = t).map Prod.snd

/-- The string of `t` that is not. -/
def ConsoleState.underWay (s : ConsoleState) (t : Nat) : List (List UInt8) :=
  if (s.rest t).isSome then [s.message t] else []

structure ConsoleInv (vga : Vga) (s : ConsoleState) : Prop where
  lock : LockInv s.consoleLock
  at_rest : ∀ t, s.At t (s.rest t)
  screen : putStr vga (s.log.flatMap Prod.snd ++ s.printed) = some s.vga
  alone : (∀ t, ¬s.Printing t) → s.printed = []
  calls : ∀ t, s.through t ++ s.underWay t = s.called t

theorem consoleInv_fresh (vga : Vga) : ConsoleInv vga (.fresh vga) where
  lock := lockInv_fresh
  at_rest := fun _ => Or.inr ⟨rfl, rfl⟩
  screen := rfl
  alone := fun _ => rfl
  calls := fun _ => rfl

section

variable {vga : Vga} {s s' : ConsoleState} {t u : Nat}

/-- Not in the middle of `lock_acquire`, and not in the middle of `lock_release`. -/
theorem not_acquiring_of_idle {l : LockState} (h : l.pc t = .idle) : ¬Acquiring l t := by
  intro ha
  have hpc := ha.pc
  rw [h] at hpc
  rcases hpc with hp | hp | hp | hp | hp | hp <;> cases hp

theorem not_releasing_of_idle {l : LockState} (h : l.pc t = .idle) : ¬Releasing l t := by
  intro ha
  have hpc := ha.pc
  rw [h] at hpc
  rcases hpc with hp | hp | hp | hp | hp | hp <;> cases hp

/-- One thread holds the lock. -/
theorem ConsoleInv.unique (h : ConsoleInv vga s) (ht : s.consoleLock.depth t = 1)
    (hu : s.consoleLock.depth u = 1) : t = u :=
  h.lock.unique t u (inside_of_depth h.lock ht) (inside_of_depth h.lock hu)

/-- What a step of another thread leaves alone. -/
theorem ConsoleState.At.congr {r : Option (List UInt8)} (h : s.At u r)
    (hpc : s'.consoleLock.pc u = s.consoleLock.pc u)
    (hdepth : s'.consoleLock.depth u = s.consoleLock.depth u) (hmsg : s'.message u = s.message u)
    (hprinted : s.consoleLock.depth u = 1 → s'.printed = s.printed) : s'.At u r := by
  cases r with
  | none =>
    rcases h with hr | hb
    · exact Or.inl ⟨hpc ▸ hr.pc, hdepth.trans hr.depth⟩
    · exact Or.inr ⟨hpc.trans hb.pc, hdepth.trans hb.depth⟩
  | some r =>
    rcases h with ⟨ha, hm⟩ | ⟨hb, hm⟩
    · exact Or.inl ⟨⟨hpc ▸ ha.pc, hdepth.trans ha.depth⟩, hmsg.trans hm⟩
    · refine Or.inr ⟨⟨hpc.trans hb.pc, hdepth.trans hb.depth⟩, ?_⟩
      rw [hmsg, hprinted hb.depth, hm]

/-! ## The steps -/

/-- A thread that is in no call of the lock. -/
theorem ConsoleInv.between (h : ConsoleInv vga s) (hidle : s.Idle t) :
    (s.rest t = none → Between s.consoleLock t 0) ∧
      ∀ r, s.rest t = some r → Between s.consoleLock t 1 ∧ s.message t = s.printed ++ r := by
  have hat := h.at_rest t
  constructor
  · intro hr
    rw [hr] at hat
    exact hat.resolve_left (not_releasing_of_idle hidle.2)
  · intro r hr
    rw [hr] at hat
    exact hat.resolve_left fun ha => not_acquiring_of_idle hidle.2 ha.1

theorem call_console (h : ConsoleInv vga s) (hidle : s.Idle t) (hrest : s.rest t = none)
    {str : List UInt8} (hstep : s.call t str = some s') : ConsoleInv vga s' := by
  have hout := (h.between hidle).1 hrest
  have hdepth := hout.depth
  obtain ⟨l, hl, hlock⟩ := lock_step (o := .acquire t) h.lock hidle (by
    change s.consoleLock.depth t + 1 < 2 ^ 32
    omega)
  cases hl
  cases hstep
  refine ⟨hlock, fun u => ?_, h.screen, fun hno => h.alone fun u hu => ?_, fun u => ?_⟩
  · by_cases hut : u = t
    · rw [hut]
      change ConsoleState.At _ t (Function.update s.rest t (some str) t)
      rw [Function.update_self]
      refine Or.inl ⟨⟨Or.inl ?_, hdepth⟩, ?_⟩
      · exact Function.update_self t Pc.testHolder s.consoleLock.pc
      · exact Function.update_self t str s.message
    · change ConsoleState.At _ u (Function.update s.rest t (some str) u)
      rw [Function.update_of_ne hut]
      exact (h.at_rest u).congr (Function.update_of_ne hut _ _) rfl (Function.update_of_ne hut _ _)
        fun _ => rfl
  · have hut : u ≠ t := by
      intro heq
      rw [heq] at hu
      have hsome := hu.rest
      rw [hrest] at hsome
      cases hsome
    refine hno u ⟨⟨?_, hu.lock.depth⟩, ?_⟩
    · exact (Function.update_of_ne hut Pc.testHolder s.consoleLock.pc).trans hu.lock.pc
    · change (Function.update s.rest t (some str) u).isSome
      rw [Function.update_of_ne hut]
      exact hu.rest
  · have hcalls := h.calls u
    unfold ConsoleState.underWay at hcalls ⊢
    change ConsoleState.through s u ++ (if (Function.update s.rest t (some str) u).isSome then
      [Function.update s.message t str u] else []) =
      Function.update s.called t (s.called t ++ [str]) u
    by_cases hut : u = t
    · rw [hut, Function.update_self, Function.update_self, Function.update_self]
      rw [hut, hrest] at hcalls
      rw [← hcalls]
      simp
    · rw [Function.update_of_ne hut, Function.update_of_ne hut, Function.update_of_ne hut]
      exact hcalls

theorem go_console (h : ConsoleInv vga s) (hmay : s.consoleLock.May (.go t))
    (hstep : s.go t = some s') : ConsoleInv vga s' := by
  obtain ⟨l, hl, hs'⟩ := Option.bind_eq_some_iff.mp hstep
  cases hs'
  obtain ⟨l', hl', hlock⟩ := lock_step h.lock hmay trivial
  cases hl.symm.trans hl'
  have hgo : s.consoleLock.go t = some l := hl
  have hnot : ∀ n, ¬Between s.consoleLock t n := fun n hb => hmay.2 hb.pc
  -- a thread that prints is another one, and goes on
  have hothers : ∀ u, s.Printing u → ConsoleState.Printing { s with consoleLock := l } u := by
    intro u hu
    have hut : u ≠ t := by
      intro heq
      rw [heq] at hu
      exact hnot 1 hu.lock
    obtain ⟨hpc, hdepth⟩ := go_others hgo hut
    exact ⟨⟨hpc.trans hu.lock.pc, hdepth.trans hu.lock.depth⟩, hu.rest⟩
  refine ⟨hlock, fun u => ?_, h.screen, fun hno => h.alone fun u hu => hno u (hothers u hu),
    h.calls⟩
  by_cases hut : u = t
  · have hat := h.at_rest t
    rw [hut]
    change ConsoleState.At { s with consoleLock := l } t (s.rest t)
    cases hr : s.rest t with
    | none =>
      rw [hr] at hat
      exact releasing_go h.lock (hat.resolve_right (hnot 0)) hgo
    | some r =>
      rw [hr] at hat
      obtain ⟨ha, hm⟩ := hat.resolve_right fun hb => hnot 1 hb.1
      refine (acquiring_go h.lock ha hgo).imp (fun ha' => ⟨ha', hm⟩) fun hb => ⟨hb, ?_⟩
      -- the lock was free
      have hnone : s.printed = [] := by
        apply h.alone
        intro v hv
        have hvt : v = t := hlock.unique v t (inside_of_depth hlock (hothers v hv).lock.depth)
          (inside_of_depth hlock hb.depth)
        rw [hvt] at hv
        exact hnot 1 hv.lock
      change s.message t = s.printed ++ r
      rw [hnone, hm, List.nil_append]
  · obtain ⟨hpc, hdepth⟩ := go_others hgo hut
    exact (h.at_rest u).congr hpc hdepth rfl fun _ => rfl

theorem put_console (h : ConsoleInv vga s) (hidle : s.Idle t) {c : UInt8} {r : List UInt8}
    (hrest : s.rest t = some (c :: r)) (hstep : s.put t = some s') : ConsoleInv vga s' := by
  obtain ⟨hb, hm⟩ := (h.between hidle).2 _ hrest
  unfold ConsoleState.put at hstep
  rw [hrest] at hstep
  obtain ⟨v, hv, hs'⟩ := Option.bind_eq_some_iff.mp hstep
  cases hs'
  have hsome : (Function.update s.rest t (some r) t).isSome := by
    rw [Function.update_self]
    rfl
  refine ⟨h.lock, fun u => ?_, ?_, fun hno => absurd ⟨hb, hsome⟩ (hno t), fun u => ?_⟩
  · change ConsoleState.At _ u (Function.update s.rest t (some r) u)
    by_cases hut : u = t
    · rw [hut, Function.update_self]
      refine Or.inr ⟨hb, ?_⟩
      change s.message t = s.printed ++ [c] ++ r
      rw [hm, List.append_assoc, List.singleton_append]
    · rw [Function.update_of_ne hut]
      exact (h.at_rest u).congr rfl rfl rfl fun hu => absurd (h.unique hu hb.depth) hut
  · change putStr vga (s.log.flatMap Prod.snd ++ (s.printed ++ [c])) = some v
    rw [← List.append_assoc, putStr, List.foldlM_append]
    have hscreen := h.screen
    rw [putStr] at hscreen
    rw [hscreen]
    change (putChar s.vga c).bind (fun v => some v) = some v
    rw [hv, Option.bind_some]
  · have hcalls := h.calls u
    unfold ConsoleState.underWay at hcalls ⊢
    change ConsoleState.through s u ++ (if (Function.update s.rest t (some r) u).isSome then
      [s.message u] else []) = s.called u
    by_cases hut : u = t
    · rw [hut] at hcalls ⊢
      rw [Function.update_self]
      rw [hrest] at hcalls
      exact hcalls
    · rw [Function.update_of_ne hut]
      exact hcalls

theorem release_console (h : ConsoleInv vga s) (hidle : s.Idle t) (hrest : s.rest t = some [])
    (hstep : s.release t = some s') : ConsoleInv vga s' := by
  obtain ⟨hb, hm⟩ := (h.between hidle).2 _ hrest
  rw [List.append_nil] at hm
  have hdepth := hb.depth
  obtain ⟨l, hl, hlock⟩ := lock_step (o := .release t) h.lock ⟨hidle.1, hidle.2, by omega⟩ trivial
  cases hl
  cases hstep
  refine ⟨hlock, fun u => ?_, ?_, fun _ => rfl, fun u => ?_⟩
  · change ConsoleState.At _ u (Function.update s.rest t none u)
    by_cases hut : u = t
    · rw [hut, Function.update_self]
      refine Or.inl ⟨Or.inl ?_, hdepth⟩
      exact Function.update_self t Pc.checkHolder s.consoleLock.pc
    · rw [Function.update_of_ne hut]
      exact (h.at_rest u).congr (Function.update_of_ne hut _ _) rfl rfl fun hu =>
        absurd (h.unique hu hdepth) hut
  · change putStr vga ((s.log ++ [(t, s.message t)]).flatMap Prod.snd ++ []) = some s.vga
    rw [List.append_nil, List.flatMap_append, List.flatMap_singleton, hm]
    exact h.screen
  · have hcalls := h.calls u
    unfold ConsoleState.underWay ConsoleState.through at hcalls ⊢
    change ((s.log ++ [(t, s.message t)]).filter fun e => e.1 = u).map Prod.snd ++
      (if (Function.update s.rest t none u).isSome then [s.message u] else []) = s.called u
    by_cases hut : u = t
    · rw [hut] at hcalls ⊢
      rw [hrest] at hcalls
      rw [Function.update_self, ← hcalls]
      simp
    · have htu : ¬t = u := fun heq => hut heq.symm
      rw [Function.update_of_ne hut, ← hcalls]
      simp [htu]

theorem console_step (h : ConsoleInv vga s) {op : ConsoleOp} (hmay : s.May op)
    (hstep : s.step op = some s') : ConsoleInv vga s' := by
  cases op with
  | call t str => exact call_console h hmay.1 hmay.2 hstep
  | go t => exact go_console h hmay hstep
  | put t =>
    obtain ⟨hidle, hsome, hne⟩ := hmay
    cases hrest : s.rest t with
    | none => exact absurd hrest hsome
    | some str =>
      cases str with
      | nil => exact absurd hrest hne
      | cons c r => exact put_console h hidle hrest hstep
  | release t => exact release_console h hmay.1 hmay.2 hstep

theorem consoleInv_of_reachable (h : (consoleMachine vga).Reachable s) : ConsoleInv vga s := by
  refine Machine.Reach.invariant ?_ ?_ h
  · intro s hs
    rw [hs]
    exact consoleInv_fresh vga
  · intro s op s' hinv hmay _ hstep
    exact console_step hinv hmay hstep

end

/-! ## What the screen shows -/

/-- What the lock of the console is for. -/
structure Serialized (vga : Vga) (s : ConsoleState) : Prop where
  /-- the strings that are through, whole and in a row, and a part of one more -/
  screen : putStr vga (s.log.flatMap Prod.snd ++ s.printed) = some s.vga
  /-- whose that part is -/
  part : s.printed ≠ [] → ∃ t r, s.rest t = some r ∧ s.message t = s.printed ++ r
  /-- each thread's strings are in the order of its calls, none twice and none missing -/
  calls : ∀ t, s.through t ++ s.underWay t = s.called t
  /-- nothing fails but a `put_char` -/
  asserts : ∀ op, s.May op → (∀ t, op ≠ .put t) → (s.step op).isSome

/-- **Strings are not mixed up on the console**, in any run of any number of threads. -/
theorem console_serializes (vga : Vga) (s : ConsoleState)
    (h : (consoleMachine vga).Reachable s) : Serialized vga s := by
  have hinv := consoleInv_of_reachable h
  refine ⟨hinv.screen, fun hne => ?_, hinv.calls, fun op hmay hput => ?_⟩
  · by_contra hno
    refine hne (hinv.alone fun t ht => hno ?_)
    obtain ⟨r, hr⟩ := Option.isSome_iff_exists.mp ht.rest
    have hat := hinv.at_rest t
    rw [hr] at hat
    exact ⟨t, r, hr, (hat.resolve_left fun ha => not_acquiring_of_idle ht.lock.pc ha.1).2⟩
  · cases op with
    | call t str => rfl
    | go t =>
      obtain ⟨l, hl, -⟩ := lock_step (o := .go t) hinv.lock hmay trivial
      change (Option.bind (s.consoleLock.step (.go t)) _).isSome
      rw [hl]
      rfl
    | put t => exact absurd rfl (hput t)
    | release t => rfl

instance (vga : Vga) (s : ConsoleState) (op : ConsoleOp) :
    Decidable ((consoleMachine vga).may s op) := by
  cases op <;> unfold consoleMachine ConsoleState.May ConsoleState.Idle <;> infer_instance

/-- Thread 1 prints `ok`, and loses the processor to thread 2 behind the first letter. -/
def contendedPrints : List ConsoleOp :=
  [.call 1 [0x6f, 0x6b], .go 1, .go 1, .go 1, .go 1, .go 1, .put 1, .call 2 [0x21], .go 2, .go 2]

theorem console_serializes_contended :
    ∃ s, (consoleMachine ⟨Mem.zero, 0, fun _ => 0⟩).follow (fun _ _ => True)
        (.fresh ⟨Mem.zero, 0, fun _ => 0⟩) contendedPrints = some s ∧
      s.printed = [0x6f] ∧ s.consoleLock.lock.semaphore.waiters = [2] ∧
      Serialized ⟨Mem.zero, 0, fun _ => 0⟩ s := by
  have hsome : ((consoleMachine ⟨Mem.zero, 0, fun _ => 0⟩).follow (fun _ _ => True)
      (.fresh ⟨Mem.zero, 0, fun _ => 0⟩) contendedPrints).map
      (fun s => (s.printed, s.consoleLock.lock.semaphore.waiters)) = some ([0x6f], [2]) := by
    decide +kernel
  obtain ⟨s, hs, he⟩ := Option.map_eq_some_iff.mp hsome
  have hreach : (consoleMachine ⟨Mem.zero, 0, fun _ => 0⟩).Reachable s :=
    Machine.reach_of_follow (Machine.Reach.start rfl) hs
  exact ⟨s, hs, congrArg Prod.fst he, congrArg Prod.snd he, console_serializes _ s hreach⟩

end OsCore.Device
