import OsCore.Thread.Scheduler

/-!
# Every ready task has its turn

Four things happen to the ready list: a task whose time is up, or that yields, goes to
its end, a new task goes to its end, the first task is taken off it, and a task that is
woken up goes to its *front*. So tasks that wake each other up again and again overtake
one that is ready all the time, and the place in the queue is no bound on how long it
waits.

What bounds it is the time slices. A task in front of `c`, asleep, or running can use up
the ticks it has left; at the tick after that it is behind `c`, and it gets no new ones
before. `waiting` adds them up: no operation makes it larger, and each timer interrupt
makes it smaller, until `c` runs (`ready_has_turn`).
-/

namespace OsCore.Thread

open Lib

/-! ## Who is to run before `c` -/

/-- All tasks but `c` and the ones behind it. -/
def before (s : Sched) (c : Nat) (back : List Nat) : Finset Nat :=
  s.allList.toFinset.filter fun t => t ≠ c ∧ t ∉ back

/-- The timer interrupts that they can use up. -/
def waiting (s : Sched) (c : Nat) (back : List Nat) : Nat :=
  ∑ t ∈ before s c back, (s.ticks t + 1)

section

variable {s s' : Sched} {c t : Nat} {front back back' : List Nat}

theorem mem_before : t ∈ before s c back ↔ t ∈ s.allList ∧ t ≠ c ∧ t ∉ back := by
  rw [before, Finset.mem_filter, List.mem_toFinset]

/-- No task more, and no more ticks. -/
theorem waiting_le (hsub : before s' c back' ⊆ before s c back)
    (hticks : ∀ t ∈ before s' c back', s'.ticks t ≤ s.ticks t) :
    waiting s' c back' ≤ waiting s c back :=
  calc waiting s' c back' ≤ ∑ t ∈ before s' c back', (s.ticks t + 1) :=
        Finset.sum_le_sum fun t ht => Nat.succ_le_succ (hticks t ht)
    _ ≤ waiting s c back := Finset.sum_le_sum_of_subset hsub

/-- A task that has no tick left goes away. -/
theorem waiting_leave (ht : t ∈ before s c back)
    (hsub : before s' c back' ⊆ (before s c back).erase t)
    (hticks : ∀ u ∈ before s' c back', s'.ticks u ≤ s.ticks u) :
    waiting s' c back' + 1 ≤ waiting s c back := by
  have hsum := Finset.add_sum_erase _ (fun u => s.ticks u + 1) ht
  have hle : waiting s' c back' ≤ ∑ u ∈ (before s c back).erase t, (s.ticks u + 1) :=
    calc waiting s' c back' ≤ ∑ u ∈ before s' c back', (s.ticks u + 1) :=
          Finset.sum_le_sum fun u hu => Nat.succ_le_succ (hticks u hu)
      _ ≤ _ := Finset.sum_le_sum_of_subset hsub
  change s.ticks t + 1 + _ = waiting s c back at hsum
  omega

/-- A task uses up a tick. -/
theorem waiting_tick (ht : t ∈ before s c back) (hpos : s.ticks t ≠ 0) :
    waiting { s with ticks := Function.update s.ticks t (s.ticks t - 1) } c back + 1 ≤
      waiting s c back := by
  refine Nat.succ_le_of_lt (Finset.sum_lt_sum (fun u _ => ?_) ⟨t, ht, ?_⟩)
  · by_cases hu : u = t
    · rw [hu]
      simp
    · simp [hu]
  · simp
    omega

/-! ## `schedule` -/

theorem switchToNext_queue (h : switchToNext s = some s') (hq : s.readyList = front ++ c :: back)
    (hne : s'.cur ≠ c) : (∃ front', s'.readyList = front' ++ c :: back) ∧ s'.allList = s.allList ∧
      s'.ticks = s.ticks := by
  unfold switchToNext at h
  rw [hq] at h
  cases front with
  | nil =>
    cases h
    exact absurd rfl hne
  | cons next front =>
    cases h
    exact ⟨⟨front, rfl⟩, rfl, rfl⟩

/-- The idle thread is not needed where somebody is ready. -/
theorem wakeIdle_queue (hq : s.readyList = front ++ c :: back) : wakeIdle s = some s := by
  rw [wakeIdle, if_neg]
  rw [hq]
  exact List.append_ne_nil_of_right_ne_nil _ (List.cons_ne_nil _ _)

/-- A running task whose time is up goes behind `c`. -/
theorem schedule_running (h : schedule s = some s') (hrun : s.status s.cur = .running)
    (hq : s.readyList = front ++ c :: back) (hne : s'.cur ≠ c) :
    (∃ front', s'.readyList = front' ++ c :: (back ++ [s.cur])) ∧ s'.allList = s.allList ∧
      s'.ticks = Function.update s.ticks s.cur (s.priority s.cur) := by
  obtain ⟨-, -, h⟩ := Option.bind_eq_some_iff.mp h
  obtain ⟨s1, h1, h⟩ := Option.bind_eq_some_iff.mp h
  obtain ⟨s2, h2, h⟩ := Option.bind_eq_some_iff.mp h
  rw [requeue, if_pos hrun] at h1
  obtain ⟨-, -, h1⟩ := Option.bind_eq_some_iff.mp h1
  cases h1
  have hq1 : s.readyList ++ [s.cur] = front ++ c :: (back ++ [s.cur]) := by
    rw [hq, List.append_assoc, List.cons_append]
  rw [wakeIdle_queue hq1] at h2
  cases h2
  exact switchToNext_queue h hq1 hne

/-- A task that does not run any more has gone where it is already. -/
theorem schedule_stopped (h : schedule s = some s') (hrun : s.status s.cur ≠ .running)
    (hq : s.readyList = front ++ c :: back) (hne : s'.cur ≠ c) :
    (∃ front', s'.readyList = front' ++ c :: back) ∧ s'.allList = s.allList ∧
      s'.ticks = s.ticks := by
  obtain ⟨-, -, h⟩ := Option.bind_eq_some_iff.mp h
  obtain ⟨s1, h1, h⟩ := Option.bind_eq_some_iff.mp h
  obtain ⟨s2, h2, h⟩ := Option.bind_eq_some_iff.mp h
  rw [requeue, if_neg hrun] at h1
  cases h1
  rw [wakeIdle_queue hq] at h2
  cases h2
  exact switchToNext_queue h hq hne

/-! ## The operations -/

/-- The place of `c` after a step, with the ticks left. -/
def Advances (s s' : Sched) (c : Nat) (back : List Nat) (used : Nat) : Prop :=
  ∃ front' back', s'.readyList = front' ++ c :: back' ∧
    waiting s' c back' + used ≤ waiting s c back

theorem Sched.Inv.cur_before (h : s.Inv) (hq : s.readyList = front ++ c :: back) :
    s.cur ∈ before s c back := by
  have hn := h.cur_not_ready
  rw [hq, List.mem_append, List.mem_cons, not_or, not_or] at hn
  exact mem_before.mpr ⟨h.cur_mem, hn.2.1, hn.2.2⟩

theorem timer_advances (h : s.Inv) (hq : s.readyList = front ++ c :: back)
    (hs : intrTimerHandler s = some s') (hne : s'.cur ≠ c) : Advances s s' c back 1 := by
  have hcur := h.cur_before hq
  unfold intrTimerHandler at hs
  split at hs
  next hzero =>
    have hq' : (intrDisable s).readyList = front ++ c :: back := hq
    obtain ⟨⟨front', hfront⟩, hall, hticks⟩ := schedule_running hs h.cur_running hq' hne
    refine ⟨front', back ++ [s.cur], hfront, waiting_leave hcur (fun u hu => ?_) fun u hu => ?_⟩
    · obtain ⟨hm, huc, hback⟩ := mem_before.mp hu
      rw [List.mem_append, not_or, List.mem_singleton] at hback
      rw [hall] at hm
      exact Finset.mem_erase.mpr ⟨hback.2, mem_before.mpr ⟨hm, huc, hback.1⟩⟩
    · obtain ⟨-, -, hback⟩ := mem_before.mp hu
      rw [List.mem_append, not_or, List.mem_singleton] at hback
      rw [hticks]
      exact Nat.le_of_eq (Function.update_of_ne hback.2 _ _)
  next hpos =>
    cases hs
    exact ⟨front, back, hq, waiting_tick hcur hpos⟩

/-- What has gone behind `c`, or from the list, and who has got no ticks. -/
theorem advances_of_sub {front' back' : List Nat} (hq' : s'.readyList = front' ++ c :: back')
    (hall : ∀ u ∈ s'.allList, u ∉ back' → u ∈ s.allList) (hback : ∀ u ∈ back, u ∈ back')
    (hticks : ∀ u, u ∉ back' → s'.ticks u = s.ticks u) : Advances s s' c back 0 := by
  refine ⟨front', back', hq', waiting_le (fun u hu => ?_) fun u hu => ?_⟩
  · obtain ⟨hm, huc, hb⟩ := mem_before.mp hu
    exact mem_before.mpr ⟨hall u hm hb, huc, fun hub => hb (hback u hub)⟩
  · exact Nat.le_of_eq (hticks u (mem_before.mp hu).2.2)

theorem yield_advances (hq : s.readyList = front ++ c :: back)
    (hs : threadYield s = some s') (hne : s'.cur ≠ c) : Advances s s' c back 0 := by
  obtain ⟨s1, h1, hs⟩ := Option.bind_eq_some_iff.mp hs
  obtain ⟨-, -, h1⟩ := Option.bind_eq_some_iff.mp h1
  cases h1
  have hq1 : s.readyList ++ [s.cur] = front ++ c :: (back ++ [s.cur]) := by
    rw [hq, List.append_assoc, List.cons_append]
  have hready : Function.update s.status s.cur TaskStatus.ready s.cur ≠ .running := by
    rw [Function.update_self]
    decide
  obtain ⟨⟨front', hfront⟩, hall, hticks⟩ := schedule_stopped hs hready hq1 hne
  refine advances_of_sub hfront (fun u hu _ => hall ▸ hu) (fun u hu => ?_) fun u _ => ?_
  · exact List.mem_append_left _ hu
  · rw [hticks]
    rfl

theorem block_advances {stat : TaskStatus} (hst : stat.Asleep)
    (hq : s.readyList = front ++ c :: back) (hs : threadBlock s stat = some s')
    (hne : s'.cur ≠ c) : Advances s s' c back 0 := by
  obtain ⟨s1, h1, hs⟩ := Option.bind_eq_some_iff.mp hs
  obtain ⟨-, -, h1⟩ := Option.bind_eq_some_iff.mp h1
  cases h1
  have hstopped : Function.update s.status s.cur stat s.cur ≠ .running := by
    rw [Function.update_self]
    exact hst.ne_running
  have hq' : (intrDisable s).readyList = front ++ c :: back := hq
  obtain ⟨⟨front', hfront⟩, hall, hticks⟩ := schedule_stopped hs hstopped hq' hne
  refine advances_of_sub hfront (fun u hu _ => hall ▸ hu) (fun u hu => hu) fun u _ => ?_
  rw [hticks]
  rfl

theorem unblock_advances (h : s.Inv) (hmay : s.May (.unblock t))
    (hq : s.readyList = front ++ c :: back) (hs : threadUnblock s t = some s') :
    Advances s s' c back 0 := by
  obtain ⟨he, -⟩ := threadUnblock_spec h.toWf hmay.1 hmay.2
  cases he.symm.trans hs
  have hq' : t :: s.readyList = (t :: front) ++ c :: back := congrArg (t :: ·) hq
  exact advances_of_sub hq' (fun u hu _ => hu) (fun u hu => hu) fun _ _ => rfl

theorem start_advances {prio : Nat} (hq : s.readyList = front ++ c :: back)
    (hs : threadStart s t prio = some s') : Advances s s' c back 0 := by
  obtain ⟨-, -, hs⟩ := Option.bind_eq_some_iff.mp hs
  obtain ⟨-, -, hs⟩ := Option.bind_eq_some_iff.mp hs
  cases hs
  have hq' : s.readyList ++ [t] = front ++ c :: (back ++ [t]) := by
    rw [hq, List.append_assoc, List.cons_append]
  refine advances_of_sub hq' (fun u hu hback => ?_) (fun u hu => List.mem_append_left _ hu)
    fun u hback => ?_
  · rw [List.mem_append, not_or] at hback
    exact (List.mem_append.mp hu).resolve_right hback.2
  · rw [List.mem_append, not_or, List.mem_singleton] at hback
    exact Function.update_of_ne hback.2 _ _

theorem exit_advances (h : s.Inv) {needSchedule : Bool} (hmay : s.May (.exit t needSchedule))
    (hq : s.readyList = front ++ c :: back) (hs : threadExit s t needSchedule = some s')
    (hne : s'.cur ≠ c) : Advances s s' c back 0 := by
  have hsub : ∀ u ∈ s.allList.erase t, u ∉ back → u ∈ s.allList := fun u hu _ =>
    List.mem_of_mem_erase hu
  rcases hmay with ⟨-, hhang, rfl⟩ | ⟨rfl, -, rfl⟩
  · have hn : t ∉ s.readyList := h.not_mem_ready (by rw [hhang]; decide)
    simp only [threadExit, removeTask, if_neg hn, Bool.false_eq_true, if_false,
      Option.some.injEq] at hs
    subst hs
    exact advances_of_sub hq hsub (fun u hu => hu) fun _ _ => rfl
  · have hn := h.cur_not_ready
    simp only [threadExit, removeTask, if_neg hn, if_true] at hs
    have hdied : Function.update s.status s.cur TaskStatus.died s.cur ≠ .running := by
      rw [Function.update_self]
      decide
    obtain ⟨⟨front', hfront⟩, hall, hticks⟩ := schedule_stopped hs hdied hq hne
    have hall' : s'.allList = s.allList.erase s.cur := hall
    refine advances_of_sub hfront (fun u hu => hsub u (hall' ▸ hu)) (fun u hu => hu) fun u _ => ?_
    rw [hticks]

def SchedOp.isTimer : SchedOp → Bool
  | .timer => true
  | _ => false

/-- **One operation.** -/
theorem step_advances (h : s.Inv) {op : SchedOp} (hmay : s.May op)
    (hq : s.readyList = front ++ c :: back) (hs : s.step op = some s') (hne : s'.cur ≠ c) :
    Advances s s' c back op.isTimer.toNat := by
  cases op with
  | timer => exact timer_advances h hq hs hne
  | yield => exact yield_advances hq hs hne
  | block stat => exact block_advances hmay.1 hq hs hne
  | unblock t => exact unblock_advances h hmay hq hs
  | start t prio => exact start_advances hq hs
  | exit t needSchedule => exact exit_advances h hmay hq hs hne
  | setIntr on =>
    cases hs
    exact ⟨front, back, hq, Nat.le_refl _⟩

/-! ## Slices -/

/-- No task has more ticks than its priority gives. -/
def Sliced (s : Sched) : Prop := ∀ t ∈ s.allList, s.ticks t ≤ s.priority t

theorem schedule_slices (h : schedule s = some s') : s'.allList = s.allList ∧
    s'.priority = s.priority ∧
      (s'.ticks = s.ticks ∨ s'.ticks = Function.update s.ticks s.cur (s.priority s.cur)) := by
  obtain ⟨-, -, h⟩ := Option.bind_eq_some_iff.mp h
  obtain ⟨s1, h1, h⟩ := Option.bind_eq_some_iff.mp h
  obtain ⟨s2, h2, h⟩ := Option.bind_eq_some_iff.mp h
  have hrequeue : s1.allList = s.allList ∧ s1.priority = s.priority ∧
      (s1.ticks = s.ticks ∨ s1.ticks = Function.update s.ticks s.cur (s.priority s.cur)) := by
    unfold requeue at h1
    split at h1
    · obtain ⟨-, -, h1⟩ := Option.bind_eq_some_iff.mp h1
      cases h1
      exact ⟨rfl, rfl, Or.inr rfl⟩
    · cases h1
      exact ⟨rfl, rfl, Or.inl rfl⟩
  have hwake : s2.allList = s1.allList ∧ s2.priority = s1.priority ∧ s2.ticks = s1.ticks := by
    unfold wakeIdle threadUnblock at h2
    split at h2
    · obtain ⟨-, -, h2⟩ := Option.bind_eq_some_iff.mp h2
      split at h2
      · obtain ⟨-, -, h2⟩ := Option.bind_eq_some_iff.mp h2
        cases h2
        exact ⟨rfl, rfl, rfl⟩
      · cases h2
        exact ⟨rfl, rfl, rfl⟩
    · cases h2
      exact ⟨rfl, rfl, rfl⟩
  have hswitch : s'.allList = s2.allList ∧ s'.priority = s2.priority ∧ s'.ticks = s2.ticks := by
    unfold switchToNext at h
    split at h
    · cases h
    · cases h
      exact ⟨rfl, rfl, rfl⟩
  rw [hswitch.1, hswitch.2.1, hswitch.2.2, hwake.1, hwake.2.1, hwake.2.2]
  exact hrequeue

theorem Sliced.scheduled (h : Sliced s) (hs : schedule s = some s') : Sliced s' := by
  obtain ⟨hall, hprio, hticks⟩ := schedule_slices hs
  intro t ht
  rw [hall] at ht
  rw [hprio]
  rcases hticks with hticks | hticks
  · rw [hticks]
    exact h t ht
  · rw [hticks]
    by_cases htc : t = s.cur
    · rw [htc, Function.update_self]
    · rw [Function.update_of_ne htc]
      exact h t ht

/-- A new task has one slice. -/
theorem Sliced.init_le (h : Sliced s) (prio : Nat) :
    ∀ u ∈ s.allList ++ [t], (initThread s t prio).ticks u ≤ (initThread s t prio).priority u := by
  intro u hu
  by_cases hut : u = t
  · rw [hut]
    simp [initThread]
  · have hmem : u ∈ s.allList :=
      (List.mem_append.mp hu).resolve_right fun hm => hut (List.mem_singleton.mp hm)
    simpa [initThread, hut] using h u hmem

theorem Sliced.started (h : Sliced s) {prio : Nat} (hs : threadStart s t prio = some s') :
    Sliced s' := by
  obtain ⟨-, -, hs⟩ := Option.bind_eq_some_iff.mp hs
  obtain ⟨-, -, hs⟩ := Option.bind_eq_some_iff.mp hs
  cases hs
  exact h.init_le prio

theorem Sliced.main (h : Sliced s) (hs : makeMainThread s = some s') : Sliced s' := by
  obtain ⟨-, -, hs⟩ := Option.bind_eq_some_iff.mp hs
  cases hs
  have hmain : Sliced { s with mainThread := s.cur } := h
  exact hmain.init_le 31

theorem sliced_threadInit {boot : Sched} {init idle : Nat}
    (hs : threadInit boot init idle = some s) : Sliced s := by
  have hempty : Sliced { boot with readyList := [], allList := [] } :=
    fun _ ht => absurd ht List.not_mem_nil
  simp only [threadInit, Option.bind_eq_bind, Option.bind_eq_some_iff, Option.pure_def,
    Option.some.injEq] at hs
  obtain ⟨s1, h1, s2, h2, s3, h3, rfl⟩ := hs
  have hidle : Sliced s3 := ((hempty.started h1).main h2).started h3
  exact hidle

theorem removeTask_fields (s : Sched) (t : Nat) : (removeTask s t).allList = s.allList.erase t ∧
    (removeTask s t).ticks = s.ticks ∧ (removeTask s t).priority = s.priority := by
  simp only [removeTask]
  split <;> exact ⟨rfl, rfl, rfl⟩

theorem Sliced.removed (h : Sliced s) (t : Nat) : Sliced (removeTask s t) := by
  obtain ⟨hall, hticks, hprio⟩ := removeTask_fields s t
  intro u hu
  rw [hall] at hu
  rw [hticks, hprio]
  exact h u (List.mem_of_mem_erase hu)

theorem Sliced.step (h : Sliced s) {op : SchedOp} (hs : s.step op = some s') : Sliced s' := by
  cases op with
  | timer =>
    change intrTimerHandler s = some s' at hs
    unfold intrTimerHandler at hs
    split at hs
    · have hoff : Sliced (intrDisable s) := h
      exact hoff.scheduled hs
    · cases hs
      intro t ht
      have hle : Function.update s.ticks s.cur (s.ticks s.cur - 1) t ≤ s.ticks t := by
        by_cases htc : t = s.cur
        · rw [htc, Function.update_self]
          exact Nat.sub_le _ 1
        · rw [Function.update_of_ne htc]
      exact hle.trans (h t ht)
  | yield =>
    obtain ⟨s1, h1, hs⟩ := Option.bind_eq_some_iff.mp hs
    obtain ⟨-, -, h1⟩ := Option.bind_eq_some_iff.mp h1
    have hcall : Sliced s1 := by
      cases h1
      exact h
    exact hcall.scheduled hs
  | block stat =>
    obtain ⟨s1, h1, hs⟩ := Option.bind_eq_some_iff.mp hs
    obtain ⟨-, -, h1⟩ := Option.bind_eq_some_iff.mp h1
    have hcall : Sliced s1 := by
      cases h1
      exact h
    exact hcall.scheduled hs
  | unblock t =>
    obtain ⟨-, -, hs⟩ := Option.bind_eq_some_iff.mp hs
    split at hs
    · obtain ⟨-, -, hs⟩ := Option.bind_eq_some_iff.mp hs
      cases hs
      exact h
    · cases hs
      exact h
  | start t prio => exact h.started hs
  | exit t needSchedule =>
    cases needSchedule with
    | true => exact (h.removed t).scheduled hs
    | false =>
      cases hs
      exact h.removed t
  | setIntr on =>
    cases hs
    exact h

theorem sliced_of_reachable (h : schedMachine.Reachable s) : Sliced s := by
  refine Machine.Reach.invariant ?_ ?_ h
  · rintro s ⟨boot, init, idle, -, -, -, -, hinit⟩
    exact sliced_threadInit hinit
  · intro s op s' hs _ _ hstep
    exact hs.step hstep

/-! ## The turn -/

/-- `c` is queued and runs within `n` timer interrupts. -/
def Due (c n : Nat) (s : Sched) : Prop :=
  s.Inv ∧ ∃ front back, s.readyList = front ++ c :: back ∧ waiting s c back ≤ n

theorem Due.step {n : Nat} {op : SchedOp} (h : Due c n s) (hmay : s.May op)
    (hs : s.step op = some s') (hne : s'.cur ≠ c) :
    ∃ m, Due c m s' ∧ m + op.isTimer.toNat ≤ n := by
  obtain ⟨hinv, front, back, hq, hle⟩ := h
  obtain ⟨s₁, he, hinv'⟩ := step_inv hinv hmay
  cases he.symm.trans hs
  obtain ⟨front', back', hq', hadv⟩ := step_advances hinv hmay hq hs hne
  exact ⟨_, ⟨hinv', front', back', hq', Nat.le_refl _⟩, hadv.trans hle⟩

end

/-- **Every ready task has its turn.** As long as `c`, ready with `back` behind it, does
not run, whatever the tasks do, there are no more timer interrupts than the slices of the
tasks that are not behind it. -/
theorem ready_has_turn {s : Sched} (h : schedMachine.Reachable s) {c : Nat}
    {front back : List Nat} (hq : s.readyList = front ++ c :: back) {ops : List SchedOp}
    (hops : schedMachine.Runs (fun s => s.cur ≠ c) s ops) :
    ops.countP SchedOp.isTimer ≤ ∑ t ∈ before s c back, (s.priority t + 1) := by
  have hdue : Due c (waiting s c back) s :=
    ⟨inv_of_reachable h, front, back, hq, Nat.le_refl _⟩
  have hcount : ops.countP SchedOp.isTimer ≤ waiting s c back :=
    Machine.Runs.count_le (R := Due c)
      (fun _ _ _ _ hd hmay hs hne => hd.step hmay hs hne) hdue hops
  have hslices : waiting s c back ≤ ∑ t ∈ before s c back, (s.priority t + 1) :=
    Finset.sum_le_sum fun t ht =>
      Nat.succ_le_succ (sliced_of_reachable h t (mem_before.mp ht).1)
  exact hcount.trans hslices

/-- `main` is interrupted and yields, and `init` is interrupted: `idle` is still to
come. -/
theorem ready_has_turn_boot : ∃ s, threadInit bootSched 0xc0100000 0xc0106000 = some s ∧
    [.setIntr true, .timer, .yield, .timer].countP SchedOp.isTimer ≤
      ∑ t ∈ before s 0xc0106000 [], (s.priority t + 1) := by
  refine ⟨_, rfl, ?_⟩
  refine ready_has_turn ?_ (show _ = [0xc0100000] ++ 0xc0106000 :: [] from rfl) ?_
  · exact Machine.Reach.start
      ⟨bootSched, 0xc0100000, 0xc0106000, by decide, by decide, by decide, by decide, rfl⟩
  · exact ⟨trivial, _, rfl, by decide, rfl, _, rfl, by decide, trivial, _, rfl, by decide,
      rfl, _, rfl, by decide, trivial⟩

end OsCore.Thread
