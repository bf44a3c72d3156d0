import OsCore.Userprog.Family

/-!
# Wake-ups between `sys_exit` and `sys_wait`

A task in `TASK_WAITING` is to be woken up when a child of it hangs. A child can
come to hang under a waiting task in two ways. It exits: then `sys_exit` looks at
its parent and wakes it up. Or it hangs already, and its parent exits: then it is
handed to init, and `sys_exit` looks at the parent of the parent instead. If that
is not init, init waits on with a child to collect (`adopted_child_is_missed`).

That is the only way. A step keeps `NoLostWakeup` just if it is not such an exit
(`noLost_step`), so all runs without one never lose a wake-up
(`no_lost_wakeup`).

It takes four generations, and the third of them has to have run a program:
`sys_fork` adds `_fork` to the name and has no room for it a third time.
-/

namespace OsCore.Userprog

open Lib Thread

/-- No task waits while a child of it hangs. -/
def NoLostWakeup (s : Family) : Prop :=
  ∀ w ∈ s.allList, (s.task w).status = .waiting → ∀ c ∈ s.allList, (s.task c).status = .hanging →
    (s.task c).parentPid ≠ (s.task w).pid

/-- A task that exits while init waits, and that has a child that hangs, is a
child of init itself. -/
def WakesInit (s : Family) : FamilyOp → Prop
  | .exit t _ => (s.task s.init).status = .waiting →
      (∃ c ∈ s.allList, (s.task c).parentPid = (s.task t).pid ∧ (s.task c).status = .hanging) →
      (s.task t).parentPid = 1
  | _ => True

section

variable {s s' : Family} {t : Nat}

/-- No task waits at the start. -/
theorem threadInit_noLost {init main idle : Nat} (h : threadInit init main idle = some s) :
    NoLostWakeup s := by
  obtain ⟨b, -, -, -, rfl⟩ := threadInit_spec h
  intro w _ hw
  simp only at hw
  split at hw
  · cases hw
  · split at hw
    · cases hw
    · cases hw

/-- Nobody starts to wait, and no child starts to hang or changes its parent. -/
theorem NoLostWakeup.of_sub (h : NoLostWakeup s)
    (hw : ∀ w ∈ s'.allList, (s'.task w).status = .waiting →
      w ∈ s.allList ∧ (s.task w).status = .waiting ∧ (s'.task w).pid = (s.task w).pid)
    (hc : ∀ c ∈ s'.allList, (s'.task c).status = .hanging →
      c ∈ s.allList ∧ (s.task c).status = .hanging ∧ (s'.task c).parentPid = (s.task c).parentPid) :
    NoLostWakeup s' := by
  intro w hwm hws c hcm hcs
  obtain ⟨hwm, hws, hpid⟩ := hw w hwm hws
  obtain ⟨hcm, hcs, hppid⟩ := hc c hcm hcs
  rw [hpid, hppid]
  exact h w hwm hws c hcm hcs

theorem noLost_threadExit (h : NoLostWakeup s) {c : Nat} : NoLostWakeup (s.threadExit c) := by
  have hst : ∀ a ∈ (s.threadExit c).allList, a ∈ s.allList := fun a ha => List.mem_of_mem_erase ha
  have htask : ∀ a, a ≠ c → (s.threadExit c).task a = s.task a := by
    intro a ha
    simp [Family.threadExit, Family.modify, ha]
  have hdied : ((s.threadExit c).task c).status = .died := by
    simp [Family.threadExit, Family.modify]
  refine h.of_sub ?_ ?_
  · intro w hw hws
    have hwc : w ≠ c := by
      intro heq
      subst heq
      rw [hdied] at hws
      cases hws
    rw [htask w hwc] at hws ⊢
    exact ⟨hst w hw, hws, rfl⟩
  · intro a ha has
    have hac : a ≠ c := by
      intro heq
      subst heq
      rw [hdied] at has
      cases has
    rw [htask a hac] at has ⊢
    exact ⟨hst a ha, has, rfl⟩

/-- Changing the name or the place of a task, or making it wait with no child
that hangs. -/
theorem noLost_modify (h : NoLostWakeup s) {f : Task → Task}
    (hpid : (f (s.task t)).pid = (s.task t).pid)
    (hppid : (f (s.task t)).parentPid = (s.task t).parentPid)
    (hhang : (f (s.task t)).status = .hanging → (s.task t).status = .hanging)
    (hwait : (f (s.task t)).status = .waiting → (s.task t).status = .waiting ∨
      s.findHangingChild (s.task t).pid = none) : NoLostWakeup (s.modify t f) := by
  have htask : ∀ a, (s.modify t f).task a = if a = t then f (s.task t) else s.task a := by
    intro a
    by_cases ha : a = t
    · subst ha
      simp [Family.modify]
    · simp [Family.modify, ha]
  intro w hw hws c hc hcs
  have hc' : (s.task c).status = .hanging ∧
      ((s.modify t f).task c).parentPid = (s.task c).parentPid := by
    rw [htask] at hcs ⊢
    by_cases hct : c = t
    · subst hct
      rw [if_pos rfl] at hcs ⊢
      exact ⟨hhang hcs, hppid⟩
    · rw [if_neg hct] at hcs ⊢
      exact ⟨hcs, rfl⟩
  rw [hc'.2]
  rw [htask] at hws ⊢
  by_cases hwt : w = t
  · subst hwt
    rw [if_pos rfl] at hws ⊢
    rw [hpid]
    rcases hwait hws with hold | hnone
    · exact h w hw hold c hc hc'.1
    · exact findHangingChild_none hnone c hc hc'.1
  · rw [if_neg hwt] at hws ⊢
    exact h w hw hws c hc hc'.1

theorem noLost_sysWait (h : NoLostWakeup s) : NoLostWakeup (s.sysWait t) := by
  rcases sysWait_cases s t with ⟨c, hc, he⟩ | ⟨_, he⟩ | ⟨hn, he⟩
  · rw [he]
    refine noLost_modify (noLost_threadExit ?_) rfl rfl id .inl
    exact h
  · rw [he]
    exact noLost_modify h rfl rfl id .inl
  · rw [he]
    refine noLost_modify h rfl rfl ?_ fun _ => .inr hn
    intro hw
    cases hw

theorem noLost_sysFork (h : NoLostWakeup s) {page : Nat} {answer : ForkAnswer}
    (hpage : page ∉ s.allList) (hstep : s.sysFork t page answer = some s') : NoLostWakeup s' := by
  rcases sysFork_cases hstep with rfl | ⟨pid, b, -, rfl⟩ | ⟨-, child, hs⟩
  · exact h
  · exact h
  · have hnew : (s'.task page).status = .ready := by
      rw [hs.new, hs.status]
    refine h.of_sub ?_ ?_
    · intro w hw hws
      rcases (hs.mem w).mp hw with hw | rfl
      · rw [hs.old hpage hw] at hws ⊢
        exact ⟨hw, hws, rfl⟩
      · rw [hnew] at hws
        cases hws
    · intro c hc hcs
      rcases (hs.mem c).mp hc with hc | rfl
      · rw [hs.old hpage hc] at hcs ⊢
        exact ⟨hc, hcs, rfl⟩
      · rw [hnew] at hcs
        cases hcs

/-- After `sys_exit` nobody waits in vain just if init was not left to. -/
theorem noLost_sysExit (hinv : FamilyInv s) (h : NoLostWakeup s) (hcall : s.CanCall t)
    (hne : t ≠ s.init) {code : Int} (hstep : s.sysExit t code = some s') :
    NoLostWakeup s' ↔ WakesInit s (.exit t code) := by
  have hf := CanCall.forked hinv hcall hne
  obtain ⟨parent, s₁, hp, hpt, hpid, -, hs₁, he⟩ := sysExit_spec hinv hcall.1 hf code
  cases hs₁.symm.trans hstep
  have hready := hcall.2.2.1
  constructor
  · -- a child that hung before and is init's now would be missed
    intro hno hwait hin
    obtain ⟨c, hc, hcp, hch⟩ := hin
    apply Classical.byContradiction
    intro hpar
    have hip : s.init ≠ parent := by
      intro heq
      subst heq
      exact hpar (hpid.symm.trans hinv.parents.init_pid)
    have hct : c ≠ t := by
      intro heq
      subst heq
      rw [hready] at hch
      cases hch
    have hws : (s'.task s.init).status = .waiting := by
      rw [he.status, if_neg hne.symm, if_neg fun h => hip h.1]
      exact hwait
    have hcs : (s'.task c).status = .hanging := (he.hanging_iff c).mpr (.inr hch)
    apply hno s.init (he.allList ▸ hinv.parents.init_mem) hws c (he.allList ▸ hc) hcs
    rw [he.parentPid c hc, if_pos hcp, he.pid, hinv.parents.init_pid]
  · intro hcond w hw hws c hc hcs
    rw [he.allList] at hw hc
    rw [he.parentPid c hc, he.pid]
    -- whoever still waits is neither the task nor its parent
    have hwt : w ≠ t := by
      intro heq
      subst heq
      rw [he.status, if_pos rfl] at hws
      cases hws
    rw [he.status, if_neg hwt] at hws
    have hwp : w ≠ parent := by
      intro heq
      subst heq
      by_cases hwait : (s.task w).status = .waiting
      · rw [if_pos ⟨rfl, hwait⟩] at hws
        cases hws
      · rw [if_neg fun h => hwait h.2] at hws
        exact hwait hws
    rw [if_neg fun h => hwp h.1] at hws
    split
    · next hcp =>
      -- a child that is handed over now: init is awake, or was the parent
      intro he1
      have hwi : w = s.init := hinv.pids.inj w hw s.init hinv.parents.init_mem
        (he1.symm.trans hinv.parents.init_pid.symm)
      subst hwi
      have hch : (s.task c).status = .hanging := by
        rcases (he.hanging_iff c).mp hcs with rfl | hch
        · exact absurd (hinv.pids.inj parent hp c hcall.1 (hpid.trans hcp)) hpt
        · exact hch
      have hpar := hcond hws ⟨c, hc, hcp, hch⟩
      exact hwp (hinv.pids.inj _ hw parent hp
        (hinv.parents.init_pid.trans (hpar.symm.trans hpid.symm)))
    · rcases (he.hanging_iff c).mp hcs with rfl | hch
      · intro hcw
        exact hwp (hinv.pids.inj w hw parent hp (hcw.symm.trans hpid.symm))
      · exact h w hw hws c hc hch

/-- One step keeps the property just if it meets the condition. -/
theorem noLost_step (hinv : FamilyInv s) (h : NoLostWakeup s) {op : FamilyOp} (hmay : s.May op)
    (hstep : s.step op = some s') : NoLostWakeup s' ↔ WakesInit s op := by
  cases op with
  | fork t page answer => exact iff_of_true (noLost_sysFork h hmay.2 hstep) trivial
  | exit t code => exact noLost_sysExit hinv h hmay.1 hmay.2 hstep
  | wait t =>
    cases hstep
    exact iff_of_true (noLost_sysWait h) trivial
  | execv t path =>
    cases hstep
    exact iff_of_true (noLost_modify h rfl rfl id .inl) trivial
  | mainEnds =>
    cases hstep
    exact iff_of_true (noLost_threadExit h) trivial

end

/-- **No wake-up is lost** in a run in which no task exits that has a child
hanging, while init waits, unless it is a child of init itself. And in every state
of such a run, the next step keeps that just if it meets the condition. -/
theorem no_lost_wakeup (s : Family) (h : familyMachine.Reach WakesInit s) :
    NoLostWakeup s ∧ ∀ op s', s.May op → s.step op = some s' →
      (NoLostWakeup s' ↔ WakesInit s op) := by
  have hboth : FamilyInv s ∧ NoLostWakeup s := by
    refine Machine.Reach.invariant (I := fun s => FamilyInv s ∧ NoLostWakeup s) ?_ ?_ h
    · intro s hin
      obtain ⟨init, main, idle, h1, h2, h3, hinit⟩ := hin
      exact ⟨threadInit_inv h1 h2 h3 hinit, threadInit_noLost hinit⟩
    · intro s op s' hboth hmay hcond hstep
      exact ⟨family_step hboth.1 hmay hstep, (noLost_step hboth.1 hboth.2 hmay hstep).mpr hcond⟩
  exact ⟨hboth.2, fun op s' hmay hstep => noLost_step hboth.1 hboth.2 hmay hstep⟩

instance (s : Family) (op : FamilyOp) : Decidable (WakesInit s op) :=
  match op with
  | .exit t _ => inferInstanceAs (Decidable ((s.task s.init).status = .waiting →
      (∃ c ∈ s.allList, (s.task c).parentPid = (s.task t).pid ∧ (s.task c).status = .hanging) →
      (s.task t).parentPid = 1))
  | .fork _ _ _ => isTrue trivial
  | .wait _ => isTrue trivial
  | .execv _ _ => isTrue trivial
  | .mainEnds => isTrue trivial

/-- Init waits and is woken up by its child. -/
theorem no_lost_wakeup_one_child :
    ∃ s₀ s, threadInit initPage 0xc009e000 0xc0106000 = some s₀ ∧
      familyMachine.follow WakesInit s₀ [.fork initPage 0xc0200000 .ok, .wait initPage,
        .exit 0xc0200000 7] = some s ∧
      (s.task initPage).status = .ready ∧ (s.task initPage).inWait = true ∧ NoLostWakeup s := by
  have hsome : ((threadInit initPage 0xc009e000 0xc0106000).bind fun s₀ =>
      familyMachine.follow WakesInit s₀ [.fork initPage 0xc0200000 .ok, .wait initPage,
        .exit 0xc0200000 7]).map (fun s => ((s.task initPage).status, (s.task initPage).inWait)) =
        some (.ready, true) := by decide +kernel
  obtain ⟨s, hs, he⟩ := Option.map_eq_some_iff.mp hsome
  obtain ⟨s₀, hs₀, hs⟩ := Option.bind_eq_some_iff.mp hs
  have hreach : familyMachine.Reach WakesInit s := Machine.reach_of_follow
    (Machine.Reach.start ⟨_, _, _, by decide, by decide, by decide, hs₀⟩) hs
  exact ⟨s₀, s, hs₀, hs, congrArg Prod.fst he, congrArg Prod.snd he, (no_lost_wakeup s hreach).1⟩

/-- Init's child forks a child that runs a program, which forks in turn; init
waits; the youngest exits, and then the one that ran the program. -/
def fourGenerations : List FamilyOp :=
  [.fork initPage 0xc0200000 .ok, .fork 0xc0200000 0xc0300000 .ok, .execv 0xc0300000 "/cat".toList,
    .fork 0xc0300000 0xc0400000 .ok, .wait initPage, .exit 0xc0400000 0, .exit 0xc0300000 0]

/-- **A child that hangs already does not wake init up** when it is handed over:
init waits, and a task that hangs has it for its parent. -/
theorem adopted_child_is_missed :
    ∃ s, familyMachine.Reachable s ∧ (s.task initPage).status = .waiting ∧
      0xc0400000 ∈ s.allList ∧ (s.task 0xc0400000).status = .hanging ∧
      (s.task 0xc0400000).parentPid = (s.task initPage).pid := by
  have hsome : ((threadInit initPage 0xc009e000 0xc0106000).bind fun s₀ =>
      familyMachine.follow (fun _ _ => True) s₀ fourGenerations).map (fun s =>
        ((s.task initPage).status, decide (0xc0400000 ∈ s.allList), (s.task 0xc0400000).status,
          decide ((s.task 0xc0400000).parentPid = (s.task initPage).pid))) =
        some (.waiting, true, .hanging, true) := by decide +kernel
  obtain ⟨s, hs, he⟩ := Option.map_eq_some_iff.mp hsome
  obtain ⟨s₀, hs₀, hs⟩ := Option.bind_eq_some_iff.mp hs
  have hreach : familyMachine.Reachable s := Machine.reach_of_follow
    (Machine.Reach.start ⟨_, _, _, by decide, by decide, by decide, hs₀⟩) hs
  simp only [Prod.mk.injEq, decide_eq_true_eq] at he
  exact ⟨s, hreach, he⟩

end OsCore.Userprog
