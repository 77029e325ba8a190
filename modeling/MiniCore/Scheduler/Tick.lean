import MiniCore.Scheduler.Model

/-!
# The timer tick

`scheduler_tick` does three things in order: count the tick, wake every
sleeping task whose `sleep_until` has come, and, once `system_ticks` is past
100, charge the tick to `current_task` and reschedule when its slice hits
zero. This module states what a tick does when there is nothing to wake
(`wakeSleepers_of_awake`) and during the first 100 ticks
(`schedulerTick_grace`), and runs the two defects that live in the tick:

* `sleep_until = system_ticks + ticks` is computed modulo `2^32`, and the
  wake test `sleep_until <= system_ticks` compares the wrapped values, so a
  long sleep can end after one tick (`taskSleep_wraps_wakes_early`);
* a slice that expires while the ready queue is empty reaches `schedule`,
  which returns without resetting `time_remaining`; the next tick decrements
  0 to `2^32 - 1` (`timeRemaining_wraps`);
* the tick only ever schedules on behalf of `current_task`: with no current
  task (after boot, or after `task_exit` with nothing queued) no number of
  ticks starts a READY task (`runAll_ticks_idle`,
  `schedulerTick_never_starts_ready_task`).
-/

namespace MiniCore.Scheduler

/-- No slot is asleep. -/
def Awake (s : Sched) : Prop := ∀ i, (s.tasks i).state ≠ .sleeping

instance (s : Sched) : Decidable (Awake s) :=
  inferInstanceAs (Decidable (∀ i : Slot, (s.tasks i).state ≠ .sleeping))

/-- With nobody asleep the wake-up loop changes nothing. -/
theorem wakeSleepers_of_awake {s : Sched} (hs : Awake s) : wakeSleepers s = s := by
  have hstep : ∀ i, wakeStep s i = s := fun i => by
    unfold wakeStep
    rw [if_neg fun h => hs i h.1]
  exact List.foldl_fixed' hstep _

/-- The wake-up loop never changes `current_task`. -/
theorem wakeSleepers_currentTask (s : Sched) : (wakeSleepers s).currentTask = s.currentTask := by
  unfold wakeSleepers
  induction List.finRange maxTasks generalizing s with
  | nil => rfl
  | cons i l ih =>
    rw [List.foldl_cons, ih]
    unfold wakeStep taskQueueAdd
    split_ifs
    · dsimp only; split <;> rfl
    · rfl

/-- With no current task a tick starts none, whatever is queued. -/
theorem schedulerTick_currentTask_none {s : Sched} (h : s.currentTask = none) :
    (schedulerTick s).currentTask = none := by
  have hw : (wakeSleepers { s with systemTicks := s.systemTicks + 1 }).currentTask = none :=
    (wakeSleepers_currentTask _).trans h
  unfold schedulerTick
  simp only [hw]

/-- The same for any number of ticks. -/
theorem runAll_ticks_idle {s : Sched} (h : s.currentTask = none) :
    ∀ n, (Call.runAll s (List.replicate n .schedulerTick)).currentTask = none
  | 0 => h
  | n + 1 => by
    rw [List.replicate_succ, Call.runAll, List.foldl_cons]
    exact runAll_ticks_idle (schedulerTick_currentTask_none h) n

/-- A tick of the first 100, with nobody asleep, only counts. -/
theorem schedulerTick_grace {s : Sched} (hs : Awake s) (ht : s.systemTicks.toNat < 100) :
    schedulerTick s = { s with systemTicks := s.systemTicks + 1 } := by
  have hw := wakeSleepers_of_awake (s := { s with systemTicks := s.systemTicks + 1 }) hs
  have hle : ¬ 100 < s.systemTicks + 1 := by bv_omega
  unfold schedulerTick
  rw [hw]
  cases s.currentTask <;> simp only [if_neg hle]

/-- The grace window, run: `n` ticks with nobody asleep that stay within the
first 100 only advance `system_ticks` by `n`. -/
theorem runAll_ticks_grace {s : Sched} (hs : Awake s) :
    ∀ {n : Nat}, s.systemTicks.toNat + n ≤ 100 →
      Call.runAll s (List.replicate n .schedulerTick)
        = { s with systemTicks := s.systemTicks + BitVec.ofNat 32 n }
  | 0, _ => by simp [Call.runAll]
  | n + 1, hn => by
    have h1 : (s.systemTicks + 1).toNat = s.systemTicks.toNat + 1 := by bv_omega
    have ih := runAll_ticks_grace (s := { s with systemTicks := s.systemTicks + 1 }) hs
      (n := n) (by simp only [h1]; omega)
    simp only [Call.runAll, List.replicate_succ, List.foldl_cons, Call.run,
      schedulerTick_grace hs (by omega)] at ih ⊢
    rw [ih, BitVec.ofNat_add, BitVec.add_comm (BitVec.ofNat 32 n), BitVec.add_assoc]
    rfl

/-! ## The two defects of the tick -/

/-- Task `A` in slot 0, installed by a yield, sleeps for `2^32 - 1` ticks at
tick 1. `sleep_until` wraps to 0, so the very next tick finds it due: after
ONE tick it is READY and queued again. -/
theorem taskSleep_wraps_wakes_early :
    ∃ s, s = Call.runAll (schedulerInit Sched.bss) [.taskCreate [0x41], .taskYield, .schedulerTick] ∧
    Reachable (fun _ => True) s ∧ s.currentTask = some 0 ∧ s.systemTicks = 1 ∧
      ((taskSleep s 0xFFFFFFFF).tasks 0).sleepUntil = 0 ∧
      ((schedulerTick (taskSleep s 0xFFFFFFFF)).tasks 0).state = .ready ∧
      readyList (schedulerTick (taskSleep s 0xFFFFFFFF)) = some [0] :=
  ⟨_, rfl, Reachable.init.runAll fun _ _ => trivial, by decide, by decide, by decide, by decide,
    by decide⟩

set_option maxRecDepth 4000 in
/-- Task `A` alone, installed by a yield: after the grace window its ten-tick
slice expires at tick 110 with nobody else ready. `schedule` returns at
once, so `A` stays RUNNING with `time_remaining = 0`, and tick 111 wraps it to
`2^32 - 1`. -/
theorem timeRemaining_wraps :
    ∃ s, s = Call.runAll (schedulerInit Sched.bss)
      ([.taskCreate [0x41], .taskYield] ++ List.replicate 110 .schedulerTick) ∧
    Reachable (fun _ => True) s ∧ s.currentTask = some 0 ∧ (s.tasks 0).state = .running ∧
      (s.tasks 0).timeRemaining = 0 ∧ ((schedulerTick s).tasks 0).timeRemaining = 0xFFFFFFFF := by
  refine ⟨_, rfl, Reachable.init.runAll fun _ _ => trivial, ?_⟩
  have hs : Call.runAll (schedulerInit Sched.bss)
      ([.taskCreate [0x41], .taskYield] ++ List.replicate 110 .schedulerTick) = Call.runAll
      ({ Call.runAll (schedulerInit Sched.bss) [.taskCreate [0x41], .taskYield] with
        systemTicks := 0 + BitVec.ofNat 32 100 }) (List.replicate 10 .schedulerTick) := by
    rw [Call.runAll_append, show 110 = 100 + 10 from rfl, List.replicate_add, Call.runAll_append,
      runAll_ticks_grace (s := Call.runAll _ _) (n := 100) (by decide) (by decide)]
    rfl
  rw [hs]
  decide


/-- Task `A` is created and nobody yields. After 100 ticks nothing runs and
`A` heads the queue; the tick that takes `system_ticks` to 101 finds no
current task to charge and leaves `A` READY, and so does every later tick. -/
theorem schedulerTick_never_starts_ready_task :
    ∃ s, s = Call.runAll (schedulerInit Sched.bss)
      ([.taskCreate [0x41]] ++ List.replicate 100 .schedulerTick) ∧
    Reachable (fun _ => True) s ∧ s.currentTask = none ∧ (∀ i, (s.tasks i).state ≠ .running) ∧
      readyList s = some [0] ∧ (schedulerTick s).systemTicks = 101 ∧
      ((schedulerTick s).tasks 0).state = .ready ∧
      ∀ n, (Call.runAll s (List.replicate n .schedulerTick)).currentTask = none := by
  refine ⟨_, rfl, Reachable.init.runAll fun _ _ => trivial, ?_⟩
  rw [Call.runAll_append, runAll_ticks_grace (s := Call.runAll _ _) (n := 100) (by decide) (by decide)]
  generalize hs : ({ Call.runAll (schedulerInit Sched.bss) [.taskCreate [0x41]] with
    systemTicks := _ } : Sched) = s
  have hc : s.currentTask = none := by subst hs; rfl
  exact ⟨hc, by subst hs; decide, by subst hs; decide, by subst hs; decide, by subst hs; decide,
    runAll_ticks_idle hc⟩

end MiniCore.Scheduler
