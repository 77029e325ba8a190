import MiniCore.Scheduler.RoundRobin

/-!
# `task_exit` keeps the round robin

`task_exit` marks the running slot TERMINATED, clears `current_task` and
calls `schedule`, which installs the first slot of the ready queue, if
there is one. It queues nobody: no slot is RUNNING any more.

The invariant `RoundRobin` of `Scheduler.RoundRobin` survives it. Between
the store and `schedule` the queue is as it was and nobody runs
(`RoundRobin.retire`); `schedule` then moves the queue as for any switch.
So the exiting slot leaves for good, the first queued slot runs and the
rest stay queued in order (`RoundRobin.taskExit`), and the invariant holds
over every run without `task_sleep`, exits included
(`Reachable.roundRobin_exit`).

**The law** (`task_exit_keeps_round_robin`): in every run from
`scheduler_init` whose calls are anything but `task_sleep`, the READY
slots are exactly the list walked from `task_queue_head`, with no slot
twice, and a RUNNING slot is `current_task`; `task_exit` of the running
slot makes it TERMINATED, runs the first queued slot, and leaves the
others queued in the same order.

## What this does NOT cover

`task_sleep`, which breaks the invariant (`taskSleep_leaves_sleeper_queued`).
-/

namespace MiniCore.Scheduler

/-- The calls of a run without `task_sleep`; `task_exit` is allowed. -/
def NoSleepCall : Call → Prop
  | .taskSleep _ => False
  | _ => True

instance : DecidablePred NoSleepCall := fun c => by
  cases c <;> simp only [NoSleepCall] <;> infer_instance

/-- A slot that is neither queued nor current is TERMINATED: it is not
READY, RUNNING or SLEEPING. -/
theorem RoundRobin.terminated_of {s : Sched} {q : List Slot} (h : RoundRobin s q) {c : Slot} (hq : c ∉ q)
    (hc : s.currentTask ≠ some c) : (s.tasks c).state = .terminated := by
  cases hst : (s.tasks c).state with
  | ready => exact absurd ((h.ready_iff c).2 hst) hq
  | running => exact absurd (h.running c hst) hc
  | sleeping => exact absurd hst (h.awake c)
  | terminated => rfl

/-- `task_exit` before its `schedule`: the running slot TERMINATED and
`current_task` cleared. The queue is as it was, and nobody runs. -/
theorem RoundRobin.retire {s : Sched} {q : List Slot} {c : Slot} (h : RoundRobin s q) (hc : s.currentTask = some c) :
    RoundRobin { (s.modify c fun k => { k with state := .terminated }) with currentTask := none } q := by
  refine ⟨⟨h.queued.congr rfl rfl fun j => ?_, fun i => ?_, fun i hi => ?_⟩, fun i => ?_, fun _ h' => nomatch h'⟩
  · simp only [modify_tasks]
    split_ifs with hj <;> simp [hj]
  · simp only [modify_tasks]
    split_ifs with hi
    · subst hi
      simp only [h.not_mem_of_current hc, false_iff]
    · exact h.ready_iff i
  · simp only [modify_tasks] at hi
    split_ifs at hi with hic
    exact absurd ((h.running i hi).symm.trans hc) fun e => hic (Option.some_inj.1 e)
  · simp only [modify_tasks]
    split_ifs
    exacts [nofun, h.awake i]

/-- **`task_exit` of the running slot**: it leaves for good, the first
queued slot runs, and the rest stay queued in order. -/
theorem RoundRobin.taskExit {s : Sched} {q : List Slot} {c : Slot} (h : RoundRobin s q)
    (hc : s.currentTask = some c) :
    RoundRobin (Scheduler.taskExit s) q.tail ∧ (Scheduler.taskExit s).currentTask = q.head? ∧
      ((Scheduler.taskExit s).tasks c).state = .terminated := by
  have hcq : c ∉ q := h.not_mem_of_current hc
  have h1 := h.retire hc
  suffices H : RoundRobin (Scheduler.taskExit s) q.tail ∧ (Scheduler.taskExit s).currentTask = q.head? from
    ⟨H.1, H.2, H.1.terminated_of (fun hm => hcq (List.mem_of_mem_tail hm))
      (by rw [H.2]; exact fun e => hcq (List.mem_of_mem_head? e))⟩
  simp only [Scheduler.taskExit, hc]
  cases q with
  | nil => rw [h1.schedule_nil]; exact ⟨h1, rfl⟩
  | cons a rest =>
    obtain ⟨h2, hc2⟩ := h1.schedule
    exact ⟨by simpa using h2, hc2⟩

/-- Every call but `task_sleep` keeps the invariant. -/
theorem RoundRobin.stepExit {s : Sched} {q : List Slot} (h : RoundRobin s q) {c : Call} (hc : NoSleepCall c) :
    ∃ q', RoundRobin (c.run s) q' := by
  have hexit : c = .taskExit ∨ NoSleep c := by
    cases c <;> first | exact .inl rfl | exact .inr trivial | exact hc.elim
  rcases hexit with rfl | hns
  · cases hcur : s.currentTask with
    | none => exact ⟨q, by simpa only [Call.run, Scheduler.taskExit, hcur] using h⟩
    | some r => exact ⟨_, (h.taskExit hcur).1⟩
  · exact ⟨_, (h.step hns).1⟩

theorem Reachable.roundRobin_exit {s : Sched} (h : Reachable NoSleepCall s) : ∃ q, RoundRobin s q := by
  induction h with
  | init => exact ⟨[], RoundRobin.init _⟩
  | call _ hc ih =>
    obtain ⟨q, hq⟩ := ih
    exact hq.stepExit hc

/-- **`task_exit` keeps the round robin.** In every run from
`scheduler_init` without `task_sleep`, the READY slots are exactly the list
walked from `task_queue_head`, which holds no slot twice, and a RUNNING slot
is `current_task`. `task_exit` of the running slot makes it TERMINATED,
installs the first queued slot, and leaves the others queued in order. -/
theorem task_exit_keeps_round_robin {s : Sched} (hs : Reachable NoSleepCall s) :
    ∃ q, readyList s = some q ∧ q.Nodup ∧ (∀ i, i ∈ q ↔ (s.tasks i).state = .ready) ∧
      (∀ i, (s.tasks i).state = .running → s.currentTask = some i) ∧
      ∀ c, s.currentTask = some c → readyList (taskExit s) = some q.tail ∧ (taskExit s).currentTask = q.head? ∧
        ((taskExit s).tasks c).state = .terminated := by
  obtain ⟨q, hq⟩ := hs.roundRobin_exit
  refine ⟨q, hq.queued.readyList, hq.queued.nodup, hq.ready_iff, hq.running, fun c hc => ?_⟩
  obtain ⟨h', hcur, hst⟩ := hq.taskExit hc
  exact ⟨h'.queued.readyList, hcur, hst⟩

/-- Two tasks created, the first installed, and the first exiting: the
second runs. -/
theorem exit_runs_next_created :
    ∃ s, s = Call.runAll (schedulerInit Sched.bss) [.taskCreate [0x41], .taskCreate [0x42], .taskYield] ∧
      Reachable NoSleepCall s ∧ ∃ q, readyList s = some q ∧ q.Nodup ∧ (∀ i, i ∈ q ↔ (s.tasks i).state = .ready) ∧
        (∀ i, (s.tasks i).state = .running → s.currentTask = some i) ∧
        ∀ c, s.currentTask = some c → readyList (taskExit s) = some q.tail ∧ (taskExit s).currentTask = q.head? ∧
          ((taskExit s).tasks c).state = .terminated :=
  have hs := @Reachable.runAll NoSleepCall _ Reachable.init [.taskCreate [0x41], .taskCreate [0x42], .taskYield]
    (by decide)
  ⟨_, rfl, hs, task_exit_keeps_round_robin hs⟩

end MiniCore.Scheduler
