import MiniCore.Scheduler.RoundRobin

/-!
# `task_create`: ids and names over whole runs

`task_create` takes the first TERMINATED slot, gives it the id
`next_task_id++`, copies the name into it and queues it. What that leaves
behind is followed here through the state every task has exited from,
`Idle`: every slot TERMINATED, the queue empty, no task current.
`scheduler_init` leaves it (`Idle.init`), and one create-yield-exit cycle
(`createExit`) goes from it back to it with `next_task_id` one higher
(`Idle.after_createExit`). By induction on the number of cycles, the creation
after `k` cycles from `scheduler_init` finds slot 0 free and returns
`k + 1` modulo `2^32` (`createExit_ids`).

**The law** the interface states is that an id is never issued twice and
that a task's name is its argument truncated to the field. Neither holds:

* `next_task_id` is a `uint32_t`: creation number `2^32` succeeds and
  returns 0, the value that means "no free slot", and the next one
  returns 1 again (`taskCreate_reissues_ids`);
* the copy loop writes `name[0..len)` and `name[31]` only, so a slot
  reused for a shorter name keeps the characters of the old name behind
  the new one (`taskCreate_keeps_stale_name`).

## What this does NOT cover

The cycles run one task at a time. Runs that keep other tasks alive reach
the same wrap, since nothing but `task_create` moves `next_task_id`
(`schedule_nextTaskId`, `taskExit_nextTaskId`), but the run lemma is stated
for the idle cycle only.
-/

namespace MiniCore.Scheduler

/-! ## The counter -/

theorem schedule_nextTaskId (s : Sched) : (schedule s).nextTaskId = s.nextTaskId := by
  have h1 := taskQueueRemoveNext_nextTaskId s
  unfold schedule
  rcases hr : taskQueueRemoveNext s with ⟨s1, _ | n⟩ <;> rw [hr] at h1
  · exact h1
  · dsimp only at h1 ⊢
    split
    · split_ifs
      · simp [switchToTask, Sched.modify, h1]
      · exact h1
    · exact h1

theorem taskExit_nextTaskId (s : Sched) : (taskExit s).nextTaskId = s.nextTaskId := by
  unfold taskExit
  split
  · exact schedule_nextTaskId _
  · rfl

/-- `task_create` in the slot its search found returns the old
`next_task_id` and moves the counter on by one. -/
theorem taskCreate_of_freeSlot {s : Sched} {t : Slot} (hf : freeSlot s = some t)
    (name : List (BitVec 8)) :
    (taskCreate s name).2 = s.nextTaskId ∧ (taskCreate s name).1.nextTaskId = s.nextTaskId + 1 := by
  simp [taskCreate, hf, Sched.modify]

/-! ## The idle state -/

/-- Every slot TERMINATED, nothing queued, nothing current. -/
structure Idle (s : Sched) : Prop where
  terminated : ∀ i, (s.tasks i).state = .terminated
  head : s.taskQueueHead = none
  tail : s.taskQueueTail = none
  current : s.currentTask = none

theorem Idle.init (s : Sched) : Idle (schedulerInit s) := ⟨fun _ => rfl, rfl, rfl, rfl⟩

theorem Idle.roundRobin {s : Sched} (h : Idle s) : RoundRobin s [] :=
  ⟨⟨⟨h.head, h.tail, trivial, List.nodup_nil⟩, fun i => by simp [h.terminated i],
    fun i hi => by simp [h.terminated i] at hi⟩, fun i => by simp [h.terminated i],
    fun c hc => by simp [h.current] at hc⟩

/-- In the idle state the search loop of `task_create` stops at slot 0. -/
theorem freeSlot_of_idle {s : Sched} (h : Idle s) : freeSlot s = some 0 := by
  simp [freeSlot, List.finRange_succ, h.terminated]

/-- `task_exit` of the running task, with nothing else queued, leaves the
idle state: every other slot is neither READY (the queue is empty), nor
RUNNING (it is not current), nor SLEEPING. -/
theorem RoundRobin.taskExit_idle {s : Sched} {c : Slot} (h : RoundRobin s [])
    (hc : s.currentTask = some c) : Idle (taskExit s) := by
  have hidle : Idle { (s.modify c fun k => { k with state := .terminated }) with currentTask := none } := by
    refine ⟨fun j => ?_, h.queued.head, h.queued.tail, rfl⟩
    simp only [modify_tasks]
    split_ifs with hj
    · rfl
    · cases hst : (s.tasks j).state with
      | ready => exact absurd ((h.ready_iff j).2 hst) (List.not_mem_nil j)
      | running => exact absurd ((h.running j hst).symm.trans hc) (by simpa using hj)
      | sleeping => exact absurd hst (h.awake j)
      | terminated => rfl
  simp only [taskExit, hc]
  rw [hidle.roundRobin.schedule_nil]
  exact hidle

/-! ## Create-exit cycles -/

/-- One task's whole life: created, installed by a yield, exited. -/
def createExit (name : List (BitVec 8)) : List Call := [.taskCreate name, .taskYield, .taskExit]

/-- A cycle from the idle state returns to it with the counter one higher;
its creation returns the old counter. -/
theorem Idle.after_createExit {s : Sched} (h : Idle s) (name : List (BitVec 8)) :
    (taskCreate s name).2 = s.nextTaskId ∧ Idle (Call.runAll s (createExit name)) ∧
      (Call.runAll s (createExit name)).nextTaskId = s.nextTaskId + 1 := by
  obtain ⟨hid, hnext⟩ := taskCreate_of_freeSlot (freeSlot_of_idle h) name
  obtain ⟨h1, hc1, -⟩ := h.roundRobin.taskCreate name
  rw [freeSlot_of_idle h] at h1
  obtain ⟨h2, hc2⟩ := h1.schedule
  rw [hc1, h.current] at h2
  refine ⟨hid, h2.taskExit_idle hc2, ?_⟩
  rw [← hnext]
  exact (taskExit_nextTaskId _).trans (schedule_nextTaskId _)

/-- `k` cycles from the idle state end idle, `k` ids further on. -/
theorem Idle.runAll_createExit (name : List (BitVec 8)) :
    ∀ (k : Nat) {s : Sched}, Idle s →
      Idle (Call.runAll s (List.replicate k (createExit name)).flatten) ∧
        (Call.runAll s (List.replicate k (createExit name)).flatten).nextTaskId =
          s.nextTaskId + BitVec.ofNat 32 k
  | 0, s, h => ⟨h, by simp [Call.runAll]⟩
  | k + 1, s, h => by
    obtain ⟨-, h1, hn1⟩ := h.after_createExit name
    obtain ⟨h2, hn2⟩ := Idle.runAll_createExit name k h1
    rw [List.replicate_succ, List.flatten_cons, Call.runAll_append]
    refine ⟨h2, ?_⟩
    rw [hn2, hn1]
    bv_omega

/-- The creation after `k` cycles from `scheduler_init` finds slot 0 free
and returns `k + 1`, modulo `2^32`. -/
theorem createExit_ids (name : List (BitVec 8)) (k : Nat) :
    freeSlot (Call.runAll (schedulerInit Sched.bss) (List.replicate k (createExit name)).flatten) = some 0 ∧
      (taskCreate (Call.runAll (schedulerInit Sched.bss)
        (List.replicate k (createExit name)).flatten) name).2 = BitVec.ofNat 32 (k + 1) := by
  obtain ⟨h, hn⟩ := Idle.runAll_createExit name k (Idle.init Sched.bss)
  refine ⟨freeSlot_of_idle h, ?_⟩
  rw [(taskCreate_of_freeSlot (freeSlot_of_idle h) name).1, hn]
  show 1 + BitVec.ofNat 32 k = _
  bv_omega

/-- Creation `2^32` from `scheduler_init` succeeds in slot 0 and returns 0,
and creation `2^32 + 1` returns 1, the id of the very first task. -/
theorem taskCreate_reissues_ids :
    ∃ s, s = Call.runAll (schedulerInit Sched.bss)
      (List.replicate (2 ^ 32 - 1) (createExit [0x41])).flatten ∧
    Reachable (fun _ => True) s ∧
      freeSlot (schedulerInit Sched.bss) = some 0 ∧ (taskCreate (schedulerInit Sched.bss) [0x41]).2 = 1 ∧
      freeSlot s = some 0 ∧ (taskCreate s [0x41]).2 = 0 ∧
      freeSlot (Call.runAll s (createExit [0x41])) = some 0 ∧
      (taskCreate (Call.runAll s (createExit [0x41])) [0x41]).2 = 1 := by
  have hrep : List.replicate (2 ^ 32) (createExit [0x41]) =
      List.replicate (2 ^ 32 - 1) (createExit [0x41]) ++ [createExit [0x41]] :=
    List.replicate_succ' (2 ^ 32 - 1) _
  have hnext := createExit_ids [0x41] (2 ^ 32)
  rw [hrep, List.flatten_append, List.flatten_singleton, Call.runAll_append] at hnext
  exact ⟨_, rfl, Reachable.init.runAll fun _ _ => trivial, (createExit_ids [0x41] 0).1,
    (createExit_ids [0x41] 0).2, (createExit_ids [0x41] (2 ^ 32 - 1)).1,
    (createExit_ids [0x41] (2 ^ 32 - 1)).2.trans (by decide), hnext.1, hnext.2.trans (by decide)⟩

/-! ## Names -/

/-- A `char[32]` field read as a C string: the bytes before the first NUL. -/
def cString (f : Fin 32 → BitVec 8) : List (BitVec 8) := (List.ofFn f).takeWhile (· != 0)

/-- Task "ABC" lives and exits in slot 0; task "X" then gets slot 0. The
loop copies 'X' and stops at the NUL, `name[31]` is cleared, and 'B', 'C'
stay: the new task is called "XBC". -/
theorem taskCreate_keeps_stale_name :
    ∃ s, s = Call.runAll (schedulerInit Sched.bss) (createExit [0x41, 0x42, 0x43]) ∧
    Reachable (fun _ => True) s ∧ freeSlot s = some 0 ∧ (taskCreate s [0x58]).2 = 2 ∧
      cString ((taskCreate s [0x58]).1.tasks 0).name = [0x58, 0x42, 0x43] := by
  refine ⟨_, rfl, Reachable.init.runAll fun _ _ => trivial, ?_⟩
  decide

end MiniCore.Scheduler
