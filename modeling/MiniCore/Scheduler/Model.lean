import Mathlib.Data.List.FinRange

/-!
# The task scheduler of `scheduler.c`, as the code computes it

Eight statically allocated task slots, a ready queue threaded through the
slots' `next` pointers from `task_queue_head` to `task_queue_tail`, the
pointer `current_task`, and two counters. A `task_t*` in the code is NULL
or the address of a slot, so it is an `Option Slot` here, and a store
through it is a store into that slot.

Every function is a statement-by-statement transcription of
`scheduler.c`. Two points are easy to miss and are kept as the code has
them:

* `task_queue_add` first clears the task's own `next` and then writes the
  old tail's `next`. When the task IS the old tail, the second store makes
  it point to itself;
* `schedule` returns at once when the queue is empty: it neither resets
  the slice of the running task nor changes `current_task`, whatever the
  state of that task is.

The saved CPU context (`esp`, `ebp`, `ebx`, `esi`, `edi`, `eflags`, `eip`)
and the stack array are written by `task_create` and never read by a
scheduling decision (`switch_to_task` tests the old `esp` against 0 and
does nothing either way), so they are not modelled.
-/

namespace MiniCore.Scheduler

/-- `MAX_TASKS`. -/
abbrev maxTasks : Nat := 8

/-- A slot of `tasks[MAX_TASKS]`. -/
abbrev Slot := Fin maxTasks

/-- `task_state_t`; the enumerators in declaration order, `TASK_READY = 0`. -/
inductive TaskState
  | ready
  | running
  | sleeping
  | terminated
  deriving DecidableEq, Repr

/-- The fields of `task_t` that the scheduler reads or writes. -/
structure Task where
  id : BitVec 32
  name : Fin 32 → BitVec 8
  state : TaskState
  timeSlice : BitVec 32
  timeRemaining : BitVec 32
  sleepUntil : BitVec 32
  next : Option Slot

/-- The static variables of `scheduler.c`. -/
structure Sched where
  tasks : Slot → Task
  taskQueueHead : Option Slot
  taskQueueTail : Option Slot
  currentTask : Option Slot
  nextTaskId : BitVec 32
  systemTicks : BitVec 32

/-- The state the kernel image starts with: `.bss` is zero, so every slot
is `TASK_READY` with id 0, and `next_task_id` has its initialiser 1. -/
def Sched.bss : Sched where
  tasks := fun _ => ⟨0, fun _ => 0, .ready, 0, 0, 0, none⟩
  taskQueueHead := none
  taskQueueTail := none
  currentTask := none
  nextTaskId := 1
  systemTicks := 0

/-- A store into slot `i`. -/
def Sched.modify (s : Sched) (i : Slot) (f : Task → Task) : Sched :=
  { s with tasks := Function.update s.tasks i (f (s.tasks i)) }

/-! ## The functions of `scheduler.c` -/

/-- `scheduler_init`. It marks every slot terminated and empties the queue;
it does not touch `next_task_id` or any other field of a slot. -/
def schedulerInit (s : Sched) : Sched :=
  { s with
    tasks := fun i => { s.tasks i with state := .terminated, id := 0 }
    taskQueueHead := none
    taskQueueTail := none
    currentTask := none
    systemTicks := 0 }

/-- `task_queue_add`. -/
def taskQueueAdd (s : Sched) (t : Slot) : Sched :=
  let s := s.modify t fun k => { k with next := none }
  match s.taskQueueTail with
  | some tail =>
    { (s.modify tail fun k => { k with next := some t }) with taskQueueTail := some t }
  | none => { s with taskQueueHead := some t, taskQueueTail := some t }

/-- `task_queue_remove_next`: the old head, if any, and the state after it
is unlinked. -/
def taskQueueRemoveNext (s : Sched) : Sched × Option Slot :=
  match s.taskQueueHead with
  | none => (s, none)
  | some t =>
    let s := { s with taskQueueHead := (s.tasks t).next }
    let s := if s.taskQueueHead = none then { s with taskQueueTail := none } else s
    (s.modify t fun k => { k with next := none }, some t)

/-- `switch_to_task`. -/
def switchToTask (s : Sched) (t : Slot) : Sched :=
  { (s.modify t fun k => { k with state := .running, timeRemaining := k.timeSlice }) with
    currentTask := some t }

/-- `schedule`. -/
def schedule (s : Sched) : Sched :=
  match taskQueueRemoveNext s with
  | (s, none) => s
  | (s, some nextTask) =>
    let s := match s.currentTask with
      | some c =>
        if (s.tasks c).state = .running then
          taskQueueAdd (s.modify c fun k => { k with state := .ready, timeRemaining := k.timeSlice }) c
        else s
      | none => s
    switchToTask s nextTask

/-- One iteration of the wake-up loop of `scheduler_tick`. -/
def wakeStep (s : Sched) (i : Slot) : Sched :=
  if (s.tasks i).state = .sleeping ∧ (s.tasks i).sleepUntil ≤ s.systemTicks then
    taskQueueAdd (s.modify i fun k => { k with state := .ready }) i
  else s

/-- The wake-up loop, `for (i = 0; i < MAX_TASKS; i++)`. -/
def wakeSleepers (s : Sched) : Sched := (List.finRange maxTasks).foldl wakeStep s

/-- `scheduler_tick`. Scheduling waits until `system_ticks` passes 100. -/
def schedulerTick (s : Sched) : Sched :=
  let s := wakeSleepers { s with systemTicks := s.systemTicks + 1 }
  match s.currentTask with
  | some c =>
    if 100 < s.systemTicks then
      let s := s.modify c fun k => { k with timeRemaining := k.timeRemaining - 1 }
      if (s.tasks c).timeRemaining = 0 then schedule s else s
    else s
  | none => s

/-- `task_yield`. -/
def taskYield (s : Sched) : Sched := schedule s

/-- `task_sleep`. -/
def taskSleep (s : Sched) (ticks : BitVec 32) : Sched :=
  match s.currentTask with
  | some c =>
    schedule (s.modify c fun k => { k with state := .sleeping, sleepUntil := s.systemTicks + ticks })
  | none => s

/-- `task_exit`. -/
def taskExit (s : Sched) : Sched :=
  match s.currentTask with
  | some c =>
    schedule { (s.modify c fun k => { k with state := .terminated }) with currentTask := none }
  | none => s

/-- The copy loop of `task_create`,
`for (i = 0; i < 32 && name[i]; i++) task->name[i] = name[i];`, where the
argument string is the bytes `src` followed by its NUL: byte `i` is copied
when no NUL comes at or before it. -/
def copyName (dst : Fin 32 → BitVec 8) (src : List (BitVec 8)) : Fin 32 → BitVec 8 :=
  fun i => if ∀ j ≤ i.val, src.getD j 0 ≠ 0 then src.getD i.val 0 else dst i

/-- The first `TASK_TERMINATED` slot, as the search loop of `task_create`
finds it. -/
def freeSlot (s : Sched) : Option Slot :=
  (List.finRange maxTasks).find? fun i => (s.tasks i).state = .terminated

/-- `task_create`: the new id, or 0 when every slot is in use. -/
def taskCreate (s : Sched) (name : List (BitVec 8)) : Sched × BitVec 32 :=
  match freeSlot s with
  | none => (s, 0)
  | some i =>
    let id := s.nextTaskId
    let s := { s with nextTaskId := s.nextTaskId + 1 }
    let s := s.modify i fun k => { k with
      id := id
      name := Function.update (copyName k.name name) 31 0
      state := .ready
      timeSlice := 10
      timeRemaining := 10
      sleepUntil := 0 }
    (taskQueueAdd s i, (s.tasks i).id)

/-! ## Runs -/

/-- One call into the scheduler's interface. -/
inductive Call
  | taskCreate (name : List (BitVec 8))
  | schedulerTick
  | schedule
  | taskYield
  | taskSleep (ticks : BitVec 32)
  | taskExit

/-- The state after a call. -/
def Call.run (s : Sched) : Call → Sched
  | .taskCreate name => (Scheduler.taskCreate s name).1
  | .schedulerTick => Scheduler.schedulerTick s
  | .schedule => Scheduler.schedule s
  | .taskYield => Scheduler.taskYield s
  | .taskSleep k => Scheduler.taskSleep s k
  | .taskExit => Scheduler.taskExit s

/-- The state after a sequence of calls. -/
def Call.runAll (s : Sched) (cs : List Call) : Sched := cs.foldl Call.run s

theorem Call.runAll_append (s : Sched) (cs ds : List Call) :
    Call.runAll s (cs ++ ds) = Call.runAll (Call.runAll s cs) ds :=
  List.foldl_append _ _ _ _

/-- The states reachable from `scheduler_init` by calls that `ok` allows. -/
inductive Reachable (ok : Call → Prop) : Sched → Prop
  | init : Reachable ok (schedulerInit Sched.bss)
  | call {s : Sched} {c : Call} : Reachable ok s → ok c → Reachable ok (c.run s)

theorem Reachable.runAll {ok : Call → Prop} {s : Sched} (hs : Reachable ok s) :
    ∀ {cs : List Call}, (∀ c ∈ cs, ok c) → Reachable ok (Call.runAll s cs)
  | [], _ => hs
  | c :: cs, hok =>
    (hs.call (hok c (List.mem_cons_self c cs))).runAll fun d hd => hok d (List.mem_cons_of_mem c hd)

/-- The ready queue as the list reached from `task_queue_head` through
`next`. A walk longer than the eight slots has met a slot twice, and `next`
is a function of the slot, so it never ends: `none`. -/
def queueWalk (s : Sched) : Nat → Option Slot → Option (List Slot)
  | _, none => some []
  | 0, some _ => none
  | n + 1, some i => (queueWalk s n (s.tasks i).next).map (i :: ·)

/-- The ready queue, when the list from the head is finite. -/
def readyList (s : Sched) : Option (List Slot) := queueWalk s maxTasks s.taskQueueHead

end MiniCore.Scheduler
