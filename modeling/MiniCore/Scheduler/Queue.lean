import MiniCore.Scheduler.Tick
import Mathlib.Data.Fintype.Card

/-!
# The ready queue as a list

`task_queue_head`, `task_queue_tail` and the `next` fields of the slots
represent a list of slots. `Queued s q` says which list: the head is the
first slot of `q`, following `next` visits `q` in order and ends in NULL,
the tail is the last slot, and no slot occurs twice. Every statement about
the queue is made about `q` through `Queued`, and the two queue primitives
get one lemma each:

* `Queued.add`: `task_queue_add` of a slot that is NOT queued appends it;
* `Queued.removeNext`: `task_queue_remove_next` pops the first slot.

`Queued` reads only the head, the tail and the `next` fields
(`Queued.congr`), so a store into any other field of a slot keeps it.
-/

namespace MiniCore.Scheduler

/-! ## Chains of `next` pointers -/

/-- `Chain s q z`: from the first slot of `q`, `next` visits `q` in order,
and the last slot's `next` is `z`. -/
def Chain (s : Sched) : List Slot → Option Slot → Prop
  | [], _ => True
  | [a], z => (s.tasks a).next = z
  | a :: b :: q, z => (s.tasks a).next = some b ∧ Chain s (b :: q) z

theorem chain_append_cons (s : Sched) (t : Slot) (r : List Slot) (z : Option Slot) :
    ∀ p : List Slot, Chain s (p ++ t :: r) z ↔ Chain s p (some t) ∧ Chain s (t :: r) z
  | [] => by simp [Chain]
  | [a] => Iff.rfl
  | a :: b :: p => by
    change (s.tasks a).next = some b ∧ Chain s (b :: p ++ t :: r) z ↔ _
    rw [chain_append_cons s t r z (b :: p)]
    exact and_assoc.symm

/-- A chain reads only the `next` fields of its own slots. -/
theorem Chain.congr {s s' : Sched} {z : Option Slot} :
    ∀ {q : List Slot}, (∀ i ∈ q, (s'.tasks i).next = (s.tasks i).next) → Chain s q z → Chain s' q z
  | [], _, _ => trivial
  | [_], h, hc => (h _ (List.mem_singleton_self _)).trans hc
  | a :: _ :: _, h, ⟨ha, hc⟩ =>
    ⟨(h a (List.mem_cons_self _ _)).trans ha,
      Chain.congr (fun i hi => h i (List.mem_cons_of_mem _ hi)) hc⟩

/-- The first link of a chain that ends in NULL. -/
theorem Chain.next_head {s : Sched} {a : Slot} {q : List Slot} (h : Chain s (a :: q) none) :
    (s.tasks a).next = q.head? ∧ Chain s q none := by
  cases q with
  | nil => exact ⟨h, trivial⟩
  | cons _ _ => exact ⟨h.1, h.2⟩

/-- Walking a chain that ends in NULL, with fuel for its length, returns it. -/
theorem queueWalk_chain {s : Sched} :
    ∀ {q : List Slot} {n : Nat}, Chain s q none → q.length ≤ n → queueWalk s n q.head? = some q
  | [], _, _, _ => by cases ‹Nat› <;> rfl
  | a :: q, n + 1, h, hn => by
    obtain ⟨hnext, hq⟩ := h.next_head
    simp only [List.head?_cons, queueWalk, hnext,
      queueWalk_chain (n := n) hq (by simp only [List.length_cons] at hn; omega), Option.map_some']

/-! ## The queue -/

/-- The queue holds exactly the list `q`. -/
structure Queued (s : Sched) (q : List Slot) : Prop where
  head : s.taskQueueHead = q.head?
  tail : s.taskQueueTail = q.getLast?
  chain : Chain s q none
  nodup : q.Nodup

/-- `Queued` reads only the head, the tail and the `next` fields. -/
theorem Queued.congr {s s' : Sched} {q : List Slot} (h : Queued s q)
    (hh : s'.taskQueueHead = s.taskQueueHead) (ht : s'.taskQueueTail = s.taskQueueTail)
    (hn : ∀ i, (s'.tasks i).next = (s.tasks i).next) : Queued s' q :=
  ⟨hh.trans h.head, ht.trans h.tail, h.chain.congr fun i _ => hn i, h.nodup⟩

/-- The list a queue holds is the one walked from the head. -/
theorem Queued.readyList {s : Sched} {q : List Slot} (h : Queued s q) : readyList s = some q := by
  have hlen : q.length ≤ maxTasks := by
    simpa using h.nodup.length_le_card
  rw [Scheduler.readyList, h.head]
  exact queueWalk_chain h.chain hlen

@[simp] theorem modify_tasks (s : Sched) (i : Slot) (f : Task → Task) (j : Slot) :
    (s.modify i f).tasks j = if j = i then f (s.tasks i) else s.tasks j := by
  simp only [Sched.modify, Function.update_apply]

@[simp] theorem modify_taskQueueHead (s : Sched) (i : Slot) (f : Task → Task) :
    (s.modify i f).taskQueueHead = s.taskQueueHead := rfl

@[simp] theorem modify_taskQueueTail (s : Sched) (i : Slot) (f : Task → Task) :
    (s.modify i f).taskQueueTail = s.taskQueueTail := rfl

@[simp] theorem modify_currentTask (s : Sched) (i : Slot) (f : Task → Task) :
    (s.modify i f).currentTask = s.currentTask := rfl

/-! ## `task_queue_add` -/

section Add

variable (s : Sched) (t j : Slot)

@[simp] theorem taskQueueAdd_head :
    (taskQueueAdd s t).taskQueueHead = if s.taskQueueTail = none then some t else s.taskQueueHead := by
  cases h : s.taskQueueTail <;> simp only [taskQueueAdd, Sched.modify, h] <;> rfl

@[simp] theorem taskQueueAdd_tail : (taskQueueAdd s t).taskQueueTail = some t := by
  cases h : s.taskQueueTail <;> simp only [taskQueueAdd, Sched.modify, h]

/-- The old tail points to `t`, and `t` to NULL unless it was the old tail. -/
@[simp] theorem taskQueueAdd_next : ((taskQueueAdd s t).tasks j).next =
    if s.taskQueueTail = some j then some t else if j = t then none else (s.tasks j).next := by
  cases h : s.taskQueueTail <;> simp only [taskQueueAdd, Sched.modify, h, Function.update_apply] <;>
    split_ifs <;> simp_all

@[simp] theorem taskQueueAdd_state : ((taskQueueAdd s t).tasks j).state = (s.tasks j).state := by
  cases h : s.taskQueueTail <;> simp only [taskQueueAdd, Sched.modify, h, Function.update_apply] <;>
    split_ifs <;> simp_all

@[simp] theorem taskQueueAdd_currentTask : (taskQueueAdd s t).currentTask = s.currentTask := by
  cases h : s.taskQueueTail <;> simp only [taskQueueAdd, Sched.modify, h]

@[simp] theorem taskQueueAdd_nextTaskId : (taskQueueAdd s t).nextTaskId = s.nextTaskId := by
  cases h : s.taskQueueTail <;> simp only [taskQueueAdd, Sched.modify, h]

end Add

/-- `task_queue_add` of a slot that is not queued appends it. -/
theorem Queued.add {s : Sched} {q : List Slot} {t : Slot} (h : Queued s q) (ht : t ∉ q) :
    Queued (taskQueueAdd s t) (q ++ [t]) := by
  have htail : s.taskQueueTail ≠ some t := by
    rw [h.tail]; exact fun e => ht (List.mem_of_getLast?_eq_some e)
  refine ⟨?_, by simp, ?_, List.nodup_append.2 ⟨h.nodup, List.nodup_singleton t, by simpa using ht⟩⟩
  · rcases q with _ | ⟨a, q⟩
    · simp [h.tail]
    · simp [h.tail, h.head]
  · rw [chain_append_cons]
    refine ⟨?_, by simp [Chain, htail]⟩
    rcases List.eq_nil_or_concat q with rfl | ⟨p, l, rfl⟩
    · trivial
    · rw [List.concat_eq_append] at h ht ⊢
      have hl : l ∉ p := fun hp =>
        (List.nodup_append.1 h.nodup).2.2 hp (List.mem_singleton_self l)
      have hc := h.chain
      rw [chain_append_cons] at hc ⊢
      refine ⟨hc.1.congr fun i hi => ?_, by simp [Chain, h.tail]⟩
      have hil : i ≠ l := fun e => hl (e ▸ hi)
      have hit : i ≠ t := fun e => ht (e ▸ List.mem_append_left _ hi)
      simp [h.tail, hil.symm, hit]

/-! ## `task_queue_remove_next` -/

section RemoveNext

variable (s : Sched) (j : Slot)

@[simp] theorem taskQueueRemoveNext_state :
    ((taskQueueRemoveNext s).1.tasks j).state = (s.tasks j).state := by
  cases h : s.taskQueueHead
  · simp only [taskQueueRemoveNext, h]
  · simp only [taskQueueRemoveNext, h]
    split_ifs <;> simp only [modify_tasks] <;> split_ifs <;> simp_all

@[simp] theorem taskQueueRemoveNext_currentTask :
    (taskQueueRemoveNext s).1.currentTask = s.currentTask := by
  cases h : s.taskQueueHead
  · simp only [taskQueueRemoveNext, h]
  · simp only [taskQueueRemoveNext, h]
    split_ifs <;> rfl

@[simp] theorem taskQueueRemoveNext_nextTaskId :
    (taskQueueRemoveNext s).1.nextTaskId = s.nextTaskId := by
  cases h : s.taskQueueHead
  · simp only [taskQueueRemoveNext, h]
  · simp only [taskQueueRemoveNext, h]
    split_ifs <;> rfl

end RemoveNext

/-- On an empty queue `task_queue_remove_next` finds nothing and changes
nothing. -/
theorem Queued.removeNext_nil {s : Sched} (h : Queued s []) : taskQueueRemoveNext s = (s, none) := by
  simp [taskQueueRemoveNext, h.head]

/-- `task_queue_remove_next` pops the first slot. -/
theorem Queued.removeNext {s : Sched} {a : Slot} {q : List Slot} (h : Queued s (a :: q)) :
    (taskQueueRemoveNext s).2 = some a ∧ Queued (taskQueueRemoveNext s).1 q := by
  obtain ⟨hn, hq⟩ := h.chain.next_head
  have hnd := List.nodup_cons.1 h.nodup
  simp only [taskQueueRemoveNext, h.head, hn, List.head?_cons]
  refine ⟨trivial, ?_, ?_, hq.congr fun i hi => ?_, hnd.2⟩
  · split_ifs <;> simp_all [Sched.modify]
  · rcases q with _ | ⟨b, q⟩
    · simp [Sched.modify]
    · simp [Sched.modify, h.tail]
  · have : i ≠ a := fun e => hnd.1 (e ▸ hi)
    split_ifs <;> simp [this]

/-! ## Consistency of the queue with the task states -/

/-- What the ready queue is meant to keep with the task states: the queue
holds the list `q`, `q` is exactly the READY slots, and a RUNNING slot is
`current_task`, so there is at most one. -/
structure Consistent (s : Sched) (q : List Slot) : Prop where
  queued : Queued s q
  ready_iff : ∀ i, i ∈ q ↔ (s.tasks i).state = .ready
  running : ∀ i, (s.tasks i).state = .running → s.currentTask = some i

/-- `task_sleep` with an empty queue: `schedule` returns at once and
`current_task` stays the SLEEPING task `A`. A tick wakes `A` and queues it
while it is still current, and `A`'s next `task_sleep` switches to `B` without
taking `A` out of the queue. `A` is then SLEEPING and queued, and the next
tick queues it a second time, so that it points to itself. -/
theorem taskSleep_leaves_sleeper_queued :
    ∃ s, s = Call.runAll (schedulerInit Sched.bss)
      [.taskCreate [0x41], .taskYield, .taskSleep 1, .taskCreate [0x42], .schedulerTick, .taskSleep 1] ∧
    Reachable (fun _ => True) s ∧ readyList s = some [0] ∧ (s.tasks 0).state = .sleeping ∧
      (¬ ∃ q, Consistent s q) ∧ readyList (schedulerTick s) = none := by
  refine ⟨_, rfl, Reachable.init.runAll fun _ _ => trivial, ?_⟩
  generalize hs : Call.runAll _ _ = s
  have hl : readyList s = some [0] := by subst hs; decide
  have hst : (s.tasks 0).state = .sleeping := by subst hs; decide
  refine ⟨hl, hst, ?_, by subst hs; decide⟩
  rintro ⟨q, hq⟩
  rw [hq.queued.readyList, Option.some.injEq] at hl
  subst hl
  simpa [hst] using (hq.ready_iff 0).1 (List.mem_singleton_self 0)

end MiniCore.Scheduler
