import MiniCore.Scheduler.Queue

/-!
# Round robin without `task_sleep` and `task_exit`

In a run made of `task_create`, `schedule`/`task_yield` and
`scheduler_tick` alone, the linked ready queue IS a first-in first-out list
of the READY slots, and each call moves it by the move it makes
(`Call.fifoOp`, applied by `Fifo.apply`):

* **push**: `task_create` appends the first TERMINATED slot at the tail;
* **switch**: `schedule`, `task_yield`, and a `scheduler_tick` that ends
  the running slot's slice (`sliceEnds`) install the first slot and append
  the slot that was running behind every slot already queued; on an empty
  queue they change nothing;
* **stay**: any other call, and a `task_create` with no slot free.

**The law** (`roundRobin_fifo`): every reachable state holds its READY slots
as the list walked from `task_queue_head`, and every call moves that list,
and `current_task`, exactly as its move says. Consequently, between two
consecutive switches to the same slot, every slot that was READY at the
first switch is switched to exactly once, in queue order (`fifo_fair`,
carried to the code by `switchEvents_fifoRun`); and a run of yields turns
the whole queue once (`RoundRobin.switches_turn`).

The proof is a simulation. `RoundRobin s q` is the invariant of such runs
(the queue holds `q`, `q` is the READY slots, `current_task` is the one
RUNNING slot, nobody sleeps); `RoundRobin.step` shows that each call keeps it
and moves `q` by its move, from one lemma per scheduler function
(`RoundRobin.taskCreate`, `RoundRobin.schedule_apply`,
`RoundRobin.schedulerTick`).

What it does not cover: with `task_sleep` the invariant fails
(`taskSleep_leaves_sleeper_queued`), and the slice counter can wrap
(`timeRemaining_wraps`); neither matters to the ORDER of switches here, only
to WHEN they happen.
-/

namespace MiniCore.Scheduler

/-! ## The abstract queue -/

/-- The abstract state: the queue, and the slot running, if any. -/
structure Fifo where
  queue : List Slot
  running : Option Slot

/-- One move of the abstract queue, with the slot it switched to. -/
inductive FifoStep : Fifo → Option Slot → Fifo → Prop
  | stay (f : Fifo) : FifoStep f none f
  | push (f : Fifo) (t : Slot) : t ∉ f.queue → f.running ≠ some t →
      FifoStep f none ⟨f.queue ++ [t], f.running⟩
  | switch (a : Slot) (rest : List Slot) (r : Option Slot) :
      FifoStep ⟨a :: rest, r⟩ (some a) ⟨rest ++ r.toList, some a⟩

/-- A run of abstract moves, and the slots it switched to, in order. -/
inductive FifoRun : Fifo → List Slot → Prop
  | nil (f : Fifo) : FifoRun f []
  | cons {f f' : Fifo} {e : Option Slot} {es : List Slot} :
      FifoStep f e f' → FifoRun f' es → FifoRun f (e.toList ++ es)

/-- What a call does to the abstract queue. -/
inductive FifoOp
  | stay
  | push (t : Slot)
  | switch

/-- The abstract queue after a move: a push appends at the tail; a switch
installs the first slot and appends the running one behind the rest, and
on an empty queue changes nothing. -/
def Fifo.apply : FifoOp → Fifo → Fifo
  | .stay, f => f
  | .push t, f => ⟨f.queue ++ [t], f.running⟩
  | .switch, ⟨[], r⟩ => ⟨[], r⟩
  | .switch, ⟨a :: rest, r⟩ => ⟨rest ++ r.toList, some a⟩

/-- The slot a move switches to. -/
def Fifo.switchedBy : FifoOp → Fifo → Option Slot
  | .switch, ⟨a :: _, _⟩ => some a
  | _, _ => none

/-- Each move is a step of the abstract queue, when what it pushes is
neither queued nor running. -/
theorem FifoStep.of_apply {f : Fifo} {op : FifoOp}
    (hp : ∀ t, op = .push t → t ∉ f.queue ∧ f.running ≠ some t) :
    FifoStep f (f.switchedBy op) (f.apply op) := by
  rcases f with ⟨_ | ⟨a, rest⟩, r⟩ <;> cases op
  case push t | push t => exact .push _ t (hp t rfl).1 (hp t rfl).2
  all_goals first | exact .stay _ | exact .switch a rest r

/-- A well-formed abstract queue: no slot twice, the running one not queued. -/
def Fifo.WF (f : Fifo) : Prop := f.queue.Nodup ∧ ∀ r, f.running = some r → r ∉ f.queue

theorem FifoStep.wf {f f' : Fifo} {e : Option Slot} (h : FifoStep f e f') (hf : f.WF) : f'.WF := by
  cases h with
  | stay => exact hf
  | push f t ht hr =>
    refine ⟨List.nodup_append.2 ⟨hf.1, List.nodup_singleton t, by simpa using ht⟩, fun r hr' => ?_⟩
    simp only [List.mem_append, List.mem_singleton, not_or]
    exact ⟨hf.2 r hr', fun e => hr (e ▸ hr')⟩
  | switch a rest r =>
    have ha := List.nodup_cons.1 hf.1
    refine ⟨List.nodup_append.2 ⟨ha.2, ?_, ?_⟩, ?_⟩
    · cases r <;> simp
    · intro x hx hx'
      cases r with
      | none => simp at hx'
      | some r =>
        simp only [Option.toList_some, List.mem_singleton] at hx'
        exact hf.2 r rfl (hx' ▸ List.mem_cons_of_mem a hx)
    · intro x hx
      cases hx
      simp only [List.mem_append, not_or]
      refine ⟨ha.1, fun hm => ?_⟩
      cases r with
      | none => simp at hm
      | some r =>
        simp only [Option.toList_some, List.mem_singleton] at hm
        exact hf.2 r rfl (hm ▸ List.mem_cons_self _ _)

/-! ## Fairness of the abstract queue

While slot `X` waits for its next switch, the slots switched to so far
(`done`) and the slots still ahead of `X` form, in order, a duplicate-free
list that starts with `W`, the queue at the moment `X` was installed.
Before the first switch `X` is running and the whole queue is ahead of it;
after it, `X` sits in the queue and the slots ahead are those before it. -/

/-- The phase invariant while `X` waits. -/
def Waiting (X : Slot) (W done : List Slot) (f : Fifo) : Prop :=
  f.WF ∧ X ∉ done ∧
    ((done = [] ∧ f.running = some X ∧ W <+: f.queue) ∨
      ∃ ahead after, f.queue = ahead ++ X :: after ∧ X ∉ ahead ∧ W <+: done ++ ahead ∧
        (done ++ ahead).Nodup)

/-- A move that switches to nobody keeps the phase. -/
theorem Waiting.quiet {X : Slot} {W done : List Slot} {f f' : Fifo} (hw : Waiting X W done f)
    (h : FifoStep f none f') : Waiting X W done f' := by
  obtain ⟨hf, hX, hph⟩ := hw
  refine ⟨h.wf hf, hX, ?_⟩
  cases h with
  | stay => exact hph
  | push f t _ _ =>
    rcases hph with ⟨hd, hr, hW⟩ | ⟨ahead, after, hq, ha, hW, hn⟩
    · exact .inl ⟨hd, hr, hW.trans (List.prefix_append _ _)⟩
    · exact .inr ⟨ahead, after ++ [t], by simp [hq], ha, hW, hn⟩

/-- A switch to a slot other than `X` moves that slot from the slots ahead
to `done`. -/
theorem Waiting.switch {X a : Slot} {W done rest : List Slot} {r : Option Slot}
    (hw : Waiting X W done ⟨a :: rest, r⟩) (haX : a ≠ X) :
    Waiting X W (done ++ [a]) ⟨rest ++ r.toList, some a⟩ := by
  obtain ⟨hf, hX, hph⟩ := hw
  refine ⟨(FifoStep.switch a rest r).wf hf, by simp [hX, haX.symm], .inr ?_⟩
  rcases hph with ⟨rfl, hr, hW⟩ | ⟨ahead, after, hq, ha, hW, hn⟩
  · have hXq : X ∉ a :: rest := hf.2 X hr
    cases hr
    exact ⟨rest, [], by simp, fun h => hXq (List.mem_cons_of_mem a h), by simpa using hW,
      by simpa using hf.1⟩
  · obtain ⟨ahead', rfl⟩ : ∃ ahead', ahead = a :: ahead' := by
      rcases ahead with _ | ⟨b, ahead'⟩
      · exact absurd (List.cons.inj hq).1 haX
      · exact ⟨ahead', by rw [(List.cons.inj hq).1]⟩
    have hrest : rest = ahead' ++ X :: after := (List.cons.inj hq).2
    exact ⟨ahead', after ++ r.toList, by simp [hrest], fun h => ha (List.mem_cons_of_mem a h),
      by simpa using hW, by simpa using hn⟩

/-- The phase, run to its end: the slots switched to before the next
switch to `X` carry no duplicate, and if that switch comes they start with
`W`. -/
theorem FifoRun.waiting {X : Slot} {f : Fifo} {es : List Slot} (h : FifoRun f es) :
    ∀ {W done : List Slot}, Waiting X W done f →
      (done ++ es.takeWhile (· ≠ X)).Nodup ∧ (X ∈ es → W <+: done ++ es.takeWhile (· ≠ X)) := by
  induction h with
  | nil f =>
    intro W done hw
    obtain ⟨_, _, ⟨rfl, _⟩ | ⟨ahead, _, _, _, _, hn⟩⟩ := hw
    · simp
    · simpa using (List.nodup_append.1 hn).1
  | @cons f f' e es hs _ ih =>
    intro W done hw
    cases hs with
    | stay => exact ih hw
    | push f t ht hr => exact ih (hw.quiet (.push f t ht hr))
    | switch a rest r =>
      by_cases haX : a = X
      · subst haX
        obtain ⟨hf, _, ⟨_, hr', _⟩ | ⟨ahead, after, hq, ha, hW, hn⟩⟩ := hw
        · exact absurd (List.mem_cons_self a rest) (hf.2 a hr')
        · have : ahead = [] := by
            rcases ahead with _ | ⟨b, ahead⟩
            · rfl
            · exact absurd ((List.cons.inj hq).1 ▸ List.mem_cons_self b ahead) ha
          subst this
          simp only [Option.toList_some, List.singleton_append, List.takeWhile_cons, ne_eq,
            not_true_eq_false, decide_False, List.append_nil]
          exact ⟨by simpa using hn, fun _ => by simpa using hW⟩
      · have := ih (hw.switch haX)
        simp only [Option.toList_some, List.singleton_append, List.takeWhile_cons, ne_eq, haX,
          not_false_eq_true, decide_True, List.mem_cons, Ne.symm haX, false_or,
          List.append_assoc, List.singleton_append] at this ⊢
        exact this

/-- **Round-robin fairness of the abstract queue.** From a well-formed state
in which `X` was just installed, the slots switched to before `X` runs
again carry no duplicate, and, if `X` does run again, they begin with the
whole queue as it stood at `X`'s installation, in its order. -/
theorem fifo_fair {X : Slot} {f : Fifo} {es : List Slot} (h : FifoRun f es) (hf : f.WF)
    (hX : f.running = some X) :
    (es.takeWhile (· ≠ X)).Nodup ∧ (X ∈ es → f.queue <+: es.takeWhile (· ≠ X)) := by
  simpa using h.waiting (show Waiting X f.queue [] f from
    ⟨hf, by simp, .inl ⟨rfl, hX, List.prefix_rfl⟩⟩)

/-! ## The scheduler's side -/

/-- The calls of a run without `task_sleep` and `task_exit`. -/
def NoSleep : Call → Prop
  | .taskSleep _ | .taskExit => False
  | _ => True

/-- The slot a call switched to: the new `current_task`, when it changed. -/
def switchedTo (s s' : Sched) : Option Slot :=
  if s'.currentTask = s.currentTask then none else s'.currentTask

/-- The invariant of runs without sleep and exit. -/
structure RoundRobin (s : Sched) (q : List Slot) extends Consistent s q : Prop where
  awake : Awake s
  current : ∀ c, s.currentTask = some c → (s.tasks c).state = .running

theorem RoundRobin.not_mem_of_current {s : Sched} {q : List Slot} (h : RoundRobin s q) {c : Slot}
    (hc : s.currentTask = some c) : c ∉ q := fun hm => by
  have := (h.ready_iff c).1 hm
  rw [h.current c hc] at this
  cases this

@[simp] theorem switchToTask_state (s : Sched) (t j : Slot) :
    ((switchToTask s t).tasks j).state = if j = t then .running else (s.tasks j).state := by
  simp only [switchToTask, modify_tasks]; split_ifs <;> rfl

@[simp] theorem switchToTask_next (s : Sched) (t j : Slot) :
    ((switchToTask s t).tasks j).next = (s.tasks j).next := by
  simp only [switchToTask, modify_tasks]; split_ifs with h <;> simp [h]

/-- The invariant after a switch to `a`, from the three facts a switch
establishes: the queue, `current_task`, and the states. -/
theorem RoundRobin.of_switch {s s' : Sched} {a : Slot} {rest : List Slot} (h : RoundRobin s (a :: rest))
    (hq : Queued s' (rest ++ s.currentTask.toList)) (hc : s'.currentTask = some a)
    (hst : ∀ j, (s'.tasks j).state =
      if j = a then .running else if s.currentTask = some j then .ready else (s.tasks j).state) :
    RoundRobin s' (rest ++ s.currentTask.toList) := by
  have ha : a ∉ rest := (List.nodup_cons.1 h.queued.nodup).1
  have hca : s.currentTask ≠ some a := fun e => h.not_mem_of_current e (List.mem_cons_self a rest)
  refine ⟨⟨hq, fun i => ?_, fun i hi => ?_⟩, fun i => ?_, fun c hc' => ?_⟩
  · rw [hst]
    by_cases hia : i = a
    · subst hia
      simp [ha, hca]
    · by_cases hic : s.currentTask = some i
      · simp [hia, hic]
      · rw [if_neg hia, if_neg hic, ← h.ready_iff i]
        simp [hia, hic]
  · rw [hst] at hi
    split_ifs at hi with h1 h2
    · rw [hc, h1]
    · exact absurd (h.running i hi) h2
  · rw [hst]
    split_ifs <;> simp [h.awake i]
  · rw [hc] at hc'
    cases hc'
    simp [hst]

/-- `schedule` on a non-empty queue installs its first slot and re-queues
the running one behind the rest. -/
theorem RoundRobin.schedule {s : Sched} {a : Slot} {rest : List Slot} (h : RoundRobin s (a :: rest)) :
    RoundRobin (Scheduler.schedule s) (rest ++ s.currentTask.toList) ∧
      (Scheduler.schedule s).currentTask = some a := by
  obtain ⟨hpop, hQ⟩ := h.queued.removeNext
  have e : taskQueueRemoveNext s = ((taskQueueRemoveNext s).1, some a) := Prod.ext rfl hpop
  have hc1 := taskQueueRemoveNext_currentTask s
  have hst1 := taskQueueRemoveNext_state s
  generalize (taskQueueRemoveNext s).1 = s1 at e hQ hc1 hst1
  suffices H : Queued (Scheduler.schedule s) (rest ++ s.currentTask.toList) ∧
      (Scheduler.schedule s).currentTask = some a ∧
      ∀ j, ((Scheduler.schedule s).tasks j).state =
        if j = a then .running else if s.currentTask = some j then .ready else (s.tasks j).state from
    ⟨h.of_switch H.1 H.2.1 H.2.2, H.2.1⟩
  simp only [Scheduler.schedule, e, hc1]
  cases hcur : s.currentTask with
  | none =>
    refine ⟨by simpa using (hQ.congr rfl rfl (switchToTask_next s1 a) : Queued (switchToTask s1 a) rest),
      rfl, fun j => ?_⟩
    simp [hst1]
  | some c =>
    have hrun := h.current c hcur
    have hcq : c ∉ rest := fun hm => h.not_mem_of_current hcur (List.mem_cons_of_mem a hm)
    have hQ' : Queued (s1.modify c fun k => { k with state := .ready, timeRemaining := k.timeSlice })
        rest := hQ.congr rfl rfl fun j => by simp only [modify_tasks]; split_ifs with hj <;> simp [hj]
    simp only [hst1, hrun, if_true]
    refine ⟨(hQ'.add hcq).congr rfl rfl (switchToTask_next _ a), rfl, fun j => ?_⟩
    by_cases hja : j = a <;> by_cases hjc : j = c <;> simp [hja, hjc, hst1, @eq_comm _ c]

/-- `schedule` on an empty queue changes nothing. -/
theorem RoundRobin.schedule_nil {s : Sched} (h : RoundRobin s []) : Scheduler.schedule s = s := by
  simp [Scheduler.schedule, h.queued.removeNext_nil]

/-- `RoundRobin` reads the head, the tail, `current_task`, and the `next` and
`state` fields, nothing else. -/
theorem RoundRobin.congr {s s' : Sched} {q : List Slot} (h : RoundRobin s q)
    (hh : s'.taskQueueHead = s.taskQueueHead) (ht : s'.taskQueueTail = s.taskQueueTail)
    (hc : s'.currentTask = s.currentTask) (hn : ∀ i, (s'.tasks i).next = (s.tasks i).next)
    (hs : ∀ i, (s'.tasks i).state = (s.tasks i).state) : RoundRobin s' q := by
  refine ⟨⟨h.queued.congr hh ht hn, fun i => ?_, fun i hi => ?_⟩, fun i => ?_, fun c hc' => ?_⟩
  · rw [hs]; exact h.ready_iff i
  · rw [hc]; exact h.running i (hs i ▸ hi)
  · rw [hs]; exact h.awake i
  · rw [hs]; exact h.current c (hc ▸ hc')

/-- A store into a slot that keeps its `next` and `state` keeps the
invariant. -/
theorem RoundRobin.modify {s : Sched} {q : List Slot} {i : Slot} {f : Task → Task}
    (h : RoundRobin s q) (hn : ∀ k, (f k).next = k.next) (hs : ∀ k, (f k).state = k.state) :
    RoundRobin (s.modify i f) q :=
  h.congr rfl rfl rfl (fun j => by simp only [modify_tasks]; split_ifs with hj <;> simp [hj, hn])
    (fun j => by simp only [modify_tasks]; split_ifs with hj <;> simp [hj, hs])

/-- The invariant after a slot that was TERMINATED is pushed at the tail. -/
theorem RoundRobin.of_push {s s' : Sched} {q : List Slot} {t : Slot} (h : RoundRobin s q)
    (ht : (s.tasks t).state = .terminated) (hq : Queued s' (q ++ [t]))
    (hc : s'.currentTask = s.currentTask)
    (hst : ∀ j, (s'.tasks j).state = if j = t then .ready else (s.tasks j).state) :
    RoundRobin s' (q ++ [t]) := by
  refine ⟨⟨hq, fun i => ?_, fun i hi => ?_⟩, fun i => ?_, fun c hc' => ?_⟩
  · by_cases hit : i = t
    · simp [hit, hst]
    · simp [hit, hst, h.ready_iff i]
  · rw [hst] at hi
    split_ifs at hi with hit
    exact hc ▸ h.running i hi
  · rw [hst]; split_ifs <;> simp [h.awake i]
  · have hrun := h.current c (hc ▸ hc')
    have hct : c ≠ t := fun e => by rw [e, ht] at hrun; cases hrun
    simp [hst, hct, hrun]

theorem freeSlot_terminated {s : Sched} {t : Slot} (h : freeSlot s = some t) :
    (s.tasks t).state = .terminated := by
  simpa using List.find?_some h

/-- `task_create` pushes the first TERMINATED slot, if there is one, at the
tail, and leaves `current_task` alone. -/
theorem RoundRobin.taskCreate {s : Sched} {q : List Slot} (h : RoundRobin s q) (name : List (BitVec 8)) :
    RoundRobin (Scheduler.taskCreate s name).1 (q ++ (freeSlot s).toList) ∧
      (Scheduler.taskCreate s name).1.currentTask = s.currentTask ∧
      ∀ t ∈ freeSlot s, t ∉ q ∧ s.currentTask ≠ some t := by
  cases hf : freeSlot s with
  | none => exact ⟨by simpa [Scheduler.taskCreate, hf] using h, by simp [Scheduler.taskCreate, hf], nofun⟩
  | some t =>
    have ht := freeSlot_terminated hf
    have htq : t ∉ q := fun hm => by rw [(h.ready_iff t).1 hm] at ht; cases ht
    have htc : s.currentTask ≠ some t := fun e => by rw [h.current t e] at ht; cases ht
    refine ⟨?_, by simp [Scheduler.taskCreate, hf], fun t' e => by cases e; exact ⟨htq, htc⟩⟩
    simp only [Scheduler.taskCreate, hf, Option.toList_some]
    refine h.of_push ht (Queued.add (h.queued.congr rfl rfl fun j => ?_) htq) (by simp) fun j => ?_
    · simp only [modify_tasks]; split_ifs <;> simp_all
    · simp only [taskQueueAdd_state, modify_tasks]; split_ifs <;> simp_all

/-- `scheduler_tick` ends the running slot's slice: past the first 100
ticks, the slot's `time_remaining` counts down to 0. -/
def sliceEnds (s : Sched) : Bool :=
  match s.currentTask with
  | some c => decide (100 < s.systemTicks + 1) && decide ((s.tasks c).timeRemaining - 1 = 0)
  | none => false

/-- The move a call makes on the abstract queue from the state `s`:
`task_create` pushes the first TERMINATED slot, if there is one;
`schedule` and `task_yield` switch, and so does `scheduler_tick` when it
ends the running slot's slice. -/
def Call.fifoOp (s : Sched) : Call → FifoOp
  | .taskCreate _ => (freeSlot s).elim .stay .push
  | .schedule | .taskYield => .switch
  | .schedulerTick => if sliceEnds s then .switch else .stay
  | .taskSleep _ | .taskExit => .stay

/-- `schedule` moves the queue by the abstract switch. -/
theorem RoundRobin.schedule_apply {s : Sched} {q : List Slot} (h : RoundRobin s q) :
    RoundRobin (Scheduler.schedule s) (Fifo.apply .switch ⟨q, s.currentTask⟩).queue ∧
      (Scheduler.schedule s).currentTask = (Fifo.apply .switch ⟨q, s.currentTask⟩).running := by
  rcases q with _ | ⟨a, rest⟩
  · rw [h.schedule_nil]; exact ⟨h, rfl⟩
  · exact h.schedule

/-- `scheduler_tick` with nobody asleep charges the tick, and switches
exactly when it ends the slice. -/
theorem RoundRobin.schedulerTick {s : Sched} {q : List Slot} (h : RoundRobin s q) :
    RoundRobin (Scheduler.schedulerTick s) (Fifo.apply (if sliceEnds s then .switch else .stay) ⟨q, s.currentTask⟩).queue ∧
      (Scheduler.schedulerTick s).currentTask =
        (Fifo.apply (if sliceEnds s then .switch else .stay) ⟨q, s.currentTask⟩).running := by
  have h1 : RoundRobin { s with systemTicks := s.systemTicks + 1 } q :=
    h.congr rfl rfl rfl (fun _ => rfl) (fun _ => rfl)
  unfold Scheduler.schedulerTick sliceEnds
  rw [wakeSleepers_of_awake h1.awake]
  dsimp only
  generalize s.currentTask = cur at h1 ⊢
  cases cur with
  | none => exact ⟨h1, rfl⟩
  | some c =>
    have h2 := h1.modify (i := c) (f := fun k => { k with timeRemaining := k.timeRemaining - 1 })
      (fun _ => rfl) (fun _ => rfl)
    by_cases ht : 100 < s.systemTicks + 1
    · by_cases hz : (s.tasks c).timeRemaining - 1 = 0
      · simp only [ht, hz, decide_True, Bool.and_self, ↓reduceIte, modify_tasks]
        exact h2.schedule_apply
      · simp only [ht, hz, decide_True, decide_False, Bool.and_false, ↓reduceIte, modify_tasks]
        exact ⟨h2, rfl⟩
    · simp only [ht, decide_False, Bool.false_and, ↓reduceIte]
      exact ⟨h1, rfl⟩

theorem switchedTo_of_eq {s s' : Sched} (h : s'.currentTask = s.currentTask) :
    switchedTo s s' = none := by simp [switchedTo, h]

theorem currentTask_of_switchedTo {s s' : Sched} {X : Slot} (h : switchedTo s s' = some X) :
    s'.currentTask = some X := by
  unfold switchedTo at h; split_ifs at h; exact h

/-- After a move of the abstract queue, the slot the code switched to is the
one the move switched to: a switch installs a slot that was queued, so not
the one running. -/
theorem RoundRobin.switchedTo_apply {s s' : Sched} {q : List Slot} (h : RoundRobin s q) (op : FifoOp)
    (hop : ∀ t, op = .push t → t ∉ q ∧ s.currentTask ≠ some t)
    (hc : s'.currentTask = (Fifo.apply op ⟨q, s.currentTask⟩).running) :
    switchedTo s s' = Fifo.switchedBy op ⟨q, s.currentTask⟩ := by
  rcases q with _ | ⟨a, rest⟩ <;> cases op
  case cons.switch =>
    rw [switchedTo, hc, if_neg fun e => h.not_mem_of_current e.symm (List.mem_cons_self a rest)]
    rfl
  all_goals exact switchedTo_of_eq hc

/-- **Each call moves the queue by the move it makes.** A call other than
`task_sleep` and `task_exit` keeps the invariant, and leaves the queue and
`current_task` as `Call.fifoOp` says; the slot it switched to is the one
that move switches to. -/
theorem RoundRobin.step {s : Sched} {q : List Slot} (h : RoundRobin s q) {c : Call} (hc : NoSleep c) :
    RoundRobin (c.run s) (Fifo.apply (c.fifoOp s) ⟨q, s.currentTask⟩).queue ∧
      (c.run s).currentTask = (Fifo.apply (c.fifoOp s) ⟨q, s.currentTask⟩).running ∧
      (∀ t, c.fifoOp s = .push t → t ∉ q ∧ s.currentTask ≠ some t) := by
  cases c with
  | taskCreate name =>
    obtain ⟨h', hcur, hfree⟩ := h.taskCreate name
    simp only [Call.run, Call.fifoOp]
    cases hf : freeSlot s with
    | none =>
      simp only [hf, Option.toList_none, List.append_nil] at h'
      exact ⟨h', hcur, nofun⟩
    | some t =>
      simp only [hf, Option.toList_some] at h' hfree
      refine ⟨h', hcur, fun t' e => ?_⟩
      simp only [Option.elim, FifoOp.push.injEq] at e
      exact e ▸ hfree t rfl
  | schedulerTick =>
    refine ⟨h.schedulerTick.1, h.schedulerTick.2, fun t e => ?_⟩
    simp only [Call.fifoOp] at e
    split_ifs at e
  | schedule => exact ⟨h.schedule_apply.1, h.schedule_apply.2, nofun⟩
  | taskYield => exact ⟨h.schedule_apply.1, h.schedule_apply.2, nofun⟩
  | taskSleep _ => exact hc.elim
  | taskExit => exact hc.elim

theorem RoundRobin.init (s : Sched) : RoundRobin (schedulerInit s) [] :=
  ⟨⟨⟨rfl, rfl, trivial, List.nodup_nil⟩, fun _ => by simp [schedulerInit],
    fun _ h => by simp [schedulerInit] at h⟩, fun _ => by simp [schedulerInit],
    fun _ h => by simp [schedulerInit] at h⟩

theorem Reachable.roundRobin {s : Sched} (h : Reachable NoSleep s) : ∃ q, RoundRobin s q := by
  induction h with
  | init => exact ⟨[], RoundRobin.init _⟩
  | call _ hc ih =>
    obtain ⟨q, hq⟩ := ih
    exact ⟨_, (hq.step hc).1⟩

/-- The slots a sequence of calls switched to, in order. -/
def switchEvents : Sched → List Call → List Slot
  | _, [] => []
  | s, c :: cs => (switchedTo s (c.run s)).toList ++ switchEvents (c.run s) cs

/-- The switches of a run of the code are those of a run of the abstract
queue. -/
theorem switchEvents_fifoRun {s : Sched} {q : List Slot} (h : RoundRobin s q) :
    ∀ {cs : List Call}, (∀ c ∈ cs, NoSleep c) → FifoRun ⟨q, s.currentTask⟩ (switchEvents s cs)
  | [], _ => .nil _
  | c :: cs, hcs => by
    obtain ⟨h', hcur, hop⟩ := h.step (hcs c (List.mem_cons_self c cs))
    have hstep := @FifoStep.of_apply ⟨q, s.currentTask⟩ _ hop
    rw [← h.switchedTo_apply _ hop hcur] at hstep
    have hrun := switchEvents_fifoRun h' fun d hd => hcs d (List.mem_cons_of_mem c hd)
    rw [hcur] at hrun
    exact .cons hstep hrun

/-- **A full turn of the queue.** With `x` running and the slots `q`
queued, `schedule` or `task_yield` called `q.length + 1` times in a row
switches to every slot of `q` in queue order, then back to `x`; the first
`k` of those calls switch to the first `k` of them. -/
theorem RoundRobin.switches_turn {s : Sched} {q : List Slot} {x : Slot} (h : RoundRobin s q)
    (hx : s.currentTask = some x) (hq : q ≠ []) :
    ∀ cs : List Call, (∀ c ∈ cs, c = .schedule ∨ c = .taskYield) → cs.length ≤ q.length + 1 →
      switchEvents s cs = (q ++ [x]).take cs.length := by
  intro cs
  induction cs generalizing s q x with
  | nil => intros; rfl
  | cons c cs ih =>
    intro hcs hlen
    obtain ⟨a, rest, rfl⟩ := List.exists_cons_of_ne_nil hq
    have hk : cs.length ≤ rest.length + 1 := by simp only [List.length_cons] at hlen; omega
    have hrun : c.run s = Scheduler.schedule s := by
      rcases hcs c (List.mem_cons_self c cs) with rfl | rfl <;> rfl
    obtain ⟨h', hc'⟩ := h.schedule
    rw [hx] at h'
    have hax : a ≠ x := fun e => h.not_mem_of_current hx (by subst e; exact List.mem_cons_self _ _)
    have hsw : switchedTo s (c.run s) = some a := by
      rw [switchedTo, hrun, hc', hx, if_neg fun e => hax (Option.some_inj.1 e)]
    rw [switchEvents, hsw, hrun, ih h' hc' (by simp) (fun d hd => hcs d (List.mem_cons_of_mem c hd))
      (by simp only [List.length_append, List.length_singleton]; omega),
      List.take_append_of_le_length (by simpa using hk), List.length_cons, List.cons_append, List.take_succ_cons]
    rfl

/-- **Round robin.** In every run from `scheduler_init` without `task_sleep`
and `task_exit`, the READY slots are exactly the list walked from
`task_queue_head`, and every call moves that list by the move it makes
(`Call.fifoOp`): `task_create` appends the slot it takes at the tail;
`schedule`, `task_yield`, and a `scheduler_tick` that ends the slice
install the first slot and re-queue the slot that was running behind all
the others; any other call leaves the list alone. Consequently, once a call
has switched to `X`, the slots switched to before `X` runs again carry no
duplicate, and when `X` does run again they begin with every slot that was
READY at `X`'s switch, in queue order; and with `X` running and `q` queued,
`q.length + 1` calls of `schedule` or `task_yield` switch to each slot of
`q` in order, then to `X`. -/
theorem roundRobin_fifo :
    (∀ s, Reachable NoSleep s → ∃ q, readyList s = some q ∧
      (∀ i, i ∈ q ↔ (s.tasks i).state = .ready) ∧
      ∀ c, NoSleep c → readyList (c.run s) = some (Fifo.apply (c.fifoOp s) ⟨q, s.currentTask⟩).queue ∧
        (c.run s).currentTask = (Fifo.apply (c.fifoOp s) ⟨q, s.currentTask⟩).running ∧
        switchedTo s (c.run s) = Fifo.switchedBy (c.fifoOp s) ⟨q, s.currentTask⟩) ∧
    (∀ s c X, Reachable NoSleep s → NoSleep c → switchedTo s (c.run s) = some X →
      ∀ cs, (∀ d ∈ cs, NoSleep d) →
        ((switchEvents (c.run s) cs).takeWhile (· ≠ X)).Nodup ∧
        (X ∈ switchEvents (c.run s) cs →
          (readyList (c.run s)).getD [] <+: (switchEvents (c.run s) cs).takeWhile (· ≠ X))) ∧
    (∀ s q X cs, Reachable NoSleep s → readyList s = some q → s.currentTask = some X → q ≠ [] →
      (∀ c ∈ cs, c = .schedule ∨ c = .taskYield) → cs.length = q.length + 1 → switchEvents s cs = q ++ [X]) := by
  refine ⟨fun s hs => ?_, fun s c X hs hc hX cs hcs => ?_, fun s q X cs hs hq hX hq0 hcs hlen => ?_⟩
  · obtain ⟨q, hq⟩ := hs.roundRobin
    refine ⟨q, hq.queued.readyList, hq.ready_iff, fun c hc => ?_⟩
    obtain ⟨hq', hcur, hop⟩ := hq.step hc
    exact ⟨hq'.queued.readyList, hcur, hq.switchedTo_apply _ hop hcur⟩
  · obtain ⟨q, hq⟩ := hs.roundRobin
    have hq' := (hq.step hc).1
    have hcur := currentTask_of_switchedTo hX
    rw [hq'.queued.readyList, Option.getD_some]
    have hrun := switchEvents_fifoRun hq' hcs
    rw [hcur] at hrun
    exact @fifo_fair X ⟨_, some X⟩ _ hrun ⟨hq'.queued.nodup, fun r hr => hq'.not_mem_of_current (hcur.trans hr)⟩ rfl
  · obtain ⟨q', hq'⟩ := hs.roundRobin
    obtain rfl : q' = q := Option.some_inj.1 (hq'.queued.readyList.symm.trans hq)
    rw [hq'.switches_turn hX hq0 cs hcs hlen.le, hlen, List.take_of_length_le (by simp)]

/-- Three tasks created and the first installed by a yield: three more
yields or schedules switch to the second and the third, then back to the
first. -/
theorem yields_turn_the_queue :
    ∃ s, s = Call.runAll (schedulerInit Sched.bss) [.taskCreate [0x41], .taskCreate [0x42], .taskCreate [0x43],
        .taskYield] ∧
      Reachable NoSleep s ∧ readyList s = some [1, 2] ∧ s.currentTask = some 0 ∧
      switchEvents s [.taskYield, .schedule, .taskYield] = [1, 2, 0] :=
  have hs := @Reachable.runAll NoSleep _ Reachable.init
    [.taskCreate [0x41], .taskCreate [0x42], .taskCreate [0x43], .taskYield] (by simp [NoSleep])
  ⟨_, rfl, hs, rfl, rfl, roundRobin_fifo.2.2 _ [1, 2] 0 _ hs rfl rfl (by decide) (by simp) rfl⟩

end MiniCore.Scheduler
