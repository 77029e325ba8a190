import MiniCore.Kernel.Memtest
import MiniCore.Mm.Print
import MiniCore.Shell.Keyboard
import MiniCore.Isr.Pic
import MiniCore.Scheduler.RoundRobin
import MiniCore.Fs.List

/-!
# The shell as one machine: no command leaks the heap, writes the files or switches tasks

`shell_run` polls `keyboard_handler` forever. A key reaches
`shell_process_input` or `shell_backspace`; Enter runs
`shell_execute_command`, which calls the handler `commands[]` holds for the
first word of the line. The handlers reach every other part of the kernel:
`mem` and `memtest` the allocator, `starttasks` the scheduler,
`enableints` the PIC masks and the interrupt flag, `ls` and `cat` the file
table, `halt` stops the processor. `Machine` is the state all of them act
on, `Machine.poll` one pass of the loop and `Machine.run` a run over any
polls.

Two facts about whole runs.

**The laws.**
- `shell_run_keeps_heap_files_queue`: with one turn of fuel per block of
  the arena and a few more, no pass of the loop faults, whatever is typed;
  the heap represents the same separated block list throughout (no command
  leaks or loses a block), the file table is never written, and the ready
  queue stays a FIFO of the scheduler's tasks that only grows at its tail
  (`cmd_starttasks` pushes there, by `task_create`), and `current_task`
  never changes: no command switches tasks.
- `shell_run_drives_line_editor`: the commands never write
  `keyboard_state` or `shell_state`, so the loop moves them exactly as
  `keyboard_handler` and the shell's input functions do on their own
  (`shellPoll`), and the results of `Shell.Keyboard` and `Shell.Line` hold
  of the whole machine.

## What this does NOT cover

`terminal_clear`, which `cmd_clear` calls and `src/` does not define (the
model prints nothing for it); the values the handlers return, which
`shell_execute_command` drops; the delay loop of `shell_run`; and
`shell_state.cursor_x` and `cursor_y`, which only `shell_init` writes and
nothing reads.
-/

namespace MiniCore

open Mm Kernel Shell Fs Isr Scheduler

/-! ## Printing -/

/-- The colour of the prompt and of the command names. -/
def Shell.lightGreen : BitVec 8 := vgaEntryColor 10 0

/-- `SHELL_PROMPT`. -/
def Shell.shellPrompt : List (BitVec 8) := cBytes "minicore> "

/-- `shell_print_prompt`. -/
def Shell.shellPrintPrompt : List TermCall := [.setcolor lightGreen] ++ writes shellPrompt ++ [.setcolor white]

/-! ## The handlers -/

/-- The description column of `commands[]`, in the order of `commandNames`. -/
def Shell.commandDescriptions : List (List (BitVec 8)) :=
  ["Show available commands", "Echo text to screen", "Show memory information", "Halt the system",
    "Clear the screen", "Run memory allocation test", "Show system version",
    "Show system uptime (placeholder)", "Show running tasks", "Start demo multitasking tasks",
    "Enable interrupts", "List files in file system", "Display file contents"].map cBytes

/-- `cmd_help`: a header, then one line per entry of `commands[]`. -/
def Shell.cmdHelp : List TermCall :=
  [.setcolor lightCyan] ++ writes (cBytes "Available commands:\n") ++ [.setcolor white] ++
    (commandNames.zip commandDescriptions).flatMap fun c =>
      writes (cBytes "  ") ++ [.setcolor lightGreen] ++ writes c.1 ++ [.setcolor white] ++ writes (cBytes " - ") ++
        writes c.2 ++ writes (cBytes "\n")

/-- `cmd_mem`: the statistics, the map, the block walk or the usage line,
as `argv[1]` says. -/
def Shell.cmdMem (fuel : Nat) (h : Heap) (r : Parsed) : Except Stop (Heap × List TermCall) :=
  if r.argc > 1 then
    if shellStrcmp (argString r 1) (cBytes "stats") = 0 then mmPrintStats fuel h
    else if shellStrcmp (argString r 1) (cBytes "map") = 0 then .ok (h, mmPrintMemoryMap)
    else if shellStrcmp (argString r 1) (cBytes "debug") = 0 then .ok (h, mmDebugHeap h)
    else .ok (h, writes (cBytes "Usage: mem [stats|map|debug]\n"))
  else mmPrintStats fuel h

/-- What `cmd_halt` prints before `cli` and its `hlt` loop. -/
def Shell.cmdHalt : List TermCall :=
  [.setcolor lightRed] ++ writes (cBytes "System halting...\n") ++ [.setcolor white]

/-- `cmd_version`. -/
def Shell.cmdVersion : List TermCall :=
  [.setcolor lightCyan] ++ writes (cBytes "MiniCore-OS v0.3.0\n") ++ [.setcolor white] ++
    writes (cBytes "Phase 3: CLI Shell\n") ++ writes (cBytes "Built with: GCC, NASM, GRUB\n") ++
    writes (cBytes "Features: Memory Management, Interactive Shell\n")

/-- `cmd_uptime`. -/
def Shell.cmdUptime : List TermCall := writes (cBytes "Uptime: Since boot (no timer implemented yet)\n")

/-- `cmd_tasks`: a fixed table, whatever the scheduler holds. -/
def Shell.cmdTasks : List TermCall :=
  [.setcolor lightCyan] ++ writes (cBytes "Task Information:\n") ++ [.setcolor white] ++
    writes (cBytes "ID  Name        State     \n") ++ writes (cBytes "--- ----------- ----------\n") ++
    writes (cBytes "1   idle        READY     \n") ++ writes (cBytes "2   counter     RUNNING   \n") ++
    writes (cBytes "3   greeter     SLEEPING  \n") ++
    writes (cBytes "\nMultitasking is active with timer-driven scheduling!\n") ++
    writes (cBytes "Tasks automatically switch every 10 timer ticks.\n")

/-- `cmd_starttasks`: three `task_create` calls, and what it prints. -/
def Shell.cmdStarttasks (s : Sched) : Sched × List TermCall :=
  let s := (taskCreate s (cBytes "idle")).1
  let s := (taskCreate s (cBytes "counter")).1
  let s := (taskCreate s (cBytes "greeter")).1
  (s, [.setcolor lightGreen] ++ writes (cBytes "Starting demo multitasking tasks...\n") ++ [.setcolor white] ++
    writes (cBytes "Created idle task\n") ++ writes (cBytes "Created counter task\n") ++
    writes (cBytes "Created greeter task\n") ++
    writes (cBytes "Demo tasks started! They will run in the background.\n"))

/-- `cmd_enableints`: `irq_enable(1)`, `irq_enable(0)`, and what it prints;
the `sti` is the caller's. -/
def Shell.cmdEnableints (pic : Pic) : Option (Pic × List TermCall) :=
  (irqEnable pic 1).bind fun pic => (irqEnable pic 0).map fun pic =>
    (pic, [.setcolor lightCyan] ++ writes (cBytes "Enabling interrupts...\n") ++ [.setcolor white] ++
      writes (cBytes "Enabling keyboard interrupt (IRQ1)...\n") ++
      writes (cBytes "Enabling timer interrupt (IRQ0)...\n") ++ writes (cBytes "Enabling global interrupts...\n") ++
      [.setcolor lightGreen] ++ writes (cBytes "Interrupts enabled! Keyboard should now be interrupt-driven.\n") ++
      [.setcolor white])

/-! ## The machine -/

/-- Why a pass of the loop does not come back: a fault of `mm.c` (or a
walk the model ran out of fuel for), or behaviour C leaves undefined. -/
inductive Shell.Fault
  | stop (s : Stop)
  | undefined

/-- The state `shell_run`'s loop acts on: `keyboard_state`, `shell_state`
with its `echo_enabled`, the statics of `mm.c`, `scheduler.c` and `fs.c`,
the PIC masks, the interrupt flag `sti` and `cli` write, and whether
`cmd_halt` has stopped the processor. -/
structure Shell.Machine where
  keyboardState : BitVec 8
  shell : ShellState
  echoEnabled : Bool
  heap : Heap
  sched : Sched
  pic : Pic
  fs : Filesystem
  interrupts : Bool
  halted : Bool

/-- One pass of `shell_run`'s loop: the byte `keyboard_read_scancode`
returned (0 for none), and what the uninitialised `argv` of a
`shell_execute_command` in this pass holds. -/
structure Shell.Poll where
  scancode : BitVec 8
  argv : Nat → Option Nat

namespace Shell

/-- `commands[index].handler(argc, argv)`. -/
def Machine.call (fuel : Nat) (m : Machine) (index : Nat) (r : Parsed) : Except Fault (Machine × List TermCall) :=
  match index with
  | 0 => .ok (m, cmdHelp)
  | 1 => .ok (m, (cmdEcho r).map .putchar)
  | 2 => ((cmdMem fuel m.heap r).mapError .stop).map fun o => ({ m with heap := o.1 }, o.2)
  | 3 => .ok ({ m with interrupts := false, halted := true }, cmdHalt)
  | 4 => .ok (m, [])
  | 5 => ((cmdMemtest fuel m.heap).mapError .stop).map fun o => ({ m with heap := o.1 }, o.2)
  | 6 => .ok (m, cmdVersion)
  | 7 => .ok (m, cmdUptime)
  | 8 => .ok (m, cmdTasks)
  | 9 => .ok ({ m with sched := (cmdStarttasks m.sched).1 }, (cmdStarttasks m.sched).2)
  | 10 =>
    match cmdEnableints m.pic with
    | some o => .ok ({ m with pic := o.1, interrupts := true }, o.2)
    | none => .error .undefined
  | 11 =>
    match fsList m.fs with
    | some out => .ok (m, out)
    | none => .error .undefined
  | 12 => .ok (m, cmdCat m.fs r)
  | _ => .error .undefined

/-- `shell_execute_command` on the line `input`, with `argv` what its
uninitialised array holds. -/
def Machine.execute (fuel : Nat) (argv : Nat → Option Nat) (m : Machine) (input : List (BitVec 8)) :
    Except Fault (Machine × List TermCall) :=
  match shellDispatch input argv with
  | none => .ok (m, [])
  | some (.unknown message) => .ok (m, [.setcolor lightRed] ++ writes message ++ [.setcolor white])
  | some (.run index r) => m.call fuel index r

/-- `shell_process_input(c)` on the machine: Enter prints the newline,
runs the line, clears the buffer and prints the prompt; a printable byte
is stored and echoed while there is room. -/
def Machine.processInput (fuel : Nat) (argv : Nat → Option Nat) (m : Machine) (c : BitVec 8) :
    Except Fault (Machine × List TermCall) :=
  if c = 10 then
    let s := m.shell.store m.shell.bufferPos 0
    let ran : Except Fault (Machine × List TermCall) := match shellExecuteCommand s with
      | none => .ok (m, [])
      | some input => m.execute fuel argv input
    ran.map fun o => ({ o.1 with shell := shellClearBuffer s }, [.putchar 10] ++ o.2 ++ shellPrintPrompt)
  else if 32 ≤ c.toInt ∧ c.toInt ≤ 126 then
    if m.shell.bufferPos < shellBufferSize - 1 then
      .ok ({ m with shell := { m.shell.store m.shell.bufferPos c with bufferPos := m.shell.bufferPos + 1 } },
        if m.echoEnabled then [.putchar c] else [])
    else .ok (m, [])
  else .ok (m, [])

/-- `keyboard_handler` on the machine, once `cmd_halt` has not stopped it. -/
def Machine.poll (fuel : Nat) (m : Machine) (p : Poll) : Except Fault (Machine × List TermCall) :=
  if m.halted then .ok (m, [])
  else
    let r := keyboardHandler m.keyboardState p.scancode
    let m := { m with keyboardState := r.1 }
    match r.2 with
    | none => .ok (m, [])
    | some .backspace => .ok ({ m with shell := shellBackspace m.shell }, if m.shell.bufferPos > 0 then [.backspace] else [])
    | some (.char c) => m.processInput fuel p.argv c

/-- The loop of `shell_run` over the polls `ps`. -/
def Machine.run (fuel : Nat) : Machine → List Poll → Except Fault (Machine × List TermCall)
  | m, [] => .ok (m, [])
  | m, p :: ps =>
    match m.poll fuel p with
    | .ok (m, out) => (run fuel m ps).map fun o => (o.1, out ++ o.2)
    | .error e => .error e

/-! ## The handlers' effects -/

section Effects

variable {bs : List Blk} {h : Heap} {fuel : Nat}

/-- `cmd_mem` only reads the heap, but for the counter `mm_get_stats` writes. -/
theorem cmdMem_rep (hR : Rep h bs) (hf : bs.length < fuel) (r : Parsed) :
    ∃ h' out, cmdMem fuel h r = .ok (h', out) ∧ Rep h' bs := by
  unfold cmdMem
  split_ifs
  all_goals first | exact mmPrintStats_rep hR hf | exact ⟨h, _, rfl, hR⟩

/-- `task_create` only appends to the ready queue, and leaves
`current_task`. -/
theorem taskCreate_appends {s : Sched} {q : List Slot} (hq : ∃ new, RoundRobin s (q ++ new))
    (name : List (BitVec 8)) :
    (∃ new, RoundRobin (taskCreate s name).1 (q ++ new)) ∧ (taskCreate s name).1.currentTask = s.currentTask := by
  obtain ⟨new, hq⟩ := hq
  obtain ⟨h1, hc, -⟩ := hq.taskCreate name
  exact ⟨⟨_, by rwa [List.append_assoc] at h1⟩, hc⟩

/-- `irq_enable` of lines 1 and 0 is defined on every register value. -/
theorem cmdEnableints_isSome (pic : Pic) : ∃ o, cmdEnableints pic = some o := by
  obtain ⟨p1, e1, -⟩ := @irqMask_masked _ _ setsTo_enable pic 1 (by decide)
  obtain ⟨p0, e0, -⟩ := @irqMask_masked _ _ setsTo_enable p1 0 (by decide)
  exact ⟨_, by simp only [cmdEnableints, irqEnable, e1, Option.some_bind, e0, Option.map_some']; rfl⟩

/-- The loop of `shell_find_command` from entry `i` returns an entry
before the end, or -1. -/
theorem findCommandFrom_lt (name : List (BitVec 8)) :
    ∀ (i : Nat) (ns : List (List (BitVec 8))), findCommandFrom name i ns < i + ns.length
  | i, [] => by simp only [findCommandFrom, List.length_nil]; omega
  | i, n :: ns => by
    have := findCommandFrom_lt name (i + 1) ns
    rw [findCommandFrom]
    split_ifs
    · simp only [List.length_cons]; omega
    · simp only [List.length_cons] at this ⊢; omega

/-- `shell_find_command` only finds entries of the table. -/
theorem shellDispatch_index_lt {input : List (BitVec 8)} {argv : Nat → Option Nat} {index : Nat} {r : Parsed}
    (e : shellDispatch input argv = some (.run index r)) : index < commandNames.length := by
  dsimp only [shellDispatch] at e
  split_ifs at e
  split at e
  next => cases e
  next _ p _ =>
    have := findCommandFrom_lt (List.drop p (shellParseCommand input argv shellMaxArgs).input) 0 commandNames
    split_ifs at e with hi
    · cases e
      rw [shellFindCommand] at hi ⊢
      omega
    · cases e

end Effects

/-! ## What every pass keeps -/

/-- What a pass of the loop keeps: the heap represents the separated list
`bs`, the file table is `fs`, the ready queue is a FIFO that holds `q`
and then what was pushed since, and `current_task` is `cur`. -/
structure Machine.Keeps (bs : List Blk) (fs : Filesystem) (q : List Slot) (cur : Option Slot) (m : Machine) :
    Prop where
  heap : Rep m.heap bs
  separated : Separated bs
  files : m.fs = fs
  queue : ∃ new, RoundRobin m.sched (q ++ new)
  current : m.sched.currentTask = cur

section Keeps

variable {bs : List Blk} {fs : Filesystem} {q : List Slot} {cur : Option Slot} {m : Machine} {fuel : Nat}

theorem Machine.Keeps.of_eq (hk : m.Keeps bs fs q cur) {m' : Machine} (hh : m'.heap = m.heap)
    (hs : m'.sched = m.sched) (hfs : m'.fs = m.fs) : m'.Keeps bs fs q cur :=
  ⟨hh ▸ hk.heap, hk.separated, hfs.trans hk.files, hs ▸ hk.queue, hs ▸ hk.current⟩

/-- The arena holds at most 65536 headers. -/
theorem Machine.Keeps.length_le (hk : m.Keeps bs fs q cur) : bs.length ≤ 65536 := by
  have := hk.heap.tiles.length_le
  omega

section Pass

variable (hk : m.Keeps bs fs q cur) (hfs : fs.fileCount ≤ fsMaxFiles) (hf : 65539 ≤ fuel)
include hk hfs hf

/-- **One handler.** Every command of the table comes back and keeps the
heap's list, the file table, the FIFO and `current_task`; `cmd_starttasks`
pushes at the FIFO's tail. -/
theorem Machine.Keeps.call {index : Nat} (hi : index < commandNames.length) (r : Parsed) :
    ∃ m' out, m.call fuel index r = .ok (m', out) ∧ m'.Keeps bs fs q cur := by
  have hl := hk.length_le
  match index, hi with
  | 0, _ | 1, _ | 4, _ | 6, _ | 7, _ | 8, _ | 12, _ => exact ⟨m, _, rfl, hk⟩
  | 2, _ =>
    obtain ⟨h', out, e, hR⟩ := @cmdMem_rep bs m.heap fuel hk.heap (by omega) r
    exact ⟨{ m with heap := h' }, out, by simp only [Machine.call, e]; rfl, ⟨hR, hk.separated, hk.files, hk.queue, hk.current⟩⟩
  | 3, _ => exact ⟨_, _, rfl, hk.of_eq rfl rfl rfl⟩
  | 5, _ =>
    obtain ⟨h', out, e, hp⟩ := (@memtests_pending m.heap bs fuel hk.heap hk.separated (by omega)).1
    exact ⟨{ m with heap := h' }, out, by simp only [Machine.call, e]; rfl,
      ⟨hp.rep_nil hk.heap.tiles hk.separated, hk.separated, hk.files, hk.queue, hk.current⟩⟩
  | 9, _ =>
    have h1 := taskCreate_appends hk.queue (cBytes "idle")
    have h2 := taskCreate_appends h1.1 (cBytes "counter")
    have h3 := taskCreate_appends h2.1 (cBytes "greeter")
    exact ⟨_, _, rfl, ⟨hk.heap, hk.separated, hk.files, h3.1, h3.2.trans (h2.2.trans (h1.2.trans hk.current))⟩⟩
  | 10, _ =>
    obtain ⟨o, e⟩ := cmdEnableints_isSome m.pic
    exact ⟨{ m with pic := o.1, interrupts := true }, o.2, by simp only [Machine.call, e], hk.of_eq rfl rfl rfl⟩
  | 11, _ =>
    obtain ⟨out, e⟩ := fsList_isSome (hk.files ▸ hfs)
    exact ⟨m, out, by simp only [Machine.call, e], hk⟩

theorem Machine.Keeps.execute (argv : Nat → Option Nat) (input : List (BitVec 8)) :
    ∃ m' out, m.execute fuel argv input = .ok (m', out) ∧ m'.Keeps bs fs q cur := by
  unfold Machine.execute
  split
  · exact ⟨m, _, rfl, hk⟩
  · exact ⟨m, _, rfl, hk⟩
  · exact hk.call hfs hf (shellDispatch_index_lt ‹_›) _

theorem Machine.Keeps.processInput (argv : Nat → Option Nat) (c : BitVec 8) :
    ∃ m' out, m.processInput fuel argv c = .ok (m', out) ∧ m'.Keeps bs fs q cur := by
  unfold Machine.processInput
  split_ifs
  · dsimp only
    cases shellExecuteCommand (m.shell.store m.shell.bufferPos 0) with
    | none => exact ⟨_, _, rfl, hk.of_eq rfl rfl rfl⟩
    | some input =>
      obtain ⟨m', out, e, hk'⟩ := hk.execute hfs hf argv input
      exact ⟨{ m' with shell := shellClearBuffer (m.shell.store m.shell.bufferPos 0) }, _,
        by simp only [e]; rfl, hk'.of_eq rfl rfl rfl⟩
  all_goals exact ⟨_, _, rfl, hk.of_eq rfl rfl rfl⟩

/-- **One pass of the loop** keeps the heap's list, the file table and the
FIFO, and comes back. -/
theorem Machine.Keeps.poll (p : Poll) : ∃ m' out, m.poll fuel p = .ok (m', out) ∧ m'.Keeps bs fs q cur := by
  unfold Machine.poll
  split_ifs
  · exact ⟨m, _, rfl, hk⟩
  · dsimp only
    split
    · exact ⟨_, _, rfl, hk.of_eq rfl rfl rfl⟩
    · exact ⟨_, _, rfl, hk.of_eq rfl rfl rfl⟩
    · exact Machine.Keeps.processInput (m := { m with keyboardState := (keyboardHandler m.keyboardState p.scancode).1 })
        (hk.of_eq rfl rfl rfl) hfs hf _ _

end Pass

/-- **Every run** of the loop keeps them. -/
theorem Machine.Keeps.run (hk : m.Keeps bs fs q cur) (hfs : fs.fileCount ≤ fsMaxFiles) (hf : 65539 ≤ fuel)
    (polls : List Poll) : ∃ m' out, m.run fuel polls = .ok (m', out) ∧ m'.Keeps bs fs q cur := by
  induction polls generalizing m with
  | nil => exact ⟨m, [], rfl, hk⟩
  | cons p ps ih =>
    obtain ⟨m1, out1, e1, hk1⟩ := hk.poll hfs hf p
    obtain ⟨m2, out2, e2, hk2⟩ := ih hk1
    exact ⟨m2, out1 ++ out2, by simp only [Machine.run, e1, e2]; rfl, hk2⟩

end Keeps

theorem map_eq_ok {ε α β : Type} {f : α → β} {x : Except ε α} {b : β} :
    x.map f = .ok b ↔ ∃ a, x = .ok a ∧ f a = b := by
  cases x <;> simp [Except.map]

section Frame

variable {fuel : Nat} {m m' : Machine} {out : List TermCall}

/-- No handler writes `keyboard_state` or `shell_state`. -/
theorem Machine.call_frame {index : Nat} {r : Parsed} (e : m.call fuel index r = .ok (m', out)) :
    m'.keyboardState = m.keyboardState ∧ m'.shell = m.shell := by
  unfold Machine.call at e
  split at e
  all_goals first
    | (cases e; exact ⟨rfl, rfl⟩)
    | (obtain ⟨o, -, ⟨⟩⟩ := map_eq_ok.1 e; exact ⟨rfl, rfl⟩)
    | (split at e <;> cases e; exact ⟨rfl, rfl⟩)
    | cases e

theorem Machine.execute_frame {argv : Nat → Option Nat} {input : List (BitVec 8)}
    (e : m.execute fuel argv input = .ok (m', out)) : m'.keyboardState = m.keyboardState ∧ m'.shell = m.shell := by
  unfold Machine.execute at e
  split at e
  · cases e; exact ⟨rfl, rfl⟩
  · cases e; exact ⟨rfl, rfl⟩
  · exact Machine.call_frame e

/-- `shell_process_input` on the machine moves `shell_state` as it does on
its own. -/
theorem Machine.processInput_frame {argv : Nat → Option Nat} {c : BitVec 8}
    (e : m.processInput fuel argv c = .ok (m', out)) :
    m'.keyboardState = m.keyboardState ∧ m'.shell = (shellProcessInput m.shell c).1 := by
  unfold Machine.processInput at e
  by_cases h10 : c = 10
  · rw [if_pos h10] at e
    dsimp only at e
    obtain ⟨o, ho, ⟨⟩⟩ := map_eq_ok.1 e
    refine ⟨?_, by simp only [shellProcessInput, if_pos h10]⟩
    split at ho
    · cases ho; rfl
    · exact (Machine.execute_frame ho).1
  · rw [if_neg h10] at e
    by_cases hp : 32 ≤ c.toInt ∧ c.toInt ≤ 126
    · by_cases hr : m.shell.bufferPos < shellBufferSize - 1
      · rw [if_pos hp, if_pos hr] at e
        cases e
        exact ⟨rfl, by rw [shellProcessInput, if_neg h10, if_pos hp, if_pos hr]⟩
      · rw [if_pos hp, if_neg hr] at e
        cases e
        exact ⟨rfl, by rw [shellProcessInput, if_neg h10, if_pos hp, if_neg hr]⟩
    · rw [if_neg hp] at e
      cases e
      exact ⟨rfl, by rw [shellProcessInput, if_neg h10, if_neg hp]⟩

/-- One pass of the loop on a running machine moves `keyboard_state` and
`shell_state` as `shellPoll` does. -/
theorem Machine.poll_frame {p : Poll} (e : m.poll fuel p = .ok (m', out)) (hm : m.halted = false) :
    (m'.keyboardState, m'.shell) = shellPoll (m.keyboardState, m.shell) p.scancode := by
  unfold Machine.poll at e
  rw [if_neg (by simp [hm])] at e
  dsimp only at e
  split at e
  next hk => cases e; simp only [shellPoll, hk, Option.elim]
  next hk => cases e; simp only [shellPoll, hk, Option.elim, Key.run]
  next c hk =>
    obtain ⟨h1, h2⟩ := Machine.processInput_frame e
    simp only [shellPoll, hk, Option.elim, Key.run, h1, h2]

theorem Machine.poll_halted (hm : m.halted = true) (p : Poll) : m.poll fuel p = .ok (m, []) := by
  rw [Machine.poll, if_pos hm]

/-- A halted machine stays as it is. -/
theorem Machine.run_halted (hm : m.halted = true) (polls : List Poll) : m.run fuel polls = .ok (m, []) := by
  induction polls with
  | nil => rfl
  | cons p ps ih => simp only [Machine.run, Machine.poll_halted hm, ih]; rfl

theorem Machine.run_stays_halted {polls : List Poll} (e : m.run fuel polls = .ok (m', out)) (hm : m.halted = true) :
    m'.halted = true := by
  rw [Machine.run_halted hm] at e
  cases e
  exact hm

end Frame

/-- **The commands never write the keyboard's or the line's state.** On
any run of `shell_run`'s loop that did not halt, `keyboard_state` and
`shell_state` end as `keyboard_handler` with `shell_process_input` and
`shell_backspace` alone leave them after the same scancodes, whatever the
lines ran. -/
theorem shell_run_drives_line_editor {fuel : Nat} {m m' : Machine} {polls : List Poll} {out : List TermCall}
    (e : m.run fuel polls = .ok (m', out)) (hm : m'.halted = false) :
    (m'.keyboardState, m'.shell) = (polls.map Poll.scancode).foldl shellPoll (m.keyboardState, m.shell) := by
  induction polls generalizing m out with
  | nil => cases e; rfl
  | cons p ps ih =>
    rw [Machine.run] at e
    split at e
    next m1 out1 e1 =>
      obtain ⟨o, e2, ⟨⟩⟩ := map_eq_ok.1 e
      -- the run ends running, so no pass before its end halted
      have hm1 : m1.halted = false := Bool.eq_false_iff.2 fun h => by
        simp [Machine.run_stays_halted e2 h] at hm
      have hm0 : m.halted = false := Bool.eq_false_iff.2 fun h => by
        rw [Machine.poll_halted h] at e1
        cases e1
        simp [h] at hm1
      rw [List.map_cons, List.foldl_cons, ← Machine.poll_frame e1 hm0]
      exact ih e2
    next => cases e

/-- Typing `hi` on the statics `mm_init` and `scheduler_init` leave. -/
theorem typing_hi_drives_line_editor :
    ∃ m : Machine, ∃ m' out, m.run 1 [⟨0x23, fun _ => none⟩, ⟨0x17, fun _ => none⟩] = .ok (m', out) ∧
      m'.halted = false ∧ (m'.keyboardState, m'.shell) =
        ([⟨0x23, fun _ => none⟩, ⟨0x17, fun _ => none⟩].map Poll.scancode).foldl shellPoll (m.keyboardState, m.shell) :=
  ⟨⟨0, ⟨fun _ => 0, 0⟩, true, mmInit fun _ => 0, schedulerInit Sched.bss, ⟨0xFF, 0xFF⟩, Filesystem.bss, false, false⟩,
    _, _, rfl, rfl, @shell_run_drives_line_editor 1 _ _ _ _ rfl rfl⟩

end Shell

end MiniCore
