import MiniCore.Mm.Print
import MiniCore.Kernel.Memtest

/-!
# The kernel's command processor, and the boot that runs it

`process_command` compares its argument with five names by `strcmp` and
runs the first that matches: `memstat` prints `mm_get_stats`, `memmap`
the bounds of the arena, `heapdbg` the block walk, `memtest` the kernel's
memory test, `help` the list of the five; any other string is echoed back
as an unknown command. `kernel_main` prints its banner, runs `mm_init`,
then `process_command` on `memstat`, `memtest` and `memstat` again, prints
its closing lines and halts.

**The laws.**
- `process_command_keeps_heap`: on a heap representing a separated block
  list, every command comes back (with one turn of fuel per block and
  three more), the heap represents the same list after it, and
  `mm_get_stats` reports what it reported before, but for
  `num_allocations` and `num_frees`, which have both grown by the number
  of blocks the command was handed: none, but for `memtest`. Only
  `memtest` calls the allocator; `memstat` writes the largest free block
  `mm_get_stats` computes, which it already was.
- `kernel_main_restores_arena`: whatever the arena held before the boot,
  `kernel_main` comes back from its three commands with the arena one free
  block again, and with `mem_stats` as `mm_init` set it, but for the two
  counts, both 3.

## What this does NOT cover

`terminal_initialize`, which `Kernel.Terminal` models; the model of
`kernel_main` starts from the terminal calls after it, and stops at the
`hlt` loop. `mm_init` also runs `paging_init`, whose tables no function
of the allocator reads.
-/

namespace MiniCore

open Mm Kernel Shell
open Fs (cBytes fsStrcmp)

/-! ## The source -/

/-- `strcmp` of `kernel.c`, whose body is that of `fs_strcmp`. -/
def Kernel.strcmp (str1 str2 : List (BitVec 8)) : Int := fsStrcmp str1 str2

/-- `process_command(command)`: the heap after it, and what it prints. -/
def Kernel.processCommand (fuel : Nat) (h : Heap) (command : List (BitVec 8)) :
    Except Stop (Heap × List TermCall) :=
  if strcmp command (cBytes "memstat") = 0 then mmPrintStats fuel h
  else if strcmp command (cBytes "memmap") = 0 then .ok (h, mmPrintMemoryMap)
  else if strcmp command (cBytes "heapdbg") = 0 then .ok (h, mmDebugHeap h)
  else if strcmp command (cBytes "memtest") = 0 then processCommandMemtest fuel h
  else if strcmp command (cBytes "help") = 0 then
    .ok (h, writes (cBytes "Available commands:\n") ++ writes (cBytes "  memstat  - Show memory statistics\n") ++
      writes (cBytes "  memmap   - Show memory map\n") ++ writes (cBytes "  heapdbg  - Debug heap structure\n") ++
      writes (cBytes "  memtest  - Run memory allocation test\n") ++ writes (cBytes "  help     - Show this help\n"))
  else
    .ok (h, writes (cBytes "Unknown command: ") ++ writes command ++
      writes (cBytes "\nType \x27help\x27 for available commands.\n"))

/-- What `kernel_main` prints before `mm_init`. -/
def Kernel.bootBanner : List TermCall :=
  [.setcolor (vgaEntryColor 11 0)] ++ writes (cBytes "Welcome to MiniCore-OS!\n") ++
    [.setcolor (vgaEntryColor 10 0)] ++
    writes (cBytes "Kernel successfully loaded and running in protected mode.\n") ++
    [.setcolor (vgaEntryColor 14 0)] ++ writes (cBytes "Initializing memory management...\n")

/-- What `kernel_main` prints after `mm_init`, before its first command. -/
def Kernel.bootInfo : List TermCall :=
  writes (cBytes "Memory management initialized!\n") ++
    [.setcolor (vgaEntryColor 14 0)] ++ writes (cBytes "Bootloader Phase 1 Complete!\n") ++
    [.setcolor (vgaEntryColor 13 0)] ++ writes (cBytes "Phase 2: Memory Management Active!\n") ++
    [.setcolor (vgaEntryColor 15 0)] ++ writes (cBytes "\nSystem Information:\n") ++
    writes (cBytes "- Architecture: x86 (32-bit)\n") ++ writes (cBytes "- Mode: Protected Mode\n") ++
    writes (cBytes "- Memory Management: Active (Heap + Free-list)\n") ++
    writes (cBytes "- Heap Size: 1MB (0x200000 - 0x300000)\n") ++
    writes (cBytes "- Display: VGA Text Mode (80x25)\n") ++ writes (cBytes "- Paging: Simulated structures\n") ++
    writes (cBytes "\n") ++ [.setcolor (vgaEntryColor 11 0)] ++ writes (cBytes "=== Memory Management Demo ===\n")

/-- `kernel_main` after `terminal_initialize`, up to its `hlt` loop, on the
memory `m` the arena held before: the heap, and what it prints. -/
def Kernel.kernelMain (fuel : Nat) (m : Mem) : Except Stop (Heap × List TermCall) := do
  let h := mmInit m
  let (h, stats1) ← processCommand fuel h (cBytes "memstat")
  let (h, test) ← processCommand fuel h (cBytes "memtest")
  let (h, stats2) ← processCommand fuel h (cBytes "memstat")
  pure (h, bootBanner ++ bootInfo ++ stats1 ++ writes (cBytes "\n") ++ test ++ writes (cBytes "\n") ++
    [.setcolor (vgaEntryColor 10 0)] ++ writes (cBytes "Memory statistics after test:\n") ++ stats2 ++
    [.setcolor (vgaEntryColor 14 0)] ++
    writes (cBytes "\nAvailable commands: memstat, memmap, heapdbg, memtest, help\n") ++
    [.setcolor (vgaEntryColor 15 0)] ++ writes (cBytes "Phase 2 demonstration complete!\n"))

/-! ## The statistics a command leaves -/

section Stats

variable {h : Heap} {bs : List Blk} {fuel : Nat}

theorem Mm.MemStats.afterTest_zero (st : MemStats) : st.afterTest 0 = st := by
  simp only [MemStats.afterTest, BitVec.ofNat_eq_ofNat, BitVec.add_zero]

/-- `mm_get_stats` on a represented heap writes what it reports, so it
reports the same again. -/
theorem mmGetStats_again {h1 : Heap} {st : MemStats} (hR : Rep h bs) (hf : bs.length < fuel)
    (e : mmGetStats fuel h = .ok (h1, st)) : ∃ h2, mmGetStats fuel h1 = .ok (h2, st) := by
  obtain ⟨h1', e1⟩ := mmGetStats_rep hR hf
  obtain ⟨h2, e2⟩ := mmGetStats_rep (mmGetStats_rep_same hR e) hf
  obtain ⟨l, -, e⟩ := bind_eq_ok.1 e
  cases e
  rw [e1] at e
  cases e
  exact ⟨h2, e2⟩

/-- A command that leaves the heap alone leaves its report alone. -/
theorem stats_same (hR : Rep h bs) (hf : bs.length < fuel) :
    ∃ st h1, mmGetStats fuel h = .ok (h1, st) ∧ ∃ h2, mmGetStats fuel h = .ok (h2, st.afterTest 0) := by
  obtain ⟨h1, e1⟩ := mmGetStats_rep hR hf
  exact ⟨_, h1, e1, h1, by rw [MemStats.afterTest_zero]; exact e1⟩

/-- A command that `strcmp` matches with another name is not `memtest`. -/
theorem strcmp_memtest_ne {command name : List (BitVec 8)} (h : strcmp command name = 0)
    (hn : cstr name ≠ cstr (cBytes "memtest")) : strcmp command (cBytes "memtest") ≠ 0 := fun e => by
  rw [strcmp, Fs.fsStrcmp_eq_zero_iff] at h e
  exact hn (h.symm.trans e)

end Stats

/-! ## The laws -/

/-- **Every command of `process_command` keeps the heap and its report.**
On a heap that represents a separated block list, `process_command` comes
back on every string, with one turn of fuel per block and three more; the
heap represents the same list after it, and `mm_get_stats` reports what it
reported before, with `num_allocations` and `num_frees` each up by the
number of blocks the command was handed: none, but for `memtest`, which is
handed as many as first fit serves of its requests of 104, 200 and 200
bytes. -/
theorem process_command_keeps_heap {h : Heap} {bs : List Blk} {fuel : Nat} (hR : Rep h bs) (hs : Separated bs)
    (hf : bs.length + 3 ≤ fuel) (command : List (BitVec 8)) :
    ∃ h' out, processCommand fuel h command = .ok (h', out) ∧ Rep h' bs ∧
      ∃ st h1, mmGetStats fuel h = .ok (h1, st) ∧ ∃ h2, mmGetStats fuel h' =
        .ok (h2, st.afterTest (if strcmp command (cBytes "memtest") = 0 then served [104, 200, 200] bs else 0)) := by
  by_cases hm : strcmp command (cBytes "memtest") = 0
  · -- `memtest`: every block it was handed is freed again
    rw [if_pos hm, processCommand, if_neg fun h1 => strcmp_memtest_ne h1 (by decide) hm,
      if_neg fun h1 => strcmp_memtest_ne h1 (by decide) hm, if_neg fun h1 => strcmp_memtest_ne h1 (by decide) hm,
      if_pos hm]
    obtain ⟨h', out, e, hp⟩ := (memtests_pending hR hs hf).2
    exact ⟨h', out, e, hp.rep_nil hR.tiles hs, hp.mmGetStats_nil hR hs (by omega)⟩
  rw [if_neg hm]
  unfold processCommand
  split_ifs
  · -- `memstat`: `mm_get_stats` writes the report it makes
    obtain ⟨h1, e1⟩ := mmGetStats_rep hR (show bs.length < fuel by omega)
    obtain ⟨h2, e2⟩ := mmGetStats_again hR (by omega) e1
    refine ⟨h1, _, by simp only [mmPrintStats, e1, bind, Except.bind, pure, Except.pure]; rfl,
      mmGetStats_rep_same hR e1, _, h1, e1, h2, ?_⟩
    rw [MemStats.afterTest_zero]
    exact e2
  all_goals exact ⟨h, _, rfl, hR, stats_same hR (by omega)⟩

/-- `process_command` of a name the kernel does not know, on the heap
`kmalloc (8)` twice and `kfree` of the first leave after `mm_init`. -/
theorem unknown_command_keeps_heap :
    ∃ h, Rep h [⟨0x200000, 8, true⟩, ⟨0x200018, 8, false⟩, ⟨0x200030, 0xFFFC0, true⟩] ∧
      Separated [⟨0x200000, 8, true⟩, ⟨0x200018, 8, false⟩, ⟨0x200030, 0xFFFC0, true⟩] ∧
      ([⟨0x200000, 8, true⟩, ⟨0x200018, 8, false⟩, ⟨0x200030, 0xFFFC0, true⟩] : List Blk).length + 3 ≤ 6 ∧
      ∃ h' out, processCommand 6 h (cBytes "ls") = .ok (h', out) ∧
        Rep h' [⟨0x200000, 8, true⟩, ⟨0x200018, 8, false⟩, ⟨0x200030, 0xFFFC0, true⟩] ∧
        ∃ st h1, mmGetStats 6 h = .ok (h1, st) ∧ ∃ h2, mmGetStats 6 h' = .ok (h2, st.afterTest
          (if strcmp (cBytes "ls") (cBytes "memtest") = 0 then
            served [104, 200, 200] [⟨0x200000, 8, true⟩, ⟨0x200018, 8, false⟩, ⟨0x200030, 0xFFFC0, true⟩] else 0)) := by
  obtain ⟨-, -, h, -, -, -, hR⟩ := rep_after_first_of_two_freed
  have hs : Separated [⟨0x200000, 8, true⟩, ⟨0x200018, 8, false⟩, ⟨0x200030, 0xFFFC0, true⟩] := by
    simp [Separated]
  exact ⟨h, hR, hs, le_rfl, process_command_keeps_heap hR hs le_rfl _⟩

theorem processCommand_memstat (h : Heap) : processCommand fuel h (cBytes "memstat") = mmPrintStats fuel h :=
  if_pos (by decide)

theorem processCommand_memtest (h : Heap) :
    processCommand fuel h (cBytes "memtest") = processCommandMemtest fuel h := by
  rw [processCommand, if_neg (by decide), if_neg (by decide), if_neg (by decide), if_pos (by decide)]

/-- `mm_print_stats` on a represented heap: the heap after it, with the
largest free block written. -/
theorem mmPrintStats_largest {h : Heap} {bs : List Blk} {fuel : Nat} (hR : Rep h bs) (hf : bs.length < fuel) :
    ∃ h' out, mmPrintStats fuel h = .ok (h', out) ∧ Rep h' bs ∧
      h'.memStats = { h.memStats with largestFreeBlock := BitVec.ofNat 32 (maxFree bs) } := by
  obtain ⟨h1, e1⟩ := mmGetStats_rep hR hf
  obtain ⟨l, -, e⟩ := bind_eq_ok.1 e1
  cases e
  exact ⟨_, _, by simp only [mmPrintStats, e1, bind, Except.bind, pure, Except.pure]; rfl,
    mmGetStats_rep_same hR e1, rfl⟩

/-- **`kernel_main` gives the arena back as `mm_init` made it.** Whatever
the arena held before the boot, `kernel_main`, with four turns of fuel,
comes back from `memstat`, `memtest` and `memstat`, with the arena one free
block of `0xFFFF0` bytes, and with `mem_stats` as `mm_init` set it (one
MiB in all, none used, `0xFFFF0` free and the largest free block) but for
`num_allocations` and `num_frees`, which are both 3: the fresh arena
serves each of the test's three requests. -/
theorem kernel_main_restores_arena {fuel : Nat} (hf : 4 ≤ fuel) (m : Mem) :
    ∃ h out, kernelMain fuel m = .ok (h, out) ∧ Rep h [⟨0x200000, 0xFFFF0, true⟩] ∧
      h.memStats = ⟨0x100000, 0, 0xFFFF0, 3, 3, 0xFFFF0⟩ := by
  have hR := mmInit_rep m
  have hs : Separated [⟨0x200000, 0xFFFF0, true⟩] := List.chain'_singleton _
  obtain ⟨h1, o1, e1, hR1, hst1⟩ := @mmPrintStats_largest _ _ fuel hR (by simp only [List.length_singleton]; omega)
  obtain ⟨h2, o2, e2, hp⟩ := (@memtests_pending _ _ fuel hR1 hs (by simp only [List.length_singleton]; omega)).2
  have hR2 := hp.rep_nil hR1.tiles hs
  obtain ⟨h3, o3, e3, hR3, hst3⟩ := @mmPrintStats_largest _ _ fuel hR2 (by simp only [List.length_singleton]; omega)
  refine ⟨h3, _, by simp only [kernelMain, processCommand_memstat, processCommand_memtest, e1, e2, e3, bind,
    Except.bind, pure, Except.pure]; rfl, hR3, ?_⟩
  -- `mm_init` wrote the free size into the header and into the report
  have hfree : (mmInit m).memStats.freeMemory = 0xFFFF0 := congrFun hR.links.1 .size
  rw [hst3, hp.stats_nil, hst1, hfree]
  rfl

/-- The boot on an arena of zeros. -/
theorem kernel_main_on_zeroed_arena :
    4 ≤ 4 ∧ ∃ h out, kernelMain 4 (fun _ => 0) = .ok (h, out) ∧ Rep h [⟨0x200000, 0xFFFF0, true⟩] ∧
      h.memStats = ⟨0x100000, 0, 0xFFFF0, 3, 3, 0xFFFF0⟩ :=
  ⟨le_rfl, kernel_main_restores_arena le_rfl _⟩

end MiniCore
