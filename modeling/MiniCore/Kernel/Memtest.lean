import MiniCore.Mm.Separated
import MiniCore.Mm.Statics
import MiniCore.Mm.Calls
import MiniCore.Kernel.Number
import MiniCore.Shell.Handlers

/-!
# Both memory tests give the heap back

Two clients of `mm.c` exercise the allocator and print what it hands out.
The shell's `cmd_memtest` asks `kmalloc` for 100 and 200 bytes and frees
both, first one first. The `memtest` branch of the kernel's
`process_command`, which `kernel_main` runs right after `mm_init`, also
asks `kcalloc` for 50 zeroed `int`s and frees all three in the order it
got them.

Each allocation adds one held block, or none for `NULL`, and each `kfree`
lets the oldest go (`Pending.kmalloc`, `Pending.kcalloc`, `Pending.kfree`).
At the end the used blocks are those before, and on a separated heap the
used blocks decide the list (`Pending.rep_nil`).

**The laws.** On a heap representing a separated block list, as every
heap a client reaches without `krealloc` does
(`heap_separated_without_krealloc`), both tests come back and leave the
heap representing the same list (`memtest_restores_heap`), and
`mm_get_stats` then reports what it reported before, but for
`num_allocations` and `num_frees`, which have both grown by the number of
blocks the test was handed (`memtest_keeps_stats`). So the two `memstat`
reports `kernel_main` prints around its test differ in those two lines only.

## What this does NOT cover

The bytes of the arena, which keep the headers the frees wrote into
payloads. The other branches of `process_command` only print.
-/

namespace MiniCore

open Mm Kernel Shell
open Fs (cBytes)

/-- `cmd_memtest`: its four calls into `mm.c`, and what it prints. -/
def Shell.cmdMemtest (fuel : Nat) (h : Heap) : Except Stop (Heap × List TermCall) := do
  let (h, ptr1) ← kmalloc fuel h 100
  let (h, ptr2) ← kmalloc fuel h 200
  let h ← kfree fuel h ptr1
  let h ← kfree fuel h ptr2
  pure (h, writes (cBytes "Running memory allocation test...\n") ++
    writes (cBytes "Allocated 100 bytes at: 0x") ++ writes (hexBuffer ptr1) ++ writes (cBytes "\n") ++
    writes (cBytes "Allocated 200 bytes at: 0x") ++ writes (hexBuffer ptr2) ++ writes (cBytes "\n") ++
    writes (cBytes "Freed first allocation\n") ++ writes (cBytes "Freed second allocation\n") ++
    writes (cBytes "Memory test completed!\n"))

/-- `process_command("memtest")`: its six calls into `mm.c`, with
`sizeof(int)` 4, and what it prints. -/
def Kernel.processCommandMemtest (fuel : Nat) (h : Heap) : Except Stop (Heap × List TermCall) := do
  let (h, ptr1) ← kmalloc fuel h 100
  let (h, ptr2) ← kmalloc fuel h 200
  let (h, ptr3) ← kcalloc fuel h 50 4
  let h ← kfree fuel h ptr1
  let h ← kfree fuel h ptr2
  let h ← kfree fuel h ptr3
  pure (h, writes (cBytes "=== Memory Test ===\n") ++
    writes (cBytes "Allocated 100 bytes at: 0x") ++ writes (hexBuffer ptr1) ++ writes (cBytes "\n") ++
    writes (cBytes "Allocated 200 bytes at: 0x") ++ writes (hexBuffer ptr2) ++ writes (cBytes "\n") ++
    writes (cBytes "Allocated 50 ints (zeroed) at: 0x") ++ writes (hexBuffer ptr3) ++ writes (cBytes "\n") ++
    writes (cBytes "Freed first allocation\n") ++ writes (cBytes "Freed second allocation\n") ++
    writes (cBytes "Freed third allocation\n") ++ writes (cBytes "Memory test complete!\n"))

/-- Both tests, on a heap that represents a separated block list, come back
with every block they were handed freed again. They are handed as many
blocks as first fit serves of their requests in turn: 104 bytes
(`kmalloc (100)`, rounded up), 200, and in the kernel's test 200 more
(`kcalloc (50, 4)`). -/
theorem memtests_pending {h : Heap} {bs : List Blk} {fuel : Nat} (hR : Rep h bs) (hs : Separated bs)
    (hf : bs.length + 3 ≤ fuel) :
    (∃ h' out, cmdMemtest fuel h = .ok (h', out) ∧ Pending h' bs h.memStats (served [104, 200] bs) []) ∧
      ∃ h' out, processCommandMemtest fuel h = .ok (h', out) ∧
        Pending h' bs h.memStats (served [104, 200, 200] bs) [] := by
  have hs1 := served_le [104] bs
  have hs2 := served_le [200] (afterAlloc 104 bs)
  obtain ⟨h1, G1, hk1, p1⟩ := (PendingAt.start hR hs).kmalloc fuel (n := 100) (by decide) (by decide) (by omega)
  obtain ⟨h2, G2, hk2, p2⟩ := p1.kmalloc fuel (n := 200) (by decide) (by decide) (by simp at hs1 ⊢; omega)
  constructor
  · -- `cmd_memtest` frees the first block, then the second
    obtain ⟨h3, hk3, p3⟩ := p2.pending.kfree fuel (by simp at hs1 hs2 ⊢; omega)
    obtain ⟨h4, hk4, p4⟩ := p3.kfree fuel (by simp at hs1 hs2 ⊢; omega)
    refine ⟨h4, _, by simp only [cmdMemtest, hk1, hk2, hk3, hk4, bind, Except.bind, pure, Except.pure]; rfl, ?_⟩
    simpa [served] using p4
  · -- `process_command` also asks `kcalloc` for a third, then frees all three in order
    obtain ⟨h3, G3, hk3, p3⟩ := p2.kcalloc fuel (c := 50) (n := 4) (by decide) (by decide) (by decide)
      (by simp at hs1 hs2 ⊢; omega)
    have hs3 := served_le [200] (afterAlloc 200 (afterAlloc 104 bs))
    obtain ⟨h4, hk4, p4⟩ := p3.pending.kfree fuel (by simp at hs1 hs2 hs3 ⊢; omega)
    obtain ⟨h5, hk5, p5⟩ := p4.kfree fuel (by simp at hs1 hs2 hs3 ⊢; omega)
    obtain ⟨h6, hk6, p6⟩ := p5.kfree fuel (by simp at hs1 hs2 hs3 ⊢; omega)
    refine ⟨h6, _, by simp only [processCommandMemtest, hk1, hk2, hk3, hk4, hk5, hk6, bind, Except.bind,
      pure, Except.pure]; rfl, ?_⟩
    simpa [served, Nat.add_assoc] using p6

/-- **Both memory tests give a separated heap back.** On a heap that
represents a separated block list, `cmd_memtest` and `process_command`'s
`memtest` each come back, with one turn of fuel per block and three more,
and leave the heap representing the same list. -/
theorem memtest_restores_heap {h : Heap} {bs : List Blk} {fuel : Nat} (hR : Rep h bs) (hs : Separated bs)
    (hf : bs.length + 3 ≤ fuel) :
    (∃ h' out, cmdMemtest fuel h = .ok (h', out) ∧ Rep h' bs) ∧
      ∃ h' out, processCommandMemtest fuel h = .ok (h', out) ∧ Rep h' bs := by
  obtain ⟨⟨h1, o1, e1, p1⟩, h2, o2, e2, p2⟩ := memtests_pending hR hs hf
  exact ⟨⟨h1, o1, e1, p1.rep_nil hR.tiles hs⟩, h2, o2, e2, p2.rep_nil hR.tiles hs⟩

/-- Both tests on the heap `kmalloc (8)` twice and `kfree` of the first
leave after `mm_init`: a free block of 8 bytes, a used one and the free
rest. Each test carves its blocks from the rest and gives them back. -/
theorem memtests_restore_three_blocks :
    ∃ h, Rep h [⟨0x200000, 8, true⟩, ⟨0x200018, 8, false⟩, ⟨0x200030, 0xFFFC0, true⟩] ∧
      Separated [⟨0x200000, 8, true⟩, ⟨0x200018, 8, false⟩, ⟨0x200030, 0xFFFC0, true⟩] ∧
      ([⟨0x200000, 8, true⟩, ⟨0x200018, 8, false⟩, ⟨0x200030, 0xFFFC0, true⟩] : List Blk).length + 3 ≤ 6 ∧
      (∃ h' out, cmdMemtest 6 h = .ok (h', out) ∧
        Rep h' [⟨0x200000, 8, true⟩, ⟨0x200018, 8, false⟩, ⟨0x200030, 0xFFFC0, true⟩]) ∧
      ∃ h' out, processCommandMemtest 6 h = .ok (h', out) ∧
        Rep h' [⟨0x200000, 8, true⟩, ⟨0x200018, 8, false⟩, ⟨0x200030, 0xFFFC0, true⟩] := by
  obtain ⟨-, -, h, -, -, -, hR⟩ := rep_after_first_of_two_freed
  have hs : Separated [⟨0x200000, 8, true⟩, ⟨0x200018, 8, false⟩, ⟨0x200030, 0xFFFC0, true⟩] := by
    simp [Separated]
  exact ⟨h, hR, hs, le_rfl, memtest_restores_heap hR hs le_rfl⟩

/-- What `mm_get_stats` reports after a test that got `j` blocks, against
its report `st` before. -/
def Mm.MemStats.afterTest (st : MemStats) (j : Nat) : MemStats :=
  { st with numAllocations := st.numAllocations + BitVec.ofNat 32 j, numFrees := st.numFrees + BitVec.ofNat 32 j }

/-- A heap that gave back the `k` blocks it was handed reports as before,
but for the two counts. -/
theorem Mm.Pending.mmGetStats_nil {h h' : Heap} {bs : List Blk} {k fuel : Nat} (hR : Rep h bs) (hs : Separated bs)
    (hp : Pending h' bs h.memStats k []) (hf : bs.length < fuel) :
    ∃ st h1, mmGetStats fuel h = .ok (h1, st) ∧ ∃ h2, mmGetStats fuel h' = .ok (h2, st.afterTest k) := by
  obtain ⟨h1, e1⟩ := mmGetStats_rep hR hf
  obtain ⟨h2, e2⟩ := mmGetStats_rep (hp.rep_nil hR.tiles hs) hf
  exact ⟨_, h1, e1, h2, by rw [e2, hp.stats_nil]; rfl⟩

/-- **`memstat` reports the same before and after either memory test**, but
for the number of allocations and of frees, which both grow by the number of
blocks the test was handed. On a heap that represents a separated block
list, `mm_get_stats` after `cmd_memtest`, or after `process_command`'s
`memtest`, reports the used, free and total memory and the largest free
block it reported before, with `num_allocations` and `num_frees` each up by
the number of the test's requests first fit serves in turn: of 104 and 200
bytes for `cmd_memtest`, of 104, 200 and 200 for `process_command`. -/
theorem memtest_keeps_stats {h : Heap} {bs : List Blk} {fuel : Nat} (hR : Rep h bs) (hs : Separated bs)
    (hf : bs.length + 3 ≤ fuel) :
    (∃ h' out, cmdMemtest fuel h = .ok (h', out) ∧ ∃ st h1, mmGetStats fuel h = .ok (h1, st) ∧
      ∃ h2, mmGetStats fuel h' = .ok (h2, st.afterTest (served [104, 200] bs))) ∧
    ∃ h' out, processCommandMemtest fuel h = .ok (h', out) ∧ ∃ st h1, mmGetStats fuel h = .ok (h1, st) ∧
      ∃ h2, mmGetStats fuel h' = .ok (h2, st.afterTest (served [104, 200, 200] bs)) := by
  obtain ⟨⟨h1, o1, e1, p1⟩, h2, o2, e2, p2⟩ := memtests_pending hR hs hf
  exact ⟨⟨h1, o1, e1, p1.mmGetStats_nil hR hs (by omega)⟩, h2, o2, e2, p2.mmGetStats_nil hR hs (by omega)⟩

/-- `kernel_main`'s second `memstat` reports what its first did, but for the
two counts, each up by 3: the fresh arena serves every request. -/
theorem boot_memstat_after_memtest :
    Rep (mmInit fun _ => 0) [⟨0x200000, 0xFFFF0, true⟩] ∧ Separated [⟨0x200000, 0xFFFF0, true⟩] ∧
      ([⟨0x200000, 0xFFFF0, true⟩] : List Blk).length + 3 ≤ 4 ∧
      served [104, 200, 200] [⟨0x200000, 0xFFFF0, true⟩] = 3 ∧
      (∃ h' out, cmdMemtest 4 (mmInit fun _ => 0) = .ok (h', out) ∧ ∃ st h1,
        mmGetStats 4 (mmInit fun _ => 0) = .ok (h1, st) ∧
        ∃ h2, mmGetStats 4 h' = .ok (h2, st.afterTest (served [104, 200] [⟨0x200000, 0xFFFF0, true⟩]))) ∧
      ∃ h' out, processCommandMemtest 4 (mmInit fun _ => 0) = .ok (h', out) ∧ ∃ st h1,
        mmGetStats 4 (mmInit fun _ => 0) = .ok (h1, st) ∧
        ∃ h2, mmGetStats 4 h' = .ok (h2, st.afterTest (served [104, 200, 200] [⟨0x200000, 0xFFFF0, true⟩])) :=
  ⟨mmInit_rep _, List.chain'_singleton _, le_rfl, by decide,
    memtest_keeps_stats (mmInit_rep _) (List.chain'_singleton _) le_rfl⟩

end MiniCore
