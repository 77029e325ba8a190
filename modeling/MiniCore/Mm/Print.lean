import MiniCore.Mm.Statics
import MiniCore.Kernel.Number
import MiniCore.Shell.Handlers

/-!
# What `mm.c` prints: the block walk shows the abstract list

`mm_print_stats` prints the six counters `mm_get_stats` returns,
`mm_print_memory_map` the fixed bounds of the arena, and `mm_debug_heap`
walks the list from `heap_head`: one line per block for at most 20 blocks,
then a last line if the walk stopped before the end of the list.

On a represented heap the walk of `mm_debug_heap` visits the abstract
blocks in order (`debugLoop_links`), as the walks of `mm_get_stats` and
`mm_check_heap_integrity` do in `Mm.Statics`.

**The law** (`mm_debug_heap_lists_blocks`): on a heap that represents the
block list `bs`, `mm_debug_heap` prints exactly the first 20 blocks of
`bs`, in order, each with its number, its header address, its size and
whether it is free (`blockLine`), and its last line exactly when `bs` has
more than 20 blocks. The numbers are printed by `terminal_write_dec` and
`terminal_write_hex`, which `Kernel.Number` reads back, so the screen
gives the first 20 blocks back.

## What this does NOT cover

The screen itself: the lines are terminal calls, placed by `Kernel.Terminal`.
-/

namespace MiniCore

open Mm Kernel Shell
open Fs (cBytes)

/-! ## The source -/

/-- `mm_print_stats`: `mm_get_stats`, and its six lines. -/
def Mm.mmPrintStats (fuel : Nat) (h : Heap) : Except Stop (Heap × List TermCall) := do
  let (h, stats) ← mmGetStats fuel h
  pure (h, writes (cBytes "=== Memory Statistics ===\n") ++
    writes (cBytes "Total Memory: ") ++ writeDec stats.totalMemory ++ writes (cBytes " bytes\n") ++
    writes (cBytes "Used Memory: ") ++ writeDec stats.usedMemory ++ writes (cBytes " bytes\n") ++
    writes (cBytes "Free Memory: ") ++ writeDec stats.freeMemory ++ writes (cBytes " bytes\n") ++
    writes (cBytes "Allocations: ") ++ writeDec stats.numAllocations ++ writes (cBytes "\n") ++
    writes (cBytes "Frees: ") ++ writeDec stats.numFrees ++ writes (cBytes "\n") ++
    writes (cBytes "Largest Free Block: ") ++ writeDec stats.largestFreeBlock ++ writes (cBytes " bytes\n"))

/-- `mm_print_memory_map`, with `KERNEL_HEAP_END` the start plus the size. -/
def Mm.mmPrintMemoryMap : List TermCall :=
  writes (cBytes "=== Memory Map ===\n") ++
    writes (cBytes "Kernel Heap Start: 0x") ++ writes (hexBuffer kernelHeapStart) ++ writes (cBytes "\n") ++
    writes (cBytes "Kernel Heap End: 0x") ++ writes (hexBuffer (kernelHeapStart + kernelHeapSize)) ++
    writes (cBytes "\n") ++
    writes (cBytes "Heap Size: ") ++ writes (hexBuffer kernelHeapSize) ++ writes (cBytes " bytes\n")

/-- The loop of `mm_debug_heap` at `block_count`, with `left` turns before
`block_count < 20` fails: its lines, and the `current` it stops at. -/
def Mm.debugLoop (m : Mem) : Nat → Nat → BitVec 32 → List TermCall × BitVec 32
  | 0, _, current => ([], current)
  | left + 1, blockCount, current =>
    if current = 0 then ([], current)
    else
      let r := debugLoop m left (blockCount + 1) (field m current .next)
      (writes (cBytes "Block ") ++ writeDec (BitVec.ofNat 32 blockCount) ++ writes (cBytes ": Addr=0x") ++
        writes (hexBuffer current) ++ writes (cBytes ", Size=") ++ writeDec (field m current .size) ++
        writes (cBytes ", ") ++
        writes (if field m current .isFree ≠ 0 then cBytes "FREE" else cBytes "USED") ++ writes (cBytes "\n") ++
        r.1, r.2)

/-- `mm_debug_heap`: at most 20 blocks from `heap_head`, and a last line when
the walk stopped before the end of the list. -/
def Mm.mmDebugHeap (h : Heap) : List TermCall :=
  let r := debugLoop h.mem 20 0 h.heapHead
  writes (cBytes "=== Heap Debug ===\n") ++ r.1 ++ if r.2 ≠ 0 then writes (cBytes "... (more blocks)\n") else []

/-! ## The statistics -/

section Stats

variable {bs : List Blk} {h : Heap} {fuel : Nat}

/-- `mm_get_stats` writes the counters only, so the heap still represents
its list. -/
theorem mmGetStats_rep_same {h1 : Heap} {st : MemStats} (hR : Rep h bs) (e : mmGetStats fuel h = .ok (h1, st)) :
    Rep h1 bs := by
  obtain ⟨l, -, e⟩ := bind_eq_ok.1 e
  cases e
  exact ⟨hR.head, hR.tiles, hR.links⟩

theorem mmPrintStats_rep (hR : Rep h bs) (hf : bs.length < fuel) :
    ∃ h' out, mmPrintStats fuel h = .ok (h', out) ∧ Rep h' bs := by
  obtain ⟨h1, e⟩ := mmGetStats_rep hR hf
  exact ⟨h1, _, by simp only [mmPrintStats, e, bind, Except.bind, pure, Except.pure]; rfl,
    mmGetStats_rep_same hR e⟩

end Stats

/-! ## The block walk -/

/-- The line `mm_debug_heap` prints for the block `b`, the
`blockCount`-th of the list. -/
def Mm.blockLine (blockCount : Nat) (b : Blk) : List TermCall :=
  writes (cBytes "Block ") ++ writeDec (BitVec.ofNat 32 blockCount) ++ writes (cBytes ": Addr=0x") ++
    writes (hexBuffer (BitVec.ofNat 32 b.addr)) ++ writes (cBytes ", Size=") ++ writeDec (BitVec.ofNat 32 b.size) ++
    writes (cBytes ", ") ++ writes (if b.free then cBytes "FREE" else cBytes "USED") ++ writes (cBytes "\n")

/-- On linked headers, `left` turns of the loop print the next `left`
blocks and stop at the header after them. -/
theorem Mm.debugLoop_links {m : Mem} {p a : Nat} {bs : List Blk} (h : Links m p bs 0) (ht : Tiles a bs 0x300000)
    (ha : 0x200000 ≤ a) (left blockCount : Nat) :
    debugLoop m left blockCount (BitVec.ofNat 32 (headAddr bs 0)) =
      (((bs.take left).enumFrom blockCount).flatMap (fun e => blockLine e.1 e.2),
        BitVec.ofNat 32 (headAddr (bs.drop left) 0)) := by
  induction bs generalizing p a left blockCount with
  | nil => cases left <;> rfl
  | cons b bs ih =>
    cases left with
    | zero => rfl
    | succ left =>
      obtain ⟨rfl, ht⟩ := ht
      obtain ⟨hb, h⟩ := h
      have hbe := ht.le
      simp only [Blk.endAddr] at hbe
      have hsz : field m (BitVec.ofNat 32 b.addr) .size = BitVec.ofNat 32 b.size := congrFun hb .size
      have hfr : field m (BitVec.ofNat 32 b.addr) .isFree = if b.free then 1 else 0 := congrFun hb .isFree
      have hnx : field m (BitVec.ofNat 32 b.addr) .next = BitVec.ofNat 32 (headAddr bs 0) := congrFun hb .next
      have hflag : (if (if b.free then (1 : BitVec 32) else 0) ≠ 0 then cBytes "FREE" else cBytes "USED") =
          if b.free then cBytes "FREE" else cBytes "USED" := by
        cases b.free <;> rfl
      simp only [headAddr_cons, debugLoop, ofNat_ne_zero (show 0 < b.addr by omega) (by omega), ↓reduceIte, hnx,
        hsz, hfr, hflag, ih h ht (by simp only [Blk.endAddr]; omega), List.take_succ_cons, List.drop_succ_cons,
        List.enumFrom_cons, List.flatMap_cons, blockLine, List.append_assoc]

/-- The walk stopped before the end exactly when the list is longer than
the turns it had. -/
theorem Mm.headAddr_drop_ne_zero {bs : List Blk} (ht : Tiles 0x200000 bs 0x300000) (k : Nat) :
    BitVec.ofNat 32 (headAddr (bs.drop k) 0) ≠ 0 ↔ k < bs.length := by
  cases e : bs.drop k with
  | nil =>
    rw [List.drop_eq_nil_iff] at e
    exact ⟨fun h => absurd rfl h, fun h => absurd e (by omega)⟩
  | cons c cs =>
    have hc := ht.bounds (List.mem_of_mem_drop (e ▸ List.mem_cons_self c cs))
    simp only [Blk.endAddr] at hc
    have hk : k < bs.length := by
      by_contra hk
      rw [List.drop_eq_nil_of_le (by omega)] at e
      cases e
    rw [headAddr_cons]
    exact ⟨fun _ => hk, fun _ => ofNat_ne_zero (by omega) (by omega)⟩

/-- **`mm_debug_heap` lists the abstract blocks.** On a heap that
represents the block list `bs`, `mm_debug_heap` prints the first 20 blocks
of `bs` in order, each with its number, address, size and flag, and the
line `... (more blocks)` exactly when `bs` has more than 20 blocks. -/
theorem mm_debug_heap_lists_blocks {h : Heap} {bs : List Blk} (hR : Rep h bs) :
    mmDebugHeap h = writes (cBytes "=== Heap Debug ===\n") ++
      ((bs.take 20).enum.flatMap fun e => blockLine e.1 e.2) ++
      if 20 < bs.length then writes (cBytes "... (more blocks)\n") else [] := by
  have hw := debugLoop_links hR.links hR.tiles le_rfl 20 0
  simp only [mmDebugHeap, hR.heapHead_eq, hw, headAddr_drop_ne_zero hR.tiles]
  rfl

/-- The list after `k` calls `kmalloc(8)` from `mm_init`: `k` used blocks
of 8 bytes, each behind its header, then the free rest. -/
def eightsThenRest (k : Nat) : List Blk :=
  (List.range k).map (fun i => ⟨0x200000 + 24 * i, 8, false⟩) ++ [⟨0x200000 + 24 * k, 0xFFFF0 - 24 * k, true⟩]

/-- `kmalloc(8)` carves the next 8 bytes from the free rest. -/
theorem alloc_eightsThenRest {k : Nat} (hk : 24 * k + 56 < 0xFFFF0) :
    alloc 8 (eightsThenRest k) = some (eightsThenRest (k + 1), 0x200000 + 24 * k) := by
  rw [eightsThenRest, alloc_first (Blk.fits_of_le rfl (show 8 ≤ 0xFFFF0 - 24 * k by omega)) (by simp [Blk.fits]),
    Blk.carve_eq]
  dsimp only
  rw [if_pos (show 8 + 16 + 32 < 0xFFFF0 - 24 * k by omega), eightsThenRest, List.range_succ, List.map_append]
  simp only [List.map_cons, List.map_nil, List.append_nil, List.append_assoc, List.singleton_append]
  congr 3

theorem reachable_eightsThenRest :
    ∀ k, 24 * k + 56 < 0xFFFF0 → ∃ h live, Reachable Call.Bounded h live ∧ Rep h (eightsThenRest k)
  | 0, _ => ⟨_, _, .init fun _ => 0, mmInit_rep _⟩
  | k + 1, hk => by
    obtain ⟨h, live, hr, hR⟩ := reachable_eightsThenRest k (by omega)
    obtain ⟨h', e, hR'⟩ := kmalloc_rep_some (n := 8) hR (by decide)
      (show (eightsThenRest k).length < 65537 by simp only [eightsThenRest, List.length_append, List.length_map,
        List.length_range, List.length_singleton]; omega) (by decide) (alloc_eightsThenRest (by omega))
    exact ⟨h', _, hr.call (c := .kmalloc 8) 65537 (show (8 : BitVec 32).toNat ≤ 2 ^ 32 - 8 by decide) e, hR'⟩

/-- After 21 calls `kmalloc(8)` from `mm_init` the list has 22 blocks: the
walk prints the first 20 and the last line. -/
theorem heap_debug_after_21_kmallocs :
    ∃ h live, Reachable Call.Bounded h live ∧ Rep h (eightsThenRest 21) ∧ 20 < (eightsThenRest 21).length ∧
      mmDebugHeap h = writes (cBytes "=== Heap Debug ===\n") ++
        (((eightsThenRest 21).take 20).enum.flatMap fun e => blockLine e.1 e.2) ++
        if 20 < (eightsThenRest 21).length then writes (cBytes "... (more blocks)\n") else [] := by
  obtain ⟨h, live, hr, hR⟩ := reachable_eightsThenRest 21 (by norm_num)
  exact ⟨h, live, hr, hR, by decide, mm_debug_heap_lists_blocks hR⟩

end MiniCore
