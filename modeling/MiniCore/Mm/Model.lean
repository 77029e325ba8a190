import MiniCore.Machine.Memory

/-!
# The heap allocator of `mm.c`, as the code computes it

One arena of `KERNEL_HEAP_SIZE` bytes at `KERNEL_HEAP_START`, carved into
blocks. Every block starts with a 16-byte `mem_block_t` header written INTO
the arena, and the headers form a doubly linked list from `heap_head`. So
the allocator's state is the byte memory itself (`Heap.mem`), plus the four
static variables of `mm.c`, which live in the kernel image and not in the
arena.

Every function here is a statement-by-statement transcription of `mm.c`:

* each header field is read from the memory AT THE MOMENT the C statement
  reads it, after the stores before it, so a store that lands on a header
  the code reads later is seen, as on the machine;
* `size_t` and pointer arithmetic is `BitVec 32` arithmetic and wraps;
* the three `while` loops over the list take a `fuel` argument. Running out
  of fuel is `Stop.outOfFuel`: on a corrupted list the C loop may never
  end, and a caller that completes is one with SOME fuel that suffices
  (`Reachable` quantifies over the fuel);
* `kcalloc (0, n)` divides by zero. On the target that is the `#DE` trap,
  whose unhandled-exception path halts, so the call does not come back:
  `Stop.divideError`;
* a `memset` whose range wraps round the address space writes over the
  kernel image, which the model does not hold: `Stop.wildWrite`.

`paging_init` and its tables, which share nothing with the allocator, are
modelled in `Mm.Paging`; `mm_print_stats`, `mm_print_memory_map` and
`mm_debug_heap`, which read the counters and the headers, in `Mm.Print`.
-/

namespace MiniCore.Mm

open Mem

/-! ## Constants of `mm.h` -/

/-- `KERNEL_HEAP_START`. -/
def kernelHeapStart : BitVec 32 := 0x00200000

/-- `KERNEL_HEAP_SIZE`. -/
def kernelHeapSize : BitVec 32 := 0x00100000

/-- `sizeof(mem_block_t)` on the 32-bit target: four 4-byte fields. -/
def sizeofMemBlock : BitVec 32 := 16

/-! ## `mem_block_t` in memory -/

/-- The fields of `mem_block_t`: `size_t size; int is_free;
mem_block_t* next; mem_block_t* prev;`. -/
inductive Field
  | size
  | isFree
  | next
  | prev
  deriving DecidableEq, Repr

/-- The byte offset of a field inside the header. -/
def Field.offset : Field → BitVec 32
  | .size => 0
  | .isFree => 4
  | .next => 8
  | .prev => 12

/-- `block->f`: the field `f` of the header at `block`. -/
def field (m : Mem) (block : BitVec 32) (f : Field) : BitVec 32 :=
  load32 m (block + f.offset)

/-- `block->f = v`. -/
def setField (m : Mem) (block : BitVec 32) (f : Field) (v : BitVec 32) : Mem :=
  store32 m (block + f.offset) v

/-! ## State -/

/-- `mem_stats_t`. -/
structure MemStats where
  totalMemory : BitVec 32
  usedMemory : BitVec 32
  freeMemory : BitVec 32
  numAllocations : BitVec 32
  numFrees : BitVec 32
  largestFreeBlock : BitVec 32
  deriving DecidableEq, Repr

/-- The allocator's state: the memory holding the arena, and the static
variables `heap_head`, `heap_start`, `heap_size` and `mem_stats`. -/
structure Heap where
  mem : Mem
  heapHead : BitVec 32
  heapStart : BitVec 32
  heapSize : BitVec 32
  memStats : MemStats

/-- Why a call does not come back to its caller. -/
inductive Stop
  /-- `#DE`: an unsigned division by zero. -/
  | divideError
  /-- A list walk still running when its fuel ran out. -/
  | outOfFuel
  /-- A `memset` that wrapped round the address space into the kernel image. -/
  | wildWrite
  deriving DecidableEq, Repr

/-! ## The functions of `mm.c` -/

/-- `mm_init`: one free block spanning the arena. The memory it starts from
is whatever the arena held at boot. -/
def mmInit (m : Mem) : Heap :=
  let m := setField m kernelHeapStart .size (kernelHeapSize - sizeofMemBlock)
  let m := setField m kernelHeapStart .isFree 1
  let m := setField m kernelHeapStart .next 0
  let m := setField m kernelHeapStart .prev 0
  let free := field m kernelHeapStart .size
  { mem := m, heapHead := kernelHeapStart, heapStart := kernelHeapStart,
    heapSize := kernelHeapSize,
    memStats := ⟨kernelHeapSize, 0, free, 0, 0, free⟩ }

/-- `find_free_block`: the first block in list order that is free and at
least `size` bytes; `0` (NULL) if the walk reaches the end. -/
def findFreeBlock (m : Mem) (size : BitVec 32) : Nat → BitVec 32 → Except Stop (BitVec 32)
  | 0, _ => .error .outOfFuel
  | fuel + 1, current =>
    if current = 0 then .ok 0
    else if field m current .isFree ≠ 0 ∧ size ≤ field m current .size then .ok current
    else findFreeBlock m size fuel (field m current .next)

/-- `split_block`: when the block exceeds `size` by more than a header and
32 bytes, its tail becomes a new free block linked in right after it. -/
def splitBlock (m : Mem) (block size : BitVec 32) : Mem :=
  if size + sizeofMemBlock + 32 < field m block .size then
    let newBlock := block + sizeofMemBlock + size
    let m := setField m newBlock .size (field m block .size - size - sizeofMemBlock)
    let m := setField m newBlock .isFree 1
    let m := setField m newBlock .next (field m block .next)
    let m := setField m newBlock .prev block
    let m := if field m block .next ≠ 0 then setField m (field m block .next) .prev newBlock else m
    let m := setField m block .next newBlock
    setField m block .size size
  else m

/-- The first loop of `merge_free_blocks`: absorb free successors. -/
def mergeNext : Nat → Mem → BitVec 32 → Except Stop Mem
  | 0, _, _ => .error .outOfFuel
  | fuel + 1, m, block =>
    if field m block .next ≠ 0 ∧ field m (field m block .next) .isFree ≠ 0 then
      let next := field m block .next
      let m := setField m block .size (field m block .size + (field m next .size + sizeofMemBlock))
      let m := setField m block .next (field m next .next)
      let m := if field m next .next ≠ 0 then setField m (field m next .next) .prev block else m
      mergeNext fuel m block
    else .ok m

/-- The second loop of `merge_free_blocks`: fold the block into free
predecessors, moving `block` back each time. -/
def mergePrev : Nat → Mem → BitVec 32 → Except Stop Mem
  | 0, _, _ => .error .outOfFuel
  | fuel + 1, m, block =>
    if field m block .prev ≠ 0 ∧ field m (field m block .prev) .isFree ≠ 0 then
      let prev := field m block .prev
      let m := setField m prev .size (field m prev .size + (field m block .size + sizeofMemBlock))
      let m := setField m prev .next (field m block .next)
      let m := if field m block .next ≠ 0 then setField m (field m block .next) .prev prev else m
      mergePrev fuel m prev
    else .ok m

/-- `merge_free_blocks`. -/
def mergeFreeBlocks (fuel : Nat) (m : Mem) (block : BitVec 32) : Except Stop Mem := do
  let m ← mergeNext fuel m block
  mergePrev fuel m block

/-- `kmalloc`. -/
def kmalloc (fuel : Nat) (h : Heap) (size : BitVec 32) : Except Stop (Heap × BitVec 32) :=
  if size = 0 then .ok (h, 0) else do
  let size := (size + 7) &&& ~~~7
  let block ← findFreeBlock h.mem size fuel h.heapHead
  if block = 0 then return (h, 0)
  let m := splitBlock h.mem block size
  let m := setField m block .isFree 0
  let s := field m block .size
  return ({ h with mem := m, memStats := { h.memStats with
      usedMemory := h.memStats.usedMemory + s, freeMemory := h.memStats.freeMemory - s,
      numAllocations := h.memStats.numAllocations + 1 } }, block + sizeofMemBlock)

/-- `kmalloc_aligned`. The raw pointer is stashed in the word just below the
aligned address. -/
def kmallocAligned (fuel : Nat) (h : Heap) (size alignment : BitVec 32) :
    Except Stop (Heap × BitVec 32) :=
  if alignment = 0 ∨ alignment &&& (alignment - 1) ≠ 0 then .ok (h, 0) else do
  let totalSize := size + alignment + 4
  let (h, rawPtr) ← kmalloc fuel h totalSize
  if rawPtr = 0 then return (h, 0)
  let alignedAddr := (rawPtr + 4 + alignment - 1) &&& ~~~(alignment - 1)
  return ({ h with mem := store32 h.mem (alignedAddr - 4) rawPtr }, alignedAddr)

/-- `kcalloc`. The overflow check divides by `count`. -/
def kcalloc (fuel : Nat) (h : Heap) (count size : BitVec 32) : Except Stop (Heap × BitVec 32) :=
  let totalSize := count * size
  if count = 0 then .error .divideError
  else if totalSize / count ≠ size then .ok (h, 0) else do
  let (h, ptr) ← kmalloc fuel h totalSize
  if ptr = 0 then return (h, 0)
  match memset h.mem ptr 0 totalSize with
  | none => .error .wildWrite
  | some m => return ({ h with mem := m }, ptr)

/-- `kfree`. A block whose `is_free` is already set is left alone. -/
def kfree (fuel : Nat) (h : Heap) (ptr : BitVec 32) : Except Stop Heap :=
  if ptr = 0 then .ok h else
  let block := ptr - sizeofMemBlock
  if field h.mem block .isFree ≠ 0 then .ok h else do
  let m := setField h.mem block .isFree 1
  let s := field m block .size
  let m ← mergeFreeBlocks fuel m block
  return { h with mem := m, memStats := { h.memStats with
      usedMemory := h.memStats.usedMemory - s, freeMemory := h.memStats.freeMemory + s,
      numFrees := h.memStats.numFrees + 1 } }

/-- `krealloc`. A block already large enough is split in place at the
UNROUNDED `new_size`; otherwise the contents move to a fresh block. -/
def krealloc (fuel : Nat) (h : Heap) (ptr newSize : BitVec 32) : Except Stop (Heap × BitVec 32) :=
  if ptr = 0 then kmalloc fuel h newSize
  else if newSize = 0 then do
    let h ← kfree fuel h ptr
    return (h, 0)
  else
  let block := ptr - sizeofMemBlock
  if newSize ≤ field h.mem block .size then
    .ok ({ h with mem := splitBlock h.mem block newSize }, ptr)
  else do
  let (h, newPtr) ← kmalloc fuel h newSize
  if newPtr = 0 then return (h, 0)
  let old := field h.mem block .size
  let h := { h with mem := memcpy h.mem newPtr ptr (if old < newSize then old else newSize) }
  let h ← kfree fuel h ptr
  return (h, newPtr)

/-- The walk of `mm_get_stats`: the largest free block from `current` on. -/
def largestFree (m : Mem) : Nat → BitVec 32 → BitVec 32 → Except Stop (BitVec 32)
  | 0, _, _ => .error .outOfFuel
  | fuel + 1, current, largest =>
    if current = 0 then .ok largest
    else largestFree m fuel (field m current .next)
      (if field m current .isFree ≠ 0 ∧ largest < field m current .size
        then field m current .size else largest)

/-- `mm_get_stats`: recompute `largest_free_block`, return the counters. -/
def mmGetStats (fuel : Nat) (h : Heap) : Except Stop (Heap × MemStats) := do
  let largest ← largestFree h.mem fuel h.heapHead 0
  let st := { h.memStats with largestFreeBlock := largest }
  return ({ h with memStats := st }, st)

/-- The walk of `mm_check_heap_integrity`, with its running `total_size`. -/
def integrityWalk (m : Mem) (heapStart heapSize : BitVec 32) :
    Nat → BitVec 32 → BitVec 32 → Except Stop Bool
  | 0, _, _ => .error .outOfFuel
  | fuel + 1, current, totalSize =>
    if current = 0 then .ok (totalSize ≤ heapSize)
    else if current < heapStart ∨ heapStart + heapSize ≤ current then .ok false
    else
      let totalSize := totalSize + (field m current .size + sizeofMemBlock)
      if field m current .next ≠ 0 ∧ field m (field m current .next) .prev ≠ current then .ok false
      else integrityWalk m heapStart heapSize fuel (field m current .next) totalSize

/-- `mm_check_heap_integrity`, its `int` result as a `Bool`. -/
def mmCheckHeapIntegrity (fuel : Nat) (h : Heap) : Except Stop Bool :=
  integrityWalk h.mem h.heapStart h.heapSize fuel h.heapHead 0

/-- `mm_validate_pointer`. -/
def mmValidatePointer (h : Heap) (ptr : BitVec 32) : Bool :=
  ptr ≠ 0 ∧ ¬ (ptr < h.heapStart ∨ h.heapStart + h.heapSize ≤ ptr)

/-! ## Runs -/

/-- The allocator's entry points, with their arguments. -/
inductive Call
  | kmalloc (size : BitVec 32)
  | kmallocAligned (size alignment : BitVec 32)
  | kcalloc (count size : BitVec 32)
  | krealloc (ptr newSize : BitVec 32)
  | kfree (ptr : BitVec 32)

/-- One call, with the pointer it returns (`kfree` returns nothing: `0`). -/
def Call.run (fuel : Nat) (h : Heap) : Call → Except Stop (Heap × BitVec 32)
  | .kmalloc n => Mm.kmalloc fuel h n
  | .kmallocAligned n a => Mm.kmallocAligned fuel h n a
  | .kcalloc c n => Mm.kcalloc fuel h c n
  | .krealloc p n => Mm.krealloc fuel h p n
  | .kfree p => (Mm.kfree fuel h p).map (·, 0)

/-- The client's live pointers after a call that returned `r`. What
`kmalloc`, `kcalloc` and `krealloc` return becomes live; what `kfree` and
`krealloc` release is not. A pointer from `kmalloc_aligned` is not a block
pointer, and `mm.c` has no function that takes it back, so it is not
tracked. -/
def Call.live (live : List (BitVec 32)) (r : BitVec 32) : Call → List (BitVec 32)
  | .kmalloc _ | .kcalloc _ _ => if r = 0 then live else r :: live
  | .kmallocAligned _ _ => live
  | .krealloc p n => if r = 0 then (if n = 0 then live.erase p else live) else r :: live.erase p
  | .kfree p => live.erase p

/-- The heaps a client reaches from `mm_init`, over any boot memory, by calls
that `ok` allows given the live pointers, each run with some fuel that lets
its list walks finish. -/
inductive Reachable (ok : List (BitVec 32) → Call → Prop) : Heap → List (BitVec 32) → Prop
  | init (m : Mem) : Reachable ok (mmInit m) []
  | call {h h' : Heap} {live : List (BitVec 32)} {c : Call} {r : BitVec 32} (fuel : Nat) :
      Reachable ok h live → ok live c → c.run fuel h = .ok (h', r) →
      Reachable ok h' (c.live live r)

end MiniCore.Mm
