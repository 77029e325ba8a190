import MiniCore.Mm.Refine

/-!
# The static variables of `mm.c`

`mm_init` writes `heap_head`, `heap_start` and `heap_size`, and no other
function writes them. Of `mem_stats`, `kmalloc` moves the size of the
block it hands out from `free_memory` to `used_memory`, and `kfree` moves
the size of the block it frees back, before merging; `kcalloc`,
`kmalloc_aligned` and `krealloc` reach the counters only through those
two. `Heap.Keeps` says this once, and each entry point gets one lemma.

**The law** (`used_add_free_conserved`): in every state reached from
`mm_init`, by any calls with any arguments, `used_memory + free_memory` is
`KERNEL_HEAP_SIZE - sizeof(mem_block_t)`, modulo `2^32`.

With the representation of `MiniCore.Mm.Refine` this also settles
`mm_check_heap_integrity`: its walk over a represented list finds every
block inside the arena and linked back (`integrityWalk_links`), so it
returns 1 in every state a well-behaved client reaches
(`integrity_of_reachable`). `mm_get_stats` walks the list the same way and
reports the size of the largest free block (`largestFree_links`,
`mmGetStats_rep`); as `kmalloc` is first fit, a request comes back `NULL`
exactly when its rounded size exceeds that report
(`kmalloc_null_iff_largest_free`).

What this does NOT say: that `free_memory` is the total size of the free
blocks. `split_block` turns 16 bytes of a free block into a header and
`merge_free_blocks` turns a header back into payload, and neither touches
the counters, so after a split `free_memory` still counts the new header
(`kmalloc_split_drifts_free_memory`). What the counters do count, and the
one call that breaks it, is `Mm.Counters`.
-/

namespace MiniCore.Mm

open Mem

/-- The bytes the two counters account for: `used_memory + free_memory`. -/
def MemStats.counted (st : MemStats) : BitVec 32 := st.usedMemory + st.freeMemory

/-! ## What a call leaves alone -/

/-- `h'` has the static variables of `h`: the same `heap_head`,
`heap_start` and `heap_size`, and the same `used_memory + free_memory`. -/
structure Heap.Keeps (h h' : Heap) : Prop where
  heapHead : h'.heapHead = h.heapHead
  heapStart : h'.heapStart = h.heapStart
  heapSize : h'.heapSize = h.heapSize
  counted : h'.memStats.counted = h.memStats.counted

theorem Heap.Keeps.refl (h : Heap) : h.Keeps h := ⟨rfl, rfl, rfl, rfl⟩

theorem Heap.Keeps.trans {h₁ h₂ h₃ : Heap} (h12 : h₁.Keeps h₂) (h23 : h₂.Keeps h₃) : h₁.Keeps h₃ :=
  ⟨h23.heapHead.trans h12.heapHead, h23.heapStart.trans h12.heapStart,
    h23.heapSize.trans h12.heapSize, h23.counted.trans h12.counted⟩

/-- A store into the memory keeps the static variables. -/
theorem Heap.Keeps.withMem {h h' : Heap} (hk : h.Keeps h') (m : Mem) : h.Keeps { h' with mem := m } :=
  ⟨hk.heapHead, hk.heapStart, hk.heapSize, hk.counted⟩

section Calls

variable {h h' : Heap} {fuel : Nat}

theorem kmalloc_keeps {n r : BitVec 32} (hk : kmalloc fuel h n = .ok (h', r)) : h.Keeps h' := by
  unfold kmalloc at hk
  dsimp only at hk
  split_ifs at hk
  · cases hk; exact .refl h
  · obtain ⟨b, -, hk⟩ := bind_eq_ok.1 hk
    split_ifs at hk
    · cases hk; exact .refl h
    · cases hk
      exact ⟨rfl, rfl, rfl, by simp only [MemStats.counted]; bv_omega⟩

theorem kfree_keeps {p : BitVec 32} (hk : kfree fuel h p = .ok h') : h.Keeps h' := by
  unfold kfree at hk
  dsimp only at hk
  split_ifs at hk
  · cases hk; exact .refl h
  · cases hk; exact .refl h
  · obtain ⟨m, -, hk⟩ := bind_eq_ok.1 hk
    cases hk
    exact ⟨rfl, rfl, rfl, by simp only [MemStats.counted]; bv_omega⟩

theorem kcalloc_keeps {c n r : BitVec 32} (hk : kcalloc fuel h c n = .ok (h', r)) : h.Keeps h' := by
  unfold kcalloc at hk
  dsimp only at hk
  split_ifs at hk
  · cases hk; exact .refl h
  · obtain ⟨⟨h1, q⟩, e, hk⟩ := bind_eq_ok.1 hk
    split_ifs at hk
    · cases hk; exact kmalloc_keeps e
    · split at hk
      · cases hk
      · cases hk; exact (kmalloc_keeps e).withMem _

theorem kmallocAligned_keeps {n a r : BitVec 32} (hk : kmallocAligned fuel h n a = .ok (h', r)) :
    h.Keeps h' := by
  unfold kmallocAligned at hk
  dsimp only at hk
  split_ifs at hk
  · cases hk; exact .refl h
  · obtain ⟨⟨h1, q⟩, e, hk⟩ := bind_eq_ok.1 hk
    split_ifs at hk
    · cases hk; exact kmalloc_keeps e
    · cases hk; exact (kmalloc_keeps e).withMem _

theorem krealloc_keeps {p n r : BitVec 32} (hk : krealloc fuel h p n = .ok (h', r)) : h.Keeps h' := by
  unfold krealloc at hk
  dsimp only at hk
  split_ifs at hk
  · exact kmalloc_keeps hk
  · obtain ⟨h1, e, hk⟩ := bind_eq_ok.1 hk
    cases hk
    exact kfree_keeps e
  · cases hk; exact (Heap.Keeps.refl h).withMem _
  · obtain ⟨⟨h1, q⟩, e1, hk⟩ := bind_eq_ok.1 hk
    by_cases hq : q = 0
    · simp only [hq, ↓reduceIte] at hk
      cases hk
      exact kmalloc_keeps e1
    · simp only [hq, ↓reduceIte, pure_bind] at hk
      obtain ⟨h3, e3, hk⟩ := bind_eq_ok.1 hk
      cases hk
      exact ((kmalloc_keeps e1).withMem _).trans (kfree_keeps e3)

/-- Every call that comes back keeps the static variables. -/
theorem Call.run_keeps {c : Call} {r : BitVec 32} (hc : c.run fuel h = .ok (h', r)) : h.Keeps h' := by
  cases c with
  | kmalloc n => exact kmalloc_keeps hc
  | kmallocAligned n a => exact kmallocAligned_keeps hc
  | kcalloc c n => exact kcalloc_keeps hc
  | krealloc p n => exact krealloc_keeps hc
  | kfree p =>
    simp only [Call.run, Except.map] at hc
    split at hc
    · cases hc
    · cases hc
      exact kfree_keeps ‹_›

end Calls

/-! ## Every run -/

/-- Every state reached from `mm_init` has the static variables it set. -/
theorem Reachable.keeps {ok : List (BitVec 32) → Call → Prop} {h : Heap} {live : List (BitVec 32)}
    (hr : Reachable ok h live) : ∃ m, (mmInit m).Keeps h := by
  induction hr with
  | init m => exact ⟨m, .refl _⟩
  | call _ _ _ hrun ih =>
    obtain ⟨m, hm⟩ := ih
    exact ⟨m, hm.trans (Call.run_keeps hrun)⟩

/-- **Conservation**: whatever a client calls, with whatever arguments,
`used_memory + free_memory` stays what `mm_init` made it. -/
theorem used_add_free_conserved {ok : List (BitVec 32) → Call → Prop} {h : Heap}
    {live : List (BitVec 32)} (hr : Reachable ok h live) :
    h.memStats.usedMemory + h.memStats.freeMemory = kernelHeapSize - sizeofMemBlock := by
  obtain ⟨m, hm⟩ := hr.keeps
  exact hm.counted.trans ((BitVec.zero_add _).trans (congrFun (mmInit_rep m).links.1 .size))

/-- The counters are not the block sizes. After `mm_init` and `kmalloc (8)`
the list is a used block of 8 bytes and a free block of `0xFFFD8`, but
`free_memory` is `0xFFFE8`: it still counts the header `split_block` wrote
at `0x200018`. -/
theorem kmalloc_split_drifts_free_memory :
    ∃ h, kmalloc 2 (mmInit fun _ => 0) 8 = .ok (h, 0x200010) ∧ Reachable Call.Bounded h [0x200010] ∧
      h.memStats.usedMemory = 8 ∧ h.memStats.freeMemory = 0xFFFE8 ∧ h.heapHead = 0x200000 ∧
      field h.mem 0x200000 .size = 8 ∧ field h.mem 0x200000 .isFree = 0 ∧
      field h.mem 0x200000 .next = 0x200018 ∧ field h.mem 0x200018 .size = 0xFFFD8 ∧
      field h.mem 0x200018 .isFree = 1 ∧ field h.mem 0x200018 .next = 0 :=
  ⟨_, rfl, .call (c := .kmalloc 8) 2 (.init fun _ => 0) (by decide) rfl,
    rfl, rfl, rfl, rfl, rfl, rfl, rfl, rfl, rfl⟩

/-! ## `mm_check_heap_integrity` -/

/-- **The walk of `mm_check_heap_integrity`** over a represented tail of the
arena, starting with the total of the blocks before it, finds each block
inside the arena and linked back from its successor, and ends with a total
of `KERNEL_HEAP_SIZE`: it returns 1 within one turn per block. -/
theorem integrityWalk_links {m : Mem} {p a : Nat} {bs : List Blk} {fuel : Nat}
    (h : Links m p bs 0) (ht : Tiles a bs 0x300000) (ha : 0x200000 ≤ a) (hf : bs.length < fuel) :
    integrityWalk m kernelHeapStart kernelHeapSize fuel (BitVec.ofNat 32 (headAddr bs 0))
      (BitVec.ofNat 32 (a - 0x200000)) = .ok true := by
  induction bs generalizing p a fuel with
  | nil =>
    obtain ⟨fuel, rfl⟩ : ∃ f, fuel = f + 1 := ⟨fuel - 1, by omega⟩
    rw [tiles_nil] at ht
    subst ht
    simp [integrityWalk, kernelHeapSize]
  | cons b bs ih =>
    obtain ⟨fuel, rfl⟩ : ∃ f, fuel = f + 1 := ⟨fuel - 1, by omega⟩
    obtain ⟨rfl, ht⟩ := ht
    obtain ⟨hb, h⟩ := h
    have hbe := ht.le
    simp only [Blk.endAddr] at hbe
    have hbend : b.endAddr = b.addr + 16 + b.size := rfl
    have h0 : BitVec.ofNat 32 b.addr ≠ 0 := ofNat_ne_zero (by omega) (by omega)
    have hin : ¬ (BitVec.ofNat 32 b.addr < kernelHeapStart ∨
        kernelHeapStart + kernelHeapSize ≤ BitVec.ofNat 32 b.addr) := by
      rw [kernelHeapStart_eq, show kernelHeapSize = BitVec.ofNat 32 0x100000 from rfl, ofNat_add_ofNat,
        ofNat_lt_ofNat (by omega) (by omega), ofNat_le_ofNat (by omega) (by omega)]
      omega
    have hsz : field m (BitVec.ofNat 32 b.addr) .size = BitVec.ofNat 32 b.size := congrFun hb .size
    have hnx : field m (BitVec.ofNat 32 b.addr) .next = BitVec.ofNat 32 (headAddr bs 0) := congrFun hb .next
    have htot : BitVec.ofNat 32 (b.addr - 0x200000) + (field m (BitVec.ofNat 32 b.addr) .size + sizeofMemBlock) =
        BitVec.ofNat 32 (b.endAddr - 0x200000) := by
      rw [hsz, show sizeofMemBlock = BitVec.ofNat 32 16 from rfl, ofNat_add_ofNat, ofNat_add_ofNat,
        show b.addr - 0x200000 + (b.size + 16) = b.endAddr - 0x200000 by omega]
    have hback : ¬ (BitVec.ofNat 32 (headAddr bs 0) ≠ 0 ∧
        field m (BitVec.ofNat 32 (headAddr bs 0)) .prev ≠ BitVec.ofNat 32 b.addr) := by
      cases bs with
      | nil => simp
      | cons c bs => exact fun hc => hc.2 (congrFun h.1 .prev)
    simp only [headAddr_cons, integrityWalk, h0, hin, htot, hnx, hback, ↓reduceIte]
    refine ih h ht (by omega) ?_
    simp only [List.length_cons] at hf
    omega

/-- **`mm_check_heap_integrity` holds for a well-behaved client.** In every
state such a client reaches, the check returns 1, its walk taking at most
one turn per 16 bytes of the arena. -/
theorem integrity_of_reachable {h : Heap} {live : List (BitVec 32)}
    (hr : Reachable Call.Bounded h live) : mmCheckHeapIntegrity 65537 h = .ok true := by
  obtain ⟨bs, hR, -, -⟩ := hr.inv
  obtain ⟨m, hm⟩ := hr.keeps
  have hlen := hR.tiles.length_le
  have hw := integrityWalk_links hR.links hR.tiles le_rfl (show bs.length < 65537 by omega)
  rw [Nat.sub_self] at hw
  rw [mmCheckHeapIntegrity, hm.heapStart, hm.heapSize, hR.heapHead_eq]
  exact hw

theorem integrity_after_free :
    ∃ h, Reachable Call.Bounded h [0x200028] ∧ mmCheckHeapIntegrity 65537 h = .ok true := by
  obtain ⟨h, hr⟩ := reachable_after_first_of_two_freed
  exact ⟨h, hr, integrity_of_reachable hr⟩

/-! ## `mm_get_stats` -/

/-- The walk of `mm_get_stats` over a represented list, from a running
maximum `acc`, finds the largest free block within one turn per block. -/
theorem largestFree_links {m : Mem} {p a acc : Nat} {bs : List Blk} {fuel : Nat}
    (h : Links m p bs 0) (ht : Tiles a bs 0x300000) (ha : 0x200000 ≤ a) (hf : bs.length < fuel)
    (hacc : acc < 2 ^ 32) :
    largestFree m fuel (BitVec.ofNat 32 (headAddr bs 0)) (BitVec.ofNat 32 acc) =
      .ok (BitVec.ofNat 32 (max acc (maxFree bs))) := by
  induction bs generalizing p a acc fuel with
  | nil =>
    obtain ⟨fuel, rfl⟩ : ∃ f, fuel = f + 1 := ⟨fuel - 1, by omega⟩
    simp [largestFree, maxFree]
  | cons b bs ih =>
    obtain ⟨fuel, rfl⟩ : ∃ f, fuel = f + 1 := ⟨fuel - 1, by omega⟩
    obtain ⟨rfl, ht⟩ := ht
    obtain ⟨hb, h⟩ := h
    have hbe := ht.le
    simp only [Blk.endAddr] at hbe
    have hsz : field m (BitVec.ofNat 32 b.addr) .size = BitVec.ofNat 32 b.size := congrFun hb .size
    have hfr : field m (BitVec.ofNat 32 b.addr) .isFree = if b.free then 1 else 0 := congrFun hb .isFree
    have hnx : field m (BitVec.ofNat 32 b.addr) .next = BitVec.ofNat 32 (headAddr bs 0) := congrFun hb .next
    -- the running maximum after this block
    have hstep : (if field m (BitVec.ofNat 32 b.addr) .isFree ≠ 0 ∧
          BitVec.ofNat 32 acc < field m (BitVec.ofNat 32 b.addr) .size
        then field m (BitVec.ofNat 32 b.addr) .size else BitVec.ofNat 32 acc) =
        BitVec.ofNat 32 (if b.free then max acc b.size else acc) := by
      rw [hsz, hfr]
      cases b.free
      · simp
      · by_cases hlt : acc < b.size
        · rw [if_pos ⟨by decide, (ofNat_lt_ofNat hacc (by omega)).2 hlt⟩, if_pos rfl, max_eq_right hlt.le]
        · rw [if_neg fun h => hlt ((ofNat_lt_ofNat hacc (by omega)).1 h.2), if_pos rfl,
            max_eq_left (Nat.not_lt.1 hlt)]
    have hacc' : (if b.free then max acc b.size else acc) < 2 ^ 32 := by
      split
      · exact max_lt hacc (by omega)
      · exact hacc
    simp only [headAddr_cons, largestFree, ofNat_ne_zero (show 0 < b.addr by omega) (by omega),
      ↓reduceIte, hnx, hstep]
    rw [ih h ht (by simp only [Blk.endAddr]; omega) (by simp only [List.length_cons] at hf; omega) hacc',
      maxFree]
    congr 1
    split_ifs
    · rw [Nat.max_assoc]
    · rfl

/-- `mm_get_stats` on a represented heap: it reports the largest free
block, and leaves the other counters as they are. -/
theorem mmGetStats_rep {h : Heap} {bs : List Blk} {fuel : Nat} (hR : Rep h bs) (hf : bs.length < fuel) :
    ∃ h1, mmGetStats fuel h = .ok (h1, { h.memStats with largestFreeBlock := BitVec.ofNat 32 (maxFree bs) }) := by
  have hw := @largestFree_links _ _ _ 0 _ _ hR.links hR.tiles le_rfl hf (by decide)
  rw [Nat.zero_max] at hw
  rw [mmGetStats, hR.heapHead_eq, show (0 : BitVec 32) = BitVec.ofNat 32 0 from rfl, hw]
  exact ⟨_, rfl⟩

/-- **`mm_get_stats` predicts `kmalloc`.** In every state a well-behaved
client reaches, the heap represents a block list, `mm_get_stats` comes
back with the counters as they are and `largest_free_block` the size of the
largest free block of the list, and a `kmalloc(n)` for `0 < n <= 2^32 - 8`
returns `NULL` exactly when that size is smaller than `n` rounded up to a
multiple of 8. -/
theorem kmalloc_null_iff_largest_free {h : Heap} {live : List (BitVec 32)} {n : BitVec 32}
    (hr : Reachable Call.Bounded h live) (hn0 : n ≠ 0) (hn : n.toNat ≤ 2 ^ 32 - 8) :
    ∃ bs, Rep h bs ∧ ∃ h1 st, mmGetStats 65537 h = .ok (h1, st) ∧
      st = { h.memStats with largestFreeBlock := st.largestFreeBlock } ∧ st.largestFreeBlock.toNat = maxFree bs ∧
      ∃ h' p, kmalloc 65537 h n = .ok (h', p) ∧ (p = 0 ↔ st.largestFreeBlock.toNat < (n.toNat + 7) / 8 * 8) := by
  obtain ⟨bs, hR, -, -⟩ := hr.inv
  have hlen := hR.tiles.length_le
  have hmax : maxFree bs < 2 ^ 32 :=
    Nat.lt_of_le_of_lt (maxFree_le fun b hb => by have := hR.tiles.bounds hb; simp only [Blk.endAddr] at this; omega)
      (show 0x300000 < 2 ^ 32 by norm_num)
  have hpos : 0 < (n.toNat + 7) / 8 * 8 := by
    have : n.toNat ≠ 0 := fun e => hn0 (BitVec.eq_of_toNat_eq e)
    omega
  obtain ⟨h1, hs⟩ := mmGetStats_rep hR (show bs.length < 65537 by omega)
  refine ⟨bs, hR, h1, _, hs, rfl, ?_⟩
  simp only [BitVec.toNat_ofNat, Nat.mod_eq_of_lt hmax, true_and]
  obtain ⟨h', p, hk, ⟨hnone, rfl, -⟩ | ⟨r, -, ha, rfl, hR', -⟩⟩ :=
    kmalloc_rep hR hn (show bs.length < 65537 by omega)
  · refine ⟨h', 0, hk, iff_of_true rfl ?_⟩
    exact (alloc_eq_none_iff_maxFree_lt hpos bs).1 (hnone.resolve_left hn0)
  · refine ⟨h', _, hk, iff_of_false ?_ fun hlt => ?_⟩
    · obtain ⟨d, hd, hda, -, -⟩ := alloc_mem ha
      have := hR'.tiles.bounds hd
      simp only [Blk.endAddr] at this
      exact ofNat_ne_zero (by omega) (by omega)
    · rw [(alloc_eq_none_iff_maxFree_lt hpos bs).2 hlt] at ha
      cases ha

/-- After `kmalloc (8)` twice and `kfree` of the first, the largest free
block is the rest of the arena, which holds 100 bytes. -/
theorem kmalloc_null_iff_largest_free_after_free :
    ∃ h, Reachable Call.Bounded h [0x200028] ∧ (100 : BitVec 32) ≠ 0 ∧ (100 : BitVec 32).toNat ≤ 2 ^ 32 - 8 ∧
      ∃ bs, Rep h bs ∧ ∃ h1 st, mmGetStats 65537 h = .ok (h1, st) ∧
        st = { h.memStats with largestFreeBlock := st.largestFreeBlock } ∧ st.largestFreeBlock.toNat = maxFree bs ∧
        ∃ h' p, kmalloc 65537 h 100 = .ok (h', p) ∧
          (p = 0 ↔ st.largestFreeBlock.toNat < ((100 : BitVec 32).toNat + 7) / 8 * 8) := by
  obtain ⟨h, hr⟩ := reachable_after_first_of_two_freed
  exact ⟨h, hr, by decide, by decide, kmalloc_null_iff_largest_free hr (by decide) (by decide)⟩

end MiniCore.Mm
