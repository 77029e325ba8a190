import MiniCore.Mm.Statics

/-!
# `mem_stats` counts the blocks, until `krealloc` splits one in place

`kmalloc` moves the size of the block it hands out from `free_memory` to
`used_memory`, and `kfree` moves the size of the block it frees back
(`Mm.Statics`). Measured against the block list of `Mm.Refine`,
`used_memory` is then the total size of the used blocks. `free_memory` is
not the total size of the free ones: `split_block` turns 16 bytes of free
payload into a header, and `merge_free_blocks` turns a header back into
payload, and neither touches the counters. `free_memory` counts the free
payload and every header but the first, so that
`used_memory + free_memory + sizeof(mem_block_t)` is `KERNEL_HEAP_SIZE`,
with nothing wrapped (`Counts`).

One call breaks this: `krealloc(p, n)` of a block that holds `n` bytes
calls `split_block` in place (`Call.ShrinksInPlace`), which hands the rest
of the block to a new free block while `used_memory` still counts it.

**The law** (`mem_stats_count_blocks`): over every run of a well-behaved
client in which no `krealloc` splits a block in place (`CountedRun`), the
counters count the block list as above, and no block is larger than the
counter `kmalloc` or `kfree` subtracts it from. One in-place split, then a
`kmalloc`, makes `free_memory` wrap.

The proof follows the calls: first fit charges the carved block
(`Counts.alloc`), `kfree` credits the freed one (`kfree_counts_used`), and
every entry point is a composition of the two (`Call.counts`).
-/

namespace MiniCore.Mm

open Mem

/-! ## The runs -/

/-- The `krealloc(p, n)` that `split_block` serves in place and splits: `p`
is not `NULL`, `n` is not 0, and the block holds `n` bytes, and more than
`n`, a header and 32 bytes. -/
def Call.ShrinksInPlace (h : Heap) : Call → Prop
  | .krealloc p n => p ≠ 0 ∧ n ≠ 0 ∧ n ≤ field h.mem (p - sizeofMemBlock) .size ∧
      n + sizeofMemBlock + 32 < field h.mem (p - sizeofMemBlock) .size
  | _ => False

instance (h : Heap) : DecidablePred (Call.ShrinksInPlace h)
  | .krealloc p n => inferInstanceAs (Decidable (p ≠ 0 ∧ n ≠ 0 ∧ _ ∧ _))
  | .kmalloc _ | .kmallocAligned _ _ | .kcalloc _ _ | .kfree _ => inferInstanceAs (Decidable False)

/-- The runs of a well-behaved client in which no `krealloc` splits a
block in place. -/
inductive CountedRun : Heap → List (BitVec 32) → Prop
  | init (m : Mem) : CountedRun (mmInit m) []
  | call {h h' : Heap} {live : List (BitVec 32)} {c : Call} {r : BitVec 32} (fuel : Nat) :
      CountedRun h live → c.Bounded live → ¬c.ShrinksInPlace h → c.run fuel h = .ok (h', r) →
      CountedRun h' (c.live live r)

theorem CountedRun.reachable {h : Heap} {live : List (BitVec 32)} (hr : CountedRun h live) :
    Reachable Call.Bounded h live := by
  induction hr with
  | init m => exact .init m
  | call fuel _ hok _ hrun ih => exact ih.call fuel hok hrun

/-! ## The counts -/

/-- `mem_stats` counts the list `bs`: `used_memory` is the total size of
its used blocks, and `used_memory + free_memory` is
`KERNEL_HEAP_SIZE - sizeof(mem_block_t)`, neither wrapped. -/
structure Counts (st : MemStats) (bs : List Blk) : Prop where
  used : st.usedMemory.toNat = usedBytes bs
  total : st.usedMemory.toNat + st.freeMemory.toNat = 0xFFFF0

/-- A block holds at most the bytes of its kind. -/
theorem size_le_bytes {b : Blk} {bs : List Blk} (hb : b ∈ bs) :
    b.size ≤ if b.free then freeBytes bs else usedBytes bs := by
  induction bs with
  | nil => cases hb
  | cons c bs ih =>
    rcases List.mem_cons.1 hb with rfl | hb
    · cases hbf : b.free <;> simp [freeBytes, hbf]
    · have := ih hb
      cases hbf : b.free <;> cases hcf : c.free <;>
        simp only [hbf, hcf, freeBytes, usedBytes_cons, Bool.false_eq_true, ↓reduceIte] at this ⊢ <;> omega

/-- The arena holds at least one header besides the used payload. -/
theorem Tiles.usedBytes_le {bs : List Blk} (ht : Tiles 0x200000 bs 0x300000) : usedBytes bs + 16 ≤ 0x100000 := by
  have hb := ht.bytes
  cases bs with
  | nil => exact absurd ht (by norm_num)
  | cons b bs =>
    simp only [List.length_cons] at hb
    omega

section Counts

variable {st : MemStats} {bs bs' : List Blk}

theorem counts_mmInit (m : Mem) : Counts (mmInit m).memStats [⟨0x200000, 0xFFFF0, true⟩] := by
  have hsz : (mmInit m).memStats.freeMemory = BitVec.ofNat 32 0xFFFF0 := congrFun (mmInit_rep m).links.1 .size
  exact ⟨rfl, by rw [hsz, show (mmInit m).memStats.usedMemory = 0 from rfl]; rfl⟩

/-- `kmalloc`'s charge: `s` bytes go from free to used. -/
theorem Counts.charge (hC : Counts st bs) (ht : Tiles 0x200000 bs' 0x300000) {s : Nat}
    (hu : usedBytes bs' = usedBytes bs + s) : Counts (st.charge (BitVec.ofNat 32 s)) bs' := by
  have hle := ht.usedBytes_le
  have := hC.used
  have := hC.total
  constructor <;> simp only [MemStats.charge, BitVec.toNat_add, BitVec.toNat_sub, BitVec.toNat_ofNat] <;> omega

/-- `kfree`'s credit: `s` bytes go from used to free. -/
theorem Counts.credit (hC : Counts st bs) {s : Nat} (hu : usedBytes bs' + s = usedBytes bs) :
    Counts (st.credit (BitVec.ofNat 32 s)) bs' := by
  have := hC.used
  have := hC.total
  constructor <;> simp only [MemStats.credit, BitVec.toNat_add, BitVec.toNat_sub, BitVec.toNat_ofNat] <;> omega

/-- First fit charges the block it carved, at the size its header holds. -/
theorem Counts.alloc {h' : Heap} {size : Nat} {r : List Blk × Nat} (hC : Counts st bs)
    (ha : Mm.alloc size bs = some r) (hR' : Rep h' r.1) :
    Counts (st.charge (field h'.mem (BitVec.ofNat 32 (r.2 + 16) - sizeofMemBlock) .size)) r.1 := by
  obtain ⟨d, hd, hda, hu⟩ := usedBytes_alloc ha
  rw [← hda, (hR'.payload_size hd).1]
  exact hC.charge hR'.tiles hu

/-- The free counter: the free payload and every header but the first. -/
theorem Counts.free_eq (hC : Counts st bs) (ht : Tiles 0x200000 bs 0x300000) :
    st.freeMemory.toNat + 16 = freeBytes bs + 16 * bs.length := by
  have := ht.bytes
  have := hC.used
  have := hC.total
  omega

/-- No block is larger than the counter of its kind. -/
theorem Counts.size_le (hC : Counts st bs) (ht : Tiles 0x200000 bs 0x300000) {b : Blk} (hb : b ∈ bs) :
    b.size ≤ (if b.free then st.freeMemory else st.usedMemory).toNat := by
  have hs := size_le_bytes hb
  have := List.length_pos_of_mem hb
  have := hC.free_eq ht
  have := hC.used
  cases hbf : b.free <;> simp only [hbf, Bool.false_eq_true, ↓reduceIte] at hs ⊢ <;> omega

end Counts

/-! ## Each call -/

section Calls

variable {h h' : Heap} {bs : List Blk} {live : List (BitVec 32)} {fuel : Nat}

theorem kmalloc_counts {n p : BitVec 32} (hR : Rep h bs) (hC : Counts h.memStats bs) (hn : n.toNat ≤ 2 ^ 32 - 8)
    (hk : kmalloc fuel h n = .ok (h', p)) : ∃ bs', Rep h' bs' ∧ Counts h'.memStats bs' := by
  obtain ⟨h'', p', e, ⟨-, -, rfl⟩ | ⟨r, -, ha, rfl, hR', -⟩⟩ :=
    kmalloc_rep hR hn (show bs.length < max fuel (bs.length + 1) by omega)
  all_goals obtain ⟨rfl, rfl⟩ := Prod.mk.inj (Except.ok.inj ((kmalloc_mono (le_max_left _ _) hk).symm.trans e))
  · exact ⟨bs, hR, hC⟩
  · rcases kmalloc_memStats hk with ⟨-, h0⟩ | hst
    · exact absurd h0 (kmalloc_payload hR' ha).2
    · exact ⟨r.1, hR', hst ▸ hC.alloc ha hR'⟩

theorem kcalloc_counts {c n p : BitVec 32} (hR : Rep h bs) (hC : Counts h.memStats bs) (hc0 : c ≠ 0)
    (hcn : c.toNat * n.toNat ≤ 2 ^ 32 - 8) (hk : kcalloc fuel h c n = .ok (h', p)) :
    ∃ bs', Rep h' bs' ∧ Counts h'.memStats bs' := by
  obtain ⟨h'', p', e, ⟨-, -, rfl⟩ | ⟨r, ha, rfl, hR', hst⟩⟩ :=
    kcalloc_rep hR hc0 hcn (show bs.length < max fuel (bs.length + 1) by omega)
  all_goals obtain ⟨rfl, rfl⟩ := Prod.mk.inj (Except.ok.inj ((kcalloc_mono (le_max_left _ _) hk).symm.trans e))
  · exact ⟨bs, hR, hC⟩
  · exact ⟨r.1, hR', hst ▸ hC.alloc ha hR'⟩

/-- `kfree` of a used block credits its size to the list `freeAt` leaves. -/
theorem kfree_counts_used {L R : List Blk} {b : Blk} (hR : Rep h (L ++ b :: R))
    (hC : Counts h.memStats (L ++ b :: R)) (hbf : b.free = false)
    (hk : kfree fuel h (BitVec.ofNat 32 (b.addr + 16)) = .ok h') :
    Rep h' (freeAt L.reverse b R) ∧ Counts h'.memStats (freeAt L.reverse b R) := by
  obtain ⟨h'', e, hR', -⟩ := kfree_rep hR hbf (le_max_right fuel (L ++ b :: R).length)
  obtain rfl := Except.ok.inj ((kfree_mono (le_max_left _ _) hk).symm.trans e)
  refine ⟨hR', ?_⟩
  rw [kfree_memStats_used hR (List.mem_append_right L (List.mem_cons_self b R)) hbf hk]
  refine hC.credit ?_
  simp only [usedBytes_freeAt, usedBytes_reverse, usedBytes_append, usedBytes_cons, hbf, Bool.false_eq_true,
    ↓reduceIte]
  omega

theorem kfree_counts {p : BitVec 32} (hR : Rep h bs) (hC : Counts h.memStats bs) (hl : live.Perm (payloads bs))
    (hp : p = 0 ∨ p ∈ live) (hk : kfree fuel h p = .ok h') : ∃ bs', Rep h' bs' ∧ Counts h'.memStats bs' := by
  rcases hp with rfl | hp
  · obtain rfl := Except.ok.inj ((kfree_null fuel hR hl).1.symm.trans hk)
    exact ⟨bs, hR, hC⟩
  · obtain ⟨L, b, R, rfl, hbf, rfl⟩ := mem_payloads (hl.subset hp)
    exact ⟨_, kfree_counts_used hR hC hbf hk⟩

/-- The move of `krealloc`: first fit charges the new block, and `kfree`
credits the old one; with no room, nothing changes. -/
theorem krealloc_move_counts {L R : List Blk} {b : Blk} {n r : BitVec 32} (hR : Rep h (L ++ b :: R))
    (hC : Counts h.memStats (L ++ b :: R)) (hbf : b.free = false) (hn : n.toNat ≤ 2 ^ 32 - 8)
    (hfit : b.size < n.toNat) (hk : krealloc fuel h (BitVec.ofNat 32 (b.addr + 16)) n = .ok (h', r)) :
    ∃ bs', Rep h' bs' ∧ Counts h'.memStats bs' := by
  have hn0 : n ≠ 0 := fun e => by simp [e] at hfit
  have hf := (Nat.lt_succ_self (L ++ b :: R).length).trans_le (le_max_right fuel _)
  have hk' := krealloc_mono (le_max_left fuel ((L ++ b :: R).length + 1)) hk
  obtain ⟨h1, q, e1, ⟨-, rfl, rfl⟩ | ⟨res, -, ha, rfl, hR1, -⟩⟩ := kmalloc_rep hR hn hf
  · obtain ⟨rfl, -⟩ := Prod.mk.inj (Except.ok.inj ((krealloc_no_room hR hn0 hfit e1).symm.trans hk'))
    exact ⟨_, hR, hC⟩
  obtain ⟨h2, hR2, -, ⟨h1', e1', hst2⟩, hmove⟩ := krealloc_moves hR hbf hn hfit hf ha
  obtain ⟨rfl, -⟩ := Prod.mk.inj (Except.ok.inj (e1'.symm.trans e1))
  -- the new block charged
  have hC1 : Counts h1'.memStats res.1 := by
    rcases kmalloc_memStats e1 with ⟨-, h0⟩ | hst
    · exact absurd h0 (kmalloc_payload hR1 ha).2
    · exact hst ▸ hC.alloc ha hR1
  -- the old block credited
  obtain ⟨L', R', e'⟩ := List.append_of_mem (mem_alloc_of_used ha (List.mem_append_right L (List.mem_cons_self b R)) hbf)
  rw [e'] at hR2 hC1
  obtain ⟨h3, hk3, -⟩ := kfree_rep hR2 hbf (show (L' ++ b :: R').length ≤ max fuel ((L ++ b :: R).length + 1) by
    rw [← e']; exact (alloc_length ha).trans (le_max_right _ _))
  obtain ⟨rfl, -⟩ := Prod.mk.inj (Except.ok.inj ((hmove h3 hk3).symm.trans hk'))
  exact ⟨_, kfree_counts_used hR2 (hst2 ▸ hC1) hbf hk3⟩

/-- `krealloc` that does not split in place: `kmalloc`, `kfree`, nothing,
or a move that charges the new block and credits the old one. -/
theorem krealloc_counts {p n r : BitVec 32} (hR : Rep h bs) (hC : Counts h.memStats bs)
    (hl : live.Perm (payloads bs)) (hp : p = 0 ∨ p ∈ live) (hn : n.toNat ≤ 2 ^ 32 - 8)
    (hns : ¬(Call.krealloc p n).ShrinksInPlace h) (hk : krealloc fuel h p n = .ok (h', r)) :
    ∃ bs', Rep h' bs' ∧ Counts h'.memStats bs' := by
  rcases hp with rfl | hp
  · -- `krealloc (NULL, n)` is `kmalloc (n)`
    exact kmalloc_counts hR hC hn (by simpa [krealloc] using hk)
  have hp0 : p ≠ 0 := fun e => hR.payloads.1 (hl.subset (e ▸ hp))
  by_cases hn0 : n = 0
  · -- `krealloc (p, 0)` is `kfree (p)`
    simp only [krealloc, if_neg hp0, if_pos hn0] at hk
    obtain ⟨h1, e, hk⟩ := bind_eq_ok.1 hk
    cases hk
    exact kfree_counts hR hC hl (.inr hp) e
  obtain ⟨L, b, R, rfl, hbf, rfl⟩ := mem_payloads (hl.subset hp)
  obtain ⟨-, hblock, hle⟩ := hR.krealloc_reads n
  by_cases hfit : n.toNat ≤ b.size
  · -- the block holds `n` bytes but not a split: `split_block` writes nothing
    have hsplit : ¬n + sizeofMemBlock + 32 < field h.mem (BitVec.ofNat 32 b.addr) .size := fun hs =>
      hns ⟨hp0, hn0, hblock ▸ hle.2 hfit, hblock ▸ hs⟩
    rw [krealloc_in_place hR hn0 hfit, splitBlock, if_neg hsplit] at hk
    obtain ⟨rfl, -⟩ := Prod.mk.inj (Except.ok.inj hk)
    exact ⟨_, hR, hC⟩
  · -- otherwise `kmalloc`, then `memcpy` and `kfree` if it found room
    exact krealloc_move_counts hR hC hbf hn (by omega) hk

/-- **One call** of a counted run keeps the counts. -/
theorem Call.counts {c : Call} {r : BitVec 32} (hR : Rep h bs) (hC : Counts h.memStats bs)
    (hl : live.Perm (payloads bs)) (hok : c.Bounded live) (hns : ¬c.ShrinksInPlace h)
    (hrun : c.run fuel h = .ok (h', r)) : ∃ bs', Rep h' bs' ∧ Counts h'.memStats bs' := by
  cases c with
  | kmalloc n => exact kmalloc_counts hR hC hok hrun
  | kmallocAligned n a => exact hok.elim
  | kcalloc c n => exact kcalloc_counts hR hC hok.1 hok.2 hrun
  | krealloc p n => exact krealloc_counts hR hC hl hok.1 hok.2 hns hrun
  | kfree p =>
    cases e : Mm.kfree fuel h p with
    | error _ => simp [Call.run, e, Except.map] at hrun
    | ok h'' =>
      simp only [Call.run, e, Except.map, Except.ok.injEq, Prod.mk.injEq] at hrun
      obtain ⟨rfl, -⟩ := hrun
      exact kfree_counts hR hC hl hok e

end Calls

/-- **Every counted run** keeps the counts. -/
theorem CountedRun.counts {h : Heap} {live : List (BitVec 32)} (hr : CountedRun h live) :
    ∃ bs, Rep h bs ∧ Counts h.memStats bs := by
  induction hr with
  | init m => exact ⟨_, mmInit_rep m, counts_mmInit m⟩
  | call fuel hr hok hns hrun ih =>
    obtain ⟨bs, hR, hC⟩ := ih
    obtain ⟨bs0, hR0, hl, -⟩ := hr.reachable.inv
    obtain rfl := hR0.unique hR
    exact Call.counts hR hC hl hok hns hrun

/-! ## The law -/

/-- **`mem_stats` counts the blocks, until `krealloc` splits one in
place.** In every state of a counted run the heap represents a block list
`bs` in which `used_memory` is the total size of the used blocks and
`free_memory + sizeof(mem_block_t)` the total size of the free blocks plus
a header per block, so that `used_memory + free_memory +
sizeof(mem_block_t)` is `KERNEL_HEAP_SIZE`, none of them wrapped; and no
block is larger than the counter `kfree` (for a used block) or `kmalloc`
(for a free one) subtracts it from. An in-place split is not counted: after
`kmalloc (0xFFF00)` and `krealloc (p, 8)`, which splits, `kmalloc (0xFFE00)`
charges `0xFFE00` bytes to a `free_memory` of `0xF0`, which wraps, and
`used_memory` exceeds the sizes of the two live blocks. -/
theorem mem_stats_count_blocks :
    (∀ h live, CountedRun h live → ∃ bs, Rep h bs ∧
      h.memStats.usedMemory.toNat = usedBytes bs ∧
      h.memStats.freeMemory.toNat + sizeofMemBlock.toNat = freeBytes bs + sizeofMemBlock.toNat * bs.length ∧
      h.memStats.usedMemory.toNat + h.memStats.freeMemory.toNat + sizeofMemBlock.toNat = kernelHeapSize.toNat ∧
      ∀ b ∈ bs, b.size ≤ (if b.free then h.memStats.freeMemory else h.memStats.usedMemory).toNat) ∧
    ∃ h1 h2 h3, kmalloc 2 (mmInit fun _ => 0) 0xFFF00 = .ok (h1, 0x200010) ∧
      (Call.krealloc 0x200010 8).ShrinksInPlace h1 ∧ krealloc 2 h1 0x200010 8 = .ok (h2, 0x200010) ∧
      kmalloc 3 h2 0xFFE00 = .ok (h3, 0x200028) ∧ Reachable Call.Bounded h3 [0x200028, 0x200010] ∧
      h1.memStats.freeMemory = 0xF0 ∧ h2.memStats = h1.memStats ∧ h3.memStats.usedMemory = 0x1FFD00 ∧
      field h3.mem (0x200010 - sizeofMemBlock) .size + field h3.mem (0x200028 - sizeofMemBlock) .size = 0xFFE08 ∧
      h3.memStats.freeMemory = 0xFFF002F0 := by
  refine ⟨fun h live hr => ?_, _, _, _, rfl, by decide, rfl, rfl,
    .call (c := .kmalloc 0xFFE00) 3 (.call (c := .krealloc 0x200010 8) 2
      (.call (c := .kmalloc 0xFFF00) 2 (.init fun _ => 0) (by decide) rfl) (by decide) rfl) (by decide) rfl,
    rfl, rfl, rfl, rfl, rfl⟩
  obtain ⟨bs, hR, hC⟩ := hr.counts
  exact ⟨bs, hR, hC.used, hC.free_eq hR.tiles, by have := hC.total; exact congrArg (· + 16) this,
    fun b hb => hC.size_le hR.tiles hb⟩

/-- Two blocks of `kmalloc (8)`, and the first freed: the list is a free
block, a used one and the free rest, and the counters count it. -/
theorem counts_after_first_of_two_freed :
    ∃ h, CountedRun h [0x200028] ∧ ∃ bs, Rep h bs ∧
      h.memStats.usedMemory.toNat = usedBytes bs ∧
      h.memStats.freeMemory.toNat + sizeofMemBlock.toNat = freeBytes bs + sizeofMemBlock.toNat * bs.length ∧
      h.memStats.usedMemory.toNat + h.memStats.freeMemory.toNat + sizeofMemBlock.toNat = kernelHeapSize.toNat ∧
      ∀ b ∈ bs, b.size ≤ (if b.free then h.memStats.freeMemory else h.memStats.usedMemory).toNat :=
  have hr : CountedRun _ [0x200028] :=
    .call (c := .kfree 0x200010) 4 (.call (c := .kmalloc 8) 4 (.call (c := .kmalloc 8) 4 (.init fun _ => 0)
      (by decide) (by decide) rfl) (by decide) (by decide) rfl) (by decide) (by decide) rfl
  ⟨_, hr, mem_stats_count_blocks.1 _ _ hr⟩

end MiniCore.Mm
