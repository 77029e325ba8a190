import MiniCore.Mm.Refine

/-!
# What each call of `mm.c` does to the block list

`MiniCore.Mm.Refine` shows that the calls keep the representation. This
module says, call by call and for every represented heap, which list each
one leaves and which bytes it keeps:

* `kmalloc` is first fit, with the split rule of `split_block`
  (`kmalloc_first_fit`);
* `kfree` replaces the run of free blocks around the freed block by one
  free block (`kfree_coalesces_run`), and a second `kfree` of a pointer,
  with only `kfree` in between, changes nothing (`kfree_twice_is_noop`);
* `krealloc` keeps the bytes it promises and fails without a trace
  (`krealloc_keeps_contents`).

None of them writes a byte outside the headers of the list it works on
(`HeadersOnly`), so the payloads a client holds are left alone; the only
payload bytes that change are those `krealloc` copies.

**The law** (`kfree_coalesces_run`): freeing a used block whose free
neighbours are the runs `A` before it and `B` after it leaves the list with
the whole run replaced by one free block at the run's first address, of the
run's sizes and a header for each block but the first.

## What this does NOT cover

`kcalloc` and `kmalloc_aligned` have no such description: a zero count
traps in `kcalloc`, and wrapped sizes reach both: `kcalloc` is handed a
block of size 0 and its `memset` would run round the address space into
the kernel image, where the model stops (`kcalloc_traps_or_undersizes`),
and `kmalloc_aligned` stashes its raw pointer outside the arena
(`kmallocAligned_stashes_outside_arena`). A freed header keeps its flag,
but not its other words: a merge rewrites them while the block is still in
the list (`kfree_rewrites_freed_header`); and a free after an allocation
may meet a header that the allocation reused. The statistics are the
business of `MiniCore.Mm.Statics` and `MiniCore.Mm.Counters`.
-/

namespace MiniCore.Mm

open Mem

/-! ## `kmalloc` -/

/-- **`kmalloc` is first fit.** For a request `n` of `1` to `2^32 - 8`
bytes, rounded to `r`: if no free block holds `r` bytes, `kmalloc` returns
`NULL` and the heap is as it was. Otherwise it takes the first free block
`b` that does, marks it used, and returns its payload. When `b` exceeds `r`
by more than a header and 32 bytes, `b` keeps `r` bytes and the rest, less
a header, becomes a free block linked in after it; otherwise `b` keeps its
size. Nothing but the headers of the new list is written. -/
theorem kmalloc_first_fit {h : Heap} {bs : List Blk} {n : BitVec 32} {r fuel : Nat} (hR : Rep h bs)
    (hn1 : 1 ≤ n.toNat) (hn : n.toNat ≤ 2 ^ 32 - 8) (hr : r = ((n + 7) &&& ~~~7).toNat)
    (hf : bs.length < fuel) :
    ((∀ c ∈ bs, c.free → c.size < r) → kmalloc fuel h n = .ok (h, 0)) ∧
    ∀ L b R, bs = L ++ b :: R → b.free → r ≤ b.size → (∀ c ∈ L, c.free → c.size < r) →
      let carved : List Blk := if r + 16 + 32 < b.size then
          [⟨b.addr, r, false⟩, ⟨b.addr + 16 + r, b.size - r - 16, true⟩]
        else [⟨b.addr, b.size, false⟩]
      ∃ h', kmalloc fuel h n = .ok (h', BitVec.ofNat 32 (b.addr + 16)) ∧
        Rep h' (L ++ carved ++ R) ∧ HeadersOnly ((L ++ carved ++ R).map Blk.addr) h.mem h'.mem := by
  have hn0 : n ≠ 0 := fun e => by simp [e] at hn1
  obtain rfl : r = (n.toNat + 7) / 8 * 8 := by
    rw [hr, kmalloc_round hn, BitVec.toNat_ofNat, Nat.mod_eq_of_lt (by omega)]
  obtain ⟨h', p, hk, ⟨h0, rfl, rfl⟩ | ⟨res, -, ha, rfl, hR', o⟩⟩ := kmalloc_rep hR hn hf
  · refine ⟨fun _ => hk, fun L b R hbs hb hbr hL => absurd h0 (not_or.2 ⟨hn0, ?_⟩)⟩
    rw [hbs, alloc_first (Blk.fits_of_le hb hbr) fun c hc => Blk.fits_eq_false (hL c hc)]
    exact Option.some_ne_none _
  · refine ⟨fun hno => ?_, fun L b R hbs hb hbr hL => ?_⟩
    · rw [alloc_eq_none.2 fun c hc => Blk.fits_eq_false (hno c hc)] at ha
      cases ha
    · subst hbs
      rw [alloc_first (Blk.fits_of_le hb hbr) fun c hc => Blk.fits_eq_false (hL c hc)] at ha
      obtain rfl := Option.some.inj ha
      rw [Blk.carve_eq] at hR' o
      exact ⟨h', hk, hR', o⟩

/-- After `mm_init`, `kmalloc (8)` twice and `kfree` of the first block: a
free block of 8 bytes, a used one of 8, and the free rest of the arena. -/
theorem rep_after_first_of_two_freed :
    ∃ h1 h2 h3, kmalloc 4 (mmInit fun _ => 0) 8 = .ok (h1, 0x200010) ∧ kmalloc 4 h1 8 = .ok (h2, 0x200028) ∧
      kfree 4 h2 0x200010 = .ok h3 ∧
      Rep h3 [⟨0x200000, 8, true⟩, ⟨0x200018, 8, false⟩, ⟨0x200030, 0xFFFC0, true⟩] := by
  obtain ⟨h1, hk1, hR1⟩ := kmalloc_rep_some (mmInit_rep fun _ => 0) (n := 8) (by decide) (show 1 < 4 by decide)
    (by decide) rfl
  obtain ⟨h2, hk2, hR2⟩ := kmalloc_rep_some hR1 (n := 8) (by decide) (show 2 < 4 by decide) (by decide) rfl
  obtain ⟨h3, hk3, hR3, -⟩ := kfree_rep (L := []) hR2 rfl (show 3 ≤ 4 by decide)
  exact ⟨h1, h2, h3, hk1, hk2, hk3, hR3⟩

/-- First fit passes a free block too small and a used one: on the list
above, `kmalloc (100)` rounds to 104 and carves the free rest, at
`0x200030`, returning `0x200040`. -/
theorem kmalloc_first_fit_past_small_block :
    ∃ h1 h2 h3, kmalloc 4 (mmInit fun _ => 0) 8 = .ok (h1, 0x200010) ∧ kmalloc 4 h1 8 = .ok (h2, 0x200028) ∧
      kfree 4 h2 0x200010 = .ok h3 ∧
      Rep h3 [⟨0x200000, 8, true⟩, ⟨0x200018, 8, false⟩, ⟨0x200030, 0xFFFC0, true⟩] ∧
      ∃ h', kmalloc 4 h3 100 = .ok (h', 0x200040) ∧
        Rep h' [⟨0x200000, 8, true⟩, ⟨0x200018, 8, false⟩, ⟨0x200030, 104, false⟩, ⟨0x2000A8, 0xFFF48, true⟩] ∧
        HeadersOnly [0x200000, 0x200018, 0x200030, 0x2000A8] h3.mem h'.mem := by
  obtain ⟨h1, h2, h3, hk1, hk2, hk3, hR3⟩ := rep_after_first_of_two_freed
  obtain ⟨h', hk, hR, o⟩ := (kmalloc_first_fit hR3 (n := 100) (by decide) (by decide) rfl
    (show 3 < 4 by decide)).2 [⟨0x200000, 8, true⟩, ⟨0x200018, 8, false⟩] ⟨0x200030, 0xFFFC0, true⟩ [] rfl rfl
    (by decide) (by decide)
  exact ⟨h1, h2, h3, hk1, hk2, hk3, hR3, h', hk, hR, o⟩

/-! ## `kfree` -/

/-- **`kfree` coalesces exactly the free run around the block.** -/
theorem kfree_coalesces_run {h : Heap} {L A B R : List Blk} {b : Blk} {fuel : Nat}
    (hR : Rep h (L ++ A ++ b :: B ++ R)) (hb : b.free = false) (hA : ∀ c ∈ A, c.free)
    (hB : ∀ c ∈ B, c.free) (hL : ∀ c ∈ L.getLast?, c.free = false)
    (hRu : ∀ c ∈ R.head?, c.free = false) (hf : (L ++ A ++ b :: B ++ R).length ≤ fuel) :
    ∃ h', kfree fuel h (BitVec.ofNat 32 (b.addr + 16)) = .ok h' ∧
      Rep h' (L ++ ⟨(A.headD b).addr, ((A ++ b :: B).map Blk.size).sum + 16 * (A.length + B.length),
        true⟩ :: R) ∧
      HeadersOnly ((L ++ A ++ b :: B ++ R).map Blk.addr) h.mem h'.mem := by
  have e : L ++ A ++ b :: B ++ R = (L ++ A) ++ b :: (B ++ R) := by simp
  rw [e] at hR hf ⊢
  obtain ⟨h', hk, hR', o, -⟩ := kfree_rep hR hb hf
  exact ⟨h', hk, freeAt_run hA hB hL hRu ▸ hR', o⟩

/-- After `mm_init` and `kmalloc (8)`: a used block of 8 bytes, then the
rest of the arena, free. -/
theorem rep_after_kmalloc_eight :
    ∃ h, kmalloc 2 (mmInit fun _ => 0) 8 = .ok (h, 0x200010) ∧
      Rep h [⟨0x200000, 8, false⟩, ⟨0x200018, 0xFFFD8, true⟩] := by
  obtain ⟨h, p, hk, ⟨h0, -⟩ | ⟨res, -, ha, rfl, hR, -⟩⟩ :=
    kmalloc_rep (mmInit_rep fun _ => 0) (n := 8) (by decide) (show 1 < 2 by decide)
  · exact absurd h0 (by decide)
  · obtain rfl := Option.some.inj (ha.symm.trans (by rfl :
      alloc (((8 : BitVec 32).toNat + 7) / 8 * 8) [⟨0x200000, 0xFFFF0, true⟩] =
        some ([⟨0x200000, 8, false⟩, ⟨0x200018, 0xFFFD8, true⟩], 0x200000)))
    exact ⟨h, hk, hR⟩

/-- Freeing the used block between two free ones merges all three: on the
list above, `kfree (0x200028)` leaves the arena one free block again. -/
theorem kfree_coalesces_both_sides :
    ∃ h1 h2 h3, kmalloc 4 (mmInit fun _ => 0) 8 = .ok (h1, 0x200010) ∧ kmalloc 4 h1 8 = .ok (h2, 0x200028) ∧
      kfree 4 h2 0x200010 = .ok h3 ∧
      Rep h3 [⟨0x200000, 8, true⟩, ⟨0x200018, 8, false⟩, ⟨0x200030, 0xFFFC0, true⟩] ∧
      ∃ h', kfree 4 h3 0x200028 = .ok h' ∧ Rep h' [⟨0x200000, 0xFFFF0, true⟩] ∧
        HeadersOnly [0x200000, 0x200018, 0x200030] h3.mem h'.mem := by
  obtain ⟨h1, h2, h3, hk1, hk2, hk3, hR3⟩ := rep_after_first_of_two_freed
  obtain ⟨h', hk, hR, o⟩ := kfree_coalesces_run (L := []) (A := [⟨0x200000, 8, true⟩]) (b := ⟨0x200018, 8, false⟩)
    (B := [⟨0x200030, 0xFFFC0, true⟩]) (R := []) hR3 rfl (by decide) (by decide) (by decide) (by decide)
    (show 3 ≤ 4 by decide)
  exact ⟨h1, h2, h3, hk1, hk2, hk3, hR3, h', hk, hR, o⟩

/-! ## Freeing twice

`kfree` returns at once when the header before the pointer has `is_free`
set. After `kfree (p)` that header stays free under any further `kfree`:
it is a free header of the list, or lies in the payload of a free block
(`FreeCover`); the merges write no `is_free` word of the list
(`LinksOnly.flag`), and no header store reaches a payload
(`HeadersOnly.payload`). -/

/-- One `kfree` of a used block keeps the flag of a header that a free
block covers, and the cover. -/
theorem kfree_keeps_freed_flag {h : Heap} {L R : List Blk} {b : Blk} {a fuel : Nat}
    (hR : Rep h (L ++ b :: R)) (hb : b.free = false) (hf : (L ++ b :: R).length ≤ fuel)
    (ha : hdr h.mem a .isFree = 1) (hc : FreeCover (L ++ b :: R) a) :
    ∃ h', kfree fuel h (BitVec.ofNat 32 (b.addr + 16)) = .ok h' ∧ Rep h' (freeAt L.reverse b R) ∧
      hdr h'.mem a .isFree = 1 ∧ FreeCover (freeAt L.reverse b R) a := by
  obtain ⟨h', hk, hR', hH, hL⟩ := kfree_rep hR hb hf
  refine ⟨h', hk, hR', ?_, FreeCover.freeAt (by simpa using hR.tiles) (by simpa using hc.reflag)⟩
  obtain ⟨d, hd, hdf, hda⟩ := hc
  have hdb : d ≠ b := fun e => by rw [e, hb] at hdf; cases hdf
  have hbm := List.mem_append_right L (List.mem_cons_self b R)
  have hdd := hR.tiles.bounds hd
  have hbd := hR.tiles.bounds hbm
  simp only [Blk.endAddr] at hdd hbd
  rcases hda with rfl | ⟨h1, h2⟩
  · -- a free header of the list: the merges keep its flag, and `block->is_free = 1` is elsewhere
    rw [hL.flag_mem hR.tiles (by norm_num) hd]
    exact (congrFun (hdr_setField_far _ _ _ (hR.tiles.spaced hbm hd hdb.symm) (by omega)
      (by omega)) .isFree).trans ha
  · -- inside the payload of a free block: no header store reaches it
    simp only [Blk.endAddr] at h2
    exact (congrFun (hdr_congr ((hH.payload hR.tiles hd).mono h1 h2) (by omega)) .isFree).trans ha

/-- A run of `kfree` on distinct payloads of used blocks keeps such a flag. -/
theorem kfree_run_keeps_flag {a fuel : Nat} : ∀ (qs : List (BitVec 32)) {h : Heap} {bs : List Blk},
    Rep h bs → (∀ q ∈ qs, q ∈ payloads bs) → qs.Nodup → bs.length ≤ fuel →
      hdr h.mem a .isFree = 1 → FreeCover bs a →
      ∃ h', qs.foldlM (kfree fuel) h = .ok h' ∧ hdr h'.mem a .isFree = 1
  | [], h, _, _, _, _, _, ha, _ => ⟨h, rfl, ha⟩
  | q :: qs, h, _, hR, hq, hnd, hf, ha, hc => by
    obtain ⟨L, b, R, rfl, hbf, rfl⟩ := mem_payloads (hq q (List.mem_cons_self _ _))
    obtain ⟨h1, hk, hR1, ha1, hc1⟩ := kfree_keeps_freed_flag hR hbf hf ha hc
    have hq1 : ∀ q' ∈ qs, q' ∈ payloads (freeAt L.reverse b R) := fun q' hq' =>
      mem_payloads_freeAt hbf (hq q' (List.mem_cons_of_mem _ hq'))
        fun e => (List.nodup_cons.1 hnd).1 (e ▸ hq')
    have hf1 := (length_freeAt_le L.reverse b R).trans (by simpa using hf)
    obtain ⟨h', hrun, ha'⟩ := kfree_run_keeps_flag qs hR1 hq1 (List.nodup_cons.1 hnd).2 hf1 ha1 hc1
    exact ⟨h', by rw [List.foldlM_cons, hk]; exact hrun, ha'⟩

/-- **A double free is a no-op while nothing is allocated.** For the
payload `p` of a used block of a represented heap, and distinct payloads
`qs` of other used blocks: `kfree (p)` and then `kfree` of each of `qs`
return, the header before `p` still has `is_free = 1`, and a further
`kfree (p)` returns the heap as it is, whatever its fuel. -/
theorem kfree_twice_is_noop {h : Heap} {bs : List Blk} {p : BitVec 32} {qs : List (BitVec 32)}
    {fuel : Nat} (hR : Rep h bs) (hp : p ∈ payloads bs) (hqs : ∀ q ∈ qs, q ∈ payloads bs ∧ q ≠ p)
    (hnd : qs.Nodup) (hf : bs.length ≤ fuel) :
    ∃ h', (p :: qs).foldlM (kfree fuel) h = .ok h' ∧
      field h'.mem (p - sizeofMemBlock) .isFree = 1 ∧ ∀ fuel', kfree fuel' h' p = .ok h' := by
  obtain ⟨L, b, R, rfl, hbf, rfl⟩ := mem_payloads hp
  have hbm := List.mem_append_right L (List.mem_cons_self b R)
  have hbb := hR.tiles.bounds hbm
  simp only [Blk.endAddr] at hbb
  obtain ⟨h1, hk, hR1, -, hL⟩ := kfree_rep hR hbf hf
  -- `block->is_free = 1`, which the merges keep
  have ha1 : hdr h1.mem b.addr .isFree = 1 := by
    rw [hL.flag_mem hR.tiles (by norm_num) hbm, hdr_setField_self _ _ _ (by omega),
      Function.update_same]
  have hc1 : FreeCover (freeAt L.reverse b R) b.addr :=
    FreeCover.freeAt (by simpa using hR.tiles)
      ⟨_, List.mem_append_right _ (List.mem_cons_self _ _), rfl, .inl rfl⟩
  have hq1 : ∀ q ∈ qs, q ∈ payloads (freeAt L.reverse b R) := fun q hq =>
    mem_payloads_freeAt hbf (hqs q hq).1 (hqs q hq).2
  obtain ⟨h', hrun, ha'⟩ := kfree_run_keeps_flag qs hR1 hq1 hnd
    ((length_freeAt_le L.reverse b R).trans (by simpa using hf)) ha1 hc1
  have hsub := payload_sub_header (show b.addr + 16 < 2 ^ 32 by omega)
  refine ⟨h', by rw [List.foldlM_cons, hk]; exact hrun, by rw [hsub]; exact ha', fun fuel' => ?_⟩
  rw [kfree, if_neg (ofNat_ne_zero (by omega) (by omega))]
  dsimp only
  rw [hsub, if_pos (by rw [show field h'.mem _ _ = hdr h'.mem b.addr .isFree from rfl, ha']; decide)]

/-- After `mm_init`, `kmalloc (8)` and `kmalloc (8)`: two used blocks of 8
bytes, then the rest of the arena, free. -/
theorem rep_after_two_kmallocs :
    ∃ h1 h2, kmalloc 2 (mmInit fun _ => 0) 8 = .ok (h1, 0x200010) ∧
      kmalloc 3 h1 8 = .ok (h2, 0x200028) ∧
      Rep h2 [⟨0x200000, 8, false⟩, ⟨0x200018, 8, false⟩, ⟨0x200030, 0xFFFC0, true⟩] := by
  obtain ⟨h1, hk1, hR1⟩ := rep_after_kmalloc_eight
  obtain ⟨h2, p, hk, ⟨h0, -⟩ | ⟨res, -, ha, rfl, hR, -⟩⟩ :=
    kmalloc_rep hR1 (n := 8) (by decide) (show 2 < 3 by decide)
  · exact absurd h0 (by decide)
  · obtain rfl := Option.some.inj (ha.symm.trans (by rfl :
      alloc (((8 : BitVec 32).toNat + 7) / 8 * 8) [⟨0x200000, 8, false⟩, ⟨0x200018, 0xFFFD8, true⟩] =
        some ([⟨0x200000, 8, false⟩, ⟨0x200018, 8, false⟩, ⟨0x200030, 0xFFFC0, true⟩], 0x200018)))
    exact ⟨h1, h2, hk1, hk, hR⟩

/-- Both blocks of two `kmalloc (8)` freed, the first again: the second
`kfree (0x200010)` changes nothing. -/
theorem kfree_twice_after_two_kmallocs :
    ∃ h1 h2 h', kmalloc 2 (mmInit fun _ => 0) 8 = .ok (h1, 0x200010) ∧
      kmalloc 3 h1 8 = .ok (h2, 0x200028) ∧ [0x200010, 0x200028].foldlM (kfree 3) h2 = .ok h' ∧
      ∀ fuel, kfree fuel h' 0x200010 = .ok h' := by
  obtain ⟨h1, h2, hk1, hk2, hR⟩ := rep_after_two_kmallocs
  obtain ⟨h', hrun, -, hno⟩ := @kfree_twice_is_noop _ _ 0x200010 [0x200028] 3 hR
    (List.mem_cons_self _ _) (fun q hq => by
      rw [List.mem_singleton.1 hq]
      exact ⟨List.mem_cons_of_mem _ (List.mem_cons_self _ _), by decide⟩) (by decide) (by decide)
  exact ⟨h1, h2, h', hk1, hk2, hrun, hno⟩

/-- But a merge does write the header of a freed block while the block is
still in the list. After two `kmalloc (8)` and `kfree (0x200010)`, the
first block is free between the head and a used block; `kfree (0x200028)`
makes it absorb the rest of the arena, rewriting the `size` of the header
at `0x200010 - 16` from 8 to `0xFFFF0`. Its `is_free` stays 1, and freeing
`0x200010` again is still a no-op. -/
theorem kfree_rewrites_freed_header :
    ∃ h1 h2 h3 h4, kmalloc 2 (mmInit fun _ => 0) 8 = .ok (h1, 0x200010) ∧
      kmalloc 3 h1 8 = .ok (h2, 0x200028) ∧ kfree 3 h2 0x200010 = .ok h3 ∧
      kfree 3 h3 0x200028 = .ok h4 ∧ field h3.mem 0x200000 .size = 8 ∧
      field h4.mem 0x200000 .size = 0xFFFF0 ∧ field h4.mem 0x200000 .isFree = 1 ∧
      kfree 3 h4 0x200010 = .ok h4 :=
  ⟨_, _, _, _, rfl, rfl, rfl, rfl, rfl, rfl, rfl, rfl⟩

/-! ## `krealloc` -/

/-- **`krealloc` keeps contents and fails atomically.** For the payload `p`
of a used block `b` and a new size `m` of `1` to `2^32 - 8` bytes: when `b`
holds `m` bytes, `krealloc` returns `p`, split in place, with the first `m`
bytes unchanged. Otherwise, when no free block holds `m` rounded as
`kmalloc` rounds it, it returns `NULL` and the heap is as it was. Otherwise
it returns the payload `q` of the block first fit carves, which was not
live and is not `p`, whose first `b.size` bytes are those of `p`, and the
list is first fit's list with `b` freed as `kfree` frees it. -/
theorem krealloc_keeps_contents {h : Heap} {L R : List Blk} {b : Blk} {p m : BitVec 32} {fuel : Nat}
    (hR : Rep h (L ++ b :: R)) (hb : b.free = false) (hp : p = BitVec.ofNat 32 (b.addr + 16))
    (hm1 : 1 ≤ m.toNat) (hm : m.toNat ≤ 2 ^ 32 - 8) (hf : (L ++ b :: R).length < fuel) :
    (m.toNat ≤ b.size → ∃ h', krealloc fuel h p m = .ok (h', p) ∧
        Rep h' (L ++ b.shrink m.toNat :: (b.rest m.toNat ++ R)) ∧
        ∀ i < m.toNat, h'.mem (p + BitVec.ofNat 32 i) = h.mem (p + BitVec.ofNat 32 i)) ∧
    (b.size < m.toNat → (∀ c ∈ L ++ b :: R, c.free → c.size < ((m + 7) &&& ~~~7).toNat) →
        krealloc fuel h p m = .ok (h, 0)) ∧
    (b.size < m.toNat → (∃ c ∈ L ++ b :: R, c.free ∧ ((m + 7) &&& ~~~7).toNat ≤ c.size) →
      ∃ res h' L' R', alloc ((m + 7) &&& ~~~7).toNat (L ++ b :: R) = some res ∧
        krealloc fuel h p m = .ok (h', BitVec.ofNat 32 (res.2 + 16)) ∧
        BitVec.ofNat 32 (res.2 + 16) ∉ payloads (L ++ b :: R) ∧ BitVec.ofNat 32 (res.2 + 16) ≠ p ∧
        (∀ i < b.size, h'.mem (BitVec.ofNat 32 (res.2 + 16) + BitVec.ofNat 32 i) =
          h.mem (p + BitVec.ofNat 32 i)) ∧
        res.1 = L' ++ b :: R' ∧ Rep h' (freeAt L'.reverse b R')) := by
  subst hp
  have hn0 : m ≠ 0 := fun e => by simp [e] at hm1
  rw [kmalloc_round hm, BitVec.toNat_ofNat, Nat.mod_eq_of_lt (by omega)]
  have hbm := List.mem_append_right L (List.mem_cons_self b R)
  have hbb := hR.tiles.bounds hbm
  simp only [Blk.endAddr] at hbb
  refine ⟨fun hfit => ?_, fun hfit hno => ?_, fun hfit ⟨c, hc, hcf, hcr⟩ => ?_⟩
  · -- in place: `split_block` writes headers only, none in the first `m` bytes
    obtain ⟨hR', o⟩ := hR.split hfit
    rw [BitVec.ofNat_toNat, BitVec.setWidth_eq] at hR' o
    have hs : b.addr + 16 + m.toNat ≤ (b.shrink m.toNat).endAddr := by
      have := Blk.le_shrink_size hfit
      simp only [Blk.endAddr, Blk.shrink_addr]
      omega
    refine ⟨_, krealloc_in_place hR hn0 hfit, hR', fun i hi => ?_⟩
    rw [ofNat_add_ofNat]
    exact (o.payload hR'.tiles (List.mem_append_right L (List.mem_cons_self _ _))) _
      (by simp only [BitVec.toNat_ofNat, Blk.shrink_addr]; omega)
      (by simp only [BitVec.toNat_ofNat]; omega)
  · -- no block fits: `kmalloc` returns `NULL` and changes nothing
    obtain ⟨h1, q, hk, ⟨-, rfl, rfl⟩ | ⟨res, -, ha, -⟩⟩ := kmalloc_rep hR hm hf
    · exact krealloc_no_room hR hn0 hfit hk
    · rw [alloc_eq_none.2 fun c hc => Blk.fits_eq_false (hno c hc)] at ha
      cases ha
  · -- a block fits: the move
    obtain ⟨res, ha⟩ : ∃ res, alloc ((m.toNat + 7) / 8 * 8) (L ++ b :: R) = some res :=
      Option.ne_none_iff_exists'.1 fun hnone =>
        Bool.eq_false_iff.1 (alloc_eq_none.1 hnone c hc) (Blk.fits_of_le hcf hcr)
    obtain ⟨h2, hR2, hcopy, -, hmove⟩ := krealloc_moves hR hb hm hfit hf ha
    obtain ⟨L', R', hres⟩ := List.append_of_mem (mem_alloc_of_used ha hbm hb)
    obtain ⟨d, hd, hda, hds, -⟩ := alloc_mem ha
    have hdd := (hR.tiles.alloc ha).bounds hd
    simp only [Blk.endAddr] at hdd
    rw [hres] at hR2 hd
    obtain ⟨h3, hk3, hR3, o3, -⟩ := kfree_rep hR2 hb (hres ▸ (alloc_length ha).trans hf)
    have hfresh := alloc_payload_fresh hR ha
    refine ⟨res, h3, L', R', ha, hmove h3 hk3, hfresh,
      fun e => hfresh (e ▸ List.mem_map_of_mem _ (mem_used.2 ⟨b, hbm, hb, rfl⟩)), fun i hi => ?_,
      hres, hR3⟩
    -- `kfree` writes headers only, and the new payload is none of them
    rw [ofNat_add_ofNat, ofNat_add_ofNat, ← hcopy i hi]
    exact (o3.payload hR2.tiles hd) _ (by simp only [BitVec.toNat_ofNat]; omega)
      (by simp only [BitVec.toNat_ofNat, Blk.endAddr]; omega)

/-- `krealloc (p, 100)` of the block of `kmalloc (8)`: the 8 bytes move to
the payload at `0x200028` that first fit carves from the free rest. -/
theorem krealloc_moves_after_kmalloc :
    ∃ h h', kmalloc 2 (mmInit fun _ => 0) 8 = .ok (h, 0x200010) ∧
      krealloc 3 h 0x200010 100 = .ok (h', 0x200028) ∧
      ∀ i < 8, h'.mem (0x200028 + BitVec.ofNat 32 i) = h.mem (0x200010 + BitVec.ofNat 32 i) := by
  obtain ⟨h, hk, hR⟩ := rep_after_kmalloc_eight
  obtain ⟨res, h', L', R', ha, hk', -, -, hc, -⟩ := (krealloc_keeps_contents (L := []) hR rfl rfl
    (m := 100) (by decide) (by decide) (show 2 < 3 by decide)).2.2 (by decide)
    ⟨_, List.mem_cons_of_mem _ (List.mem_cons_self _ _), rfl, by decide⟩
  obtain rfl := Option.some.inj (ha.symm.trans (by rfl :
    alloc (((100 : BitVec 32) + 7) &&& ~~~7).toNat [⟨0x200000, 8, false⟩, ⟨0x200018, 0xFFFD8, true⟩] =
      some ([⟨0x200000, 8, false⟩, ⟨0x200018, 104, false⟩, ⟨0x200090, 0xFFF60, true⟩], 0x200018)))
  exact ⟨h, h', hk, hk', hc⟩

/-! ## `kcalloc` and `kmalloc_aligned` -/

/-- `kcalloc` is neither total nor exact. The overflow test
`total_size / count` divides by a zero count, which traps (`#DE`) whatever
the heap and the size. And a product in `[2^32 - 7, 2^32 - 1]` passes the
test, but `kmalloc`'s rounding wraps it to 0: in `kcalloc (1, 0xFFFFFFF9)`
after `mm_init`, `kmalloc` hands back `0x200010`, the payload of a block of
size 0, and the `memset` of `0xFFFFFFF9` bytes from there runs round the
address space into the kernel image, so the call does not come back. -/
theorem kcalloc_traps_or_undersizes :
    (∀ fuel h n, kcalloc fuel h 0 n = .error .divideError) ∧
    (∃ h, kmalloc 2 (mmInit fun _ => 0) (1 * 0xFFFFFFF9) = .ok (h, 0x200010) ∧
      field h.mem (0x200010 - sizeofMemBlock) .size = 0) ∧
    kcalloc 2 (mmInit fun _ => 0) 1 0xFFFFFFF9 = .error .wildWrite :=
  ⟨fun _ _ _ => rfl, ⟨_, rfl, rfl⟩, rfl⟩

/-- `kmalloc_aligned` can stash the raw pointer outside the arena. With the
power of two `0x80000000`, `kmalloc_aligned (0x7FFFFFFD, 0x80000000)` asks
`kmalloc` for `0x7FFFFFFD + 0x80000000 + 4` bytes, which wraps to 1;
`kmalloc` carves 8 bytes at `0x200010`. The aligned address is
`0x80000000`, and the raw pointer is stored at `0x7FFFFFFC`: far above the
arena, and outside the 8-byte payload of the raw pointer's block. -/
theorem kmallocAligned_stashes_outside_arena :
    ∃ h, kmallocAligned 2 (mmInit fun _ => 0) 0x7FFFFFFD 0x80000000 = .ok (h, 0x80000000) ∧
      Reachable (fun _ _ => True) h [] ∧ load32 h.mem (0x80000000 - 4) = 0x200010 ∧
      field h.mem (0x200010 - sizeofMemBlock) .size = 8 ∧
      (kernelHeapStart + kernelHeapSize).toNat ≤ (0x80000000 - 4 : BitVec 32).toNat :=
  ⟨_, rfl, .call (c := .kmallocAligned 0x7FFFFFFD 0x80000000) (r := 0x80000000) 2
    (.init fun _ => 0) trivial rfl, rfl, rfl,
    by decide⟩

end MiniCore.Mm
