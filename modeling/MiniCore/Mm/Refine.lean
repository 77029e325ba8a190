import MiniCore.Mm.Layout

/-!
# `mm.c` performs the list operations

The functions of `mm.c`, run on a heap whose headers represent a block list
(`Rep`), do to the memory what the operations of `MiniCore.Mm.Arena` do to
the list:

* `kmalloc_rep`: `kmalloc` is first fit (`alloc`) at the request rounded up
  to a multiple of 8, or returns `NULL` and changes nothing;
* `kfree_rep`: `kfree` of a used block is `freeAt`;
* `kcalloc` is `kmalloc` followed by a `memset` inside the new payload, and
  `krealloc` is an in-place `split`, or `kmalloc`, a `memcpy` between two
  payloads and `kfree` (`krealloc_in_place`, `krealloc_no_room`,
  `krealloc_moves`).

`kmalloc` and `kfree` write only headers of the list (`HeadersOnly`), so
the bytes `krealloc` copies reach the new payload intact.

For a client that hands `kfree` and `krealloc` only live pointers and asks
for at most `2^32 - 8` bytes (`Call.Bounded`), this gives the invariant
`Inv` of every run: the heap represents a tiling block list whose used
blocks are the live allocations and which is one block when none is used.

**The law** (`kfree_all_restores_arena`): every call such a client makes
comes back, and when nothing is live the arena is again the one free block
that `mm_init` made. Along the way such a client gets what it asked for:
`kmalloc` returns a block that holds the request (`kmalloc_fits`), and the
payloads of live pointers are disjoint and clear of every header
(`live_payloads_disjoint`).

What this does NOT cover: `kmalloc_aligned` (its stash can land on a header,
`kmallocAligned_corrupts_list`), and requests above `2^32 - 8`, whose
rounding wraps (`kmalloc_wraps_to_empty_block`). Nor does `Inv` say that no
two free blocks are adjacent or that headers are 8-aligned: the in-place
split of `krealloc` breaks both (`krealloc_leaves_adjacent_free`,
`krealloc_misaligns_kmalloc`); the free tail is merged only when a
neighbouring block is freed.
-/

namespace MiniCore.Mm

open Mem

/-! ## Fuel

A call that comes back with some fuel comes back the same with more: the
walks take the same turns. So the fuel a run quantifies over never changes
what a call does. -/

theorem bind_eq_ok {ε α β : Type} {x : Except ε α} {f : α → Except ε β} {b : β} :
    x >>= f = .ok b ↔ ∃ a, x = .ok a ∧ f a = .ok b := by
  cases x <;> simp [bind, Except.bind]

theorem findFreeBlock_mono {m : Mem} {size : BitVec 32} :
    ∀ {fuel fuel' : Nat} {cur x : BitVec 32}, findFreeBlock m size fuel cur = .ok x →
      fuel ≤ fuel' → findFreeBlock m size fuel' cur = .ok x
  | 0, _, _, _, h, _ => by cases h
  | _ + 1, 0, _, _, _, hle => by omega
  | _ + 1, _ + 1, _, _, h, hle => by
    rw [findFreeBlock] at h ⊢
    split_ifs at h ⊢
    exacts [h, h, findFreeBlock_mono h (by omega)]

theorem mergeNext_mono :
    ∀ {fuel fuel' : Nat} {m x : Mem} {block : BitVec 32}, mergeNext fuel m block = .ok x →
      fuel ≤ fuel' → mergeNext fuel' m block = .ok x
  | 0, _, _, _, _, h, _ => by cases h
  | _ + 1, 0, _, _, _, _, hle => by omega
  | _ + 1, _ + 1, _, _, _, h, hle => by
    rw [mergeNext_succ] at h ⊢
    split_ifs at h ⊢
    exacts [mergeNext_mono h (by omega), h]

theorem mergePrev_mono :
    ∀ {fuel fuel' : Nat} {m x : Mem} {block : BitVec 32}, mergePrev fuel m block = .ok x →
      fuel ≤ fuel' → mergePrev fuel' m block = .ok x
  | 0, _, _, _, _, h, _ => by cases h
  | _ + 1, 0, _, _, _, _, hle => by omega
  | _ + 1, _ + 1, _, _, _, h, hle => by
    rw [mergePrev_succ] at h ⊢
    split_ifs at h ⊢
    exacts [mergePrev_mono h (by omega), h]

section Mono

variable {fuel fuel' : Nat} {h : Heap} (hle : fuel ≤ fuel')
include hle

theorem kmalloc_mono {n : BitVec 32} {x : Heap × BitVec 32} (hx : kmalloc fuel h n = .ok x) :
    kmalloc fuel' h n = .ok x := by
  unfold kmalloc at hx ⊢
  dsimp only at hx ⊢
  split_ifs at hx ⊢
  · exact hx
  · obtain ⟨block, hb, hx⟩ := bind_eq_ok.1 hx
    rw [findFreeBlock_mono hb hle]
    exact hx

theorem mergeFreeBlocks_mono {m x : Mem} {block : BitVec 32}
    (hx : mergeFreeBlocks fuel m block = .ok x) : mergeFreeBlocks fuel' m block = .ok x := by
  obtain ⟨m1, h1, h2⟩ := bind_eq_ok.1 hx
  exact bind_eq_ok.2 ⟨m1, mergeNext_mono h1 hle, mergePrev_mono h2 hle⟩

theorem kfree_mono {p : BitVec 32} {x : Heap} (hx : kfree fuel h p = .ok x) :
    kfree fuel' h p = .ok x := by
  unfold kfree at hx ⊢
  dsimp only at hx ⊢
  split_ifs at hx ⊢
  · exact hx
  · exact hx
  · obtain ⟨m, hm, hx⟩ := bind_eq_ok.1 hx
    exact bind_eq_ok.2 ⟨m, mergeFreeBlocks_mono hle hm, hx⟩

theorem kcalloc_mono {c n : BitVec 32} {x : Heap × BitVec 32} (hx : kcalloc fuel h c n = .ok x) :
    kcalloc fuel' h c n = .ok x := by
  unfold kcalloc at hx ⊢
  dsimp only at hx ⊢
  split_ifs at hx ⊢
  · exact hx
  · obtain ⟨y, hy, hx⟩ := bind_eq_ok.1 hx
    exact bind_eq_ok.2 ⟨y, kmalloc_mono hle hy, hx⟩

theorem kmallocAligned_mono {n a : BitVec 32} {x : Heap × BitVec 32}
    (hx : kmallocAligned fuel h n a = .ok x) : kmallocAligned fuel' h n a = .ok x := by
  unfold kmallocAligned at hx ⊢
  dsimp only at hx ⊢
  split_ifs at hx ⊢
  · exact hx
  · obtain ⟨y, hy, hx⟩ := bind_eq_ok.1 hx
    exact bind_eq_ok.2 ⟨y, kmalloc_mono hle hy, hx⟩

theorem krealloc_mono {p n : BitVec 32} {x : Heap × BitVec 32} (hx : krealloc fuel h p n = .ok x) :
    krealloc fuel' h p n = .ok x := by
  unfold krealloc at hx ⊢
  dsimp only at hx ⊢
  split_ifs at hx ⊢
  · exact kmalloc_mono hle hx
  · obtain ⟨y, hy, hx⟩ := bind_eq_ok.1 hx
    exact bind_eq_ok.2 ⟨y, kfree_mono hle hy, hx⟩
  · exact hx
  · obtain ⟨⟨h1, q⟩, hy, hx⟩ := bind_eq_ok.1 hx
    refine bind_eq_ok.2 ⟨(h1, q), kmalloc_mono hle hy, ?_⟩
    simp only [pure_bind] at hx ⊢
    by_cases hq : q = 0
    · simpa only [hq, ↓reduceIte] using hx
    · simp only [hq, ↓reduceIte] at hx ⊢
      obtain ⟨h2, hz, hx⟩ := bind_eq_ok.1 hx
      exact bind_eq_ok.2 ⟨h2, kfree_mono hle hz, hx⟩

theorem Call.run_mono {c : Call} {x : Heap × BitVec 32} (hx : c.run fuel h = .ok x) :
    c.run fuel' h = .ok x := by
  cases c with
  | kmalloc n => exact kmalloc_mono hle hx
  | kmallocAligned n a => exact kmallocAligned_mono hle hx
  | kcalloc c n => exact kcalloc_mono hle hx
  | krealloc p n => exact krealloc_mono hle hx
  | kfree p =>
    simp only [Call.run] at hx ⊢
    cases hk : Mm.kfree fuel h p with
    | error e => rw [hk] at hx; cases hx
    | ok y => rw [hk] at hx; rw [kfree_mono hle hk]; exact hx

end Mono

/-! ## The representation of a heap -/

/-- The heap represents the block list `bs`: `heap_head` is the arena's
first header, the blocks of `bs` tile the arena from `KERNEL_HEAP_START`
(`0x200000`) to `KERNEL_HEAP_START + KERNEL_HEAP_SIZE` (`0x300000`), and the
headers in memory link them. -/
structure Rep (h : Heap) (bs : List Blk) : Prop where
  head : h.heapHead = kernelHeapStart
  tiles : Tiles 0x200000 bs 0x300000
  links : Links h.mem 0 bs 0

theorem kernelHeapStart_eq : kernelHeapStart = BitVec.ofNat 32 0x200000 := rfl

/-- The first block of a nonempty tiling starts where the tiling does. -/
theorem Tiles.headAddr_eq {a e n : Nat} {bs : List Blk} (h : Tiles a bs e) (hae : a ≠ e) :
    headAddr bs n = a := by
  cases bs with
  | nil => exact absurd h hae
  | cons b bs => exact h.1

theorem Rep.heapHead_eq {h : Heap} {bs : List Blk} (hR : Rep h bs) :
    h.heapHead = BitVec.ofNat 32 (headAddr bs 0) := by
  rw [hR.head, hR.tiles.headAddr_eq (by norm_num), kernelHeapStart_eq]

/-- `mm_init` makes the arena one free block, whatever the arena held. -/
theorem mmInit_rep (m : Mem) : Rep (mmInit m) [⟨0x200000, 0xFFFF0, true⟩] where
  head := rfl
  tiles := by simp [Blk.endAddr]
  links := by
    refine ⟨?_, trivial⟩
    simp (disch := omega) only [mmInit, kernelHeapStart_eq, hdr_setField_self]
    funext f
    cases f <;> rfl

/-- The header of the payload at `a + 16` is at `a`. -/
theorem payload_sub_header {a : Nat} (ha : a + 16 < 2 ^ 32) :
    BitVec.ofNat 32 (a + 16) - sizeofMemBlock = BitVec.ofNat 32 a := by
  rw [show sizeofMemBlock = BitVec.ofNat 32 16 from rfl, ofNat_sub_ofNat (by omega) (by omega),
    Nat.add_sub_cancel]

/-- `split_block` of a block of the list, at a size the block holds, is
`Blk.shrink` and `Blk.rest` on the list. -/
theorem Rep.split {h : Heap} {L R : List Blk} {b : Blk} {size : Nat} (hR : Rep h (L ++ b :: R))
    (hfit : size ≤ b.size) :
    Rep { h with mem := splitBlock h.mem (BitVec.ofNat 32 b.addr) (BitVec.ofNat 32 size) }
      (L ++ b.shrink size :: (b.rest size ++ R)) ∧
    HeadersOnly ((L ++ b.shrink size :: (b.rest size ++ R)).map Blk.addr) h.mem
      (splitBlock h.mem (BitVec.ofNat 32 b.addr) (BitVec.ofNat 32 size)) := by
  obtain ⟨x, hL, hx, hbR⟩ := tiles_append.1 hR.tiles
  have hs := Links.split (links_append.1 hR.links).2 hbR (by norm_num) hfit
  refine ⟨⟨hR.head, tiles_append.2 ⟨x, hL, hx ▸ tiles_split hbR⟩, Links.lift hR.links hR.tiles
    (by norm_num) (fun _ => hs.1) (Blk.shrink_addr b _) (hs.2.1.mono (Nat.zero_le _) le_rfl)⟩,
    hs.2.2.mono ?_⟩
  rw [List.map_append]
  exact List.subset_append_right _ _

/-- The header in front of the payload of a block of the list holds the
block's size, and the payload lies inside the arena. -/
theorem Rep.payload_size {h : Heap} {bs : List Blk} {c : Blk} (hR : Rep h bs) (hc : c ∈ bs) :
    field h.mem (BitVec.ofNat 32 (c.addr + 16) - sizeofMemBlock) .size = BitVec.ofNat 32 c.size ∧
      0x200000 ≤ c.addr ∧ c.addr + 16 + c.size ≤ 0x300000 := by
  have hb := hR.tiles.bounds hc
  simp only [Blk.endAddr] at hb
  obtain ⟨pv, nx, hh⟩ := hR.links.hdr_of_mem hc
  rw [payload_sub_header (by omega)]
  exact ⟨congrFun hh .size, hb⟩

/-- The memory determines the block list: two tilings from `a` whose
headers sit in the same memory, linked back to the same `p`, are one list. -/
theorem Links.eq_of_tiles {m : Mem} {e : Nat} (he : e < 2 ^ 32) {bs : List Blk} :
    ∀ {p a : Nat} {bs' : List Blk}, Links m p bs 0 → Links m p bs' 0 → Tiles a bs e → Tiles a bs' e →
      bs = bs' := by
  induction bs with
  | nil =>
    intro p a bs' _ _ ht ht'
    cases bs' with
    | nil => rfl
    | cons c cs =>
      obtain ⟨rfl, ht'⟩ := ht'
      have := ht'.le
      simp only [tiles_nil, Blk.endAddr] at ht this
      omega
  | cons b bs ih =>
    intro p a bs' hl hl' ht ht'
    obtain ⟨hb, hl⟩ := hl
    obtain ⟨rfl, ht⟩ := ht
    have hbe := ht.le
    simp only [Blk.endAddr] at hbe
    cases bs' with
    | nil => exact absurd (tiles_nil.1 ht') (by omega)
    | cons c cs =>
      obtain ⟨hc, hl'⟩ := hl'
      obtain ⟨hca, ht'⟩ := ht'
      have hce := ht'.le
      simp only [Blk.endAddr] at hce
      rw [hca] at hc
      -- the header at `a` holds the size and the flag of both first blocks
      have hsz := congrArg BitVec.toNat ((congrFun hb .size).symm.trans (congrFun hc .size))
      have hfl := (congrFun hb .isFree).symm.trans (congrFun hc .isFree)
      simp only [Blk.header, BitVec.toNat_ofNat] at hsz hfl
      rw [Nat.mod_eq_of_lt (by omega), Nat.mod_eq_of_lt (by omega)] at hsz
      obtain rfl : b = c := by
        obtain ⟨ba, bsz, bf⟩ := b
        obtain ⟨ca, csz, cf⟩ := c
        cases bf <;> cases cf <;> simp_all
      exact congrArg _ (ih hl hl' ht ht')

/-- A heap represents one block list at most. -/
theorem Rep.unique {h : Heap} {bs bs' : List Blk} (hR : Rep h bs) (hR' : Rep h bs') : bs = bs' :=
  Links.eq_of_tiles (by norm_num) hR.links hR'.links hR.tiles hR'.tiles

/-! ## `kmalloc` is first fit -/

/-- Clearing the low three bits of `x < 2^32` rounds it down to a multiple
of 8. -/
theorem land_mask (x : Nat) (hx : x < 2 ^ 32) : x &&& 2 ^ 32 - 1 - 7 = x / 8 * 8 := by
  have hm : (2 ^ 32 - 1 - 7 : Nat) = 2 ^ 3 * (2 ^ 29 - 1) := by norm_num
  rw [hm, show x / 8 * 8 = 2 ^ 3 * (x >>> 3) by rw [Nat.shiftRight_eq_div_pow]; omega]
  apply Nat.eq_of_testBit_eq
  intro i
  rw [Nat.testBit_and, Nat.testBit_mul_pow_two, Nat.testBit_mul_pow_two,
    Nat.testBit_two_pow_sub_one, Nat.testBit_shiftRight]
  by_cases h3 : 3 ≤ i
  · by_cases h32 : i < 32
    · simp [h3, show i - 3 < 29 by omega, Nat.add_sub_cancel' h3]
    · have : x.testBit i = false :=
        Nat.testBit_eq_false_of_lt (lt_of_lt_of_le hx (Nat.pow_le_pow_right (by norm_num) (by omega)))
      simp [h3, this, show ¬ i - 3 < 29 by omega, Nat.add_sub_cancel' h3]
  · simp [h3]

/-- The rounding of `kmalloc`, `(size + 7) & ~7`: for a request of at most
`2^32 - 8` bytes, the request rounded up to a multiple of 8. -/
theorem kmalloc_round {n : BitVec 32} (hn : n.toNat ≤ 2 ^ 32 - 8) :
    (n + 7) &&& ~~~7 = BitVec.ofNat 32 ((n.toNat + 7) / 8 * 8) := by
  apply BitVec.eq_of_toNat_eq
  have h1 : (n + 7).toNat = n.toNat + 7 := by bv_omega
  rw [BitVec.toNat_ofNat, Nat.mod_eq_of_lt (by omega), BitVec.toNat_and, BitVec.toNat_not, h1]
  simpa using land_mask (n.toNat + 7) (by omega)

/-- **`kmalloc` is first fit.** For a request of at most `2^32 - 8` bytes,
`kmalloc` either returns `NULL` and leaves the heap alone, exactly when the
request is zero or no block fits, or performs `alloc` at the request
rounded up to a multiple of 8, writing only headers of the new list, and
returns the payload of the block it carved. -/
theorem kmalloc_rep {h : Heap} {bs : List Blk} {n : BitVec 32} {fuel : Nat} (hR : Rep h bs)
    (hn : n.toNat ≤ 2 ^ 32 - 8) (hf : bs.length < fuel) :
    ∃ h' p, kmalloc fuel h n = .ok (h', p) ∧
      ((n = 0 ∨ alloc ((n.toNat + 7) / 8 * 8) bs = none) ∧ p = 0 ∧ h' = h ∨
        ∃ r, n ≠ 0 ∧ alloc ((n.toNat + 7) / 8 * 8) bs = some r ∧
          p = BitVec.ofNat 32 (r.2 + 16) ∧ Rep h' r.1 ∧ HeadersOnly (r.1.map Blk.addr) h.mem h'.mem) := by
  by_cases hn0 : n = 0
  · exact ⟨h, 0, by simp [kmalloc, hn0], .inl ⟨.inl hn0, rfl, rfl⟩⟩
  have hw := findFreeBlock_links hR.links hR.tiles (by norm_num) (by norm_num)
    (r := (n.toNat + 7) / 8 * 8) (by omega) hf
  rw [← hR.heapHead_eq] at hw
  simp only [kmalloc, if_neg hn0, kmalloc_round hn, hw, bind, Except.bind]
  cases ha : alloc ((n.toNat + 7) / 8 * 8) bs with
  | none => exact ⟨h, 0, by simp [pure, Except.pure], .inl ⟨.inr rfl, rfl, rfl⟩⟩
  | some res =>
    obtain ⟨L, b, R, rfl, hfit, rfl⟩ := alloc_eq_some ha
    simp only [Blk.fits, Bool.and_eq_true, decide_eq_true_eq] at hfit
    have hb := hR.tiles.bounds (List.mem_append_right L (List.mem_cons_self b R))
    simp only [Blk.endAddr] at hb
    obtain ⟨-, -, -, hbR⟩ := tiles_append.1 hR.tiles
    simp only [Option.map_some', Option.getD_some, ofNat_ne_zero (x := b.addr) (by omega) (by omega),
      ↓reduceIte, pure, Except.pure]
    -- `split_block`, then `block->is_free = 0`
    obtain ⟨h1, o1⟩ := hR.split hfit.2
    have hr := Links.reflag false (links_append.1 h1.links).2 (tiles_split hbR).2 (by norm_num)
    have h2 := Links.lift h1.links h1.tiles (by norm_num) (fun _ => hr) rfl
      (Agree.setField _ _ _ (.inr le_rfl) (by rw [Blk.shrink_addr]; omega))
    have hS : (L ++ b.carve ((n.toNat + 7) / 8 * 8) ++ R).map Blk.addr =
        (L ++ b.shrink ((n.toNat + 7) / 8 * 8) :: (b.rest ((n.toNat + 7) / 8 * 8) ++ R)).map Blk.addr := by
      simp [Blk.carve]
    refine ⟨_, _, rfl, .inr ⟨_, hn0, rfl, ?_, ⟨hR.head, hR.tiles.alloc ha, by simpa [Blk.carve] using h2⟩,
      (headersOnly_setField_iff (by simp [Blk.carve]) (by omega)).2 (hS ▸ o1)⟩⟩
    rw [show sizeofMemBlock = BitVec.ofNat 32 16 from rfl, ofNat_add_ofNat]

/-- A `kmalloc` that first fit serves: the heap after it represents the
carved list, and the call returns the carved block's payload. -/
theorem kmalloc_rep_some {h : Heap} {bs : List Blk} {n : BitVec 32} {r : List Blk × Nat} {fuel : Nat}
    (hR : Rep h bs) (hn : n.toNat ≤ 2 ^ 32 - 8) (hf : bs.length < fuel) (hn0 : n ≠ 0)
    (ha : alloc ((n.toNat + 7) / 8 * 8) bs = some r) :
    ∃ h', kmalloc fuel h n = .ok (h', BitVec.ofNat 32 (r.2 + 16)) ∧ Rep h' r.1 := by
  obtain ⟨h', p, hk, ⟨h0 | h0, -⟩ | ⟨r', -, ha', rfl, hR', -⟩⟩ := kmalloc_rep hR hn hf
  · exact absurd h0 hn0
  · rw [ha] at h0
    cases h0
  · obtain rfl := Option.some.inj (ha.symm.trans ha')
    exact ⟨h', hk, hR'⟩

/-- Above `2^32 - 8` the rounding wraps. `kmalloc (0xFFFFFFFF)` rounds the
request to 0; first fit takes the arena's free block, and `split_block`
shrinks it to size 0. The call returns a pointer to a block of size 0, and
that pointer is the header of the free block cut off behind it. -/
theorem kmalloc_wraps_to_empty_block :
    ∃ h, kmalloc 1 (mmInit fun _ => 0) 0xFFFFFFFF = .ok (h, 0x200010) ∧
      field h.mem 0x200000 .size = 0 ∧ field h.mem 0x200000 .next = 0x200010 ∧
      field h.mem 0x200010 .size = 0xFFFE0 ∧ field h.mem 0x200010 .isFree = 1 :=
  ⟨_, rfl, rfl, rfl, rfl, rfl⟩

/-- `kmalloc`'s update of `mem_stats` for a block of `s` bytes. -/
def MemStats.charge (st : MemStats) (s : BitVec 32) : MemStats :=
  { st with
    usedMemory := st.usedMemory + s, freeMemory := st.freeMemory - s, numAllocations := st.numAllocations + 1 }

/-- What `kmalloc` does to `mem_stats`: nothing on its early `NULL`s;
otherwise it charges the size the header of the block handed out holds. -/
theorem kmalloc_memStats {h h' : Heap} {n p : BitVec 32} {fuel : Nat} (hk : kmalloc fuel h n = .ok (h', p)) :
    h' = h ∧ p = 0 ∨ h'.memStats = h.memStats.charge (field h'.mem (p - sizeofMemBlock) .size) := by
  unfold kmalloc at hk
  dsimp only at hk
  split_ifs at hk
  · cases hk; exact .inl ⟨rfl, rfl⟩
  · obtain ⟨b, -, hk⟩ := bind_eq_ok.1 hk
    split_ifs at hk
    · cases hk; exact .inl ⟨rfl, rfl⟩
    · cases hk
      exact .inr (by rw [add_sub_cancel_right]; rfl)

/-! ## `kfree` is `freeAt` -/

/-- **`kfree` of a used block is `freeAt`**: the block is marked free,
absorbs the free blocks after it and is folded into the free blocks before
it, and only headers of the list are written; once the block's flag is set,
no `is_free` word of the list is. Both loops finish within the fuel of one
turn per block. -/
theorem kfree_rep {h : Heap} {L R : List Blk} {b : Blk} {fuel : Nat} (hR : Rep h (L ++ b :: R))
    (hb : b.free = false) (hf : (L ++ b :: R).length ≤ fuel) :
    ∃ h', kfree fuel h (BitVec.ofNat 32 (b.addr + 16)) = .ok h' ∧ Rep h' (freeAt L.reverse b R) ∧
      HeadersOnly ((L ++ b :: R).map Blk.addr) h.mem h'.mem ∧
      LinksOnly ((L ++ b :: R).map Blk.addr) (setField h.mem (BitVec.ofNat 32 b.addr) .isFree 1) h'.mem := by
  have hbb := hR.tiles.bounds (List.mem_append_right L (List.mem_cons_self b R))
  simp only [Blk.endAddr] at hbb
  simp only [List.length_append, List.length_cons] at hf
  obtain ⟨x, hL, hx, hbR⟩ := tiles_append.1 hR.tiles
  have hsuf := (links_append.1 hR.links).2
  have hfree0 : field h.mem (BitVec.ofNat 32 b.addr) .isFree = 0 := by
    simpa [Blk.header, hb] using congrFun hsuf.1 .isFree
  -- `block->is_free = 1`
  have hr := Links.reflag true hsuf hbR (by norm_num)
  have h1 := Links.lift hR.links hR.tiles (by norm_num) (fun _ => hr) rfl
    (Agree.setField _ _ _ (.inr le_rfl) (by omega))
  have ht1 : Tiles 0x200000 (L ++ { b with free := true } :: R) 0x300000 :=
    tiles_append.2 ⟨x, hL, hx, hbR⟩
  -- the first loop
  obtain ⟨m2, e2, h2s, a2, o2⟩ := mergeNext_links (links_append.1 h1).2 hbR (by norm_num)
    (show R.length < fuel by omega)
  have h2 := Links.lift h1 ht1 (by norm_num) (fun _ => h2s) (absorbFree_addr _ _)
    (a2.mono (Nat.zero_le _) le_rfl)
  have ht2 := tiles_append.2 ⟨x, hL, tiles_absorbFree ((tiles_cons_setFree true).2 ⟨hx, hbR⟩)⟩
  rw [← List.reverse_reverse L] at h2 ht2
  -- the second loop
  obtain ⟨m3, e3, h3, o3⟩ := mergePrev_links h2 ht2 (by norm_num) (by norm_num)
    (show L.reverse.length < fuel by simp only [List.length_reverse]; omega)
  -- the three writes are into `block`, the blocks after it and the blocks before it
  have hsub : (L.reverse.reverse ++ (absorbFree { b with free := true } R).1 ::
      (absorbFree { b with free := true } R).2).map Blk.addr ⊆ (L ++ b :: R).map Blk.addr := by
    simp only [List.reverse_reverse, List.map_append, List.map_cons, absorbFree_addr]
    exact ((((absorbFree_snd_sublist _ R).map _).cons₂ _).append_left _).subset
  have o1 : HeadersOnly ((L ++ b :: R).map Blk.addr) h.mem
      (setField h.mem (BitVec.ofNat 32 b.addr) .isFree (if true then 1 else 0)) :=
    (headersOnly_setField_iff (by simp) (by omega)).2 headersOnly_self
  rw [absorbFree_addr] at e3
  simp only [↓reduceIte] at e2
  dsimp only at e2 e3
  apply Exists.intro
  constructor
  · simp only [kfree, ofNat_ne_zero (x := b.addr + 16) (by omega) (by omega),
      payload_sub_header (show b.addr + 16 < 2 ^ 32 by omega), hfree0,
      mergeFreeBlocks, e2, e3, ↓reduceIte, ne_eq, not_true_eq_false, bind, Except.bind, pure,
      Except.pure]
    rfl
  · have o23 : LinksOnly ((L ++ b :: R).map Blk.addr)
        (setField h.mem (BitVec.ofNat 32 b.addr) .isFree (if true then 1 else 0)) m3 := by
      refine (o2.mono ?_).trans (o3.mono hsub)
      simp only [List.map_cons, List.map_append]
      exact List.subset_append_right _ _
    exact ⟨⟨hR.head, tiles_freeAt (by simpa using hR.tiles), h3⟩, o1.trans o23.headersOnly, o23⟩

/-- `kfree`'s update of `mem_stats` for a block of `s` bytes. -/
def MemStats.credit (st : MemStats) (s : BitVec 32) : MemStats :=
  { st with usedMemory := st.usedMemory - s, freeMemory := st.freeMemory + s, numFrees := st.numFrees + 1 }

/-- What `kfree` does to `mem_stats`: nothing for `NULL` or a block marked
free; otherwise it credits the size the block's header holds once its flag
is set. -/
theorem kfree_memStats {h h' : Heap} {p : BitVec 32} {fuel : Nat} (hk : kfree fuel h p = .ok h') :
    h' = h ∧ (p = 0 ∨ field h.mem (p - sizeofMemBlock) .isFree ≠ 0) ∨
      h'.memStats = h.memStats.credit (field (setField h.mem (p - sizeofMemBlock) .isFree 1) (p - sizeofMemBlock) .size) := by
  unfold kfree at hk
  dsimp only at hk
  split_ifs at hk with h0 h1
  · cases hk; exact .inl ⟨rfl, .inl h0⟩
  · cases hk; exact .inl ⟨rfl, .inr h1⟩
  · obtain ⟨m, -, hk⟩ := bind_eq_ok.1 hk
    cases hk
    exact .inr rfl

/-- `kfree` of a used block of the list credits its size. -/
theorem kfree_memStats_used {h h' : Heap} {bs : List Blk} {b : Blk} {fuel : Nat} (hR : Rep h bs) (hb : b ∈ bs)
    (hbf : b.free = false) (hk : kfree fuel h (BitVec.ofNat 32 (b.addr + 16)) = .ok h') :
    h'.memStats = h.memStats.credit (BitVec.ofNat 32 b.size) := by
  obtain ⟨e, hbb⟩ := hR.payload_size hb
  have hsub := payload_sub_header (a := b.addr) (by omega)
  obtain ⟨pv, nx, hh⟩ := hR.links.hdr_of_mem hb
  have hfree : field h.mem (BitVec.ofNat 32 b.addr) .isFree = 0 := by
    simpa [Blk.header, hbf] using congrFun hh .isFree
  rcases kfree_memStats hk with ⟨-, h0 | h1⟩ | hst
  · exact absurd h0 (ofNat_ne_zero (by omega) (by omega))
  · exact absurd (by rw [hsub, hfree]) h1
  · rw [hst, ← e, hsub, field_setField_ne (by decide) (by omega)]

/-! ## A well-behaved client -/

/-- The calls of a well-behaved client, given its live pointers: it hands
`kfree` and `krealloc` only `NULL` or a live pointer, gives `kcalloc` a
nonzero count, and asks for at most `2^32 - 8` bytes, so that `kmalloc`'s
rounding does not wrap. It does not call `kmalloc_aligned`. -/
def Call.Bounded (live : List (BitVec 32)) : Call → Prop
  | .kmalloc n => n.toNat ≤ 2 ^ 32 - 8
  | .kmallocAligned _ _ => False
  | .kcalloc c n => c ≠ 0 ∧ c.toNat * n.toNat ≤ 2 ^ 32 - 8
  | .krealloc p n => (p = 0 ∨ p ∈ live) ∧ n.toNat ≤ 2 ^ 32 - 8
  | .kfree p => p = 0 ∨ p ∈ live

instance (live : List (BitVec 32)) : DecidablePred (Call.Bounded live)
  | .kmalloc n => inferInstanceAs (Decidable (n.toNat ≤ _))
  | .kmallocAligned _ _ => inferInstanceAs (Decidable False)
  | .kcalloc c n => inferInstanceAs (Decidable (c ≠ 0 ∧ c.toNat * n.toNat ≤ _))
  | .krealloc p n => inferInstanceAs (Decidable ((p = 0 ∨ p ∈ live) ∧ n.toNat ≤ _))
  | .kfree p => inferInstanceAs (Decidable (p = 0 ∨ p ∈ live))

/-- The payload pointers of the used blocks, in address order. -/
def payloads (bs : List Blk) : List (BitVec 32) := (used bs).map fun a => BitVec.ofNat 32 (a + 16)

/-- The invariant of a well-behaved client's run: the heap represents a
block list whose used blocks are exactly the live allocations, and which is
a single block when none is used. -/
def Inv (h : Heap) (live : List (BitVec 32)) : Prop :=
  ∃ bs, Rep h bs ∧ live.Perm (payloads bs) ∧ Coalesced bs

/-- Payload pointers are not `NULL`, and distinct blocks have distinct ones. -/
theorem Rep.payloads {h : Heap} {bs : List Blk} (hR : Rep h bs) :
    0 ∉ Mm.payloads bs ∧ (Mm.payloads bs).Nodup := by
  have hb : ∀ a ∈ used bs, a + 16 < 2 ^ 32 := fun a ha => by
    obtain ⟨c, hc, -, rfl⟩ := mem_used.1 ha
    have := hR.tiles.bounds hc
    simp only [Blk.endAddr] at this
    omega
  refine ⟨fun h0 => ?_, hR.tiles.used_nodup.map_on fun x hx y hy e => ?_⟩
  · obtain ⟨a, ha, e⟩ := List.mem_map.1 h0
    exact ofNat_ne_zero (by omega) (hb a ha) e
  · have := congrArg BitVec.toNat e
    simp only [BitVec.toNat_ofNat, Nat.mod_eq_of_lt (hb x hx), Nat.mod_eq_of_lt (hb y hy)] at this
    omega

/-- A live pointer is the payload of a used block of the list. -/
theorem mem_payloads {bs : List Blk} {p : BitVec 32} (hp : p ∈ payloads bs) :
    ∃ L b R, bs = L ++ b :: R ∧ b.free = false ∧ p = BitVec.ofNat 32 (b.addr + 16) := by
  obtain ⟨a, ha, rfl⟩ := List.mem_map.1 hp
  obtain ⟨b, hb, hbf, rfl⟩ := mem_used.1 ha
  obtain ⟨L, R, rfl⟩ := List.append_of_mem hb
  exact ⟨L, b, R, rfl, hbf, rfl⟩

/-- The payload of a used block, among the others. -/
theorem payloads_used {L R : List Blk} {b : Blk} (hbf : b.free = false) :
    payloads (L ++ b :: R) = payloads L ++ BitVec.ofNat 32 (b.addr + 16) :: payloads R := by
  simp [payloads, hbf]

/-- Freeing a block takes its payload out and leaves the others. -/
theorem payloads_freeAt (L : List Blk) (b : Blk) (R : List Blk) :
    payloads (freeAt L.reverse b R) = payloads L ++ payloads R := by
  simp [payloads, used_freeAt]

/-- The other payloads survive freeing a block. -/
theorem mem_payloads_freeAt {L R : List Blk} {b : Blk} {q : BitVec 32} (hbf : b.free = false)
    (hq : q ∈ payloads (L ++ b :: R)) (hqb : q ≠ BitVec.ofNat 32 (b.addr + 16)) :
    q ∈ payloads (freeAt L.reverse b R) := by
  rw [payloads_used hbf, List.mem_append, List.mem_cons] at hq
  rw [payloads_freeAt, List.mem_append]
  exact hq.imp_right fun h => h.resolve_left hqb

/-- Freeing a used block takes its payload out of the live ones. -/
theorem payloads_kfree {L R : List Blk} {b : Blk} {live : List (BitVec 32)}
    (hl : live.Perm (payloads (L ++ b :: R))) (hbf : b.free = false) :
    (live.erase (BitVec.ofNat 32 (b.addr + 16))).Perm (payloads (freeAt L.reverse b R)) := by
  refine (hl.erase _).trans ?_
  rw [payloads_used hbf, payloads_freeAt]
  exact (List.perm_middle.erase _).trans (by rw [List.erase_cons_head])

/-- **`kfree` of a live pointer** takes exactly it back. -/
theorem kfree_live {h : Heap} {bs : List Blk} {live : List (BitVec 32)} {p : BitVec 32}
    {fuel : Nat} (hR : Rep h bs) (hl : live.Perm (payloads bs)) (hp : p ∈ live)
    (hf : bs.length ≤ fuel) : ∃ h', kfree fuel h p = .ok h' ∧ Inv h' (live.erase p) := by
  obtain ⟨L, b, R, rfl, hbf, rfl⟩ := mem_payloads (hl.subset hp)
  obtain ⟨h', hk, hR', -⟩ := kfree_rep hR hbf hf
  exact ⟨h', hk, _, hR', payloads_kfree hl hbf, coalesced_freeAt _ _ _⟩

/-- `kfree` of `NULL` does nothing, and `NULL` is never live. -/
theorem kfree_null {h : Heap} {bs : List Blk} {live : List (BitVec 32)} (fuel : Nat)
    (hR : Rep h bs) (hl : live.Perm (payloads bs)) :
    kfree fuel h 0 = .ok h ∧ live.erase 0 = live :=
  ⟨by simp [kfree], List.erase_of_not_mem fun h0 => hR.payloads.1 (hl.subset h0)⟩

/-- What first fit hands out is a live payload, so not `NULL`. -/
theorem kmalloc_payload {h : Heap} {bs : List Blk} {size : Nat} {r : List Blk × Nat}
    (hR : Rep h r.1) (ha : alloc size bs = some r) :
    BitVec.ofNat 32 (r.2 + 16) ∈ payloads r.1 ∧ BitVec.ofNat 32 (r.2 + 16) ≠ 0 := by
  have hmem : BitVec.ofNat 32 (r.2 + 16) ∈ payloads r.1 :=
    List.mem_map_of_mem _ ((used_alloc ha).symm.subset (List.mem_cons_self _ _))
  exact ⟨hmem, fun h0 => hR.payloads.1 (h0 ▸ hmem)⟩

/-- What first fit hands out was not live before. -/
theorem alloc_payload_fresh {h : Heap} {bs : List Blk} {size : Nat} {r : List Blk × Nat}
    (hR : Rep h bs) (ha : alloc size bs = some r) : BitVec.ofNat 32 (r.2 + 16) ∉ payloads bs := fun hq => by
  obtain ⟨a, ha', e⟩ := List.mem_map.1 hq
  obtain ⟨c, hc, -, rfl⟩ := mem_used.1 ha'
  obtain ⟨d, hd, hda, -, -⟩ := alloc_mem ha
  have hcb := hR.tiles.bounds hc
  have hdb := (hR.tiles.alloc ha).bounds hd
  simp only [Blk.endAddr] at hcb hdb
  have hcd : c.addr = r.2 := by
    by_contra hne
    exact ofNat_ne_ofNat (x := c.addr + 16) (y := r.2 + 16) (by omega) (by omega) (by omega) e
  exact alloc_fresh (hR.tiles.alloc ha) ha (hcd ▸ ha')

/-- What first fit carved becomes live, and the list it leaves, which has
a used block, is coalesced. -/
theorem alloc_live {bs : List Blk} {size : Nat} {r : List Blk × Nat} {live : List (BitVec 32)}
    (ha : alloc size bs = some r) (hl : live.Perm (payloads bs)) :
    (BitVec.ofNat 32 (r.2 + 16) :: live).Perm (payloads r.1) ∧ Coalesced r.1 :=
  ⟨(hl.cons _).trans ((used_alloc ha).map fun a => BitVec.ofNat 32 (a + 16)).symm,
    coalesced_of_mem_used ((used_alloc ha).symm.subset (List.mem_cons_self _ _))⟩

/-- **`kmalloc`** by a well-behaved client keeps the invariant; what it
returns, unless `NULL`, becomes live. -/
theorem kmalloc_inv {h : Heap} {bs : List Blk} {live : List (BitVec 32)} {n : BitVec 32}
    {fuel : Nat} (hR : Rep h bs) (hl : live.Perm (payloads bs)) (hc : Coalesced bs)
    (hn : n.toNat ≤ 2 ^ 32 - 8) (hf : bs.length < fuel) :
    ∃ h' p, kmalloc fuel h n = .ok (h', p) ∧ Inv h' (if p = 0 then live else p :: live) := by
  obtain ⟨h', p, hk, ⟨-, rfl, rfl⟩ | ⟨r, -, ha, rfl, hR', -⟩⟩ := kmalloc_rep hR hn hf
  · exact ⟨_, 0, hk, by simpa using ⟨bs, hR, hl, hc⟩⟩
  · have hq := kmalloc_payload hR' ha
    refine ⟨h', _, hk, ?_⟩
    rw [if_neg hq.2]
    exact ⟨r.1, hR', alloc_live ha hl⟩

/-- A write that keeps every byte but the first `cnt` of the payload first
fit carved, for `cnt` at most the request, keeps the representation. -/
theorem Rep.write_carved {h : Heap} {bs : List Blk} {size cnt : Nat} {r : List Blk × Nat}
    {m' : Mem} (hR : Rep h r.1) (ha : alloc size bs = some r) (hc : cnt ≤ size)
    (hw : r.2 + 16 + cnt < 2 ^ 32 → ∀ lo hi, r.2 + 16 + cnt ≤ lo ∨ hi ≤ r.2 + 16 →
      Agree h.mem m' lo hi) :
    Rep { h with mem := m' } r.1 := by
  obtain ⟨d, hd, hda, hds, -⟩ := alloc_mem ha
  have hdb := hR.tiles.bounds hd
  simp only [Blk.endAddr] at hdb
  rw [← hda] at hw
  exact ⟨hR.head, hR.tiles, hR.links.frame_payload hR.tiles hd (by norm_num)
    (hw (by omega) _ _ (.inr le_rfl)) (hw (by omega) _ _ (.inl (by simp only [Blk.endAddr]; omega)))⟩

/-- **`kcalloc`** is `kmalloc` of the product, zeroed inside the new
payload: `NULL` with the heap unchanged, or first fit, represented. -/
theorem kcalloc_rep {h : Heap} {bs : List Blk} {c n : BitVec 32} {fuel : Nat} (hR : Rep h bs) (hc0 : c ≠ 0)
    (hcn : c.toNat * n.toNat ≤ 2 ^ 32 - 8) (hf : bs.length < fuel) :
    ∃ h' p, kcalloc fuel h c n = .ok (h', p) ∧
      ((c * n = 0 ∨ alloc (((c * n).toNat + 7) / 8 * 8) bs = none) ∧ p = 0 ∧ h' = h ∨
        ∃ r, alloc (((c * n).toNat + 7) / 8 * 8) bs = some r ∧
          p = BitVec.ofNat 32 (r.2 + 16) ∧ Rep h' r.1 ∧
            h'.memStats = h.memStats.charge (field h'.mem (p - sizeofMemBlock) .size)) := by
  have htot : (c * n).toNat = c.toNat * n.toNat := by
    rw [BitVec.toNat_mul, Nat.mod_eq_of_lt (by omega)]
  have hc0' : 0 < c.toNat :=
    Nat.pos_of_ne_zero fun h0 => hc0 (BitVec.eq_of_toNat_eq (by simpa using h0))
  have hdiv : c * n / c = n := by
    apply BitVec.eq_of_toNat_eq
    rw [BitVec.toNat_udiv, htot, Nat.mul_div_cancel_left _ hc0']
  obtain ⟨h1, q, hk, ⟨hnone, rfl, rfl⟩ | ⟨r, -, ha, rfl, hR', -⟩⟩ := kmalloc_rep hR (n := c * n) (by omega) hf
  · refine ⟨_, 0, ?_, .inl ⟨hnone, rfl, rfl⟩⟩
    simp only [kcalloc, if_neg hc0, hdiv, ne_eq, not_true_eq_false, ↓reduceIte, hk, bind,
      Except.bind, pure, Except.pure]
  · have hR2 : Rep { h1 with mem := fill h1.mem (BitVec.ofNat 32 (r.2 + 16)) 0 (c * n) } r.1 :=
      hR'.write_carved ha (by omega) fun hd _ _ hlh => Agree.fill _ _ _ hlh hd
    -- the zeroing leaves the header, so the counters read the size `kmalloc` charged
    have hst : h1.memStats = h.memStats.charge (field h1.mem (BitVec.ofNat 32 (r.2 + 16) - sizeofMemBlock) .size) :=
      (kmalloc_memStats hk).resolve_left fun ⟨_, h0⟩ => (kmalloc_payload hR' ha).2 h0
    obtain ⟨d, hd, hda, hds, -⟩ := alloc_mem ha
    -- the payload lies inside the arena, so the fill does not wrap
    have hwrap : (BitVec.ofNat 32 (r.2 + 16)).toNat + (c * n).toNat ≤ 2 ^ 32 := by
      have := hR'.tiles.bounds hd
      simp only [Blk.endAddr] at this
      rw [BitVec.toNat_ofNat, Nat.mod_eq_of_lt (by omega)]
      omega
    refine ⟨_, _, ?_, .inr ⟨r, ha, rfl, hR2, hst.trans ?_⟩⟩
    · simp only [kcalloc, if_neg hc0, hdiv, hk, ne_eq, not_true_eq_false, ↓reduceIte, bind,
      Except.bind, (kmalloc_payload hR' ha).2, memset_of_le _ _ hwrap, pure, Except.pure]
    · have e1 := (hR'.payload_size hd).1
      have e2 := (hR2.payload_size hd).1
      rw [hda] at e1 e2
      exact congrArg _ (e1.trans e2.symm)

/-- **`kcalloc`** by a well-behaved client keeps the invariant. -/
theorem kcalloc_inv {h : Heap} {bs : List Blk} {live : List (BitVec 32)} {c n : BitVec 32}
    {fuel : Nat} (hR : Rep h bs) (hl : live.Perm (payloads bs)) (hc : Coalesced bs) (hc0 : c ≠ 0)
    (hcn : c.toNat * n.toNat ≤ 2 ^ 32 - 8) (hf : bs.length < fuel) :
    ∃ h' p, kcalloc fuel h c n = .ok (h', p) ∧ Inv h' (if p = 0 then live else p :: live) := by
  obtain ⟨h', p, hk, ⟨-, rfl, rfl⟩ | ⟨r, ha, rfl, hR', -⟩⟩ := kcalloc_rep hR hc0 hcn hf
  · exact ⟨_, 0, hk, by simpa using ⟨bs, hR, hl, hc⟩⟩
  · refine ⟨h', _, hk, ?_⟩
    rw [if_neg (kmalloc_payload hR' ha).2]
    exact ⟨r.1, hR', alloc_live ha hl⟩

/-! ## `krealloc` of a live pointer

The three ways `krealloc` serves the payload of a used block of the list,
as it reads them off the block's header: in place, `NULL` when `kmalloc`
finds nothing, or a move through `kmalloc`, `memcpy` and `kfree`. -/

section Krealloc

variable {h h1 h3 : Heap} {L R : List Blk} {b : Blk} {n q : BitVec 32} {fuel : Nat}

/-- What `krealloc` reads for a live pointer: the pointer is not `NULL`, the
header in front of it is its block's, and `new_size <= block->size`
compares with the block's size. -/
theorem Rep.krealloc_reads (hR : Rep h (L ++ b :: R)) (n : BitVec 32) :
    BitVec.ofNat 32 (b.addr + 16) ≠ 0 ∧
      BitVec.ofNat 32 (b.addr + 16) - sizeofMemBlock = BitVec.ofNat 32 b.addr ∧
      (n ≤ field h.mem (BitVec.ofNat 32 b.addr) .size ↔ n.toNat ≤ b.size) := by
  have hbb := hR.tiles.bounds (List.mem_append_right L (List.mem_cons_self b R))
  simp only [Blk.endAddr] at hbb
  have hsz : field h.mem (BitVec.ofNat 32 b.addr) .size = BitVec.ofNat 32 b.size :=
    congrFun (links_append.1 hR.links).2.1 .size
  refine ⟨ofNat_ne_zero (by omega) (by omega), payload_sub_header (by omega), ?_⟩
  rw [hsz, BitVec.le_def, BitVec.toNat_ofNat, Nat.mod_eq_of_lt (by omega)]

/-- A block that holds the new size is split in place, at the unrounded
size. -/
theorem krealloc_in_place (hR : Rep h (L ++ b :: R)) (hn0 : n ≠ 0) (hfit : n.toNat ≤ b.size) :
    krealloc fuel h (BitVec.ofNat 32 (b.addr + 16)) n =
      .ok ({ h with mem := splitBlock h.mem (BitVec.ofNat 32 b.addr) n }, BitVec.ofNat 32 (b.addr + 16)) := by
  obtain ⟨hp0, hblock, hle⟩ := hR.krealloc_reads n
  simp only [krealloc, if_neg hp0, if_neg hn0, hblock, if_pos (hle.2 hfit)]

/-- Otherwise, when `kmalloc` returns `NULL`, so does `krealloc`. -/
theorem krealloc_no_room (hR : Rep h (L ++ b :: R)) (hn0 : n ≠ 0) (hfit : b.size < n.toNat)
    (hk : kmalloc fuel h n = .ok (h1, 0)) :
    krealloc fuel h (BitVec.ofNat 32 (b.addr + 16)) n = .ok (h1, 0) := by
  obtain ⟨hp0, hblock, hle⟩ := hR.krealloc_reads n
  simp only [krealloc, if_neg hp0, if_neg hn0, hblock, if_neg (mt hle.1 (by omega)), hk, bind,
    Except.bind, pure_bind, ↓reduceIte, pure, Except.pure]

/-- Otherwise the contents move: `memcpy` of the old block's size, which
`kmalloc` left in its header, to the new payload, then `kfree` of the old
pointer. -/
theorem krealloc_moved (hR : Rep h (L ++ b :: R)) (hn0 : n ≠ 0) (hfit : b.size < n.toNat)
    (hk : kmalloc fuel h n = .ok (h1, q)) (hq : q ≠ 0)
    (hold : field h1.mem (BitVec.ofNat 32 b.addr) .size = BitVec.ofNat 32 b.size)
    (hk3 : kfree fuel { h1 with mem := (memcpy h1.mem q (BitVec.ofNat 32 (b.addr + 16))
      (BitVec.ofNat 32 b.size)) } (BitVec.ofNat 32 (b.addr + 16)) = .ok h3) :
    krealloc fuel h (BitVec.ofNat 32 (b.addr + 16)) n = .ok (h3, q) := by
  obtain ⟨hp0, hblock, hle⟩ := hR.krealloc_reads n
  have hlt : BitVec.ofNat 32 b.size < n := by
    rw [BitVec.lt_def, BitVec.toNat_ofNat]
    exact lt_of_le_of_lt (Nat.mod_le _ _) hfit
  simp only [krealloc, if_neg hp0, if_neg hn0, hblock, if_neg (mt hle.1 (by omega)), hk, if_neg hq,
    hold, if_pos hlt, hk3, bind, Except.bind, pure_bind, pure, Except.pure]

/-- **The move of `krealloc`.** When the block is too small and first fit
carves a block for the new size, `krealloc` copies the old payload to the
new one, writing nothing else that the list does not own and no counter,
and returns the new payload once `kfree` of the old pointer comes back. -/
theorem krealloc_moves {res : List Blk × Nat} (hR : Rep h (L ++ b :: R)) (hbf : b.free = false)
    (hn : n.toNat ≤ 2 ^ 32 - 8) (hfit : b.size < n.toNat) (hf : (L ++ b :: R).length < fuel)
    (ha : alloc ((n.toNat + 7) / 8 * 8) (L ++ b :: R) = some res) :
    ∃ h2, Rep h2 res.1 ∧
      (∀ i < b.size, h2.mem (BitVec.ofNat 32 (res.2 + 16 + i)) =
        h.mem (BitVec.ofNat 32 (b.addr + 16 + i))) ∧
      (∃ h1, kmalloc fuel h n = .ok (h1, BitVec.ofNat 32 (res.2 + 16)) ∧ h2.memStats = h1.memStats) ∧
      ∀ h3, kfree fuel h2 (BitVec.ofNat 32 (b.addr + 16)) = .ok h3 →
        krealloc fuel h (BitVec.ofNat 32 (b.addr + 16)) n = .ok (h3, BitVec.ofNat 32 (res.2 + 16)) := by
  have hn0 : n ≠ 0 := fun e => by simp [e] at hfit
  obtain ⟨h1, q, hk, ⟨h0, -, -⟩ | ⟨res', -, ha', rfl, hR1, o1⟩⟩ := kmalloc_rep hR hn hf
  · exact absurd h0 (not_or.2 ⟨hn0, by simp [ha]⟩)
  obtain rfl : res = res' := Option.some.inj (ha.symm.trans ha')
  have hbm := List.mem_append_right L (List.mem_cons_self b R)
  have hb1 := mem_alloc_of_used ha hbm hbf
  obtain ⟨d, hd, hda, hds, -⟩ := alloc_mem ha
  -- the carved block is not the old one, which was in use
  have hdb : d ≠ b := fun e => alloc_fresh hR1.tiles ha (by
    rw [← hda, e]
    exact mem_used.2 ⟨b, hbm, hbf, rfl⟩)
  have hsep := (hR1.tiles.pairwise.imp Or.inl).forall (fun _ _ => Or.symm) hb1 hd (Ne.symm hdb)
  have hbb := hR1.tiles.bounds hb1
  have hdd := hR1.tiles.bounds hd
  simp only [Blk.endAddr] at hsep hbb hdd
  have hbs : (BitVec.ofNat 32 b.size).toNat = b.size := by
    rw [BitVec.toNat_ofNat, Nat.mod_eq_of_lt (by omega)]
  obtain ⟨pv, nx, hbh⟩ := hR1.links.hdr_of_mem hb1
  refine ⟨{ h1 with mem := (memcpy h1.mem (BitVec.ofNat 32 (res.2 + 16))
      (BitVec.ofNat 32 (b.addr + 16)) (BitVec.ofNat 32 b.size)) }, hR1.write_carved ha (show b.size ≤ _ by omega)
      fun hd' _ _ hlh => Agree.memcpy _ (BitVec.ofNat 32 (b.addr + 16)) (BitVec.ofNat 32 b.size)
        (by rw [hbs]; exact hlh) (by rw [hbs]; exact hd'), fun i hi => ?_, ⟨h1, hk, rfl⟩,
    fun h3 hk3 => krealloc_moved hR hn0 hfit hk (kmalloc_payload hR1 ha).2 (congrFun hbh .size) hk3⟩
  -- the copy reads the old payload, which `kmalloc` did not write
  have hcopy := memcpy_copies h1.mem (d := res.2 + 16) (s := b.addr + 16) (BitVec.ofNat 32 b.size)
    (by omega) (by omega) (by omega) i (by omega)
  exact hcopy.trans ((o1.payload hR1.tiles hb1) _ (by simp only [BitVec.toNat_ofNat]; omega)
    (by simp only [BitVec.toNat_ofNat, Blk.endAddr]; omega))

end Krealloc

/-- **`krealloc`** by a well-behaved client keeps the invariant, in each of
its four ways: `kmalloc` for `NULL`, `kfree` for size 0, `split_block` in
place when the block is large enough, and otherwise a move to a new block,
the old one being freed. -/
theorem krealloc_inv {h : Heap} {bs : List Blk} {live : List (BitVec 32)} {p n : BitVec 32}
    {fuel : Nat} (hR : Rep h bs) (hl : live.Perm (payloads bs)) (hc : Coalesced bs)
    (hp : p = 0 ∨ p ∈ live) (hn : n.toNat ≤ 2 ^ 32 - 8) (hf : bs.length < fuel) :
    ∃ h' r, krealloc fuel h p n = .ok (h', r) ∧ Inv h' ((Call.krealloc p n).live live r) := by
  rcases hp with rfl | hp
  · -- `krealloc (NULL, n)` is `kmalloc (n)`
    obtain ⟨h', r, hk, hI⟩ := kmalloc_inv hR hl hc hn hf
    refine ⟨h', r, by simpa [krealloc] using hk, ?_⟩
    simpa only [Call.live, (kfree_null 0 hR hl).2, ite_self] using hI
  have hp0 : p ≠ 0 := fun e => hR.payloads.1 (hl.subset (e ▸ hp))
  by_cases hn0 : n = 0
  · -- `krealloc (p, 0)` is `kfree (p)`
    obtain ⟨h', hk, hI⟩ := kfree_live hR hl hp (Nat.le_of_lt hf)
    refine ⟨h', 0, ?_, by simpa [Call.live, hn0] using hI⟩
    simp only [krealloc, if_neg hp0, if_pos hn0, hk, bind, Except.bind, pure, Except.pure]
  obtain ⟨L, b, R, rfl, hbf, rfl⟩ := mem_payloads (hl.subset hp)
  by_cases hfit : n.toNat ≤ b.size
  · -- the block is large enough: `split_block` in place
    have h1 := (hR.split hfit).1
    rw [BitVec.ofNat_toNat, BitVec.setWidth_eq] at h1
    refine ⟨_, _, krealloc_in_place hR hn0 hfit, _, h1, ?_,
      coalesced_of_mem_used (a := b.addr) (by simp [hbf])⟩
    simp only [Call.live, if_neg hp0]
    refine (List.perm_cons_erase hp).symm.trans (hl.trans ?_)
    simp [payloads, used_rest, hbf]
  · -- otherwise the contents move to a new block
    obtain ⟨h1, q, hk, ⟨-, rfl, rfl⟩ | ⟨r, -, ha, rfl, hR1, -⟩⟩ := kmalloc_rep hR hn hf
    · exact ⟨_, 0, krealloc_no_room hR hn0 (by omega) hk,
        by simpa only [Call.live, ↓reduceIte, if_neg hn0] using ⟨_, hR, hl, hc⟩⟩
    · have hq := kmalloc_payload hR1 ha
      have hl1 := (alloc_live ha hl).1
      obtain ⟨h2, hR2, -, -, hmove⟩ := krealloc_moves hR hbf hn (by omega) hf ha
      obtain ⟨h3, hk3, hI3⟩ := kfree_live hR2 hl1 (List.mem_cons_of_mem _ hp)
        ((alloc_length ha).trans hf)
      have hqp : BitVec.ofNat 32 (r.2 + 16) ≠ BitVec.ofNat 32 (b.addr + 16) := fun e =>
        alloc_payload_fresh hR ha (e ▸ hl.subset hp)
      refine ⟨h3, BitVec.ofNat 32 (r.2 + 16), hmove h3 hk3, ?_⟩
      simp only [Call.live, if_neg hq.2]
      rwa [List.erase_cons_tail (by simpa using hqp)] at hI3

/-- The in-place split of `krealloc` does not coalesce. After `kmalloc (64)`
and `krealloc (p, 8)`, the tail that `split_block` cuts off at `0x200018`
is free, and so is the block after it at `0x200050`. -/
theorem krealloc_leaves_adjacent_free :
    ∃ h1 h2, kmalloc 2 (mmInit fun _ => 0) 64 = .ok (h1, 0x200010) ∧
      krealloc 2 h1 0x200010 8 = .ok (h2, 0x200010) ∧ Reachable Call.Bounded h2 [0x200010] ∧
      h2.heapHead = 0x200000 ∧ field h2.mem 0x200000 .next = 0x200018 ∧
      field h2.mem 0x200018 .isFree = 1 ∧ field h2.mem 0x200018 .next = 0x200050 ∧
      field h2.mem 0x200050 .isFree = 1 :=
  ⟨_, _, rfl, rfl, .call (c := .krealloc 0x200010 8) 2
    (.call (c := .kmalloc 64) 2 (.init fun _ => 0) (by decide) rfl) (by decide) rfl,
    rfl, rfl, rfl, rfl, rfl⟩

/-- The in-place split of `krealloc` is at the UNROUNDED size. After
`kmalloc (64)` and `krealloc (p, 5)` a header sits at `0x200015`, and the
next `kmalloc (8)` carves that block and returns `0x200025`, which is not a
multiple of 8. -/
theorem krealloc_misaligns_kmalloc :
    ∃ h1 h2 h3, kmalloc 3 (mmInit fun _ => 0) 64 = .ok (h1, 0x200010) ∧
      krealloc 3 h1 0x200010 5 = .ok (h2, 0x200010) ∧ kmalloc 3 h2 8 = .ok (h3, 0x200025) ∧
      Reachable Call.Bounded h3 [0x200025, 0x200010] ∧ h3.heapHead = 0x200000 ∧
      field h3.mem 0x200000 .next = 0x200015 :=
  ⟨_, _, _, rfl, rfl, rfl, .call (c := .kmalloc 8) 3 (.call (c := .krealloc 0x200010 5) 3
    (.call (c := .kmalloc 64) 3 (.init fun _ => 0) (by decide) rfl) (by decide) rfl) (by decide) rfl,
    rfl, rfl⟩

/-! ## Every run -/

/-- Every call a well-behaved client makes keeps the invariant, and comes
back with the fuel of one turn per block and one more. -/
theorem call_inv {h : Heap} {live : List (BitVec 32)} {bs : List Blk} {c : Call} {fuel : Nat}
    (hR : Rep h bs) (hl : live.Perm (payloads bs)) (hc : Coalesced bs) (hok : c.Bounded live)
    (hf : bs.length < fuel) : ∃ h' r, c.run fuel h = .ok (h', r) ∧ Inv h' (c.live live r) := by
  cases c with
  | kmalloc n => exact kmalloc_inv hR hl hc hok hf
  | kmallocAligned n a => exact hok.elim
  | kcalloc c n => exact kcalloc_inv hR hl hc hok.1 hok.2 hf
  | krealloc p n => exact krealloc_inv hR hl hc hok.1 hok.2 hf
  | kfree p =>
    rcases hok with rfl | hp
    · have h0 := kfree_null fuel hR hl
      exact ⟨h, 0, by simp only [Call.run, h0.1, Except.map], by simpa only [Call.live, h0.2] using
        ⟨bs, hR, hl, hc⟩⟩
    · obtain ⟨h', hk, hI⟩ := kfree_live hR hl hp hf.le
      exact ⟨h', 0, by simp [Call.run, hk, Except.map], hI⟩

/-- The invariant holds after every call a well-behaved client makes, with
whatever fuel the call came back. -/
theorem Inv.call {h h' : Heap} {live : List (BitVec 32)} {c : Call} {fuel : Nat} {r : BitVec 32}
    (hI : Inv h live) (hok : c.Bounded live) (hrun : c.run fuel h = .ok (h', r)) :
    Inv h' (c.live live r) := by
  obtain ⟨bs, hR, hl, hc⟩ := hI
  obtain ⟨h'', r', e, hI'⟩ := call_inv hR hl hc hok (Nat.lt_succ_of_le (le_max_right fuel bs.length))
  rw [Call.run_mono (le_trans (le_max_left _ _) (Nat.le_succ _)) hrun, Except.ok.injEq,
    Prod.mk.injEq] at e
  obtain ⟨rfl, rfl⟩ := e
  exact hI'

/-- The invariant holds in every state a well-behaved client reaches. -/
theorem Reachable.inv {h : Heap} {live : List (BitVec 32)} (hr : Reachable Call.Bounded h live) :
    Inv h live := by
  induction hr with
  | init m => exact ⟨_, mmInit_rep m, by simp [payloads], fun _ => ⟨_, rfl⟩⟩
  | call _ _ hok hrun ih => exact ih.call hok hrun

/-- `kmalloc_aligned` stashes the raw pointer in the word below the aligned
address, which need not be in the payload. `kmalloc_aligned (0xFFFFFFEB, 16)`
asks `kmalloc` for `0xFFFFFFFF` bytes, which round to 0: the block at
`0x200000` gets size 0 and the rest is cut off at `0x200010`, where the
payload starts. The stash at `0x20001C` lands on the `prev` of that block,
which now points to the block itself, so `mm_check_heap_integrity`
fails. -/
theorem kmallocAligned_corrupts_list :
    ∃ h, kmallocAligned 2 (mmInit fun _ => 0) 0xFFFFFFEB 16 = .ok (h, 0x200020) ∧
      h.heapHead = 0x200000 ∧ field h.mem 0x200000 .next = 0x200010 ∧
      field h.mem 0x200010 .prev = 0x200010 ∧ mmCheckHeapIntegrity 3 h = .ok false :=
  ⟨_, rfl, rfl, rfl, rfl, rfl⟩

/-- **Freeing everything restores the arena.** Every call a well-behaved
client makes comes back; and whenever no allocation is live, the block list
is the one free block `mm_init` made: at `KERNEL_HEAP_START`, of
`KERNEL_HEAP_SIZE - sizeof(mem_block_t)` bytes, with no block before or
after it. -/
theorem kfree_all_restores_arena :
    (∀ (h : Heap) (live : List (BitVec 32)) (c : Call), Reachable Call.Bounded h live →
      c.Bounded live → ∃ fuel h' r, c.run fuel h = .ok (h', r)) ∧
    ∀ h : Heap, Reachable Call.Bounded h [] →
      h.heapHead = kernelHeapStart ∧
      field h.mem kernelHeapStart .size = kernelHeapSize - sizeofMemBlock ∧
      field h.mem kernelHeapStart .isFree = 1 ∧ field h.mem kernelHeapStart .next = 0 ∧
      field h.mem kernelHeapStart .prev = 0 := by
  refine ⟨fun h live c hr hok => ?_, fun h hr => ?_⟩
  · obtain ⟨bs, hR, hl, hc⟩ := hr.inv
    obtain ⟨h', r, e, -⟩ := call_inv hR hl hc hok (Nat.lt_succ_self bs.length)
    exact ⟨_, h', r, e⟩
  · obtain ⟨bs, hR, hl, hc⟩ := hr.inv
    have hu : used bs = [] := by simpa [payloads] using hl.nil_eq.symm
    obtain ⟨⟨a, s, f⟩, rfl⟩ := hc hu
    obtain ⟨rfl, hbe⟩ := hR.tiles
    simp only [tiles_nil, Blk.endAddr] at hbe
    obtain rfl : s = 0xFFFF0 := by omega
    obtain rfl : f = true := by simpa using hu
    have hh := hR.links.1
    exact ⟨hR.head, congrFun hh .size, congrFun hh .isFree, congrFun hh .next, congrFun hh .prev⟩

/-- Two blocks of `kmalloc (8)`, both freed again, the first one first:
nothing is live, and the arena is the block `mm_init` made. -/
theorem arena_restored_after_two_frees :
    ∃ h, Reachable Call.Bounded h [] ∧ h.heapHead = kernelHeapStart ∧
      field h.mem kernelHeapStart .size = kernelHeapSize - sizeofMemBlock ∧
      field h.mem kernelHeapStart .isFree = 1 ∧ field h.mem kernelHeapStart .next = 0 ∧
      field h.mem kernelHeapStart .prev = 0 :=
  have hr : Reachable Call.Bounded _ [] :=
    .call (c := .kfree 0x200028) 4 (.call (c := .kfree 0x200010) 4
      (.call (c := .kmalloc 8) 4 (.call (c := .kmalloc 8) 4 (.init fun _ => 0) (by decide) rfl) (by decide) rfl)
      (by decide) rfl) (by decide) rfl
  ⟨_, hr, kfree_all_restores_arena.2 _ hr⟩

/-! ## What a well-behaved client gets -/

/-- `kmalloc (8)` twice after `mm_init`, then `kfree` of the first: the
second block stays live. -/
theorem reachable_after_first_of_two_freed : ∃ h, Reachable Call.Bounded h [0x200028] :=
  ⟨_, .call (c := .kfree 0x200010) 4
    (.call (c := .kmalloc 8) 4 (.call (c := .kmalloc 8) 4 (.init fun _ => 0) (by decide) rfl) (by decide) rfl)
    (by decide) rfl⟩

/-- **What `kmalloc` hands out holds the request.** In every state a
well-behaved client reaches, `kmalloc (n)` with `n` at most `2^32 - 8` comes
back within one turn per 16 bytes of the arena. Unless it returns `NULL`,
the header in front of the pointer has size at least `n`, and that many
bytes from the pointer end inside the arena. -/
theorem kmalloc_fits {h : Heap} {live : List (BitVec 32)} {n : BitVec 32}
    (hr : Reachable Call.Bounded h live) (hn : n.toNat ≤ 2 ^ 32 - 8) :
    ∃ h' p, kmalloc 65537 h n = .ok (h', p) ∧ (p ≠ 0 →
      n.toNat ≤ (field h'.mem (p - sizeofMemBlock) .size).toNat ∧
      p.toNat + (field h'.mem (p - sizeofMemBlock) .size).toNat ≤ 0x300000) := by
  obtain ⟨bs, hR, -, -⟩ := hr.inv
  have hlen := hR.tiles.length_le
  obtain ⟨h', p, hk, ⟨-, rfl, -⟩ | ⟨r, -, ha, rfl, hR', -⟩⟩ :=
    kmalloc_rep hR hn (show bs.length < 65537 by omega)
  · exact ⟨h', 0, hk, fun h0 => absurd rfl h0⟩
  · obtain ⟨d, hd, hda, hds, -⟩ := alloc_mem ha
    obtain ⟨hsz, hb⟩ := hR'.payload_size hd
    refine ⟨h', _, hk, fun _ => ?_⟩
    rw [← hda, hsz]
    simp (disch := omega) only [BitVec.toNat_ofNat, Nat.mod_eq_of_lt]
    omega

theorem kmalloc_fits_after_free :
    ∃ h, Reachable Call.Bounded h [0x200028] ∧ ∃ h' p, kmalloc 65537 h 100 = .ok (h', p) ∧ (p ≠ 0 →
      (100 : BitVec 32).toNat ≤ (field h'.mem (p - sizeofMemBlock) .size).toNat ∧
      p.toNat + (field h'.mem (p - sizeofMemBlock) .size).toNat ≤ 0x300000) := by
  obtain ⟨h, hr⟩ := reachable_after_first_of_two_freed
  exact ⟨h, hr, kmalloc_fits hr (by decide)⟩

/-- **Live allocations do not overlap.** In every state a well-behaved
client reaches, the payloads of two different live pointers, each as long
as the size in its header, are apart by at least a header: neither overlaps
the other or any header. -/
theorem live_payloads_disjoint {h : Heap} {live : List (BitVec 32)} {p q : BitVec 32}
    (hr : Reachable Call.Bounded h live) (hp : p ∈ live) (hq : q ∈ live) (hpq : p ≠ q) :
    p.toNat + (field h.mem (p - sizeofMemBlock) .size).toNat + 16 ≤ q.toNat ∨
      q.toNat + (field h.mem (q - sizeofMemBlock) .size).toNat + 16 ≤ p.toNat := by
  obtain ⟨bs, hR, hl, -⟩ := hr.inv
  have hblock : ∀ x ∈ live, ∃ c ∈ bs, x = BitVec.ofNat 32 (c.addr + 16) := fun x hx => by
    obtain ⟨L, c, R, rfl, -, rfl⟩ := mem_payloads (hl.subset hx)
    exact ⟨c, List.mem_append_right L (List.mem_cons_self c R), rfl⟩
  obtain ⟨c, hc, rfl⟩ := hblock p hp
  obtain ⟨d, hd, rfl⟩ := hblock q hq
  obtain ⟨hcs, hcb⟩ := hR.payload_size hc
  obtain ⟨hds, hdb⟩ := hR.payload_size hd
  have hord : c.endAddr ≤ d.addr ∨ d.endAddr ≤ c.addr :=
    (hR.tiles.pairwise.imp Or.inl).forall (fun _ _ => Or.symm) hc hd (fun e => hpq (e ▸ rfl))
  rw [hcs, hds]
  simp (disch := omega) only [BitVec.toNat_ofNat, Nat.mod_eq_of_lt]
  simp only [Blk.endAddr] at hord
  omega

theorem live_payloads_disjoint_after_two :
    ∃ h, Reachable Call.Bounded h [0x200028, 0x200010] ∧
      ((0x200028 : BitVec 32).toNat + (field h.mem (0x200028 - sizeofMemBlock) .size).toNat + 16 ≤
          (0x200010 : BitVec 32).toNat ∨
        (0x200010 : BitVec 32).toNat + (field h.mem (0x200010 - sizeofMemBlock) .size).toNat + 16 ≤
          (0x200028 : BitVec 32).toNat) :=
  have hr : Reachable Call.Bounded _ [0x200028, 0x200010] :=
    .call (c := .kmalloc 8) 2 (.call (c := .kmalloc 8) 2 (.init fun _ => 0) (by decide) rfl)
      (by decide) rfl
  ⟨_, hr, live_payloads_disjoint hr (by decide) (by decide) (by decide)⟩

end MiniCore.Mm
