import MiniCore.Mm.Refine

/-!
# Without `krealloc`, no two free blocks are neighbours

`kfree` merges the freed block with every free block on either side of it
(`freeAt_split`), and `kmalloc` carves a used block from the front of a
free one, handing what is left to a free block whose neighbours are used.
So both keep a list in which no two neighbouring blocks are free
(`Separated.alloc`, `Separated.freeAt`), and so does every run of a
well-behaved client that does not call `krealloc`. `krealloc` in place
does not: it splits a used block and leaves the tail free next to a free
block (`krealloc_leaves_adjacent_free`).

In a separated tiling the used blocks decide the whole list: between two
used blocks, or a used block and an end of the arena, lies one free block
or nothing (`Tiles.eq_of_used`). That is why freeing what was allocated
gives the same list back: a client that holds the blocks it was handed
keeps the heap `Pending`, and once it has freed them all, in the order it
got them, the heap represents the list it started from (`Pending.rep_nil`).

**The law** (`heap_separated_without_krealloc`): every heap that a
well-behaved client reaches from `mm_init` without calling `krealloc`
represents a separated block list whose used blocks are its live
allocations.

## What this does NOT cover

`kmalloc_aligned`, which a well-behaved client does not call, and
`krealloc`, which breaks the law.
-/

namespace MiniCore.Mm

/-! ## Separated lists -/

/-- No two neighbouring blocks of `bs` are both free. -/
def Separated (bs : List Blk) : Prop := bs.Chain' fun b c => b.free = false ∨ c.free = false

/-- A separated list around one block: both sides, and the block's links to them. -/
theorem separated_append_cons {L R : List Blk} {m : Blk} :
    Separated (L ++ m :: R) ↔
      Separated L ∧ Separated (m :: R) ∧ ∀ c ∈ L.getLast?, c.free = false ∨ m.free = false := by
  simp only [Separated, List.chain'_append, List.head?_cons, Option.mem_def, Option.some.injEq,
    forall_eq']

/-- Past the free blocks at its front, a list starts with a used block. -/
theorem head?_dropWhile_free (l : List Blk) : ∀ c ∈ (l.dropWhile (·.free)).head?, c.free = false := by
  intro c hc
  have := List.head?_dropWhile_not (·.free) l
  rwa [Option.mem_def.1 hc] at this

/-- A used block is past the free blocks at the front of a list. -/
theorem mem_dropWhile_free {l : List Blk} {u : Blk} (hu : u.free = false) :
    u ∈ l.dropWhile (·.free) ↔ u ∈ l := by
  conv_rhs => rw [← List.takeWhile_append_dropWhile (·.free) l]
  rw [List.mem_append, or_iff_right fun h => by simpa [hu] using List.mem_takeWhile_imp h]

/-- **`freeAt` replaces the run of free blocks around the freed one by one
free block**: what is left on either side starts, next to it, with a used
block. -/
theorem freeAt_split (P : List Blk) (b : Blk) (R : List Blk) :
    ∃ m : Blk, m.free ∧ freeAt P b R = (P.dropWhile (·.free)).reverse ++ m :: R.dropWhile (·.free) := by
  have e := freeAt_run (b := b) (L := (P.dropWhile (·.free)).reverse) (A := (P.takeWhile (·.free)).reverse)
    (B := R.takeWhile (·.free)) (R := R.dropWhile (·.free))
    (fun c hc => List.mem_takeWhile_imp (List.mem_reverse.1 hc)) (fun c hc => List.mem_takeWhile_imp hc)
    (by rw [List.getLast?_reverse]; exact head?_dropWhile_free P) (head?_dropWhile_free R)
  rw [List.reverse_append, List.reverse_reverse, List.reverse_reverse, List.takeWhile_append_dropWhile,
    List.takeWhile_append_dropWhile] at e
  exact ⟨_, rfl, e⟩

/-- First fit keeps a list separated: the carved block is used, and the
free rest it may cut off lies before what followed the free block. -/
theorem Separated.alloc {size : Nat} {bs : List Blk} {r : List Blk × Nat} (hs : Separated bs)
    (ha : alloc size bs = some r) : Separated r.1 := by
  obtain ⟨L, b, R, rfl, hb, rfl⟩ := alloc_eq_some ha
  have hbf : b.free := by simp only [Blk.fits, Bool.and_eq_true] at hb; exact hb.1
  obtain ⟨hL, hbR, -⟩ := separated_append_cons.1 hs
  have hR := List.chain'_cons'.1 hbR
  rw [List.append_assoc, Blk.carve, List.cons_append, separated_append_cons]
  refine ⟨hL, List.chain'_cons'.2 ⟨fun _ _ => .inl rfl, ?_⟩, fun _ _ => .inr rfl⟩
  unfold Blk.rest
  split
  · exact List.chain'_cons'.2 ⟨fun c hc => .inr ((hR.1 c hc).resolve_left (by simp [hbf])), hR.2⟩
  · exact hR.2

/-- Freeing keeps a list separated. -/
theorem Separated.freeAt {P R : List Blk} {b : Blk} (hs : Separated (P.reverse ++ b :: R)) :
    Separated (Mm.freeAt P b R) := by
  obtain ⟨m, hm, e⟩ := freeAt_split P b R
  obtain ⟨hP, hbR, -⟩ := separated_append_cons.1 hs
  have eP : P.reverse = (P.dropWhile (·.free)).reverse ++ (P.takeWhile (·.free)).reverse := by
    rw [← List.reverse_append, List.takeWhile_append_dropWhile]
  have eR : R = R.takeWhile (·.free) ++ R.dropWhile (·.free) := (List.takeWhile_append_dropWhile _ _).symm
  have hR : Separated R := hbR.tail
  rw [eP] at hP
  rw [eR] at hR
  rw [e, separated_append_cons]
  refine ⟨(List.chain'_append.1 hP).1, List.chain'_cons'.2 ⟨fun c hc => .inr (head?_dropWhile_free R c hc),
    (List.chain'_append.1 hR).2.1⟩, fun c hc => .inl ?_⟩
  rw [List.getLast?_reverse] at hc
  exact head?_dropWhile_free P c hc

/-! ## The used blocks decide a separated tiling -/

/-- The used blocks after first fit: those before, and the carved one,
which is at the address first fit returns and was not used before. -/
theorem used_mem_alloc {a e size : Nat} {bs : List Blk} {r : List Blk × Nat} (ht : Tiles a bs e)
    (ha : alloc size bs = some r) :
    ∃ U : Blk, U.addr = r.2 ∧ U.free = false ∧ U ∉ bs ∧ ∀ u : Blk, u.free = false → (u ∈ r.1 ↔ u ∈ bs ∨ u = U) := by
  have hfresh := alloc_fresh (ht.alloc ha) ha
  obtain ⟨L, b, R, rfl, hb, rfl⟩ := alloc_eq_some ha
  have hbf : b.free := by simp only [Blk.fits, Bool.and_eq_true] at hb; exact hb.1
  refine ⟨{ b.shrink size with free := false }, Blk.shrink_addr b size, rfl,
    fun hU => hfresh (mem_used.2 ⟨_, hU, rfl, Blk.shrink_addr b size⟩), fun u hu => ?_⟩
  have hub : u ≠ b := by rintro rfl; simp [hu] at hbf
  have hrest : u ∉ b.rest size := fun h => by simpa [hu] using Blk.rest_free u h
  simp only [Blk.carve, List.mem_append, List.mem_cons, hub, false_or, or_false] at hrest ⊢
  tauto

/-- The used blocks after freeing: those on either side of the freed one. -/
theorem used_mem_freeAt {P R : List Blk} {b u : Blk} (hu : u.free = false) :
    u ∈ Mm.freeAt P b R ↔ u ∈ P ∨ u ∈ R := by
  obtain ⟨m, hm, e⟩ := freeAt_split P b R
  have hum : u ≠ m := by rintro rfl; simp [hu] at hm
  rw [e, List.mem_append, List.mem_reverse, List.mem_cons, mem_dropWhile_free hu, mem_dropWhile_free hu]
  simp only [hum, false_or]

/-- The blocks of a tiling after its first lie past the first one's end. -/
theorem Tiles.addr_lt {a e : Nat} {b u : Blk} {bs : List Blk} (h : Tiles a (b :: bs) e) (hu : u ∈ bs) :
    b.addr < u.addr := by
  have := (h.2.bounds hu).1
  simp only [Blk.endAddr] at this
  omega

/-- Two separated tilings of one range with the same used blocks have the
same first block. -/
theorem Tiles.head_eq_of_used {a e : Nat} {b c : Blk} {bs cs : List Blk} (hb : Tiles a (b :: bs) e)
    (hc : Tiles a (c :: cs) e) (sb : Separated (b :: bs)) (sc : Separated (c :: cs))
    (hu : ∀ u : Blk, u.free = false → (u ∈ b :: bs ↔ u ∈ c :: cs)) : b = c := by
  have hbc : b.addr = c.addr := hb.1.trans hc.1.symm
  -- a used first block is the other list's first block
  have first : ∀ {b c : Blk} {cs : List Blk}, b.addr = c.addr → Tiles a (c :: cs) e → b.free = false →
      b ∈ c :: cs → b = c := by
    intro b c cs hbc hc hf hm
    rcases List.mem_cons.1 hm with h | h
    · exact h
    · exact absurd (hc.addr_lt h) (by omega)
  cases hbf : b.free
  · exact first hbc hc hbf ((hu b hbf).1 (List.mem_cons_self _ _))
  cases hcf : c.free
  · exact (first hbc.symm hb hcf ((hu c hcf).2 (List.mem_cons_self _ _))).symm
  -- two free first blocks end where the first used block of each list starts
  have last : ∀ {b : Blk} {bs : List Blk}, Tiles a (b :: bs) e → Separated (b :: bs) → b.free →
      bs = [] ∧ b.endAddr = e ∨ ∃ d ∈ bs, d.free = false ∧ d.addr = b.endAddr := by
    intro b bs h s hf
    cases bs with
    | nil => exact .inl ⟨rfl, h.2⟩
    | cons d ds =>
      exact .inr ⟨d, List.mem_cons_self _ _, ((List.chain'_cons.1 s).1).resolve_left (by simp [hf]), h.2.1⟩
  have hend : b.endAddr = c.endAddr := by
    rcases last hb sb hbf, last hc sc hcf with ⟨⟨rfl, hb'⟩ | ⟨d, hd, hdf, hda⟩, ⟨rfl, hc'⟩ | ⟨d', hd', hdf', hda'⟩⟩
    · rw [hb', hc']
    · rcases List.mem_cons.1 ((hu d' hdf').2 (List.mem_cons_of_mem _ hd')) with h | h
      · rw [h, hbf] at hdf'; cases hdf'
      · cases h
    · rcases List.mem_cons.1 ((hu d hdf).1 (List.mem_cons_of_mem _ hd)) with h | h
      · rw [h, hcf] at hdf; cases hdf
      · cases h
    · have h1 := (hu d hdf).1 (List.mem_cons_of_mem _ hd)
      have h2 := (hu d' hdf').2 (List.mem_cons_of_mem _ hd')
      rcases List.mem_cons.1 h1 with h1 | h1
      · rw [h1, hcf] at hdf; cases hdf
      rcases List.mem_cons.1 h2 with h2 | h2
      · rw [h2, hbf] at hdf'; cases hdf'
      have := (hc.2.bounds h1).1
      have := (hb.2.bounds h2).1
      omega
  cases b
  cases c
  simp only [Blk.endAddr] at hbc hend hbf hcf
  subst hbf hcf
  simp only [Blk.mk.injEq, and_true]
  omega

/-- **A separated tiling is decided by its used blocks.** -/
theorem Tiles.eq_of_used {a e : Nat} {bs cs : List Blk} (hb : Tiles a bs e) (hc : Tiles a cs e)
    (sb : Separated bs) (sc : Separated cs) (hu : ∀ u : Blk, u.free = false → (u ∈ bs ↔ u ∈ cs)) :
    bs = cs := by
  induction bs generalizing a cs with
  | nil =>
    cases cs with
    | nil => rfl
    | cons c cs =>
      have h1 : a = e := hb
      have h2 := hc.2.le
      simp only [Blk.endAddr, hc.1] at h2
      omega
  | cons b bs ih =>
    cases cs with
    | nil =>
      have h1 : a = e := hc
      have h2 := hb.2.le
      simp only [Blk.endAddr, hb.1] at h2
      omega
    | cons c cs =>
      obtain rfl := hb.head_eq_of_used hc sb sc hu
      refine congrArg _ (ih hb.2 hc.2 sb.tail sc.tail fun u hf => ?_)
      have hub : ∀ {l : List Blk}, Tiles a (b :: l) e → u ∈ l → u ≠ b := fun h hm e' =>
        absurd (h.addr_lt hm) (by rw [e']; omega)
      constructor
      · intro hm
        exact ((List.mem_cons.1 ((hu u hf).1 (List.mem_cons_of_mem _ hm))).resolve_left (hub hb hm))
      · intro hm
        exact ((List.mem_cons.1 ((hu u hf).2 (List.mem_cons_of_mem _ hm))).resolve_left (hub hc hm))

/-! ## Every run without `krealloc` -/

/-- The calls of a well-behaved client other than `krealloc`. -/
def Call.Plain (live : List (BitVec 32)) : Call → Prop
  | .krealloc _ _ => False
  | c => c.Bounded live

/-- An allocating call that returned `p`, with `NULL` leaving the heap
alone and anything else carved by first fit, keeps a separated
representation whose used blocks are the live allocations. -/
theorem separated_of_alloc {h h' : Heap} {bs : List Blk} {live : List (BitVec 32)} {size : Nat}
    {p : BitVec 32} (hR : Rep h bs) (hl : live.Perm (payloads bs)) (hs : Separated bs)
    (hc : p = 0 ∧ h' = h ∨ ∃ r, alloc size bs = some r ∧ p = BitVec.ofNat 32 (r.2 + 16) ∧ Rep h' r.1) :
    ∃ bs', Rep h' bs' ∧ (if p = 0 then live else p :: live).Perm (payloads bs') ∧ Separated bs' := by
  rcases hc with ⟨rfl, rfl⟩ | ⟨r, ha, rfl, hR'⟩
  · exact ⟨bs, hR, by rwa [if_pos rfl], hs⟩
  · rw [if_neg (kmalloc_payload hR' ha).2]
    exact ⟨r.1, hR', (alloc_live ha hl).1, hs.alloc ha⟩

/-- Each call of such a client keeps a separated representation whose
used blocks are the live allocations, and comes back with one turn of fuel
per block and one more. -/
theorem call_separated {h : Heap} {live : List (BitVec 32)} {bs : List Blk} {c : Call} {fuel : Nat}
    (hR : Rep h bs) (hl : live.Perm (payloads bs)) (hs : Separated bs) (hok : c.Plain live)
    (hf : bs.length < fuel) :
    ∃ h' r, c.run fuel h = .ok (h', r) ∧
      ∃ bs', Rep h' bs' ∧ (c.live live r).Perm (payloads bs') ∧ Separated bs' := by
  cases c with
  | kmalloc n =>
    obtain ⟨h', p, hk, hc⟩ := kmalloc_rep hR hok hf
    refine ⟨h', p, hk, @separated_of_alloc _ _ _ _ ((n.toNat + 7) / 8 * 8) _ hR hl hs ?_⟩
    rcases hc with ⟨-, rfl, rfl⟩ | ⟨r, -, ha, rfl, hR', -⟩
    exacts [.inl ⟨rfl, rfl⟩, .inr ⟨r, ha, rfl, hR'⟩]
  | kmallocAligned n a => exact hok.elim
  | kcalloc c n =>
    obtain ⟨h', p, hk, hc⟩ := kcalloc_rep hR hok.1 hok.2 hf
    exact ⟨h', p, hk, separated_of_alloc hR hl hs (hc.imp (fun h => h.2) fun ⟨r, ha, hp, hR', _⟩ => ⟨r, ha, hp, hR'⟩)⟩
  | krealloc p n => exact hok.elim
  | kfree p =>
    rcases hok with rfl | hp
    · have h0 := kfree_null fuel hR hl
      exact ⟨h, 0, by simp only [Call.run, h0.1, Except.map], bs, hR, by rwa [Call.live, h0.2], hs⟩
    · obtain ⟨L, b, R, rfl, hbf, rfl⟩ := mem_payloads (hl.subset hp)
      obtain ⟨h', hk, hR', -⟩ := kfree_rep hR hbf hf.le
      refine ⟨h', 0, by simp only [Call.run, hk, Except.map], _, hR', payloads_kfree hl hbf, ?_⟩
      exact Separated.freeAt (by rwa [List.reverse_reverse])

/-- **Without `krealloc`, no two free blocks are ever neighbours.** Every
heap a well-behaved client reaches from `mm_init` by calls other than
`krealloc` represents a separated block list whose used blocks are its
live allocations. -/
theorem heap_separated_without_krealloc {h : Heap} {live : List (BitVec 32)}
    (hr : Reachable Call.Plain h live) : ∃ bs, Rep h bs ∧ live.Perm (payloads bs) ∧ Separated bs := by
  induction hr with
  | init m => exact ⟨_, mmInit_rep m, by simp [payloads], List.chain'_singleton _⟩
  | call fuel _ hok hrun ih =>
    obtain ⟨bs, hR, hl, hs⟩ := ih
    obtain ⟨h'', r', e, hI⟩ := call_separated hR hl hs hok (Nat.lt_succ_of_le (le_max_right fuel bs.length))
    rw [Call.run_mono (le_trans (le_max_left _ _) (Nat.le_succ _)) hrun, Except.ok.injEq,
      Prod.mk.injEq] at e
    obtain ⟨rfl, rfl⟩ := e
    exact hI

/-- After `mm_init` and `kmalloc (8)`, the heap is separated. -/
theorem separated_after_kmalloc_eight :
    ∃ h, Reachable Call.Plain h [0x200010] ∧
      ∃ bs, Rep h bs ∧ [0x200010].Perm (payloads bs) ∧ Separated bs := by
  have hr : Reachable Call.Plain _ [0x200010] :=
    .call (c := .kmalloc 8) 2 (.init fun _ => 0) (show (8 : BitVec 32).toNat ≤ 2 ^ 32 - 8 by decide) rfl
  exact ⟨_, hr, heap_separated_without_krealloc hr⟩

/-! ## Blocks handed out and not yet freed

A client that allocates some blocks from a separated heap and frees them
later keeps a separated heap whose used blocks are those it started from
and the ones it still holds (`Pending`). When it has freed all of them,
the heap represents the list it started from (`Pending.rep_nil`), and
`mem_stats` is as it was but for the two counts, which have both grown by
the number of blocks handed out (`Pending.stats_nil`). First fit decides
that number: it is how many of the requests it serves in turn (`served`). -/

/-- The list first fit leaves after a request of `size` bytes: the carved
list, or `bs` itself when no free block holds the request. -/
def afterAlloc (size : Nat) (bs : List Blk) : List Blk := ((alloc size bs).map Prod.fst).getD bs

/-- How many of the requests `sizes`, made in turn from the list `bs`,
first fit serves. -/
def served : List Nat → List Blk → Nat
  | [], _ => 0
  | size :: sizes, bs => (if (alloc size bs).isSome then 1 else 0) + served sizes (afterAlloc size bs)

theorem served_le : ∀ (sizes : List Nat) (bs : List Blk), served sizes bs ≤ sizes.length
  | [], _ => le_rfl
  | size :: sizes, bs => by
    have := served_le sizes (afterAlloc size bs)
    simp only [served, List.length_cons]
    split <;> omega

/-- The pointer handed out for the block `G`: its payload, or `NULL` for none. -/
def ptrOf (G : Option Blk) : BitVec 32 := G.elim 0 fun U => BitVec.ofNat 32 (U.addr + 16)

/-- The blocks held, `NULL`s left out. -/
def held (Gs : List (Option Blk)) : List Blk := Gs.filterMap id

@[simp] theorem held_nil : held [] = [] := rfl
@[simp] theorem held_cons_none (Gs : List (Option Blk)) : held (none :: Gs) = held Gs := rfl
@[simp] theorem held_cons_some (U : Blk) (Gs : List (Option Blk)) : held (some U :: Gs) = U :: held Gs := rfl
@[simp] theorem held_append (Gs Gs' : List (Option Blk)) : held (Gs ++ Gs') = held Gs ++ held Gs' :=
  List.filterMap_append Gs Gs' id

/-- `mem_stats` after `s0` once blocks of `size` bytes in all are held,
`allocs` blocks were handed out and `frees` taken back. -/
def MemStats.ledger (s0 : MemStats) (size allocs frees : Nat) : MemStats :=
  { s0 with
    usedMemory := s0.usedMemory + BitVec.ofNat 32 size, freeMemory := s0.freeMemory - BitVec.ofNat 32 size,
    numAllocations := s0.numAllocations + BitVec.ofNat 32 allocs, numFrees := s0.numFrees + BitVec.ofNat 32 frees }

theorem MemStats.ledger_zero (s0 : MemStats) : s0.ledger 0 0 0 = s0 := by
  simp [MemStats.ledger]

theorem MemStats.ledger_charge (s0 : MemStats) (size allocs frees s : Nat) :
    (s0.ledger size allocs frees).charge (BitVec.ofNat 32 s) = s0.ledger (size + s) (allocs + 1) frees := by
  simp only [MemStats.ledger, MemStats.charge, BitVec.ofNat_add, add_assoc, sub_sub]
  rfl

theorem MemStats.ledger_credit (s0 : MemStats) (size allocs frees s : Nat) :
    (s0.ledger (s + size) allocs frees).credit (BitVec.ofNat 32 s) = s0.ledger size allocs (frees + 1) := by
  simp only [MemStats.ledger, MemStats.credit, BitVec.ofNat_add]
  congr 1 <;> abel

/-- An allocating call that returned `p`, with `NULL` leaving the heap
alone when no block fits and anything else carved by first fit and charged
to the counters, handed out the new used block if first fit served it, and
kept the list separated. -/
theorem used_of_alloc {h h' : Heap} {bs : List Blk} {size : Nat} {p : BitVec 32} (hR : Rep h bs)
    (hs : Separated bs)
    (hc : alloc size bs = none ∧ p = 0 ∧ h' = h ∨ ∃ r, alloc size bs = some r ∧ p = BitVec.ofNat 32 (r.2 + 16) ∧
      Rep h' r.1 ∧ h'.memStats = h.memStats.charge (field h'.mem (p - sizeofMemBlock) .size)) :
    ∃ G, Rep h' (afterAlloc size bs) ∧ Separated (afterAlloc size bs) ∧
      (afterAlloc size bs).length ≤ bs.length + served [size] bs ∧ p = ptrOf G ∧
      (held [G]).length = served [size] bs ∧ (∀ U ∈ G, U.free = false ∧ U ∉ bs) ∧
      (∀ u : Blk, u.free = false → (u ∈ afterAlloc size bs ↔ u ∈ bs ∨ u ∈ G)) ∧
      h'.memStats = G.elim h.memStats fun U => h.memStats.charge (BitVec.ofNat 32 U.size) := by
  rcases hc with ⟨ha, rfl, rfl⟩ | ⟨r, ha, rfl, hR', hst⟩
  · have e : afterAlloc size bs = bs := by rw [afterAlloc, ha]; rfl
    rw [e]
    exact ⟨none, hR, hs, by omega, rfl, by simp [served, ha], fun _ h => absurd h (Option.not_mem_none _),
      fun _ _ => (or_iff_left (Option.not_mem_none _)).symm, rfl⟩
  · have e : afterAlloc size bs = r.1 := by rw [afterAlloc, ha]; rfl
    obtain ⟨U, hUa, hUf, hUn, hu⟩ := used_mem_alloc hR.tiles ha
    have hU : U ∈ r.1 := (hu U hUf).2 (.inr rfl)
    rw [e]
    refine ⟨some U, hR', hs.alloc ha, by simpa [served, ha] using alloc_length ha,
      by rw [ptrOf, Option.elim, hUa], by simp [served, ha], ?_, ?_, ?_⟩
    · rintro _ ⟨⟩
      exact ⟨hUf, hUn⟩
    · intro u hf
      rw [hu u hf, Option.mem_def, Option.some_inj, eq_comm]
    · rw [hst, ← hUa, (hR'.payload_size hU).1]
      rfl

/-- `kfree` of the block `G` handed out, or of `NULL`, on a separated heap:
the used blocks lose exactly it, and the counters take it back. -/
theorem kfree_used {h : Heap} {bs : List Blk} {G : Option Blk} {fuel : Nat} (hR : Rep h bs)
    (hs : Separated bs) (hG : ∀ U ∈ G, U ∈ bs ∧ U.free = false) (hf : bs.length ≤ fuel) :
    ∃ h', kfree fuel h (ptrOf G) = .ok h' ∧ (∃ bs', Rep h' bs' ∧ Separated bs' ∧
      bs'.length ≤ bs.length ∧ ∀ u : Blk, u.free = false → (u ∈ bs' ↔ u ∈ bs ∧ u ∉ G)) ∧
      h'.memStats = G.elim h.memStats fun U => h.memStats.credit (BitVec.ofNat 32 U.size) := by
  cases G with
  | none =>
    exact ⟨h, by simp [ptrOf, kfree], ⟨bs, hR, hs, le_rfl, fun _ _ => (and_iff_left (Option.not_mem_none _)).symm⟩,
      rfl⟩
  | some U =>
    obtain ⟨hU, hUf⟩ := hG U rfl
    have hst : ∀ {h'}, kfree fuel h (ptrOf (some U)) = .ok h' →
        h'.memStats = h.memStats.credit (BitVec.ofNat 32 U.size) := kfree_memStats_used hR hU hUf
    obtain ⟨L, R, rfl⟩ := List.append_of_mem hU
    obtain ⟨h', hk, hR', -⟩ := kfree_rep hR hUf hf
    obtain ⟨x, hL, hx, hUR⟩ := tiles_append.1 hR.tiles
    refine ⟨h', hk, ⟨_, hR', Separated.freeAt (by rwa [List.reverse_reverse]),
      (length_freeAt_le _ _ _).trans (by simp), fun u hu => ?_⟩, hst hk⟩
    have hLU : u ∈ L → U ≠ u := fun hm e => by
      have := (hL.bounds hm).2
      rw [← e] at this
      simp only [Blk.endAddr] at this
      omega
    have hRU : u ∈ R → U ≠ u := fun hm e => absurd ((tiles_cons.2 ⟨hx, hUR⟩).addr_lt hm) (by rw [e]; omega)
    rw [used_mem_freeAt hu, List.mem_reverse, List.mem_append, List.mem_cons, Option.mem_def,
      Option.some_inj]
    constructor
    · rintro (hm | hm)
      exacts [⟨.inl hm, hLU hm⟩, ⟨.inr (.inr hm), hRU hm⟩]
    · rintro ⟨(hm | rfl | hm), hne⟩
      exacts [.inl hm, absurd rfl hne, .inr hm]

/-- The heap represents `bs` after a client, starting from the list `bs0`
and the counters `s0`, was handed `k` blocks and still holds the blocks
`Gs` of its allocating calls (`none` for a `NULL`), oldest first: a
separated list at most `k` blocks longer, whose used blocks are those of
`bs0` and the held ones, which are distinct and were not used in `bs0`;
the counters hold the held bytes as used, count the `k` blocks handed out,
and count as freed those handed out and no longer held. -/
structure PendingAt (h : Heap) (bs0 : List Blk) (s0 : MemStats) (k : Nat) (Gs : List (Option Blk))
    (bs : List Blk) : Prop where
  rep : Rep h bs
  separated : Separated bs
  length : bs.length ≤ bs0.length + k
  fresh : ∀ G ∈ Gs, ∀ U ∈ G, U.free = false ∧ U ∉ bs0
  disjoint : Gs.Pairwise fun G G' => ∀ U ∈ G, U ∉ G'
  used : ∀ u : Blk, u.free = false → (u ∈ bs ↔ u ∈ bs0 ∨ ∃ G ∈ Gs, u ∈ G)
  held_le : (held Gs).length ≤ k
  stats : h.memStats = s0.ledger ((held Gs).map Blk.size).sum k (k - (held Gs).length)

/-- Some list the heap represents is as `PendingAt` says. -/
def Pending (h : Heap) (bs0 : List Blk) (s0 : MemStats) (k : Nat) (Gs : List (Option Blk)) : Prop :=
  ∃ bs, PendingAt h bs0 s0 k Gs bs

section Pending

variable {h : Heap} {bs0 : List Blk} {s0 : MemStats} {k : Nat} {Gs : List (Option Blk)}

theorem PendingAt.start (hR : Rep h bs0) (hs : Separated bs0) : PendingAt h bs0 h.memStats 0 [] bs0 :=
  ⟨hR, hs, le_rfl, fun _ h => absurd h (List.not_mem_nil _), .nil, fun _ _ => by simp, le_rfl,
    (MemStats.ledger_zero _).symm⟩

/-- One more allocating call: the block it hands out, if first fit served
it, is held. -/
theorem PendingAt.alloc {bs : List Blk} {h' : Heap} {size : Nat} {p : BitVec 32}
    (hp : PendingAt h bs0 s0 k Gs bs)
    (hc : alloc size bs = none ∧ p = 0 ∧ h' = h ∨ ∃ r, alloc size bs = some r ∧ p = BitVec.ofNat 32 (r.2 + 16) ∧
      Rep h' r.1 ∧ h'.memStats = h.memStats.charge (field h'.mem (p - sizeofMemBlock) .size)) :
    ∃ G, p = ptrOf G ∧ PendingAt h' bs0 s0 (k + served [size] bs) (Gs ++ [G]) (afterAlloc size bs) := by
  obtain ⟨G, hR', hs', hl', rfl, hn, hG, hnew, hst'⟩ := used_of_alloc hp.rep hp.separated hc
  -- what is held was used before the call, so it is not the new block
  have held' : ∀ G' ∈ Gs, ∀ U ∈ G', U ∉ G := fun G' hG' U hU hUG =>
    (hG U hUG).2 ((hp.used U (hp.fresh G' hG' U hU).1).2 (.inr ⟨G', hG', hU⟩))
  have hlen : (held (Gs ++ [G])).length = (held Gs).length + served [size] bs := by
    rw [held_append, List.length_append, hn]
  refine ⟨G, rfl, hR', hs', by have := hp.length; omega, fun G' hG' U hU => ?_,
    List.pairwise_append.2 ⟨hp.disjoint, List.pairwise_singleton _ _, fun G' hG' G'' hG'' => ?_⟩, fun u hf => ?_,
    by have := hp.held_le; omega, ?_⟩
  · rcases List.mem_append.1 hG' with hG' | hG'
    · exact hp.fresh G' hG' U hU
    · rw [List.mem_singleton.1 hG'] at hU
      exact ⟨(hG U hU).1, fun h0 => (hG U hU).2 ((hp.used U (hG U hU).1).2 (.inl h0))⟩
  · rw [List.mem_singleton.1 hG'']
    exact held' G' hG'
  · rw [hnew u hf, hp.used u hf]
    simp only [List.mem_append, List.mem_singleton, or_and_right, exists_or, exists_eq_left, or_assoc]
  · rw [hlen, ← hn, hst', hp.stats]
    cases G with
    | none => simp
    | some U =>
      rw [Option.elim, MemStats.ledger_charge]
      simp [Nat.add_sub_add_right]

/-- `kmalloc` of a nonzero size hands out one more block, if first fit
serves the rounded size, or `NULL`. -/
theorem PendingAt.kmalloc {bs : List Blk} (hp : PendingAt h bs0 s0 k Gs bs) (fuel : Nat) {n : BitVec 32}
    (hn0 : n ≠ 0) (hn : n.toNat ≤ 2 ^ 32 - 8) (hf : bs0.length + k < fuel) :
    ∃ h' G, Mm.kmalloc fuel h n = .ok (h', ptrOf G) ∧ PendingAt h' bs0 s0 (k + served [(n.toNat + 7) / 8 * 8] bs)
      (Gs ++ [G]) (afterAlloc ((n.toNat + 7) / 8 * 8) bs) := by
  obtain ⟨h', p, hk, hc⟩ := @kmalloc_rep _ _ _ fuel hp.rep hn (by have := hp.length; omega)
  have hc' : Mm.alloc ((n.toNat + 7) / 8 * 8) bs = none ∧ p = 0 ∧ h' = h ∨
      ∃ r, Mm.alloc ((n.toNat + 7) / 8 * 8) bs = some r ∧ p = BitVec.ofNat 32 (r.2 + 16) ∧ Rep h' r.1 ∧
        h'.memStats = h.memStats.charge (field h'.mem (p - sizeofMemBlock) .size) := by
    rcases hc with ⟨hnone, rfl, rfl⟩ | ⟨r, -, ha, rfl, hR', -⟩
    · exact .inl ⟨hnone.resolve_left hn0, rfl, rfl⟩
    · exact .inr ⟨r, ha, rfl, hR', (kmalloc_memStats hk).resolve_left fun ⟨_, h0⟩ => (kmalloc_payload hR' ha).2 h0⟩
  obtain ⟨G, rfl, hp'⟩ := hp.alloc hc'
  exact ⟨h', G, hk, hp'⟩

/-- `kcalloc` of a nonzero product hands out one more block, if first fit
serves the rounded product, or `NULL`. -/
theorem PendingAt.kcalloc {bs : List Blk} (hp : PendingAt h bs0 s0 k Gs bs) (fuel : Nat) {c n : BitVec 32}
    (hc0 : c ≠ 0) (hcn0 : c * n ≠ 0) (hcn : c.toNat * n.toNat ≤ 2 ^ 32 - 8) (hf : bs0.length + k < fuel) :
    ∃ h' G, Mm.kcalloc fuel h c n = .ok (h', ptrOf G) ∧ PendingAt h' bs0 s0
      (k + served [((c * n).toNat + 7) / 8 * 8] bs) (Gs ++ [G]) (afterAlloc (((c * n).toNat + 7) / 8 * 8) bs) := by
  obtain ⟨h', p, hk, hc⟩ := @kcalloc_rep _ _ _ _ fuel hp.rep hc0 hcn (by have := hp.length; omega)
  obtain ⟨G, rfl, hp'⟩ := hp.alloc (hc.imp_left fun ⟨hnone, e⟩ => ⟨hnone.resolve_left hcn0, e⟩)
  exact ⟨h', G, hk, hp'⟩

theorem PendingAt.pending {bs : List Blk} (hp : PendingAt h bs0 s0 k Gs bs) : Pending h bs0 s0 k Gs := ⟨bs, hp⟩

/-- `kfree` of the oldest block held, or of `NULL`, lets it go. -/
theorem Pending.kfree {G : Option Blk} (hp : Pending h bs0 s0 k (G :: Gs)) (fuel : Nat)
    (hf : bs0.length + k ≤ fuel) :
    ∃ h', Mm.kfree fuel h (ptrOf G) = .ok h' ∧ Pending h' bs0 s0 k Gs := by
  obtain ⟨bs, hp⟩ := hp
  have hG : ∀ U ∈ G, U ∈ bs ∧ U.free = false := fun U hU =>
    ⟨(hp.used U (hp.fresh G (List.mem_cons_self _ _) U hU).1).2 (.inr ⟨G, List.mem_cons_self _ _, hU⟩),
      (hp.fresh G (List.mem_cons_self _ _) U hU).1⟩
  obtain ⟨h', hk, ⟨bs', hR', hs', hl', hu⟩, hst'⟩ := kfree_used hp.rep hp.separated hG (hp.length.trans hf)
  obtain ⟨hGs, hd⟩ := List.pairwise_cons.1 hp.disjoint
  have hle := hp.held_le
  refine ⟨h', hk, bs', hR', hs', hl'.trans hp.length, fun G' hG' => hp.fresh G' (List.mem_cons_of_mem _ hG'), hd,
    fun u hu' => ?_, by cases G <;> simp at hle ⊢ <;> omega, ?_⟩
  · rw [hu u hu', hp.used u hu']
    constructor
    · rintro ⟨h0 | ⟨G', hG', hu0⟩, hn⟩
      · exact .inl h0
      · rcases List.mem_cons.1 hG' with rfl | hG'
        · exact absurd hu0 hn
        · exact .inr ⟨G', hG', hu0⟩
    · rintro (h0 | ⟨G', hG', hu0⟩)
      · exact ⟨.inl h0, fun hG0 => (hp.fresh G (List.mem_cons_self _ _) u hG0).2 h0⟩
      · exact ⟨.inr ⟨G', List.mem_cons_of_mem _ hG', hu0⟩, fun hG0 => hGs G' hG' u hG0 hu0⟩
  · rw [hst', hp.stats]
    cases G with
    | none => rfl
    | some U =>
      simp only [held_cons_some, List.length_cons, List.map_cons, List.sum_cons] at hle ⊢
      rw [Option.elim, MemStats.ledger_credit]
      congr 1
      omega

/-- With every block freed, the heap represents the list it started from. -/
theorem Pending.rep_nil (hp : Pending h bs0 s0 k []) (ht : Tiles 0x200000 bs0 0x300000) (hs : Separated bs0) :
    Rep h bs0 := by
  obtain ⟨bs, hp⟩ := hp
  have e : bs = bs0 := Tiles.eq_of_used hp.rep.tiles ht hp.separated hs fun u hu => by
    simpa using hp.used u hu
  exact e ▸ hp.rep

/-- With every block freed, the counters are those it started from, but
for the number of allocations and of frees, which have both grown by the
number of blocks handed out. -/
theorem Pending.stats_nil (hp : Pending h bs0 s0 k []) :
    h.memStats = { s0 with
      numAllocations := s0.numAllocations + BitVec.ofNat 32 k, numFrees := s0.numFrees + BitVec.ofNat 32 k } := by
  obtain ⟨_, hp⟩ := hp
  simpa [MemStats.ledger] using hp.stats

end Pending

end MiniCore.Mm
