import Mathlib.Tactic

/-!
# The arena as a list of blocks

What `mm.c` is for, said without its pointers. The arena is a list of
blocks in address order; each is a 16-byte header and a payload, and
together they TILE the arena (`Tiles`). The allocator's three operations are
operations on that list:

* `alloc`: first fit. The first free block large enough for the request is
  cut by `split` and marked used;
* `split`: a block that exceeds a request by more than a header and 32 bytes
  gives its tail away as a new free block right after it (`Blk.shrink`,
  `Blk.rest`);
* `freeAt`: a used block becomes free and then coalesces, first with the
  free blocks after it (`absorbFree`), then into the free blocks before it
  (`absorbIntoFree`), as the two loops of `merge_free_blocks` do.

The used blocks are what the client holds (`used`). Every operation keeps
the tiling, and each changes `used` by exactly the block it hands out or
takes back.

**The law** (`freeAt_single`): freeing a block when every other block is
free leaves ONE block. Hence `Coalesced`, "no used block means one block",
holds after every operation.

What this does NOT say: that two free blocks are never adjacent. The
in-place `split` of `krealloc` makes a free tail next to whatever follows,
and nothing merges them until a neighbour is freed.

`MiniCore.Mm.Layout` shows that the headers in memory represent such a list,
and `MiniCore.Mm.Refine` that each function of `mm.c` performs the list
operation on it.
-/

namespace MiniCore.Mm

/-- A block of the arena as the list of `mm.c` sees it: where its header
starts, how many payload bytes follow the header, and its `is_free` flag. -/
structure Blk where
  addr : Nat
  size : Nat
  free : Bool
  deriving DecidableEq, Repr

namespace Blk

/-- The first address after the block's payload. -/
def endAddr (b : Blk) : Nat := b.addr + 16 + b.size

/-- Whether `b` serves a request of `size` bytes: free and large enough. -/
def fits (b : Blk) (size : Nat) : Bool := b.free && decide (size ≤ b.size)

theorem fits_eq_false {b : Blk} {size : Nat} (h : b.free → b.size < size) : b.fits size = false := by
  cases hb : b.free
  · simp [fits, hb]
  · simpa [fits, hb] using h hb

theorem fits_of_le {b : Blk} {size : Nat} (hb : b.free) (h : size ≤ b.size) : b.fits size := by
  simp [fits, hb, h]

/-- What `split_block` leaves of `b` for a request of `size` bytes. -/
def shrink (b : Blk) (size : Nat) : Blk :=
  if size + 16 + 32 < b.size then { b with size := size } else b

/-- The free block `split_block` makes of the tail of `b`, if it cuts. -/
def rest (b : Blk) (size : Nat) : List Blk :=
  if size + 16 + 32 < b.size then [⟨b.addr + 16 + size, b.size - size - 16, true⟩] else []

/-- `b` absorbs the block `c` right after it, header and all. -/
def absorb (b c : Blk) : Blk := { b with size := b.size + (c.size + 16) }

@[simp] theorem absorb_addr (b c : Blk) : (b.absorb c).addr = b.addr := rfl
@[simp] theorem absorb_free (b c : Blk) : (b.absorb c).free = b.free := rfl
@[simp] theorem shrink_addr (b : Blk) (size : Nat) : (b.shrink size).addr = b.addr := by
  unfold shrink; split <;> rfl
@[simp] theorem shrink_free (b : Blk) (size : Nat) : (b.shrink size).free = b.free := by
  unfold shrink; split <;> rfl

/-- The block that `shrink` leaves is still at least the request. -/
theorem le_shrink_size {b : Blk} {size : Nat} (h : size ≤ b.size) : size ≤ (b.shrink size).size := by
  unfold shrink; split <;> simp [h]

theorem rest_free {b : Blk} {size : Nat} : ∀ c ∈ b.rest size, c.free := by
  unfold rest; split <;> simp

end Blk

/-! ## Tiling -/

/-- The blocks `bs` lie back to back from `a` to `e`: each header starts
where the previous payload ends. -/
def Tiles : Nat → List Blk → Nat → Prop
  | a, [], e => a = e
  | a, b :: bs, e => b.addr = a ∧ Tiles b.endAddr bs e

@[simp] theorem tiles_nil {a e : Nat} : Tiles a [] e ↔ a = e := Iff.rfl

@[simp] theorem tiles_cons {a e : Nat} {b : Blk} {bs : List Blk} :
    Tiles a (b :: bs) e ↔ b.addr = a ∧ Tiles b.endAddr bs e := Iff.rfl

theorem tiles_append {a e : Nat} {L R : List Blk} :
    Tiles a (L ++ R) e ↔ ∃ x, Tiles a L x ∧ Tiles x R e := by
  induction L generalizing a with
  | nil => simp
  | cons b L ih => simp only [List.cons_append, tiles_cons, ih, exists_and_left, and_assoc]

theorem Tiles.le {a e : Nat} {bs : List Blk} (h : Tiles a bs e) : a ≤ e := by
  induction bs generalizing a with
  | nil => exact le_of_eq h
  | cons c bs ih =>
    obtain ⟨rfl, h⟩ := h
    have := ih h
    simp only [Blk.endAddr] at this
    omega

/-- Every block takes at least its 16-byte header, so a tiling of `[a, e)`
has at most `(e - a) / 16` blocks. -/
theorem Tiles.length_le {a e : Nat} {bs : List Blk} (h : Tiles a bs e) : a + 16 * bs.length ≤ e := by
  induction bs generalizing a with
  | nil => exact le_of_eq h
  | cons c bs ih =>
    obtain ⟨rfl, h⟩ := h
    have := ih h
    simp only [Blk.endAddr, List.length_cons] at this ⊢
    omega

/-- Every block of a tiling lies inside it. -/
theorem Tiles.bounds {a e : Nat} {bs : List Blk} (h : Tiles a bs e) {b : Blk} (hb : b ∈ bs) :
    a ≤ b.addr ∧ b.endAddr ≤ e := by
  induction bs generalizing a with
  | nil => simp at hb
  | cons c bs ih =>
    obtain ⟨rfl, h⟩ := h
    rcases List.mem_cons.1 hb with rfl | hb
    · exact ⟨le_rfl, h.le⟩
    · have := ih h hb
      simp only [Blk.endAddr] at this ⊢
      omega

/-- The blocks of a tiling are in address order: each ends where, or
before, every later one begins. -/
theorem Tiles.pairwise {a e : Nat} {bs : List Blk} (h : Tiles a bs e) :
    bs.Pairwise fun c d => c.endAddr ≤ d.addr := by
  induction bs generalizing a with
  | nil => exact .nil
  | cons c bs ih =>
    obtain ⟨rfl, h⟩ := h
    exact .cons (fun d hd => (h.bounds hd).1) (ih h)

/-- A tiling does not see the `is_free` flags. -/
theorem tiles_cons_setFree {a e : Nat} {b : Blk} {bs : List Blk} (x : Bool) :
    Tiles a ({ b with free := x } :: bs) e ↔ Tiles a (b :: bs) e := Iff.rfl

/-- `split_block` keeps the tiling: the two pieces cover the old block. -/
theorem tiles_split {b : Blk} {size e : Nat} {R : List Blk} (h : Tiles b.endAddr R e) : Tiles b.addr (b.shrink size :: (b.rest size ++ R)) e := by
  unfold Blk.shrink Blk.rest
  split
  · have : b.addr + 16 + size + 16 + (b.size - size - 16) = b.endAddr := by
      simp only [Blk.endAddr]; omega
    simpa [Blk.endAddr, this] using h
  · simpa using h

/-- A block absorbing its successor keeps the tiling. -/
theorem tiles_absorb {a e : Nat} {b c : Blk} {R : List Blk} (h : Tiles a (b :: c :: R) e) :
    Tiles a (b.absorb c :: R) e := by
  obtain ⟨hb, hc, h⟩ := h
  have : (b.absorb c).endAddr = c.endAddr := by simp only [Blk.endAddr, Blk.absorb] at *; omega
  exact ⟨hb, this ▸ h⟩

/-! ## The used blocks -/

/-- The header addresses of the used blocks, in address order. -/
def used (bs : List Blk) : List Nat := (bs.filter fun b => !b.free).map Blk.addr

@[simp] theorem used_nil : used [] = [] := rfl

@[simp] theorem used_cons (b : Blk) (bs : List Blk) :
    used (b :: bs) = if b.free then used bs else b.addr :: used bs := by
  cases h : b.free <;> simp [used, List.filter_cons, h]

@[simp] theorem used_append (L R : List Blk) : used (L ++ R) = used L ++ used R := by
  simp [used, List.filter_append]

/-- No block is used exactly when all are free. -/
theorem used_eq_nil {bs : List Blk} : used bs = [] ↔ ∀ b ∈ bs, b.free := by
  induction bs with
  | nil => simp
  | cons b bs ih => cases h : b.free <;> simp [h, ih]

theorem mem_used {bs : List Blk} {a : Nat} : a ∈ used bs ↔ ∃ c ∈ bs, c.free = false ∧ c.addr = a := by
  simp [used, and_assoc]

/-- The used blocks of a tiling are at distinct addresses. -/
theorem Tiles.used_nodup {a e : Nat} {bs : List Blk} (h : Tiles a bs e) : (used bs).Nodup := by
  induction bs generalizing a with
  | nil => simp
  | cons b bs ih =>
    obtain ⟨rfl, h⟩ := h
    rw [used_cons]
    split
    · exact ih h
    · refine List.nodup_cons.2 ⟨fun hb => ?_, ih h⟩
      obtain ⟨c, hc, -, hca⟩ := mem_used.1 hb
      have := (h.bounds hc).1
      simp only [Blk.endAddr] at this
      omega

theorem used_rest (b : Blk) (size : Nat) : used (b.rest size) = [] :=
  used_eq_nil.2 Blk.rest_free

/-! ## First fit -/

/-- What `kmalloc` makes of the block it finds: `split_block`, then the
head is marked used. -/
def Blk.carve (b : Blk) (size : Nat) : List Blk :=
  { b.shrink size with free := false } :: b.rest size

/-- The split rule, spelled out: the carved block keeps the request and
hands the rest, less a header, to a new free block, when that rest exceeds
a header and 32 bytes. -/
theorem Blk.carve_eq (b : Blk) (size : Nat) :
    b.carve size = if size + 16 + 32 < b.size then
      [⟨b.addr, size, false⟩, ⟨b.addr + 16 + size, b.size - size - 16, true⟩]
    else [⟨b.addr, b.size, false⟩] := by
  unfold carve shrink rest
  split <;> rfl

/-- First fit: the list after serving `size` bytes from the first free
block large enough, and that block's header address. -/
def alloc (size : Nat) : List Blk → Option (List Blk × Nat)
  | [] => none
  | b :: bs =>
    if b.fits size then some (b.carve size ++ bs, b.addr)
    else (alloc size bs).map fun r => (b :: r.1, r.2)

/-- First fit finds nothing exactly when no block fits. -/
theorem alloc_eq_none {size : Nat} {bs : List Blk} : alloc size bs = none ↔ ∀ b ∈ bs, b.fits size = false := by
  induction bs with
  | nil => simp [alloc]
  | cons c bs ih => by_cases hc : c.fits size <;> simp [alloc, hc, ih]

/-- First fit carves the first block that fits. -/
theorem alloc_first {size : Nat} {L R : List Blk} {b : Blk} (hb : b.fits size)
    (hL : ∀ c ∈ L, c.fits size = false) : alloc size (L ++ b :: R) = some (L ++ b.carve size ++ R, b.addr) := by
  induction L with
  | nil => simp [alloc, hb]
  | cons c L ih =>
    rw [List.forall_mem_cons] at hL
    simp [alloc, hL.1, ih hL.2]

/-- When first fit succeeds, it carved one block, which fitted, in place. -/
theorem alloc_eq_some {size : Nat} {bs : List Blk} {r : List Blk × Nat}
    (h : alloc size bs = some r) :
    ∃ L b R, bs = L ++ b :: R ∧ b.fits size ∧ r = (L ++ b.carve size ++ R, b.addr) := by
  induction bs generalizing r with
  | nil => cases h
  | cons c bs ih =>
    simp only [alloc] at h
    split at h
    · exact ⟨[], c, bs, rfl, ‹_›, (Option.some.inj h).symm⟩
    · obtain ⟨r', hr', rfl⟩ := Option.map_eq_some'.1 h
      obtain ⟨L, b, R, rfl, hb, rfl⟩ := ih hr'
      exact ⟨c :: L, b, R, rfl, hb, rfl⟩

theorem tiles_carve {b : Blk} {size e : Nat} {R : List Blk} (h : Tiles b.endAddr R e) :
    Tiles b.addr (b.carve size ++ R) e :=
  tiles_split h

/-- First fit keeps the tiling. -/
theorem Tiles.alloc {a e size : Nat} {bs : List Blk} {r : List Blk × Nat} (h : Tiles a bs e)
    (hr : alloc size bs = some r) : Tiles a r.1 e := by
  obtain ⟨L, b, R, rfl, -, rfl⟩ := alloc_eq_some hr
  obtain ⟨x, hL, hx, hR⟩ := tiles_append.1 h
  rw [List.append_assoc]
  exact tiles_append.2 ⟨x, hL, hx ▸ tiles_carve hR⟩

/-- The block first fit hands out is in the new list, used, and holds the
request. -/
theorem alloc_mem {size : Nat} {bs : List Blk} {r : List Blk × Nat} (hr : alloc size bs = some r) :
    ∃ c ∈ r.1, c.addr = r.2 ∧ size ≤ c.size ∧ c.free = false := by
  obtain ⟨L, b, R, rfl, hb, rfl⟩ := alloc_eq_some hr
  simp only [Blk.fits, Bool.and_eq_true, decide_eq_true_eq] at hb
  exact ⟨{ b.shrink size with free := false }, by simp [Blk.carve], Blk.shrink_addr b size,
    Blk.le_shrink_size hb.2, rfl⟩

/-- First fit adds at most one block. -/
theorem alloc_length {size : Nat} {bs : List Blk} {r : List Blk × Nat} (hr : alloc size bs = some r) :
    r.1.length ≤ bs.length + 1 := by
  obtain ⟨L, b, R, rfl, -, rfl⟩ := alloc_eq_some hr
  simp only [Blk.carve, Blk.rest]
  split <;> simp; omega

/-- First fit leaves every used block where it was. -/
theorem mem_alloc_of_used {size : Nat} {bs : List Blk} {r : List Blk × Nat} {b : Blk}
    (hr : alloc size bs = some r) (hb : b ∈ bs) (hbu : b.free = false) : b ∈ r.1 := by
  obtain ⟨L, c, R, rfl, hc, rfl⟩ := alloc_eq_some hr
  simp only [Blk.fits, Bool.and_eq_true] at hc
  have : b ≠ c := fun e => by simp [e, hc.1] at hbu
  simp only [List.mem_append, List.mem_cons] at hb ⊢
  tauto

/-- First fit hands out exactly one block, the one at the address it returns. -/
theorem used_alloc {size : Nat} {bs : List Blk} {r : List Blk × Nat} (hr : alloc size bs = some r) :
    (used r.1).Perm (r.2 :: used bs) := by
  obtain ⟨L, b, R, rfl, hb, rfl⟩ := alloc_eq_some hr
  simp only [Blk.fits, Bool.and_eq_true, decide_eq_true_eq] at hb
  simp [Blk.carve, used_rest, hb.1, List.perm_middle]

/-- What first fit hands out was not in use. -/
theorem alloc_fresh {a e size : Nat} {bs : List Blk} {r : List Blk × Nat} (ht : Tiles a r.1 e)
    (hr : alloc size bs = some r) : r.2 ∉ used bs :=
  (List.nodup_cons.1 ((used_alloc hr).nodup_iff.1 ht.used_nodup)).1

/-! ## Freeing and coalescing -/

/-- The first loop of `merge_free_blocks`: `b` absorbs the free blocks that
follow it, up to the first used one. -/
def absorbFree (b : Blk) : List Blk → Blk × List Blk
  | [] => (b, [])
  | c :: cs => if c.free then absorbFree (b.absorb c) cs else (b, c :: cs)

/-- The second loop: with the blocks before `b` listed nearest first, each
free one in turn absorbs the block after it. -/
def absorbIntoFree : List Blk → Blk → List Blk × Blk
  | [], b => ([], b)
  | p :: ps, b => if p.free then absorbIntoFree ps (p.absorb b) else (p :: ps, b)

/-- `kfree` of the block `b`, with the blocks before it listed nearest first
in `pre` and those after it in `post`: mark it free, then coalesce. -/
def freeAt (pre : List Blk) (b : Blk) (post : List Blk) : List Blk :=
  let after := absorbFree { b with free := true } post
  let before := absorbIntoFree pre after.1
  before.1.reverse ++ before.2 :: after.2

theorem absorbFree_addr (b : Blk) (R : List Blk) : (absorbFree b R).1.addr = b.addr := by
  induction R generalizing b with
  | nil => rfl
  | cons c R ih => simp only [absorbFree]; split <;> simp [ih]

theorem absorbFree_free (b : Blk) (R : List Blk) : (absorbFree b R).1.free = b.free := by
  induction R generalizing b with
  | nil => rfl
  | cons c R ih => simp only [absorbFree]; split <;> simp [ih]

/-- The blocks `absorbFree` leaves behind are some of those it was given. -/
theorem absorbFree_snd_sublist (b : Blk) (R : List Blk) : List.Sublist (absorbFree b R).2 R := by
  induction R generalizing b with
  | nil => exact List.Sublist.slnil
  | cons c R ih =>
    simp only [absorbFree]
    split
    exacts [(ih _).cons c, List.Sublist.refl _]

theorem tiles_absorbFree {a e : Nat} {b : Blk} {R : List Blk} (h : Tiles a (b :: R) e) :
    Tiles a ((absorbFree b R).1 :: (absorbFree b R).2) e := by
  induction R generalizing b with
  | nil => exact h
  | cons c R ih => simp only [absorbFree]; split; exacts [ih (tiles_absorb h), h]

theorem used_absorbFree (b : Blk) (R : List Blk) :
    used ((absorbFree b R).1 :: (absorbFree b R).2) = used (b :: R) := by
  induction R generalizing b with
  | nil => rfl
  | cons c R ih =>
    simp only [absorbFree]
    split
    · rw [ih]; simp [*]
    · rfl

/-- With only free blocks after it, `b` absorbs them all. -/
theorem absorbFree_all {b : Blk} {R : List Blk} (h : ∀ c ∈ R, c.free) : (absorbFree b R).2 = [] := by
  induction R generalizing b with
  | nil => rfl
  | cons c R ih => simp only [absorbFree, h c (by simp), if_true]; exact ih fun d hd => h d (by simp [hd])

theorem tiles_absorbIntoFree {a e : Nat} {P R : List Blk} {b : Blk}
    (h : Tiles a (P.reverse ++ b :: R) e) :
    Tiles a ((absorbIntoFree P b).1.reverse ++ (absorbIntoFree P b).2 :: R) e := by
  induction P generalizing b with
  | nil => exact h
  | cons p P ih =>
    simp only [absorbIntoFree]
    split
    · apply ih
      obtain ⟨x, hL, hR⟩ := tiles_append.1 (by simpa using h)
      exact tiles_append.2 ⟨x, hL, tiles_absorb hR⟩
    · exact h

theorem absorbIntoFree_free {P : List Blk} {b : Blk} (hb : b.free) : (absorbIntoFree P b).2.free := by
  induction P generalizing b with
  | nil => exact hb
  | cons p P ih => simp only [absorbIntoFree]; split; exacts [ih (by simpa), hb]

theorem used_absorbIntoFree {P : List Blk} {b : Blk} (hb : b.free) :
    used (absorbIntoFree P b).1.reverse = used P.reverse := by
  induction P generalizing b with
  | nil => rfl
  | cons p P ih => simp only [absorbIntoFree]; split <;> simp [ih, *]

theorem absorbIntoFree_all {P : List Blk} {b : Blk} (h : ∀ c ∈ P, c.free) :
    (absorbIntoFree P b).1 = [] := by
  induction P generalizing b with
  | nil => rfl
  | cons p P ih =>
    simp only [absorbIntoFree, h p (by simp), if_true]; exact ih fun d hd => h d (by simp [hd])

/-- Freeing keeps the tiling. -/
theorem tiles_freeAt {a e : Nat} {P R : List Blk} {b : Blk} (h : Tiles a (P.reverse ++ b :: R) e) :
    Tiles a (freeAt P b R) e := by
  obtain ⟨x, hL, hR⟩ := tiles_append.1 h
  have hR' := tiles_absorbFree ((tiles_cons_setFree true).2 hR)
  exact tiles_absorbIntoFree (tiles_append.2 ⟨x, hL, hR'⟩)

/-- Freeing takes back exactly the freed block. -/
theorem used_freeAt (P : List Blk) (b : Blk) (R : List Blk) :
    used (freeAt P b R) = used P.reverse ++ used R := by
  have hR := used_absorbFree { b with free := true } R
  have hf : (absorbFree { b with free := true } R).1.free := by rw [absorbFree_free]
  simp only [used_cons, hf, if_true] at hR
  simp [freeAt, used_absorbIntoFree hf, absorbIntoFree_free hf, hR]

/-- **The law.** Freeing a block when every other block is free leaves one
block. -/
theorem freeAt_single {P R : List Blk} {b : Blk} (hP : ∀ c ∈ P, c.free) (hR : ∀ c ∈ R, c.free) :
    ∃ b', freeAt P b R = [b'] :=
  ⟨(absorbIntoFree P (absorbFree { b with free := true } R).1).2,
    by simp [freeAt, absorbFree_all hR, absorbIntoFree_all hP]⟩

/-! ## Freeing inside a run of free blocks -/

/-- Absorbing the blocks `B` one after the other adds their sizes and a
header each. -/
theorem foldl_absorb (B : List Blk) (c : Blk) :
    B.foldl Blk.absorb c = { c with size := c.size + (B.map Blk.size).sum + 16 * B.length } := by
  induction B generalizing c with
  | nil => simp
  | cons d B ih =>
    rw [List.foldl_cons, ih]
    simp only [Blk.absorb, List.map_cons, List.sum_cons, List.length_cons, Blk.mk.injEq, and_true,
      true_and]
    omega

/-- The blocks `A`, nearest last, each absorbing what follows it: one block
at the first of them. -/
theorem foldr_absorb (A : List Blk) (c : Blk) :
    A.foldr Blk.absorb c =
      ⟨(A.headD c).addr, (A.map Blk.size).sum + c.size + 16 * A.length, (A.headD c).free⟩ := by
  induction A with
  | nil => simp
  | cons d A ih =>
    rw [List.foldr_cons, ih]
    simp only [Blk.absorb, List.headD_cons, List.map_cons, List.sum_cons, List.length_cons, Blk.mk.injEq,
      and_true, true_and]
    omega

/-- The first loop absorbs a run of free blocks up to a used one. -/
theorem absorbFree_run {b : Blk} {B R : List Blk} (hB : ∀ c ∈ B, c.free)
    (hR : ∀ c ∈ R.head?, c.free = false) : absorbFree b (B ++ R) = (B.foldl Blk.absorb b, R) := by
  induction B generalizing b with
  | nil =>
    cases R with
    | nil => rfl
    | cons c R => simp [absorbFree, hR c rfl]
  | cons c B ih =>
    rw [List.forall_mem_cons] at hB
    simp only [List.cons_append, absorbFree, hB.1, if_true, List.foldl_cons]
    exact ih hB.2

/-- The second loop folds the block into a run of free blocks before it, up
to a used one. -/
theorem absorbIntoFree_run {b : Blk} {A L : List Blk} (hA : ∀ c ∈ A, c.free)
    (hL : ∀ c ∈ L.getLast?, c.free = false) :
    absorbIntoFree (A.reverse ++ L.reverse) b = (L.reverse, A.foldr Blk.absorb b) := by
  induction A using List.reverseRecOn generalizing b with
  | nil =>
    cases L using List.reverseRecOn with
    | nil => rfl
    | append_singleton L c _ => simp [absorbIntoFree, hL c (by simp)]
  | append_singleton A c ih =>
    have hc : c.free := hA c (by simp)
    simp only [List.reverse_append, List.reverse_singleton, List.singleton_append, List.cons_append,
      absorbIntoFree, hc, if_true, List.foldr_append, List.foldr_cons, List.foldr_nil]
    exact ih fun d hd => hA d (by simp [hd])

/-- **Freeing inside a run.** With the free blocks `A` before `b` and `B`
after it, bounded by used blocks or the ends of the list, `freeAt` replaces
the run by one free block at its first address, whose size is the run's
sizes and a header for each block but the first. -/
theorem freeAt_run {L A B R : List Blk} {b : Blk} (hA : ∀ c ∈ A, c.free) (hB : ∀ c ∈ B, c.free)
    (hL : ∀ c ∈ L.getLast?, c.free = false) (hR : ∀ c ∈ R.head?, c.free = false) :
    freeAt (L ++ A).reverse b (B ++ R) =
      L ++ ⟨(A.headD b).addr, ((A ++ b :: B).map Blk.size).sum + 16 * (A.length + B.length), true⟩ :: R := by
  simp only [freeAt, absorbFree_run hB hR, List.reverse_append, absorbIntoFree_run hA hL,
    List.reverse_reverse, foldr_absorb, foldl_absorb]
  congr 2
  cases A with
  | nil =>
    simp only [List.headD_nil, List.nil_append, List.map_nil, List.map_cons, List.sum_nil, List.sum_cons,
      Blk.mk.injEq, List.length_nil, true_and, and_true]
    omega
  | cons a A =>
    simp only [List.headD_cons, hA a (List.mem_cons_self a A), List.cons_append, List.map_cons,
      List.map_append, List.sum_cons, List.sum_append, List.length_cons, Blk.mk.injEq, true_and, and_true]
    omega

/-- No used block means one block. -/
def Coalesced (bs : List Blk) : Prop := used bs = [] → ∃ b, bs = [b]

/-- Every list `freeAt` returns is coalesced: with no used block left, every
block was free before, and all of them merged. -/
theorem coalesced_freeAt (P : List Blk) (b : Blk) (R : List Blk) : Coalesced (freeAt P b R) := by
  intro h
  rw [used_freeAt, List.append_eq_nil, used_eq_nil, used_eq_nil] at h
  exact freeAt_single (fun c hc => h.1 c (List.mem_reverse.2 hc)) h.2

/-- A list with a used block is coalesced. -/
theorem coalesced_of_mem_used {bs : List Blk} {a : Nat} (h : a ∈ used bs) : Coalesced bs :=
  fun h' => by simp [h'] at h

/-! ## What freeing keeps

Freeing only merges blocks: the list gets no longer (`length_freeAt_le`),
and the 16 bytes of a header that was free stay inside a free block, as
its header or inside its payload (`FreeCover.freeAt`). -/

/-- The blocks `absorbIntoFree` leaves before the merged one are some of
those it was given. -/
theorem absorbIntoFree_fst_sublist (P : List Blk) (b : Blk) : List.Sublist (absorbIntoFree P b).1 P := by
  induction P generalizing b with
  | nil => exact List.Sublist.slnil
  | cons p P ih =>
    simp only [absorbIntoFree]
    split
    exacts [(ih _).cons p, List.Sublist.refl _]

theorem length_freeAt_le (P : List Blk) (b : Blk) (R : List Blk) :
    (freeAt P b R).length ≤ (P.reverse ++ b :: R).length := by
  have h1 := (absorbIntoFree_fst_sublist P (absorbFree { b with free := true } R).1).length_le
  have h2 := (absorbFree_snd_sublist { b with free := true } R).length_le
  simp only [freeAt, List.length_append, List.length_reverse, List.length_cons]
  omega

/-- The 16 bytes at `a` lie in a free block of `bs`: they are its header,
or they are inside its payload. -/
def FreeCover (bs : List Blk) (a : Nat) : Prop :=
  ∃ c ∈ bs, c.free ∧ (c.addr = a ∨ c.addr + 16 ≤ a ∧ a + 16 ≤ c.endAddr)

namespace FreeCover

variable {L R : List Blk} {b c : Blk} {a : Nat}

/-- Marking a block free keeps the cover. -/
theorem reflag (h : FreeCover (L ++ b :: R) a) : FreeCover (L ++ { b with free := true } :: R) a := by
  obtain ⟨d, hd, hdf, hda⟩ := h
  rw [List.mem_append, List.mem_cons] at hd
  rcases hd with hd | rfl | hd
  · exact ⟨d, List.mem_append_left _ hd, hdf, hda⟩
  · exact ⟨_, List.mem_append_right _ (List.mem_cons_self _ _), rfl, hda⟩
  · exact ⟨d, List.mem_append_right _ (List.mem_cons_of_mem _ hd), hdf, hda⟩

/-- A free block that absorbs the block after it covers what both covered. -/
theorem absorb (h : FreeCover (L ++ b :: c :: R) a) (hb : b.free) (hbc : b.endAddr = c.addr) :
    FreeCover (L ++ b.absorb c :: R) a := by
  obtain ⟨d, hd, hdf, hda⟩ := h
  have hbe : (b.absorb c).endAddr = c.endAddr := by
    simp only [Blk.endAddr, Blk.absorb] at hbc ⊢
    omega
  have hin : b.absorb c ∈ L ++ b.absorb c :: R := List.mem_append_right _ (List.mem_cons_self _ _)
  rw [List.mem_append, List.mem_cons, List.mem_cons] at hd
  rcases hd with hd | rfl | rfl | hd
  · exact ⟨d, List.mem_append_left _ hd, hdf, hda⟩
  · refine ⟨_, hin, hb, hda.imp id fun h => ⟨h.1, ?_⟩⟩
    simp only [Blk.endAddr, Blk.absorb] at h ⊢
    omega
  · refine ⟨_, hin, hb, .inr ⟨?_, hbe ▸ ?_⟩⟩ <;> simp only [Blk.endAddr, Blk.absorb_addr] at hbc hda ⊢ <;> omega
  · exact ⟨d, List.mem_append_right _ (List.mem_cons_of_mem _ hd), hdf, hda⟩

theorem absorbFree (hb : b.free) {x e : Nat} (ht : Tiles x (b :: R) e) (h : FreeCover (L ++ b :: R) a) :
    FreeCover (L ++ (absorbFree b R).1 :: (absorbFree b R).2) a := by
  induction R generalizing b with
  | nil => exact h
  | cons c R ih =>
    simp only [Mm.absorbFree]
    split
    · exact ih (by simpa using hb) (tiles_absorb ht) (h.absorb hb ht.2.1.symm)
    · exact h

theorem absorbIntoFree {P : List Blk} (hb : b.free) {x e : Nat} (ht : Tiles x (P.reverse ++ b :: R) e)
    (h : FreeCover (P.reverse ++ b :: R) a) :
    FreeCover ((Mm.absorbIntoFree P b).1.reverse ++ (Mm.absorbIntoFree P b).2 :: R) a := by
  induction P generalizing b with
  | nil => exact h
  | cons p P ih =>
    simp only [Mm.absorbIntoFree]
    split
    · simp only [List.reverse_cons, List.append_assoc, List.singleton_append] at ht h
      obtain ⟨y, hL, hR⟩ := tiles_append.1 ht
      exact ih (by simpa using ‹p.free = true›) (tiles_append.2 ⟨y, hL, tiles_absorb hR⟩)
        (h.absorb ‹_› hR.2.1.symm)
    · exact h

/-- **Freeing keeps the cover.** -/
theorem freeAt {P : List Blk} {x e : Nat} (ht : Tiles x (P.reverse ++ b :: R) e)
    (h : FreeCover (P.reverse ++ { b with free := true } :: R) a) : FreeCover (Mm.freeAt P b R) a := by
  obtain ⟨y, hL, hR⟩ := tiles_append.1 ht
  have hR' := (tiles_cons_setFree true).2 hR
  exact absorbIntoFree (by rw [Mm.absorbFree_free]) (tiles_append.2 ⟨y, hL, tiles_absorbFree hR'⟩)
    (absorbFree rfl hR' h)

end FreeCover

/-! ## The largest free block -/

/-- The largest size of a free block of `bs`, or 0 when none is free. -/
def maxFree : List Blk → Nat
  | [] => 0
  | b :: bs => if b.free then max b.size (maxFree bs) else maxFree bs

/-- First fit finds nothing for a request exactly when the request exceeds
the largest free block. -/
theorem alloc_eq_none_iff_maxFree_lt {size : Nat} (hs : 0 < size) (bs : List Blk) :
    alloc size bs = none ↔ maxFree bs < size := by
  rw [alloc_eq_none]
  induction bs with
  | nil => simpa [maxFree] using hs
  | cons b bs ih =>
    rw [List.forall_mem_cons, ih, maxFree]
    cases hb : b.free <;> simp [Blk.fits, hb]

theorem maxFree_le {k : Nat} : ∀ {bs : List Blk}, (∀ b ∈ bs, b.size ≤ k) → maxFree bs ≤ k
  | [], _ => Nat.zero_le _
  | b :: bs, h => by
    rw [List.forall_mem_cons] at h
    have := maxFree_le h.2
    rw [maxFree]
    split <;> omega

/-! ## The bytes the blocks hold -/

/-- The payload bytes of the used blocks of `bs`. -/
def usedBytes : List Blk → Nat
  | [] => 0
  | b :: bs => (if b.free then 0 else b.size) + usedBytes bs

/-- The payload bytes of the free blocks of `bs`. -/
def freeBytes : List Blk → Nat
  | [] => 0
  | b :: bs => (if b.free then b.size else 0) + freeBytes bs

@[simp] theorem usedBytes_nil : usedBytes [] = 0 := rfl

@[simp] theorem usedBytes_cons (b : Blk) (bs : List Blk) :
    usedBytes (b :: bs) = (if b.free then 0 else b.size) + usedBytes bs := rfl

@[simp] theorem usedBytes_append (L R : List Blk) : usedBytes (L ++ R) = usedBytes L + usedBytes R := by
  induction L with
  | nil => simp
  | cons b L ih => simp [ih, Nat.add_assoc]

@[simp] theorem usedBytes_reverse (L : List Blk) : usedBytes L.reverse = usedBytes L := by
  induction L with
  | nil => rfl
  | cons b L ih => simp [ih, Nat.add_comm]

theorem usedBytes_of_free {bs : List Blk} (h : ∀ c ∈ bs, c.free) : usedBytes bs = 0 := by
  induction bs with
  | nil => rfl
  | cons b bs ih =>
    rw [List.forall_mem_cons] at h
    simp [h.1, ih h.2]

/-- The headers and payloads of a tiling fill it. -/
theorem Tiles.bytes {a e : Nat} {bs : List Blk} (h : Tiles a bs e) :
    a + usedBytes bs + freeBytes bs + 16 * bs.length = e := by
  induction bs generalizing a with
  | nil => exact h
  | cons b bs ih =>
    obtain ⟨rfl, h⟩ := h
    have := ih h
    simp only [Blk.endAddr] at this
    simp only [usedBytes_cons, freeBytes, List.length_cons]
    split <;> omega

/-- First fit hands out the block `d`: the used bytes grow by its size. -/
theorem usedBytes_alloc {size : Nat} {bs : List Blk} {r : List Blk × Nat} (hr : alloc size bs = some r) :
    ∃ d ∈ r.1, d.addr = r.2 ∧ usedBytes r.1 = usedBytes bs + d.size := by
  obtain ⟨L, b, R, rfl, hb, rfl⟩ := alloc_eq_some hr
  simp only [Blk.fits, Bool.and_eq_true, decide_eq_true_eq] at hb
  refine ⟨{ b.shrink size with free := false }, by simp [Blk.carve], Blk.shrink_addr b size, ?_⟩
  simp only [Blk.carve, List.cons_append, usedBytes_append, usedBytes_cons, hb.1, Bool.false_eq_true,
    ↓reduceIte, usedBytes_of_free Blk.rest_free]
  omega

theorem usedBytes_absorbFree {b : Blk} (hb : b.free) (R : List Blk) :
    usedBytes ((absorbFree b R).1 :: (absorbFree b R).2) = usedBytes R := by
  induction R generalizing b with
  | nil => simp [absorbFree, hb]
  | cons c R ih =>
    simp only [absorbFree]
    split
    · rw [ih (by simpa using hb)]
      simp [*]
    · simp [hb]

theorem usedBytes_absorbIntoFree (P : List Blk) (b : Blk) : usedBytes (absorbIntoFree P b).1 = usedBytes P := by
  induction P generalizing b with
  | nil => rfl
  | cons p P ih =>
    simp only [absorbIntoFree]
    split
    · simp [ih, *]
    · rfl

/-- Freeing a used block takes exactly its size off the used bytes. -/
theorem usedBytes_freeAt (P : List Blk) (b : Blk) (R : List Blk) :
    usedBytes (freeAt P b R) = usedBytes P + usedBytes R := by
  have hf := usedBytes_absorbFree (b := { b with free := true }) rfl R
  have hb := absorbIntoFree_free (P := P) (absorbFree_free { b with free := true } R)
  simp only [usedBytes_cons, absorbFree_free, ↓reduceIte, Nat.zero_add] at hf
  simp only [freeAt, usedBytes_append, usedBytes_reverse, usedBytes_absorbIntoFree, usedBytes_cons, hb,
    ↓reduceIte, Nat.zero_add, hf]

end MiniCore.Mm
