import MiniCore.Mm.Model
import MiniCore.Mm.Arena

/-!
# The headers in memory represent the block list

`Links m p bs n` says that the `mem_block_t` headers in the memory `m` are
exactly the blocks `bs` of `MiniCore.Mm.Arena`, linked in order: each header
holds its block's size and flag, `next` points at the following header and
`prev` at the one before, the first `prev` being `p` and the last `next`
being `n`. Together with `Tiles` it is the representation relation between
the allocator's memory and the abstract list.

A header is read only through its 16 bytes (`hdr_congr`), and a field store
changes only its own header (`hdr_setField_self`, `hdr_setField_far`). So a
whole list moves to any memory that agrees on the span it tiles
(`Links.frame`), and each step of `mm.c` is one surgery lemma on the suffix
of the list where it works, lifted to the whole list by `Links.lift`:

* `Links.reflag`: `block->is_free = v`;
* `Links.split`: `split_block`;
* `Links.absorb`: one turn of either loop of `merge_free_blocks`.

The walks are then inductions over the list: `findFreeBlock_links` (first
fit), `mergeNext_links` and `mergePrev_links` (the two coalescing loops).
Each surgery and each loop also writes nothing outside the headers of the
list it works on (`HeadersOnly`), which frames every payload of the list
(`HeadersOnly.payload`). The merge loops write no `is_free` word either
(`LinksOnly`), so they keep every flag of the list (`LinksOnly.flag`).

All addresses and sizes are below `2^31` (`he : e ≤ 2 ^ 31` for an arena
ending at `e`), so no sum of two of them wraps.
-/

namespace MiniCore.Mm

open Mem

/-! ## Header fields at arena addresses -/

/-- The header at address `a`, field by field, as `mm.c` reads it. -/
def hdr (m : Mem) (a : Nat) (f : Field) : BitVec 32 := field m (BitVec.ofNat 32 a) f

theorem Field.offset_add_four_le (f : Field) : f.offset.toNat + 4 ≤ 16 := by
  cases f <;> decide

/-- Two different fields are four bytes apart or more. -/
theorem Field.offset_sep {f g : Field} (h : f ≠ g) :
    f.offset.toNat + 4 ≤ g.offset.toNat ∨ g.offset.toNat + 4 ≤ f.offset.toNat := by
  cases f <;> cases g <;> simp_all [Field.offset]

theorem ofNat_add_offset (a : Nat) (f : Field) :
    BitVec.ofNat 32 a + f.offset = BitVec.ofNat 32 (a + f.offset.toNat) := by
  rw [BitVec.ofNat_add, BitVec.ofNat_toNat, BitVec.setWidth_eq]

theorem hdr_eq_load (m : Mem) (a : Nat) (f : Field) :
    hdr m a f = load32 m (BitVec.ofNat 32 (a + f.offset.toNat)) := by
  rw [hdr, field, ofNat_add_offset]

theorem setField_eq_store (m : Mem) (a : Nat) (f : Field) (v : BitVec 32) :
    setField m (BitVec.ofNat 32 a) f v = store32 m (BitVec.ofNat 32 (a + f.offset.toNat)) v := by
  rw [setField, ofNat_add_offset]

/-- A header is read from its own 16 bytes only. -/
theorem hdr_congr {m m' : Mem} {a : Nat} (h : Agree m m' a (a + 16)) (ha : a + 16 ≤ 2 ^ 32) :
    hdr m' a = hdr m a := by
  funext f
  have := f.offset_add_four_le
  rw [hdr_eq_load, hdr_eq_load]
  exact load32_congr (h.mono (by omega) (by omega)) (by omega)

/-- A field store leaves every range that misses its header. -/
theorem Agree.setField (m : Mem) {x : Nat} (f : Field) (v : BitVec 32) {lo hi : Nat}
    (h : x + 16 ≤ lo ∨ hi ≤ x) (hx : x + 16 ≤ 2 ^ 32) :
    Agree m (setField m (BitVec.ofNat 32 x) f v) lo hi := by
  have := f.offset_add_four_le
  rw [setField_eq_store]
  exact Agree.store32 m v (by omega) (by omega)

/-- A field store is read back in its own header, next to the other three
fields. -/
theorem hdr_setField_self (m : Mem) {x : Nat} (f : Field) (v : BitVec 32) (hx : x + 16 ≤ 2 ^ 32) :
    hdr (setField m (BitVec.ofNat 32 x) f v) x = Function.update (hdr m x) f v := by
  funext g
  by_cases hg : g = f
  · subst hg
    rw [Function.update_same, hdr, setField, field, load32_store32_same]
  · have := g.offset_add_four_le
    have := f.offset_add_four_le
    have := Field.offset_sep hg
    rw [Function.update_noteq hg, hdr_eq_load, hdr_eq_load, setField_eq_store]
    exact load32_store32_far m v (by omega) (by omega) (by omega)

/-- A field store does not touch a header it does not overlap. -/
theorem hdr_setField_far (m : Mem) {x y : Nat} (f : Field) (v : BitVec 32)
    (h : x + 16 ≤ y ∨ y + 16 ≤ x) (hx : x + 16 ≤ 2 ^ 32) (hy : y + 16 ≤ 2 ^ 32) :
    hdr (setField m (BitVec.ofNat 32 x) f v) y = hdr m y :=
  hdr_congr (Agree.setField m f v (by omega) hx) hy

/-! ## The representation relation -/

/-- The header `mm.c` keeps for the block `b` linked between `prev` and
`next`. `is_free` is always written `0` or `1`. -/
def Blk.header (b : Blk) (prev next : Nat) : Field → BitVec 32
  | .size => BitVec.ofNat 32 b.size
  | .isFree => if b.free then 1 else 0
  | .next => BitVec.ofNat 32 next
  | .prev => BitVec.ofNat 32 prev

/-- Where a `next` field points when the blocks `bs` follow: their first
header, or `n` if there are none. -/
def headAddr : List Blk → Nat → Nat
  | [], n => n
  | b :: _, _ => b.addr

@[simp] theorem headAddr_nil (n : Nat) : headAddr [] n = n := rfl

@[simp] theorem headAddr_cons (b : Blk) (bs : List Blk) (n : Nat) : headAddr (b :: bs) n = b.addr :=
  rfl

/-- The header address of the last block of `bs`, or `p` if there is none. -/
def lastAddr : Nat → List Blk → Nat
  | p, [] => p
  | _, b :: bs => lastAddr b.addr bs

/-- The headers in `m` link the blocks `bs` in order: the first one's `prev`
is `p`, the last one's `next` is `n`. -/
def Links (m : Mem) : Nat → List Blk → Nat → Prop
  | _, [], _ => True
  | p, b :: bs, n => hdr m b.addr = b.header p (headAddr bs n) ∧ Links m b.addr bs n

@[simp] theorem links_nil (m : Mem) (p n : Nat) : Links m p [] n := trivial

@[simp] theorem links_cons {m : Mem} {p n : Nat} {b : Blk} {bs : List Blk} :
    Links m p (b :: bs) n ↔ hdr m b.addr = b.header p (headAddr bs n) ∧ Links m b.addr bs n :=
  Iff.rfl

@[simp] theorem headAddr_append (L R : List Blk) (n : Nat) :
    headAddr (L ++ R) n = headAddr L (headAddr R n) := by
  cases L <;> rfl

/-- The links of a concatenation: both halves, joined at the seam. -/
theorem links_append {m : Mem} {p n : Nat} {L R : List Blk} :
    Links m p (L ++ R) n ↔ Links m p L (headAddr R n) ∧ Links m (lastAddr p L) R n := by
  induction L generalizing p with
  | nil => simp [lastAddr]
  | cons b L ih => simp [ih, lastAddr, and_assoc]

/-- The links of a tiled list move to any memory that agrees on the span it
tiles. -/
theorem Links.frame {m m' : Mem} {p n a e : Nat} {bs : List Blk} (h : Links m p bs n)
    (ht : Tiles a bs e) (hag : Agree m m' a e) (he : e ≤ 2 ^ 32) : Links m' p bs n := by
  induction bs generalizing p a with
  | nil => trivial
  | cons b bs ih =>
    obtain ⟨hb, h⟩ := h
    obtain ⟨rfl, ht⟩ := ht
    have := ht.le
    simp only [Blk.endAddr] at this
    exact ⟨(hdr_congr (hag.mono le_rfl (by omega)) (by omega)).trans hb,
      ih h ht (hag.mono (by simp only [Blk.endAddr]; omega) le_rfl)⟩

/-- Every block of the list has its header in memory. -/
theorem Links.hdr_of_mem {m : Mem} {p n : Nat} {bs : List Blk} (h : Links m p bs n) {c : Blk}
    (hc : c ∈ bs) : ∃ pv nx, hdr m c.addr = c.header pv nx := by
  induction bs generalizing p with
  | nil => simp at hc
  | cons b bs ih =>
    rcases List.mem_cons.1 hc with rfl | hc
    exacts [⟨_, _, h.1⟩, ih h.2 hc]

/-- Writing inside the payload of one block of a tiled list keeps its links. -/
theorem Links.frame_payload {m m' : Mem} {p a e : Nat} {bs : List Blk} {c : Blk}
    (h : Links m p bs 0) (ht : Tiles a bs e) (hc : c ∈ bs) (he : e ≤ 2 ^ 32)
    (h1 : Agree m m' a (c.addr + 16)) (h2 : Agree m m' c.endAddr e) : Links m' p bs 0 := by
  obtain ⟨L, R, rfl⟩ := List.append_of_mem hc
  rw [links_append] at h ⊢
  obtain ⟨x, hL, hx, hR⟩ := tiles_append.1 ht
  have hce := hR.le
  have hax := hL.le
  simp only [Blk.endAddr] at hce
  obtain ⟨hch, hcR⟩ := h.2
  refine ⟨h.1.frame hL (h1.mono le_rfl (by omega)) (by omega),
    (hdr_congr (h1.mono (by omega) le_rfl) (by omega)).trans hch, hcR.frame hR h2 he⟩

/-- A field store outside a range does not change agreement on it. -/
theorem agree_setField_iff {m M : Mem} {x lo hi : Nat} {f : Field} {v : BitVec 32}
    (h : x + 16 ≤ lo ∨ hi ≤ x) (hx : x + 16 ≤ 2 ^ 32) :
    Agree m (setField M (BitVec.ofNat 32 x) f v) lo hi ↔ Agree m M lo hi :=
  ⟨fun h' => h'.trans (Agree.setField M f v h hx).symm,
    fun h' => h'.trans (Agree.setField M f v h hx)⟩

@[simp] theorem agree_self {m : Mem} {lo hi : Nat} : Agree m m lo hi ↔ True :=
  iff_true_intro (Agree.refl m lo hi)

/-- A surgery on the suffix that starts at `b` lifts to the whole list, when
the suffix keeps its first header address and the bytes before `b` are left
alone. -/
theorem Links.lift {m m' : Mem} {p a e : Nat} {L R R' : List Blk} {b b' : Blk}
    (h : Links m p (L ++ b :: R) 0) (ht : Tiles a (L ++ b :: R) e) (he : e ≤ 2 ^ 32)
    (hs : Links m (lastAddr p L) (b :: R) 0 → Links m' (lastAddr p L) (b' :: R') 0)
    (haddr : b'.addr = b.addr) (hag : Agree m m' a b.addr) : Links m' p (L ++ b' :: R') 0 := by
  rw [links_append] at h ⊢
  obtain ⟨x, hL, hx, hR⟩ := tiles_append.1 ht
  have := hR.le
  simp only [Blk.endAddr] at this
  refine ⟨?_, hs h.2⟩
  simp only [headAddr_cons, haddr] at h ⊢
  exact h.1.frame hL (hx ▸ hag) (by omega)

/-! ## Arithmetic on arena addresses

Below `2^31`, the 32-bit operations the code applies to addresses and sizes
are the operations on `Nat`. -/

section Words

variable {x y : Nat}

theorem ofNat_ne_zero (h0 : 0 < x) (h : x < 2 ^ 32) : BitVec.ofNat 32 x ≠ 0 := by
  intro e
  have := congrArg BitVec.toNat e
  simp only [BitVec.toNat_ofNat, Nat.mod_eq_of_lt h] at this
  simp at this
  omega

theorem ofNat_lt_ofNat (hx : x < 2 ^ 32) (hy : y < 2 ^ 32) :
    BitVec.ofNat 32 x < BitVec.ofNat 32 y ↔ x < y := by
  rw [BitVec.lt_def, BitVec.toNat_ofNat, BitVec.toNat_ofNat, Nat.mod_eq_of_lt hx, Nat.mod_eq_of_lt hy]

theorem ofNat_le_ofNat (hx : x < 2 ^ 32) (hy : y < 2 ^ 32) :
    BitVec.ofNat 32 x ≤ BitVec.ofNat 32 y ↔ x ≤ y := by
  rw [BitVec.le_def, BitVec.toNat_ofNat, BitVec.toNat_ofNat, Nat.mod_eq_of_lt hx, Nat.mod_eq_of_lt hy]

theorem ofNat_sub_ofNat (h : y ≤ x) (hx : x < 2 ^ 32) :
    BitVec.ofNat 32 x - BitVec.ofNat 32 y = BitVec.ofNat 32 (x - y) := by
  apply BitVec.eq_of_toNat_eq
  simp only [BitVec.toNat_sub, BitVec.toNat_ofNat]
  omega

theorem ofNat_add_ofNat : BitVec.ofNat 32 x + BitVec.ofNat 32 y = BitVec.ofNat 32 (x + y) :=
  (BitVec.ofNat_add x y).symm

end Words

/-! ## Field stores at arena addresses -/

section Stores

variable {m : Mem} {x y : Nat} {f g : Field} {v : BitVec 32}

theorem field_setField_ne (hfg : f ≠ g) (hx : x + 16 ≤ 2 ^ 32) :
    field (setField m (BitVec.ofNat 32 x) f v) (BitVec.ofNat 32 x) g = field m (BitVec.ofNat 32 x) g :=
  (congrFun (hdr_setField_self m f v hx) g).trans (Function.update_noteq hfg.symm _ _)

theorem field_setField_far (h : x + 16 ≤ y ∨ y + 16 ≤ x) (hx : x + 16 ≤ 2 ^ 32)
    (hy : y + 16 ≤ 2 ^ 32) :
    field (setField m (BitVec.ofNat 32 x) f v) (BitVec.ofNat 32 y) g = field m (BitVec.ofNat 32 y) g :=
  congrFun (hdr_setField_far m f v h hx hy) g

end Stores

/-! ## Writes confined to headers

`HeadersOnly S m m'`: `m'` differs from `m` at most inside the 16-byte
headers at the addresses `S`. Every step of `mm.c` but `memset` and
`memcpy` is such a write, for the addresses of the list it works on; so
the payloads of the list are left alone (`HeadersOnly.payload`). -/

/-- `m'` differs from `m` at most in the headers at the addresses `S`. -/
def HeadersOnly (S : List Nat) (m m' : Mem) : Prop :=
  ∀ x : BitVec 32, (∀ a ∈ S, x.toNat < a ∨ a + 16 ≤ x.toNat) → m' x = m x

namespace HeadersOnly

variable {S S' : List Nat} {m m' m'' : Mem}

theorem refl (S : List Nat) (m : Mem) : HeadersOnly S m m := fun _ _ => rfl

theorem trans (h : HeadersOnly S m m') (h' : HeadersOnly S m' m'') : HeadersOnly S m m'' :=
  fun x hx => (h' x hx).trans (h x hx)

theorem mono (h : HeadersOnly S m m') (hS : S ⊆ S') : HeadersOnly S' m m' :=
  fun x hx => h x fun a ha => hx a (hS ha)

/-- The two memories agree on every range that misses the headers. -/
theorem agree (h : HeadersOnly S m m') {lo hi : Nat} (hS : ∀ a ∈ S, hi ≤ a ∨ a + 16 ≤ lo) :
    Agree m m' lo hi :=
  fun x hl hh => h x fun a ha => (hS a ha).imp (by omega) (by omega)

end HeadersOnly

/-- A field store into a header of `S` is invisible to `HeadersOnly S`. -/
theorem headersOnly_setField_iff {S : List Nat} {m M : Mem} {a : Nat} {f : Field} {v : BitVec 32}
    (ha : a ∈ S) (h16 : a + 16 ≤ 2 ^ 32) :
    HeadersOnly S m (setField M (BitVec.ofNat 32 a) f v) ↔ HeadersOnly S m M := by
  have hag : ∀ x : BitVec 32, (x.toNat < a ∨ a + 16 ≤ x.toNat) → setField M (BitVec.ofNat 32 a) f v x = M x :=
    fun x hx => Agree.setField M f v hx.symm h16 x le_rfl (Nat.lt_succ_self _)
  exact ⟨fun h x hx => (hag x (hx a ha)).symm.trans (h x hx),
    fun h x hx => (hag x (hx a ha)).trans (h x hx)⟩

@[simp] theorem headersOnly_self {S : List Nat} {m : Mem} : HeadersOnly S m m :=
  HeadersOnly.refl S m

/-- The `prev` store into the block after, made only when there is one
(see `Links.relink`), writes a header of `S` when the blocks after are in
`S`. -/
theorem HeadersOnly.relink {S : List Nat} {m M : Mem} {a e : Nat} {R : List Blk}
    (h : HeadersOnly S m M) (ht : Tiles a R e) (he : e ≤ 2 ^ 32) (hS : R.map Blk.addr ⊆ S)
    (v : BitVec 32) :
    HeadersOnly S m (if BitVec.ofNat 32 (headAddr R 0) ≠ 0 then
      setField M (BitVec.ofNat 32 (headAddr R 0)) .prev v else M) := by
  cases R with
  | nil => exact if_neg (not_not_intro rfl) ▸ h
  | cons d R =>
    have := ht.2.le
    simp only [Blk.endAddr] at this
    split
    exacts [(headersOnly_setField_iff (hS (List.mem_cons_self _ _)) (by omega)).2 h, h]

/-- The payload of a block of a tiling meets no header of the tiling. -/
theorem Tiles.payload_clear {a e : Nat} {bs : List Blk} (ht : Tiles a bs e) {c : Blk} (hc : c ∈ bs) :
    ∀ d ∈ bs, c.endAddr ≤ d.addr ∨ d.addr + 16 ≤ c.addr + 16 := fun d hd => by
  by_cases hdc : c = d
  · exact .inr (hdc ▸ le_rfl)
  · have := (ht.pairwise.imp Or.inl).forall (fun _ _ => Or.symm) hc hd hdc
    simp only [Blk.endAddr] at this ⊢
    omega

/-- A header-only write for the addresses of a tiling leaves every payload
of the tiling alone. -/
theorem HeadersOnly.payload {m m' : Mem} {a e : Nat} {bs : List Blk}
    (h : HeadersOnly (bs.map Blk.addr) m m') (ht : Tiles a bs e) {c : Blk} (hc : c ∈ bs) :
    Agree m m' (c.addr + 16) c.endAddr :=
  h.agree fun _ hx => by
    obtain ⟨d, hd, rfl⟩ := List.mem_map.1 hx
    exact ht.payload_clear hc d hd

/-! ## Writes that keep the flags

`LinksOnly S m m'`: `m'` differs from `m` at most in the `size`, `next` and
`prev` words of the headers at `S`. The merge loops of `merge_free_blocks`
are such writes, so they keep every `is_free` word of the list
(`LinksOnly.flag`), that of a header they absorb included. -/

/-- `m'` differs from `m` at most in the `size`, `next` and `prev` words of
the headers at the addresses `S`: no `is_free` word is written. -/
def LinksOnly (S : List Nat) (m m' : Mem) : Prop :=
  ∀ x : BitVec 32, (∀ a ∈ S, x.toNat < a ∨ a + 16 ≤ x.toNat ∨ a + 4 ≤ x.toNat ∧ x.toNat < a + 8) →
    m' x = m x

namespace LinksOnly

variable {S S' : List Nat} {m m' m'' : Mem}

theorem trans (h : LinksOnly S m m') (h' : LinksOnly S m' m'') : LinksOnly S m m'' :=
  fun x hx => (h' x hx).trans (h x hx)

theorem mono (h : LinksOnly S m m') (hS : S ⊆ S') : LinksOnly S' m m' :=
  fun x hx => h x fun a ha => hx a (hS ha)

theorem headersOnly (h : LinksOnly S m m') : HeadersOnly S m m' :=
  fun x hx => h x fun a ha => (hx a ha).imp_right Or.inl

/-- The `is_free` word of a header of `S` that no other header of `S`
overlaps is kept. -/
theorem flag (h : LinksOnly S m m') {a : Nat} (ha : a ∈ S)
    (hS : ∀ x ∈ S, x = a ∨ x + 16 ≤ a ∨ a + 16 ≤ x) (h16 : a + 16 ≤ 2 ^ 32) :
    hdr m' a .isFree = hdr m a .isFree := by
  have h4 : Field.isFree.offset.toNat = 4 := rfl
  rw [hdr_eq_load, hdr_eq_load, h4]
  refine load32_congr (fun y hl hh => h y fun x hx => ?_) (by omega)
  rcases hS x hx with rfl | hx | hx <;> omega

end LinksOnly

@[simp] theorem linksOnly_self {S : List Nat} {m : Mem} : LinksOnly S m m := fun _ _ => rfl

/-- A store into a word other than `is_free` of a header of `S` is
invisible to `LinksOnly S`. -/
theorem linksOnly_setField_iff {S : List Nat} {m M : Mem} {a : Nat} {f : Field} {v : BitVec 32}
    (ha : a ∈ S) (hf : f ≠ .isFree) (h16 : a + 16 ≤ 2 ^ 32) :
    LinksOnly S m (setField M (BitVec.ofNat 32 a) f v) ↔ LinksOnly S m M := by
  have hoff : f.offset.toNat + 4 ≤ 4 ∨ 8 ≤ f.offset.toNat := by
    cases f <;> simp_all [Field.offset]
  have := f.offset_add_four_le
  have hag : ∀ x : BitVec 32, (x.toNat < a ∨ a + 16 ≤ x.toNat ∨ a + 4 ≤ x.toNat ∧ x.toNat < a + 8) →
      setField M (BitVec.ofNat 32 a) f v x = M x := fun x hx => by
    rw [setField_eq_store]
    exact Agree.store32 M v (by omega) (by omega) x le_rfl (Nat.lt_succ_self _)
  exact ⟨fun h x hx => (hag x (hx a ha)).symm.trans (h x hx),
    fun h x hx => (hag x (hx a ha)).trans (h x hx)⟩

/-- The `prev` store into the block after keeps the flags, as
`HeadersOnly.relink` keeps the payloads. -/
theorem LinksOnly.relink {S : List Nat} {m M : Mem} {a e : Nat} {R : List Blk}
    (h : LinksOnly S m M) (ht : Tiles a R e) (he : e ≤ 2 ^ 32) (hS : R.map Blk.addr ⊆ S)
    (v : BitVec 32) :
    LinksOnly S m (if BitVec.ofNat 32 (headAddr R 0) ≠ 0 then
      setField M (BitVec.ofNat 32 (headAddr R 0)) .prev v else M) := by
  cases R with
  | nil => exact if_neg (not_not_intro rfl) ▸ h
  | cons d R =>
    have := ht.2.le
    simp only [Blk.endAddr] at this
    split
    exacts [(linksOnly_setField_iff (hS (List.mem_cons_self _ _)) (by decide) (by omega)).2 h, h]

/-- The headers of two blocks of a tiling do not overlap. -/
theorem Tiles.spaced {a e : Nat} {bs : List Blk} (ht : Tiles a bs e) {c d : Blk} (hc : c ∈ bs)
    (hd : d ∈ bs) (hcd : c ≠ d) : c.addr + 16 ≤ d.addr ∨ d.addr + 16 ≤ c.addr := by
  have := (ht.pairwise.imp Or.inl).forall (fun _ _ => Or.symm) hc hd hcd
  simp only [Blk.endAddr] at this
  omega

/-- The merges keep the flag of every block of a tiling they work on. -/
theorem LinksOnly.flag_mem {m m' : Mem} {a e : Nat} {bs : List Blk} (h : LinksOnly (bs.map Blk.addr) m m')
    (ht : Tiles a bs e) (he : e ≤ 2 ^ 32) {d : Blk} (hd : d ∈ bs) :
    hdr m' d.addr .isFree = hdr m d.addr .isFree := by
  have := ht.bounds hd
  simp only [Blk.endAddr] at this
  refine h.flag (List.mem_map_of_mem _ hd) (fun x hx => ?_) (by omega)
  obtain ⟨c, hc, rfl⟩ := List.mem_map.1 hx
  by_cases hcd : c = d
  · exact .inl (congrArg Blk.addr hcd)
  · exact .inr (ht.spaced hc hd hcd)

/-! ## Surgery: one step of `mm.c` on the suffix where it works -/

/-- `block->is_free = v` sets the flag of the first block of the suffix. -/
theorem Links.reflag {m : Mem} {p e : Nat} {b : Blk} {R : List Blk} (x : Bool)
    (h : Links m p (b :: R) 0) (ht : Tiles b.endAddr R e) (he : e ≤ 2 ^ 31) :
    Links (setField m (BitVec.ofNat 32 b.addr) .isFree (if x then 1 else 0)) p
      ({ b with free := x } :: R) 0 := by
  obtain ⟨hb, hR⟩ := h
  have := ht.le
  simp only [Blk.endAddr] at this
  refine ⟨?_, hR.frame ht (Agree.setField m _ _ (.inl (by simp only [Blk.endAddr]; omega))
    (by omega)) (by omega)⟩
  rw [hdr_setField_self m _ _ (by omega), hb]
  funext f
  cases f <;> rfl

/-- The store into the `prev` of the block after the one `split_block` or
`merge_free_blocks` works on, made only when there is such a block, links
the rest `R` of the list back to `q`. The links of `R` move from `m` to any
`M` that agrees with it on their span, and the bytes before `R` stay as in
`M`. -/
theorem Links.relink {m M : Mem} {p q a e : Nat} {R : List Blk} (h : Links m p R 0)
    (ht : Tiles a R e) (hag : Agree m M a e) (ha : 0 < a) (he : e ≤ 2 ^ 31) :
    Links (if BitVec.ofNat 32 (headAddr R 0) ≠ 0 then
        setField M (BitVec.ofNat 32 (headAddr R 0)) .prev (BitVec.ofNat 32 q) else M) q R 0 ∧
      Agree M (if BitVec.ofNat 32 (headAddr R 0) ≠ 0 then
        setField M (BitVec.ofNat 32 (headAddr R 0)) .prev (BitVec.ofNat 32 q) else M) 0 a := by
  have h := h.frame ht hag (by omega)
  cases R with
  | nil => exact ⟨trivial, Agree.refl M 0 a⟩
  | cons d R =>
    obtain ⟨hd, hR⟩ := h
    obtain ⟨rfl, ht⟩ := ht
    have := ht.le
    simp only [Blk.endAddr] at this
    simp only [headAddr_cons, ne_eq, ofNat_ne_zero ha (by omega), not_false_eq_true, if_true]
    refine ⟨⟨?_, hR.frame ht (Agree.setField M _ _ (.inl (by simp only [Blk.endAddr]; omega))
      (by omega)) (by omega)⟩, Agree.setField M _ _ (.inr le_rfl) (by omega)⟩
    rw [hdr_setField_self M _ _ (by omega), hd]
    funext f
    cases f <;> rfl

/-- `split_block` on the first block of the suffix: the block keeps its
first `r` bytes and, when it cuts, the tail becomes a free block linked in
after it. The bytes before the block are untouched. -/
theorem Links.split {m : Mem} {p e r : Nat} {b : Blk} {R : List Blk}
    (h : Links m p (b :: R) 0) (ht : Tiles b.endAddr R e) (he : e ≤ 2 ^ 31) (hr : r ≤ b.size) :
    Links (splitBlock m (BitVec.ofNat 32 b.addr) (BitVec.ofNat 32 r)) p
        (b.shrink r :: (b.rest r ++ R)) 0 ∧
      Agree m (splitBlock m (BitVec.ofNat 32 b.addr) (BitVec.ofNat 32 r)) 0 b.addr ∧
      HeadersOnly ((b.shrink r :: (b.rest r ++ R)).map Blk.addr) m
        (splitBlock m (BitVec.ofNat 32 b.addr) (BitVec.ofNat 32 r)) := by
  obtain ⟨hb, hR⟩ := h
  have hbe := ht.le
  simp only [Blk.endAddr] at hbe
  have hsz : field m (BitVec.ofNat 32 b.addr) .size = BitVec.ofNat 32 b.size := congrFun hb .size
  -- the test of `split_block`, on the header's size
  have hcond : BitVec.ofNat 32 r + sizeofMemBlock + 32 < field m (BitVec.ofNat 32 b.addr) .size ↔
      r + 16 + 32 < b.size := by
    rw [hsz, show sizeofMemBlock = BitVec.ofNat 32 16 from rfl,
      show (32 : BitVec 32) = BitVec.ofNat 32 32 from rfl, ofNat_add_ofNat, ofNat_add_ofNat,
      ofNat_lt_ofNat (by omega) (by omega)]
  by_cases hcut : r + 16 + 32 < b.size
  · have hnb : BitVec.ofNat 32 b.addr + sizeofMemBlock + BitVec.ofNat 32 r =
        BitVec.ofNat 32 (b.addr + 16 + r) := by
      rw [show sizeofMemBlock = BitVec.ofNat 32 16 from rfl, ofNat_add_ofNat, ofNat_add_ofNat]
    have hval : field m (BitVec.ofNat 32 b.addr) .size - BitVec.ofNat 32 r - sizeofMemBlock =
        BitVec.ofNat 32 (b.size - r - 16) := by
      rw [hsz, show sizeofMemBlock = BitVec.ofNat 32 16 from rfl,
        ofNat_sub_ofNat (by omega) (by omega), ofNat_sub_ofNat (by omega) (by omega)]
    have hnx : field m (BitVec.ofNat 32 b.addr) .next = BitVec.ofNat 32 (headAddr R 0) :=
      congrFun hb .next
    simp only [splitBlock, if_pos (hcond.2 hcut), hnb, hval]
    simp (disch := omega) only [field_setField_far, hnx]
    simp only [Blk.shrink, Blk.rest, if_pos hcut, List.singleton_append, links_cons]
    have hbend : b.endAddr = b.addr + 16 + b.size := rfl
    -- the four stores into the new header, then the `prev` of the block after it
    set M := setField (setField (setField (setField m (BitVec.ofNat 32 (b.addr + 16 + r)) .size
      (BitVec.ofNat 32 (b.size - r - 16))) (BitVec.ofNat 32 (b.addr + 16 + r)) .isFree 1)
      (BitVec.ofNat 32 (b.addr + 16 + r)) .next (BitVec.ofNat 32 (headAddr R 0)))
      (BitVec.ofNat 32 (b.addr + 16 + r)) .prev (BitVec.ofNat 32 b.addr) with hM
    have hag : ∀ lo hi, b.addr + 16 + r + 16 ≤ lo ∨ hi ≤ b.addr + 16 + r → Agree m M lo hi :=
      fun _ _ h => by simp (disch := omega) only [hM, agree_setField_iff, agree_self]
    obtain ⟨h5, a5⟩ := Links.relink (q := b.addr + 16 + r) hR ht (hag _ _ (.inl (by omega)))
      (by omega) he
    have hb5 := hdr_congr (a := b.addr) (a5.mono (Nat.zero_le _) (by omega)) (by omega)
    have hn5 := hdr_congr (a := b.addr + 16 + r) (a5.mono (Nat.zero_le _) (by omega)) (by omega)
    -- then the two stores into `block`
    simp (disch := omega) only [hdr_setField_self, hdr_setField_far, agree_setField_iff, hb5, hn5,
      hM, hb]
    refine ⟨⟨?_, ?_, h5.frame ht (by simp (disch := omega) only [agree_setField_iff, agree_self])
      (by omega)⟩, (hag _ _ (.inr (by omega))).trans (a5.mono le_rfl (by omega)), ?_⟩
    iterate 2 · funext f; cases f <;> rfl
    -- every store is into `block`, the new header or the block after
    simp (disch := first | omega | simp) only [headersOnly_setField_iff]
    refine HeadersOnly.relink ?_ ht (by omega) (fun x hx => ?_) _
    · simp (disch := first | omega | simp) only [headersOnly_setField_iff, headersOnly_self]
    · simp only [List.map_cons, List.mem_cons]
      exact .inr (.inr hx)
  · simp only [splitBlock, if_neg (mt hcond.1 hcut), Blk.shrink, Blk.rest, if_neg hcut, List.nil_append]
    exact ⟨⟨hb, hR⟩, Agree.refl m 0 b.addr, headersOnly_self⟩

/-! ## Coalescing -/

/-- The body shared by the two loops of `merge_free_blocks`: the header at
`block` absorbs the header at `next`, which follows it. -/
def absorbStep (m : Mem) (block next : BitVec 32) : Mem :=
  let m := setField m block .size (field m block .size + (field m next .size + sizeofMemBlock))
  let m := setField m block .next (field m next .next)
  if field m next .next ≠ 0 then setField m (field m next .next) .prev block else m

theorem mergeNext_succ (fuel : Nat) (m : Mem) (block : BitVec 32) :
    mergeNext (fuel + 1) m block =
      if field m block .next ≠ 0 ∧ field m (field m block .next) .isFree ≠ 0 then
        mergeNext fuel (absorbStep m block (field m block .next)) block
      else .ok m := rfl

theorem mergePrev_succ (fuel : Nat) (m : Mem) (block : BitVec 32) :
    mergePrev (fuel + 1) m block =
      if field m block .prev ≠ 0 ∧ field m (field m block .prev) .isFree ≠ 0 then
        mergePrev fuel (absorbStep m (field m block .prev) block) (field m block .prev)
      else .ok m := rfl

/-- One turn of either merge loop on the first two blocks of the suffix: the
first absorbs the second. The bytes before the first are untouched. -/
theorem Links.absorb {m : Mem} {p e : Nat} {b c : Blk} {R : List Blk}
    (h : Links m p (b :: c :: R) 0) (ht : Tiles b.endAddr (c :: R) e) (he : e ≤ 2 ^ 31) :
    Links (absorbStep m (BitVec.ofNat 32 b.addr) (BitVec.ofNat 32 c.addr)) p (b.absorb c :: R) 0 ∧
      Agree m (absorbStep m (BitVec.ofNat 32 b.addr) (BitVec.ofNat 32 c.addr)) 0 b.addr ∧
      LinksOnly ((b.absorb c :: R).map Blk.addr) m
        (absorbStep m (BitVec.ofNat 32 b.addr) (BitVec.ofNat 32 c.addr)) := by
  obtain ⟨hb, hc, hR⟩ := h
  obtain ⟨hca, ht⟩ := ht
  have hce := ht.le
  simp only [Blk.endAddr] at hce hca
  have hbs : field m (BitVec.ofNat 32 b.addr) .size = BitVec.ofNat 32 b.size := congrFun hb .size
  have hcs : field m (BitVec.ofNat 32 c.addr) .size = BitVec.ofNat 32 c.size := congrFun hc .size
  have hval : field m (BitVec.ofNat 32 b.addr) .size + (field m (BitVec.ofNat 32 c.addr) .size +
      sizeofMemBlock) = BitVec.ofNat 32 (b.size + (c.size + 16)) := by
    rw [hbs, hcs, show sizeofMemBlock = BitVec.ofNat 32 16 from rfl, ofNat_add_ofNat, ofNat_add_ofNat]
  have hnx : field m (BitVec.ofNat 32 c.addr) .next = BitVec.ofNat 32 (headAddr R 0) :=
    congrFun hc .next
  simp only [absorbStep, hval]
  simp (disch := omega) only [field_setField_far, field_setField_ne, hnx]
  have hcend : c.endAddr = c.addr + 16 + c.size := rfl
  -- the two stores into `block`, then the `prev` of the block after `next`
  set M := setField (setField m (BitVec.ofNat 32 b.addr) .size
    (BitVec.ofNat 32 (b.size + (c.size + 16)))) (BitVec.ofNat 32 b.addr) .next
    (BitVec.ofNat 32 (headAddr R 0)) with hM
  have hag : ∀ lo hi, b.addr + 16 ≤ lo ∨ hi ≤ b.addr → Agree m M lo hi := fun _ _ h => by
    simp (disch := omega) only [hM, agree_setField_iff, agree_self]
  obtain ⟨h3, a3⟩ := Links.relink (q := b.addr) hR ht (hag _ _ (.inl (by omega))) (by omega) he
  refine ⟨⟨?_, h3⟩, (hag _ _ (.inr le_rfl)).trans (a3.mono le_rfl (by omega)),
    .relink (by simp (disch := first | omega | simp) only [hM, linksOnly_setField_iff,
      linksOnly_self]) ht (by omega) (List.subset_cons_self _ _) _⟩
  rw [Blk.absorb_addr, hdr_congr (a := b.addr) (a3.mono (Nat.zero_le _) (by omega)) (by omega)]
  simp (disch := omega) only [hM, hdr_setField_self, hb]
  funext f
  cases f <;> rfl

/-- The `is_free` word of a represented block is nonzero exactly when the
block is free. -/
theorem header_isFree_ne_zero (b : Blk) (p n : Nat) : b.header p n .isFree ≠ 0 ↔ b.free := by
  cases hb : b.free <;> simp [Blk.header, hb]

/-- **The first loop of `merge_free_blocks`** absorbs the free blocks that
follow, as `absorbFree` does, within one turn per block. -/
theorem mergeNext_links {m : Mem} {p e : Nat} {b : Blk} {R : List Blk} {fuel : Nat}
    (h : Links m p (b :: R) 0) (ht : Tiles b.endAddr R e) (he : e ≤ 2 ^ 31)
    (hf : R.length < fuel) :
    ∃ m', mergeNext fuel m (BitVec.ofNat 32 b.addr) = .ok m' ∧
      Links m' p ((absorbFree b R).1 :: (absorbFree b R).2) 0 ∧ Agree m m' 0 b.addr ∧
      LinksOnly ((b :: R).map Blk.addr) m m' := by
  induction R generalizing b m fuel with
  | nil =>
    obtain ⟨fuel, rfl⟩ : ∃ f, fuel = f + 1 := ⟨fuel - 1, by omega⟩
    have hnx : field m (BitVec.ofNat 32 b.addr) .next = 0 := congrFun h.1 .next
    rw [mergeNext_succ, hnx]
    exact ⟨m, by simp, h, Agree.refl _ _ _, linksOnly_self⟩
  | cons c R ih =>
    obtain ⟨fuel, rfl⟩ : ∃ f, fuel = f + 1 := ⟨fuel - 1, by omega⟩
    obtain ⟨hca, ht'⟩ := ht
    have := ht'.le
    simp only [Blk.endAddr] at this hca
    have hnx : field m (BitVec.ofNat 32 b.addr) .next = BitVec.ofNat 32 c.addr := congrFun h.1 .next
    have hfc : field m (BitVec.ofNat 32 c.addr) .isFree ≠ 0 ↔ c.free := by
      rw [show field m (BitVec.ofNat 32 c.addr) .isFree = hdr m c.addr .isFree from rfl, h.2.1]
      exact header_isFree_ne_zero c _ _
    have hc0 := ofNat_ne_zero (x := c.addr) (by omega) (by omega)
    rw [mergeNext_succ, hnx]
    by_cases hcf : c.free
    · rw [if_pos ⟨hc0, hfc.2 hcf⟩]
      obtain ⟨h1, a1, o1⟩ := Links.absorb h ⟨hca, ht'⟩ he
      obtain ⟨m', e', h', a', o'⟩ := ih h1 (tiles_absorb (a := b.addr) ⟨rfl, hca, ht'⟩).2
        (by simpa using hf)
      rw [Blk.absorb_addr] at e' a'
      refine ⟨m', e', ?_, a1.trans a', (o1.trans o').mono ?_⟩
      · simpa only [absorbFree, hcf, if_true] using h'
      · simp only [List.map_cons, Blk.absorb_addr]
        exact List.cons_subset_cons _ (List.subset_cons_self _ _)
    · rw [if_neg fun hc => hcf (hfc.1 hc.2)]
      refine ⟨m, rfl, ?_, Agree.refl _ _ _, linksOnly_self⟩
      simpa only [absorbFree, hcf, if_false, Bool.false_eq_true] using h

/-- **The second loop of `merge_free_blocks`** folds the block into the free
blocks before it, as `absorbIntoFree` does, within one turn per block. It
stops at the first used block, or at the head, whose `prev` is `NULL`. -/
theorem mergePrev_links {m : Mem} {a e : Nat} {P R : List Blk} {b : Blk} {fuel : Nat}
    (h : Links m 0 (P.reverse ++ b :: R) 0) (ht : Tiles a (P.reverse ++ b :: R) e) (ha : 0 < a)
    (he : e ≤ 2 ^ 31) (hf : P.length < fuel) :
    ∃ m', mergePrev fuel m (BitVec.ofNat 32 b.addr) = .ok m' ∧
      Links m' 0 ((absorbIntoFree P b).1.reverse ++ (absorbIntoFree P b).2 :: R) 0 ∧
      LinksOnly ((P.reverse ++ b :: R).map Blk.addr) m m' := by
  induction P generalizing b m fuel with
  | nil =>
    obtain ⟨fuel, rfl⟩ : ∃ f, fuel = f + 1 := ⟨fuel - 1, by omega⟩
    have hpv : field m (BitVec.ofNat 32 b.addr) .prev = 0 := congrFun h.1 .prev
    rw [mergePrev_succ, hpv]
    exact ⟨m, by simp, h, linksOnly_self⟩
  | cons p P ih =>
    obtain ⟨fuel, rfl⟩ : ∃ f, fuel = f + 1 := ⟨fuel - 1, by omega⟩
    simp only [List.reverse_cons, List.append_assoc, List.singleton_append] at h ht
    have hs := (links_append.1 h).2
    obtain ⟨x, hL, hpx, hbp, ht'⟩ := tiles_append.1 ht
    have := hL.le
    have := ht'.le
    simp only [Blk.endAddr] at this hbp
    have hpv : field m (BitVec.ofNat 32 b.addr) .prev = BitVec.ofNat 32 p.addr := congrFun hs.2.1 .prev
    have hfp : field m (BitVec.ofNat 32 p.addr) .isFree ≠ 0 ↔ p.free := by
      rw [show field m (BitVec.ofNat 32 p.addr) .isFree = hdr m p.addr .isFree from rfl, hs.1]
      exact header_isFree_ne_zero p _ _
    have hp0 := ofNat_ne_zero (x := p.addr) (by omega) (by omega)
    rw [mergePrev_succ, hpv]
    by_cases hpf : p.free
    · rw [if_pos ⟨hp0, hfp.2 hpf⟩]
      have hab := Links.absorb hs ⟨hbp, ht'⟩ he
      have h2 : Links (absorbStep m (BitVec.ofNat 32 p.addr) (BitVec.ofNat 32 b.addr)) 0
          (P.reverse ++ p.absorb b :: R) 0 :=
        Links.lift h ht (by omega) (fun _ => hab.1) rfl (hab.2.1.mono (Nat.zero_le a) le_rfl)
      have ht2 : Tiles a (P.reverse ++ p.absorb b :: R) e :=
        tiles_append.2 ⟨x, hL, tiles_absorb ⟨hpx, hbp, ht'⟩⟩
      obtain ⟨m', e', h', o'⟩ := ih h2 ht2 (by simpa using hf)
      rw [Blk.absorb_addr] at e'
      -- both writes are into headers of the list before the turn
      have hsub : (P.reverse ++ p :: R).map Blk.addr ⊆ ((p :: P).reverse ++ b :: R).map Blk.addr := by
        rw [List.reverse_cons, List.append_assoc, List.singleton_append]
        exact ((((List.sublist_cons_self b R).cons₂ p).append_left _).map _).subset
      have habs : ∀ Q, (Q ++ p.absorb b :: R).map Blk.addr = (Q ++ p :: R).map Blk.addr := by simp
      refine ⟨m', e', by simpa only [absorbIntoFree, hpf, if_true] using h',
        (hab.2.2.mono ?_).trans (o'.mono (habs _ ▸ hsub))⟩
      rw [← List.nil_append (p.absorb b :: R), habs]
      exact (((List.sublist_append_right P.reverse _).map _).subset).trans hsub
    · rw [if_neg fun hc => hpf (hfp.1 hc.2)]
      refine ⟨m, rfl, ?_, linksOnly_self⟩
      simpa only [absorbIntoFree, hpf, if_false, Bool.false_eq_true, List.reverse_cons,
        List.append_assoc, List.singleton_append] using h

/-- **`find_free_block`** returns the header of the block first fit picks,
or `NULL` when there is none, within one turn per block. -/
theorem findFreeBlock_links {m : Mem} {p a e r fuel : Nat} {bs : List Blk}
    (h : Links m p bs 0) (ht : Tiles a bs e) (ha : 0 < a) (he : e ≤ 2 ^ 31) (hr : r < 2 ^ 32)
    (hf : bs.length < fuel) :
    findFreeBlock m (BitVec.ofNat 32 r) fuel (BitVec.ofNat 32 (headAddr bs 0)) =
      .ok (BitVec.ofNat 32 (((alloc r bs).map Prod.snd).getD 0)) := by
  obtain ⟨fuel, rfl⟩ : ∃ f, fuel = f + 1 := ⟨fuel - 1, by omega⟩
  induction bs generalizing p a fuel with
  | nil => simp [findFreeBlock, alloc]
  | cons b bs ih =>
    obtain ⟨hb, hL⟩ := h
    obtain ⟨rfl, ht⟩ := ht
    have := ht.le
    simp only [Blk.endAddr] at this
    have hfits : (field m (BitVec.ofNat 32 b.addr) .isFree ≠ 0 ∧
        BitVec.ofNat 32 r ≤ field m (BitVec.ofNat 32 b.addr) .size) ↔ b.fits r := by
      rw [show field m (BitVec.ofNat 32 b.addr) .isFree = hdr m b.addr .isFree from rfl,
        show field m (BitVec.ofNat 32 b.addr) .size = hdr m b.addr .size from rfl, hb,
        header_isFree_ne_zero]
      simp only [Blk.header, ofNat_le_ofNat (y := b.size) hr (by omega), Blk.fits, Bool.and_eq_true,
        decide_eq_true_eq]
    have hnx : field m (BitVec.ofNat 32 b.addr) .next = BitVec.ofNat 32 (headAddr bs 0) :=
      congrFun hb .next
    rw [headAddr_cons, findFreeBlock, if_neg (ofNat_ne_zero ha (by omega))]
    by_cases hfit : b.fits r
    · rw [if_pos (hfits.2 hfit)]
      simp [alloc, hfit]
    · rw [if_neg (mt hfits.1 hfit), hnx]
      cases fuel with
      | zero => cases bs <;> simp at hf
      | succ fuel =>
        rw [ih hL ht (by simp only [Blk.endAddr]; omega) fuel (by simpa using hf)]
        simp [alloc, hfit, Function.comp_def]

end MiniCore.Mm
