import Mathlib.Data.BitVec
import Mathlib.Logic.Function.Basic

/-!
# Byte memory of the 32-bit target

The heap allocator keeps its block headers inside the arena it manages, so
the allocator's state IS a range of bytes. This module gives that memory: a
total map from 32-bit addresses to bytes, read and written by the three
kinds of access the allocator performs.

* a header field (`size_t`, `int` or a pointer) is a little-endian 32-bit
  word: `load32` and `store32`;
* `memset` fills a range with one byte, and does not come back from a
  range that wraps round the address space;
* `memcpy` copies byte by byte, lowest address first, as the loop in
  `mm.c` does.

`memset` and `memcpy` write only the range they are given (`Agree.fill`,
`Agree.memcpy`); what those ranges are is the allocator's business.

Addresses are `BitVec 32`, so pointer arithmetic wraps exactly as it does
on the target, and a range that runs past `0xFFFFFFFF` continues at `0`.

The two facts everything above this module uses are `load32_store32_same`
(a store is read back) and `load32_congr` with `Agree.store32` (a load
sees only its own four bytes, a store changes only its own four bytes).
Whole headers and whole block lists are framed through them, never by
unfolding a store.
-/

namespace MiniCore

/-- The byte memory: every 32-bit address holds one byte. The kernel
image below the heap (its code, its static variables and the boot stack) is
not in it: the static variables are fields of the state records instead,
so the bytes of `Mem` at the image's addresses stand for nothing, and no
write of the model may reach them (see `memset`). -/
abbrev Mem := BitVec 32 → BitVec 8

namespace Mem

/-- Byte `k` (little-endian) of a 32-bit word. -/
def byteAt (v : BitVec 32) (k : Nat) : BitVec 8 := BitVec.ofNat 8 (v.toNat / 256 ^ k)

/-- A 32-bit little-endian load. -/
def load32 (m : Mem) (a : BitVec 32) : BitVec 32 :=
  BitVec.ofNat 32 ((m a).toNat + (m (a + 1)).toNat * 2 ^ 8 + (m (a + 2)).toNat * 2 ^ 16
    + (m (a + 3)).toNat * 2 ^ 24)

/-- A 32-bit little-endian store. A byte belongs to the store when its
offset from `a`, counted modulo `2^32`, is below four. -/
def store32 (m : Mem) (a v : BitVec 32) : Mem := fun x =>
  if (x - a).toNat < 4 then byteAt v (x - a).toNat else m x

/-- The memory after `count` bytes from `dest` on were set to `value`. The
loop of `memset` writes one constant, so its final memory is this closed
form whatever the order of the writes. -/
def fill (m : Mem) (dest : BitVec 32) (value : BitVec 8) (count : BitVec 32) : Mem :=
  fun x => if (x - dest).toNat < count.toNat then value else m x

/-- `memset(dest, value, count)`. A fill that runs past `0xFFFFFFFF` goes on
at address 0 and through the kernel image below the heap: the code `memset`
runs, the kernel's static variables and the stack it returns through, none
of which `Mem` holds. Such a call does not come back, and the model gives
`none` for it. -/
def memset (m : Mem) (dest : BitVec 32) (value : BitVec 8) (count : BitVec 32) : Option Mem :=
  if 2 ^ 32 < dest.toNat + count.toNat then none else some (fill m dest value count)

theorem memset_of_le (m : Mem) {dest : BitVec 32} (value : BitVec 8) {count : BitVec 32}
    (h : dest.toNat + count.toNat ≤ 2 ^ 32) : memset m dest value count = some (fill m dest value count) :=
  if_neg (Nat.not_lt.2 h)

/-- The copy loop of `memcpy`, one byte per step, lowest address first.
Each step reads the memory the earlier steps left, as the C loop does. -/
def copyLoop : Nat → Mem → BitVec 32 → BitVec 32 → Mem
  | 0, m, _, _ => m
  | n + 1, m, d, s => copyLoop n (Function.update m d (m s)) (d + 1) (s + 1)

/-- `memcpy(dest, src, count)`. -/
def memcpy (m : Mem) (dest src count : BitVec 32) : Mem := copyLoop count.toNat m dest src

/-! ## Reading back a store -/

/-- The four bytes of a word at `a` sit at offsets `0, 1, 2, 3` from `a`,
wherever `a` is. -/
theorem load32_eq_of_offsets {m m' : Mem} {a : BitVec 32}
    (h : ∀ x : BitVec 32, (x - a).toNat < 4 → m' x = m x) : load32 m' a = load32 m a := by
  have h1 : (a + 1 - a).toNat < 4 := by bv_omega
  have h2 : (a + 2 - a).toNat < 4 := by bv_omega
  have h3 : (a + 3 - a).toNat < 4 := by bv_omega
  simp only [load32, h a (by simp), h _ h1, h _ h2, h _ h3]

theorem load32_store32_same (m : Mem) (a v : BitVec 32) : load32 (store32 m a v) a = v := by
  have h1 : (a + 1 - a).toNat = 1 := by bv_omega
  have h2 : (a + 2 - a).toNat = 2 := by bv_omega
  have h3 : (a + 3 - a).toNat = 3 := by bv_omega
  apply BitVec.eq_of_toNat_eq
  simp only [load32, store32, h1, h2, h3, BitVec.sub_self]
  simp [byteAt]
  have := v.isLt
  omega

/-! ## Framing

`Agree m m' lo hi`: the two memories hold the same bytes at every address
in `[lo, hi)`. Loads are congruent under it, and a store outside the range
keeps it. -/

/-- Two memories agree on the addresses `lo ≤ x < hi`. -/
def Agree (m m' : Mem) (lo hi : Nat) : Prop :=
  ∀ x : BitVec 32, lo ≤ x.toNat → x.toNat < hi → m' x = m x

theorem Agree.refl (m : Mem) (lo hi : Nat) : Agree m m lo hi := fun _ _ _ => rfl

theorem Agree.symm {m m' : Mem} {lo hi : Nat} (h : Agree m m' lo hi) : Agree m' m lo hi :=
  fun x hl hh => (h x hl hh).symm

theorem Agree.trans {m₁ m₂ m₃ : Mem} {lo hi : Nat} (h₁ : Agree m₁ m₂ lo hi)
    (h₂ : Agree m₂ m₃ lo hi) : Agree m₁ m₃ lo hi :=
  fun x hl hh => (h₂ x hl hh).trans (h₁ x hl hh)

theorem Agree.mono {m m' : Mem} {lo hi lo' hi' : Nat} (h : Agree m m' lo hi)
    (hl : lo ≤ lo') (hh : hi' ≤ hi) : Agree m m' lo' hi' :=
  fun x h₁ h₂ => h x (by omega) (by omega)

/-- A load reads only its own four bytes. -/
theorem load32_congr {m m' : Mem} {a : Nat} (h : Agree m m' a (a + 4)) (ha : a + 4 ≤ 2 ^ 32) :
    load32 m' (BitVec.ofNat 32 a) = load32 m (BitVec.ofNat 32 a) :=
  load32_eq_of_offsets fun x hx => h x
    (by simp only [BitVec.toNat_sub, BitVec.toNat_ofNat] at hx; omega)
    (by simp only [BitVec.toNat_sub, BitVec.toNat_ofNat] at hx; omega)

/-- A store at `a` leaves every range it does not meet. -/
theorem Agree.store32 (m : Mem) {a : Nat} (v : BitVec 32) {lo hi : Nat}
    (h : a + 4 ≤ lo ∨ hi ≤ a) (ha : a + 4 ≤ 2 ^ 32) :
    Agree m (store32 m (BitVec.ofNat 32 a) v) lo hi := by
  intro x hl hh
  have : ¬ (x - BitVec.ofNat 32 a).toNat < 4 := by
    simp only [BitVec.toNat_sub, BitVec.toNat_ofNat]
    omega
  simp only [Mem.store32, if_neg this]

/-- Two stores four bytes apart or more do not see each other. -/
theorem load32_store32_far (m : Mem) {a b : Nat} (v : BitVec 32)
    (h : a + 4 ≤ b ∨ b + 4 ≤ a) (ha : a + 4 ≤ 2 ^ 32) (hb : b + 4 ≤ 2 ^ 32) :
    load32 (store32 m (BitVec.ofNat 32 a) v) (BitVec.ofNat 32 b) = load32 m (BitVec.ofNat 32 b) :=
  load32_congr (Agree.store32 m v (by omega) ha) hb

/-- A fill leaves every range it does not meet. -/
theorem Agree.fill (m : Mem) {d : Nat} (v : BitVec 8) (c : BitVec 32) {lo hi : Nat}
    (h : d + c.toNat ≤ lo ∨ hi ≤ d) (hd : d + c.toNat < 2 ^ 32) :
    Agree m (fill m (BitVec.ofNat 32 d) v c) lo hi := by
  intro x hl hh
  have : ¬ (x - BitVec.ofNat 32 d).toNat < c.toNat := by
    simp only [BitVec.toNat_sub, BitVec.toNat_ofNat]
    omega
  simp only [Mem.fill, if_neg this]

/-- The copy loop leaves every range its destination does not meet. -/
theorem Agree.copyLoop {lo hi : Nat} :
    ∀ (n : Nat) (m : Mem) (d s : BitVec 32), (d.toNat + n ≤ lo ∨ hi ≤ d.toNat) →
      d.toNat + n < 2 ^ 32 → Agree m (Mem.copyLoop n m d s) lo hi
  | 0, m, _, _, _, _ => Agree.refl m lo hi
  | n + 1, m, d, s, h, hd => by
    have hd1 : (d + 1).toNat = d.toNat + 1 := by bv_omega
    have hu : Agree m (Function.update m d (m s)) lo hi := fun x hl hh => by
      have : x ≠ d := fun e => by subst e; omega
      simp only [Function.update_noteq this]
    exact hu.trans (Agree.copyLoop n _ (d + 1) (s + 1) (by omega) (by omega))

/-- `memcpy` leaves every range its destination does not meet. -/
theorem Agree.memcpy (m : Mem) {d : Nat} (s c : BitVec 32) {lo hi : Nat}
    (h : d + c.toNat ≤ lo ∨ hi ≤ d) (hd : d + c.toNat < 2 ^ 32) :
    Agree m (memcpy m (BitVec.ofNat 32 d) s c) lo hi := by
  have hd' : (BitVec.ofNat 32 d).toNat = d := by simp only [BitVec.toNat_ofNat]; omega
  exact Agree.copyLoop c.toNat m _ s (by omega) (by omega)

/-! ## What the copy reads back -/

theorem ofNat_ne_ofNat {x y : Nat} (hxy : x ≠ y) (hx : x < 2 ^ 32) (hy : y < 2 ^ 32) :
    BitVec.ofNat 32 x ≠ BitVec.ofNat 32 y := fun e => by
  have := congrArg BitVec.toNat e
  simp only [BitVec.toNat_ofNat, Nat.mod_eq_of_lt hx, Nat.mod_eq_of_lt hy] at this
  exact hxy this

/-- With the source and the destination apart, the copy loop leaves in
byte `i` of the destination what byte `i` of the source held. -/
theorem copyLoop_copies : ∀ (n : Nat) (m : Mem) {d s : Nat}, d + n < 2 ^ 32 → s + n < 2 ^ 32 →
    (d + n ≤ s ∨ s + n ≤ d) → ∀ i < n,
      Mem.copyLoop n m (BitVec.ofNat 32 d) (BitVec.ofNat 32 s) (BitVec.ofNat 32 (d + i)) =
        m (BitVec.ofNat 32 (s + i))
  | 0, _, _, _, _, _, _, i, hi => absurd hi (Nat.not_lt_zero i)
  | n + 1, m, d, s, hd, hs, hds, i, hi => by
    have hd1 : BitVec.ofNat 32 d + 1 = BitVec.ofNat 32 (d + 1) := (BitVec.ofNat_add d 1).symm
    have hs1 : BitVec.ofNat 32 s + 1 = BitVec.ofNat 32 (s + 1) := (BitVec.ofNat_add s 1).symm
    rw [Mem.copyLoop, hd1, hs1]
    cases i with
    | zero =>
      -- the first byte, which the rest of the loop does not write again
      have hag := @Agree.copyLoop d (d + 1) n (Function.update m (BitVec.ofNat 32 d)
        (m (BitVec.ofNat 32 s))) (BitVec.ofNat 32 (d + 1)) (BitVec.ofNat 32 (s + 1))
        (.inr (by simp only [BitVec.toNat_ofNat]; omega)) (by simp only [BitVec.toNat_ofNat]; omega)
      rw [hag _ (by simp only [BitVec.toNat_ofNat]; omega) (by simp only [BitVec.toNat_ofNat]; omega)]
      simp
    | succ j =>
      have e := copyLoop_copies n (Function.update m (BitVec.ofNat 32 d) (m (BitVec.ofNat 32 s)))
        (d := d + 1) (s := s + 1) (by omega) (by omega) (by omega) j (by omega)
      rw [show d + (j + 1) = d + 1 + j by omega, e, show s + 1 + j = s + (j + 1) by omega,
        Function.update_noteq (ofNat_ne_ofNat (by omega) (by omega) (by omega))]

/-- `memcpy` between two ranges that are apart copies every byte. -/
theorem memcpy_copies (m : Mem) {d s : Nat} (c : BitVec 32) (hd : d + c.toNat < 2 ^ 32)
    (hs : s + c.toNat < 2 ^ 32) (hds : d + c.toNat ≤ s ∨ s + c.toNat ≤ d) :
    ∀ i < c.toNat, memcpy m (BitVec.ofNat 32 d) (BitVec.ofNat 32 s) c (BitVec.ofNat 32 (d + i)) =
      m (BitVec.ofNat 32 (s + i)) :=
  copyLoop_copies c.toNat m hd hs hds

end Mem

end MiniCore
