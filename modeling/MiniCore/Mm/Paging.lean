import Mathlib.Data.BitVec

/-!
# `paging_init`: an identity map of the first 4 MiB, if the tables are aligned

`mm.h` declares a page entry, `page_entry_t`, as nine bit-fields of one
32-bit word, from the low bit up: `present`, `writable`, `user`, two
reserved bits, `accessed`, `dirty`, two more reserved bits, three
`available` bits and the 20-bit `frame`. `PageEntry` holds the fields and
`PageEntry.toWord` packs them as GCC lays out bit-fields on i386, the first
field in the lowest bits. `PageEntry.ofWord` reads the fields back from a
word at the positions the x86 MMU reads them.

`paging_init` clears `kernel_page_directory`, fills the 1024 entries of
`kernel_page_tables[0]` with the frames `0` to `1023`, present and
writable, and installs that table as entry 0 of the directory, by the frame
of its address `(uint32_t)&kernel_page_tables[0] >> 12`.

The packing is a bijection: unpacking a packed entry gives its fields back,
so the fields neither overlap nor overflow the word
(`PageEntry.ofWord_toWord`), and every word is the packing of what it
unpacks to, so they leave no gap (`PageEntry.toWord_ofWord`).

**The law** (`paging_init_maps_first_4mib`): read as the x86 two-level walk
reads them (`Paging.translate`), the tables `paging_init` builds map every
address below 4 MiB to itself if the array `kernel_page_tables` starts on a
4 KiB boundary, and make every other address fault. The directory entry
keeps only the top 20 bits of the table's address (`frame_shift`), so if
the array is not aligned the walk of a low address reads its table entry
from the page the array starts in, where no table starts (`Walk.stray`).
`mm.c` declares the array without an alignment, so whether the map is the
identity is the linker's to decide.

## What this does NOT cover

Nothing in `src/` loads the directory into `cr3` or sets `cr0.PG`, so the
processor never walks these tables; `Paging.translate` says what they would
mean to it. What a stray walk reads: the model does not hold the memory
around the array. `paging_create_directory`, `paging_map_page`,
`paging_unmap_page` and `paging_get_physical_addr` are declared in `mm.h`
and defined nowhere in `src/`.
-/

namespace MiniCore.Mm

/-! ## The source -/

/-- `page_entry_t`. -/
structure PageEntry where
  present : BitVec 1
  writable : BitVec 1
  user : BitVec 1
  reserved1 : BitVec 2
  accessed : BitVec 1
  dirty : BitVec 1
  reserved2 : BitVec 2
  available : BitVec 3
  frame : BitVec 20
  deriving DecidableEq

/-- The word a `page_entry_t` occupies: each field at its offset, from the
low bit up. -/
def PageEntry.toWord (e : PageEntry) : BitVec 32 :=
  BitVec.ofNat 32 (e.present.toNat + e.writable.toNat * 2 + e.user.toNat * 4 + e.reserved1.toNat * 8 +
    e.accessed.toNat * 32 + e.dirty.toNat * 64 + e.reserved2.toNat * 128 + e.available.toNat * 512 +
    e.frame.toNat * 4096)

/-- The fields of the word `w`, at the bits the x86 MMU reads them. -/
def PageEntry.ofWord (w : BitVec 32) : PageEntry :=
  ⟨w.extractLsb' 0 1, w.extractLsb' 1 1, w.extractLsb' 2 1, w.extractLsb' 3 2, w.extractLsb' 5 1,
    w.extractLsb' 6 1, w.extractLsb' 7 2, w.extractLsb' 9 3, w.extractLsb' 12 20⟩

/-- `PAGE_SIZE`. -/
def pageSize : Nat := 4096

/-- The statics `kernel_page_directory` and `kernel_page_tables`. -/
structure Paging where
  directory : Fin 1024 → PageEntry
  tables : Fin 256 → Fin 1024 → PageEntry

/-- `paging_init`, with `tablesAddr` the address the image gives
`kernel_page_tables`. The `memset` leaves every directory entry the zero
word. -/
def pagingInit (p : Paging) (tablesAddr : BitVec 32) : Paging :=
  { directory := fun j =>
      if j = 0 then
        { PageEntry.ofWord 0 with
          present := 1
          writable := 1
          user := 0
          frame := (tablesAddr >>> 12).setWidth 20 }
      else PageEntry.ofWord 0
    tables := fun k i =>
      if k = 0 then
        let physicalAddr := BitVec.ofNat 32 (i.val * pageSize)
        { p.tables 0 i with
          present := 1
          writable := 1
          user := 0
          frame := (physicalAddr >>> 12).setWidth 20 }
      else p.tables k i }

/-! ## What the tables mean to the processor -/

/-- The directory index of `va`: its top ten bits. -/
def dirIndex (va : BitVec 32) : Fin 1024 := ⟨va.toNat / 4194304, by have := va.isLt; omega⟩

/-- The table index of `va`: its next ten bits. -/
def tableIndex (va : BitVec 32) : Fin 1024 := ⟨va.toNat / 4096 % 1024, Nat.mod_lt _ (by decide)⟩

/-- Which of the 256 tables of `kernel_page_tables`, placed at
`tablesAddr`, starts at `addr`, if one does. -/
def tableAt (tablesAddr addr : BitVec 32) : Option (Fin 256) :=
  let off := (addr - tablesAddr).toNat
  if h : off % 4096 = 0 ∧ off / 4096 < 256 then some ⟨off / 4096, h.2⟩ else none

/-- Where the x86 two-level walk of an address ends. -/
inductive Walk
  /-- A page fault: an entry on the way is not present. -/
  | fault
  /-- The directory entry names the page at `tableAddr`, where none of the
  tables starts: the walk reads its table entry from other memory. -/
  | stray (tableAddr : BitVec 32)
  /-- The physical address. -/
  | page (pa : BitVec 32)
  deriving DecidableEq

/-- Where the x86 two-level walk sends the address `va` through these
tables, placed at `tablesAddr`: the directory entry of `va`, which must be
present, names the table at its frame; the table's entry for `va`, which
must be present, names the page frame; the low twelve bits of `va` are the
offset into it. -/
def Paging.translate (p : Paging) (tablesAddr va : BitVec 32) : Walk :=
  let pde := PageEntry.ofWord (p.directory (dirIndex va)).toWord
  if pde.present = 0 then .fault
  else
    let tableAddr := pde.frame.setWidth 32 <<< 12
    match tableAt tablesAddr tableAddr with
    | none => .stray tableAddr
    | some k =>
      let pte := PageEntry.ofWord (p.tables k (tableIndex va)).toWord
      if pte.present = 0 then .fault else .page ((pte.frame.setWidth 32 <<< 12) + va % 4096)

/-! ## The packing -/

theorem toNat_extractLsb' (w : BitVec 32) (s n : Nat) : (w.extractLsb' s n).toNat = w.toNat / 2 ^ s % 2 ^ n := by
  rw [BitVec.extractLsb'_toNat, Nat.shiftRight_eq_div_pow]

/-- The packed fields, as a number below `2 ^ 32`. -/
theorem PageEntry.toNat_toWord (e : PageEntry) :
    e.toWord.toNat = e.present.toNat + e.writable.toNat * 2 + e.user.toNat * 4 + e.reserved1.toNat * 8 +
      e.accessed.toNat * 32 + e.dirty.toNat * 64 + e.reserved2.toNat * 128 + e.available.toNat * 512 +
      e.frame.toNat * 4096 := by
  have := e.present.isLt; have := e.writable.isLt; have := e.user.isLt; have := e.reserved1.isLt
  have := e.accessed.isLt; have := e.dirty.isLt; have := e.reserved2.isLt; have := e.available.isLt
  have := e.frame.isLt
  rw [PageEntry.toWord, BitVec.toNat_ofNat]
  apply Nat.mod_eq_of_lt
  simp only [Nat.reducePow] at *
  omega

theorem PageEntry.ofWord_toWord (e : PageEntry) : ofWord e.toWord = e := by
  have := e.present.isLt; have := e.writable.isLt; have := e.user.isLt; have := e.reserved1.isLt
  have := e.accessed.isLt; have := e.dirty.isLt; have := e.reserved2.isLt; have := e.available.isLt
  have := e.frame.isLt
  obtain ⟨p, w, u, r1, a, d, r2, av, f⟩ := e
  simp only [ofWord, mk.injEq, BitVec.toNat_eq, toNat_extractLsb', toNat_toWord]
  simp only [Nat.reducePow] at *
  omega

theorem PageEntry.toWord_ofWord (w : BitVec 32) : (ofWord w).toWord = w := by
  have := w.isLt
  rw [BitVec.toNat_eq, toNat_toWord]
  simp only [ofWord, toNat_extractLsb']
  simp only [Nat.reducePow] at *
  omega

/-! ## The identity map -/

/-- `tablesAddr` rounded down to its 4 KiB page. -/
def pageBase (tablesAddr : BitVec 32) : BitVec 32 := BitVec.ofNat 32 (tablesAddr.toNat / 4096 * 4096)

/-- The directory entry `paging_init` installs keeps only the frame of the
table's address, so it names the page that address lies in. -/
theorem frame_shift (tablesAddr : BitVec 32) :
    ((tablesAddr >>> 12).setWidth 20).setWidth 32 <<< 12 = pageBase tablesAddr := by
  have := tablesAddr.isLt
  rw [BitVec.toNat_eq]
  simp only [pageBase, BitVec.toNat_ofNat, BitVec.toNat_shiftLeft, BitVec.toNat_setWidth, BitVec.toNat_ushiftRight,
    Nat.shiftLeft_eq, Nat.shiftRight_eq_div_pow, Nat.reducePow] at *
  omega

theorem pageBase_of_aligned {tablesAddr : BitVec 32} (ha : tablesAddr.toNat % 4096 = 0) :
    pageBase tablesAddr = tablesAddr := by
  rw [BitVec.toNat_eq, pageBase, BitVec.toNat_ofNat]
  omega

theorem tableAt_self (tablesAddr : BitVec 32) : tableAt tablesAddr tablesAddr = some 0 := by
  simp [tableAt]

/-- An unaligned array does not start at its own page: the page names none
of the tables. -/
theorem tableAt_pageBase {tablesAddr : BitVec 32} (ha : tablesAddr.toNat % 4096 ≠ 0) :
    tableAt tablesAddr (pageBase tablesAddr) = none := by
  have := tablesAddr.isLt
  simp only [tableAt, pageBase, BitVec.toNat_sub, BitVec.toNat_ofNat, dite_eq_right_iff, reduceCtorEq, imp_false]
  omega

theorem pagingInit_directory (p : Paging) (tablesAddr : BitVec 32) (j : Fin 1024) :
    (pagingInit p tablesAddr).directory j =
      if j = 0 then
        { PageEntry.ofWord 0 with
          present := 1
          writable := 1
          user := 0
          frame := (tablesAddr >>> 12).setWidth 20 }
      else PageEntry.ofWord 0 := rfl

theorem pagingInit_tables (p : Paging) (tablesAddr : BitVec 32) (k : Fin 256) (i : Fin 1024) :
    (pagingInit p tablesAddr).tables k i =
      if k = 0 then
        { p.tables 0 i with
          present := 1
          writable := 1
          user := 0
          frame := (BitVec.ofNat 32 (i.val * pageSize) >>> 12).setWidth 20 }
      else p.tables k i := rfl

theorem dirIndex_eq_zero {va : BitVec 32} (hlow : va.toNat < 0x400000) : dirIndex va = 0 :=
  Fin.ext (by simp only [dirIndex, Fin.val_zero]; omega)

/-- Below 4 MiB the walk reads directory entry 0, present, and looks for a
table at the page holding `kernel_page_tables`. -/
theorem translate_dir_zero (p : Paging) (tablesAddr : BitVec 32) {va : BitVec 32} (hlow : va.toNat < 0x400000) :
    (pagingInit p tablesAddr).translate tablesAddr va =
      match tableAt tablesAddr (pageBase tablesAddr) with
      | none => .stray (pageBase tablesAddr)
      | some k =>
        let pte := PageEntry.ofWord ((pagingInit p tablesAddr).tables k (tableIndex va)).toWord
        if pte.present = 0 then .fault else .page ((pte.frame.setWidth 32 <<< 12) + va % 4096) := by
  unfold Paging.translate
  rw [PageEntry.ofWord_toWord, dirIndex_eq_zero hlow, pagingInit_directory, if_pos rfl]
  dsimp only
  rw [if_neg (by decide), frame_shift]

/-- Below 4 MiB: directory entry 0 names table 0, whose entry `va / 4096`
names the frame `va / 4096`. -/
theorem translate_low (p : Paging) {tablesAddr : BitVec 32} (ha : tablesAddr.toNat % 4096 = 0) {va : BitVec 32}
    (hlow : va.toNat < 0x400000) : (pagingInit p tablesAddr).translate tablesAddr va = .page va := by
  have hva := va.isLt
  rw [translate_dir_zero p tablesAddr hlow, pageBase_of_aligned ha, tableAt_self]
  dsimp only
  rw [PageEntry.ofWord_toWord, pagingInit_tables, if_pos rfl]
  dsimp only
  rw [if_neg (by decide)]
  congr 1
  -- the frame `va / 4096`, shifted back, and the offset make `va`
  have h4096 : (4096 : BitVec 32).toNat = 4096 := rfl
  rw [BitVec.toNat_eq]
  simp only [h4096, tableIndex, pageSize, BitVec.toNat_add, BitVec.toNat_shiftLeft, BitVec.toNat_setWidth,
    BitVec.toNat_ushiftRight, BitVec.toNat_ofNat, BitVec.toNat_umod, Nat.shiftLeft_eq,
    Nat.shiftRight_eq_div_pow, Nat.reducePow] at *
  omega

/-- Below 4 MiB, with the array not on a page boundary: the walk reads its
table entry from the page the array starts in, where no table starts. -/
theorem translate_stray (p : Paging) {tablesAddr : BitVec 32} (ha : tablesAddr.toNat % 4096 ≠ 0) {va : BitVec 32}
    (hlow : va.toNat < 0x400000) : (pagingInit p tablesAddr).translate tablesAddr va = .stray (pageBase tablesAddr) := by
  rw [translate_dir_zero p tablesAddr hlow, tableAt_pageBase ha]

/-- From 4 MiB on: a directory entry the `memset` cleared. -/
theorem translate_high (p : Paging) (tablesAddr : BitVec 32) {va : BitVec 32} (hhigh : ¬va.toNat < 0x400000) :
    (pagingInit p tablesAddr).translate tablesAddr va = .fault := by
  have hd : dirIndex va ≠ 0 := fun h => hhigh (by have := congrArg Fin.val h; simp only [dirIndex] at this; omega)
  unfold Paging.translate
  rw [PageEntry.ofWord_toWord, pagingInit_directory, if_neg hd, if_pos]
  rfl

/-- **`paging_init` maps the first 4 MiB to itself, if the tables are
aligned, and nothing else.** Read by the x86 walk, the tables `paging_init`
builds send every address below `0x400000` to itself if
`kernel_page_tables` starts on a 4 KiB boundary; if it does not, the walk of
every such address reads its table entry from the page the array starts
in, where no table starts; every other address faults. Whatever the tables
held before. -/
theorem paging_init_maps_first_4mib (p : Paging) (tablesAddr va : BitVec 32) :
    (pagingInit p tablesAddr).translate tablesAddr va =
      if va.toNat < 0x400000 then
        if tablesAddr.toNat % 4096 = 0 then .page va else .stray (pageBase tablesAddr)
      else .fault := by
  split_ifs with hlow ha
  · exact translate_low p ha hlow
  · exact translate_stray p ha hlow
  · exact translate_high p tablesAddr hlow

/-- The VGA text buffer at `0xB8000`, with the tables at `0x100000`, and at
`0x0804C060`, which is not on a page boundary. -/
theorem vga_walk_needs_aligned_tables :
    (pagingInit ⟨fun _ => PageEntry.ofWord 0, fun _ _ => PageEntry.ofWord 0⟩ 0x100000).translate 0x100000 0xB8000 =
        .page 0xB8000 ∧
      (pagingInit ⟨fun _ => PageEntry.ofWord 0, fun _ _ => PageEntry.ofWord 0⟩ 0x0804C060).translate 0x0804C060
          0xB8000 = .stray 0x0804C000 :=
  ⟨(paging_init_maps_first_4mib _ _ _).trans (by decide), (paging_init_maps_first_4mib _ _ _).trans (by decide)⟩

end MiniCore.Mm
