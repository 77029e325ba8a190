import MiniCore.Shell.Handlers
import MiniCore.Kernel.Number

/-!
# `fs_list` lists the file map

`fs_list` prints a header and, for each of the `file_count` entries of the
table in order, a line with the name padded to 24 columns, the size by
`terminal_write_dec` padded to 6 columns by a loop that counts its digits,
and the type; then the count of files out of `FS_MAX_FILES`.

On a table that represents a file map (`Fs.Table`), each entry's line is
the abstract line of the map's file at that index (`listLine_stored`): the
name the map holds, the length of its content, and the entry's type. The
digit loop counts exactly the digits `terminal_write_dec` prints
(`sizeDigitsLoop_ten`), so the padding fills the size to six columns.

**The law** (`fs_list_lists_files`): on a table that represents the map
`m`, as every table after `fs_init` and any `fs_add_file` calls does,
`fs_list` prints "No files found." exactly when `m` is empty, and
otherwise one line per file of `m`, in the order the files were added,
each with the file's name, the length of its content and the type its
entry stores, then the number of files in `m`.

## What this does NOT cover

Where the lines land on the screen.
-/

namespace MiniCore.Fs

open Kernel Shell

/-! ## The source -/

/-- The loop of `fs_list` that counts the digits of `temp_size`, with fuel
for the ten digits a `uint32_t` has at most. -/
def sizeDigitsLoop : Nat → Nat → BitVec 32 → Nat
  | 0, sizeDigits, _ => sizeDigits
  | fuel + 1, sizeDigits, tempSize =>
    if tempSize ≥ 10 then sizeDigitsLoop fuel (sizeDigits + 1) (tempSize / 10) else sizeDigits

/-- The line `fs_list` prints for one file: the name padded to 24
characters, the size padded to 6 digits, and the type. -/
def listLine (file : FsFile) : List TermCall :=
  writes (List.ofFn file.name) ++ List.replicate (24 - fsStrlen (List.ofFn file.name)) (.putchar 32) ++
    [.putchar 32] ++ writeDec file.size ++ List.replicate (6 - sizeDigitsLoop 10 1 file.size) (.putchar 32) ++
    [.putchar 32] ++ writes (if file.type = .text then cBytes "TEXT" else cBytes "BINARY") ++ [.putchar 10]

/-- `fs_list`. A `file_count` past `FS_MAX_FILES` would read past the
table: `none`. -/
def fsList (fs : Filesystem) : Option (List TermCall) :=
  if !fs.initialized then
    some ([.setcolor lightRed] ++ writes (cBytes "File system not initialized!\n") ++ [.setcolor white])
  else
    let header := [.setcolor lightCyan] ++ writes (cBytes "=== File System Contents ===\n") ++ [.setcolor white]
    if fs.fileCount = 0 then some (header ++ writes (cBytes "No files found.\n"))
    else if fs.fileCount ≤ fsMaxFiles then
      some (header ++ writes (cBytes "Name                     Size   Type\n") ++
        writes (cBytes "------------------------ ------ --------\n") ++
        ((List.finRange fsMaxFiles).filter (·.val < fs.fileCount)).flatMap (fun i => listLine (fs.files i)) ++
        writes (cBytes "\nTotal files: ") ++ writeDec (BitVec.ofNat 32 fs.fileCount) ++ writes (cBytes " / ") ++
        writeDec (BitVec.ofNat 32 fsMaxFiles) ++ [.putchar 10])
    else none

/-- `fs_list` reads within the table whenever `file_count` is at most
`FS_MAX_FILES`. -/
theorem fsList_isSome {fs : Filesystem} (hfs : fs.fileCount ≤ fsMaxFiles) : ∃ out, fsList fs = some out := by
  unfold fsList
  split_ifs
  all_goals exact ⟨_, rfl⟩

/-! ## The digit count -/

/-- With enough turns, the loop adds the digits of `temp_size` after its
first one. -/
theorem sizeDigitsLoop_eq : ∀ (fuel d : Nat) (t : BitVec 32), t.toNat < 10 ^ (fuel + 1) →
    sizeDigitsLoop fuel d t = d + (Nat.digits 10 (t.toNat / 10)).length
  | 0, d, t, h => by
    rw [sizeDigitsLoop, show t.toNat / 10 = 0 by omega, Nat.digits_zero, List.length_nil, Nat.add_zero]
  | fuel + 1, d, t, h => by
    have h10 : (10 : BitVec 32) ≤ t ↔ 10 ≤ t.toNat := BitVec.le_def
    rw [sizeDigitsLoop]
    by_cases ht : 10 ≤ t.toNat
    · have hdiv : (t / 10).toNat = t.toNat / 10 := by
        rw [BitVec.toNat_udiv]
        rfl
      rw [if_pos (h10.2 ht), sizeDigitsLoop_eq fuel (d + 1) (t / 10) (by rw [hdiv, Nat.pow_succ] at *; omega), hdiv,
        Nat.digits_def' (by decide) (by omega : 0 < t.toNat / 10), List.length_cons]
      omega
    · rw [if_neg (mt h10.1 ht), show t.toNat / 10 = 0 by omega, Nat.digits_zero, List.length_nil, Nat.add_zero]

/-- `terminal_write_dec` prints one digit, and one more for each digit
after the first. -/
theorem length_decChars (v : BitVec 32) : (decChars v).length = 1 + (Nat.digits 10 (v.toNat / 10)).length := by
  unfold decChars
  split_ifs with hv
  · subst hv
    simp
  · have hv0 : v.toNat ≠ 0 := fun h => hv (BitVec.eq_of_toNat_eq h)
    rw [List.length_reverse, decLoop_eq_digits 10 v (by have := v.isLt; omega), List.length_map,
      Nat.digits_def' (by decide) (Nat.pos_of_ne_zero hv0), List.length_cons]
    omega

/-- `fs_list` counts exactly the digits `terminal_write_dec` printed. -/
theorem sizeDigitsLoop_ten (v : BitVec 32) : sizeDigitsLoop 10 1 v = (decChars v).length := by
  rw [sizeDigitsLoop_eq 10 1 v (by have := v.isLt; omega), length_decChars]

/-! ## The lines of a represented table -/

/-- The line `fs_list` is meant to print for a file named `name` holding
`size` bytes, of type `type`: the name and the size, each padded to its
column, and the type. -/
def entryLine (name : List (BitVec 8)) (size : Nat) (type : FileType) : List TermCall :=
  name.map .putchar ++ List.replicate (24 - name.length) (.putchar 32) ++ [.putchar 32] ++
    writeDec (BitVec.ofNat 32 size) ++ List.replicate (6 - (decChars (BitVec.ofNat 32 size)).length) (.putchar 32) ++
    [.putchar 32] ++ writes (if type = .text then cBytes "TEXT" else cBytes "BINARY") ++ [.putchar 10]

/-- The line of an entry that stores the file `e` is the abstract line of
`e`. -/
theorem listLine_stored {fs : Filesystem} {k : Fin fsMaxFiles} {e : List (BitVec 8) × List (BitVec 8)}
    (h : Stored fs k e) : listLine (fs.files k) = entryLine e.1 e.2.length (fs.files k).type := by
  rw [listLine, entryLine, writes, fsStrlen_eq, h.name, sizeDigitsLoop_ten, h.size]

theorem filter_range_lt : ∀ {n k : Nat}, k ≤ n → (List.range n).filter (fun x => decide (x < k)) = List.range k
  | 0, k, hk => by simp [Nat.le_zero.1 hk]
  | n + 1, k, hk => by
    rcases Nat.lt_or_ge n k with h | h
    · obtain rfl : k = n + 1 := by omega
      exact List.filter_eq_self.2 fun x hx => by simpa using List.mem_range.1 hx
    · rw [List.range_succ, List.filter_append, filter_range_lt h, List.filter_singleton, decide_eq_false (by omega),
        cond_false, List.append_nil]

/-- The entries `fs_list` visits are the indices below `file_count`. -/
theorem map_val_filter_finRange {n k : Nat} (hk : k ≤ n) :
    ((List.finRange n).filter fun i => decide (i.val < k)).map Fin.val = List.range k := by
  rw [← filter_range_lt hk, ← List.map_coe_finRange, List.filter_map]
  rfl

/-- ... which are the first `k` entries. -/
theorem take_finRange {n k : Nat} (hk : k ≤ n) :
    (List.finRange n).take k = (List.finRange n).filter fun i => decide (i.val < k) := by
  apply List.map_injective_iff.2 Fin.val_injective
  rw [map_val_filter_finRange hk, List.map_take, List.map_coe_finRange, List.take_range, Nat.min_eq_left hk]

theorem map_getD_range_length {α : Type} (l : List α) (d : α) :
    (List.range l.length).map (fun i => l.getD i d) = l := by
  apply List.ext_getElem (by simp)
  intro i _ h2
  rw [List.getElem_map, List.getElem_range, List.getD_eq_getElem?_getD, List.getElem?_eq_getElem h2,
    Option.getD_some]

/-! ## The law -/

/-- **`fs_list` lists the file map.** On a table that represents the map
`m`, `fs_list` prints "No files found." when `m` is empty; otherwise one
line per file of `m`, in the order added, with its name, the length of its
content and the type its entry stores, then the number of files. -/
theorem fs_list_lists_files {fs : Filesystem} {m : FileMap} (h : Represents fs m) :
    fsList fs = some ([.setcolor lightCyan] ++ writes (cBytes "=== File System Contents ===\n") ++
        [.setcolor white] ++
        if m = [] then writes (cBytes "No files found.\n")
        else writes (cBytes "Name                     Size   Type\n") ++
          writes (cBytes "------------------------ ------ --------\n") ++
          (m.zip (((List.ofFn fs.files).take m.length).map FsFile.type)).flatMap
            (fun f => entryLine f.1.1 f.1.2.length f.2) ++
          writes (cBytes "\nTotal files: ") ++ writeDec (BitVec.ofNat 32 m.length) ++ writes (cBytes " / ") ++
          writeDec (BitVec.ofNat 32 fsMaxFiles) ++ [.putchar 10]) := by
  -- the entries visited, and the file each stores
  let L := (List.finRange fsMaxFiles).filter fun i => decide (i.val < m.length)
  have hL : L.map Fin.val = List.range m.length := map_val_filter_finRange h.length_le
  have hzip : m.zip (((List.ofFn fs.files).take m.length).map FsFile.type) =
      L.map fun i => (m.getD i.val ([], []), (fs.files i).type) := by
    rw [List.ofFn_eq_map, ← List.map_take, take_finRange h.length_le, List.map_map]
    change m.zip (L.map (FsFile.type ∘ fs.files)) = _
    conv_lhs => arg 1; rw [← map_getD_range_length m ([], []), ← hL, List.map_map]
    exact List.zip_map' _ _ _
  have hlines : L.flatMap (fun i => listLine (fs.files i)) =
      L.flatMap fun i => entryLine (m.getD i.val ([], [])).1 (m.getD i.val ([], [])).2.length (fs.files i).type := by
    refine List.flatMap_congr fun i hi => ?_
    have hik : i.val < m.length := of_decide_eq_true (List.mem_filter.1 hi).2
    rw [listLine_stored (h.stored i hik), List.getD_eq_getElem?_getD, List.getElem?_eq_getElem hik, Option.getD_some]
  unfold fsList
  rw [h.initialized, h.count]
  by_cases he : m = []
  · subst he
    rfl
  · have hne : m.length ≠ 0 := fun h0 => he (List.eq_nil_of_length_eq_zero h0)
    rw [if_neg (by decide), if_neg hne, if_pos h.length_le, if_neg he]
    rw [hzip, List.flatMap_map, hlines]
    simp only [List.append_assoc]

/-- The listing `fs_init` leaves. -/
theorem listing_after_fs_init :
    Represents (fsInit Filesystem.bss) (FileMap.runAdds [] demoFiles) ∧
      fsList (fsInit Filesystem.bss) = some ([.setcolor lightCyan] ++
        writes (cBytes "=== File System Contents ===\n") ++ [.setcolor white] ++
        if FileMap.runAdds [] demoFiles = [] then writes (cBytes "No files found.\n")
        else writes (cBytes "Name                     Size   Type\n") ++
          writes (cBytes "------------------------ ------ --------\n") ++
          ((FileMap.runAdds [] demoFiles).zip
            (((List.ofFn (fsInit Filesystem.bss).files).take (FileMap.runAdds [] demoFiles).length).map
              FsFile.type)).flatMap (fun f => entryLine f.1.1 f.1.2.length f.2) ++
          writes (cBytes "\nTotal files: ") ++ writeDec (BitVec.ofNat 32 (FileMap.runAdds [] demoFiles).length) ++
          writes (cBytes " / ") ++ writeDec (BitVec.ofNat 32 fsMaxFiles) ++ [.putchar 10]) :=
  ⟨fsInit_represents rfl, fs_list_lists_files (fsInit_represents rfl)⟩

end MiniCore.Fs
