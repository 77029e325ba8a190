import MiniCore.Machine.CString
import Mathlib.Data.List.FinRange

/-!
# The in-memory file system of `fs.c`, as the code computes it

The static `filesystem` of type `fs_t`: a count, sixteen file entries,
and a 64 KiB data area cut into sixteen 4 KiB slots, with the flag
`fs_initialized` beside it.
`fs_add_file` appends an entry at index `file_count` and copies the
content into that index's slot; `fs_find_file` scans the first
`file_count` entries comparing names with `fs_strcmp`; `fs_read` hands
back the entry's data pointer and size. `fs_init` clears the table once
and preloads the five demo files through `fs_add_file`.

The string functions walk their arguments as the loops do (see
`Machine.CString`). A `uint8_t*` into the data area is the offset it
points at, and `NULL` is `none`. `file_count` is a `uint32_t` that starts
at 0 and is incremented only below 16, so it is a `Nat` here.

`fs_list` and `fs_print_file_info` only print, and `fs_file_exists` is
`fs_find_file` compared with `NULL`; they are not modelled.
-/

namespace MiniCore.Fs

/-- `FS_MAX_FILES`. -/
abbrev fsMaxFiles : Nat := 16

/-- `FS_MAX_FILENAME`. -/
abbrev fsMaxFilename : Nat := 32

/-- `FS_MAX_FILESIZE`. -/
abbrev fsMaxFilesize : Nat := 4096

/-- `FS_MAGIC`, "MINI". -/
def fsMagic : BitVec 32 := 0x4D494E49

/-- `fs_file_type_t`. -/
inductive FileType
  | text
  | binary
  deriving DecidableEq, Repr

/-- `fs_file_t`. -/
structure FsFile where
  name : Fin fsMaxFilename → BitVec 8
  size : BitVec 32
  type : FileType
  data : Option Nat
  permissions : BitVec 32

/-- The static `filesystem`, and the static `fs_initialized`. -/
structure Filesystem where
  magic : BitVec 32
  fileCount : Nat
  files : Fin fsMaxFiles → FsFile
  fileData : Fin (fsMaxFiles * fsMaxFilesize) → BitVec 8
  initialized : Bool

/-- The state the kernel image starts with: `.bss` is zero. -/
def Filesystem.bss : Filesystem where
  magic := 0
  fileCount := 0
  files := fun _ => ⟨fun _ => 0, 0, .text, none, 0⟩
  fileData := fun _ => 0
  initialized := false

/-! ## String utilities -/

/-- `fs_strlen`: `while (str[len]) len++;`. -/
def fsStrlen : List (BitVec 8) → Nat
  | [] => 0
  | c :: s => if c = 0 then 0 else fsStrlen s + 1

/-- `fs_strcmp`: advance both while `*str1` is not NUL and equals `*str2`,
then return the difference of the two bytes as unsigned chars. -/
def fsStrcmp : List (BitVec 8) → List (BitVec 8) → Int
  | a :: s1, b :: s2 => if a ≠ 0 ∧ a = b then fsStrcmp s1 s2 else (a.toNat : Int) - b.toNat
  | s1, s2 => ((s1.headD 0).toNat : Int) - (s2.headD 0).toNat

/-- `fs_strcpy` into a `char[32]` field: byte `i` of the source for every
`i` before its NUL, then the NUL. The caller has checked that the string
is shorter than the field, so no byte is written past it. -/
def fsStrcpy (dest : Fin fsMaxFilename → BitVec 8) (src : List (BitVec 8)) :
    Fin fsMaxFilename → BitVec 8 :=
  fun i => if i.val < fsStrlen src then src.getD i.val 0 else if i.val = fsStrlen src then 0 else dest i

/-- `fs_strlen` counts the bytes of the string. -/
theorem fsStrlen_eq : ∀ s : List (BitVec 8), fsStrlen s = (cstr s).length
  | [] => rfl
  | c :: s => by
    by_cases hc : c = 0
    · subst hc
      rw [cstr_cons_zero]
      rfl
    · rw [fsStrlen, if_neg hc, cstr_cons hc, List.length_cons, fsStrlen_eq s]

/-- `fs_strcmp` returns 0 exactly when the two strings are equal. -/
theorem fsStrcmp_eq_zero_iff (s t : List (BitVec 8)) : fsStrcmp s t = 0 ↔ cstr s = cstr t := by
  induction s, t using fsStrcmp.induct with
  | case1 a s1 b s2 h ih =>
    rw [fsStrcmp, if_pos h, ih, ← h.2, cstr_cons h.1, cstr_cons h.1, List.cons_inj_right]
  | case2 a s1 b s2 h =>
    rw [fsStrcmp, if_neg h, sub_eq_zero, Nat.cast_inj, ← BitVec.toNat_eq]
    by_cases ha : a = 0
    · subst ha
      rw [cstr_cons_zero, @eq_comm _ [], cstr_cons_eq_nil, eq_comm]
    · rw [cstr_cons ha]
      by_cases hb : b = 0
      · subst hb
        exact iff_of_false ha (by rw [cstr_cons_zero]; exact List.cons_ne_nil _ _)
      · rw [cstr_cons hb, List.cons.injEq]
        exact iff_of_false (fun e => h ⟨ha, e⟩) fun e => h ⟨ha, e.1⟩
  | case3 s1 s2 h =>
    rcases s1 with _ | ⟨a, s1⟩ <;> rcases s2 with _ | ⟨b, s2⟩
    · simp [fsStrcmp]
    · show (((0 : BitVec 8).toNat : Int) - b.toNat = 0) ↔ cstr [] = cstr (b :: s2)
      rw [sub_eq_zero, Nat.cast_inj, ← BitVec.toNat_eq, cstr_nil, @eq_comm _ [], cstr_cons_eq_nil,
        eq_comm]
    · show ((a.toNat : Int) - (0 : BitVec 8).toNat = 0) ↔ cstr (a :: s1) = cstr []
      rw [sub_eq_zero, Nat.cast_inj, ← BitVec.toNat_eq, cstr_nil, cstr_cons_eq_nil]
    · exact (h a s1 b s2 rfl rfl).elim

/-- Copied into a name field, a string shorter than the field reads back
as itself. -/
theorem cstr_fsStrcpy {src : List (BitVec 8)} (h : fsStrlen src < fsMaxFilename)
    (dest : Fin fsMaxFilename → BitVec 8) : cstr (List.ofFn (fsStrcpy dest src)) = cstr src := by
  rw [fsStrlen_eq] at h
  refine cstr_eq_of_getElem (zero_not_mem_cstr src) (by simpa using h) (fun i hi => ?_) ?_
  · simp only [List.getElem_ofFn, fsStrcpy, fsStrlen_eq, if_pos hi, getD_eq_getElem_cstr hi]
  · rw [List.getElem_ofFn]
    simp only [fsStrcpy, fsStrlen_eq, lt_irrefl, if_false, if_true]

/-! ## The functions of `fs.c` -/

/-- `fs_find_file`: the first of the `file_count` entries whose name
compares equal. -/
def fsFindFile (fs : Filesystem) (filename : List (BitVec 8)) : Option (Fin fsMaxFiles) :=
  if fs.initialized then
    (List.finRange fsMaxFiles).find? fun i =>
      i.val < fs.fileCount ∧ fsStrcmp (List.ofFn (fs.files i).name) filename = 0
  else none

/-- What `fs_add_file` stores once every check has passed: entry
`file_index` gets the name, the size, the type, the permissions and a data
pointer to its own slot, the content is copied into that slot, and the
count goes up. -/
def storeFile (fs : Filesystem) (fileIndex : Fin fsMaxFiles) (name content : List (BitVec 8))
    (type : FileType) : Filesystem :=
  let off := fileIndex.val * fsMaxFilesize
  let contentLen := fsStrlen content
  let file := { fs.files fileIndex with
    name := fsStrcpy (fs.files fileIndex).name name
    size := BitVec.ofNat 32 contentLen
    type := type
    permissions := 0
    data := some off }
  { fs with
    files := Function.update fs.files fileIndex file
    fileData := fun a =>
      if off ≤ a.val ∧ a.val < off + contentLen then content.getD (a.val - off) 0 else fs.fileData a
    fileCount := fs.fileCount + 1 }

/-- `fs_add_file`: the new state and the return value. -/
def fsAddFile (fs : Filesystem) (name content : List (BitVec 8)) (type : FileType) : Filesystem × Int :=
  if h : fs.initialized = false ∨ fsMaxFiles ≤ fs.fileCount then (fs, -1) else
  let nameLen := fsStrlen name
  let contentLen := fsStrlen content
  if fsMaxFilename ≤ nameLen ∨ fsMaxFilesize ≤ contentLen then (fs, -2) else
  if fsFindFile fs name ≠ none then (fs, -3) else
  (storeFile fs ⟨fs.fileCount, Nat.lt_of_not_le fun h' => h (.inr h')⟩ name content type, 0)

/-- `fs_read`: the return value, and what it stores through `data` and
`size` (nothing, when the name is not found). -/
def fsRead (fs : Filesystem) (filename : List (BitVec 8)) : Int × Option (Option Nat × BitVec 32) :=
  match fsFindFile fs filename with
  | none => (-1, none)
  | some i => (0, some ((fs.files i).data, (fs.files i).size))

/-! ## Initialisation -/

/-- One call `fs_add_file(name, content, type)`. -/
structure AddCall where
  name : List (BitVec 8)
  content : List (BitVec 8)
  type : FileType

/-- A sequence of `fs_add_file` calls whose return values are dropped. -/
def runAdds (fs : Filesystem) (cs : List AddCall) : Filesystem :=
  cs.foldl (fun fs c => (fsAddFile fs c.name c.content c.type).1) fs

theorem runAdds_append (fs : Filesystem) (cs ds : List AddCall) :
    runAdds fs (cs ++ ds) = runAdds (runAdds fs cs) ds :=
  List.foldl_append _ _ _ _

/-- The bytes of an ASCII string literal. -/
def cBytes (s : String) : List (BitVec 8) := s.toList.map fun c => BitVec.ofNat 8 c.toNat

/-- The five calls of `fs_create_demo_files`. -/
def demoFiles : List AddCall := [
  ⟨cBytes "welcome.txt",
    cBytes ("Welcome to MiniCore-OS!\n" ++
      "This is a simple read-only file system.\n" ++
      "Try \x27ls\x27 to list files and \x27cat <filename>\x27 to read them.\n" ++
      "\n" ++
      "Available commands:\n" ++
      "- help: Show all commands\n" ++
      "- ls: List files\n" ++
      "- cat <file>: Display file contents\n" ++
      "- clear: Clear screen\n" ++
      "- mem: Memory information\n" ++
      "- version: System version\n"), .text⟩,
  ⟨cBytes "system.txt",
    cBytes ("MiniCore-OS System Information\n" ++
      "=============================\n" ++
      "Architecture: x86 (32-bit)\n" ++
      "Mode: Protected Mode\n" ++
      "Memory Management: Active\n" ++
      "File System: Read-only in-memory\n" ++
      "Multitasking: Cooperative\n" ++
      "VGA Text Mode: 80x25\n" ++
      "Build Date: August 2025\n"), .text⟩,
  ⟨cBytes "readme.txt",
    cBytes ("MiniCore-OS Phase 5: File System\n" ++
      "=================================\n" ++
      "\n" ++
      "This file system implementation provides:\n" ++
      "- Read-only access to preloaded files\n" ++
      "- Fixed-size file allocation\n" ++
      "- Directory-like abstraction\n" ++
      "- Shell integration with \x27ls\x27 and \x27cat\x27\n" ++
      "\n" ++
      "Files are stored in memory and preloaded at boot.\n" ++
      "Maximum file size: 4KB\n" ++
      "Maximum files: 16\n"), .text⟩,
  ⟨cBytes "hello.c",
    cBytes ("#include <stdio.h>\n" ++
      "\n" ++
      "int main(void) \x7b\n" ++
      "    printf(\"Hello from MiniCore-OS!\\n\");\n" ++
      "    return 0;\n" ++
      "\x7d\n"), .text⟩,
  ⟨cBytes "license.txt",
    cBytes ("MiniCore-OS License\n" ++
      "==================\n" ++
      "\n" ++
      "This is a demonstration operating system.\n" ++
      "Created for educational purposes.\n" ++
      "\n" ++
      "Feel free to study, modify, and learn from this code.\n"), .text⟩]

/-- `fs_create_demo_files`. -/
def fsCreateDemoFiles (fs : Filesystem) : Filesystem := runAdds fs demoFiles

/-- `fs_init`: once only, clear every entry (only the first byte of each
name) and the whole data area, set the flag, and preload the demo files. -/
def fsInit (fs : Filesystem) : Filesystem :=
  if fs.initialized then fs else
  fsCreateDemoFiles
    { magic := fsMagic
      fileCount := 0
      files := fun i => { fs.files i with
        name := Function.update (fs.files i).name 0 0
        size := 0
        type := .text
        data := none
        permissions := 0 }
      fileData := fun _ => 0
      initialized := true }

end MiniCore.Fs
