import MiniCore.Shell.Command
import MiniCore.Kernel.Terminal
import MiniCore.Fs.Table

/-!
# `echo` and `cat` print what the line and the file system hold

The handlers write to the terminal through `terminal_setcolor`,
`terminal_writestring` and `terminal_putchar`; each is modelled as the
list of terminal calls it makes, which `Kernel.Terminal` runs.
`terminal_writestring` of a string is one `terminal_putchar` per byte.

`cmd_echo` prints `argv[1]` to `argv[argc - 1]` with a blank between two of
them, then a newline. `cmd_cat` prints a usage line when it has no
argument; otherwise it looks `argv[1]` up with `fs_read`, and prints
either `"File not found: "` and the name, or a header naming the file, its
`size` bytes from the data pointer `fs_read` returns, a newline, and a
footer.

**The laws.** On every state the shell is in before a `'\n'`, with `cur`
the keys typed since the buffer was last cleared: when the first word of
the line is `echo`, Enter runs `cmd_echo`, which prints the other words, at
most 14 of them, separated by single blanks (`shell_echo_prints_words`);
when the line is `cat` and a name, Enter runs `cmd_cat`, which prints the
content the file map holds for that name, or the not-found message
(`shell_cat_prints_file`, over a table that represents the map, as every
table after `fs_init` and any `fs_add_file` calls does).

## What this does NOT cover

The other handlers. Where the printed bytes land on the screen is
`Kernel.Terminal`'s.
-/

namespace MiniCore.Shell

open Kernel Fs

/-! ## The handlers -/

/-- The string `argv[i]` points to; `argv[i]` is not `NULL` below `argc`. -/
def argString (r : Parsed) (i : Nat) : List (BitVec 8) :=
  match r.argv i with
  | some p => cstr (r.input.drop p)
  | none => []

/-- The loop of `cmd_echo` at `i`, with `n` turns left:
`if (i > 1) terminal_putchar(' '); terminal_writestring(argv[i]);`. -/
def echoLoop (r : Parsed) : Nat → Nat → List (BitVec 8)
  | _, 0 => []
  | i, n + 1 => (if i > 1 then [32] else []) ++ argString r i ++ echoLoop r (i + 1) n

/-- `cmd_echo`: the bytes it prints, the arguments from `argv[1]` on, then
the newline. -/
def cmdEcho (r : Parsed) : List (BitVec 8) := echoLoop r 1 (r.argc - 1) ++ [10]

/-- `terminal_writestring(s)` as terminal calls. -/
def writes (s : List (BitVec 8)) : List TermCall := (cstr s).map .putchar

/-- The colours the handlers switch between. -/
def lightRed : BitVec 8 := vgaEntryColor 12 0
def lightCyan : BitVec 8 := vgaEntryColor 11 0
def white : BitVec 8 := vgaEntryColor 15 0

/-- What `cmd_cat` prints for a name `fs_read` does not find. -/
def catNotFound (name : List (BitVec 8)) : List TermCall :=
  [.setcolor lightRed] ++ writes (cBytes "File not found: ") ++ writes name ++ writes (cBytes "\n") ++
    [.setcolor white]

/-- What `cmd_cat` prints around the `contents` of the file `name`. -/
def catContents (name contents : List (BitVec 8)) : List TermCall :=
  [.setcolor lightCyan] ++ writes (cBytes "=== Contents of ") ++ writes name ++ writes (cBytes " ===\n") ++
    [.setcolor white] ++ contents.map .putchar ++ [.putchar 10, .setcolor lightCyan] ++
    writes (cBytes "=== End of file ===\n") ++ [.setcolor white]

/-- `cmd_cat` on the file system `fs`: the usage line without an argument;
else `fs_read(argv[1], &data, &size)`, and the not-found message, or the
`size` bytes from `data` in `file_data` between the header and the footer.
`fs_read` sets `data` and `size` whenever it returns 0, so the last branch
is not taken. -/
def cmdCat (fs : Filesystem) (r : Parsed) : List TermCall :=
  if r.argc < 2 then
    [.setcolor lightRed] ++ writes (cBytes "Usage: cat <filename>\n") ++ [.setcolor white]
  else
    let (result, info) := fsRead fs (argString r 1)
    if result ≠ 0 then catNotFound (argString r 1)
    else
      match info with
      | some (some data, size) =>
        catContents (argString r 1)
          ((List.range size.toNat).map fun i => (List.ofFn fs.fileData).getD (data + i) 0)
      | _ => []

/-! ## The arguments -/

/-- Below `argc`, `argv[i]` reads as the `i`-th token. -/
theorem Tokenized.argString_eq {input : List (BitVec 8)} {argv : Nat → Option Nat} {maxArgs : Int}
    {r : Parsed} (ht : Tokenized input argv maxArgs r) {i : Nat} {w : List (BitVec 8)} (hi : i < r.argc)
    (hw : (tokens (cstr input))[i]? = some w) : argString r i = w := by
  obtain ⟨p, v, hp, hv, -, -, hr⟩ := ht.args i hi
  rw [hw, Option.some_inj] at hv
  simp only [argString, hp, hr, hv]

/-- What the shell hands a handler on Enter: its tokenizer's result on the
line, and the handler's index is that of the first word. -/
theorem enter_runs {s : ShellState} {cur : List Key} (hcur : Key.char 10 ∉ cur) (argv : Nat → Option Nat)
    {w : List (BitVec 8)} {ws : List (List (BitVec 8))} (htok : tokens (edit cur) = w :: ws)
    (hw : w ∈ commandNames) :
    ∃ r, ((shellProcessInput (runKeys (shellClearBuffer s) cur) 10).2.bind fun input =>
        shellDispatch input argv) = some (.run (commandNames.indexOf w) r) ∧
      Tokenized (edit cur ++ List.replicate (shellBufferSize - (edit cur).length) 0) argv shellMaxArgs r ∧
      tokens (cstr (edit cur ++ List.replicate (shellBufferSize - (edit cur).length) 0)) = w :: ws := by
  have h : Holds _ (edit cur) := (holds_clear s).runKeys cur hcur
  have hne : edit cur ≠ [] := fun e => by rw [e] at htok; cases htok
  have hc := cstr_append_replicate h.zero_not_mem (shellBufferSize - (edit cur).length)
  obtain ⟨o, hs, hk⟩ := Scan.run (shellMaxArgs - 1).toNat
    (Scan.init (edit cur ++ List.replicate (shellBufferSize - (edit cur).length) 0) argv)
  refine ⟨_, ?_, hs.tokenized (by have := hs.argc_le; omega), by rw [hc, htok]⟩
  rw [h.newline, if_neg hne, Option.some_bind, shellDispatch_eq, hc, htok, List.head?_cons,
    Option.map_some', if_pos hw]
  rfl

/-! ## `echo` -/

/-- The words `w :: ws`, a blank between two of them. -/
theorem intercalate_blank_cons (w : List (BitVec 8)) :
    ∀ ws : List (List (BitVec 8)), List.intercalate [32] (w :: ws) = w ++ ws.flatMap ([32] ++ ·)
  | [] => by simp [List.intercalate]
  | v :: ws => by
    have := intercalate_blank_cons v ws
    simp only [List.intercalate, List.intersperse_cons_cons, List.flatten_cons, List.flatMap_cons,
      List.append_assoc] at this ⊢
    rw [this]

/-- From its second turn on, the loop prints a blank before each argument. -/
theorem echoLoop_eq (r : Parsed) :
    ∀ (n i : Nat) (ws : List (List (BitVec 8))), ws.length = n → 1 < i →
      (∀ j < n, argString r (i + j) = ws.getD j []) → echoLoop r i n = ws.flatMap ([32] ++ ·)
  | 0, _, [], _, _, _ => rfl
  | n + 1, i, v :: ws, hl, hi, h => by
    have e := h 0 (Nat.succ_pos _)
    rw [Nat.add_zero] at e
    rw [echoLoop, if_pos hi, e, echoLoop_eq r n (i + 1) ws (by simpa using hl) (by omega) fun j hj => ?_,
      List.flatMap_cons, List.append_assoc]
    · rfl
    · have := h (j + 1) (by omega)
      rwa [show i + (j + 1) = i + 1 + j by omega] at this

/-- `cmd_echo` on a tokenized line prints the tokens after the first that
fit in `argv`, a blank between two, then a newline. -/
theorem cmdEcho_tokenized {input : List (BitVec 8)} {argv : Nat → Option Nat} {r : Parsed}
    (ht : Tokenized input argv shellMaxArgs r) :
    cmdEcho r = List.intercalate [32] (((tokens (cstr input)).take 15).drop 1) ++ [10] := by
  have hargc : r.argc = min (tokens (cstr input)).length 15 := ht.argc
  -- from `argv[1]` to `argv[argc - 1]`, the arguments are the tokens after the first that fit
  have harg : ∀ j, 0 < j → j < r.argc → argString r j = (((tokens (cstr input)).take 15).drop 1).getD (j - 1) [] :=
    fun j hj0 hj => by
      have hj' : j < (tokens (cstr input)).length := by omega
      rw [ht.argString_eq hj (List.getElem?_eq_getElem hj'), List.getD_eq_getElem?_getD, List.getElem?_drop,
        List.getElem?_take_of_lt (by omega), show 1 + (j - 1) = j by omega, List.getElem?_eq_getElem hj',
        Option.getD_some]
  rw [cmdEcho]
  congr 1
  rcases h1 : ((tokens (cstr input)).take 15).drop 1 with _ | ⟨v, vs⟩
  · have := congrArg List.length h1
    simp only [List.length_drop, List.length_take, List.length_nil] at this
    rw [show r.argc - 1 = 0 by omega]
    rfl
  · have := congrArg List.length h1
    simp only [List.length_drop, List.length_take, List.length_cons] at this
    have hv : argString r 1 = v := by rw [harg 1 (by decide) (by omega), h1]; rfl
    rw [show r.argc - 1 = vs.length + 1 by omega, echoLoop, if_neg (by decide), List.nil_append, hv,
      echoLoop_eq r vs.length 2 vs rfl (by decide) fun j hj => ?_, intercalate_blank_cons]
    rw [harg (2 + j) (by omega) (by omega), h1, show 2 + j - 1 = j + 1 by omega]
    rfl

/-- **`echo` prints the other words.** In every state the shell is in
before a `'\n'`, with `cur` the keys typed since the buffer was last
cleared: when the first word of the line is `echo`, Enter runs `cmd_echo`,
which prints the other words of the line, at most 14 of them, a blank
between two, and a newline. -/
theorem shell_echo_prints_words (s : ShellState) (cur : List Key) (hcur : Key.char 10 ∉ cur)
    (argv : Nat → Option Nat) (ws : List (List (BitVec 8))) (htok : tokens (edit cur) = cBytes "echo" :: ws) :
    ∃ r, ((shellProcessInput (runKeys (shellClearBuffer s) cur) 10).2.bind fun input =>
        shellDispatch input argv) = some (.run 1 r) ∧ cmdEcho r = List.intercalate [32] (ws.take 14) ++ [10] := by
  obtain ⟨r, hd, ht, hc⟩ := enter_runs hcur argv htok (by decide)
  refine ⟨r, hd, ?_⟩
  rw [cmdEcho_tokenized ht, hc]
  rfl

/-- `echo a` then Enter prints `a` and a newline. -/
theorem echo_a_prints_a :
    Key.char 10 ∉ [Key.char 0x65, .char 0x63, .char 0x68, .char 0x6F, .char 32, .char 0x61] ∧
      tokens (edit [Key.char 0x65, .char 0x63, .char 0x68, .char 0x6F, .char 32, .char 0x61]) =
        cBytes "echo" :: [[0x61]] ∧
      ∃ r, ((shellProcessInput (runKeys (shellClearBuffer ⟨fun _ => 0, 0⟩)
          [Key.char 0x65, .char 0x63, .char 0x68, .char 0x6F, .char 32, .char 0x61]) 10).2.bind fun input =>
          shellDispatch input fun _ => none) = some (.run 1 r) ∧
        cmdEcho r = List.intercalate [32] (([[0x61]] : List (List (BitVec 8))).take 14) ++ [10] :=
  ⟨by decide, by decide, shell_echo_prints_words _ _ (by decide) _ _ (by decide)⟩

/-! ## `cat` -/

theorem zero_not_mem_argString (r : Parsed) (i : Nat) : 0 ∉ argString r i := by
  unfold argString
  split
  · exact zero_not_mem_cstr _
  · exact List.not_mem_nil _

/-- The loop `for (i = 0; i < size; i++) terminal_putchar(data[i]);` reads
the `size` bytes from `data`. -/
theorem map_getD_range {l : List (BitVec 8)} {a n : Nat} (h : a + n ≤ l.length) :
    (List.range n).map (fun i => l.getD (a + i) 0) = (l.drop a).take n := by
  apply List.ext_getElem
  · simp only [List.length_map, List.length_range, List.length_take, List.length_drop]
    omega
  · intro i h1 h2
    simp only [List.length_map, List.length_range] at h1
    rw [List.getElem_map, List.getElem_range, List.getElem_take, List.getElem_drop,
      List.getD_eq_getElem?_getD, List.getElem?_eq_getElem (by omega), Option.getD_some]

/-- **`cat` prints the file the file map holds.** On a file table that
represents the map `m`, in every state the shell is in before a `'\n'`:
when the line is `cat` and a name, Enter runs `cmd_cat`, which prints,
between its header and footer, the content `m` holds for the name, or the
not-found message when `m` holds no file of that name. -/
theorem shell_cat_prints_file {fs : Filesystem} {m : FileMap} (hfs : Represents fs m) (s : ShellState)
    (cur : List Key) (hcur : Key.char 10 ∉ cur) (argv : Nat → Option Nat) (w : List (BitVec 8))
    (ws : List (List (BitVec 8))) (htok : tokens (edit cur) = cBytes "cat" :: w :: ws) :
    ∃ r, ((shellProcessInput (runKeys (shellClearBuffer s) cur) 10).2.bind fun input =>
        shellDispatch input argv) = some (.run 12 r) ∧
      (∀ c, (w, c) ∈ m → cmdCat fs r = catContents w c) ∧
      (w ∉ m.map Prod.fst → cmdCat fs r = catNotFound w) := by
  obtain ⟨r, hd, ht, hc⟩ := enter_runs hcur argv htok (by decide)
  have hargc : r.argc = min (ws.length + 2) 15 := by rw [ht.argc, hc]; rfl
  have hw : argString r 1 = w :=
    ht.argString_eq (by omega) (by rw [hc, List.getElem?_cons_succ, List.getElem?_cons_zero])
  have hcw : cstr w = w := cstr_of_zero_not_mem (hw ▸ zero_not_mem_argString r 1)
  refine ⟨r, hd, fun c hm => ?_, fun hn => ?_⟩
  · obtain ⟨k, hk, e⟩ := List.getElem_of_mem hm
    have hk16 : k < fsMaxFiles := Nat.lt_of_lt_of_le hk hfs.length_le
    have hst := hfs.stored ⟨k, hk16⟩ hk
    rw [e] at hst
    have hread := hfs.read_stored ⟨k, hk16⟩ hk
    rw [e] at hread
    rw [cmdCat, if_neg (by omega), hw, hread]
    have hlen : c.length < fsMaxFilesize := hst.content_lt
    have hmod : c.length % 2 ^ 32 = c.length := Nat.mod_eq_of_lt (by unfold fsMaxFilesize at hlen; omega)
    simp only [ne_eq, not_true_eq_false, if_false, BitVec.toNat_ofNat, hmod]
    rw [map_getD_range (by rw [List.length_ofFn]; unfold fsMaxFiles fsMaxFilesize at *; omega), hst.bytes]
  · rw [cmdCat, if_neg (by omega), hw, hfs.read_none (by rwa [hcw])]
    rfl

/-- `cat a` then Enter, on the file table `fs_init` builds. -/
theorem cat_a_after_fs_init :
    Represents (fsInit Filesystem.bss) (FileMap.runAdds [] demoFiles) ∧
      Key.char 10 ∉ [Key.char 0x63, .char 0x61, .char 0x74, .char 32, .char 0x61] ∧
      tokens (edit [Key.char 0x63, .char 0x61, .char 0x74, .char 32, .char 0x61]) = cBytes "cat" :: [0x61] :: [] ∧
      ∃ r, ((shellProcessInput (runKeys (shellClearBuffer ⟨fun _ => 0, 0⟩)
          [Key.char 0x63, .char 0x61, .char 0x74, .char 32, .char 0x61]) 10).2.bind fun input =>
          shellDispatch input fun _ => none) = some (.run 12 r) ∧
        (∀ c, ([0x61], c) ∈ FileMap.runAdds [] demoFiles → cmdCat (fsInit Filesystem.bss) r = catContents [0x61] c) ∧
        ([0x61] ∉ (FileMap.runAdds [] demoFiles).map Prod.fst →
          cmdCat (fsInit Filesystem.bss) r = catNotFound [0x61]) :=
  ⟨fsInit_represents rfl, by decide, by decide,
    shell_cat_prints_file (fsInit_represents rfl) _ _ (by decide) _ _ [] (by decide)⟩

end MiniCore.Shell
