import MiniCore.Machine.CString

/-!
# The shell's line buffer, as `shell.c` computes it

`shell_state` holds the line being typed: `input_buffer[256]` and the
write position `buffer_pos`. Three functions write it. `shell_clear_buffer`
zeroes the buffer and the position; `shell_backspace` steps back one byte and
clears it; `shell_process_input(c)` appends a printable `c` while there is
room, and on `'\n'` terminates the line, hands it to
`shell_execute_command`, and clears the buffer.

`shell_execute_command` passes the buffer to `shell_parse_command` unless
the line is empty, and then runs a command handler. The tokenizer writes
NULs into the buffer, and `shell_clear_buffer` zeroes all of it right
after, so what the shell's own state sees of the call is the buffer it
hands over: that is what `shellExecuteCommand` returns. No handler writes
`shell_state`. The lookup and the call that follow are `shellDispatch`, in
`Shell.Command`.

`shell_parse_command` itself is modelled on the bytes it is handed, from
`input` on: its pointer `token` is an offset into them, and `argv[i]` is
an offset or `NULL` (`none`). Its two scanning loops are `blankRun` and
`wordRun`, the length of the run each steps over.

`buffer_pos` is a `size_t` that is incremented only below 255 and
decremented only above 0, so it is a `Nat` here. A `char` is signed on the
target, and the test `c >= 32 && c <= 126` is on the signed value.
`cursor_x`, `cursor_y` and `echo_enabled` only steer what is printed, and
terminal output is not modelled.
-/

namespace MiniCore.Shell

/-- `SHELL_BUFFER_SIZE`. -/
abbrev shellBufferSize : Nat := 256

/-- The fields of `shell_state_t` that the line editing reads or writes. -/
structure ShellState where
  inputBuffer : Fin shellBufferSize → BitVec 8
  bufferPos : Nat

/-- The store `input_buffer[i] = c`. -/
def ShellState.store (s : ShellState) (i : Nat) (c : BitVec 8) : ShellState :=
  { s with inputBuffer := fun j => if j.val = i then c else s.inputBuffer j }

@[simp] theorem ShellState.store_bufferPos (s : ShellState) (i : Nat) (c : BitVec 8) :
    (s.store i c).bufferPos = s.bufferPos := rfl

/-- `shell_clear_buffer`. -/
def shellClearBuffer (s : ShellState) : ShellState :=
  { s with inputBuffer := fun _ => 0, bufferPos := 0 }

/-- `shell_init`: the position, then `shell_clear_buffer`. -/
def shellInit (s : ShellState) : ShellState := shellClearBuffer { s with bufferPos := 0 }

/-- `shell_backspace`. -/
def shellBackspace (s : ShellState) : ShellState :=
  if s.bufferPos > 0 then
    let s := { s with bufferPos := s.bufferPos - 1 }
    s.store s.bufferPos 0
  else s

/-- What `shell_execute_command` hands to `shell_parse_command`: the whole
buffer, or nothing when the line is empty. -/
def shellExecuteCommand (s : ShellState) : Option (List (BitVec 8)) :=
  if s.bufferPos = 0 then none else some (List.ofFn s.inputBuffer)

/-- `shell_process_input(c)`: the new state, and what it handed to
`shell_parse_command`. -/
def shellProcessInput (s : ShellState) (c : BitVec 8) : ShellState × Option (List (BitVec 8)) :=
  if c = 10 then
    let s := s.store s.bufferPos 0
    (shellClearBuffer s, shellExecuteCommand s)
  else if 32 ≤ c.toInt ∧ c.toInt ≤ 126 then
    if s.bufferPos < shellBufferSize - 1 then
      ({ s.store s.bufferPos c with bufferPos := s.bufferPos + 1 }, none)
    else (s, none)
  else (s, none)

/-! ## Keystrokes -/

/-- The two entry points the keyboard handler calls. -/
inductive Key
  | char (c : BitVec 8)
  | backspace
  deriving DecidableEq

/-- The shell state after one key. -/
def Key.run (s : ShellState) : Key → ShellState
  | .char c => (shellProcessInput s c).1
  | .backspace => shellBackspace s

/-- The shell state after a sequence of keys. -/
def runKeys (s : ShellState) (ks : List Key) : ShellState := ks.foldl Key.run s

theorem runKeys_append (s : ShellState) (ks ls : List Key) :
    runKeys s (ks ++ ls) = runKeys (runKeys s ks) ls :=
  List.foldl_append _ _ _ _

/-! ## Small facts -/

/-- The buffer after a store, as a list. -/
theorem ofFn_store (s : ShellState) (i : Nat) (c : BitVec 8) :
    List.ofFn (s.store i c).inputBuffer = (List.ofFn s.inputBuffer).set i c := by
  apply List.ext_getElem
  · simp only [List.length_ofFn, List.length_set]
  · intro j _ _
    simp only [ShellState.store, List.getElem_ofFn, List.getElem_set, List.getElem_ofFn]
    split_ifs <;> first | rfl | omega

/-- The printable test on the signed `char` is the test on the byte. -/
theorem printable_iff (c : BitVec 8) :
    (32 ≤ c.toInt ∧ c.toInt ≤ 126) ↔ (32 ≤ c.toNat ∧ c.toNat ≤ 126) := by
  rw [BitVec.toInt_eq_toNat_cond]
  have := c.isLt
  split_ifs <;> omega

/-! ## `shell_parse_command` -/

/-- `*token == ' ' || *token == '\t'`. -/
def isBlank (c : BitVec 8) : Bool := c == 32 || c == 9

/-- How far `while (*token == ' ' || *token == '\t') token++;` moves
`token`, over the bytes from it on. Past the last byte the code reads a NUL,
which stops both loops. -/
def blankRun : List (BitVec 8) → Nat
  | [] => 0
  | c :: s => if isBlank c then blankRun s + 1 else 0

/-- How far `while (*token && *token != ' ' && *token != '\t') token++;`
moves `token`. -/
def wordRun : List (BitVec 8) → Nat
  | [] => 0
  | c :: s => if c ≠ 0 ∧ isBlank c = false then wordRun s + 1 else 0

/-- What `shell_parse_command` leaves: the bytes of `input`, the `argc` it
returns, and `argv`. -/
structure Parsed where
  input : List (BitVec 8)
  argc : Nat
  argv : Nat → Option Nat

/-- The outer loop, `while (*token && argc < max_args - 1)`, at `token` with
`argc` arguments taken and `slots = max_args - 1 - argc` left, so that the
test `argc < max_args - 1` is `slots ≠ 0`. -/
def parseArgs (input : List (BitVec 8)) (argv : Nat → Option Nat) (token argc : Nat) :
    Nat → Parsed
  | 0 => ⟨input, argc, argv⟩
  | slots + 1 =>
    if input.getD token 0 = 0 then ⟨input, argc, argv⟩ else
    let argv := Function.update argv argc (some token)
    let token := token + wordRun (input.drop token)
    if input.getD token 0 ≠ 0 then
      let input := input.set token 0
      parseArgs input argv (token + 1 + blankRun (input.drop (token + 1))) (argc + 1) slots
    else parseArgs input argv token (argc + 1) slots

/-- `shell_parse_command(input, argv, max_args)`: skip leading blanks, run
the loop, then `argv[argc] = NULL`. -/
def shellParseCommand (input : List (BitVec 8)) (argv : Nat → Option Nat) (maxArgs : Int) :
    Parsed :=
  let r := parseArgs input argv (blankRun input) 0 (maxArgs - 1).toNat
  { r with argv := Function.update r.argv r.argc none }

/-! ### The scanning loops -/

theorem blankRun_blank : ∀ (s : List (BitVec 8)), ∀ c ∈ s.take (blankRun s), isBlank c
  | [] => by simp
  | c :: s => by
    simp only [blankRun]
    split
    · intro d hd
      rw [List.take_succ_cons, List.mem_cons] at hd
      exact hd.elim (fun e => e ▸ ‹_›) (blankRun_blank s d)
    · simp

/-- The blank loop stops at a byte that is not blank. -/
theorem blankRun_stop : ∀ (s : List (BitVec 8)), isBlank (s.getD (blankRun s) 0) = false
  | [] => rfl
  | c :: s => by
    simp only [blankRun]
    split
    · exact blankRun_stop s
    · simpa using ‹¬isBlank c = true›

theorem wordRun_le : ∀ s : List (BitVec 8), wordRun s ≤ s.length
  | [] => le_rfl
  | c :: s => by
    simp only [wordRun]
    split
    · simpa using wordRun_le s
    · exact Nat.zero_le _

theorem wordRun_word : ∀ (s : List (BitVec 8)), ∀ c ∈ s.take (wordRun s), c ≠ 0 ∧ isBlank c = false
  | [] => by simp
  | c :: s => by
    simp only [wordRun]
    split
    · intro d hd
      rw [List.take_succ_cons, List.mem_cons] at hd
      exact hd.elim (fun e => e ▸ ‹_›) (wordRun_word s d)
    · simp

/-- The word loop stops at a NUL or at a blank. -/
theorem wordRun_stop : ∀ (s : List (BitVec 8)), s.getD (wordRun s) 0 ≠ 0 → isBlank (s.getD (wordRun s) 0)
  | [] => fun h => absurd rfl h
  | c :: s => by
    simp only [wordRun]
    split
    · exact wordRun_stop s
    · intro h
      simp only [List.getD_cons_zero] at h ⊢
      exact Bool.not_eq_false _ ▸ fun hb => ‹¬(c ≠ 0 ∧ isBlank c = false)› ⟨h, hb⟩

theorem wordRun_pos {s : List (BitVec 8)} (h0 : s.getD 0 0 ≠ 0) (hb : isBlank (s.getD 0 0) = false) :
    0 < wordRun s := by
  cases s with
  | nil => exact absurd rfl h0
  | cons c s =>
    simp only [wordRun, List.getD_cons_zero] at h0 hb ⊢
    rw [if_pos ⟨h0, hb⟩]
    exact Nat.succ_pos _

end MiniCore.Shell
