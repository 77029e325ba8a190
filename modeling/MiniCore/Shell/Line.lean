import MiniCore.Shell.Model
import Mathlib.Data.List.OfFn

/-!
# The line buffer is a bounded line editor

What the shell's buffer is for: holding the line typed since the last
`'\n'`, as a line editor would hold it. `edit` is that editor: a byte
from 32 to 126 is appended while the line is shorter than 255, a
backspace drops the last byte, anything else is ignored.

`Holds s line` is how the code keeps a line: `buffer_pos` is its length,
at most 255, the buffer is the line followed by NULs only, and every byte
of the line is printable. `shell_clear_buffer` makes it hold the empty line
(`holds_clear`); a key other than `'\n'` takes it to the edited line
(`Holds.key`), and so does a run of such keys (`Holds.runKeys`); `'\n'`
hands the buffer, which is the line followed by NULs, to the tokenizer
(`Holds.newline`).

**The law** (`shell_buffer_is_line_editor`): after `shell_init` and any
keys, with `cur` the keys since the last `'\n'`, the buffer holds
`edit cur` with only NULs behind it, and the next `'\n'` passes exactly
that line to `shell_parse_command`.

## What this does NOT cover

What `shell_parse_command` and the command handlers do with the line; the
handlers write other state (the heap, the scheduler, the screen) but not
`shell_state`.
-/

namespace MiniCore.Shell

/-! ## The reference editor -/

/-- One key of the reference editor. -/
def editKey (line : List (BitVec 8)) : Key → List (BitVec 8)
  | .char c => if 32 ≤ c.toNat ∧ c.toNat ≤ 126 ∧ line.length < 255 then line ++ [c] else line
  | .backspace => line.dropLast

/-- The reference editor on a sequence of keys, from the empty line. -/
def edit (ks : List Key) : List (BitVec 8) := ks.foldl editKey []

example : edit [.char 0x42, .char 0x07, .backspace, .backspace, .char 0x43] = [0x43] := by decide

/-! ## The representation -/

/-- The shell state holds the line `line`. -/
structure Holds (s : ShellState) (line : List (BitVec 8)) : Prop where
  pos : s.bufferPos = line.length
  length_le : line.length ≤ shellBufferSize - 1
  printable : ∀ c ∈ line, 32 ≤ c.toNat ∧ c.toNat ≤ 126
  buffer : List.ofFn s.inputBuffer = line ++ List.replicate (shellBufferSize - line.length) 0

theorem holds_clear (s : ShellState) : Holds (shellClearBuffer s) [] :=
  ⟨rfl, by decide, fun _ h => absurd h (List.not_mem_nil _), List.ofFn_const _ _⟩

/-- A printable line holds no NUL. -/
theorem Holds.zero_not_mem {s : ShellState} {line : List (BitVec 8)} (h : Holds s line) : 0 ∉ line :=
  fun h0 => absurd (h.printable 0 h0).1 (by decide)

/-- Overwriting the first NUL behind the line appends to it. -/
theorem append_replicate_set {line : List (BitVec 8)} {n : Nat} (c : BitVec 8) :
    (line ++ List.replicate (n + 1) 0).set line.length c = (line ++ [c]) ++ List.replicate n 0 := by
  rw [List.set_append_right _ _ (le_refl _), Nat.sub_self, List.replicate_succ, List.set_cons_zero,
    List.append_assoc, List.singleton_append]

/-- A key other than `'\n'` edits the held line. -/
theorem Holds.key {s : ShellState} {line : List (BitVec 8)} (h : Holds s line) :
    ∀ k : Key, k ≠ .char 10 → Holds (k.run s) (editKey line k)
  | .char c, hc => by
    have hc' : c ≠ 10 := fun e => hc (e ▸ rfl)
    simp only [Key.run, shellProcessInput, if_neg hc', printable_iff, editKey]
    by_cases hp : 32 ≤ c.toNat ∧ c.toNat ≤ 126
    · by_cases hl : line.length < 255
      · have hn : shellBufferSize - line.length = shellBufferSize - (line.length + 1) + 1 := by
          simp only [shellBufferSize]; omega
        rw [if_pos hp, h.pos, if_pos (show line.length < shellBufferSize - 1 from hl),
          if_pos ⟨hp.1, hp.2, hl⟩]
        refine ⟨by simp, by simp only [List.length_append, List.length_singleton, shellBufferSize]; omega,
          fun d hd => ?_, ?_⟩
        · rcases List.mem_append.1 hd with hd | hd
          · exact h.printable d hd
          · rw [List.mem_singleton.1 hd]; exact hp
        · rw [ofFn_store, h.buffer, hn, append_replicate_set]
          simp
      · rw [if_pos hp, h.pos, if_neg (by simpa using hl), if_neg fun e => hl e.2.2]
        exact h
    · rw [if_neg hp, if_neg fun e => hp ⟨e.1, e.2.1⟩]
      exact h
  | .backspace, _ => by
    simp only [Key.run, shellBackspace, editKey]
    rcases List.eq_nil_or_concat line with rfl | ⟨init, x, rfl⟩
    · rw [if_neg (by simp [h.pos])]
      exact h
    · rw [List.concat_eq_append] at h ⊢
      rw [if_pos (by simp [h.pos]), List.dropLast_concat]
      have hx : init.length + 1 ≤ 255 := by simpa using h.length_le
      refine ⟨by simp [h.pos], by simp only [shellBufferSize]; omega,
        fun d hd => h.printable d (List.mem_append_left _ hd), ?_⟩
      rw [ofFn_store, h.buffer]
      simp only [h.pos, Nat.add_sub_cancel, List.length_append, List.length_singleton]
      rw [List.append_assoc, List.set_append_right _ _ (le_refl _), Nat.sub_self,
        List.singleton_append, List.set_cons_zero, ← List.replicate_succ]
      congr 2
      simp only [shellBufferSize]
      omega

/-- A run of keys without `'\n'` edits the held line. -/
theorem Holds.runKeys {s : ShellState} {line : List (BitVec 8)} (h : Holds s line) :
    ∀ ks : List Key, Key.char 10 ∉ ks → Holds (Shell.runKeys s ks) (ks.foldl editKey line)
  | [], _ => h
  | k :: ks, hks => by
    rw [List.mem_cons, not_or] at hks
    exact (h.key k (Ne.symm hks.1)).runKeys ks hks.2

/-- `'\n'` ends with `shell_clear_buffer`, whatever the state. -/
theorem shellProcessInput_newline (s : ShellState) :
    (shellProcessInput s 10).1 = shellClearBuffer (s.store s.bufferPos 0) := rfl

/-- `'\n'` hands the line, followed by NULs, to the tokenizer, unless it
is empty. -/
theorem Holds.newline {s : ShellState} {line : List (BitVec 8)} (h : Holds s line) :
    (shellProcessInput s 10).2 =
      if line = [] then none else some (line ++ List.replicate (shellBufferSize - line.length) 0) := by
  have hn : shellBufferSize - line.length = shellBufferSize - line.length - 1 + 1 := by
    have := h.length_le
    simp only [shellBufferSize] at this ⊢
    omega
  simp only [shellProcessInput, if_true, shellExecuteCommand, ShellState.store_bufferPos, h.pos,
    List.length_eq_zero]
  split_ifs
  · rfl
  · rw [ofFn_store, h.buffer, hn, append_replicate_set, List.append_assoc,
      List.singleton_append, ← List.replicate_succ]

/-! ## The law -/

/-- What the shell owes for a state whose line, by the reference editor,
is `line`. -/
structure Edits (s : ShellState) (line : List (BitVec 8)) : Prop where
  /-- `buffer_pos <= SHELL_BUFFER_SIZE - 1`. -/
  pos_le : s.bufferPos ≤ shellBufferSize - 1
  /-- `input_buffer[i] = 0` for `i` in `[buffer_pos, SHELL_BUFFER_SIZE)`. -/
  tail : ∀ i : Fin shellBufferSize, s.bufferPos ≤ i.val → s.inputBuffer i = 0
  /-- `input_buffer[0..buffer_pos)` is the line. -/
  contents : (List.ofFn s.inputBuffer).take s.bufferPos = line
  /-- On `'\n'` the string passed to `shell_parse_command` is the line. -/
  parse : (shellProcessInput s 10).2.map cstr = if line = [] then none else some line

theorem Holds.edits {s : ShellState} {line : List (BitVec 8)} (h : Holds s line) : Edits s line where
  pos_le := h.pos ▸ h.length_le
  tail i hi := by
    have e := List.getElem_of_eq h.buffer (by simp only [List.length_ofFn]; exact i.isLt)
    rw [List.getElem_ofFn, List.getElem_append_right (h.pos ▸ hi), List.getElem_replicate] at e
    exact e
  contents := by rw [h.buffer, h.pos, List.take_left]
  parse := by
    rw [h.newline]
    split_ifs
    · rfl
    · rw [Option.map_some', cstr_append_replicate h.zero_not_mem]

/-- After `shell_init` and any keys, with `cur` the keys since the last
`'\n'`, the shell holds the line the reference editor makes of `cur`. -/
theorem shell_buffer_is_line_editor (s : ShellState) (pre cur : List Key)
    (hpre : pre = [] ∨ pre.getLast? = some (.char 10)) (hcur : Key.char 10 ∉ cur) :
    Edits (runKeys (shellInit s) (pre ++ cur)) (edit cur) := by
  obtain ⟨s', hs'⟩ : ∃ s', runKeys (shellInit s) pre = shellClearBuffer s' := by
    rcases hpre with rfl | hl
    · exact ⟨{ s with bufferPos := 0 }, rfl⟩
    · obtain ⟨p, rfl⟩ := List.getLast?_eq_some_iff.1 hl
      exact ⟨(runKeys (shellInit s) p).store (runKeys (shellInit s) p).bufferPos 0,
        (runKeys_append _ _ _).trans (shellProcessInput_newline _)⟩
  rw [runKeys_append, hs']
  exact ((holds_clear s').runKeys cur hcur).edits

/-- "A", '\n', then "B", backspace, "C": the shell holds "C". -/
theorem shell_buffer_after_two_lines :
    ([Key.char 0x41, .char 10] = [] ∨ [Key.char 0x41, .char 10].getLast? = some (.char 10)) ∧
      Key.char 10 ∉ [Key.char 0x42, .backspace, .char 0x43] ∧
      Edits (runKeys (shellInit ⟨fun _ => 0, 0⟩)
        ([.char 0x41, .char 10] ++ [.char 0x42, .backspace, .char 0x43]))
        (edit [.char 0x42, .backspace, .char 0x43]) :=
  ⟨Or.inr rfl, by decide, shell_buffer_is_line_editor _ _ _ (Or.inr rfl) (by decide)⟩

end MiniCore.Shell
