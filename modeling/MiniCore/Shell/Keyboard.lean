import MiniCore.Shell.Line
import MiniCore.Fs.Model

/-!
# The keyboard types the table entry of each make code, shifted while the last shift event was a press

`keyboard_handler` is polled by `shell_run`'s loop. It reads one scancode
(`keyboard_read_scancode` returns 0 when the controller has none), keeps
two bits of `keyboard_state`, `SHIFT_PRESSED` and `CTRL_PRESSED`, and makes
at most one call into the shell: `shell_process_input('\n')` for Enter,
`shell_backspace()` for Backspace, and `shell_process_input` of the byte
`scancode_to_ascii` finds in one of two tables of 58 entries, unless that
byte is 0. A call into the shell is a `Key`, as in `Shell.Model`.

What the keyboard is for, stated over the scancodes alone (`Mods`,
`typedKey`, `heldBy`): a make code types its entry in the shifted or the
plain table, Enter a newline and Backspace a deletion, and the shifted
table is used exactly when the last make or break code of a shift key was
a make code. `keyboardHandler_encode` is the simulation of one call,
`keyboardRun_encode` of a run.

**The laws.**
- `keyboard_shift_is_last_shift_event`: after `keyboard_init` and any
  scancodes, `keyboard_state` holds exactly the two bits of the last shift
  event and the last control event, and the next scancode types what
  `typedKey` says with that shift.
- `shift_break_types_unshifted`: both shift keys share one bit, so
  releasing either ends shifted typing, even while the other is held.
- `keyboard_ignores_ctrl`: `CTRL_PRESSED` is kept but never read; removing
  every control make and break code changes none of the keys typed.
- `keyboard_fills_line`: polled on scancodes without an Enter, from
  `keyboard_init` and `shell_init`, the shell holds the line the reference
  editor makes of the keys those scancodes type.

## What this does NOT cover

The port reads of `keyboard_read_scancode` (the model is handed the value
it returns), the printing `shell_process_input` does, and
`keyboard_interrupt_handler`, which calls `keyboard_handler` but is never
registered with `register_interrupt_handler`.
-/

namespace MiniCore.Shell

open Fs (cBytes)

/-! ## The source -/

/-- `SHIFT_PRESSED`. -/
def shiftPressed : BitVec 8 := 0x01

/-- `CTRL_PRESSED`. -/
def ctrlPressed : BitVec 8 := 0x02

/-- `KEY_BACKSPACE`. -/
def keyBackspace : BitVec 8 := 0x0E

/-- `KEY_ENTER`. -/
def keyEnter : BitVec 8 := 0x1C

/-- `KEY_LCTRL`. -/
def keyLctrl : BitVec 8 := 0x1D

/-- `KEY_LSHIFT`. -/
def keyLshift : BitVec 8 := 0x2A

/-- `KEY_RSHIFT`. -/
def keyRshift : BitVec 8 := 0x36

/-- `scancode_ascii`, eight entries a string from `0x00` on. -/
def scancodeAscii : List (BitVec 8) :=
  cBytes ("\x00\x00123456" ++ "7890-=\x00\x00" ++ "qwertyui" ++ "op[]\x00\x00as" ++
    "dfghjkl;" ++ "\x27\x60\x00\\zxcv" ++ "bnm,./\x00*" ++ "\x00 ")

/-- `scancode_ascii_shift`, eight entries a string from `0x00` on. -/
def scancodeAsciiShift : List (BitVec 8) :=
  cBytes ("\x00\x00!@#$%^" ++ "&*()_+\x00\x00" ++ "QWERTYUI" ++ "OP\x7b\x7d\x00\x00AS" ++
    "DFGHJKL:" ++ "\"~\x00|ZXCV" ++ "BNM<>?\x00*" ++ "\x00 ")

/-- `scancode_to_ascii`: 0 past the end of `scancode_ascii`, else the
entry of the shifted table when `shift` is not 0, else of the plain one. -/
def scancodeToAscii (scancode shift : BitVec 8) : BitVec 8 :=
  if scancode.toNat ≥ scancodeAscii.length then 0
  else if shift ≠ 0 ∧ scancode.toNat < scancodeAsciiShift.length then
    scancodeAsciiShift.getD scancode.toNat 0
  else scancodeAscii.getD scancode.toNat 0

/-- The `keyboard_state` that `keyboard_init` leaves. -/
def keyboardInit : BitVec 8 := 0

/-- `keyboard_handler`, on the value `keyboard_read_scancode` returned: the
new `keyboard_state`, and the call it makes into the shell, if any. -/
def keyboardHandler (keyboardState scancode : BitVec 8) : BitVec 8 × Option Key :=
  if scancode = 0 then (keyboardState, none)
  else if scancode &&& 0x80 ≠ 0 then
    let scancode := scancode &&& 0x7F
    if scancode = keyLshift ∨ scancode = keyRshift then (keyboardState &&& ~~~shiftPressed, none)
    else if scancode = keyLctrl then (keyboardState &&& ~~~ctrlPressed, none)
    else (keyboardState, none)
  else if scancode = keyLshift ∨ scancode = keyRshift then (keyboardState ||| shiftPressed, none)
  else if scancode = keyLctrl then (keyboardState ||| ctrlPressed, none)
  else if scancode = keyEnter then (keyboardState, some (.char 10))
  else if scancode = keyBackspace then (keyboardState, some .backspace)
  else
    let ascii := scancodeToAscii scancode (keyboardState &&& shiftPressed)
    (keyboardState, if ascii ≠ 0 then some (.char ascii) else none)

/-- `keyboard_handler` called on each of `scancodes` in turn: the
`keyboard_state` after, and the calls made into the shell, in order. -/
def keyboardRun (keyboardState : BitVec 8) : List (BitVec 8) → BitVec 8 × List Key
  | [] => (keyboardState, [])
  | scancode :: scancodes =>
    let r := keyboardHandler keyboardState scancode
    let rest := keyboardRun r.1 scancodes
    (rest.1, r.2.toList ++ rest.2)

/-- One pass of `shell_run`'s loop: `keyboard_handler`, with the call it
makes into the shell carried out. -/
def shellPoll (st : BitVec 8 × ShellState) (scancode : BitVec 8) : BitVec 8 × ShellState :=
  let r := keyboardHandler st.1 scancode
  (r.1, r.2.elim st.2 (Key.run st.2))

/-! ## What the keyboard is for -/

/-- What `keyboard_state` stands for: whether a shift key, and the left
control key, are held. -/
structure Mods where
  shift : Bool
  ctrl : Bool

/-- The bits of `keyboard_state` for `m`. -/
def Mods.encode (m : Mods) : BitVec 8 :=
  (if m.shift then shiftPressed else 0) ||| (if m.ctrl then ctrlPressed else 0)

/-- `code` is the make or the break code of a shift key. -/
def isShiftCode (code : BitVec 8) : Bool := code &&& 0x7F = keyLshift || code &&& 0x7F = keyRshift

/-- `code` is the make or the break code of the left control key. -/
def isCtrlCode (code : BitVec 8) : Bool := code &&& 0x7F = keyLctrl

/-- A modifier after `code`: pressed by its make code, released by its
break code, and otherwise as it was. -/
def press (isKey : BitVec 8 → Bool) (held : Bool) (code : BitVec 8) : Bool :=
  if isKey code then code.toNat < 0x80 else held

/-- The modifiers after `code`. -/
def Mods.step (m : Mods) (code : BitVec 8) : Mods :=
  ⟨press isShiftCode m.shift code, press isCtrlCode m.ctrl code⟩

/-- Whether a modifier is held after `codes`: the last of its make and
break codes among them is a make code. -/
def heldBy (isKey : BitVec 8 → Bool) (codes : List (BitVec 8)) : Bool :=
  ((codes.filter isKey).getLast?.map fun c => decide (c.toNat < 0x80)).getD false

/-- The key `code` types with shift held or not: Enter a newline, Backspace
a deletion, any other code its entry in the table, unless that is 0. -/
def typedKey (shift : Bool) (code : BitVec 8) : Option Key :=
  if code = keyEnter then some (.char 10)
  else if code = keyBackspace then some .backspace
  else match (if shift then scancodeAsciiShift else scancodeAscii)[code.toNat]? with
    | some c => if c = 0 then none else some (.char c)
    | none => none

/-- The keys `codes` type, from the modifiers `m`. -/
def Mods.keys (m : Mods) : List (BitVec 8) → List Key
  | [] => []
  | code :: codes => (typedKey m.shift code).toList ++ (m.step code).keys codes

/-! ## One call -/

section Bits

variable (m : Mods)

theorem Mods.encode_clear_shift : m.encode &&& ~~~shiftPressed = (⟨false, m.ctrl⟩ : Mods).encode := by
  cases m with | mk s c => cases s <;> cases c <;> decide

theorem Mods.encode_clear_ctrl : m.encode &&& ~~~ctrlPressed = (⟨m.shift, false⟩ : Mods).encode := by
  cases m with | mk s c => cases s <;> cases c <;> decide

theorem Mods.encode_set_shift : m.encode ||| shiftPressed = (⟨true, m.ctrl⟩ : Mods).encode := by
  cases m with | mk s c => cases s <;> cases c <;> decide

theorem Mods.encode_set_ctrl : m.encode ||| ctrlPressed = (⟨m.shift, true⟩ : Mods).encode := by
  cases m with | mk s c => cases s <;> cases c <;> decide

theorem Mods.encode_and_shift : m.encode &&& shiftPressed = if m.shift then 1 else 0 := by
  cases m with | mk s c => cases s <;> cases c <;> decide

end Bits

/-- The release bit is the top bit. -/
theorem and_80_ne_zero_iff : ∀ code : BitVec 8, code &&& 0x80 ≠ 0 ↔ 0x80 ≤ code.toNat := by
  decide

/-- A make code is its own low seven bits. -/
theorem and_7f_of_make : ∀ code : BitVec 8, code &&& 0x80 = 0 → code &&& 0x7F = code := by
  decide

theorem length_scancodeAscii : scancodeAscii.length = 58 := rfl

theorem length_scancodeAsciiShift : scancodeAsciiShift.length = 58 := rfl

/-- `scancode_to_ascii` with the shift bit of `keyboard_state` reads the
table `shift` selects. -/
theorem scancodeToAscii_eq (code : BitVec 8) (shift : Bool) :
    scancodeToAscii code (if shift then 1 else 0) =
      ((if shift then scancodeAsciiShift else scancodeAscii)[code.toNat]?).getD 0 := by
  have h1 : (1 : BitVec 8) ≠ 0 := by decide
  rw [scancodeToAscii, length_scancodeAscii, length_scancodeAsciiShift]
  by_cases hc : code.toNat < 58
  · cases shift <;> simp [hc, h1, List.getD_eq_getElem?_getD]
  · rw [if_pos (Nat.le_of_not_lt hc), List.getElem?_eq_none (by cases shift <;> exact Nat.le_of_not_lt hc)]
    rfl

/-- A break code types nothing. -/
theorem typedKey_break (shift : Bool) {code : BitVec 8} (hc : 0x80 ≤ code.toNat) : typedKey shift code = none := by
  have hn : ∀ k : BitVec 8, k.toNat < 0x80 → code ≠ k := by rintro k hk rfl; omega
  rw [typedKey, if_neg (hn _ (by decide)), if_neg (hn _ (by decide)),
    List.getElem?_eq_none (by cases shift <;> exact Nat.le_trans (by decide) hc)]

/-- **One call of `keyboard_handler` is one step of the modifiers**, and
the call it makes into the shell is the key `typedKey` gives. -/
theorem keyboardHandler_encode (m : Mods) (code : BitVec 8) :
    keyboardHandler m.encode code = ((m.step code).encode, typedKey m.shift code) := by
  obtain ⟨s, c⟩ := m
  by_cases h0 : code = 0
  · subst h0
    cases s <;> cases c <;> decide
  rw [keyboardHandler, if_neg h0]
  by_cases hr : code &&& 0x80 ≠ 0
  · -- a break code types nothing, and releases the modifier it names
    have hlt := (and_80_ne_zero_iff code).1 hr
    simp only [if_pos hr, typedKey_break s hlt, Mods.step, press, isShiftCode, isCtrlCode, Nat.not_lt.2 hlt, decide_False,
      Bool.or_eq_true, decide_eq_true_eq]
    by_cases hs : code &&& 0x7F = keyLshift ∨ code &&& 0x7F = keyRshift
    · have hc : code &&& 0x7F ≠ keyLctrl := by rcases hs with h | h <;> rw [h] <;> decide
      simp only [if_pos hs, if_neg hc, Mods.encode_clear_shift]
    by_cases hc : code &&& 0x7F = keyLctrl
    · simp only [if_neg hs, if_pos hc, Mods.encode_clear_ctrl]
    simp only [if_neg hs, if_neg hc]
  · -- a make code presses the modifier it names, or types its key
    rw [not_not] at hr
    simp only [if_neg (not_not.2 hr), Mods.step, press, isShiftCode, isCtrlCode, and_7f_of_make code hr,
      Nat.not_le.1 (mt (and_80_ne_zero_iff code).2 (not_not.2 hr)), decide_True, Bool.or_eq_true,
      decide_eq_true_eq]
    by_cases hs : code = keyLshift ∨ code = keyRshift
    · rcases hs with rfl | rfl <;> cases s <;> cases c <;> decide
    by_cases hc : code = keyLctrl
    · subst hc
      cases s <;> cases c <;> decide
    simp only [if_neg hs, if_neg hc]
    rw [typedKey]
    by_cases he : code = keyEnter
    · simp only [if_pos he]
    by_cases hb : code = keyBackspace
    · simp only [if_neg he, if_pos hb]
    rw [if_neg he, if_neg he, if_neg hb, if_neg hb, Mods.encode_and_shift, scancodeToAscii_eq]
    cases (if s then scancodeAsciiShift else scancodeAscii)[code.toNat]? with
    | none => rfl
    | some a => simp only [Option.getD_some, ne_eq, ite_not]

/-! ## Runs -/

/-- **A run of `keyboard_handler` is a run of the modifiers**, and the calls
it makes into the shell are the keys the scancodes type. -/
theorem keyboardRun_encode (m : Mods) (codes : List (BitVec 8)) :
    keyboardRun m.encode codes = ((codes.foldl Mods.step m).encode, m.keys codes) := by
  induction codes generalizing m with
  | nil => rfl
  | cons code codes ih => simp only [keyboardRun, keyboardHandler_encode, ih, List.foldl_cons, Mods.keys]

theorem keyboardInit_eq : keyboardInit = (⟨false, false⟩ : Mods).encode := rfl

/-- The modifiers after a run: each is as the run's codes for it press it. -/
theorem foldl_step (codes : List (BitVec 8)) (m : Mods) :
    codes.foldl Mods.step m = ⟨codes.foldl (press isShiftCode) m.shift, codes.foldl (press isCtrlCode) m.ctrl⟩ := by
  induction codes generalizing m with
  | nil => rfl
  | cons code codes ih => exact ih (m.step code)

/-- A modifier after a run is as its last make or break code left it. -/
theorem foldl_press (isKey : BitVec 8 → Bool) (held : Bool) (codes : List (BitVec 8)) :
    codes.foldl (press isKey) held =
      ((codes.filter isKey).getLast?.map fun c => decide (c.toNat < 0x80)).getD held := by
  induction codes using List.reverseRecOn with
  | nil => rfl
  | append_singleton codes c ih =>
    rw [List.foldl_append, ih, List.filter_append, List.foldl_cons, List.foldl_nil, press]
    cases hc : isKey c
    · rw [List.filter_singleton, hc, cond_false, List.append_nil]
      rfl
    · rw [List.filter_singleton, hc, cond_true, List.getLast?_append_of_ne_nil _ (List.cons_ne_nil _ _)]
      rfl

/-- The keys typed by codes in sequence. -/
theorem Mods.keys_append (m : Mods) (pre post : List (BitVec 8)) :
    m.keys (pre ++ post) = m.keys pre ++ (pre.foldl Mods.step m).keys post := by
  induction pre generalizing m with
  | nil => rfl
  | cons code pre ih => rw [List.cons_append, Mods.keys, Mods.keys, ih, List.append_assoc]; rfl

/-- **The law.** After `keyboard_init` and the scancodes `pre`,
`keyboard_state` holds `SHIFT_PRESSED` exactly when the last make or break
code of a shift key was a make code, `CTRL_PRESSED` likewise for the left
control key, and nothing else; and a further scancode types the key
`typedKey` gives for it with that shift. -/
theorem keyboard_shift_is_last_shift_event (pre : List (BitVec 8)) (code : BitVec 8) :
    (keyboardRun keyboardInit pre).1 = (⟨heldBy isShiftCode pre, heldBy isCtrlCode pre⟩ : Mods).encode ∧
      (keyboardRun keyboardInit (pre ++ [code])).2 =
        (keyboardRun keyboardInit pre).2 ++ (typedKey (heldBy isShiftCode pre) code).toList := by
  rw [keyboardInit_eq, keyboardRun_encode, keyboardRun_encode, Mods.keys_append, foldl_step, foldl_press,
    foldl_press]
  exact ⟨rfl, by rw [Mods.keys, Mods.keys, List.append_nil]; rfl⟩

/-- After the break code of a shift key, whatever the modifiers were, the
next code types its unshifted key. -/
theorem Mods.keys_shift_break (m : Mods) {k : BitVec 8} (hk : k = keyLshift ∨ k = keyRshift) (code : BitVec 8) :
    m.keys [k ||| 0x80, code] = (typedKey false code).toList := by
  have hs : (m.step (k ||| 0x80)).shift = false := by rcases hk with rfl | rfl <;> rfl
  rw [Mods.keys, Mods.keys, Mods.keys, typedKey_break _ (by rcases hk with rfl | rfl <;> decide), hs,
    List.append_nil]
  rfl

/-- Both shift keys share `SHIFT_PRESSED`: the break code of either one
ends shifted typing, whatever was pressed before, and so even while the
other shift key is still held. -/
theorem shift_break_types_unshifted (pre : List (BitVec 8)) (code : BitVec 8) :
    (keyboardRun keyboardInit (pre ++ [keyLshift ||| 0x80, code])).2 =
        (keyboardRun keyboardInit pre).2 ++ (typedKey false code).toList ∧
      (keyboardRun keyboardInit (pre ++ [keyRshift ||| 0x80, code])).2 =
        (keyboardRun keyboardInit pre).2 ++ (typedKey false code).toList := by
  simp only [keyboardInit_eq, keyboardRun_encode, Mods.keys_append]
  exact ⟨by rw [Mods.keys_shift_break _ (.inl rfl)], by rw [Mods.keys_shift_break _ (.inr rfl)]⟩

example : (keyboardRun keyboardInit [keyLshift, keyRshift, keyLshift ||| 0x80, 0x1E]).2 = [.char 0x61] := by
  decide

/-! ## What the control key does -/

/-- A make or break code of the left control key is one of two codes. -/
theorem eq_of_isCtrlCode : ∀ code : BitVec 8, isCtrlCode code → code = keyLctrl ∨ code = keyLctrl ||| 0x80 := by
  decide

/-- A code of the left control key types nothing and leaves shift as it was. -/
theorem Mods.ctrl_code (m : Mods) {code : BitVec 8} (hc : isCtrlCode code) :
    typedKey m.shift code = none ∧ (m.step code).shift = m.shift := by
  obtain ⟨s, c⟩ := m
  rcases eq_of_isCtrlCode code hc with rfl | rfl <;> cases s <;> exact ⟨rfl, rfl⟩

/-- The keys typed depend on the modifiers only through shift, and not on
the control key's codes. -/
theorem Mods.keys_filter_ctrl (codes : List (BitVec 8)) :
    ∀ m m' : Mods, m.shift = m'.shift → m'.keys (codes.filter fun c => !isCtrlCode c) = m.keys codes := by
  induction codes with
  | nil => intros; rfl
  | cons code codes ih =>
    intro m m' h
    by_cases hc : isCtrlCode code
    · obtain ⟨hk, hs⟩ := m.ctrl_code hc
      rw [List.filter_cons_of_neg (by rw [hc]; decide), Mods.keys, hk, Option.toList_none, List.nil_append]
      exact ih _ _ (hs.trans h)
    · rw [List.filter_cons_of_pos (by simpa using hc), Mods.keys, Mods.keys, h]
      exact congrArg _ (ih _ _ (by simp only [Mods.step, h]))

/-- **`CTRL_PRESSED` is kept and never read.** From `keyboard_init`, the
keys a run of scancodes types are those it types with every make and break
code of the control key removed. -/
theorem keyboard_ignores_ctrl (codes : List (BitVec 8)) :
    (keyboardRun keyboardInit (codes.filter fun c => !isCtrlCode c)).2 = (keyboardRun keyboardInit codes).2 := by
  rw [keyboardInit_eq, keyboardRun_encode, keyboardRun_encode]
  exact Mods.keys_filter_ctrl codes _ _ rfl

/-! ## The keyboard and the shell -/

/-- Polling the keyboard with the shell behind it: the keyboard's run, and
the shell after the keys that run types. -/
theorem foldl_shellPoll (codes : List (BitVec 8)) (kb : BitVec 8) (s : ShellState) :
    codes.foldl shellPoll (kb, s) = ((keyboardRun kb codes).1, runKeys s (keyboardRun kb codes).2) := by
  induction codes generalizing kb s with
  | nil => rfl
  | cons code codes ih =>
    simp only [List.foldl_cons, shellPoll, ih, keyboardRun, runKeys_append]
    cases (keyboardHandler kb code).2 <;> rfl

/-- Only Enter types a newline: neither table holds one. -/
theorem typedKey_ne_newline (shift : Bool) {code : BitVec 8} (hc : code ≠ keyEnter) :
    typedKey shift code ≠ some (.char 10) := by
  have ht : (10 : BitVec 8) ∉ (if shift then scancodeAsciiShift else scancodeAscii) := by cases shift <;> decide
  rw [typedKey, if_neg hc]
  generalize (if shift then scancodeAsciiShift else scancodeAscii) = t at ht ⊢
  by_cases hb : code = keyBackspace
  · rw [if_pos hb]
    exact fun h => Key.noConfusion (Option.some.inj h)
  rw [if_neg hb]
  cases ha : t[code.toNat]? with
  | none => exact Option.noConfusion
  | some a =>
    dsimp only
    split_ifs
    · exact Option.noConfusion
    · rintro ⟨⟩
      exact ht (List.mem_iff_getElem?.2 ⟨_, ha⟩)

/-- Scancodes without Enter type no newline. -/
theorem Mods.keys_no_newline (m : Mods) {codes : List (BitVec 8)} (hc : keyEnter ∉ codes) :
    Key.char 10 ∉ m.keys codes := by
  induction codes generalizing m with
  | nil => exact List.not_mem_nil _
  | cons code codes ih =>
    rw [List.mem_cons, not_or] at hc
    rw [Mods.keys, List.mem_append, not_or]
    refine ⟨fun h => typedKey_ne_newline m.shift (Ne.symm hc.1) ?_, ih _ hc.2⟩
    rwa [Option.mem_toList, Option.mem_def] at h

/-- **The keyboard fills the shell's line.** From `keyboard_init` and
`shell_init`, after `shell_run`'s loop has polled scancodes without an
Enter, the shell holds the line the reference editor makes of the keys
those scancodes type. -/
theorem keyboard_fills_line (s : ShellState) (codes : List (BitVec 8)) (hc : keyEnter ∉ codes) :
    Edits (codes.foldl shellPoll (keyboardInit, shellInit s)).2 (edit (keyboardRun keyboardInit codes).2) := by
  rw [foldl_shellPoll, keyboardInit_eq, keyboardRun_encode]
  exact ((holds_clear _).runKeys _ (Mods.keys_no_newline _ hc)).edits

/-- The make codes of H and I fill the line with "hi". -/
theorem keys_hi_fill_line :
    keyEnter ∉ [0x23, 0x17] ∧
      Edits ([0x23, 0x17].foldl shellPoll (keyboardInit, shellInit ⟨fun _ => 0, 0⟩)).2
        (edit (keyboardRun keyboardInit [0x23, 0x17]).2) :=
  ⟨by decide, keyboard_fills_line _ _ (by decide)⟩

example : edit (keyboardRun keyboardInit [0x23, 0x17]).2 = [0x68, 0x69] := by decide

end MiniCore.Shell
