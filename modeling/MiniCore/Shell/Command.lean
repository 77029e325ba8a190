import MiniCore.Shell.Parse
import MiniCore.Shell.Line
import MiniCore.Fs.Model

/-!
# Enter runs the command the line's first word names

What `shell_execute_command` is for: running the command the typed line
names. It hands the buffer to `shell_parse_command` with `SHELL_MAX_ARGS`,
does nothing when no token was found, and otherwise looks `argv[0]` up in
the `commands` table with `shell_find_command`: it calls that entry's
handler with `argc` and `argv`, or prints `"Unknown command: "`, `argv[0]`
and a hint to type `help`.

`shell_find_command` returns the index of the first name that
`shell_strcmp` finds equal. The table's names hold no NUL, so that is the
index of the string `name` reads as, when that string is a name
(`findCommandFrom_eq`, `shellFindCommand_eq`). On a buffer, the dispatch
is decided by its first token (`shellDispatch_eq`, from the tokenizer's
invariant in `Shell.Parse`).

**The law** (`shell_enter_runs_first_word`): in every state the shell is in
before a `'\n'`, with `cur` the keys typed since the buffer was last
cleared, the `'\n'` does nothing when the line the reference editor makes
of `cur` has no word; it runs the command at the index of the first word
when that word is a command name, handing it what the tokenizer left; and
otherwise it prints the unknown-command message naming that word.

## What this does NOT cover

What the handlers do, and the descriptions `help` prints. The colour
changes around the message. The NULs the tokenizer writes into the buffer
are erased by `shell_clear_buffer` right after the handler returns.
-/

namespace MiniCore.Shell

open Fs (cBytes fsStrcmp fsStrcmp_eq_zero_iff)

/-! ## The command table -/

/-- `SHELL_MAX_ARGS`. -/
abbrev shellMaxArgs : Int := 16

/-- The `name` column of `commands`, in its order, without the `NULL` end
marker. -/
def commandNames : List (List (BitVec 8)) :=
  ["help", "echo", "mem", "halt", "clear", "memtest", "version", "uptime", "tasks",
    "starttasks", "enableints", "ls", "cat"].map cBytes

/-- `shell_strcmp`, whose body is that of `fs_strcmp`. -/
def shellStrcmp (str1 str2 : List (BitVec 8)) : Int := fsStrcmp str1 str2

/-- The loop of `shell_find_command` at entry `i`, with the names from
`commands[i]` on. -/
def findCommandFrom (name : List (BitVec 8)) : Nat → List (List (BitVec 8)) → Int
  | _, [] => -1
  | i, n :: ns => if shellStrcmp name n = 0 then i else findCommandFrom name (i + 1) ns

/-- `shell_find_command`. -/
def shellFindCommand (name : List (BitVec 8)) : Int := findCommandFrom name 0 commandNames

/-- What `shell_execute_command` does with a line that has a token. -/
inductive Dispatch
  /-- `commands[index].handler(argc, argv)`, with what `shell_parse_command`
  left in the buffer, `argc` and `argv`. -/
  | run (index : Nat) (args : Parsed)
  /-- The text printed for a name that is not in the table. -/
  | unknown (message : List (BitVec 8))

/-- What `shell_execute_command` prints for the unknown command `name`. -/
def unknownCommandMessage (name : List (BitVec 8)) : List (BitVec 8) :=
  cBytes "Unknown command: " ++ name ++ cBytes "\nType \x27help\x27 for available commands.\n"

/-- `shell_execute_command` once the line is not empty: `shell_parse_command`
on the buffer `input` and the uninitialised `argv`; nothing when it found no
token, else the handler `shell_find_command` finds for `argv[0]`, or the
unknown-command message. `argv[0]` is set whenever `argc > 0`, so the `none`
branch is not taken. -/
def shellDispatch (input : List (BitVec 8)) (argv : Nat → Option Nat) : Option Dispatch :=
  let r := shellParseCommand input argv shellMaxArgs
  if r.argc = 0 then none else
  match r.argv 0 with
  | none => none
  | some p =>
    let cmdIndex := shellFindCommand (r.input.drop p)
    if cmdIndex ≥ 0 then some (.run cmdIndex.toNat r)
    else some (.unknown (unknownCommandMessage (cstr (r.input.drop p))))

/-! ## `shell_find_command` -/

theorem shellStrcmp_eq_zero_iff (s t : List (BitVec 8)) : shellStrcmp s t = 0 ↔ cstr s = cstr t :=
  fsStrcmp_eq_zero_iff s t

/-- Over any table whose names hold no NUL, the loop finds the string
`name` reads as, at its first entry. -/
theorem findCommandFrom_eq (name : List (BitVec 8)) :
    ∀ (i : Nat) (ns : List (List (BitVec 8))), (∀ n ∈ ns, 0 ∉ n) →
      findCommandFrom name i ns =
        if cstr name ∈ ns then ((i + ns.indexOf (cstr name) : Nat) : Int) else -1
  | _, [], _ => rfl
  | i, n :: ns, h => by
    have hn := cstr_of_zero_not_mem (h n (List.mem_cons_self _ _))
    rw [findCommandFrom]
    by_cases he : cstr name = n
    · rw [if_pos ((shellStrcmp_eq_zero_iff _ _).2 (he.trans hn.symm)),
        if_pos (he ▸ List.mem_cons_self _ _), he, List.indexOf_cons, beq_self_eq_true, cond_true,
        Nat.add_zero]
    · rw [if_neg (mt (shellStrcmp_eq_zero_iff _ _).1 (by rwa [hn])),
        findCommandFrom_eq name (i + 1) ns fun m hm => h m (List.mem_cons_of_mem _ hm),
        List.indexOf_cons, beq_eq_false_iff_ne.2 (Ne.symm he), cond_false, Nat.add_right_comm,
        Nat.add_assoc]
      simp only [List.mem_cons, he, false_or]

theorem zero_not_mem_commandNames : ∀ n ∈ commandNames, 0 ∉ n := by decide

/-- `shell_find_command` returns the index of the name `name` reads as, or
`-1`. -/
theorem shellFindCommand_eq (name : List (BitVec 8)) :
    shellFindCommand name =
      if cstr name ∈ commandNames then ((commandNames.indexOf (cstr name) : Nat) : Int) else -1 := by
  rw [shellFindCommand, findCommandFrom_eq name 0 commandNames zero_not_mem_commandNames, Nat.zero_add]

example : shellFindCommand (cBytes "ls\x00-l") = 11 ∧ shellFindCommand (cBytes "lsx") = -1 := by
  decide

/-! ## Dispatch -/

/-- On the buffer `input`, the dispatch is decided by its first token: the
handler at that token's index in the table, or the unknown-command message
naming it. -/
theorem shellDispatch_eq (input : List (BitVec 8)) (argv : Nat → Option Nat) :
    shellDispatch input argv = (tokens (cstr input)).head?.map fun w =>
      if w ∈ commandNames then .run (commandNames.indexOf w) (shellParseCommand input argv shellMaxArgs)
      else .unknown (unknownCommandMessage w) := by
  obtain ⟨o, hs, hk⟩ := Scan.run (shellMaxArgs - 1).toNat (Scan.init input argv)
  have ht : Tokenized input argv shellMaxArgs (shellParseCommand input argv shellMaxArgs) :=
    hs.tokenized (by have := hs.argc_le; omega)
  have hargc : _ = min _ 15 := ht.argc
  rw [shellDispatch]
  dsimp only
  cases htok : tokens (cstr input) with
  | nil => rw [if_pos (by rw [hargc, htok]; rfl)]; rfl
  | cons w ws =>
    rw [htok, List.length_cons] at hargc
    obtain ⟨p, v, hp, hv, -, -, hr⟩ := ht.args 0 (by rw [hargc]; omega)
    rw [htok, List.getElem?_cons_zero, Option.some_inj] at hv
    subst hv
    rw [if_neg (by rw [hargc]; omega), hp]
    dsimp only
    rw [shellFindCommand_eq, hr, List.head?_cons, Option.map_some']
    by_cases hm : w ∈ commandNames
    · rw [if_pos hm, if_pos (Int.natCast_nonneg _), Int.toNat_natCast, if_pos hm]
    · rw [if_neg hm, if_neg (by decide), if_neg hm]

/-! ## The law -/

/-- **Enter runs the command the line's first word names.** `runKeys
(shellClearBuffer s) cur` is every state the shell is in before a `'\n'`:
after `shell_init`, or after the last `'\n'`, which ends with
`shell_clear_buffer`, with the keys `cur` typed since. -/
theorem shell_enter_runs_first_word (s : ShellState) (cur : List Key) (hcur : Key.char 10 ∉ cur)
    (argv : Nat → Option Nat) :
    ((shellProcessInput (runKeys (shellClearBuffer s) cur) 10).2.bind fun input =>
        shellDispatch input argv) =
      (tokens (edit cur)).head?.map fun w =>
        if w ∈ commandNames then
          .run (commandNames.indexOf w)
            (shellParseCommand (edit cur ++ List.replicate (shellBufferSize - (edit cur).length) 0)
              argv shellMaxArgs)
        else .unknown (unknownCommandMessage w) := by
  have h : Holds _ (edit cur) := (holds_clear s).runKeys cur hcur
  rw [h.newline]
  split_ifs with he
  · rw [he]
    rfl
  · rw [Option.some_bind, shellDispatch_eq, cstr_append_replicate h.zero_not_mem]

/-- `"ls"` then Enter, from a cleared buffer, runs `ls`. -/
theorem enter_after_ls_runs_ls :
    Key.char 10 ∉ [Key.char 0x6C, .char 0x73] ∧
      ∃ r, ((shellProcessInput (runKeys (shellClearBuffer ⟨fun _ => 0, 0⟩) [.char 0x6C, .char 0x73])
          10).2.bind fun input => shellDispatch input fun _ => none) = some (.run 11 r) :=
  ⟨by decide, _, (shell_enter_runs_first_word _ _ (by decide) _).trans rfl⟩

end MiniCore.Shell
