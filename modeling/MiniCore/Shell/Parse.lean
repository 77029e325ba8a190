import MiniCore.Shell.Model
import Mathlib.Data.List.Basic

/-!
# `shell_parse_command` is a whitespace tokenizer

What the tokenizer is for: splitting the line into its words. `tokens s`
says what the words are, without the code's loops: the nonempty pieces of
`s` cut at every `' '` and `'\t'`, that is, its maximal runs of other
bytes.

`Scan` is what holds each time the outer loop tests its condition: the
tokens taken so far are in `argv`, each reads as itself from the buffer,
whose only changed bytes are the NULs put after them, and the bytes from
`token` on are untouched and hold the tokens not yet taken. Skipping the
leading blanks establishes it (`Scan.init`), one turn keeps it
(`Scan.step`, through `Scan.next`), and the loop ends with every slot
used or at the NUL after the last token (`Scan.run`), where setting
`argv[argc]` to `NULL` leaves the input tokenized (`Scan.tokenized`).

**The law** (`shellParseCommand_tokenizes`): for every input and every
`max_args`, `argc` is the number of tokens, at most `max_args - 1`;
`argv[i]` is where the input's `i`-th token starts and reads as exactly
that token; `argv[argc]` is `NULL` and nothing past it is written; and
the only bytes changed are the separators right after taken tokens, now
NUL.

## What this does NOT cover

What the command handlers do with `argv` (the lookup of `argv[0]` is in
`Shell.Command`). The
input is the bytes from `input` to the end of its buffer, which the code
reads up to the first NUL; a buffer without one reads as if a NUL followed
it.
-/

namespace MiniCore.Shell

/-! ## Tokens -/

/-- The tokens of the string `s`: its maximal runs of bytes other than
`' '` and `'\t'`. -/
def tokens (s : List (BitVec 8)) : List (List (BitVec 8)) := (s.splitOnP isBlank).filter (· ≠ [])

example : tokens [9, 0x61, 32, 32, 0x62, 0x62, 32] = [[0x61], [0x62, 0x62]] := by decide

/-- Cutting at a separator cuts the pieces there. -/
theorem splitOnP_append_sep {α : Type} (p : α → Bool) {sep : α} (hs : p sep) :
    ∀ (A B : List α), (A ++ sep :: B).splitOnP p = A.splitOnP p ++ B.splitOnP p
  | [], B => by simp [hs]
  | a :: A, B => by
    rw [List.cons_append, List.splitOnP_cons, List.splitOnP_cons, splitOnP_append_sep p hs A B]
    split
    · rfl
    · obtain ⟨x, xs, e⟩ := List.exists_cons_of_ne_nil (List.splitOnP_ne_nil p A)
      rw [e]
      rfl

theorem tokens_blank_cons {c : BitVec 8} (hc : isBlank c) (s : List (BitVec 8)) :
    tokens (c :: s) = tokens s := by
  simp [tokens, List.splitOnP_cons, hc]

theorem tokens_append_sep {b : BitVec 8} (hb : isBlank b) (A B : List (BitVec 8)) :
    tokens (A ++ b :: B) = tokens A ++ tokens B := by
  simp only [tokens, splitOnP_append_sep _ hb, List.filter_append]

theorem tokens_word {w : List (BitVec 8)} (hw : w ≠ []) (hb : ∀ c ∈ w, isBlank c = false) :
    tokens w = [w] := by
  rw [tokens, List.splitOnP_eq_single isBlank w (fun c hc => by simp [hb c hc])]
  simp [hw]

theorem tokens_blanks : ∀ {g : List (BitVec 8)}, (∀ c ∈ g, isBlank c) → ∀ s, tokens (g ++ s) = tokens s
  | [], _, _ => rfl
  | c :: g, h, s => by
    rw [List.cons_append, tokens_blank_cons (h c (List.mem_cons_self _ _)),
      tokens_blanks (fun d hd => h d (List.mem_cons_of_mem _ hd))]

/-! ## Where the loops stop -/

/-- Leading blanks carry no token. -/
theorem tokens_cstr_blankRun (u : List (BitVec 8)) :
    tokens (cstr (u.drop (blankRun u))) = tokens (cstr u) := by
  have hb := blankRun_blank u
  conv_rhs => rw [← List.take_append_drop (blankRun u) u]
  rw [cstr_append (fun h => absurd (hb 0 h) (by decide)), tokens_blanks hb]

section Word

variable {u : List (BitVec 8)} (hn : 0 < wordRun u)
include hn

theorem take_wordRun_ne_nil : u.take (wordRun u) ≠ [] := by
  have := wordRun_le u
  rw [← List.length_pos, List.length_take]
  omega

/-- A word that ends the string. -/
theorem tokens_cstr_word_end (h0 : u.getD (wordRun u) 0 = 0) :
    cstr u = u.take (wordRun u) ∧ tokens (cstr u) = [u.take (wordRun u)] := by
  have hw := wordRun_word u
  have hc : cstr u = u.take (wordRun u) := by
    conv_lhs => rw [← List.take_append_drop (wordRun u) u]
    rw [cstr_append (fun h => (hw 0 h).1 rfl), cstr_eq_nil (by rwa [getD_drop, Nat.add_zero]),
      List.append_nil]
  exact ⟨hc, by rw [hc, tokens_word (take_wordRun_ne_nil hn) fun c hc => (hw c hc).2]⟩

/-- A word followed by a blank. -/
theorem tokens_cstr_word_sep (h0 : u.getD (wordRun u) 0 ≠ 0) :
    tokens (cstr u) = u.take (wordRun u) :: tokens (cstr (u.drop (wordRun u + 1))) := by
  have hw := wordRun_word u
  have hlt := lt_length_of_getD_ne h0
  have hb : u.getD (wordRun u) 0 = u[wordRun u] := by
    rw [List.getD_eq_getElem?_getD, List.getElem?_eq_getElem hlt]; rfl
  have hsep := wordRun_stop u h0
  rw [hb] at h0 hsep
  conv_lhs => rw [← List.take_append_drop (wordRun u) u, List.drop_eq_getElem_cons hlt]
  rw [cstr_append (fun h => (hw 0 h).1 rfl), cstr_cons h0, tokens_append_sep hsep,
    tokens_word (take_wordRun_ne_nil hn) fun c hc => (hw c hc).2, List.singleton_append]

end Word

/-! ## The outer loop -/

/-- What holds each time the outer loop tests its condition, with `token`
at `o`, for the input `s0` and the `argv` the caller passed: the bytes `sc`
and `av` have taken the first `argc` tokens, each read from `sc` as itself
and ended by a NUL put after it, and the bytes from `o` on are untouched
and hold the tokens not yet taken. -/
structure Scan (s0 : List (BitVec 8)) (argv : Nat → Option Nat) (sc : List (BitVec 8)) (argc : Nat)
    (av : Nat → Option Nat) (o : Nat) : Prop where
  length : sc.length = s0.length
  suffix : sc.drop o = s0.drop o
  head : isBlank (s0.getD o 0) = false
  rest : tokens (cstr (s0.drop o)) = (tokens (cstr s0)).drop argc
  argc_le : argc ≤ (tokens (cstr s0)).length
  taken : ∀ i < argc, ∃ p w, av i = some p ∧ (tokens (cstr s0))[i]? = some w ∧
    w <+: s0.drop p ∧ tokens (cstr (s0.drop p)) = (tokens (cstr s0)).drop i ∧
    cstr (sc.drop p) = w ∧ p + w.length ≤ o
  writes : ∀ j, sc.getD j 0 ≠ s0.getD j 0 → sc.getD j 0 = 0 ∧
    ∃ i < argc, ∃ p w, av i = some p ∧ (tokens (cstr s0))[i]? = some w ∧ j = p + w.length
  untaken : ∀ j, argc ≤ j → av j = argv j

section Scan

variable {s0 sc sc' w : List (BitVec 8)} {argv av : Nat → Option Nat} {o o' i : Nat}

/-- One turn of the loop in general: the token `w` at `o` is taken, and the
bytes change only at the byte after it, to NUL. -/
theorem Scan.next (hs : Scan s0 argv sc i av o) (hlen : sc'.length = s0.length)
    (hsuf : sc'.drop o' = s0.drop o') (hhead : isBlank (s0.getD o' 0) = false)
    (htoks : tokens (cstr (s0.drop o)) = w :: tokens (cstr (s0.drop o')))
    (hw : w <+: s0.drop o) (hw0 : w ≠ []) (hread : cstr (sc'.drop o) = w) (ho : o + w.length ≤ o')
    (hch : ∀ j, sc'.getD j 0 ≠ sc.getD j 0 → j = o + w.length ∧ sc'.getD j 0 = 0) :
    Scan s0 argv sc' (i + 1) (Function.update av i (some o)) o' := by
  have hdrop : (tokens (cstr s0)).drop i = w :: tokens (cstr (s0.drop o')) := hs.rest.symm.trans htoks
  have hwi : (tokens (cstr s0))[i]? = some w := by
    rw [← Nat.add_zero i, ← List.getElem?_drop, hdrop, List.getElem?_cons_zero]
  have hwl : 0 < w.length := List.length_pos.2 hw0
  -- bytes before the new separator are those of the previous turn
  have hkeep : ∀ j < o + w.length, sc'.getD j 0 = sc.getD j 0 := fun j hj => by
    by_contra hne
    exact absurd (hch j hne).1 (by omega)
  refine ⟨hlen, hsuf, hhead, ?_, ?_, fun j hj => ?_, fun j hj => ?_, fun j hj => ?_⟩
  · rw [← List.tail_drop, hdrop]; rfl
  · by_contra hl
    rw [List.drop_of_length_le (by omega)] at hdrop
    cases hdrop
  · rcases Nat.lt_succ_iff_lt_or_eq.1 hj with hj | rfl
    · obtain ⟨p, v, hp, hv, hpre, hrest, hcs, hpo⟩ := hs.taken j hj
      refine ⟨p, v, by rw [Function.update_noteq (by omega), hp], hv, hpre, hrest, ?_, by omega⟩
      rw [← hcs]
      exact cstr_congr fun k hk => by
        rw [getD_drop, getD_drop, hkeep _ (by rw [hcs] at hk; omega)]
    · exact ⟨o, w, Function.update_same _ _ _, hwi, hw, hs.rest, hread, ho⟩
  · by_cases hc : sc'.getD j 0 = sc.getD j 0
    · obtain ⟨h0, i', hi', p, v, hp, hv, rfl⟩ := hs.writes j (hc ▸ hj)
      exact ⟨hc ▸ h0, i', by omega, p, v, by rw [Function.update_noteq (by omega), hp], hv, rfl⟩
    · obtain ⟨rfl, h0⟩ := hch j hc
      exact ⟨h0, i, Nat.lt_succ_self i, o, w, Function.update_same _ _ _, hwi, rfl⟩
  · rw [Function.update_noteq (by omega)]
    exact hs.untaken j (by omega)

/-- The loop reads the untouched bytes from `o` on. -/
theorem Scan.read (hs : Scan s0 argv sc i av o) (j : Nat) : sc.getD (o + j) 0 = s0.getD (o + j) 0 := by
  rw [← getD_drop, ← getD_drop, hs.suffix]

/-- One turn of the loop on a token at `o`: the code takes it, and sets the
blank after it, if any, to NUL. -/
theorem Scan.step (hs : Scan s0 argv sc i av o) (h0 : s0.getD o 0 ≠ 0) (k : Nat) :
    ∃ sc' o', parseArgs sc av o i (k + 1) =
        parseArgs sc' (Function.update av i (some o)) o' (i + 1) k ∧
      Scan s0 argv sc' (i + 1) (Function.update av i (some o)) o' := by
  have hsd := hs.suffix
  have hn : 0 < wordRun (s0.drop o) :=
    wordRun_pos (by rwa [getD_drop, Nat.add_zero]) (by rw [getD_drop, Nat.add_zero]; exact hs.head)
  have hwl : ((s0.drop o).take (wordRun (s0.drop o))).length = wordRun (s0.drop o) := by
    rw [List.length_take, min_eq_left (wordRun_le _)]
  have hdd : ∀ j, sc.drop (o + j) = s0.drop (o + j) := fun j => by
    rw [← List.drop_drop, hsd, List.drop_drop]
  have hsc0 : sc.getD o 0 ≠ 0 := (hs.read 0).trans_ne h0
  by_cases hb : s0.getD (o + wordRun (s0.drop o)) 0 = 0
  · -- the word ends the string
    obtain ⟨hc, ht⟩ := tokens_cstr_word_end hn (by rwa [getD_drop])
    refine ⟨sc, o + wordRun (s0.drop o), ?_, hs.next hs.length (hdd _) (by rw [hb]; rfl) ?_
      (List.take_prefix _ _) (take_wordRun_ne_nil hn) (by rw [hsd, hc]) (by rw [hwl])
      fun j h => absurd rfl h⟩
    · rw [parseArgs, if_neg hsc0, hsd, if_neg (not_not_intro ((hs.read _).trans hb))]
    · rw [ht, cstr_eq_nil (by rwa [getD_drop, Nat.add_zero]), tokens]
      rfl
  · -- a blank follows the word: it becomes the NUL ending the argument
    have ht := tokens_cstr_word_sep hn (by rwa [getD_drop])
    have hlt := lt_length_of_getD_ne ((hs.read _).trans_ne hb)
    have hset : ∀ j, o + wordRun (s0.drop o) < j →
        (sc.set (o + wordRun (s0.drop o)) 0).drop j = s0.drop j := fun j hj => by
      rw [List.drop_set, if_pos hj, ← Nat.add_sub_cancel' (show o ≤ j by omega), hdd]
    refine ⟨sc.set (o + wordRun (s0.drop o)) 0,
      o + wordRun (s0.drop o) + 1 + blankRun (s0.drop (o + wordRun (s0.drop o) + 1)), ?_,
      hs.next (by rw [List.length_set, hs.length]) (hset _ (by omega)) ?_ ?_ (List.take_prefix _ _)
        (take_wordRun_ne_nil hn) ?_ (by rw [hwl]; omega) fun j hj => ?_⟩
    · rw [parseArgs, if_neg hsc0, hsd, if_pos ((hs.read _).trans_ne hb)]
      dsimp only
      rw [hset _ (by omega)]
    · rw [← getD_drop, ← List.drop_drop]
      exact blankRun_stop _
    · rw [ht, List.drop_drop, ← Nat.add_assoc, ← List.drop_drop (blankRun _), tokens_cstr_blankRun]
    · rw [List.drop_set, if_neg (by omega), hsd, Nat.add_sub_cancel_left,
        List.set_eq_take_cons_drop _ (by rw [List.length_drop, ← hs.length]; omega),
        cstr_append_zero (fun h => ((wordRun_word _) 0 h).1 rfl)]
    · have hj' : o + wordRun (s0.drop o) = j := by
        by_contra hne
        exact hj (getD_set_ne _ hne _)
      subst hj'
      exact ⟨by rw [hwl], getD_set_self hlt _⟩

/-- The whole loop: it stops with every slot used, or at the NUL after the
last token. -/
theorem Scan.run : ∀ (k : Nat) {sc : List (BitVec 8)} {i o : Nat} {av : Nat → Option Nat},
    Scan s0 argv sc i av o → ∃ o', Scan s0 argv (parseArgs sc av o i k).input
      (parseArgs sc av o i k).argc (parseArgs sc av o i k).argv o' ∧
      ((parseArgs sc av o i k).argc = i + k ∨
        (tokens (cstr s0)).length ≤ (parseArgs sc av o i k).argc ∧ (parseArgs sc av o i k).argc ≤ i + k)
  | 0, _, _, o, _, hs => ⟨o, hs, .inl rfl⟩
  | k + 1, sc, i, o, av, hs => by
    by_cases h0 : s0.getD o 0 = 0
    · rw [parseArgs, if_pos (show sc.getD o 0 = 0 from (hs.read 0).trans h0)]
      refine ⟨o, hs, .inr ⟨?_, Nat.le_add_right _ _⟩⟩
      have := hs.rest
      rw [cstr_eq_nil (by rwa [getD_drop, Nat.add_zero]), tokens, List.splitOnP_nil] at this
      exact List.drop_eq_nil_iff.1 this.symm
    · obtain ⟨sc', o', e, hs'⟩ := hs.step h0 k
      obtain ⟨o'', hr, hk⟩ := Scan.run k hs'
      rw [e]
      exact ⟨o'', hr, hk.imp (fun h => h.trans (by omega)) fun h => ⟨h.1, by omega⟩⟩

theorem Scan.init (s0 : List (BitVec 8)) (argv : Nat → Option Nat) :
    Scan s0 argv s0 0 argv (blankRun s0) where
  length := rfl
  suffix := rfl
  head := blankRun_stop s0
  rest := tokens_cstr_blankRun s0
  argc_le := Nat.zero_le _
  taken _ h := absurd h (Nat.not_lt_zero _)
  writes _ h := absurd rfl h
  untaken _ _ := rfl

end Scan

/-- What a whitespace tokenizer leaves in `r`, for the input `input`, the
`argv` passed in and `max_args`: `argc` is the number of tokens of the
string the input holds, but at most `max_args - 1`; each `argv[i]` below
`argc` is the offset `p` at which the input holds the `i`-th token `w` and
from which it holds the tokens from the `i`-th on, and the bytes left read
as `w` from `p`; `argv[argc]` is `NULL` and no entry past it is written; and
a byte that changed is a NUL right after a taken token. -/
structure Tokenized (input : List (BitVec 8)) (argv : Nat → Option Nat) (maxArgs : Int) (r : Parsed) :
    Prop where
  argc : r.argc = min (tokens (cstr input)).length (maxArgs - 1).toNat
  args : ∀ i < r.argc, ∃ p w, r.argv i = some p ∧ (tokens (cstr input))[i]? = some w ∧
    w <+: input.drop p ∧ tokens (cstr (input.drop p)) = (tokens (cstr input)).drop i ∧
    cstr (r.input.drop p) = w
  null : r.argv r.argc = none
  untouched : ∀ j, r.argc < j → r.argv j = argv j
  length : r.input.length = input.length
  writes : ∀ j, r.input.getD j 0 ≠ input.getD j 0 → r.input.getD j 0 = 0 ∧
    ∃ i < r.argc, ∃ p w, r.argv i = some p ∧ (tokens (cstr input))[i]? = some w ∧ j = p + w.length

section Tokenized

variable {s0 : List (BitVec 8)} {argv : Nat → Option Nat} {o : Nat}

/-- Where the loop has stopped with `argc` tokens taken, `argv[argc] = NULL`
leaves the input tokenized. -/
theorem Scan.tokenized {maxArgs : Int} {r : Parsed} (hs : Scan s0 argv r.input r.argc r.argv o)
    (hk : r.argc = min (tokens (cstr s0)).length (maxArgs - 1).toNat) :
    Tokenized s0 argv maxArgs { r with argv := Function.update r.argv r.argc none } := by
  refine ⟨hk, fun i hi => ?_, Function.update_same _ _ _, fun j hj => ?_, hs.length, fun j hj => ?_⟩
  · dsimp only at hi ⊢
    obtain ⟨p, w, hp, h⟩ := hs.taken i hi
    exact ⟨p, w, by rw [Function.update_noteq (Nat.ne_of_lt hi), hp], h.1, h.2.1, h.2.2.1, h.2.2.2.1⟩
  · dsimp only at hj ⊢
    rw [Function.update_noteq (Nat.ne_of_gt hj)]
    exact hs.untaken j (Nat.le_of_lt hj)
  · dsimp only at hj ⊢
    obtain ⟨h0, i, hi, p, w, hp, hw, rfl⟩ := hs.writes j hj
    exact ⟨h0, i, hi, p, w, by rw [Function.update_noteq (Nat.ne_of_lt hi), hp], hw, rfl⟩

end Tokenized

/-- **`shell_parse_command` is a whitespace tokenizer**, for every input and
every `max_args`. -/
theorem shellParseCommand_tokenizes (input : List (BitVec 8)) (argv : Nat → Option Nat) (maxArgs : Int) :
    Tokenized input argv maxArgs (shellParseCommand input argv maxArgs) := by
  obtain ⟨o, hs, hk⟩ := Scan.run (maxArgs - 1).toNat (Scan.init input argv)
  exact hs.tokenized (by have := hs.argc_le; omega)

example :
    let r := shellParseCommand [32, 0x6C, 0x73, 9, 9, 0x61, 32, 0x62, 0, 0x63] (fun _ => none) 2
    r.argc = 1 ∧ r.argv 0 = some 1 ∧ r.argv 1 = none ∧
      r.input = [32, 0x6C, 0x73, 0, 9, 0x61, 32, 0x62, 0, 0x63] := by
  decide

end MiniCore.Shell
