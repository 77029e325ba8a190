import Mathlib.Data.List.Basic
import Mathlib.Data.BitVec

/-!
# C strings as byte lists

A `const char*` argument, a `char[32]` field and the shell's input buffer
all hold a C string: the bytes up to the first NUL. Such a string is a
`List (BitVec 8)` here. The code reads the list's bytes in order, and a
NUL after the last one, so a list without a NUL is the string of all its
bytes, and a list with one ends at it. `cstr` is what a string denotes:
the bytes before the first NUL.

Every function of the sources that walks a string (`fs_strlen`,
`fs_strcmp`, the name copy of `task_create`, the shell's tokenizer) is
modelled on the list as the code walks it, and related to `cstr` by a
lemma beside the function.
-/

namespace MiniCore

/-- The string a byte sequence holds: its bytes before the first NUL. -/
def cstr (s : List (BitVec 8)) : List (BitVec 8) := s.takeWhile (· != 0)

@[simp] theorem cstr_nil : cstr [] = [] := rfl

@[simp] theorem cstr_cons_zero (s : List (BitVec 8)) : cstr (0 :: s) = [] := by
  simp [cstr]

theorem cstr_cons {c : BitVec 8} (h : c ≠ 0) (s : List (BitVec 8)) : cstr (c :: s) = c :: cstr s := by
  simpa [cstr, List.takeWhile_cons] using h

theorem zero_not_mem_cstr (s : List (BitVec 8)) : 0 ∉ cstr s := fun h => by
  simpa using List.mem_takeWhile_imp h

theorem cstr_of_zero_not_mem : ∀ {s : List (BitVec 8)}, 0 ∉ s → cstr s = s
  | [], _ => rfl
  | c :: s, h => by
    rw [List.mem_cons, not_or] at h
    rw [cstr_cons (Ne.symm h.1), cstr_of_zero_not_mem h.2]

@[simp] theorem cstr_cstr (s : List (BitVec 8)) : cstr (cstr s) = cstr s :=
  cstr_of_zero_not_mem (zero_not_mem_cstr s)

theorem cstr_length_le (s : List (BitVec 8)) : (cstr s).length ≤ s.length :=
  List.Sublist.length_le (List.takeWhile_sublist _)

theorem cstr_cons_eq_nil {b : BitVec 8} {s : List (BitVec 8)} : cstr (b :: s) = [] ↔ b = 0 := by
  by_cases hb : b = 0
  · subst hb
    exact iff_of_true (cstr_cons_zero s) rfl
  · rw [cstr_cons hb]
    exact iff_of_false (List.cons_ne_nil _ _) hb

/-- Byte `i` of a string, read before its NUL, is byte `i` of what it denotes. -/
theorem getD_eq_getElem_cstr : ∀ {s : List (BitVec 8)} {i : Nat} (hi : i < (cstr s).length),
    s.getD i 0 = (cstr s)[i]
  | [], _, hi => absurd hi (Nat.not_lt_zero _)
  | c :: s, i, hi => by
    by_cases hc : c = 0
    · subst hc
      rw [cstr_cons_zero] at hi
      exact absurd hi (Nat.not_lt_zero _)
    · simp only [cstr_cons hc] at hi ⊢
      cases i with
      | zero => rfl
      | succ i => exact getD_eq_getElem_cstr (s := s) (by simpa using hi)

/-- A string followed by a NUL. -/
theorem cstr_append_zero : ∀ {l : List (BitVec 8)}, 0 ∉ l → ∀ r, cstr (l ++ 0 :: r) = l
  | [], _, r => cstr_cons_zero r
  | c :: l, h, r => by
    rw [List.mem_cons, not_or] at h
    rw [List.cons_append, cstr_cons (Ne.symm h.1), cstr_append_zero h.2]

/-- A byte sequence that starts with the bytes of `s` and then a NUL holds
the string `s`. -/
theorem cstr_eq_of_getElem : ∀ {s l : List (BitVec 8)}, 0 ∉ s → (hlen : s.length < l.length) →
    (∀ i (hi : i < s.length), l[i] = s[i]) → l[s.length] = 0 → cstr l = s
  | [], _ :: _, _, _, _, hz => by
    simp only [List.length_nil, List.getElem_cons_zero] at hz
    rw [hz, cstr_cons_zero]
  | c :: s, d :: l, hs, hlen, hpre, hz => by
    have hdc : d = c := hpre 0 (Nat.zero_lt_succ _)
    rw [List.mem_cons, not_or] at hs
    subst hdc
    rw [cstr_cons (Ne.symm hs.1), cstr_eq_of_getElem hs.2 (by simpa using hlen)
      (fun i hi => hpre (i + 1) (by simpa using hi)) hz]

/-- A string without a NUL, then more bytes. -/
theorem cstr_append : ∀ {l : List (BitVec 8)}, 0 ∉ l → ∀ r, cstr (l ++ r) = l ++ cstr r
  | [], _, _ => rfl
  | c :: l, h, r => by
    rw [List.mem_cons, not_or] at h
    rw [List.cons_append, cstr_cons (Ne.symm h.1), cstr_append h.2]
    rfl

/-- A string without a NUL, padded with NULs. -/
theorem cstr_append_replicate {l : List (BitVec 8)} (h : 0 ∉ l) : ∀ n, cstr (l ++ List.replicate n 0) = l
  | 0 => by rw [List.replicate_zero, List.append_nil, cstr_of_zero_not_mem h]
  | n + 1 => by rw [List.replicate_succ, cstr_append_zero h]

/-! ## Reading bytes

The code reads byte `j` of a sequence as `getD j 0`: a NUL past the end. -/

theorem getD_drop (l : List (BitVec 8)) (o j : Nat) : (l.drop o).getD j 0 = l.getD (o + j) 0 := by
  simp only [List.getD_eq_getElem?_getD, List.getElem?_drop]

/-- A byte read as nonzero is inside the sequence. -/
theorem lt_length_of_getD_ne {l : List (BitVec 8)} {j : Nat} (h : l.getD j 0 ≠ 0) : j < l.length := by
  by_contra hl
  exact h (by rw [List.getD_eq_getElem?_getD, List.getElem?_eq_none (by omega)]; rfl)

theorem getD_set_self {l : List (BitVec 8)} {j : Nat} (h : j < l.length) (c : BitVec 8) :
    (l.set j c).getD j 0 = c := by
  rw [List.getD_eq_getElem?_getD, List.getElem?_set_self h]; rfl

theorem getD_set_ne (l : List (BitVec 8)) {i j : Nat} (h : i ≠ j) (c : BitVec 8) :
    (l.set i c).getD j 0 = l.getD j 0 := by
  simp only [List.getD_eq_getElem?_getD, List.getElem?_set_ne h]

theorem cstr_eq_nil {l : List (BitVec 8)} (h : l.getD 0 0 = 0) : cstr l = [] := by
  cases l with
  | nil => rfl
  | cons c l => exact cstr_cons_eq_nil.2 h

/-- A string reads the same from bytes that agree with it up to its NUL. -/
theorem cstr_congr : ∀ {l l' : List (BitVec 8)}, (∀ j ≤ (cstr l).length, l'.getD j 0 = l.getD j 0) →
    cstr l' = cstr l
  | [], _, h => cstr_eq_nil (h 0 (Nat.zero_le _))
  | a :: l, l', h => by
    by_cases ha : a = 0
    · subst ha
      rw [cstr_cons_zero]
      exact cstr_eq_nil (h 0 (Nat.zero_le _))
    · have h0 := h 0 (Nat.zero_le _)
      cases l' with
      | nil => exact absurd h0.symm ha
      | cons a' l' =>
        simp only [List.getD_cons_zero] at h0
        subst h0
        rw [cstr_cons ha, cstr_cons ha, cstr_congr fun j hj => h (j + 1) ?_]
        rw [cstr_cons ha, List.length_cons]
        omega

end MiniCore
