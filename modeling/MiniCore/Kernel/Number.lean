import MiniCore.Kernel.Terminal
import Mathlib.Data.Nat.Digits

/-!
# `terminal_write_dec` and `terminal_write_hex` print numerals that read back

`terminal_write_dec` prints `'0'` for zero; otherwise it stores the
decimal digits of the value in a buffer of 11 bytes, the last digit first,
and prints the buffer backwards. `terminal_write_hex` fills a buffer of 9
bytes from its end with the value's eight nibbles, as digits of
`"0123456789ABCDEF"`, and prints it as a string.

`decLoop` is the digit loop on the `uint32_t` value. It is given at most
ten turns, as many as a `uint32_t` has decimal digits; `decLoop_eq_digits`
shows that the loop has stopped by then, and that what it stores is Mathlib's
`Nat.digits 10` of the value, so the buffer's 11 bytes are never exceeded.

**The laws.** Read as a decimal numeral, what `terminal_write_dec` prints
is the value, with one to ten digits and no leading zero
(`terminal_write_dec_reads_back`). Read as a hexadecimal numeral, what
`terminal_write_hex` prints is the value, with exactly eight digits
(`terminal_write_hex_reads_back`).

## What this does NOT cover

Where the digits land on the screen beyond `terminal_write`, which
`Kernel.Terminal` describes.
-/

namespace MiniCore.Kernel

/-! ## Decimal -/

/-- The digit loop of `terminal_write_dec`, for at most `fuel` turns:
`buffer[pos++] = '0' + (value % 10); value /= 10;` while `value > 0`. The
list is `buffer[0..pos)`, the last digit first. -/
def decLoop : Nat → BitVec 32 → List (BitVec 8)
  | 0, _ => []
  | fuel + 1, value => if value > 0 then (48 + value % 10).truncate 8 :: decLoop fuel (value / 10) else []

/-- The bytes `terminal_write_dec` hands to `terminal_putchar`: `'0'` for
zero, else `buffer[pos - 1]` down to `buffer[0]`. -/
def decChars (value : BitVec 32) : List (BitVec 8) :=
  if value = 0 then [48] else (decLoop 10 value).reverse

/-- `terminal_write_dec`. -/
def terminalWriteDec (t : Terminal) (value : BitVec 32) : Terminal := terminalWrite t (decChars value)

/-- `terminal_write_dec(value)` as terminal calls. -/
def writeDec (value : BitVec 32) : List TermCall := (decChars value).map .putchar

/-- The character of the decimal digit `d`. -/
def digitChar (d : Nat) : BitVec 8 := BitVec.ofNat 8 (48 + d)

/-- A string read as a decimal numeral, most significant digit first. -/
def readDec (s : List (BitVec 8)) : Nat := s.foldl (fun acc c => 10 * acc + (c.toNat - 48)) 0

theorem decLoop_length_le : ∀ (fuel : Nat) (value : BitVec 32), (decLoop fuel value).length ≤ fuel
  | 0, _ => le_rfl
  | fuel + 1, value => by
    rw [decLoop]
    split
    · exact Nat.succ_le_succ (decLoop_length_le fuel _)
    · exact Nat.zero_le _

example : decChars 1234 = [0x31, 0x32, 0x33, 0x34] ∧ decChars 0 = [0x30] := by decide

/-- The loop stores the decimal digits of the value, the last one first,
once it is given as many turns as the value has digits. -/
theorem decLoop_eq_digits : ∀ (fuel : Nat) (value : BitVec 32), value.toNat < 10 ^ fuel →
    decLoop fuel value = (Nat.digits 10 value.toNat).map digitChar
  | 0, value, h => by
    rw [decLoop, show value.toNat = 0 by simpa using h, Nat.digits_zero, List.map_nil]
  | fuel + 1, value, h => by
    rw [decLoop]
    by_cases hv : value.toNat = 0
    · rw [if_neg (by rw [gt_iff_lt, BitVec.lt_def]; simp [hv]), hv, Nat.digits_zero, List.map_nil]
    · have hdiv : (value / 10).toNat = value.toNat / 10 := by
        rw [BitVec.toNat_udiv]
        rfl
      rw [if_pos (by rw [gt_iff_lt, BitVec.lt_def]; simp only [BitVec.ofNat_eq_ofNat, BitVec.toNat_ofNat]; omega),
        decLoop_eq_digits fuel _ (by rw [hdiv, Nat.div_lt_iff_lt_mul (by decide)]; rw [Nat.pow_succ] at h; exact h),
        hdiv, Nat.digits_def' (by decide) (Nat.pos_of_ne_zero hv), List.map_cons]
      congr 1
      apply BitVec.eq_of_toNat_eq
      simp only [digitChar, BitVec.truncate_eq_setWidth, BitVec.toNat_setWidth, BitVec.toNat_add,
        BitVec.toNat_umod, BitVec.ofNat_eq_ofNat, BitVec.toNat_ofNat, Nat.reducePow, Nat.reduceMod]
      omega

/-- Reading a numeral written most significant digit first. -/
theorem readDec_reverse_map_digitChar (L : List Nat) (hL : ∀ d ∈ L, d < 10) :
    readDec (L.map digitChar).reverse = Nat.ofDigits 10 L := by
  rw [readDec, List.foldl_reverse, Nat.ofDigits_eq_foldr]
  induction L with
  | nil => rfl
  | cons d L ih =>
    rw [List.map_cons, List.foldr_cons, List.foldr_cons, ih fun e he => hL e (List.mem_cons_of_mem _ he)]
    have := hL d (List.mem_cons_self _ _)
    simp only [digitChar, BitVec.toNat_ofNat, Nat.cast_id]
    omega

/-- **`terminal_write_dec` prints the value in decimal.** For every
`uint32_t`, the bytes it prints are decimal digits, one to ten of them,
with no leading zero, and read as a decimal numeral they are the value. -/
theorem terminal_write_dec_reads_back (value : BitVec 32) :
    readDec (decChars value) = value.toNat ∧ (∀ c ∈ decChars value, 48 ≤ c.toNat ∧ c.toNat ≤ 57) ∧
      1 ≤ (decChars value).length ∧ (decChars value).length ≤ 10 ∧
      ((decChars value).head? = some 48 → value = 0) := by
  by_cases hv : value = 0
  · subst hv
    decide
  have hn : value.toNat ≠ 0 := fun h => hv (BitVec.eq_of_toNat_eq h)
  have hlt : value.toNat < 10 ^ 10 := by have := value.isLt; omega
  have hds : ∀ d ∈ Nat.digits 10 value.toNat, d < 10 := fun d hd => Nat.digits_lt_base (by decide) hd
  have hdec : decChars value = ((Nat.digits 10 value.toNat).map digitChar).reverse := by
    rw [decChars, if_neg hv, decLoop_eq_digits 10 value hlt]
  have hlen : (Nat.digits 10 value.toNat).length ≤ 10 := by
    have := decLoop_length_le 10 value
    rwa [decLoop_eq_digits 10 value hlt, List.length_map] at this
  have hne : Nat.digits 10 value.toNat ≠ [] := Nat.digits_ne_nil_iff_ne_zero.2 hn
  rw [hdec, List.length_reverse, List.length_map]
  refine ⟨by rw [readDec_reverse_map_digitChar _ hds, Nat.ofDigits_digits], fun c hc => ?_,
    List.length_pos.2 hne, hlen, fun h => ?_⟩
  · rw [List.mem_reverse, List.mem_map] at hc
    obtain ⟨d, hd, rfl⟩ := hc
    have := hds d hd
    simp only [digitChar, BitVec.toNat_ofNat]
    omega
  · rw [List.head?_reverse, List.getLast?_map, List.getLast?_eq_getLast _ hne, Option.map_some',
      Option.some_inj] at h
    have hl := hds _ (List.getLast_mem hne)
    have h0 := Nat.getLast_digit_ne_zero 10 hn
    have := congrArg BitVec.toNat h
    simp only [digitChar, BitVec.ofNat_eq_ofNat, BitVec.toNat_ofNat] at this
    omega

/-! ## Hexadecimal -/

/-- `hex_digits`, `"0123456789ABCDEF"`, without its NUL. -/
def hexDigits : List (BitVec 8) :=
  [0x30, 0x31, 0x32, 0x33, 0x34, 0x35, 0x36, 0x37, 0x38, 0x39, 0x41, 0x42, 0x43, 0x44, 0x45, 0x46]

/-- The loop `for (int i = 7; i >= 0; i--)` of `terminal_write_hex` with `n`
turns left: `buffer[i] = hex_digits[value & 0xF]; value >>= 4;`, each byte
stored in front of those stored before. -/
def hexLoop : Nat → BitVec 32 → List (BitVec 8) → List (BitVec 8)
  | 0, _, buffer => buffer
  | n + 1, value, buffer => hexLoop n (value >>> 4) (hexDigits.getD (value &&& 0xF).toNat 0 :: buffer)

/-- The buffer of `terminal_write_hex` once filled: the eight digits, then
`buffer[8] = '\0'`. -/
def hexBuffer (value : BitVec 32) : List (BitVec 8) := hexLoop 8 value [0]

/-- `terminal_write_hex`. -/
def terminalWriteHex (t : Terminal) (value : BitVec 32) : Terminal := terminalWritestring t (hexBuffer value)

/-- A string read as a hexadecimal numeral, most significant digit first. -/
def readHex (s : List (BitVec 8)) : Nat := s.foldl (fun acc c => 16 * acc + hexDigits.indexOf c) 0

example : hexBuffer 0x2A0F = [0x30, 0x30, 0x30, 0x30, 0x32, 0x41, 0x30, 0x46, 0] := by decide

theorem hexLoop_append : ∀ (n : Nat) (value : BitVec 32) (buffer : List (BitVec 8)),
    hexLoop n value buffer = hexLoop n value [] ++ buffer
  | 0, _, _ => rfl
  | n + 1, value, buffer => by
    rw [hexLoop, hexLoop, hexLoop_append n _ (_ :: buffer), hexLoop_append n _ [_], List.append_assoc,
      List.singleton_append]

/-- The nibble `value & 0xF` and the rest `value >> 4`. -/
theorem toNat_and_fifteen (value : BitVec 32) : (value &&& 0xF).toNat = value.toNat % 16 :=
  (BitVec.toNat_and _ _).trans (Nat.and_pow_two_sub_one_eq_mod value.toNat 4)

theorem toNat_ushiftRight_four (value : BitVec 32) : (value >>> 4).toNat = value.toNat / 16 :=
  (BitVec.toNat_ushiftRight _ _).trans (Nat.shiftRight_eq_div_pow _ _)

/-- Each of the sixteen digits is in the table and reads back as its own value. -/
theorem hexDigits_getD : ∀ k < 16, hexDigits.getD k 0 ∈ hexDigits ∧ hexDigits.indexOf (hexDigits.getD k 0) = k := by
  decide

/-- After `n` turns the digits are the `n` low nibbles of the value, the
highest first. -/
theorem hexLoop_spec : ∀ (n : Nat) (value : BitVec 32),
    (hexLoop n value []).length = n ∧ (∀ c ∈ hexLoop n value [], c ∈ hexDigits) ∧
      readHex (hexLoop n value []) = value.toNat % 16 ^ n
  | 0, _ => ⟨rfl, fun _ h => absurd h (List.not_mem_nil _), (Nat.mod_one _).symm⟩
  | n + 1, value => by
    obtain ⟨hl, hm, hr⟩ := hexLoop_spec n (value >>> 4)
    have hk : (value &&& 0xF).toNat < 16 := by rw [toNat_and_fifteen]; omega
    obtain ⟨hd, hi⟩ := hexDigits_getD _ hk
    rw [hexLoop, hexLoop_append]
    refine ⟨by rw [List.length_append, hl]; rfl, fun c hc => ?_, ?_⟩
    · rcases List.mem_append.1 hc with hc | hc
      · exact hm c hc
      · rw [List.mem_singleton.1 hc]; exact hd
    · rw [readHex, List.foldl_append, ← readHex, hr, List.foldl_cons, List.foldl_nil,
        hi, toNat_ushiftRight_four, toNat_and_fifteen, Nat.pow_succ', Nat.mod_mul]
      omega

/-- **`terminal_write_hex` prints the value in hexadecimal.** For every
`uint32_t`, the string it prints is eight digits of `"0123456789ABCDEF"`,
and read as a hexadecimal numeral they are the value. -/
theorem terminal_write_hex_reads_back (value : BitVec 32) :
    (cstr (hexBuffer value)).length = 8 ∧ (∀ c ∈ cstr (hexBuffer value), c ∈ hexDigits) ∧
      readHex (cstr (hexBuffer value)) = value.toNat := by
  obtain ⟨hl, hm, hr⟩ := hexLoop_spec 8 value
  have hc : cstr (hexBuffer value) = hexLoop 8 value [] := by
    rw [hexBuffer, hexLoop_append, cstr_append_zero fun h => absurd (hm 0 h) (by decide)]
  rw [hc]
  exact ⟨hl, hm, by rw [hr]; exact Nat.mod_eq_of_lt value.isLt⟩

end MiniCore.Kernel
