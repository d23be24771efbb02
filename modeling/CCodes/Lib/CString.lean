/-
CCodes.Lib.CString — C strings: `strcpy`, `strncmp`, `atoi`.

A text is the list of the bytes before the terminating NUL, so reading past
the end of the list reads a NUL. `atoi` is `(int) strtol(s, NULL, 10)`:
blanks, one sign, digits, saturating at the bounds of `long`, and then
reduced to 32 bits.

The one fact the programs here depend on is `not_prefix_of_atoi`: a text
that `atoi` reads as a number other than 0 begins with a blank, a sign or a
digit, so it does not begin with a word.
-/
import Mathlib.Data.List.Basic

namespace CCodes.Lib

/-- The bytes of an ASCII literal. -/
def bytes (s : String) : List UInt8 := s.toList.map fun c => c.toNat.toUInt8

/-- The text in an array: its bytes before the first NUL. -/
def cstr (b : List UInt8) : List UInt8 := b.takeWhile (· ≠ 0)

theorem cstr_zero_cons (b : List UInt8) : cstr (0 :: b) = [] := rfl

theorem cstr_cons {c : UInt8} (hc : c ≠ 0) (b : List UInt8) : cstr (c :: b) = c :: cstr b :=
  List.takeWhile_cons_of_pos (by simpa using hc)

/-- A text ends at the first NUL behind it. -/
theorem cstr_append_zero (b rest : List UInt8) : cstr (b ++ 0 :: rest) = cstr b := by
  induction b with
  | nil => rfl
  | cons c b ih =>
    by_cases hc : c = 0
    · rw [hc, List.cons_append, cstr_zero_cons, cstr_zero_cons]
    · rw [List.cons_append, cstr_cons hc, cstr_cons hc, ih]

/-- A text has no NUL in it. -/
theorem cstr_cstr (b : List UInt8) : cstr (cstr b) = cstr b := by
  induction b with
  | nil => rfl
  | cons c b ih =>
    by_cases hc : c = 0
    · rw [hc, cstr_zero_cons]
      rfl
    · rw [cstr_cons hc, cstr_cons hc, ih]

/-- A text that bytes without a NUL begin. -/
theorem cstr_append_of_notMem {b : List UInt8} (hb : 0 ∉ b) (rest : List UInt8) :
    cstr (b ++ rest) = b ++ cstr rest := by
  induction b with
  | nil => rfl
  | cons c b ih =>
    rw [List.mem_cons, not_or] at hb
    rw [List.cons_append, cstr_cons (Ne.symm hb.1), ih hb.2, List.cons_append]

theorem zero_notMem_cstr (b : List UInt8) : 0 ∉ cstr b := by
  induction b with
  | nil => exact List.not_mem_nil
  | cons c b ih =>
    by_cases hc : c = 0
    · rw [hc, cstr_zero_cons]
      exact List.not_mem_nil
    · rw [cstr_cons hc, List.mem_cons, not_or]
      exact ⟨Ne.symm hc, ih⟩

/-- A `char` array of `n` bytes. -/
structure CharBuf (n : Nat) where
  bytes : List UInt8
  length_bytes : bytes.length = n

/-- The array after `strcpy(dst, src)`: the text, its NUL, and what was
there behind them. `none` when they do not fit. -/
def strcpy {n : Nat} (dst : CharBuf n) (src : List UInt8) : Option (CharBuf n) :=
  if h : (cstr src).length < n then
    some ⟨cstr src ++ 0 :: dst.bytes.drop ((cstr src).length + 1), by
      rw [List.length_append, List.length_cons, List.length_drop, dst.length_bytes]
      omega⟩
  else none

/-- A text shorter than the array is in it afterwards. -/
theorem strcpy_text {n : Nat} (dst : CharBuf n) {src : List UInt8} (h : (cstr src).length < n) :
    ∃ buf, strcpy dst src = some buf ∧ cstr buf.bytes = cstr src := by
  refine ⟨_, dif_pos h, ?_⟩
  rw [cstr_append_zero, cstr_cstr]

/-- `strncmp(s, t, n)`. -/
def strncmp : List UInt8 → List UInt8 → Nat → Int
  | _, _, 0 => 0
  | s, t, n + 1 =>
      if s.headD 0 ≠ t.headD 0 then (s.headD 0).toNat - (t.headD 0).toNat
      else if s.headD 0 = 0 then 0
      else strncmp s.tail t.tail n

/-- `strncmp` over the whole of a NUL-free text `t` tests for the prefix
`t`. -/
theorem strncmp_eq_zero_iff : ∀ {t : List UInt8} (s : List UInt8), (0 : UInt8) ∉ t →
    (strncmp s t t.length = 0 ↔ t <+: s)
  | [], s, _ => by simp [strncmp]
  | b :: t, s, h0 => by
      have hb : b ≠ 0 := fun h => h0 (by simp [h])
      have ht : (0 : UInt8) ∉ t := fun h => h0 (by simp [h])
      cases s with
      | nil =>
        have : b.toNat ≠ 0 := fun h => hb (UInt8.toNat_inj.mp (by simpa using h))
        simp [strncmp, hb.symm, this]
      | cons a s =>
        simp only [List.length_cons, strncmp, List.headD_cons, List.tail_cons]
        by_cases hab : a = b
        · simp [hab, hb, strncmp_eq_zero_iff s ht]
        · have : (a.toNat : Int) - b.toNat ≠ 0 := by
            intro h
            exact hab (UInt8.toNat_inj.mp (by omega))
          simp [hab, this, Ne.symm hab]

/-! ## `atoi` -/

/-- `isspace` in the C locale. -/
def isSpace (c : UInt8) : Bool := c == 32 || (9 ≤ c && c ≤ 13)

/-- `isdigit`. -/
def isDigit (c : UInt8) : Bool := 48 ≤ c && c ≤ 57

/-- The number written by the leading digits of a text. -/
def digits (s : List UInt8) : Nat :=
  (s.takeWhile isDigit).foldl (fun n c => 10 * n + (c.toNat - 48)) 0

/-- `LONG_MAX` and `LONG_MIN`, for a 64-bit `long`. -/
def longMax : Int := 9223372036854775807
def longMin : Int := -9223372036854775808

/-- `strtol(s, NULL, 10)`. -/
def strtol (s : List UInt8) : Int :=
  let s := s.dropWhile isSpace
  if s.head? = some 45 then max longMin (-digits s.tail)
  else if s.head? = some 43 then min longMax (digits s.tail)
  else min longMax (digits s)

/-- `atoi(s)`. -/
def atoi (s : List UInt8) : Int32 := Int32.ofInt (strtol s)

example : atoi (bytes " -12x") = -12 := by decide

/-- `c` cannot begin a number. -/
def WordByte (c : UInt8) : Prop := isSpace c = false ∧ isDigit c = false ∧ c ≠ 45 ∧ c ≠ 43

instance (c : UInt8) : Decidable (WordByte c) := inferInstanceAs (Decidable (_ ∧ _))

theorem atoi_word {c : UInt8} (hc : WordByte c) (s : List UInt8) : atoi (c :: s) = 0 := by
  obtain ⟨hsp, hdg, hminus, hplus⟩ := hc
  have hdrop : (c :: s).dropWhile isSpace = c :: s := by simp [hsp]
  have hval : strtol (c :: s) = 0 := by
    have hdigits : digits (c :: s) = 0 := by simp [digits, hdg]
    rw [strtol, hdrop, if_neg (by simpa using hminus), if_neg (by simpa using hplus), hdigits]
    rfl
  rw [atoi, hval]
  rfl

/-- A text that is read as a number other than 0 does not begin with a
word. -/
theorem not_prefix_of_atoi {c : UInt8} {t s : List UInt8} (hc : WordByte c)
    (hs : atoi s ≠ 0) : ¬ c :: t <+: s := by
  rintro ⟨r, rfl⟩
  exact hs (atoi_word hc _)

end CCodes.Lib
