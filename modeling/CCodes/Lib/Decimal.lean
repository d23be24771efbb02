/-
CCodes.Lib.Decimal — numbers printed with `%d`, and lines of them.

A program that shows a list prints each number and a blank behind it, and a newline
at the end. `line_injective` says that nothing is lost: two lists that print alike
are the same list.
-/
import Mathlib.Data.List.Basic

namespace CCodes.Lib

/-- What `%d` prints. -/
def decimal : Int → List Char
  | .ofNat n => Nat.toDigits 10 n
  | .negSucc n => '-' :: Nat.toDigits 10 (n + 1)

/-- The numbers, a blank behind each, and the newline. -/
def line : List Int → List Char
  | [] => ['\n']
  | v :: vs => decimal v ++ ' ' :: line vs

/-! ## One number -/

theorem toDigits_injective {m n : Nat} (h : Nat.toDigits 10 m = Nat.toDigits 10 n) : m = n := by
  have hread := congrArg (fun ds => Nat.ofDigitChars 10 ds 0) h
  simpa only [Nat.ofDigitChars_ten_toDigits] using hread

/-- There are only digits among the digits. -/
theorem notMem_toDigits {c : Char} (hc : c.isDigit = false) (n : Nat) :
    c ∉ Nat.toDigits 10 n := by
  intro hmem
  rw [Nat.isDigit_of_mem_toDigits (by decide) (by decide) hmem] at hc
  cases hc

theorem blank_notMem_decimal (v : Int) : ' ' ∉ decimal v := by
  cases v with
  | ofNat n => exact notMem_toDigits rfl n
  | negSucc n =>
    rw [decimal, List.mem_cons, not_or]
    exact ⟨by decide, notMem_toDigits rfl (n + 1)⟩

theorem decimal_injective {v w : Int} (h : decimal v = decimal w) : v = w := by
  have hminus : ∀ m n : Nat, Nat.toDigits 10 m ≠ '-' :: Nat.toDigits 10 (n + 1) :=
    fun m n heq => notMem_toDigits (c := '-') rfl m (heq ▸ List.mem_cons_self)
  cases v with
  | ofNat m =>
    cases w with
    | ofNat n => exact congrArg Int.ofNat (toDigits_injective h)
    | negSucc n => exact absurd h (hminus m n)
  | negSucc m =>
    cases w with
    | ofNat n => exact absurd h.symm (hminus n m)
    | negSucc n =>
      rw [decimal, decimal, List.cons.injEq] at h
      exact congrArg Int.negSucc (Nat.succ.inj (toDigits_injective h.2))

/-! ## A line -/

/-- Two lists cut at the first `c`. -/
theorem cut_inj {α : Type} {c : α} {rest rest' : List α} :
    ∀ {xs ys : List α}, c ∉ xs → c ∉ ys → xs ++ c :: rest = ys ++ c :: rest' →
      xs = ys ∧ rest = rest'
  | [], [], _, _, h => ⟨rfl, (List.cons.inj h).2⟩
  | [], y :: ys, _, hy, h => absurd (List.cons.inj h).1 fun heq => hy (heq ▸ List.mem_cons_self)
  | x :: xs, [], hx, _, h =>
      absurd (List.cons.inj h).1.symm fun heq => hx (heq ▸ List.mem_cons_self)
  | x :: xs, y :: ys, hx, hy, h => by
      obtain ⟨rfl, htail⟩ := List.cons.inj h
      obtain ⟨rfl, hrest⟩ := cut_inj (List.not_mem_of_not_mem_cons hx)
        (List.not_mem_of_not_mem_cons hy) htail
      exact ⟨rfl, hrest⟩

/-- What is printed says what was there. -/
theorem line_injective : ∀ {vs ws : List Int}, line vs = line ws → vs = ws
  | [], [], _ => rfl
  | [], w :: ws, h => by
      have hmem : ' ' ∈ line (w :: ws) := List.mem_append_right _ List.mem_cons_self
      rw [← h] at hmem
      exact absurd hmem (by decide)
  | v :: vs, [], h => by
      have hmem : ' ' ∈ line (v :: vs) := List.mem_append_right _ List.mem_cons_self
      rw [h] at hmem
      exact absurd hmem (by decide)
  | v :: vs, w :: ws, h => by
      obtain ⟨hfirst, hrest⟩ := cut_inj (blank_notMem_decimal v) (blank_notMem_decimal w) h
      rw [decimal_injective hfirst, line_injective hrest]

end CCodes.Lib
