/-
CCodes.Lib.Doubling — the capacity of a buffer that doubles when it is
full.

`capacity n` is the least power of two above `n`, and 2 at least: the room
for `n` items and one more. A buffer that starts with room for 2 and doubles
just before the last place would be taken follows it (`capacity_succ`).
-/
import Mathlib.Algebra.Ring.Nat
import Mathlib.Data.Nat.Log
import Mathlib.Order.Bounds.Basic

namespace CCodes.Lib

/-- The least power of two that is 2 at least and more than `n`. -/
def capacity (n : Nat) : Nat := 2 ^ max 1 (Nat.clog 2 (n + 1))

theorem lt_capacity (n : Nat) : n < capacity n :=
  calc n < 2 ^ Nat.clog 2 (n + 1) := Nat.le_pow_clog Nat.one_lt_two (n + 1)
    _ ≤ capacity n := Nat.pow_le_pow_right Nat.two_pos (Nat.le_max_right _ _)

theorem two_le_capacity (n : Nat) : 2 ≤ capacity n :=
  calc 2 = 2 ^ 1 := (Nat.pow_one 2).symm
    _ ≤ capacity n := Nat.pow_le_pow_right Nat.two_pos (Nat.le_max_left _ _)

theorem capacity_le_pow {n k : Nat} (hk : 2 ≤ 2 ^ k) (hn : n < 2 ^ k) : capacity n ≤ 2 ^ k := by
  refine Nat.pow_le_pow_right Nat.two_pos (Nat.max_le.mpr ⟨?_, Nat.clog_le_of_le_pow hn⟩)
  exact (Nat.pow_le_pow_iff_right Nat.one_lt_two).mp hk

/-- `capacity n` is the least power of two with room for `n` items and one
more, and for 2. -/
theorem isLeast_capacity (n : Nat) :
    IsLeast {size | (∃ k, size = 2 ^ k) ∧ max 2 (n + 1) ≤ size} (capacity n) := by
  refine ⟨⟨⟨_, rfl⟩, Nat.max_le.mpr ⟨two_le_capacity n, lt_capacity n⟩⟩, ?_⟩
  rintro _ ⟨⟨k, rfl⟩, hsize⟩
  exact capacity_le_pow ((Nat.le_max_left _ _).trans hsize) ((Nat.le_max_right _ _).trans hsize)

theorem capacity_mono {m n : Nat} (h : m ≤ n) : capacity m ≤ capacity n :=
  capacity_le_pow (two_le_capacity n) (h.trans_lt (lt_capacity n))

/-- **Doubling.** One more item fits, or the capacity doubles. -/
theorem capacity_succ (n : Nat) :
    capacity (n + 1) = if n + 1 < capacity n then capacity n else capacity n * 2 := by
  split
  next hroom =>
    exact le_antisymm (capacity_le_pow (two_le_capacity n) hroom) (capacity_mono (Nat.le_succ n))
  next hfull =>
    have heq : n + 1 = capacity n := le_antisymm (lt_capacity n) (Nat.le_of_not_lt hfull)
    have hpow : capacity n * 2 = 2 ^ (max 1 (Nat.clog 2 (n + 1)) + 1) := (Nat.pow_succ ..).symm
    apply le_antisymm
    · rw [hpow]
      refine capacity_le_pow ?_ ?_
      · exact hpow ▸ (two_le_capacity n).trans (Nat.le_mul_of_pos_right _ Nat.two_pos)
      · have := two_le_capacity n
        omega
    · -- a power of two above another is its double at least
      have hlt : capacity n < capacity (n + 1) := heq ▸ lt_capacity (n + 1)
      have hexp := (Nat.pow_lt_pow_iff_right Nat.one_lt_two).mp hlt
      rw [hpow]
      exact Nat.pow_le_pow_right Nat.two_pos hexp

theorem capacity_zero : capacity 0 = 2 := by simp [capacity]

end CCodes.Lib
