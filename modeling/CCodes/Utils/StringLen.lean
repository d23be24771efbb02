/-
CCodes.Utils.StringLen — `getLine` of `other/utils/stringlen.c`.

The standard input is the stream of its characters: `input k` is the
character at position `k`, or `none` when the file ended before it. The
buffer is the block that the last `malloc` or `realloc` gave, and a byte of
it that was not yet stored to is `none`. A store outside the block is a
fault, and so is an `int` that overflows: `size * 2`, or `length + 1`.

The loop keeps `size = capacity length`: the buffer is full when only the
place of the NUL is left in it, and then it doubles. `2^30 * 2` is the first
product that is no `int`.
-/
import Mathlib.Data.ENat.Basic
import CCodes.Lib.Doubling

namespace CCodes.Utils

open CCodes.Lib

/-- The characters of the standard input. -/
abbrev Stream := Nat → Option UInt8

/-- What has no defined outcome in C. -/
inductive Fault where
  | sizeOverflow
  | lengthOverflow
  | outOfBounds
  deriving DecidableEq

/-- The result of an operation on `int`s, or the fault it is when it overflows. -/
def int (overflow : Fault) (x : Int) : Except Fault Int :=
  if -2147483648 ≤ x ∧ x ≤ 2147483647 then .ok x else .error overflow

/-- `malloc(size)`, which is assumed to succeed. -/
def malloc (size : Int) : List (Option UInt8) := List.replicate size.toNat none

/-- `realloc(line, size)`, which is assumed to succeed. -/
def realloc (line : List (Option UInt8)) (size : Int) : List (Option UInt8) :=
  line.take size.toNat ++ List.replicate (size.toNat - line.length) none

/-- `line[i] = c`. -/
def store (line : List (Option UInt8)) (i : Int) (c : UInt8) :
    Except Fault (List (Option UInt8)) :=
  if 0 ≤ i ∧ i < line.length then .ok (line.set i.toNat (some c)) else .error .outOfBounds

/-- The variables of `getLine`, and the position that `getchar` reads next. -/
structure GetLine where
  line : List (Option UInt8)
  size : Int
  length : Int
  position : Nat
  deriving DecidableEq

namespace GetLine

/-- Lines 15-17; `INITIAL_STRING_SIZE` is 2. -/
def start : GetLine where
  line := malloc 2
  size := 2
  length := 0
  position := 0

/-- Lines 23-26. -/
def grow (v : GetLine) : Except Fault GetLine :=
  if v.length ≥ v.size - 1 then do
    let size ← int .sizeOverflow (v.size * 2)
    pure { v with size := size, line := realloc v.line size }
  else pure v

/-- Lines 23-27, for the character `c`. -/
def put (v : GetLine) (c : UInt8) : Except Fault GetLine := do
  let v ← v.grow
  let line ← store v.line v.length c
  let length ← int .lengthOverflow (v.length + 1)
  pure { v with line := line, length := length }

/-- Lines 19-28. `none` is a loop that did not end within `fuel` passes. -/
def loop (input : Stream) : Nat → GetLine → Option (Except Fault GetLine)
  | 0, _ => none
  | fuel + 1, v =>
      match input v.position with
      | none => some (.ok v)
      | some c =>
          if c = 10 then some (.ok { v with position := v.position + 1 })
          else
            match { v with position := v.position + 1 }.put c with
            | .error e => some (.error e)
            | .ok v => loop input fuel v

/-- Line 30. -/
def finish (v : GetLine) : Except Fault GetLine := do
  let line ← store v.line v.length 0
  pure { v with line := line }

end GetLine

/-- `getLine`, with the buffer it returns and its last variables. -/
def getLine (input : Stream) (fuel : Nat) : Option (Except Fault GetLine) :=
  (GetLine.start.loop input fuel).map (·.bind GetLine.finish)

/-- `put` when nothing in it goes wrong. -/
theorem GetLine.put_eq_ok {v w : GetLine} {c : UInt8} {line : List (Option UInt8)} {length : Int}
    (hgrow : v.grow = .ok w) (hline : store w.line w.length c = .ok line)
    (hlength : int .lengthOverflow (w.length + 1) = .ok length) :
    v.put c = .ok { w with line := line, length := length } := by
  simp only [GetLine.put, hgrow, hline, hlength, bind, Except.bind]
  rfl

/-! ## §1 The line of a stream -/

/-- The line ends here: at a newline, or at the end of the file. -/
def Stops (c : Option UInt8) : Prop := c = none ∨ c = some 10

instance (c : Option UInt8) : Decidable (Stops c) := inferInstanceAs (Decidable (_ ∨ _))

open Classical in
/-- The number of characters before the first newline or the end of the
file. -/
noncomputable def lineLength (input : Stream) : ℕ∞ :=
  if h : ∃ k, Stops (input k) then (Nat.find h : Nat) else ⊤

theorem le_lineLength_iff {input : Stream} {n : Nat} :
    (n : ℕ∞) ≤ lineLength input ↔ ∀ k < n, ¬ Stops (input k) := by
  unfold lineLength
  split
  next h =>
    rw [Nat.cast_le, Nat.le_find_iff]
  next h =>
    exact ⟨fun _ k _ hk => h ⟨k, hk⟩, fun _ => le_top⟩

theorem lineLength_eq_iff {input : Stream} {n : Nat} :
    lineLength input = n ↔ Stops (input n) ∧ ∀ k < n, ¬ Stops (input k) := by
  unfold lineLength
  split
  next h => rw [Nat.cast_inj, Nat.find_eq_iff]
  next h => exact ⟨fun ht => absurd ht (ENat.top_ne_natCast n), fun hn => absurd ⟨n, hn.1⟩ h⟩

/-! ## §2 The variables after some characters -/

/-- The variables after `k` characters. -/
def after (input : Stream) (k : Nat) : GetLine where
  line := (List.range k).map input ++ List.replicate (capacity k - k) none
  size := capacity k
  length := k
  position := k

theorem after_zero (input : Stream) : after input 0 = GetLine.start := by
  simp [after, GetLine.start, malloc, capacity_zero]

theorem int_eq_ok {overflow : Fault} {x : Int} (h0 : 0 ≤ x) (h : x < 2147483648) :
    int overflow x = .ok x :=
  if_pos (by omega)

/-- A store to the first byte of the block that was not yet stored to. -/
theorem store_next (cs : List (Option UInt8)) (room : Nat) (c : UInt8) :
    store (cs ++ List.replicate (room + 1) none) cs.length c =
      .ok (cs ++ some c :: List.replicate room none) := by
  have hlt : (cs.length : Int) < (cs ++ List.replicate (room + 1) none).length := by
    simp only [List.length_append, List.length_replicate]
    omega
  rw [store, if_pos ⟨Int.natCast_nonneg _, hlt⟩, Int.toNat_natCast,
    List.set_append_right _ _ (Nat.le_refl _), Nat.sub_self, List.replicate_succ]
  rfl

theorem length_after (input : Stream) (k : Nat) : (after input k).line.length = capacity k := by
  have := lt_capacity k
  simp only [after, List.length_append, List.length_map, List.length_range, List.length_replicate]
  omega

theorem capacity_lt {k : Nat} (hk : k < 1073741824) : capacity k ≤ 1073741824 :=
  capacity_le_pow (k := 30) (by decide) hk

/-- The buffer has room for the next character and the NUL, or doubles. -/
theorem grow_after (input : Stream) {k : Nat} (hk : k + 1 < 1073741824) (position : Nat) :
    { after input k with position := position }.grow = .ok
      { line := (List.range k).map input ++ List.replicate (capacity (k + 1) - k) none
        size := capacity (k + 1)
        length := k
        position := position } := by
  have hlt := lt_capacity k
  have hle := capacity_lt hk
  have hsucc := capacity_succ k
  unfold GetLine.grow
  split_ifs at hsucc with hroom
  · rw [if_neg (by simp only [after]; omega), hsucc]
    rfl
  · rw [if_pos (by simp only [after]; omega)]
    have hsize : (after input k).size * 2 = ((capacity (k + 1) : Nat) : Int) := by
      rw [hsucc, Int.natCast_mul]
      rfl
    have hline : realloc (after input k).line (capacity (k + 1) : Nat) =
        (List.range k).map input ++ List.replicate (capacity (k + 1) - k) none := by
      have hlen := length_after input k
      rw [realloc, Int.toNat_natCast, List.take_of_length_le (by omega), hlen, after,
        List.append_assoc, List.replicate_append_replicate]
      congr 2
      omega
    have hint : int .sizeOverflow ((after input k).size * 2) =
        .ok ((capacity (k + 1) : Nat) : Int) := by
      rw [hsize, int_eq_ok (Int.natCast_nonneg _) (by omega)]
    simp only [hint, bind, Except.bind, hline]
    rfl

/-- **Step lemma.** A character that is not a newline is stored behind the
others. -/
theorem put_after {input : Stream} {k : Nat} {c : UInt8} (hk : k + 1 < 1073741824)
    (hc : input k = some c) :
    { after input k with position := k + 1 }.put c = .ok (after input (k + 1)) := by
  have hlt := lt_capacity (k + 1)
  obtain ⟨room, hroom⟩ : ∃ room, capacity (k + 1) - k = room + 1 :=
    ⟨capacity (k + 1) - k - 1, by omega⟩
  have hstore := store_next ((List.range k).map input) room c
  rw [List.length_map, List.length_range] at hstore
  have hline : (List.range k).map input ++ some c :: List.replicate room none =
      (List.range (k + 1)).map input ++ List.replicate (capacity (k + 1) - (k + 1)) none := by
    have hrest : capacity (k + 1) - (k + 1) = room := by omega
    rw [List.range_succ, List.map_append, List.map_singleton, hc, hrest, List.append_assoc]
    rfl
  have hlength : int .lengthOverflow ((k : Int) + 1) = .ok ((k + 1 : Nat) : Int) := by
    rw [int_eq_ok (by omega) (by omega), Int.natCast_add]
    rfl
  rw [GetLine.put_eq_ok (grow_after input hk (k + 1)) (by rw [hroom, hstore, hline]) hlength]
  rfl

/-- The next power of two is no `int` any more. -/
theorem put_after_overflow (input : Stream) {k : Nat} (c : UInt8) (hk : k + 1 = 1073741824) :
    { after input k with position := k + 1 }.put c = .error .sizeOverflow := by
  have hcap : capacity k = 1073741824 := by
    have hlt := lt_capacity k
    have hle := capacity_lt (k := k) (by omega)
    omega
  have hgrow : { after input k with position := k + 1 }.grow = .error .sizeOverflow := by
    rw [GetLine.grow, if_pos (by simp only [after, hcap]; omega)]
    simp only [after, hcap]
    rfl
  rw [GetLine.put, hgrow]
  rfl

/-! ## §3 The loop -/

section

variable {input : Stream} {k : Nat}

/-- One pass of the loop, on a character of the line. -/
theorem loop_after (fuel : Nat) (hk : k + 1 < 1073741824) (hline : ¬ Stops (input k)) :
    (after input k).loop input (fuel + 1) = (after input (k + 1)).loop input fuel := by
  obtain ⟨c, hc⟩ := Option.ne_none_iff_exists'.mp fun h => hline (.inl h)
  have hne : c ≠ 10 := fun h => hline (.inr (h ▸ hc))
  have hpos : (after input k).position = k := rfl
  simp only [GetLine.loop, hpos, hc, if_neg hne, put_after hk hc]

/-- **Run lemma.** The loop on the characters of the line. -/
theorem loop_line (fuel : Nat) : ∀ k < 1073741824, (∀ j < k, ¬ Stops (input j)) →
    GetLine.start.loop input (fuel + k) = (after input k).loop input fuel
  | 0, _, _ => by rw [after_zero, Nat.add_zero]
  | k + 1, hk, hline => by
      have ih := loop_line (fuel + 1) k (by omega) fun j hj => hline j (by omega)
      rw [Nat.add_right_comm] at ih
      rw [← Nat.add_assoc, ih, loop_after fuel hk (hline k (by omega))]

/-- The last pass of the loop. -/
theorem loop_stops (fuel : Nat) (hstop : Stops (input k)) :
    (after input k).loop input (fuel + 1) = some (.ok
      { after input k with position := if input k = some 10 then k + 1 else k }) := by
  have hpos : (after input k).position = k := rfl
  rcases hstop with h | h
  · simp only [GetLine.loop, hpos, h]
    rfl
  · simp only [GetLine.loop, hpos, h, if_true]

/-- What `getLine` returns for a line of `n` characters. -/
def answer (input : Stream) (n : Nat) : GetLine where
  line := (List.range n).map input ++ some 0 :: List.replicate (capacity n - (n + 1)) none
  size := capacity n
  length := n
  position := if input n = some 10 then n + 1 else n

/-- The NUL always has its place. -/
theorem finish_after (n position : Nat) :
    { after input n with position := position }.finish = .ok
      { answer input n with position := position } := by
  have hlt := lt_capacity n
  have hroom : capacity n - n = (capacity n - (n + 1)) + 1 := by omega
  have hstore := store_next ((List.range n).map input) (capacity n - (n + 1)) 0
  rw [List.length_map, List.length_range, ← hroom] at hstore
  have hline : store (after input n).line (after input n).length 0 = .ok (answer input n).line :=
    hstore
  simp only [GetLine.finish, hline, bind, Except.bind]
  rfl

/-- `getLine` does not return before it has read the line. -/
theorem getLine_short {fuel : Nat} (hfuel : fuel < 1073741824)
    (hline : ∀ k < fuel, ¬ Stops (input k)) : getLine input fuel = none := by
  have hloop := loop_line 0 fuel hfuel hline
  rw [Nat.zero_add] at hloop
  rw [getLine, hloop]
  rfl

/-- `getLine` on a line that fits. -/
theorem getLine_fits {n : Nat} (hn : n < 1073741824) (hstop : Stops (input n))
    (hline : ∀ k < n, ¬ Stops (input k)) (fuel : Nat) :
    getLine input fuel = if n < fuel then some (.ok (answer input n)) else none := by
  split
  next hfuel =>
    obtain ⟨rest, rfl⟩ := Nat.exists_eq_add_of_lt hfuel
    have hpasses : n + rest + 1 = rest + 1 + n := by omega
    rw [getLine, hpasses, loop_line (rest + 1) n hn hline, loop_stops rest hstop]
    simp only [Option.map_some, Except.bind, finish_after]
    rfl
  next hfuel => exact getLine_short (by omega) fun k hk => hline k (by omega)

/-- `getLine` on a line that is too long. -/
theorem getLine_long (hline : ∀ k < 1073741824, ¬ Stops (input k)) (fuel : Nat) :
    getLine input fuel = if 1073741824 ≤ fuel then some (.error .sizeOverflow) else none := by
  split
  next hfuel =>
    obtain ⟨rest, rfl⟩ := Nat.exists_eq_add_of_le hfuel
    have hpasses : 1073741824 + rest = rest + 1 + 1073741823 := by omega
    have hloop := loop_line (rest + 1) 1073741823 (by decide) fun k hk => hline k (by omega)
    have hstop := hline 1073741823 (by decide)
    obtain ⟨c, hc⟩ := Option.ne_none_iff_exists'.mp fun h => hstop (.inl h)
    have hne : c ≠ 10 := fun h => hstop (.inr (h ▸ hc))
    have hpos : (after input 1073741823).position = 1073741823 := rfl
    have hput := put_after_overflow input (k := 1073741823) c rfl
    rw [getLine, hpasses, hloop]
    simp only [GetLine.loop, hpos, hc, if_neg hne, hput]
    rfl
  next hfuel => exact getLine_short (by omega) fun k hk => hline k (by omega)

/-- Every stream is one of the two. -/
theorem fits_or_long (input : Stream) :
    (∃ n < 1073741824, Stops (input n) ∧ ∀ k < n, ¬ Stops (input k)) ∨
      ∀ k < 1073741824, ¬ Stops (input k) := by
  by_cases h : ∃ n, n < 1073741824 ∧ Stops (input n)
  · obtain ⟨hlt, hstop⟩ := Nat.find_spec h
    exact .inl ⟨_, hlt, hstop, fun k hk hs => Nat.find_min h hk ⟨hk.trans hlt, hs⟩⟩
  · exact .inr fun k hk hs => h ⟨k, hk, hs⟩

end

/-- **`getLine` reads exactly one line.** A line of fewer than `2^30`
characters is read with every store inside the buffer and no overflow; the
buffer is the least power of two that has room for it, and holds it and a
NUL; and nothing is consumed but the line and its newline. `size *= 2` overflows
exactly on a longer line, `length++` never does, and no store on any input is
outside the buffer. -/
theorem getLine_exact (input : Stream) :
    (∀ n : Nat, lineLength input = n → n ≤ 2 ^ 30 - 1 →
      ∃ v, (∀ fuel, n < fuel → getLine input fuel = some (.ok v)) ∧
        v.line.take (n + 1) = (List.range n).map input ++ [some 0] ∧
        (v.line.length : Int) = v.size ∧
        IsLeast {size | (∃ k, size = 2 ^ k) ∧ max 2 (n + 1) ≤ size} v.line.length ∧
        v.position = if input n = some 10 then n + 1 else n) ∧
      ((∃ fuel, getLine input fuel = some (.error .sizeOverflow)) ↔
        ((2 ^ 30 : Nat) : ℕ∞) ≤ lineLength input) ∧
      ∀ fuel, getLine input fuel ≠ some (.error .lengthOverflow) ∧
        getLine input fuel ≠ some (.error .outOfBounds) := by
  refine ⟨fun n hlen hn => ?_, ?_, fun fuel => ?_⟩
  · obtain ⟨hstop, hline⟩ := lineLength_eq_iff.mp hlen
    have hfits := getLine_fits (by omega) hstop hline
    have hlength : (answer input n).line.length = capacity n := by
      have := lt_capacity n
      simp only [answer, List.length_append, List.length_map, List.length_range, List.length_cons,
        List.length_replicate]
      omega
    refine ⟨answer input n, fun fuel hfuel => by rw [hfits, if_pos hfuel], ?_,
      by rw [hlength]; rfl, hlength ▸ isLeast_capacity n, rfl⟩
    rw [answer, List.take_append, List.take_of_length_le (by simp), List.length_map,
      List.length_range, Nat.add_sub_cancel_left]
    rfl
  · rw [le_lineLength_iff]
    rcases fits_or_long input with ⟨n, hn, hstop, hline⟩ | hline
    · have hfits := getLine_fits hn hstop hline
      constructor
      · rintro ⟨fuel, hfuel⟩
        rw [hfits] at hfuel
        split at hfuel <;> cases hfuel
      · exact fun hlong => absurd hstop (hlong n hn)
    · exact ⟨fun _ => hline, fun _ => ⟨1073741824, by rw [getLine_long hline, if_pos le_rfl]⟩⟩
  · rcases fits_or_long input with ⟨n, hn, hstop, hline⟩ | hline
    · rw [getLine_fits hn hstop hline]
      split <;> simp
    · rw [getLine_long hline]
      split <;> simp

end CCodes.Utils
