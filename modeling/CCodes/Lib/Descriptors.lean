/-
CCodes.Lib.Descriptors — the descriptors of processes.

A process has a table that says what each of its descriptors refers to. What is
opened gets the lowest descriptor that is not in use, or fails when all below the
limit are. So a process that closes what it opened last has its table back
(`close_alloc`), and one that never closes has a descriptor less with everything it
opens (`used_alloc`). A child that is forked gets a copy of the table: what the
descriptors refer to stays open until every process that has it closed it or went
away.
-/
import Mathlib.Data.Finset.Card
import Mathlib.Logic.Function.Basic

namespace CCodes.Lib

/-- What each descriptor of a process refers to. -/
abbrev Descriptors (δ : Type) := Nat → Option δ

namespace Descriptors

variable {δ : Type} {limit fd : Nat} {t u : Descriptors δ} {d e : δ}

/-- The lowest descriptor below the limit that is not in use. -/
def lowest (limit : Nat) (t : Descriptors δ) : Option Nat :=
  (List.range limit).find? fun fd => (t fd).isNone

/-- Something is opened. `none` is a failure: no descriptor is free. -/
def alloc (limit : Nat) (t : Descriptors δ) (d : δ) : Option (Nat × Descriptors δ) :=
  (t.lowest limit).map fun fd => (fd, Function.update t fd (some d))

/-- `close(fd)`. -/
def close (t : Descriptors δ) (fd : Nat) : Descriptors δ := Function.update t fd none

/-- A descriptor refers to `d`. -/
def Holds (t : Descriptors δ) (d : δ) : Prop := ∃ fd, t fd = some d

/-- How many descriptors below the limit are in use. -/
def used (limit : Nat) (t : Descriptors δ) : Nat :=
  ((Finset.range limit).filter fun fd => (t fd).isSome).card

/-! ## §1 Opening and closing -/

theorem lowest_eq_some (h : t.lowest limit = some fd) : fd < limit ∧ t fd = none := by
  refine ⟨List.mem_range.mp (List.mem_of_find?_eq_some h), ?_⟩
  simpa using List.find?_some h

theorem lowest_eq_none_iff : t.lowest limit = none ↔ ∀ fd, fd < limit → t fd ≠ none := by
  simp [lowest, Option.ne_none_iff_isSome]

theorem alloc_of_lowest (h : t.lowest limit = some fd) :
    t.alloc limit d = some (fd, Function.update t fd (some d)) := by
  rw [alloc, h, Option.map_some]

theorem alloc_cases (h : t.alloc limit d = some (fd, u)) :
    t.lowest limit = some fd ∧ u = Function.update t fd (some d) := by
  obtain ⟨fd', hlow, heq⟩ := Option.map_eq_some_iff.mp h
  rw [Prod.mk.injEq] at heq
  obtain ⟨rfl, rfl⟩ := heq
  exact ⟨hlow, rfl⟩

theorem alloc_self (h : t.alloc limit d = some (fd, u)) : u fd = some d := by
  obtain ⟨-, rfl⟩ := alloc_cases h
  exact Function.update_self ..

theorem alloc_of_ne (h : t.alloc limit d = some (fd, u)) {j : Nat} (hj : j ≠ fd) : u j = t j := by
  obtain ⟨-, rfl⟩ := alloc_cases h
  exact Function.update_of_ne hj ..

/-- Closing what was opened last gives the table back. -/
theorem close_alloc (h : t.alloc limit d = some (fd, u)) : u.close fd = t := by
  obtain ⟨hlow, rfl⟩ := alloc_cases h
  rw [close, Function.update_idem, ← (lowest_eq_some hlow).2, Function.update_eq_self]

/-- The descriptor was not in use, so nothing else is touched. -/
theorem alloc_eq_some_iff (h : t.alloc limit d = some (fd, u)) {j : Nat} :
    u j = some e ↔ (j = fd ∧ e = d) ∨ t j = some e := by
  by_cases hj : j = fd
  · rw [hj, alloc_self h, (lowest_eq_some (alloc_cases h).1).2, Option.some.injEq]
    simp [eq_comm]
  · rw [alloc_of_ne h hj]
    simp [hj]

theorem holds_alloc (h : t.alloc limit d = some (fd, u)) : u.Holds e ↔ e = d ∨ t.Holds e := by
  simp only [Holds, alloc_eq_some_iff h, exists_or, exists_and_right, exists_eq, true_and]

theorem close_self (t : Descriptors δ) (fd : Nat) : t.close fd fd = none := Function.update_self ..

theorem close_of_ne {j : Nat} (hj : j ≠ fd) : t.close fd j = t j := Function.update_of_ne hj ..

theorem Holds.of_close (h : (t.close fd).Holds d) : t.Holds d := by
  obtain ⟨j, hj⟩ := h
  by_cases hjf : j = fd
  · rw [hjf, close_self] at hj
    cases hj
  · exact ⟨j, by rwa [close_of_ne hjf] at hj⟩

theorem close_comm (t : Descriptors δ) (fd fd' : Nat) :
    (t.close fd).close fd' = (t.close fd').close fd := by
  by_cases h : fd = fd'
  · rw [h]
  · exact Function.update_comm h ..

/-- What another descriptor refers to is not touched. -/
theorem Holds.close (h : t.Holds d) (hfd : t fd ≠ some d) : (t.close fd).Holds d := by
  obtain ⟨j, hj⟩ := h
  refine ⟨j, ?_⟩
  rw [close_of_ne ?_, hj]
  rintro rfl
  exact hfd hj

/-! ## §2 Counting -/

/-- There is room exactly when fewer descriptors are in use than the limit. -/
theorem alloc_isSome_iff : (t.alloc limit d).isSome ↔ t.used limit < limit := by
  rw [alloc, Option.isSome_map, ← Option.ne_none_iff_isSome, ne_eq, lowest_eq_none_iff, used]
  constructor
  · intro h
    push Not at h
    obtain ⟨fd, hlt, hnone⟩ := h
    have hss : (Finset.range limit).filter (fun fd => (t fd).isSome) ⊂ Finset.range limit := by
      rw [Finset.filter_ssubset]
      exact ⟨fd, Finset.mem_range.mpr hlt, by simp [hnone]⟩
    simpa using Finset.card_lt_card hss
  · intro h hall
    have hfull : (Finset.range limit).filter (fun fd => (t fd).isSome) = Finset.range limit := by
      refine Finset.filter_true_of_mem fun fd hfd => ?_
      exact Option.ne_none_iff_isSome.mp (hall fd (Finset.mem_range.mp hfd))
    rw [hfull, Finset.card_range] at h
    exact lt_irrefl _ h

/-- What is opened takes one descriptor. -/
theorem used_alloc (h : t.alloc limit d = some (fd, u)) : u.used limit = t.used limit + 1 := by
  obtain ⟨hlow, rfl⟩ := alloc_cases h
  obtain ⟨hlt, hnone⟩ := lowest_eq_some hlow
  have hset : (Finset.range limit).filter (fun j => (Function.update t fd (some d) j).isSome) =
      insert fd ((Finset.range limit).filter fun j => (t j).isSome) := by
    ext j
    by_cases hj : j = fd
    · subst hj
      simp [hlt]
    · simp [hj]
  rw [used, hset, Finset.card_insert_of_notMem, used]
  simp [hnone]

theorem used_le (limit : Nat) (t : Descriptors δ) : t.used limit ≤ limit :=
  (Finset.card_filter_le ..).trans (Finset.card_range limit).le

end Descriptors

/-! ## §3 The files of a server -/

/-- What a descriptor of a server refers to: something that was open before the
program started, the listening socket, or the connection of the `k`-th client. -/
inductive File where
  | inherited
  | listening
  | client (k : Nat)
  deriving DecidableEq

/-- The descriptors that a program is started with. -/
def inherit (inUse : Nat → Bool) : Descriptors File :=
  fun fd => if inUse fd then some .inherited else none

/-- A server that made its listening socket has no connection yet. -/
theorem no_client_of_start {limit sockFD : Nat} {inUse : Nat → Bool} {fds : Descriptors File}
    (h : (inherit inUse).alloc limit .listening = some (sockFD, fds)) (k : Nat) :
    ¬ fds.Holds (.client k) := by
  intro hholds
  rcases (Descriptors.holds_alloc h).mp hholds with heq | ⟨fd, hfd⟩
  · cases heq
  · unfold inherit at hfd
    split at hfd <;> cases hfd

/-- The descriptor of a connection is not that of the listening socket. -/
theorem newFD_ne_sockFD {limit newFD sockFD k : Nat} {t u : Descriptors File}
    (hsock : t sockFD = some .listening) (hal : t.alloc limit (.client k) = some (newFD, u)) :
    newFD ≠ sockFD := by
  intro heq
  have hfree := (Descriptors.lowest_eq_some (Descriptors.alloc_cases hal).1).2
  rw [heq, hsock] at hfree
  cases hfree

end CCodes.Lib
