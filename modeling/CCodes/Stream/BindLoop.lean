/-
CCodes.Stream.BindLoop — the loop that makes the listening socket, lines 54-76 of
`other/streamserver/server.c` and lines 55-72 of `other/select/selectserver.c`.

    for (p = servInfo; p != NULL; p = p->ai_next) {
      if ((sockFD = socket(...)) == -1) continue;
      if (setsockopt(...) == -1) exit(1);
      if (bind(...) == -1) { close(sockFD); continue; }
      break;
    }

The two differ in one line: `selectserver.c` does not test `setsockopt`. An address
that fails gives its descriptor back, so the socket that is bound has the lowest
descriptor that was free before the loop, whichever address it is for.
-/
import Mathlib.Tactic.SplitIfs
import CCodes.Lib.Descriptors

namespace CCodes.Stream

open CCodes.Lib

/-- What the system answers for one address: whether each call succeeds. Without a
free descriptor `socket` fails in any case. -/
structure Answers where
  socket : Bool
  setsockopt : Bool
  bind : Bool

/-- How the loop ends: a failed `setsockopt` leaves the program, `p` is `NULL` at
the end of the list, or the socket is bound to an address. -/
inductive Outcome (α : Type) where
  | exited
  | unbound
  | bound (p : α) (sockFD : Nat)
  deriving DecidableEq

variable {α δ : Type}

/-- The loop on the rest of the list. `listening` is what a descriptor of the
socket refers to, `tests` whether the result of `setsockopt` is tested. -/
def bindLoop (tests : Bool) (limit : Nat) (listening : δ) :
    List (α × Answers) → Descriptors δ → Outcome α × Descriptors δ
  | [], t => (.unbound, t)
  | (p, a) :: ai, t =>
      match if a.socket then t.alloc limit listening else none with
      | none => bindLoop tests limit listening ai t
      | some (sockFD, t) =>
          if tests ∧ a.setsockopt = false then (.exited, t)
          else if a.bind then (.bound p sockFD, t)
          else bindLoop tests limit listening ai (t.close sockFD)

/-- `other/streamserver/server.c`. -/
def streamBind (limit : Nat) (listening : δ) (ai : List (α × Answers)) (t : Descriptors δ) :
    Outcome α × Descriptors δ :=
  bindLoop true limit listening ai t

/-- `other/select/selectserver.c`. -/
def selectBind (limit : Nat) (listening : δ) (ai : List (α × Answers)) (t : Descriptors δ) :
    Outcome α × Descriptors δ :=
  bindLoop false limit listening ai t

/-- The loop stops at the address. -/
def Answers.decides (tests : Bool) (a : Answers) : Bool :=
  a.socket && (tests && !a.setsockopt || a.bind)

variable {tests : Bool} {limit fd : Nat} {listening : δ} {t u : Descriptors δ}

/-- Without a free descriptor no socket is made. -/
theorem bindLoop_full (h : t.alloc limit listening = none) (ai : List (α × Answers)) :
    bindLoop tests limit listening ai t = (.unbound, t) := by
  induction ai with
  | nil => rfl
  | cons p ai ih =>
    rw [bindLoop, h, ite_self]
    exact ih

/-- The first address that decides, decides. All addresses before it gave their
descriptors back. -/
theorem bindLoop_eq (h : t.alloc limit listening = some (fd, u)) (ai : List (α × Answers)) :
    bindLoop tests limit listening ai t =
      match ai.find? fun p => p.2.decides tests with
      | none => (.unbound, t)
      | some (p, a) => (if tests ∧ a.setsockopt = false then .exited else .bound p fd, u) := by
  induction ai with
  | nil => rfl
  | cons p ai ih =>
    obtain ⟨p, a⟩ := p
    rw [bindLoop, List.find?_cons, Answers.decides]
    by_cases hsocket : a.socket = true
    · rw [if_pos hsocket, h, hsocket, Bool.true_and]
      dsimp only
      by_cases hopt : tests = true ∧ a.setsockopt = false
      · rw [if_pos hopt]
        simp [hopt]
      · rw [if_neg hopt]
        have hskip : (tests && !a.setsockopt) = false := by simpa using hopt
        rw [hskip, Bool.false_or]
        by_cases hbind : a.bind = true
        · rw [if_pos hbind, hbind]
          dsimp only
          rw [if_neg hopt]
        · rw [if_neg hbind, Bool.eq_false_iff.mpr hbind, Descriptors.close_alloc h]
          exact ih
    · rw [if_neg hsocket, Bool.eq_false_iff.mpr hsocket, Bool.false_and]
      exact ih

/-- A socket that is bound is all that the loop left open. -/
theorem alloc_of_bound {ai : List (α × Answers)} {p : α} {sockFD : Nat} {t' : Descriptors δ}
    (h : bindLoop tests limit listening ai t = (.bound p sockFD, t')) :
    t.alloc limit listening = some (sockFD, t') := by
  cases hal : t.alloc limit listening with
  | none =>
    rw [bindLoop_full hal] at h
    cases h
  | some r =>
    obtain ⟨fd, u⟩ := r
    rw [bindLoop_eq hal] at h
    split at h
    · cases h
    · split_ifs at h
      · cases h
      · cases h
        rfl

end CCodes.Stream
