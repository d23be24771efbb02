/-
CCodes.Lib.SelectLoop — servers built on one `select` loop.

    for (;;) {
      readFDs = masterFDs;
      select(fdMax + 1, &readFDs, ...);
      for (i = 0; i <= fdMax; i++)
        if (FD_ISSET(i, &readFDs)) body
    }

The inner loop walks over a COPY of the set while the body changes the set
and `fdMax`. `SelectLoop.machine` is the loop itself, one input for each
thing the environment decides: which descriptors `select` leaves in the
copy, and what the system calls of the body answer. `SelectLoop.events` is
the same server without the loop: at any time, the body runs for any
registered descriptor.

`exec_events`: as long as a body takes only its own descriptor out of the
set, every run of the loop is a run of events. So what holds of the event
machine, for every order of events, holds of the loop, and the stale copy
never reaches a body with a descriptor that is not registered.
-/
import Mathlib.Data.Finset.Basic
import CCodes.Lib.Runs

namespace CCodes.Lib

/-- A file descriptor, a C `int`. -/
abbrev Fd := Int

/-- A server on a `select` loop: its descriptor set, its `fdMax`, the
descriptors the system has open for it, and the body of the loop for a
ready descriptor, given the environment's answer `α`. -/
structure SelectLoop (σ α ω : Type) where
  masterFDs : σ → Finset Fd
  fdMax : σ → Fd
  openFDs : σ → Finset Fd
  body : σ → Fd → α → Option (ω × σ)

/-- Where the loop stands: before `select`, or at index `i` of a scan of
the copy `readFDs`. -/
inductive Phase where
  | top
  | scan (readFDs : Finset Fd) (i : Fd)

/-- What the environment decides: `select` returns and leaves `readFDs` in
the copy, or the body for the ready descriptor gets the answer `a`; `next`
passes over an index that is not in the copy, or leaves a finished scan. -/
inductive Input (α : Type) where
  | select (readFDs : Finset Fd)
  | next
  | ready (a : α)

namespace SelectLoop

variable {σ α ω : Type} (L : SelectLoop σ α ω)

/-- The loop. `select` needs every descriptor of the set to be open, and
leaves some of them in the copy. The output names the descriptor a body
ran for. -/
def machine : Machine (Phase × σ) (Input α) (Option (Fd × ω)) := fun c inp =>
  match c.1, inp with
  | .top, .select readFDs =>
      if L.masterFDs c.2 ⊆ L.openFDs c.2 ∧ readFDs ⊆ L.masterFDs c.2 then
        some (none, .scan readFDs 0, c.2)
      else none
  | .scan readFDs i, .next =>
      if i ≤ L.fdMax c.2 then
        if i ∈ readFDs then none else some (none, .scan readFDs (i + 1), c.2)
      else some (none, .top, c.2)
  | .scan readFDs i, .ready a =>
      if i ≤ L.fdMax c.2 ∧ i ∈ readFDs then
        (L.body c.2 i a).map fun p => (some (i, p.1), .scan readFDs (i + 1), p.2)
      else none
  | _, _ => none

/-- The server without the loop: any registered descriptor may be next. -/
def events : Machine σ (Fd × α) ω := fun s e =>
  if e.1 ∈ L.masterFDs s then L.body s e.1 e.2 else none

/-- The events of a run of the loop. -/
def visits (tr : List (Input α × Option (Fd × ω))) : List ((Fd × α) × ω) :=
  tr.filterMap fun
    | (.ready a, some (i, o)) => some ((i, a), o)
    | _ => none

/-- The inputs of a loop whose bodies get answers allowed by `ok`. -/
def InputOk (ok : σ → Fd × α → Prop) : Phase × σ → Input α → Prop
  | (.scan _ i, s), .ready a => ok s (i, a)
  | _, _ => True

instance {ok : σ → Fd × α → Prop} [∀ s e, Decidable (ok s e)] :
    ∀ (c : Phase × σ) (inp : Input α), Decidable (InputOk ok c inp)
  | (.scan _ i, s), .ready a => inferInstanceAs (Decidable (ok s (i, a)))
  | (.top, _), .ready _ => isTrue trivial
  | (.top, _), .select _ => isTrue trivial
  | (.top, _), .next => isTrue trivial
  | (.scan _ _, _), .select _ => isTrue trivial
  | (.scan _ _, _), .next => isTrue trivial

/-- A body takes no descriptor out of the set but its own. -/
def KeepsOthers : Prop :=
  ∀ s i a o t, L.body s i a = some (o, t) →
    ∀ j ∈ L.masterFDs s, j ≠ i → j ∈ L.masterFDs t

variable {L}

/-- What one step of the loop does. -/
theorem machine_cases {ph : Phase} {s : σ} {inp : Input α} {o : Option (Fd × ω)}
    {c : Phase × σ} (h : L.machine (ph, s) inp = some (o, c)) :
    (∃ R, ph = .top ∧ inp = .select R ∧ L.masterFDs s ⊆ L.openFDs s ∧ R ⊆ L.masterFDs s ∧
      o = none ∧ c = (.scan R 0, s)) ∨
    (∃ R i, ph = .scan R i ∧ inp = .next ∧ i ≤ L.fdMax s ∧ i ∉ R ∧
      o = none ∧ c = (.scan R (i + 1), s)) ∨
    (∃ R i, ph = .scan R i ∧ inp = .next ∧ L.fdMax s < i ∧ o = none ∧ c = (.top, s)) ∨
    (∃ R i a w t, ph = .scan R i ∧ inp = .ready a ∧ i ≤ L.fdMax s ∧ i ∈ R ∧
      L.body s i a = some (w, t) ∧ o = some (i, w) ∧ c = (.scan R (i + 1), t)) := by
  cases ph with
  | top =>
    cases inp with
    | select R =>
      simp only [machine] at h
      split at h
      · rename_i hR
        cases h
        exact .inl ⟨R, rfl, rfl, hR.1, hR.2, rfl, rfl⟩
      · cases h
    | next => cases h
    | ready a => cases h
  | scan R i =>
    cases inp with
    | select R' => cases h
    | next =>
      simp only [machine] at h
      split at h
      · rename_i hi
        split at h
        · cases h
        · rename_i hR
          cases h
          exact .inr (.inl ⟨R, i, rfl, rfl, hi, hR, rfl, rfl⟩)
      · rename_i hi
        cases h
        exact .inr (.inr (.inl ⟨R, i, rfl, rfl, Int.not_le.mp hi, rfl, rfl⟩))
    | ready a =>
      simp only [machine] at h
      split at h
      · rename_i hi
        obtain ⟨⟨w, t⟩, hb, hp⟩ := Option.map_eq_some_iff.mp h
        cases hp
        exact .inr (.inr (.inr ⟨R, i, a, w, t, rfl, rfl, hi.1, hi.2, hb, rfl, rfl⟩))
      · cases h

/-- The index of a scan is not negative. -/
def Natural : Phase × σ → Prop
  | (.top, _) => True
  | (.scan _ i, _) => 0 ≤ i

/-- The bodies of a run are for descriptors that are not negative. -/
theorem exec_natural {ok : Phase × σ → Input α → Prop} {s₀ : σ} {c : Phase × σ}
    {tr : List (Input α × Option (Fd × ω))} (h : Exec L.machine ok (.top, s₀) tr c) :
    Exec L.machine (InputOk fun _ e => 0 ≤ e.1) (.top, s₀) tr c ∧ Natural c := by
  induction h with
  | nil => exact ⟨.nil, trivial⟩
  | @snoc tr c t inp o _ _ hstep ih =>
    obtain ⟨ph, s⟩ := c
    obtain ⟨hexec, hnat⟩ := ih
    rcases machine_cases hstep with ⟨R, rfl, rfl, -, -, -, rfl⟩ |
      ⟨R, i, rfl, rfl, -, -, -, rfl⟩ | ⟨R, i, rfl, rfl, -, -, rfl⟩ |
      ⟨R, i, a, w, t, rfl, rfl, -, -, -, -, rfl⟩
    · exact ⟨.snoc hexec trivial hstep, le_refl _⟩
    · exact ⟨.snoc hexec trivial hstep, Int.add_nonneg hnat Int.one_nonneg⟩
    · exact ⟨.snoc hexec trivial hstep, trivial⟩
    · exact ⟨.snoc hexec hnat hstep, Int.add_nonneg hnat Int.one_nonneg⟩

/-- In a scan, what is left of the copy is still registered. -/
def Pending (L : SelectLoop σ α ω) : Phase × σ → Prop
  | (.top, _) => True
  | (.scan R i, s) => ∀ j ∈ R, i ≤ j → j ∈ L.masterFDs s

/-- Every run of the loop is a run of events, and what is left of the copy
is always registered. -/
theorem exec_events {ok : σ → Fd × α → Prop} {s₀ : σ} {c : Phase × σ}
    {tr : List (Input α × Option (Fd × ω))} (hkeep : L.KeepsOthers)
    (h : Exec L.machine (InputOk ok) (.top, s₀) tr c) :
    Exec L.events ok s₀ (visits tr) c.2 ∧ L.Pending c := by
  induction h with
  | nil => exact ⟨.nil, trivial⟩
  | @snoc tr c t inp o _ hok hstep ih =>
    obtain ⟨ph, s⟩ := c
    obtain ⟨hexec, hpend⟩ := ih
    simp only [visits, List.filterMap_append, List.filterMap_cons, List.filterMap_nil] at hexec ⊢
    rcases machine_cases hstep with ⟨R, rfl, rfl, -, hR, rfl, rfl⟩ |
      ⟨R, i, rfl, rfl, -, -, rfl, rfl⟩ | ⟨R, i, rfl, rfl, -, rfl, rfl⟩ |
      ⟨R, i, a, w, t, rfl, rfl, -, hmem, hbody, rfl, rfl⟩
    · exact ⟨by simpa using hexec, fun j hj _ => hR hj⟩
    · exact ⟨by simpa using hexec,
        fun j hj hle => hpend j hj (le_of_lt (Int.add_one_le_iff.mp hle))⟩
    · exact ⟨by simpa using hexec, trivial⟩
    · have hreg : i ∈ L.masterFDs s := hpend i hmem (le_refl i)
      refine ⟨.snoc hexec hok ?_, fun j hj hle => ?_⟩
      · simp only [events, if_pos hreg, hbody]
      · have hlt : i < j := Int.add_one_le_iff.mp hle
        exact hkeep s i a w t hbody j (hpend j hj hlt.le) hlt.ne'

end SelectLoop

/-- Accepting `newFD` and raising `fdMax` to it when it is larger keeps
`fdMax` a bound. -/
theorem le_fdMax_insert {fds : Finset Fd} {fdMax newFD : Fd} (h : ∀ j ∈ fds, j ≤ fdMax) :
    ∀ j ∈ insert newFD fds, j ≤ if newFD > fdMax then newFD else fdMax := by
  intro j hj
  rcases Finset.mem_insert.mp hj with rfl | hj
  · split
    · exact le_refl _
    · exact Int.not_lt.mp ‹_›
  · split
    · exact (h j hj).trans (le_of_lt ‹_›)
    · exact h j hj

end CCodes.Lib
