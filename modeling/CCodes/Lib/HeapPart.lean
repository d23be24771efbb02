/-
CCodes.Lib.HeapPart — programs over some of the blocks of a heap.

A program that knows blocks `β` only can run in a heap that holds other
blocks `γ` as well, when the `β` are some of the `γ` (`Part`). What it sees of
the heap is `view`; `lift` runs it there and `splice`s what it leaves back in.
So code that is shared by several data structures is modelled once, over its
own blocks, and what is proved of it there is carried over: `lift_run` says
what a lifted program does, `cell_splice_of_view` that the blocks it does not
touch stay as they were, and `view_splice` that it left in the large heap what it left
in its own.
-/
import CCodes.Lib.Heap

namespace CCodes.Lib

/-- The blocks `β` as some of the blocks `γ`. -/
structure Part (β γ : Type) where
  put : β → γ
  get : γ → Option β
  get_put : ∀ b, get (put b) = some b
  put_get : ∀ c b, get c = some b → put b = c

namespace Part

variable {β γ δ : Type} (P : Part β γ)

/-- The blocks of the part. -/
def view (h : Heap γ) : Heap β :=
  ⟨fun x => (h.cell x).bind P.get, h.freed, by rw [h.null_dead, Option.bind_none]⟩

/-- The heap `h` with its blocks of the part replaced by those of `h'`. -/
def splice (h : Heap γ) (h' : Heap β) : Heap γ where
  cell x :=
    match h'.cell x with
    | some b => some (P.put b)
    | none => if ((P.view h).cell x).isSome then none else h.cell x
  freed := h'.freed
  null_dead := by simp [h'.null_dead, h.null_dead]

/-- A program over the part, in the whole heap. -/
def lift (p : Prog β δ) : Prog γ δ := fun h =>
  (p (P.view h)).map fun r => (r.1, P.splice h r.2)

variable {P} {h : Heap γ} {h' : Heap β} {a x : Addr} {b : β}

theorem cell_view : (P.view h).cell x = (h.cell x).bind P.get := rfl

theorem view_of_cell {c : γ} (hc : h.cell a = some c) : (P.view h).cell a = P.get c := by
  rw [cell_view, hc, Option.bind_some]

theorem cell_of_view (hb : (P.view h).cell a = some b) : h.cell a = some (P.put b) := by
  obtain ⟨c, hc, hget⟩ := Option.bind_eq_some_iff.mp hb
  rw [hc, P.put_get c b hget]

theorem fresh_view (ha : Fresh h a) : Fresh (P.view h) a :=
  ⟨ha.1, by rw [cell_view, ha.2, Option.bind_none]⟩

/-- A block of the part after the program. -/
theorem cell_splice (hb : h'.cell a = some b) : (P.splice h h').cell a = some (P.put b) := by
  simp only [splice, hb]

/-- Where the program left no block. -/
theorem cell_splice_none (hb : h'.cell x = none) :
    (P.splice h h').cell x = if ((P.view h).cell x).isSome then none else h.cell x := by
  simp only [splice, hb]

/-- What the program did not touch is as it was. -/
theorem cell_splice_of_view (hx : h'.cell x = (P.view h).cell x) :
    (P.splice h h').cell x = h.cell x := by
  cases hv : (P.view h).cell x with
  | some b => rw [cell_splice (hx.trans hv), cell_of_view hv]
  | none =>
    rw [hv] at hx
    simp [splice, hx, hv]

/-- The whole heap holds what the program left. -/
theorem view_splice : P.view (P.splice h h') = h' := by
  have hcell : ∀ x, (P.view (P.splice h h')).cell x = h'.cell x := by
    intro x
    cases hb : h'.cell x with
    | some b => rw [view_of_cell (cell_splice hb), P.get_put]
    | none =>
      cases hv : (P.view h).cell x with
      | some b =>
        rw [cell_view, cell_splice_none hb, hv]
        rfl
      | none =>
        rw [cell_view, cell_splice_none hb, hv]
        exact hv
  have hfun : (P.view (P.splice h h')).cell = h'.cell := funext hcell
  have hfreed : (P.view (P.splice h h')).freed = h'.freed := rfl
  cases h'
  simp only [view, Heap.mk.injEq] at hfun hfreed ⊢
  exact ⟨hfun, hfreed⟩

theorem lift_run {p : Prog β δ} {v : δ} (hp : p (P.view h) = some (v, h')) :
    P.lift p h = some (v, P.splice h h') := by
  rw [lift, hp, Option.map_some]

/-- A program that changes nothing in the part changes nothing. -/
theorem lift_run_same {p : Prog β δ} {v : δ} (hp : p (P.view h) = some (v, P.view h)) :
    P.lift p h = some (v, h) := by
  have hsame : P.splice h (P.view h) = h := by
    have hcell : (P.splice h (P.view h)).cell = h.cell := funext fun x => cell_splice_of_view rfl
    have hfreed : (P.splice h (P.view h)).freed = h.freed := rfl
    cases h
    simp only [splice, Heap.mk.injEq] at hcell hfreed ⊢
    exact ⟨hcell, hfreed⟩
  rw [lift_run hp, hsame]

end Part

end CCodes.Lib
