/-
CCodes.Lib.Heap — an explicit heap, and programs that load, store,
allocate and free in it.

A heap is a partial map from addresses to blocks of a type `β`; address 0
is NULL and never holds a block. A program is a state transformer that
FAULTS (`none`) when it touches an address that holds no block (NULL, or a
block that was freed) or a field its block has no room for. So a program
that returns has touched live blocks only.

A block is accessed through a `Field`: a getter and a setter with the law
that relates them. `Field.peek` is what a heap shows of a field, and the
`peek_*` lemmas say how each instruction changes what is shown, so a proof
about a program never opens a block.

`malloc` is told which address to return and what the new block holds
before anything is stored in it: a theorem that quantifies over both
covers every allocator. The addresses handed to `free` are kept in
`freed`, in order, so that "freed once" and "freed last" can be said.

A loop takes a bound on the tests of its condition. `Passes` counts what it
does, and `Passes.whileLoop_eq` says from the count which bounds suffice.
-/
import Mathlib.Logic.Basic

namespace CCodes.Lib

/-- An address; 0 is NULL. -/
abbrev Addr := Nat

/-- A heap of blocks `β`, with the log of the addresses freed so far. -/
structure Heap (β : Type) where
  cell : Addr → Option β
  freed : List Addr
  null_dead : cell 0 = none

/-- A field of the blocks `β`; `get` is `none` on a block without it. -/
structure Field (β γ : Type) where
  get : β → Option γ
  set : γ → β → β
  get_set : ∀ v b, get (set v b) = (get b).map fun _ => v

variable {β γ δ : Type}

namespace Heap

/-- The heap with nothing in it. -/
def empty : Heap β := ⟨fun _ => none, [], rfl⟩

/-- `a` holds a block. -/
def Live (h : Heap β) (a : Addr) : Prop := (h.cell a).isSome

/-- The heap after a block `b` was allocated at `a`. -/
def put (h : Heap β) (a : Addr) (b : β) : Heap β :=
  ⟨fun x => if x = a ∧ x ≠ 0 then some b else h.cell x, h.freed, by simp [h.null_dead]⟩

/-- The heap after `v` was stored in field `f` of the block at `a`. -/
def store (h : Heap β) (f : Field β γ) (a : Addr) (v : γ) : Heap β :=
  ⟨fun x => if x = a then (h.cell x).map (f.set v) else h.cell x, h.freed,
    by simp [h.null_dead]⟩

/-- The heap after the block at `a` was given back. -/
def release (h : Heap β) (a : Addr) : Heap β :=
  ⟨fun x => if x = a then none else h.cell x, h.freed ++ [a], by simp [h.null_dead]⟩

variable {h : Heap β} {f : Field β γ} {a x : Addr} {b : β} {v : γ}

theorem cell_put (ha : a ≠ 0) : (h.put a b).cell x = if x = a then some b else h.cell x := by
  by_cases hx : x = a <;> simp [put, hx, ha]

theorem cell_store_self (hb : h.cell a = some b) : (h.store f a v).cell a = some (f.set v b) := by
  simp [store, hb]

theorem cell_store_ne (hx : x ≠ a) : (h.store f a v).cell x = h.cell x := by
  simp [store, hx]

theorem cell_release : (h.release a).cell x = if x = a then none else h.cell x := rfl

/-- A store is a new block in place of the old one. -/
theorem store_eq_put (hb : h.cell a = some b) : h.store f a v = h.put a (f.set v b) := by
  have ha : a ≠ 0 := by
    rintro rfl
    rw [h.null_dead] at hb
    cases hb
  rw [store, put, Heap.mk.injEq]
  refine ⟨funext fun x => ?_, rfl⟩
  by_cases hx : x = a <;> simp [hx, ha, hb]

theorem put_put (b' : β) : (h.put a b).put a b' = h.put a b' := by
  rw [put, put, put, Heap.mk.injEq]
  refine ⟨funext fun x => ?_, rfl⟩
  by_cases hx : x = a ∧ x ≠ 0
  · rw [if_pos hx, if_pos hx]
  · rw [if_neg hx, if_neg hx]
    exact if_neg hx

theorem put_self (hb : h.cell a = some b) : h.put a b = h := by
  have hcell : ∀ x, (h.put a b).cell x = h.cell x := by
    intro x
    by_cases hx : x = a ∧ x ≠ 0
    · rw [put]
      exact (if_pos hx).trans (by rw [hx.1, hb])
    · rw [put]
      exact if_neg hx
  cases h
  simp only [put, Heap.mk.injEq] at hcell ⊢
  exact ⟨funext hcell, trivial⟩

/-- A block in place of another makes no address live or dead. -/
theorem live_put_of_cell {b' : β} (hb : h.cell a = some b) : (h.put a b').Live x ↔ h.Live x := by
  have ha : a ≠ 0 := by
    rintro rfl
    rw [h.null_dead] at hb
    cases hb
  rw [Live, Live, cell_put ha]
  split
  · subst x
    simp [hb]
  · rfl

@[simp] theorem freed_release : (h.release a).freed = h.freed ++ [a] := rfl

end Heap

/-! ## What a heap shows of a field -/

namespace Field

/-- Field `f` of the block at `a`, if `a` is live and has it. -/
def peek (f : Field β γ) (h : Heap β) (a : Addr) : Option γ := (h.cell a).bind f.get

/-- A store into `g` leaves `f` as it was. -/
class Apart (f : Field β γ) (g : Field β δ) : Prop where
  get_set : ∀ v b, f.get (g.set v b) = f.get b

variable {h : Heap β} {f : Field β γ} {g : Field β δ} {a x : Addr} {b : β} {v w : γ} {u : δ}

theorem peek_put (ha : a ≠ 0) : f.peek (h.put a b) x = if x = a then f.get b else f.peek h x := by
  by_cases hx : x = a <;> simp [Field.peek, Heap.cell_put ha, hx]

theorem peek_store : f.peek (h.store f a v) x =
    if x = a then (f.peek h x).map (fun _ => v) else f.peek h x := by
  by_cases hx : x = a
  · subst hx
    cases hc : h.cell x with
    | none => simp [Field.peek, Heap.store, hc]
    | some b => simp [Field.peek, Heap.store, hc, f.get_set]
  · simp [Field.peek, Heap.store, hx]

/-- A store into a field that is there. -/
theorem peek_store_of (hv : f.peek h a = some w) :
    f.peek (h.store f a v) x = if x = a then some v else f.peek h x := by
  rw [peek_store]
  split
  · subst x
    rw [hv]
    rfl
  · rfl

/-- A second value goes where the first one was. -/
theorem peek_store_again {o : Addr → Option γ}
    (hw : ∀ y, f.peek h y = if y = a then some w else o y) :
    f.peek (h.store f a v) x = if x = a then some v else o x := by
  rw [peek_store_of (by rw [hw, if_pos rfl]), hw]
  split <;> rfl

/-- A store leaves what the field shows at another address `c`. -/
theorem peek_store_beside {c : Addr} {w' : γ} {o : Addr → Option γ} (hac : a ≠ c)
    (hv : f.peek h a = some w) (hw : ∀ y, f.peek h y = if y = c then some w' else o y) :
    f.peek (h.store f a v) x = if x = c then some w' else if x = a then some v else o x := by
  rw [peek_store_of hv, hw, ite_ite_comm]
  exact fun hxa => hxa ▸ hac

@[simp] theorem peek_store_apart [hfg : f.Apart g] :
    f.peek (h.store g a u) x = f.peek h x := by
  by_cases hx : x = a
  · subst hx
    cases hc : h.cell x with
    | none => simp [Field.peek, Heap.store, hc]
    | some b => simp [Field.peek, Heap.store, hc, hfg.get_set u b]
  · simp [Field.peek, Heap.store, hx]

theorem peek_release : f.peek (h.release a) x = if x = a then none else f.peek h x := by
  by_cases hx : x = a <;> simp [Field.peek, Heap.cell_release, hx]

/-- A block that shows a field is live. -/
theorem live_of_peek (hv : f.peek h a = some v) : ∃ b, h.cell a = some b := by
  obtain ⟨b, hb, -⟩ := Option.bind_eq_some_iff.mp hv
  exact ⟨b, hb⟩

theorem ne_of_peek (hv : f.peek h a = some v) (hx : h.cell x = none) : a ≠ x := by
  rintro rfl
  simp [Field.peek, hx] at hv

end Field

/-! ## Programs -/

/-- A program over a heap of blocks `β`; `none` is a fault. -/
abbrev Prog (β : Type) := StateT (Heap β) Option

/-- The value of field `f` of the block at `a`. -/
def load (f : Field β γ) (a : Addr) : Prog β γ := fun h =>
  (f.peek h a).map fun v => (v, h)

/-- The value of a field that is `none` until something is stored in it;
reading it before that is a fault. -/
def loadInit (f : Field β (Option γ)) (a : Addr) : Prog β γ := fun h =>
  (f.peek h a).bind fun v => v.map fun v => (v, h)

/-- Store `v` in field `f` of the block at `a`. -/
def store (f : Field β γ) (a : Addr) (v : γ) : Prog β Unit := fun h =>
  (f.peek h a).map fun _ => ((), h.store f a v)

/-- What `malloc` may return: an address that is neither NULL nor live. -/
def Fresh (h : Heap β) (a : Addr) : Prop := a ≠ 0 ∧ h.cell a = none

instance (h : Heap β) (a : Addr) : Decidable (Fresh h a) :=
  inferInstanceAs (Decidable (_ ∧ h.cell a = none))

/-- `malloc` returning `a`, whose block holds `junk`. -/
def malloc (a : Addr) (junk : β) : Prog β Addr := fun h =>
  if a ≠ 0 ∧ (h.cell a).isNone then some (a, h.put a junk) else none

/-- `free(a)`. -/
def free (a : Addr) : Prog β Unit := fun h =>
  (h.cell a).map fun _ => ((), h.release a)

/-- `while (cond) body`, giving up (`none`) after `fuel` tests of `cond`. -/
def whileLoop (cond : Prog β Bool) (body : Prog β Unit) : Nat → Prog β Unit
  | 0 => fun _ => none
  | fuel + 1 => do
      if ← cond then
        body
        whileLoop cond body fuel

/-- `while (cond) body` goes from `h` to `h'` in exactly `n` passes through
its body. -/
inductive Passes (cond : Prog β Bool) (body : Prog β Unit) : Nat → Heap β → Heap β → Prop where
  | done {h : Heap β} : cond h = some (false, h) → Passes cond body 0 h h
  | pass {n : Nat} {h h₁ h' : Heap β} : cond h = some (true, h) → body h = some ((), h₁) →
      Passes cond body n h₁ h' → Passes cond body (n + 1) h h'

/-! One rule per instruction: what it returns, and the heap after it.
`bind_run` then runs the rest of the program from that heap. -/

section Rules

variable {h : Heap β} {f : Field β γ} {a : Addr} {b : β} {v w : γ}

theorem pure_run (v : γ) : (pure v : Prog β γ) h = some (v, h) := rfl

theorem load_run (hv : f.peek h a = some v) : load f a h = some (v, h) := by
  simp [load, hv]

theorem loadInit_run {f : Field β (Option γ)} (hv : f.peek h a = some (some v)) :
    loadInit f a h = some (v, h) := by
  simp [loadInit, hv]

theorem store_run (hv : f.peek h a = some v) : store f a w h = some ((), h.store f a w) := by
  simp [store, hv]

theorem malloc_run {junk : β} (ha : Fresh h a) : malloc a junk h = some (a, h.put a junk) :=
  if_pos ⟨ha.1, by simp [ha.2]⟩

theorem free_run (hb : h.cell a = some b) : free a h = some ((), h.release a) := by
  simp [free, hb]

theorem bind_run {p : Prog β γ} {k : γ → Prog β δ} {h' : Heap β} (hp : p h = some (v, h')) :
    (p >>= k) h = k v h' := by
  show (p h).bind _ = _
  rw [hp]
  rfl

theorem whileLoop_done {cond : Prog β Bool} {body : Prog β Unit} {n : Nat}
    (hc : cond h = some (false, h)) : whileLoop cond body (n + 1) h = some ((), h) := by
  rw [whileLoop, bind_run hc]
  rfl

theorem whileLoop_step {cond : Prog β Bool} {body : Prog β Unit} {n : Nat} {h' : Heap β}
    (hc : cond h = some (true, h)) (hb : body h = some ((), h')) :
    whileLoop cond body (n + 1) h = whileLoop cond body n h' := by
  rw [whileLoop, bind_run hc, if_pos rfl, bind_run hb]

theorem bind_fault {p : Prog β γ} {k : γ → Prog β δ} (hp : p h = none) : (p >>= k) h = none := by
  show (p h).bind _ = _
  rw [hp]
  rfl

/-- A loop of `n` passes tests its condition once more than that: it is cut
short by a smaller bound, and ends with any other. -/
theorem Passes.whileLoop_eq {cond : Prog β Bool} {body : Prog β Unit} {n : Nat} {h' : Heap β}
    (hp : Passes cond body n h h') (fuel : Nat) :
    whileLoop cond body fuel h = if n < fuel then some ((), h') else none := by
  induction hp generalizing fuel with
  | done hc =>
    cases fuel with
    | zero => rfl
    | succ fuel => simp [whileLoop_done hc]
  | pass hc hb _ ih =>
    cases fuel with
    | zero => rfl
    | succ fuel => simp [whileLoop_step hc hb, ih]

end Rules

end CCodes.Lib
