/-
CCodes.Dsa.CirDqueu — the circular double-ended queue of
`other/dsa/cir_dqueu_ll.c`, over an explicit heap.

A deque is a header block and one block per element, each with two links.
`createDqueu` allocates `offsetof(struct dqueu, value)` bytes for the
header, so the header has NO `value` field: a block here has `value :
Option Int32`, `none` when the block ends before the field, and touching
an absent field is a fault.

`malloc` takes the address it returns and the old contents of the block
as extra arguments (see `CCodes.Lib.Heap`), so `dqueuPush` takes them too.
-/
import Mathlib.Logic.Function.Basic
import CCodes.Lib.Runs
import CCodes.Lib.Heap

namespace CCodes.CirDqueu

open CCodes.Lib

/-- `DQUEU_FRONT` and `DQUEU_BACK`. -/
inductive Direction where
  | front
  | back
  deriving DecidableEq, Repr

/-- `!direction`. -/
def Direction.not : Direction → Direction
  | .front => .back
  | .back => .front

/-- `DQUEU_EMPTY`. -/
def dqueuEmpty : Int32 := -1

/-- `struct dqueu`; `value` is `none` in a block that has no room for it. -/
structure Dqueu where
  next : Direction → Addr
  value : Option Int32

namespace Dqueu

/-- `e->next[direction]`. -/
def nextOf (direction : Direction) : Field Dqueu Addr where
  get e := some (e.next direction)
  set p e := { e with next := Function.update e.next direction p }
  get_set p e := by simp

/-- `e->value`, a field the header does not have. -/
def valueOf : Field Dqueu Int32 where
  get e := e.value
  set v e := { e with value := e.value.map fun _ => v }
  get_set _ _ := rfl

instance : (nextOf .front).Apart (nextOf .back) := ⟨fun _ _ => rfl⟩
instance : (nextOf .back).Apart (nextOf .front) := ⟨fun _ _ => rfl⟩
instance (direction : Direction) : (nextOf direction).Apart (nextOf direction.not) := by
  cases direction <;> exact ⟨fun _ _ => rfl⟩
instance (direction : Direction) : (nextOf direction.not).Apart (nextOf direction) := by
  cases direction <;> exact ⟨fun _ _ => rfl⟩
instance (direction : Direction) : (nextOf direction).Apart valueOf := ⟨fun _ _ => rfl⟩
instance (direction : Direction) : valueOf.Apart (nextOf direction) := ⟨fun _ _ => rfl⟩

end Dqueu

open Dqueu

/-! ## The functions -/

/-- `createDqueu`; `junk` is what the two links hold before they are set. -/
def createDqueu (d : Addr) (junk : Direction → Addr) : Prog Dqueu Addr := do
  let d ← malloc d { next := junk, value := none }
  if d ≠ 0 then
    store (nextOf .back) d d
    store (nextOf .front) d d
  pure d

/-- `dqueuPush`; the new block is at `e` and holds `junk` and `junkValue`. -/
def dqueuPush (d : Addr) (direction : Direction) (value : Int32)
    (e : Addr) (junk : Direction → Addr) (junkValue : Int32) : Prog Dqueu Unit := do
  let e ← malloc e { next := junk, value := some junkValue }
  store (nextOf direction) e (← load (nextOf direction) d)
  store (nextOf direction.not) e d
  store valueOf e value
  store (nextOf direction) d e
  store (nextOf direction.not) (← load (nextOf direction) e) e

/-- `dqueuPop`. -/
def dqueuPop (d : Addr) (direction : Direction) : Prog Dqueu Int32 := do
  let e ← load (nextOf direction) d
  if d = e then
    pure dqueuEmpty
  else
    store (nextOf direction) d (← load (nextOf direction) e)
    store (nextOf direction.not) (← load (nextOf direction) e) d
    let ret ← load valueOf e
    free e
    pure ret

/-- `dqueuIsEmpty`. -/
def dqueuIsEmpty (d : Addr) : Prog Dqueu Bool := do
  pure ((← load (nextOf .front) d) == d)

/-- `destroyDqueu`, with a bound on the tests of its loop. -/
def destroyDqueu (fuel : Nat) (d : Addr) : Prog Dqueu Unit := do
  whileLoop (do pure !(← dqueuIsEmpty d)) (do let _ ← dqueuPop d .front) fuel
  free d

/-! ## Calls -/

/-- A call of the interface, with what `malloc` does in it. -/
inductive Call where
  | push (direction : Direction) (value : Int32)
      (e : Addr) (junk : Direction → Addr) (junkValue : Int32)
  | pop (direction : Direction)
  | isEmpty

/-- What a call returns. -/
inductive Ret where
  | void
  | value (v : Int32)
  | flag (b : Bool)
  deriving DecidableEq, Repr

/-- The deque at `d` as a machine driven by calls. -/
def step (d : Addr) : Machine (Heap Dqueu) Call Ret := fun h c =>
  match c with
  | .push direction value e junk junkValue =>
      (dqueuPush d direction value e junk junkValue h).map fun p => (.void, p.2)
  | .pop direction => (dqueuPop d direction h).map fun p => (.value p.1, p.2)
  | .isEmpty => (dqueuIsEmpty d h).map fun p => (.flag p.1, p.2)

/-- `malloc` returns an address that is not live. -/
def CallOk (h : Heap Dqueu) : Call → Prop
  | .push _ _ e _ _ => Fresh h e
  | _ => True

instance (h : Heap Dqueu) : DecidablePred (CallOk h)
  | .push _ _ e _ _ => inferInstanceAs (Decidable (Fresh h e))
  | .pop _ => .isTrue trivial
  | .isEmpty => .isTrue trivial

/-! ## The reference -/

/-- A double-ended sequence, front first, answering the same calls. -/
def reference : Spec (List Int32) Call Ret := fun l c =>
  match c with
  | .push .front v _ _ _ => (.void, v :: l)
  | .push .back v _ _ _ => (.void, l ++ [v])
  | .pop .front =>
      match l with
      | [] => (.value dqueuEmpty, [])
      | v :: l => (.value v, l)
  | .pop .back =>
      match l.getLast? with
      | none => (.value dqueuEmpty, [])
      | some v => (.value v, l.dropLast)
  | .isEmpty => (.flag l.isEmpty, l)

end CCodes.CirDqueu
