/-
CCodes.Dsa.Queues — the two FIFO queues of `other/dsa`, over an explicit
heap: `queue_ll.c` (a chain ended by NULL) and `cir_q_ll.c` (a ring).

Both files declare the same two structs, a queue of two pointers and an
element of a value and a link, and name the pointers differently (`head`
and `tail`, `front` and `rear`). So the blocks and their fields are
defined once, and each program names the two pointers its own way.

`malloc` takes the address it returns and what the new block holds as
extra arguments (see `CCodes.Lib.Heap`), so `createQueue` and `enq` take
them too.
-/
import CCodes.Lib.Runs
import CCodes.Lib.Heap

namespace CCodes

open CCodes.Lib

namespace Queues

/-- A block: a `struct queue` or a `struct elt`. -/
inductive Block where
  | queue (first last : Addr)
  | elt (value : Int32) (next : Addr)
  deriving DecidableEq

namespace Block

/-- The first pointer of a `struct queue`. -/
def firstOf : Field Block Addr where
  get
    | queue p _ => some p
    | elt _ _ => none
  set p
    | queue _ r => queue p r
    | b => b
  get_set _ b := by cases b <;> rfl

/-- The second pointer of a `struct queue`. -/
def lastOf : Field Block Addr where
  get
    | queue _ r => some r
    | elt _ _ => none
  set r
    | queue p _ => queue p r
    | b => b
  get_set _ b := by cases b <;> rfl

/-- `e->value`. -/
def valueOf : Field Block Int32 where
  get
    | elt v _ => some v
    | queue _ _ => none
  set v
    | elt _ n => elt v n
    | b => b
  get_set _ b := by cases b <;> rfl

/-- `e->next`. -/
def nextOf : Field Block Addr where
  get
    | elt _ n => some n
    | queue _ _ => none
  set n
    | elt v _ => elt v n
    | b => b
  get_set _ b := by cases b <;> rfl

@[simp] theorem valueOf_elt (v : Int32) (n : Addr) : valueOf.get (elt v n) = some v := rfl
@[simp] theorem nextOf_elt (v : Int32) (n : Addr) : nextOf.get (elt v n) = some n := rfl

instance : firstOf.Apart lastOf := ⟨fun _ b => by cases b <;> rfl⟩
instance : firstOf.Apart valueOf := ⟨fun _ b => by cases b <;> rfl⟩
instance : firstOf.Apart nextOf := ⟨fun _ b => by cases b <;> rfl⟩
instance : lastOf.Apart firstOf := ⟨fun _ b => by cases b <;> rfl⟩
instance : lastOf.Apart valueOf := ⟨fun _ b => by cases b <;> rfl⟩
instance : lastOf.Apart nextOf := ⟨fun _ b => by cases b <;> rfl⟩
instance : valueOf.Apart firstOf := ⟨fun _ b => by cases b <;> rfl⟩
instance : valueOf.Apart lastOf := ⟨fun _ b => by cases b <;> rfl⟩
instance : valueOf.Apart nextOf := ⟨fun _ b => by cases b <;> rfl⟩
instance : nextOf.Apart firstOf := ⟨fun _ b => by cases b <;> rfl⟩
instance : nextOf.Apart lastOf := ⟨fun _ b => by cases b <;> rfl⟩
instance : nextOf.Apart valueOf := ⟨fun _ b => by cases b <;> rfl⟩

end Block

/-! Both `enq` functions begin alike: they allocate an element and store
the value in it. -/

open Block

/-- A new element at `e` in which the value has been stored. -/
def newElt (h : Heap Block) (e : Addr) (v jv : Int32) (jn : Addr) : Heap Block :=
  (h.put e (.elt jv jn)).store valueOf e v

section NewElt

variable {h : Heap Block} {q e x : Addr} {v jv : Int32} {jn : Addr} (he : Fresh h e)
include he

/-- Running the two instructions. -/
theorem newElt_run {α : Type} (k : Addr → Prog Block α) :
    (do let e ← malloc e (.elt jv jn); store valueOf e v; k e : Prog Block α) h =
      k e (newElt h e v jv jn) := by
  have hv : valueOf.peek (h.put e (.elt jv jn)) e = some jv := by
    rw [Field.peek_put he.1, if_pos rfl]; rfl
  rw [bind_run (malloc_run he), bind_run (store_run hv)]
  rfl

theorem first_newElt (hq : q ≠ e) :
    firstOf.peek (newElt h e v jv jn) q = firstOf.peek h q := by
  simp [newElt, Field.peek_put he.1, hq]

theorem last_newElt (hq : q ≠ e) : lastOf.peek (newElt h e v jv jn) q = lastOf.peek h q := by
  simp [newElt, Field.peek_put he.1, hq]

theorem value_newElt :
    valueOf.peek (newElt h e v jv jn) x = if x = e then some v else valueOf.peek h x :=
  Field.peek_store_again fun _ => Field.peek_put he.1

theorem next_newElt :
    nextOf.peek (newElt h e v jv jn) x = if x = e then some jn else nextOf.peek h x := by
  by_cases hx : x = e <;> simp [newElt, Field.peek_put he.1, hx]

theorem cell_newElt (hx : x ≠ e) : (newElt h e v jv jn).cell x = h.cell x := by
  rw [newElt, Heap.cell_store_ne hx, Heap.cell_put he.1, if_neg hx]

end NewElt

end Queues

/-! ## `queue_ll.c` -/

namespace QueueLl

open Queues Block

/-- `q->head`. -/
abbrev head := firstOf

/-- `q->tail`. -/
abbrev tail := lastOf

/-- `createQueue`; the new block is at `q` and holds `junkHead`, `junkTail`. -/
def createQueue (q junkHead junkTail : Addr) : Prog Block Addr := do
  let q ← malloc q (.queue junkHead junkTail)
  store tail q 0
  store head q 0
  pure q

/-- `enq`. -/
def enq (q : Addr) (value : Int32) (e : Addr) (junkValue : Int32) (junkNext : Addr) :
    Prog Block Unit := do
  let e ← malloc e (.elt junkValue junkNext)
  store valueOf e value
  store nextOf e 0
  if (← load head q) = 0 then
    store head q e
  else
    store nextOf (← load tail q) e
  store tail q e

/-- `queueEmpty`. -/
def queueEmpty (q : Addr) : Prog Block Bool := do
  pure ((← load head q) == 0)

/-- `deq`. -/
def deq (q : Addr) : Prog Block Int32 := do
  let ret ← load valueOf (← load head q)
  let e ← load head q
  store head q (← load nextOf e)
  free e
  pure ret

/-- `queueDestroy`, with a bound on the tests of its loop. -/
def queueDestroy (fuel : Nat) (q : Addr) : Prog Block Unit := do
  whileLoop (do pure !(← queueEmpty q)) (do let _ ← deq q) fuel
  free q

/-- A call of the interface, with what `malloc` does in it. -/
inductive Call where
  | enq (value : Int32) (e : Addr) (junkValue : Int32) (junkNext : Addr)
  | deq
  | isEmpty

/-- What a call returns. -/
inductive Ret where
  | void
  | value (v : Int32)
  | flag (b : Bool)
  deriving DecidableEq, Repr

/-- The queue at `q` as a machine driven by calls. -/
def step (q : Addr) : Machine (Heap Block) Call Ret := fun h c =>
  match c with
  | .enq v e jv jn => (enq q v e jv jn h).map fun p => (.void, p.2)
  | .deq => (deq q h).map fun p => (.value p.1, p.2)
  | .isEmpty => (queueEmpty q h).map fun p => (.flag p.1, p.2)

/-- `malloc` returns an address that is not live, and `deq` is called only
when `queueEmpty` has answered false. -/
def CallOk (q : Addr) (h : Heap Block) : Call → Prop
  | .enq _ e _ _ => Fresh h e
  | .deq => queueEmpty q h = some (false, h)
  | .isEmpty => True

/-- `queueEmpty` only looks. -/
theorem queueEmpty_false_iff (q : Addr) (h : Heap Block) :
    (head.peek h q).any (· ≠ 0) = true ↔ queueEmpty q h = some (false, h) := by
  cases hp : head.peek h q with
  | none => simp [queueEmpty, bind_fault, load, hp]
  | some p => simp [queueEmpty, bind_run (load_run hp), pure_run]

instance (q : Addr) (h : Heap Block) : DecidablePred (CallOk q h)
  | .enq _ e _ _ => inferInstanceAs (Decidable (Fresh h e))
  | .deq => decidable_of_iff _ (queueEmpty_false_iff q h)
  | .isEmpty => .isTrue trivial

/-- A FIFO queue, oldest value first, answering the same calls. -/
def reference : Spec (List Int32) Call Ret := fun l c =>
  match c with
  | .enq v _ _ _ => (.void, l ++ [v])
  | .deq => (.value (l.headD 0), l.tail)
  | .isEmpty => (.flag l.isEmpty, l)

/-- The values of the `enq` calls. -/
def enqueued (cs : List Call) : List Int32 :=
  cs.filterMap fun
    | .enq v _ _ _ => some v
    | _ => none

/-- The values the `deq` calls returned. -/
def dequeued (rets : List Ret) : List Int32 :=
  rets.filterMap fun
    | .value v => some v
    | _ => none

end QueueLl

/-! ## `cir_q_ll.c` -/

namespace CirQ

open Queues Block

/-- `QUEUE_EMPTY`. -/
def queueEmpty : Int32 := -1

/-- `QUEUE_NULL`. -/
def queueNull : Addr := 0

/-- `q->front`. -/
abbrev front := firstOf

/-- `q->rear`. -/
abbrev rear := lastOf

/-- `enq`. -/
def enq (q : Addr) (value : Int32) (e : Addr) (junkValue : Int32) (junkNext : Addr) :
    Prog Block Unit := do
  let e ← malloc e (.elt junkValue junkNext)
  store valueOf e value
  if (← load front q) = 0 then
    store front q e
  else
    store nextOf (← load rear q) e
  store rear q e
  store nextOf (← load rear q) (← load front q)

/-- `deq`. -/
def deq (q : Addr) : Prog Block Int32 := do
  if (← load front q) = 0 then
    pure queueEmpty
  else
    let e ← load front q
    let ret ← load valueOf e
    if (← load front q) = (← load rear q) then
      store front q queueNull
      store rear q queueNull
    else
      store front q (← load nextOf (← load front q))
      store nextOf (← load rear q) (← load front q)
    free e
    pure ret

/-- A call of the interface, with what `malloc` does in it. -/
inductive Call where
  | enq (value : Int32) (e : Addr) (junkValue : Int32) (junkNext : Addr)
  | deq

/-- What a call returns. -/
inductive Ret where
  | void
  | value (v : Int32)
  deriving DecidableEq, Repr

/-- The queue at `q` as a machine driven by calls. -/
def step (q : Addr) : Machine (Heap Block) Call Ret := fun h c =>
  match c with
  | .enq v e jv jn => (enq q v e jv jn h).map fun p => (.void, p.2)
  | .deq => (deq q h).map fun p => (.value p.1, p.2)

/-- `malloc` returns an address that is not live. -/
def CallOk (h : Heap Block) : Call → Prop
  | .enq _ e _ _ => Fresh h e
  | .deq => True

instance (h : Heap Block) : DecidablePred (CallOk h)
  | .enq _ e _ _ => inferInstanceAs (Decidable (Fresh h e))
  | .deq => .isTrue trivial

/-- A FIFO queue, oldest value first, answering the same calls. -/
def reference : Spec (List Int32) Call Ret := fun l c =>
  match c with
  | .enq v _ _ _ => (.void, l ++ [v])
  | .deq =>
      match l with
      | [] => (.value queueEmpty, [])
      | v :: l => (.value v, l)

end CirQ

end CCodes
