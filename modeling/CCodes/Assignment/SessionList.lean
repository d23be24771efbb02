/-
CCodes.Assignment.SessionList — the list of sessions of
`server_store_ll.c`, over an explicit heap.

A `struct SS_Node` has a `data` that nothing was stored in until `ss_push`
did (`none`; reading it then is a fault), and a `next`. The list ends with
the node of `ss_init`, whose `next` is NULL and whose `data` is never
stored to. The records that the nodes point to come from `create_ss` and are
never given back, so their addresses and those of the nodes share the heap.

`ss_push` and `ss_delete` get the address of the variable that holds the
head; here they are given its value and give back the new one. The loops
take a bound on the tests of their condition.
-/
import CCodes.Lib.Runs
import CCodes.Lib.Heap
import CCodes.Assignment.Records

namespace CCodes.Assignment.SessionList

open CCodes.Lib

/-- A block: a `struct SS_Node` or a `struct SS_Data`. -/
inductive Block where
  | node (data : Option Addr) (next : Addr)
  | record (data : SsData)

namespace Block

/-- `e->data`. -/
def dataOf : Field Block (Option Addr) where
  get
    | node d _ => some d
    | record _ => none
  set d
    | node _ n => node d n
    | b => b
  get_set _ b := by cases b <;> rfl

/-- `e->next`. -/
def nextOf : Field Block Addr where
  get
    | node _ n => some n
    | record _ => none
  set n
    | node d _ => node d n
    | b => b
  get_set _ b := by cases b <;> rfl

/-- `data->fd`. -/
def fdOf : Field Block Fd where
  get
    | record s => some s.fd
    | node _ _ => none
  set fd
    | record s => record { s with fd := fd }
    | b => b
  get_set _ b := by cases b <;> rfl

instance : dataOf.Apart nextOf := ⟨fun _ b => by cases b <;> rfl⟩
instance : nextOf.Apart dataOf := ⟨fun _ b => by cases b <;> rfl⟩

end Block

open Block

/-- `ss_init`; the new block is at `e`. -/
def ssInit (e junkNext : Addr) : Prog Block Addr := do
  let serverStore ← malloc e (.node none junkNext)
  store nextOf serverStore 0
  pure serverStore

/-- `ss_push`, with the value of `*ll` before and after. -/
def ssPush (ll data e junkNext : Addr) : Prog Block Addr := do
  let e ← malloc e (.node none junkNext)
  store dataOf e (some data)
  store nextOf e ll
  pure e

/-- The loop of `ss_search` from `temp` on: what it returns, and `*data`. -/
def ssSearchLoop (fd : Fd) (data : Addr) : Nat → Addr → Prog Block (Int32 × Addr)
  | 0, _ => fun _ => none
  | fuel + 1, temp => do
      if (← load nextOf temp) = 0 then
        pure (-1, data)
      else if (← load fdOf (← loadInit dataOf temp)) = fd then
        pure (0, ← loadInit dataOf temp)
      else
        ssSearchLoop fd data fuel (← load nextOf temp)

/-- `ss_search`. -/
def ssSearch (fuel : Nat) (ll : Addr) (fd : Fd) (data : Addr) : Prog Block (Int32 × Addr) :=
  ssSearchLoop fd data fuel ll

/-- The loop of `ss_delete` from `prev` and `temp` on: what it returns, and
`*ll`. -/
def ssDeleteLoop (fd : Fd) (ll : Addr) : Nat → Addr → Addr → Prog Block (Int32 × Addr)
  | 0, _, _ => fun _ => none
  | fuel + 1, prev, temp => do
      if (← load nextOf temp) = 0 then
        pure (-1, ll)
      else if (← load fdOf (← loadInit dataOf temp)) = fd then
        if prev = 0 then
          let ll ← load nextOf temp
          free temp
          pure (0, ll)
        else
          store nextOf prev (← load nextOf temp)
          free temp
          pure (0, ll)
      else
        ssDeleteLoop fd ll fuel temp (← load nextOf temp)

/-- `ss_delete`, with the value of `*ll` before and after. -/
def ssDelete (fuel : Nat) (ll : Addr) (fd : Fd) : Prog Block (Int32 × Addr) :=
  ssDeleteLoop fd ll fuel 0 ll

/-! ## Calls -/

/-- A call of the interface, with what `malloc` does in it and the bound on
the loop. `create` is a `create_ss` that gave the record `s`. -/
inductive Call where
  | create (data : Addr) (s : SsData)
  | push (data e junkNext : Addr)
  | search (fd : Fd) (fuel : Nat)
  | delete (fd : Fd) (fuel : Nat)

/-- What a call returns. -/
inductive Ret where
  | void
  | status (r : Int32)
  deriving DecidableEq, Repr

/-- The heap, the caller's variables, and how often `ss_push` was called. -/
structure Store where
  heap : Heap Block
  ll : Addr
  data : Addr
  pushes : Nat

/-- The list as a machine driven by calls. -/
def step : Machine Store Call Ret := fun s c =>
  match c with
  | .create d r => (malloc d (.record r) s.heap).map fun p => (.void, { s with heap := p.2 })
  | .push d e jn => (ssPush s.ll d e jn s.heap).map fun p =>
      (.void, { s with heap := p.2, ll := p.1, pushes := s.pushes + 1 })
  | .search fd fuel => (ssSearch fuel s.ll fd s.data s.heap).map fun p =>
      (.status p.1.1, { s with heap := p.2, data := p.1.2 })
  | .delete fd fuel => (ssDelete fuel s.ll fd s.heap).map fun p =>
      (.status p.1.1, { s with heap := p.2, ll := p.1.2 })

/-- `malloc` returns an address that is not live, what is pushed is a
record, and the loops are not cut short. -/
def CallOk (s : Store) : Call → Prop
  | .create d _ => Fresh s.heap d
  | .push d e _ => (∃ r, s.heap.cell d = some (.record r)) ∧ Fresh s.heap e
  | .search _ fuel => s.pushes < fuel
  | .delete _ fuel => s.pushes < fuel

instance : (b : Option Block) → Decidable (∃ r, b = some (.record r))
  | some (.record r) => .isTrue ⟨r, rfl⟩
  | some (.node ..) => .isFalse fun ⟨_, h⟩ => by cases h
  | none => .isFalse fun ⟨_, h⟩ => by cases h

instance (s : Store) : DecidablePred (CallOk s)
  | .create d _ => inferInstanceAs (Decidable (Fresh s.heap d))
  | .push d e _ =>
      inferInstanceAs (Decidable ((∃ r, s.heap.cell d = some (.record r)) ∧ Fresh s.heap e))
  | .search _ fuel => inferInstanceAs (Decidable (s.pushes < fuel))
  | .delete _ fuel => inferInstanceAs (Decidable (s.pushes < fuel))

/-! ## The reference -/

/-- An association list: the nodes with what they point to, head first. The
records are in `mem`, and `data` is the caller's variable. -/
structure Sessions where
  mem : Addr → SsData
  nodes : List (Addr × Addr)
  data : Addr

/-- The data pointers, as the rest of the development has them. -/
def Sessions.ll (a : Sessions) : List Addr := a.nodes.map Prod.snd

/-- The node holds the descriptor. -/
def Sessions.holds (a : Sessions) (fd : Fd) (n : Addr × Addr) : Bool := (a.mem n.2).fd == fd

/-- `ss_push` is cons; `ss_search` finds, and `ss_delete` removes, the first
node with the descriptor. -/
def reference : Spec Sessions Call Ret := fun a c =>
  match c with
  | .create d r => (.void, { a with mem := Function.update a.mem d r })
  | .push d e _ => (.void, { a with nodes := (e, d) :: a.nodes })
  | .search fd _ =>
      match a.nodes.find? (a.holds fd) with
      | some n => (.status 0, { a with data := n.2 })
      | none => (.status (-1), a)
  | .delete fd _ =>
      if a.nodes.any (a.holds fd) then
        (.status 0, { a with nodes := a.nodes.eraseP (a.holds fd) })
      else (.status (-1), a)

/-- On the data pointers, the reference does what the model of the server
has its list do. -/
theorem reference_ll (a : Sessions) (fd : Fd) (d e jn : Addr) (fuel : Nat) :
    (reference a (.push d e jn)).2.ll = Assignment.ssPush a.ll d ∧
      (a.nodes.find? (a.holds fd)).map Prod.snd = Assignment.ssSearch a.mem a.ll fd ∧
      (reference a (.delete fd fuel)).2.ll = Assignment.ssDelete a.mem a.ll fd := by
  refine ⟨rfl, ?_, ?_⟩
  · rw [Assignment.ssSearch, Sessions.ll, List.find?_map]
    rfl
  · have herase : (a.nodes.eraseP (a.holds fd)).map Prod.snd =
        Assignment.ssDelete a.mem a.ll fd := by
      rw [Assignment.ssDelete, Sessions.ll, List.eraseP_map]
      rfl
    by_cases hany : a.nodes.any (a.holds fd) = true
    · simp only [reference, hany, if_true]
      exact herase
    · simp only [reference, hany, if_false, Bool.false_eq_true]
      rw [← herase, List.eraseP_of_forall_not (by simpa using hany)]
      rfl

end CCodes.Assignment.SessionList
