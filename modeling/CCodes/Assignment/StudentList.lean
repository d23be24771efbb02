/-
CCodes.Assignment.StudentList — the list of students of `student_ll.c`,
over an explicit heap.

`CCodes.Assignment.Records` has this list as the server sees it, a list of
records. Here it is what the code makes: nodes that point to records made by
`st_create`, in front of the node with which `st_ll_get` starts, whose
`next` is NULL and whose `data` nothing was ever stored in.

The nodes and the programs on them are those of `CCodes.Lib.DummyList`. The
`malloc`s ask for the size of a pointer; they are taken to give room for the
struct that is stored there, and they are told where the block is and what
is in it before anything is stored.
-/
import CCodes.Lib.DummyList
import CCodes.Lib.Runs
import CCodes.Assignment.Records

namespace CCodes.Assignment.StudentList

open CCodes.Lib

/-- A `struct ST_Detail` in memory, with the whole of its `name` array. -/
structure Detail where
  id : UInt32
  name : CharBuf 200
  regNo : UInt64

/-- The record a `struct ST_Detail` holds. -/
def Detail.held (d : Detail) : StDetail := ⟨d.id, cstr d.name.bytes, d.regNo⟩

/-- A `struct ST_Detail` of zeros. -/
def Detail.zero : Detail := ⟨0, ⟨List.replicate 200 0, List.length_replicate⟩, 0⟩

/-- A block: a `struct ST_Node` or a `struct ST_Detail`. -/
inductive Block where
  | node (data : Option Addr) (next : Addr)
  | detail (d : Detail)

namespace Block

/-- `e->data`. -/
def dataOf : Field Block (Option Addr) where
  get
    | node d _ => some d
    | detail _ => none
  set d
    | node _ n => node d n
    | b => b
  get_set _ b := by cases b <;> rfl

/-- `e->next`. -/
def nextOf : Field Block Addr where
  get
    | node _ n => some n
    | detail _ => none
  set n
    | node d _ => node d n
    | b => b
  get_set _ b := by cases b <;> rfl

/-- `temp->id`. -/
def idOf : Field Block UInt32 where
  get
    | detail d => some d.id
    | node _ _ => none
  set id
    | detail d => detail { d with id := id }
    | b => b
  get_set _ b := by cases b <;> rfl

/-- `temp->name`. -/
def nameOf : Field Block (CharBuf 200) where
  get
    | detail d => some d.name
    | node _ _ => none
  set name
    | detail d => detail { d with name := name }
    | b => b
  get_set _ b := by cases b <;> rfl

/-- `temp->regNo`. -/
def regNoOf : Field Block UInt64 where
  get
    | detail d => some d.regNo
    | node _ _ => none
  set regNo
    | detail d => detail { d with regNo := regNo }
    | b => b
  get_set _ b := by cases b <;> rfl

/-- The `struct ST_Node`s. -/
def studentNode : NodeFormat Block where
  nextOf := nextOf
  dataOf := dataOf
  blank := node none
  next_blank _ := rfl
  data_blank _ := rfl
  next_apart := ⟨fun _ b => by cases b <;> rfl⟩
  data_apart := ⟨fun _ b => by cases b <;> rfl⟩

end Block

open Block

/-! ## The functions -/

/-- `st_create`; the record is at `temp`, and its block holds `junk`. -/
def stCreate (temp : Addr) (junk : Detail) (id : Int32) (name : List UInt8) (regNo : Int32) :
    Prog Block Addr := do
  let temp ← malloc temp (.detail junk)
  store idOf temp id.toUInt32
  store regNoOf temp regNo.toInt64.toUInt64
  match strcpy (← load nameOf temp) name with
  | some buf => store nameOf temp buf
  | none => failure
  pure temp

/-- `st_push`, with the value of `*ll` before and after; the node is at `e`. -/
def stPush (ll data e junkNext : Addr) : Prog Block Addr :=
  studentNode.push ll data e junkNext

/-- `st_search`: what it returns, and `*data`. The comparison is between
`unsigned int`s. -/
def stSearch (fuel : Nat) (ll : Addr) (id : Int32) (data : Addr) : Prog Block (Int32 × Addr) :=
  studentNode.search idOf fuel ll id.toUInt32 data

/-- What `st_ll_get` starts with: the last node. -/
def stLlStart (ll junkNext : Addr) : Prog Block Addr :=
  studentNode.init ll junkNext

/-! ## The students pushed -/

/-- One `st_push(&ll, st_create(id, name, regNo))`, with what its two
`malloc`s do. `name` is the bytes at the pointer given. -/
structure Entry where
  id : Int32
  name : List UInt8
  regNo : Int32
  record : Addr
  junk : Detail
  node : Addr
  junkNext : Addr

namespace Entry

/-- The push, with the value of `ll` before and after. -/
def push (c : Entry) (ll : Addr) : Prog Block Addr := do
  stPush ll (← stCreate c.record c.junk c.id c.name c.regNo) c.node c.junkNext

/-- The record, as the rest of the development has it. -/
def held (c : Entry) : StDetail := Assignment.stCreate c.id (cstr c.name) c.regNo

end Entry

/-! ## `st_ll_get` -/

/-- Where the `malloc`s of `st_ll_get` put a student, and what they find
there. -/
structure Place where
  record : Addr
  junk : Detail
  node : Addr
  junkNext : Addr

/-- The students of `st_ll_get`, in the order it makes and pushes them. -/
def students : List (Int32 × List UInt8 × Int32) :=
  [(1, bytes "Aashish", 171501), (2, bytes "Aashuthoh", 171502), (3, bytes "Abinash", 171503),
    (4, bytes "Aakriti", 171504), (5, bytes "Avash", 171505), (6, bytes "Biraj", 171506)]

/-- A student at its place. -/
def Place.entry (p : Place) (c : Int32 × List UInt8 × Int32) : Entry :=
  ⟨c.1, c.2.1, c.2.2, p.record, p.junk, p.node, p.junkNext⟩

/-- The records, one after the other. -/
def createAll : List Entry → Prog Block (List Addr)
  | [] => pure []
  | c :: es => do
      let r ← stCreate c.record c.junk c.id c.name c.regNo
      let rs ← createAll es
      pure (r :: rs)

/-- The pushes, with the value of `ll` before and after. -/
def pushAll (ll : Addr) : List (Addr × Entry) → Prog Block Addr
  | [] => pure ll
  | (r, c) :: es => do
      let ll ← stPush ll r c.node c.junkNext
      pushAll ll es

/-- `st_ll_get`: all records are made before the first push. -/
def stLlGet (ll junkNext : Addr) (places : List Place) : Prog Block Addr := do
  let es := List.zipWith Place.entry places students
  let ll ← stLlStart ll junkNext
  let rs ← createAll es
  pushAll ll (rs.zip es)

/-- What the `malloc`s of `st_ll_get` may return. -/
def PlacesOk (h : Heap Block) (ll : Addr) (places : List Place) : Prop :=
  places.length = students.length ∧
    (ll :: (places.map Place.record ++ places.map Place.node)).Nodup ∧
    ∀ a ∈ ll :: (places.map Place.record ++ places.map Place.node), Fresh h a

/-- The heap, and the caller's `ll`. -/
structure Store where
  heap : Heap Block
  ll : Addr

/-- The list as a machine that is given one student after the other. -/
def step : Machine Store Entry Unit := fun s c =>
  (c.push s.ll s.heap).map fun p => ((), ⟨p.2, p.1⟩)

/-- The name fits in its array, and the `malloc`s return addresses that are
not live. -/
def EntryOk (s : Store) (c : Entry) : Prop :=
  (cstr c.name).length < 200 ∧ Fresh s.heap c.record ∧ Fresh s.heap c.node ∧ c.node ≠ c.record

instance (s : Store) (c : Entry) : Decidable (EntryOk s c) :=
  inferInstanceAs (Decidable (_ ∧ _ ∧ _ ∧ _))

end CCodes.Assignment.StudentList
