/-
CCodes.Assignment.HeapServer — `main` of `assignment/server.c` over an
explicit heap.

`CCodes.Assignment.Server` has the sessions in a memory of their own and the
students as a list. Here everything `main` allocates is in one heap: the list
of students made by `st_ll_get`, the nodes of the session list, the
`SS_Data`s with a POINTER to the copy of a student's record, those copies,
the block that `clientData` points to before there is any session, the two
`struct Message`s, and the block that line 107 allocates for `stDetail`, which
nothing ever points to again. `malloc` says where each block is and what is in
it. `none` is a fault or `exit(-1)`.

Except for the two `struct Message`s the program asks `malloc` for the size of a
POINTER: `malloc(sizeof(temp))` in `st_create` and in `create_ss`, and the same
in `st_push`, `ss_push`, `st_ll_get`, `ss_init` and on lines 24 and 107. As in
`CCodes.Assignment.Records` it is assumed that every block has room for the
struct that is stored there: no two overlap, and a store in one changes no
other. Of a `malloc` that gives 8 bytes and no more the modules on this one
say nothing.

The students are those of `CCodes.Assignment.StudentList`, whose programs run in
this heap as a part of it. The session list is a list of `CCodes.Lib.DummyList`. The
blocks of the two `struct Message`s are kept without what is in them, since each
use writes them over first.
-/
import CCodes.Lib.HeapPart
import CCodes.Assignment.Server
import CCodes.Assignment.StudentList

namespace CCodes.Assignment

open CCodes.Lib
open StudentList (Detail Place)

namespace HeapServer

/-! ## Blocks -/

/-- A `struct SS_Data`. -/
structure Session where
  fd : Fd
  clientId : Int32
  reqCount : Int32
  sFlag : Int32
  tyFlag : Int32
  data : Addr

/-- A block: one of the student list's, a `struct SS_Node`, a
`struct SS_Data` or a `struct Message`. -/
inductive Block where
  | student (b : StudentList.Block)
  | node (data : Option Addr) (next : Addr)
  | session (d : Session)
  | message

namespace Block

/-- The blocks of the student list. -/
def students : Part StudentList.Block Block where
  put := student
  get
    | student b => some b
    | _ => none
  get_put _ := rfl
  put_get c b h := by
    cases c with
    | student b' => cases h; rfl
    | node _ _ => cases h
    | session _ => cases h
    | message => cases h

/-- A field of `struct SS_Data`. -/
def ofSession {γ : Type} (get : Session → γ) (set : γ → Session → Session)
    (get_set : ∀ v d, get (set v d) = v) : Field Block γ where
  get
    | session d => some (get d)
    | _ => none
  set v
    | session d => session (set v d)
    | b => b
  get_set v b := by cases b <;> simp [get_set]

def fdOf : Field Block Fd := ofSession Session.fd (fun v d => { d with fd := v }) fun _ _ => rfl

def clientIdOf : Field Block Int32 :=
  ofSession Session.clientId (fun v d => { d with clientId := v }) fun _ _ => rfl

def reqCountOf : Field Block Int32 :=
  ofSession Session.reqCount (fun v d => { d with reqCount := v }) fun _ _ => rfl

def sFlagOf : Field Block Int32 :=
  ofSession Session.sFlag (fun v d => { d with sFlag := v }) fun _ _ => rfl

def tyFlagOf : Field Block Int32 :=
  ofSession Session.tyFlag (fun v d => { d with tyFlag := v }) fun _ _ => rfl

/-- `clientData->data`. -/
def detailOf : Field Block Addr :=
  ofSession Session.data (fun v d => { d with data := v }) fun _ _ => rfl

/-- A whole `struct ST_Detail`. -/
def structOf : Field Block Detail where
  get
    | student (.detail d) => some d
    | _ => none
  set d
    | student (.detail _) => student (.detail d)
    | b => b
  get_set v b := by
    cases b with
    | student b => cases b <;> rfl
    | node _ _ => rfl
    | session _ => rfl
    | message => rfl

/-- The `struct SS_Node`s. -/
def sessionNode : NodeFormat Block where
  nextOf :=
    { get := fun | node _ n => some n | _ => none
      set := fun n => fun | node d _ => node d n | b => b
      get_set := fun _ b => by cases b <;> rfl }
  dataOf :=
    { get := fun | node d _ => some d | _ => none
      set := fun d => fun | node _ n => node d n | b => b
      get_set := fun _ b => by cases b <;> rfl }
  blank := node none
  next_blank _ := rfl
  data_blank _ := rfl
  next_apart := ⟨fun _ b => by cases b <;> rfl⟩
  data_apart := ⟨fun _ b => by cases b <;> rfl⟩

end Block

/-! ## What `malloc` does -/

/-- The `malloc`s of one pass of the loop, and a bound on the tests of each
loop condition: the `stDetail` of line 107, the `SS_Data` and the copy of the
record that `create_ss` makes, and the node of `ss_push`. -/
structure Mallocs where
  fuel : Nat
  stDetail : Addr
  junkDetail : Detail
  temp : Addr
  junk : Session
  copy : Addr
  junkCopy : Detail
  node : Addr
  junkNext : Addr

/-- The addresses that `malloc` returns in a pass. -/
def Mallocs.addrs (m : Mallocs) : List Addr := [m.stDetail, m.temp, m.copy, m.node]

/-- The `malloc`s before the loop: `ss_init`, `st_ll_get`, the block of line 24,
and the two `struct Message`s. -/
structure StartMallocs where
  serverStore : Addr
  junkNext : Addr
  ll : Addr
  junkNext' : Addr
  places : List Place
  clientData : Addr
  junk : Session
  req : Addr
  res : Addr

/-- The addresses of the student list. -/
def StartMallocs.studentAddrs (m : StartMallocs) : List Addr :=
  m.ll :: (m.places.map Place.record ++ m.places.map Place.node)

/-- The addresses of the two lists, and of the block of line 24. -/
def StartMallocs.storeAddrs (m : StartMallocs) : List Addr :=
  m.serverStore :: m.clientData :: m.studentAddrs

/-- The addresses that `malloc` returns before the loop. -/
def StartMallocs.addrs (m : StartMallocs) : List Addr := m.res :: m.req :: m.storeAddrs

/-- There are places for the students, and `malloc` returns addresses that
are not live. -/
def StartMallocs.Ok (m : StartMallocs) (h : Heap Block) : Prop :=
  m.places.length = StudentList.students.length ∧ m.addrs.Nodup ∧ ∀ a ∈ m.addrs, Fresh h a

instance (m : StartMallocs) (h : Heap Block) : Decidable (m.Ok h) :=
  inferInstanceAs (Decidable (_ ∧ _ ∧ _))

end HeapServer

/-! ## The server -/

open HeapServer in
/-- What the server holds, with the heap and the head pointers of its lists;
`pushes` counts the calls of `ss_push`. -/
structure HeapServer where
  listenFD : Fd
  masterFDs : Finset Fd
  fdMax : Fd
  openFDs : Finset Fd
  heap : Heap Block
  serverStore : Addr
  studentStore : Addr
  clientData : Addr
  pushes : Nat

namespace HeapServer

open Block

/-- `create_ss`. The record goes through `st_create`, so its `id` and `regNo`
go through an `int`. -/
def createSs (m : Mallocs) (fd : Fd) (clientId : Int32) (data : Addr) : Prog Block Addr := do
  let temp ← malloc m.temp (.session m.junk)
  store fdOf temp fd
  store clientIdOf temp clientId
  let d ← load structOf data
  let copy ← students.lift
    (StudentList.stCreate m.copy m.junkCopy d.id.toInt32 d.name.bytes d.regNo.toUInt32.toInt32)
  store detailOf temp copy
  store reqCountOf temp 0
  store sFlagOf temp 0
  store tyFlagOf temp 0
  pure temp

/-- `Write(i, m, sizeof(struct Message))`. -/
def write (openFDs : Finset Fd) (i : Fd) (m : Message) : Prog Block (List Message) :=
  if i ∈ openFDs then pure [m] else failure

/-- Lines 104-125. -/
def findSession (s : HeapServer) (m : Mallocs) (i : Fd) (res : Message) :
    Option (List Message × HeapServer) := do
  let ((r, clientData), heap) ← sessionNode.search fdOf m.fuel s.serverStore i s.clientData s.heap
  let s := { s with heap := heap, clientData := clientData }
  if r < 0 then
    let id := atoi res.buffer
    let (stDetail, heap) ← malloc m.stDetail (.student (.detail m.junkDetail)) s.heap
    let ((r, stDetail), heap) ←
      students.lift (StudentList.stSearch m.fuel s.studentStore id stDetail) heap
    if r < 0 then
      let (w, heap) ← write s.openFDs i .notFound heap
      pure (w, { s with heap := heap })
    else
      let (newClientData, heap) ← createSs m i id stDetail heap
      let (_, heap) ← store sFlagOf newClientData 1 heap
      let (serverStore, heap) ←
        sessionNode.push s.serverStore newClientData m.node m.junkNext heap
      pure ([], { s with
        heap := heap
        serverStore := serverStore
        clientData := newClientData
        pushes := s.pushes + 1 })
  else
    pure ([], s)

/-- Lines 127-141. -/
def setFlags (clientData : Addr) (res : Message) : Prog Block Unit :=
  if res.isBuffer then do
    if res.saysThankYou then
      store tyFlagOf clientData 1
    if (← load tyFlagOf clientData) = 1 ∧ res.saysAgain = true then
      store tyFlagOf clientData 0
      store sFlagOf clientData 1
  else pure ()

/-- Lines 143-150. -/
def sendDetail (openFDs : Finset Fd) (clientData : Addr) (i : Fd) : Prog Block (List Message) := do
  if (← load sFlagOf clientData) = 1 then
    let detail ← load structOf (← load detailOf clientData)
    let w ← write openFDs i (.ofDetail detail.held)
    store sFlagOf clientData 0
    pure w
  else
    pure []

/-- Lines 102-151: what is written on `i`, and the server afterwards. -/
def handleMessage (s : HeapServer) (m : Mallocs) (i : Fd) (res : Message) :
    Option (List Message × HeapServer) := do
  let (w₁, s) ← s.findSession m i res
  let (_, heap) ← setFlags s.clientData res s.heap
  let (w₂, heap) ← sendDetail s.openFDs s.clientData i heap
  pure (w₁ ++ w₂, { s with heap := heap })

/-- `close(i)`. -/
def close (s : HeapServer) (i : Fd) : HeapServer := { s with openFDs := s.openFDs.erase i }

/-- Lines 99-100, after `Read` closed the descriptor. -/
def hangUp (s : HeapServer) (m : Mallocs) (i : Fd) : Option HeapServer := do
  let s := s.close i
  let ((_, serverStore), heap) ← sessionNode.delete fdOf m.fuel s.serverStore i s.heap
  pure { s with
    masterFDs := s.masterFDs.erase i
    heap := heap
    serverStore := serverStore }

/-- Lines 94-152. -/
def handleClient (s : HeapServer) (m : Mallocs) (i : Fd) :
    Answer → Option (List Message × HeapServer)
  | .data res => s.handleMessage m i res
  | .eof => (s.hangUp m i).map fun s => ([], s)
  | .error => (s.close i).handleMessage m i .zero
  | .accepted _ => none

/-- Lines 80-93. -/
def handleAccept (s : HeapServer) : Answer → Option (List Message × HeapServer)
  | .accepted newFD =>
      if 0 ≤ newFD ∧ newFD ∉ s.openFDs then
        some ([], { s with
          openFDs := insert newFD s.openFDs
          masterFDs := insert newFD s.masterFDs
          fdMax := if newFD > s.fdMax then newFD else s.fdMax })
      else none
  | _ => none

/-- Lines 80-152: the body of the loop for a ready descriptor. -/
def body (s : HeapServer) (i : Fd) (a : Answer × Mallocs) : Option (List Message × HeapServer) :=
  if i = s.listenFD then s.handleAccept a.1 else s.handleClient a.2 i a.1

/-- Lines 22-27, and what is before the loop when `listenFD` is the
descriptor that `Socket` returned. -/
def start (listenFD : Fd) (m : StartMallocs) (h : Heap Block) : Option HeapServer := do
  let (serverStore, h) ← sessionNode.init m.serverStore m.junkNext h
  let (studentStore, h) ← students.lift (StudentList.stLlGet m.ll m.junkNext' m.places) h
  let (clientData, h) ← malloc m.clientData (.session m.junk) h
  let (_, h) ← malloc m.req .message h
  let (_, h) ← malloc m.res .message h
  pure {
    listenFD := listenFD
    masterFDs := {listenFD}
    fdMax := listenFD
    openFDs := {listenFD}
    heap := h
    serverStore := serverStore
    studentStore := studentStore
    clientData := clientData
    pushes := 0 }

/-- What `malloc` may do in a pass: the addresses are not live, and the loops
are not cut short. -/
def MallocsOk (s : HeapServer) (m : Mallocs) : Prop :=
  m.addrs.Nodup ∧ (∀ a ∈ m.addrs, Fresh s.heap a) ∧ s.pushes < m.fuel ∧
    StudentList.students.length < m.fuel

instance (s : HeapServer) (m : Mallocs) : Decidable (s.MallocsOk m) :=
  inferInstanceAs (Decidable (_ ∧ _ ∧ _ ∧ _))

end HeapServer

/-- The server over the heap. -/
def heapServer : SelectLoop HeapServer (Answer × HeapServer.Mallocs) (List Message) where
  masterFDs := HeapServer.masterFDs
  fdMax := HeapServer.fdMax
  openFDs := HeapServer.openFDs
  body := HeapServer.body

end CCodes.Assignment
