/-
CCodes.Older.Server — `main` of `other/other/select/server.c`.

The headers of this server (`server_store_ll.h`, `utils.h`) are not in the
repository. What the code relies on is in `Headers`: a map from descriptors
to records that answers with the record that was pushed, a look-up of
students, and whether `Write` exits when it fails, as it does on a
descriptor that is not open.

An entry of the map is never taken out. The branch for an id that is not
stored closes the descriptor, and then goes on: it pushes the record, whose
`data` is as `malloc` left it, and handles the message like any other.

A read of `MAXLINE + 1` bytes puts the NUL behind the array, which is not
modelled.

The functions follow the parts of the body, lines 131-150 (find or make the
record), 152-162 (send it), 164-170 (the acknowledgement) and 172-176 (the
"again"). `none` is the exit of a `Write`.
-/
import Mathlib.Logic.Function.Basic
import CCodes.Lib.CString
import CCodes.Lib.SelectLoop

namespace CCodes.Older

open CCodes.Lib

/-- The address of a `struct ServerData`. -/
abbrev Ptr := Nat

/-- What the missing headers give: `ServLL` with `ss_search` (`none` is a
negative result) and `ss_push`, `search` (`none` is a result that is not
0), and whether `Write` exits on an error. -/
structure Headers (StudentDetail : Type) where
  ServLL : Type
  sll : ServLL
  ssSearch : ServLL → Fd → Option Ptr
  ssPush : ServLL → Fd → Ptr → ServLL
  search : Int32 → Option StudentDetail
  writeExits : Bool
  ssSearch_sll : ∀ i, ssSearch sll i = none
  ssSearch_ssPush : ∀ m i p, ssSearch m i = none →
    ∀ j, ssSearch (ssPush m i p) j = if j = i then some p else ssSearch m j

/-- `struct ServerData`. -/
structure ServerData (StudentDetail : Type) where
  fd : Fd
  clientId : Int32
  requestCount : Int32
  data : StudentDetail
  sendDataFlag : Int32
  thankYouFlag : Int32
  deriving DecidableEq

/-- What is written on a connection. -/
inductive Sent (StudentDetail : Type) where
  | detail (d : StudentDetail)
  | ackTy
  deriving DecidableEq

/-- What the server holds, and the descriptors the system has open for it.
Addresses from `brk` on are not allocated. -/
structure Server {StudentDetail : Type} (H : Headers StudentDetail) where
  listenFD : Fd
  masterFDs : Finset Fd
  fdMax : Fd
  openFDs : Finset Fd
  sll : H.ServLL
  mem : Ptr → ServerData StudentDetail
  brk : Ptr
  currentServData : Ptr

/-- What the system calls of the body answer: `Accept` a descriptor, or
`Read` some bytes, none of them when the client hung up. -/
inductive Answer where
  | accepted (newFD : Fd)
  | read (recvBuffer : List UInt8)
  deriving DecidableEq

/-- An event: the body runs for a descriptor and gets an answer. -/
abbrev Event := Fd × Answer

variable {StudentDetail : Type} {H : Headers StudentDetail}

namespace Server

/-- The server before the loop; what the memory holds is not known. -/
def init (H : Headers StudentDetail) (listenFD : Fd) (junk : Ptr → ServerData StudentDetail) :
    Server H where
  listenFD := listenFD
  masterFDs := {listenFD}
  fdMax := listenFD
  openFDs := {listenFD}
  sll := H.sll
  mem := junk
  brk := 1
  currentServData := 0

/-- `Write(i, ...)`. -/
def write (s : Server H) (i : Fd) (m : Sent StudentDetail) : Option (List (Sent StudentDetail)) :=
  if i ∈ s.openFDs then some [m] else if H.writeExits then none else some []

/-- Store a record. -/
def setMem (s : Server H) (p : Ptr) (d : ServerData StudentDetail) : Server H :=
  { s with mem := Function.update s.mem p d }

/-- `close(i); FD_CLR(i, &masterFDs);` -/
def closeConnection (s : Server H) (i : Fd) : Server H :=
  { s with openFDs := s.openFDs.erase i, masterFDs := s.masterFDs.erase i }

/-- The record of lines 133-140; without a student, `data` stays as it is. -/
def newServData (s : Server H) (i : Fd) (recvBuffer : List UInt8) : ServerData StudentDetail :=
  let d := { s.mem s.brk with
    fd := i
    clientId := atoi recvBuffer
    sendDataFlag := 1
    thankYouFlag := 0 }
  match H.search (atoi recvBuffer) with
  | some data => { d with data := data }
  | none => d

/-- Lines 131-150. -/
def findServData (s : Server H) (i : Fd) (recvBuffer : List UInt8) : Server H :=
  match H.ssSearch s.sll i with
  | some p => { s with currentServData := p }
  | none =>
      let p := s.brk
      let d := s.newServData i recvBuffer
      let s := s.setMem p d
      let s := if (H.search d.clientId).isNone then s.closeConnection i else s
      { s with
        brk := p + 1
        sll := H.ssPush s.sll d.fd p
        currentServData := p }

/-- Lines 152-162. -/
def sendData (s : Server H) (i : Fd) : Option (List (Sent StudentDetail) × Server H) :=
  let d := s.mem s.currentServData
  if d.sendDataFlag = 1 then do
    let w ← s.write i (.detail d.data)
    pure (w, s.setMem s.currentServData
      { d with sendDataFlag := 0, requestCount := d.requestCount + 1 })
  else
    some ([], s)

/-- Lines 164-170. -/
def ackThankYou (s : Server H) (i : Fd) (recvBuffer : List UInt8) :
    Option (List (Sent StudentDetail) × Server H) :=
  if strncmp recvBuffer (bytes "thank_you") 9 = 0 then do
    let s := s.setMem s.currentServData { s.mem s.currentServData with thankYouFlag := 1 }
    let w ← s.write i .ackTy
    pure (w, s)
  else
    some ([], s)

/-- Lines 172-176. -/
def takeAgain (s : Server H) (recvBuffer : List UInt8) : Server H :=
  let d := s.mem s.currentServData
  if d.thankYouFlag = 1 ∧ strncmp recvBuffer (bytes "again") 5 = 0 then
    s.setMem s.currentServData { d with sendDataFlag := 1, thankYouFlag := 0 }
  else s

/-- Lines 106-176: what is written on `i`, and the server afterwards. -/
def handleMessage (s : Server H) (i : Fd) (recvBuffer : List UInt8) :
    Option (List (Sent StudentDetail) × Server H) := do
  let s := s.findServData i recvBuffer
  let (w₁, s) ← s.sendData i
  let (w₂, s) ← s.ackThankYou i recvBuffer
  pure (w₁ ++ w₂, s.takeAgain recvBuffer)

/-- Lines 98-177. -/
def handleClient (s : Server H) (i : Fd) :
    Answer → Option (List (Sent StudentDetail) × Server H)
  | .read recvBuffer =>
      if recvBuffer = [] then some ([], s.closeConnection i) else s.handleMessage i recvBuffer
  | .accepted _ => none

/-- Lines 82-87. -/
def addClient (s : Server H) (newFD : Fd) : Server H :=
  { s with
    openFDs := insert newFD s.openFDs
    masterFDs := insert newFD s.masterFDs
    fdMax := if newFD > s.fdMax then newFD else s.fdMax }

/-- Lines 78-95: the system gives any descriptor that is not open. -/
def handleAccept (s : Server H) : Answer → Option (List (Sent StudentDetail) × Server H)
  | .accepted newFD =>
      if 0 ≤ newFD ∧ newFD ∉ s.openFDs then some ([], s.addClient newFD) else none
  | .read _ => none

/-- Lines 76-178: the body of the loop for a ready descriptor. -/
def body (s : Server H) (i : Fd) (a : Answer) : Option (List (Sent StudentDetail) × Server H) :=
  if i = s.listenFD then s.handleAccept a else s.handleClient i a

/-- The record that the map has for a descriptor. -/
def entry (s : Server H) (i : Fd) : Option (ServerData StudentDetail) :=
  (H.ssSearch s.sll i).map s.mem

end Server

/-- The server. What a body writes, it writes on its own descriptor. -/
def older (H : Headers StudentDetail) :
    SelectLoop (Server H) Answer (List (Sent StudentDetail)) where
  masterFDs := Server.masterFDs
  fdMax := Server.fdMax
  openFDs := Server.openFDs
  body := Server.body

/-- Headers with an association list for the map. -/
def listHeaders (search : Int32 → Option StudentDetail) (writeExits : Bool) :
    Headers StudentDetail where
  ServLL := List (Fd × Ptr)
  sll := []
  ssSearch m i := (m.find? fun e => e.1 == i).map Prod.snd
  ssPush m i p := (i, p) :: m
  search := search
  writeExits := writeExits
  ssSearch_sll _ := rfl
  ssSearch_ssPush m i p _ j := by
    by_cases hj : j = i
    · simp [hj]
    · simp [hj, Ne.symm hj]

/-- A store with one student, whose id is 1. -/
def oneStudent : Int32 → Option Nat := fun id => if id = 1 then some 7 else none

end CCodes.Older
