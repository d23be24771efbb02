/-
CCodes.Assignment.Server — `main` of `assignment/server.c`.

One pointer, `clientData`, is shared by all connections: `ss_search`
points it at the session of the descriptor being handled, a new session
points it at itself, and the branch for an unknown id leaves it where the
last message of any connection left it. So the sessions are kept in a
memory here, and `clientData` is an address into it.

The functions follow the three parts of the body, lines 104-125 (find or
make the session), 127-141 (the flags) and 143-150 (send the record).
`none` is `exit(-1)`, from `Write` on a descriptor that is not open; a
`Write` to an open descriptor succeeds. `server` puts the body in the
`select` loop of `CCodes.Lib.SelectLoop`.

Descriptors are any non-negative numbers: the bound `FD_SETSIZE` of the
sets is not modelled. The `SS_Data`s do not overlap: every `malloc` has room, as
`CCodes.Assignment.Records` says.
-/
import Mathlib.Logic.Function.Basic
import CCodes.Assignment.Records

namespace CCodes.Assignment

open CCodes.Lib

/-- What the server holds, and the descriptors the system has open for it:
`listenFD` and the connections. Addresses from `brk` on are not allocated;
an `SS_Data` is never freed. -/
structure Server where
  listenFD : Fd
  studentStore : List StDetail
  masterFDs : Finset Fd
  fdMax : Fd
  openFDs : Finset Fd
  serverStore : List Ptr
  mem : Ptr → SsData
  brk : Ptr
  clientData : Ptr

/-- What the system calls of the body answer: `accept` a descriptor, or
`Read` a message, end of file (0) or an error (-1). -/
inductive Answer where
  | accepted (newFD : Fd)
  | data (res : Message)
  | eof
  | error

/-- Lines 127-141, on the record `clientData` points to. -/
def SsData.setFlags (d : SsData) (res : Message) : SsData :=
  if res.isBuffer then
    let d := if res.saysThankYou then { d with tyFlag := 1 } else d
    if d.tyFlag = 1 ∧ res.saysAgain then { d with tyFlag := 0, sFlag := 1 } else d
  else d

namespace Server

/-- The server before the loop: nothing accepted, `clientData` at a block
whose content is `junk`. -/
def init (listenFD : Fd) (studentStore : List StDetail) (junk : SsData) : Server where
  listenFD := listenFD
  studentStore := studentStore
  masterFDs := {listenFD}
  fdMax := listenFD
  openFDs := {listenFD}
  serverStore := []
  mem _ := junk
  brk := 1
  clientData := 0

/-- `Write(i, m, sizeof(struct Message))`. -/
def write (s : Server) (i : Fd) (m : Message) : Option (List Message) :=
  if i ∈ s.openFDs then some [m] else none

/-- Store an `SS_Data`. -/
def setMem (s : Server) (p : Ptr) (d : SsData) : Server :=
  { s with mem := Function.update s.mem p d }

/-- Lines 104-125. -/
def findSession (s : Server) (i : Fd) (res : Message) : Option (List Message × Server) :=
  match ssSearch s.mem s.serverStore i with
  | some p => some ([], { s with clientData := p })
  | none =>
      let id := atoi res.buffer
      match stSearch s.studentStore id with
      | none => do
          let w ← s.write i .notFound
          pure (w, s)
      | some stDetail =>
          let newClientData := s.brk
          let s := s.setMem newClientData { createSs i id stDetail with sFlag := 1 }
          some ([], { s with
            brk := newClientData + 1
            serverStore := ssPush s.serverStore newClientData
            clientData := newClientData })

/-- Lines 127-141. -/
def setFlags (s : Server) (res : Message) : Server :=
  s.setMem s.clientData ((s.mem s.clientData).setFlags res)

/-- Lines 143-150. -/
def sendDetail (s : Server) (i : Fd) : Option (List Message × Server) :=
  let d := s.mem s.clientData
  if d.sFlag = 1 then do
    let w ← s.write i (.ofDetail d.data)
    pure (w, s.setMem s.clientData { d with sFlag := 0 })
  else
    some ([], s)

/-- Lines 102-151: what is written on `i`, and the server afterwards. -/
def handleMessage (s : Server) (i : Fd) (res : Message) : Option (List Message × Server) := do
  let (w₁, s) ← s.findSession i res
  let s := s.setFlags res
  let (w₂, s) ← s.sendDetail i
  pure (w₁ ++ w₂, s)

/-- `close(i)`. -/
def close (s : Server) (i : Fd) : Server := { s with openFDs := s.openFDs.erase i }

/-- Lines 99-100, after `Read` closed the descriptor. -/
def hangUp (s : Server) (i : Fd) : Server :=
  let s := s.close i
  { s with
    masterFDs := s.masterFDs.erase i
    serverStore := ssDelete s.mem s.serverStore i }

/-- Lines 94-152. `Read` closes the descriptor when it got nothing, and the
caller tests for 0 only: an error goes on with `res` as `bzero` left it. -/
def handleClient (s : Server) (i : Fd) : Answer → Option (List Message × Server)
  | .data res => s.handleMessage i res
  | .eof => some ([], s.hangUp i)
  | .error => (s.close i).handleMessage i .zero
  | .accepted _ => none

/-- Lines 85-87, after `Accept` opened `newFD`. -/
def addClient (s : Server) (newFD : Fd) : Server :=
  { s with
    openFDs := insert newFD s.openFDs
    masterFDs := insert newFD s.masterFDs
    fdMax := if newFD > s.fdMax then newFD else s.fdMax }

/-- Lines 80-93: the system gives any descriptor that is not open. -/
def handleAccept (s : Server) : Answer → Option (List Message × Server)
  | .accepted newFD =>
      if 0 ≤ newFD ∧ newFD ∉ s.openFDs then some ([], s.addClient newFD) else none
  | _ => none

/-- Lines 80-152: the body of the loop for a ready descriptor. -/
def body (s : Server) (i : Fd) (a : Answer) : Option (List Message × Server) :=
  if i = s.listenFD then s.handleAccept a else s.handleClient i a

end Server

/-- The server. What a body writes, it writes on its own descriptor. -/
def server : SelectLoop Server Answer (List Message) where
  masterFDs := Server.masterFDs
  fdMax := Server.fdMax
  openFDs := Server.openFDs
  body := Server.body

/-- An event: the body runs for a descriptor and gets an answer. -/
abbrev Event := Fd × Answer

/-- The session of descriptor `i`. -/
def Server.session (s : Server) (i : Fd) : Option SsData :=
  (ssSearch s.mem s.serverStore i).map s.mem

end CCodes.Assignment
