/-
CCodes.Older.Client — `main` of `other/other/select/client.c`, and the
client together with the server.

The client is a script: it writes its id (53), and in every pass reads the
detail (57), reads once more (61), takes a line from the user (72), writes it
(73), and after an "again" reads (77) and writes twice (84, 85). What it
prints is left out.

Each direction of the connection is a channel that keeps its order, and each
read gets one whole write. `connect` (47) has been made, so the connection
waits to be accepted. The server is the loop of `older`: `select` returns
when a descriptor of its set is ready, and leaves those that are in the copy.
-/
import Mathlib.Logic.Relation
import CCodes.Older.ServerTheorems

namespace CCodes.Older

open CCodes.Lib

variable {StudentDetail : Type} {H : Headers StudentDetail}

/-- The lines where the client reads or writes. It `exits` at lines 80 and
90, and the system closes its socket. -/
inductive Line where
  | write53
  | read57
  | read61
  | fgets72
  | write73 (sendBuffer : List UInt8)
  | recv77
  | write84
  | write85
  | exits
  deriving DecidableEq

/-- The client, whose id is `argv[3]`, the server, and what is on its way
between them. `fd` is the descriptor the server has accepted the client as. -/
structure Talk (H : Headers StudentDetail) where
  argv3 : List UInt8
  line : Line
  toServer : List (List UInt8)
  toClient : List (Sent StudentDetail)
  server : Phase × Server H
  fd : Option Fd

/-- One side goes on: the server with what its system calls answer, or the
client, with the `typed` line if it is at line 72. -/
inductive Turn where
  | server (inp : Input Answer)
  | client (typed : List UInt8)

/-- `MAXLINE`. -/
def maxLine : Nat := 4096

namespace Talk

/-- Before line 53. -/
def start (H : Headers StudentDetail) (argv3 : List UInt8) (listenFD : Fd)
    (junk : Ptr → ServerData StudentDetail) : Talk H where
  argv3 := argv3
  line := .write53
  toServer := []
  toClient := []
  server := (.top, .init H listenFD junk)
  fd := none

/-! ## The client -/

/-- `write(sockFD, text, strlen(text))`; nothing is sent for the empty text. -/
def send (x : Talk H) (text : List UInt8) : Talk H :=
  if text = [] then x else { x with toServer := x.toServer ++ [text] }

/-- The server has closed the connection. -/
def ServerClosed (x : Talk H) : Prop := ∃ i ∈ x.fd, i ∉ x.server.2.openFDs

instance (x : Talk H) : Decidable x.ServerClosed :=
  match x with
  | { fd := none, .. } => isFalse nofun
  | { fd := some i, server := (_, s), .. } =>
      decidable_of_iff (i ∉ s.openFDs) (by simp [ServerClosed])

/-- A read from the socket: whether there was a message, and what is left.
It blocks on an empty channel that the server has not closed. -/
def receive (x : Talk H) : Option (Bool × Talk H) :=
  match x.toClient with
  | _ :: toClient => some (true, { x with toClient := toClient })
  | [] => if x.ServerClosed then some (false, x) else none

/-- `fgets(sendBuffer, MAXLINE, stdin)` got these bytes. -/
def Fgets (typed : List UInt8) : Prop := typed ≠ [] ∧ typed.length < maxLine

instance (typed : List UInt8) : Decidable (Fgets typed) := inferInstanceAs (Decidable (_ ∧ _))

/-- Lines 74-93: where the client goes on after line 73. -/
def afterWrite (sendBuffer : List UInt8) : Line :=
  if strncmp sendBuffer (bytes "again") 5 = 0 then .recv77
  else if strncmp sendBuffer (bytes "quit") 4 = 0 then .exits
  else .read57

/-- One step of the client. -/
def client (x : Talk H) (typed : List UInt8) : Option (Talk H) :=
  match x.line with
  | .write53 => some { x.send x.argv3 with line := .read57 }
  | .read57 => x.receive.map fun p => { p.2 with line := .read61 }
  | .read61 => x.receive.map fun p => { p.2 with line := .fgets72 }
  | .fgets72 => if Fgets typed then some { x with line := .write73 typed } else none
  | .write73 sendBuffer =>
      some { x.send (cstr sendBuffer) with line := afterWrite sendBuffer }
  | .recv77 => x.receive.map fun p => { p.2 with line := if p.1 then .write84 else .exits }
  | .write84 => some { x.send (bytes "thank_you") with line := .write85 }
  | .write85 => some { x.send (bytes "again") with line := .read57 }
  | .exits => none

/-! ## The server -/

/-- The descriptors that are ready: the listener as long as the connection
waits, then the connection, when something can be read from it. -/
def ready (x : Talk H) : Finset Fd :=
  x.server.2.masterFDs ∩
    match x.fd with
    | none => {x.server.2.listenFD}
    | some i => if x.toServer ≠ [] ∨ x.line = .exits then {i} else ∅

/-- What the system calls of the server may answer. -/
def Offers (x : Talk H) : Input Answer → Prop
  | .select readFDs => readFDs = x.ready ∧ readFDs ≠ ∅
  | .next => True
  | .ready (.accepted _) => x.fd = none
  | .ready (.read recvBuffer) =>
      x.toServer.head? = some recvBuffer ∨
        x.toServer = [] ∧ x.line = .exits ∧ recvBuffer = []

instance (x : Talk H) : ∀ inp, Decidable (x.Offers inp)
  | .select _ => inferInstanceAs (Decidable (_ ∧ _))
  | .next => isTrue trivial
  | .ready (.accepted _) => inferInstanceAs (Decidable (_ = _))
  | .ready (.read _) => inferInstanceAs (Decidable (_ ∨ _))

/-- The body of the loop has got the answer `a` and written `w`. -/
def handled (x : Talk H) (w : List (Sent StudentDetail)) : Answer → Talk H
  | .accepted newFD => { x with fd := some newFD }
  | .read _ => { x with toServer := x.toServer.tail, toClient := x.toClient ++ w }

/-- One step of the server. -/
def serve (x : Talk H) (inp : Input Answer) : Option (Talk H) :=
  if x.Offers inp then
    ((older H).machine x.server inp).map fun p =>
      match inp, p.1 with
      | .ready a, some (_, w) => handled { x with server := p.2 } w a
      | _, _ => { x with server := p.2 }
  else none

/-- One step of either side. -/
def step (x : Talk H) : Turn → Option (Talk H)
  | .server inp => x.serve inp
  | .client typed => x.client typed

/-- The states that can be reached, whatever the user types and however the
two take turns. -/
def Reaches : Talk H → Talk H → Prop :=
  Relation.ReflTransGen fun x y => ∃ turn, x.step turn = some y

/-- Both wait for a message of the other on an open connection with nothing
on its way: the server in `select`, the client in a read from the socket. -/
structure Deadlocked (x : Talk H) : Prop where
  toServer : x.toServer = []
  toClient : x.toClient = []
  connected : ∃ i, x.fd = some i ∧ i ∈ x.server.2.openFDs
  inSelect : x.server.1 = .top ∧ x.ready = ∅
  inRead : x.line = .read57 ∨ x.line = .read61 ∨ x.line = .recv77

end Talk

end CCodes.Older
