/-
CCodes.Relay.SelectServer — `main` of `other/select/selectserver.c`.

Whatever a client sends is sent on to all other clients. The functions
follow the three branches of the body: lines 107-128 (`accept`), 134-143
(nothing received) and 147-159 (the broadcast). `relay` puts the body in
the `select` loop of `CCodes.Lib.SelectLoop`; its output is the calls of
`send`, in order. The bound `FD_SETSIZE` of the sets and an interrupted
`select` (`EINTR`) are not modelled.
-/
import CCodes.Lib.SelectLoop

namespace CCodes.Relay

open CCodes.Lib

/-- What the server holds, and the descriptors the system has open for it. -/
structure SelectServer where
  listenFD : Fd
  masterFDS : Finset Fd
  fdMax : Fd
  openFDs : Finset Fd

/-- What the system calls of the body answer: `accept` a descriptor or -1;
`recv` some bytes, at most `sizeof buf`, none of them when the client hung
up, or -1. -/
inductive Answer where
  | accept (newFD : Int)
  | recv (buf : List UInt8)
  | recvError
  deriving DecidableEq

/-- The arguments of a call of `send`. -/
abbrev Send := Fd × List UInt8

namespace SelectServer

/-- The server before the loop. -/
def init (listenFD : Fd) : SelectServer where
  listenFD := listenFD
  masterFDS := {listenFD}
  fdMax := listenFD
  openFDs := {listenFD}

/-- The system opens a descriptor for a connection, unless `accept` failed. -/
def accepted (s : SelectServer) (newFD : Int) : SelectServer :=
  if newFD = -1 then s else { s with openFDs := insert newFD s.openFDs }

/-- Lines 110-120. The test for a failed `accept` is a test for 1. -/
def register (s : SelectServer) (newFD : Int) : SelectServer :=
  if newFD = 1 then s
  else
    { s with
      masterFDS := insert newFD s.masterFDS
      fdMax := if newFD > s.fdMax then newFD else s.fdMax }

/-- Lines 107-128: the system gives any descriptor that is not open. -/
def handleAccept (s : SelectServer) : Answer → Option (List Send × SelectServer)
  | .accept newFD =>
      if newFD = -1 ∨ 0 ≤ newFD ∧ newFD ∉ s.openFDs then
        some ([], (s.accepted newFD).register newFD)
      else none
  | _ => none

/-- Lines 142-143. -/
def hangUp (s : SelectServer) (i : Fd) : SelectServer :=
  { s with openFDs := s.openFDs.erase i, masterFDS := s.masterFDS.erase i }

/-- Lines 149-157, for one `j`. -/
def sendTo (s : SelectServer) (i : Fd) (buf : List UInt8) (j : Fd) : List Send :=
  if j ∈ s.masterFDS then
    if j ≠ s.listenFD ∧ j ≠ i then [(j, buf)] else []
  else []

/-- Line 147: `for (j = 0; j <= fdMax; j++)`. -/
def broadcast (s : SelectServer) (i : Fd) (buf : List UInt8) : List Send :=
  (List.range (s.fdMax + 1).toNat).flatMap fun j : Nat => s.sendTo i buf (Int.ofNat j)

/-- Lines 132-160. -/
def handleClient (s : SelectServer) (i : Fd) : Answer → Option (List Send × SelectServer)
  | .recv buf =>
      if buf.length ≤ 256 then
        if buf = [] then some ([], s.hangUp i) else some (s.broadcast i buf, s)
      else none
  | .recvError => some ([], s.hangUp i)
  | .accept _ => none

/-- Lines 105-161: the body of the loop for a ready descriptor. -/
def body (s : SelectServer) (i : Fd) (a : Answer) : Option (List Send × SelectServer) :=
  if i = s.listenFD then s.handleAccept a else s.handleClient i a

end SelectServer

/-- The server. -/
def relay : SelectLoop SelectServer Answer (List Send) where
  masterFDs := SelectServer.masterFDS
  fdMax := SelectServer.fdMax
  openFDs := SelectServer.openFDs
  body := SelectServer.body

abbrev Event := Fd × Answer

end CCodes.Relay
