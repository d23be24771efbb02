/-
CCodes.Iterative.Servers — the servers that serve one client after the other:
`other/echo/echo_server.c`, `other/s2c_chat/s2c_chat_server.c` and
`other/upp_recv_server/upp_recv_server.c`.

    for (;;) {
      connfd = accept(listenfd, ...);
      while ((n = read(connfd, recvline, MAXLINE)) > 0) {
        recvline[n] = 0;
        ... write(connfd, ...); ...
      }
    }

The three differ in what a pass of the inner loop writes (`echo`, `s2cChat` and
`CCodes.Upper.serve`). None tests `connfd` or closes it. When `accept` fails,
`connfd` is -1, so `read` fails at once and the server accepts again. `socket`,
`bind` and `listen` succeed.
-/
import CCodes.Lib.Descriptors
import CCodes.Upper.UppRecvServer

namespace CCodes.Iterative

open CCodes.Lib CCodes.Upper

/-- Where the server is: before `accept`, or in the inner loop. -/
inductive Pc where
  | accept
  | serve (connfd : Option Nat)
  deriving DecidableEq

/-- The server. `vars` are the buffers that a pass of the inner loop uses, `log` is
what was read of each client, each piece with what was written for it. -/
structure Server (ρ ι : Type) where
  pc : Pc
  fds : Descriptors File
  vars : ρ
  accepted : Nat
  log : Nat → List (ι × List UInt8)

/-- What the next call answers: `accept`, or a `read` that gets something (`stop`
when it gets nothing, or fails). -/
inductive Input (ι : Type) where
  | accept
  | acceptFails
  | read (x : ι)
  | stop

/-- What a call reads. -/
def Input.piece {ι : Type} : Input ι → Option ι
  | .read x => some x
  | _ => none

/-- What some calls read, in order. -/
def reads {ι : Type} (is : List (Input ι)) : List ι := is.filterMap Input.piece

theorem reads_snoc {ι : Type} (is : List (Input ι)) (i : Input ι) :
    reads (is ++ [i]) = reads is ++ i.piece.toList := by
  rw [reads, List.filterMap_append]
  cases i <;> rfl

namespace Server

variable {ρ ι : Type}

/-- The server before its loop. -/
def start (limit : Nat) (inUse : Nat → Bool) (vars : ρ) : Option (Server ρ ι) :=
  ((inherit inUse).alloc limit .listening).map fun p =>
    { pc := .accept, fds := p.2, vars := vars, accepted := 0, log := fun _ => [] }

/-- One call. `serve connfd` is a pass of the inner loop. -/
def step (serve : Nat → Spec ρ ι (List UInt8)) (limit : Nat) :
    Machine (Server ρ ι) (Input ι) Unit := fun s e =>
  match e, s.pc with
  | .accept, .accept =>
      match s.fds.alloc limit (.client s.accepted) with
      | some (connfd, fds) =>
          some ((), { s with pc := .serve (some connfd), fds, accepted := s.accepted + 1 })
      | none => some ((), { s with pc := .serve none })
  | .acceptFails, .accept => some ((), { s with pc := .serve none })
  | .read x, .serve (some connfd) =>
      match s.fds connfd with
      | some (.client k) =>
          let (w, vars) := serve connfd s.vars x
          some ((), { s with vars, log := Function.update s.log k (s.log k ++ [(x, w)]) })
      | _ => none
  | .stop, .serve _ => some ((), { s with pc := .accept })
  | _, _ => none

end Server

/-! The passes of the inner loops. -/

/-- `echo_server.c`, lines 49-52. -/
def echo (_connfd : Nat) : Spec RecvLine Chunk (List UInt8) := fun recvline c =>
  let recvline := recvline.read c
  (recvline.bytes.take c.bytes.length, RecvLine.clear)

/-- The text in a `char[MAXLINE + 1]` that ends in it. -/
structure Word where
  text : List UInt8
  fits : text.length ≤ maxLine
  ended : 0 ∉ text

/-- `s2c_chat_server.c`, lines 50-55: the operator types a word of at most `MAXLINE`
bytes, the text that `scanf` leaves in `sendline`, or stdin has come to its end and
`sendline` keeps its text. A longer word runs over the array, and is not modelled. -/
def s2cChat (_connfd : Nat) : Spec Word (Chunk × Option Word) (List UInt8) := fun sendline x =>
  let sendline := x.2.getD sendline
  (sendline.text, sendline)

/-- `upp_recv_server.c`, lines 68-83: the bytes of `sb`. -/
def uppRecv (connfd : Nat) : Spec RecvLine Chunk (List UInt8) := fun recvline c =>
  let (reply, recvline) := serve (Int32.ofNat connfd) recvline c
  (reply.sb, recvline)

end CCodes.Iterative
