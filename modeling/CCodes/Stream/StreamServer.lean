/-
CCodes.Stream.StreamServer — `main` of `other/streamserver/server.c`, lines 54-131,
with the processes it forks.

    newFD = accept(sockFD, ...);
    if (newFD == -1) continue;
    if (!fork()) {
      close(sockFD);
      send(newFD, "Hello, world!", 13, 0);
      close(newFD);
      exit(0);
    }
    close(newFD);

The processes run in any order, one call at a time. A client sees the end of its
connection when no process has a descriptor for it any more. `fork` may fail: -1 is
not 0, so the parent goes on and closes. A child may go away at any time (`die`):
by a signal, which is what a `send` to a client that left is answered with. The
handler of `SIGCHLD` only collects children that are gone, and `accept` is started
again behind it; it is not modelled. `listen` and `sigaction` succeed.
-/
import CCodes.Lib.CString
import CCodes.Lib.Runs
import CCodes.Stream.BindLoop

namespace CCodes.Stream

open CCodes.Lib

/-- Where the parent is: before line 106, 118 or 128. -/
inductive ParentPc where
  | accept
  | fork (newFD : Nat)
  | close (newFD : Nat)
  deriving DecidableEq

/-- Where a child is: before line 120, 121, 125 or 126. -/
inductive ChildPc where
  | closeSock
  | send
  | closeNew
  | exit
  deriving DecidableEq

/-- A child that runs. -/
structure Child where
  newFD : Nat
  fds : Descriptors File
  pc : ChildPc

/-- The parent, its children by the clients they were forked for, and what each
client was sent. `accepted` counts the clients. -/
structure StreamServer where
  sockFD : Nat
  pc : ParentPc
  fds : Descriptors File
  accepted : Nat
  children : Nat → Option Child
  received : Nat → List UInt8

/-- `"Hello, world!"`, 13 bytes. -/
def greeting : List UInt8 := bytes "Hello, world!"

/-- The next call of the parent, with its answer, or of the child of client `k`. -/
inductive Event where
  | accept
  | acceptFails
  | fork
  | forkFails
  | close
  | child (k : Nat)
  | die (k : Nat)
  deriving DecidableEq

namespace StreamServer

/-- The server before line 103, when a socket was bound. -/
def start {α : Type} (limit : Nat) (inUse : Nat → Bool) (servInfo : List (α × Answers)) :
    Option StreamServer :=
  match streamBind limit .listening servInfo (inherit inUse) with
  | (.bound _ sockFD, fds) =>
      some { sockFD, pc := .accept, fds, accepted := 0, children := fun _ => none,
             received := fun _ => [] }
  | _ => none

/-- The next call of a child. What it sends goes to the client that its
descriptor refers to. -/
def childStep (s : StreamServer) (k : Nat) (c : Child) : Option StreamServer :=
  let set (c : Option Child) := { s with children := Function.update s.children k c }
  match c.pc with
  | .closeSock => some (set (some { c with fds := c.fds.close s.sockFD, pc := .send }))
  | .send =>
      match c.fds c.newFD with
      | some (.client j) =>
          some { set (some { c with pc := .closeNew }) with
            received := Function.update s.received j (s.received j ++ greeting) }
      | _ => none
  | .closeNew => some (set (some { c with fds := c.fds.close c.newFD, pc := .exit }))
  | .exit => some (set none)

/-- One call of one process. `accept` fails when the parent has no descriptor
left. -/
def step (limit : Nat) : Machine StreamServer Event Unit := fun s e =>
  match e, s.pc with
  | .accept, .accept =>
      match s.fds.alloc limit (.client s.accepted) with
      | some (newFD, fds) =>
          some ((), { s with pc := .fork newFD, fds, accepted := s.accepted + 1 })
      | none => some ((), s)
  | .acceptFails, .accept => some ((), s)
  | .fork, .fork newFD =>
      let c : Child := { newFD, fds := s.fds, pc := .closeSock }
      some ((), { s with
        pc := .close newFD
        children := Function.update s.children (s.accepted - 1) (some c) })
  | .forkFails, .fork newFD => some ((), { s with pc := .close newFD })
  | .close, .close newFD => some ((), { s with pc := .accept, fds := s.fds.close newFD })
  | .child k, _ => (s.children k).bind fun c => (s.childStep k c).map fun t => ((), t)
  | .die k, _ =>
      (s.children k).map fun _ => ((), { s with children := Function.update s.children k none })
  | _, _ => none

/-- Some process has a descriptor for it. -/
def Open (s : StreamServer) (d : File) : Prop :=
  s.fds.Holds d ∨ ∃ k c, s.children k = some c ∧ c.fds.Holds d

end StreamServer

end CCodes.Stream
