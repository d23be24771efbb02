/-
CCodes.Fork.Parent — `main` of `other/other/server.c`, lines 87-188: the parent, and
the children it forks.

    clientFD = Accept(sockFD, ...);
    if ((pid = Fork()) == 0) {
      close(sockFD);
      while (1) { ... }
      close(clientFD);
      exit(0);
    }

The loop of a child is `CCodes.Fork.Child`. The parent never closes `clientFD`. Nor
does it test it: when `accept` fails it is -1, and the parent forks all the same. A
child without a client reads from -1, and puts a NUL in front of its buffer, which is
undefined; such children are counted (`strays`), and what they do is not modelled.
When `fork` fails the parent leaves (line 27).

The processes run in any order. What a child reads is a text as in
`CCodes.Fork.Child`, an empty one at the end of the stream. A `read` that fails, which
puts a NUL in front of the buffer, is left out: the results are about runs in which
none does.
-/
import CCodes.Lib.Descriptors
import CCodes.Fork.Child

namespace CCodes.Fork

open CCodes.Lib

/-- Where the parent is: before line 111 or 123, or gone. -/
inductive ParentPc where
  | accept
  | fork (clientFD : Option Nat)
  | gone
  deriving DecidableEq

/-- Where a child is: before line 125, in the loop, or before line 185 or 186. -/
inductive ChildPc where
  | closeSock
  | loop
  | closeClient
  | exit
  deriving DecidableEq

/-- A child that runs: its descriptors, and its copy of the variables of `main`. -/
structure ChildProcess (StudentDetail : Type) where
  clientFD : Nat
  fds : Descriptors File
  pc : ChildPc
  vars : Child StudentDetail

/-- The parent, and its children by the clients they were forked for. `accepted`
counts the clients, `strays` the children without one; `log` is what each client's
child read, each text with the records that it wrote on the client's connection. -/
structure ForkServer (StudentDetail : Type) where
  sockFD : Nat
  pc : ParentPc
  fds : Descriptors File
  vars : Child StudentDetail
  accepted : Nat
  strays : Nat
  children : Nat → Option (ChildProcess StudentDetail)
  log : Nat → List (List UInt8 × List StudentDetail)

/-- The next call of the parent, with its answer; or of the child of client `k`,
which reads `recvBuffer` in its loop. -/
inductive ForkEvent where
  | accept
  | acceptFails
  | fork
  | forkFails
  | child (k : Nat)
  | text (k : Nat) (recvBuffer : List UInt8)
  | die (k : Nat)
  deriving DecidableEq

namespace ForkServer

variable {StudentDetail : Type}

/-- The server before line 106, when it made its socket; `clientStudentDetail` is
not initialised. -/
def start (limit : Nat) (inUse : Nat → Bool) (junk : StudentDetail) :
    Option (ForkServer StudentDetail) :=
  ((inherit inUse).alloc limit .listening).map fun p =>
    { sockFD := p.1, pc := .accept, fds := p.2, vars := .start junk, accepted := 0, strays := 0,
      children := fun _ => none, log := fun _ => [] }

/-- The child of client `k` goes on as `c`. -/
def setChild (s : ForkServer StudentDetail) (k : Nat) (c : Option (ChildProcess StudentDetail)) :
    ForkServer StudentDetail :=
  { s with children := Function.update s.children k c }

/-- A call of a child outside its loop. -/
def childStep (s : ForkServer StudentDetail) (k : Nat) (c : ChildProcess StudentDetail) :
    Option (ForkServer StudentDetail) :=
  match c.pc with
  | .closeSock => some (s.setChild k (some { c with fds := c.fds.close s.sockFD, pc := .loop }))
  | .loop => none
  | .closeClient => some (s.setChild k (some { c with fds := c.fds.close c.clientFD, pc := .exit }))
  | .exit => some (s.setChild k none)

/-- A pass of a child's loop. What it reads and writes is on the connection that its
descriptor refers to. -/
def textStep (search : Int32 → Option StudentDetail) (s : ForkServer StudentDetail) (k : Nat)
    (recvBuffer : List UInt8) (c : ChildProcess StudentDetail) :
    Option (ForkServer StudentDetail) :=
  match c.pc, c.fds c.clientFD with
  | .loop, some (.client j) => do
      let (w, vars) ← Child.step search c.vars recvBuffer
      let pc := if vars.running then .loop else .closeClient
      pure { s.setChild k (some { c with vars, pc }) with
        log := Function.update s.log j (s.log j ++ [(recvBuffer, w)]) }
  | _, _ => none

/-- One call of one process. `accept` fails when the parent has no descriptor
left. -/
def step (search : Int32 → Option StudentDetail) (limit : Nat) :
    Machine (ForkServer StudentDetail) ForkEvent Unit := fun s e =>
  match e, s.pc with
  | .accept, .accept =>
      match s.fds.alloc limit (.client s.accepted) with
      | some (clientFD, fds) =>
          some ((), { s with pc := .fork (some clientFD), fds, accepted := s.accepted + 1 })
      | none => some ((), { s with pc := .fork none })
  | .acceptFails, .accept => some ((), { s with pc := .fork none })
  | .fork, .fork (some clientFD) =>
      let c := { clientFD, fds := s.fds, pc := .closeSock, vars := s.vars }
      some ((), { s.setChild (s.accepted - 1) (some c) with pc := .accept })
  | .fork, .fork none => some ((), { s with pc := .accept, strays := s.strays + 1 })
  | .forkFails, .fork _ => some ((), { s with pc := .gone, fds := fun _ => none })
  | .child k, _ => (s.children k).bind fun c => (s.childStep k c).map fun t => ((), t)
  | .text k recvBuffer, _ =>
      (s.children k).bind fun c => (s.textStep search k recvBuffer c).map fun t => ((), t)
  | .die k, _ => (s.children k).map fun _ => ((), s.setChild k none)
  | _, _ => none

/-- Some process that is modelled has a descriptor for it. -/
def Open (s : ForkServer StudentDetail) (d : File) : Prop :=
  s.fds.Holds d ∨ ∃ k c, s.children k = some c ∧ c.fds.Holds d

end ForkServer

end CCodes.Fork
