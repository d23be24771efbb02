/-
CCodes.Fork.Child — the child process of `other/other/server.c`.

The server forks for every client; the child serves it in a loop of its
own, with three counters and flags it got from `main` (0 in a flag means
that it is set). `search` and the type `StudentDetail` come from
`linked_list.h`, which is not in the repository; they are parameters here.
A text that is read is its bytes before the NUL that the child puts behind
them.
-/
import CCodes.Lib.Runs
import CCodes.Lib.CString

namespace CCodes.Fork

open CCodes.Lib

/-- `INT_MAX`. -/
def intMax : Nat := 2147483647

/-- The variables of the loop, and whether the loop goes on. -/
structure Child (StudentDetail : Type) where
  clientStudentDetail : StudentDetail
  clientRequestCount : Int32
  writeFlag : Int32
  thankYouFlag : Int32
  running : Bool

namespace Child

variable {StudentDetail : Type}

/-- The child after the `fork`; `clientStudentDetail` is not initialised. -/
def start (junk : StudentDetail) : Child StudentDetail where
  clientStudentDetail := junk
  clientRequestCount := 0
  writeFlag := 1
  thankYouFlag := 1
  running := true

/-- Lines 133-142: the first request brings the id; `none` is the `break`. -/
def lookUp (search : Int32 → Option StudentDetail) (c : Child StudentDetail)
    (recvBuffer : List UInt8) : Option (Child StudentDetail) :=
  if c.clientRequestCount = 0 then
    (search (atoi recvBuffer)).map fun d => { c with clientStudentDetail := d }
  else some c

/-- Lines 144-163. -/
def setFlags (c : Child StudentDetail) (recvBuffer : List UInt8) : Child StudentDetail :=
  let c := if c.clientRequestCount = 0 then { c with writeFlag := 0 } else c
  let c := if strncmp recvBuffer (bytes "thank_you") 9 = 0 then { c with thankYouFlag := 0 } else c
  if c.thankYouFlag = 0 ∧ strncmp recvBuffer (bytes "again") 5 = 0 then { c with writeFlag := 0 }
  else c

/-- Lines 165-176. -/
def writeDetail (c : Child StudentDetail) : List StudentDetail × Child StudentDetail :=
  if c.writeFlag = 0 then
    ([c.clientStudentDetail],
      { c with
        writeFlag := 1
        thankYouFlag := 1
        clientRequestCount := c.clientRequestCount + 1 })
  else ([], c)

/-- Lines 129-181: one pass of the loop on the text that was read, and the
records it wrote. -/
def step (search : Int32 → Option StudentDetail) :
    Machine (Child StudentDetail) (List UInt8) (List StudentDetail) := fun c recvBuffer =>
  if c.running then
    match c.lookUp search recvBuffer with
    | none => some ([], { c with running := false })
    | some c =>
        let p := (c.setFlags recvBuffer).writeDetail
        some (p.1, { p.2 with running := strncmp recvBuffer (bytes "quit") 4 ≠ 0 })
  else none

end Child

end CCodes.Fork
