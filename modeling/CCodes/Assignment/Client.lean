/-
CCodes.Assignment.Client — the loop of `assignment/client.c`.

One pass reads either from stdin or from the socket. `writeBuff` is kept
from one pass to the next, and is compared with "quit" before the new bytes
are ended with a NUL. When `Read` gives 0 for stdin it also closes it, so
the next `select` fails and the client leaves after that pass.
-/
import CCodes.Assignment.Records

namespace CCodes.Assignment

open CCodes.Lib

/-- What a client holds: `char writeBuff[50]`, and whether it still runs. -/
structure Client where
  writeBuff : List UInt8
  running : Bool

namespace Client

/-- Lines 60-64: the first message is the id from the command line. -/
def start (clientId writeBuff : List UInt8) : List Message × Client :=
  ([.ofText clientId], { writeBuff := writeBuff, running := true })

/-- Lines 78-91. `chunk` is what `Read(0, writeBuff, 50)` got, at most 50
bytes; for 50 the NUL goes to the byte behind the array, which is not
modelled. -/
def handleStdin (c : Client) (chunk : List UInt8) : List Message × Client :=
  let nBytes := chunk.length
  let writeBuff := chunk ++ c.writeBuff.drop nBytes
  if strncmp writeBuff (bytes "quit") 4 = 0 then
    ([], { writeBuff := writeBuff, running := false })
  else
    let writeBuff := writeBuff.set nBytes 0
    ([.ofText (cstr (writeBuff.take nBytes))],
      { writeBuff := writeBuff, running := nBytes ≠ 0 })

/-- Lines 98-124, for the message `res` that was read. -/
def handleSocket (c : Client) (res : Message) : List Message × Client :=
  if res.isBuffer ∧ res.saysNotFound then
    ([], { c with running := false })
  else if res.isDetail then
    ([.ofText (bytes "thank_you")], c)
  else
    ([], c)

/-- The text that is sent is the chunk, up to its first NUL. -/
theorem take_set_chunk (c : Client) (chunk : List UInt8) :
    ((chunk ++ c.writeBuff.drop chunk.length).set chunk.length 0).take chunk.length = chunk := by
  rw [List.take_set_of_le (le_refl _), List.take_left']
  rfl

theorem handleStdin_eq (c : Client) (chunk : List UInt8) :
    (c.handleStdin chunk).1 = [] ∧ (c.handleStdin chunk).2.running = false ∨
      (c.handleStdin chunk).1 = [.ofText (cstr chunk)] := by
  unfold handleStdin
  dsimp only
  split
  · exact .inl ⟨rfl, rfl⟩
  · rw [take_set_chunk]
    exact .inr rfl

end Client

end CCodes.Assignment
