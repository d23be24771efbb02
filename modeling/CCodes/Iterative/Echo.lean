/-
CCodes.Iterative.Echo — `other/echo/echo_server.c` and `other/echo/echo_client.c`.

The server writes back what it read, however the bytes were cut. The client prints
what one `recv` gave it as a text, and `recvline` was never cleared: behind the bytes
that came is what was in the buffer before. So the client prints the line that was
typed only by luck.
-/
import CCodes.Iterative.ServersTheorems

namespace CCodes.Iterative

open CCodes.Lib CCodes.Upper

/-! ## §1 The server -/

/-- A pass of the inner loop writes what it read. -/
theorem echo_chunk (connfd : Nat) (recvline : RecvLine) (c : Chunk) :
    (echo connfd recvline c).1 = c.bytes := by
  show ((c.bytes ++ recvline.bytes.drop c.bytes.length).set c.bytes.length 0).take _ = _
  rw [List.take_set_of_le (le_refl _), List.take_left']
  rfl

theorem echo_run (connfd : Nat) (recvline : RecvLine) (cs : List Chunk) :
    ((echo connfd).run recvline cs).1 = cs.map Chunk.bytes := by
  induction cs generalizing recvline with
  | nil => rfl
  | cons c cs ih => rw [Spec.run, ih, echo_chunk, List.map_cons]

namespace Server

variable {limit : Nat} {inUse : Nat → Bool} {recvline : RecvLine}
  {s₀ s : Server RecvLine Chunk} {tr : List (Input Chunk × Unit)}

/-- The bytes that were read of client `k`, and those it was sent. -/
def bytesRead (s : Server RecvLine Chunk) (k : Nat) : List UInt8 :=
  (s.log k).flatMap fun p => p.1.bytes

def bytesSent (s : Server RecvLine Chunk) (k : Nat) : List UInt8 :=
  (s.log k).flatMap Prod.snd

/-- A client is sent its own bytes. -/
theorem log_echo (h₀ : start limit inUse recvline = some s₀)
    (h : Exec (step echo limit) (fun _ _ => True) s₀ tr s) (k : Nat) :
    (s.log k).map Prod.snd = (s.log k).map fun p => p.1.bytes := by
  have hinv := (Inv.start echo h₀).run h
  by_cases hk : k < s.accepted
  · obtain ⟨connfd, r, vars, -, hans⟩ := hinv.answered hk
    rw [← show _ = (s.log k).map Prod.snd from congrArg Prod.fst hans, echo_run, List.map_map]
    rfl
  · rw [hinv.fresh k (Nat.not_lt.mp hk)]
    rfl

theorem bytesSent_eq (h₀ : start limit inUse recvline = some s₀)
    (h : Exec (step echo limit) (fun _ _ => True) s₀ tr s) (k : Nat) :
    s.bytesSent k = s.bytesRead k := by
  rw [bytesSent, bytesRead, List.flatMap_def, List.flatMap_def, log_echo h₀ h]

end Server

/-! ## §2 The client -/

/-- What `fgets(sendline, MAXLINE, stdin)` gets: at most `MAXLINE - 1` bytes, the
first newline the last of them. -/
def fgets : Nat → List UInt8 → List UInt8
  | 0, _ => []
  | _, [] => []
  | n + 1, c :: cs => if c = 10 then [c] else c :: fgets n cs

/-- Line 45: what the client writes of what is typed. -/
def sendLine (typed : List UInt8) : List UInt8 := cstr (fgets (maxLine - 1) typed)

/-- Lines 47-52: what the client prints when `recv` gave it `r`, with `recvline` as it
was before. `none` is a text that goes on behind the array. -/
def received (recvline : RecvLine) (r : List UInt8) : Option (List UInt8) :=
  if r = [] then some (bytes "error")
  else
    let recvline := r ++ recvline.bytes.drop r.length
    if 0 ∈ recvline then some (bytes "Received from server: " ++ cstr recvline) else none

/-- What is printed of a line that came whole or in part. -/
theorem received_eq_iff {recvline : RecvLine} {r line : List UInt8} (hr : r ≠ [])
    (hpre : r <+: line) (hline : 0 ∉ line) :
    received recvline r = some (bytes "Received from server: " ++ line) ↔
      0 ∈ recvline.bytes.drop r.length ∧
        cstr (recvline.bytes.drop r.length) = line.drop r.length := by
  obtain ⟨rest, rfl⟩ := hpre
  have hr0 : 0 ∉ r := fun h0 => hline (List.mem_append_left _ h0)
  have hmem : 0 ∈ r ++ recvline.bytes.drop r.length ↔ 0 ∈ recvline.bytes.drop r.length := by
    rw [List.mem_append, or_iff_right hr0]
  rw [received, if_neg hr, List.drop_left]
  dsimp only
  by_cases h0 : 0 ∈ recvline.bytes.drop r.length
  · rw [if_pos (hmem.mpr h0), cstr_append_of_notMem hr0, Option.some.injEq,
      List.append_cancel_left_eq, List.append_cancel_left_eq, and_iff_right h0]
  · rw [if_neg (mt hmem.mp h0)]
    exact iff_of_false nofun fun h => h0 h.1

/-! ## §3 The server and a client -/

/-- **The round trip.** In every run of the server each client was sent exactly the
bytes that were read of it. So what a client gets is a first part of the line that it
sent; it prints the line if and only if the bytes that happened to be in `recvline`
behind it are the rest of the line, and its NUL. When the whole line came, this is a
NUL right behind it. -/
theorem round_trip (limit : Nat) (inUse : Nat → Bool) (recvline : RecvLine)
    (s₀ : Server RecvLine Chunk) (h₀ : Server.start limit inUse recvline = some s₀)
    (tr : List (Input Chunk × Unit)) (s : Server RecvLine Chunk)
    (h : Exec (Server.step echo limit) (fun _ _ => True) s₀ tr s) :
    (∀ k, s.bytesSent k = s.bytesRead k) ∧
    ∀ k (typed r : List UInt8) (recvline' : RecvLine), s.bytesRead k <+: sendLine typed →
      r ≠ [] → r <+: s.bytesSent k → r <+: sendLine typed ∧
        (received recvline' r = some (bytes "Received from server: " ++ sendLine typed) ↔
          0 ∈ recvline'.bytes.drop r.length ∧
            cstr (recvline'.bytes.drop r.length) = (sendLine typed).drop r.length) := by
  have hecho := Server.bytesSent_eq h₀ h
  refine ⟨hecho, fun k typed r recvline' hsent hr hrecv => ?_⟩
  have hpre : r <+: sendLine typed := (hecho k ▸ hrecv).trans hsent
  exact ⟨hpre, received_eq_iff hr hpre (zero_notMem_cstr _)⟩

/-- The line comes back, and is printed from a buffer that was cleared. -/
theorem round_trip_in_pieces : ∃ s₀ tr s, Server.roomForOne = some s₀ ∧
    Exec (Server.step echo 5) (fun _ _ => True) s₀ tr s ∧ tr.map Prod.fst = Server.inPieces ∧
      s.bytesSent 0 = bytes "good day" ++ [10] ∧
      received RecvLine.clear (s.bytesSent 0) =
        some (bytes "Received from server: " ++ (bytes "good day" ++ [10])) := by
  obtain ⟨s₀, h₀⟩ := Option.isSome_iff_exists.mp Server.roomForOne_isSome
  obtain rfl : s₀ = Server.roomForOne.get Server.roomForOne_isSome := by simp [h₀]
  obtain ⟨tr, s, h, hin, hsent, hread⟩ := exec_such_that (Server.step echo 5) (fun _ _ => True)
    (Server.roomForOne.get Server.roomForOne_isSome) Server.inPieces
    (fun p => p.2.bytesSent 0 = bytes "good day" ++ [10] ∧
      p.2.bytesRead 0 = sendLine (bytes "good day" ++ [10])) (by decide +kernel)
  have hline : bytes "good day" ++ [10] = sendLine (bytes "good day" ++ [10]) := by decide +kernel
  obtain ⟨-, hclient⟩ := round_trip 5 (· < 3) RecvLine.clear _ h₀ tr s h
  obtain ⟨-, hprinted⟩ := hclient 0 (bytes "good day" ++ [10]) (s.bytesSent 0) RecvLine.clear
    (hread ▸ List.prefix_refl _) (by rw [hsent]; decide) (List.prefix_refl _)
  refine ⟨_, tr, s, h₀, h, hin, hsent, ?_⟩
  rw [← hline] at hprinted
  refine hprinted.mpr ?_
  rw [hsent]
  decide +kernel

end CCodes.Iterative
