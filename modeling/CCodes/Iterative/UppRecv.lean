/-
CCodes.Iterative.UppRecv — `other/upp_recv_server/upp_recv_server.c` with its client,
`other/upp_recv_server/upp_recv_client.c`.

The client writes one line and reads once. The server answers each piece of the line
that it reads with a `struct send_buff` of its own, so the client is shown the first
piece, and of it what its one `read` got: the struct was cleared, so the text ends
there. All of the line is shown if it was not cut on either way.
-/
import CCodes.Iterative.Echo

namespace CCodes.Iterative

open CCodes.Lib CCodes.Upper

/-- What the client prints of `sb` (line 62). -/
structure Printed where
  line : List UInt8
  fd : Int32
  size : Int32
  deriving DecidableEq

/-- Lines 55-63, when `read` gave the bytes `r`, one at least. `none` is a text that
goes on behind the struct. -/
def printed (r : List UInt8) : Option Printed :=
  let sb := fill sizeofBuffer r
  if 0 ∈ sb then some ⟨cstr sb, (Buffer.ofBytes sb).fd, (Buffer.ofBytes sb).size⟩ else none

/-! ## §1 The line -/

theorem length_fgets_le : ∀ (n : Nat) (typed : List UInt8), (fgets n typed).length ≤ n
  | 0, _ => Nat.le_refl 0
  | n + 1, [] => Nat.zero_le _
  | n + 1, c :: cs => by
      rw [fgets]
      split
      · exact Nat.succ_le_succ (Nat.zero_le n)
      · exact Nat.succ_le_succ (length_fgets_le n cs)

theorem length_sendLine_lt (typed : List UInt8) : (sendLine typed).length < maxLine := by
  have hle : (sendLine typed).length ≤ maxLine - 1 :=
    (List.takeWhile_sublist _).length_le.trans (length_fgets_le _ _)
  exact Nat.lt_of_le_of_lt hle (by decide)

/-- A piece of a line is a text of its own, and fits. -/
theorem piece_of_line {c : Chunk} {typed : List UInt8} (h : c.bytes <+: sendLine typed) :
    c.Fits ∧ c.upperText = c.bytes.map toupper := by
  have htext : cstr c.bytes = c.bytes := by
    have h0 : 0 ∉ c.bytes := fun h0 => zero_notMem_cstr _ (h.subset h0)
    simpa [cstr] using cstr_append_of_notMem h0 []
  refine ⟨?_, by rw [Chunk.upperText, htext]⟩
  rw [Chunk.Fits, htext]
  exact h.length_le.trans_lt (length_sendLine_lt typed)

/-! ## §2 One read -/

/-- A text that ends inside what was sent, read in part into a cleared buffer. -/
theorem fill_take {text : List UInt8} (tail : List UInt8) (n : Nat) {size : Nat}
    (h : text.length < size) :
    ∃ rest, fill size ((text ++ 0 :: tail).take n) = text.take n ++ 0 :: rest := by
  rcases Nat.lt_or_ge text.length n with hn | hn
  · obtain ⟨m, rfl⟩ : ∃ m, n = text.length + (m + 1) := ⟨n - text.length - 1, by omega⟩
    have htext : text.take (text.length + (m + 1)) = text :=
      List.take_of_length_le (Nat.le_add_right ..)
    rw [htext, List.take_length_add_append, List.take_succ_cons, fill, List.append_assoc,
      List.cons_append]
    exact ⟨_, rfl⟩
  · obtain ⟨m, hm⟩ : ∃ m, size - n = m + 1 := ⟨size - n - 1, by omega⟩
    rw [List.take_append_of_le_length hn, fill, List.length_take, Nat.min_eq_left hn, hm,
      List.replicate_succ]
    exact ⟨_, rfl⟩

/-- What is printed of the reply to a piece of a line. -/
theorem printed_reply (connfd : Int32) (recvline : RecvLine) {c : Chunk} {typed : List UInt8}
    (h : c.bytes <+: sendLine typed) (n : Nat) :
    ∃ p, printed ((serve connfd recvline c).1.sb.take n) = some p ∧
      p.line = (c.bytes.take n).map toupper ∧
      (n = sizeofBuffer → p.fd = connfd ∧ p.size = Int32.ofNat c.bytes.length) := by
  obtain ⟨hfits, htext⟩ := piece_of_line h
  have hwell := (wellFormed_iff connfd recvline c).mpr hfits
  have hlen : c.upperText.length < maxLine := (fits_iff c).mp hfits
  obtain ⟨k, hk⟩ : ∃ k, maxLine - c.upperText.length = k + 1 :=
    ⟨maxLine - c.upperText.length - 1, by omega⟩
  -- the text, its NUL, and the rest of the struct
  have hsb : ∃ tail, (serve connfd recvline c).1.sb = c.upperText ++ 0 :: tail := by
    rw [serve_sb connfd recvline hfits, charArray, fill, hk, List.replicate_succ, List.append_assoc,
      List.append_assoc, List.cons_append]
    exact ⟨_, rfl⟩
  obtain ⟨tail, hsb⟩ := hsb
  obtain ⟨rest, hfill⟩ := fill_take tail n
    (hlen.trans (by decide : maxLine < sizeofBuffer))
  rw [← hsb] at hfill
  have hline : cstr (c.upperText.take n ++ 0 :: rest) = (c.bytes.take n).map toupper := by
    have h0 : 0 ∉ c.upperText.take n := fun h0 =>
      zero_notMem_upperText c (List.mem_of_mem_take h0)
    rw [cstr_append_of_notMem h0, cstr_zero_cons, List.append_nil, htext, List.map_take]
  refine ⟨_, if_pos ?_, ?_, ?_⟩
  · rw [hfill]
    exact List.mem_append_right _ List.mem_cons_self
  · rw [hfill, hline]
  · rintro rfl
    rw [List.take_of_length_le hwell.whole.le, fill_of_length hwell.whole, hwell.buffer]
    exact ⟨rfl, rfl⟩

/-! ## §3 The server and a client -/

/-- **The line in upper case.** In every run of the server, for a client that wrote
the line it typed and whose `read` got at most one struct: the client prints, in upper
case, what its `read` got of the first piece of the line that the server read. This is
the line if and only if the server read the line in one piece and the client read to
the end of the text. When it read the whole struct, it prints its descriptor at the
server, and the length of the piece. -/
theorem upper_round_trip (limit : Nat) (inUse : Nat → Bool) (recvline : RecvLine)
    (s₀ : Server RecvLine Chunk) (h₀ : Server.start limit inUse recvline = some s₀)
    (tr : List (Input Chunk × Unit)) (s : Server RecvLine Chunk)
    (h : Exec (Server.step uppRecv limit) (fun _ _ => True) s₀ tr s) (k : Nat)
    (typed : List UInt8) (hsent : s.bytesRead k <+: sendLine typed) (r : List UInt8) (hr : r ≠ [])
    (hrecv : r <+: s.bytesSent k) (hlen : r.length ≤ sizeofBuffer) :
    ∃ c rest connfd p, (s.log k).map Prod.fst = c :: rest ∧
      s.fds connfd = some (.client k) ∧ printed r = some p ∧
      p.line = (c.bytes.take r.length).map toupper ∧
      (p.line = (sendLine typed).map toupper ↔
        c.bytes = sendLine typed ∧ (sendLine typed).length ≤ r.length) ∧
      (r.length = sizeofBuffer →
        p.fd = Int32.ofNat connfd ∧ p.size = Int32.ofNat c.bytes.length) := by
  have hinv := (Server.Inv.start uppRecv h₀).run h
  have hne : s.log k ≠ [] := by
    intro hnil
    rw [Server.bytesSent, hnil] at hrecv
    exact hr (List.prefix_nil.mp hrecv)
  have hk : k < s.accepted := by
    by_contra hk
    exact hne (hinv.fresh k (Nat.not_lt.mp hk))
  obtain ⟨connfd, vars, vars', hfd, hans⟩ := hinv.answered hk
  obtain ⟨⟨c, w⟩, rest, hlog⟩ := List.exists_cons_of_ne_nil hne
  rw [hlog] at hans
  have hw : w = (serve (Int32.ofNat connfd) vars c).1.sb :=
    (List.cons.inj (congrArg Prod.fst hans)).1.symm
  have hpiece : c.bytes <+: sendLine typed := by
    rw [Server.bytesRead, hlog, List.flatMap_cons] at hsent
    exact (List.prefix_append _ _).trans hsent
  have hwlen : w.length = sizeofBuffer := by
    rw [hw]
    exact ((wellFormed_iff _ vars c).mpr (piece_of_line hpiece).1).whole
  have hrw : r = w.take r.length := by
    rw [Server.bytesSent, hlog, List.flatMap_cons] at hrecv
    have htake := List.prefix_iff_eq_take.mp hrecv
    rwa [List.take_append_of_le_length (hlen.trans hwlen.ge)] at htake
  obtain ⟨p, hp, hline, hwhole⟩ := printed_reply (Int32.ofNat connfd) vars hpiece r.length
  rw [← hw, ← hrw] at hp
  refine ⟨c, rest.map Prod.fst, connfd, p, by rw [hlog, List.map_cons], hfd, hp, hline, ?_, hwhole⟩
  rw [hline]
  constructor
  · intro heq
    have hmin := congrArg List.length heq
    rw [List.length_map, List.length_map, List.length_take] at hmin
    have hle := hpiece.length_le
    exact ⟨hpiece.eq_of_length (by omega), by omega⟩
  · rintro ⟨heq, hle⟩
    rw [heq, List.take_of_length_le hle]

/-- The line is read in two pieces, and the client is shown the first. -/
theorem upper_round_trip_in_pieces : ∃ s₀ tr s p, Server.roomForOne = some s₀ ∧
    Exec (Server.step uppRecv 5) (fun _ _ => True) s₀ tr s ∧
      tr.map Prod.fst = Server.inPieces ∧
      printed ((s.bytesSent 0).take sizeofBuffer) = some p ∧ p.line = bytes "GOOD" ∧
      p.size = 4 ∧ p.line ≠ (sendLine (bytes "good day" ++ [10])).map toupper := by
  obtain ⟨s₀, h₀⟩ := Option.isSome_iff_exists.mp Server.roomForOne_isSome
  obtain rfl : s₀ = Server.roomForOne.get Server.roomForOne_isSome := by simp [h₀]
  obtain ⟨tr, s, h, hin, hread, hsent, hlog⟩ := exec_such_that (Server.step uppRecv 5)
    (fun _ _ => True) (Server.roomForOne.get Server.roomForOne_isSome) Server.inPieces
    (fun p => p.2.bytesRead 0 = sendLine (bytes "good day" ++ [10]) ∧
      ((p.2.bytesSent 0).take sizeofBuffer).length = sizeofBuffer ∧
      ((p.2.log 0).map Prod.fst).map Chunk.bytes = [bytes "good", bytes " day" ++ [10]])
    (by decide +kernel)
  have hne : (s.bytesSent 0).take sizeofBuffer ≠ [] := by
    intro hnil
    rw [hnil] at hsent
    cases hsent
  obtain ⟨c, rest, connfd, p, hfst, -, hp, hline, hwhole, hsize⟩ := upper_round_trip 5 (· < 3)
    RecvLine.clear _ h₀ tr s h 0 (bytes "good day" ++ [10]) (hread ▸ List.prefix_refl _) _ hne
    (List.take_prefix _ _) hsent.le
  rw [hfst, List.map_cons, List.cons.injEq] at hlog
  rw [hlog.1, hsent] at hline
  rw [hlog.1] at hwhole hsize
  refine ⟨_, tr, s, p, h₀, h, hin, hp, hline.trans (by decide +kernel), (hsize hsent).2, ?_⟩
  exact fun heq => absurd (hwhole.mp heq).1 (by decide +kernel)

end CCodes.Iterative
