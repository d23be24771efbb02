/-
CCodes.Iterative.Chat — `other/s2c_chat/s2c_chat_server.c`, whose client
`other/s2c_chat/s2c_chat_client.c` is the echo server's.

The operator types a word for each piece that is read of a client. There is one
`sendline` for all clients, and the result of `scanf` is not tested: when stdin has
come to its end, the word typed last goes to whoever writes next.
-/
import CCodes.Iterative.Echo

namespace CCodes.Iterative

open CCodes.Lib CCodes.Upper

/-- A client's piece, and the word that the operator typed for it, if any. -/
abbrev Talk := Chunk × Option Word

/-- `sendline` after some pieces: the word typed last. -/
def lastWord (sendline : Word) (xs : List Talk) : Word :=
  xs.foldl (fun sendline x => x.2.getD sendline) sendline

theorem lastWord_snoc (sendline : Word) (xs : List Talk) (x : Talk) :
    lastWord sendline (xs ++ [x]) = x.2.getD (lastWord sendline xs) := by
  rw [lastWord, List.foldl_append]
  rfl

/-- When nothing more is typed. -/
theorem lastWord_silent {sendline : Word} {xs : List Talk} (h : ∀ x ∈ xs, x.2 = none) :
    lastWord sendline xs = sendline := by
  induction xs with
  | nil => rfl
  | cons x xs ih =>
    rw [lastWord, List.foldl_cons, h x List.mem_cons_self]
    exact ih fun y hy => h y (List.mem_cons_of_mem _ hy)

/-- The pieces `xs`, each with the word typed last, up to and with this piece. -/
def replies (sendline : Word) (xs : List Talk) : List (Talk × List UInt8) :=
  xs.mapIdx fun j x => (x, (lastWord sendline (xs.take (j + 1))).text)

theorem replies_snoc (sendline : Word) (xs : List Talk) (x : Talk) :
    replies sendline (xs ++ [x]) =
      replies sendline xs ++ [(x, (x.2.getD (lastWord sendline xs)).text)] := by
  have hlast : (xs ++ [x]).take (xs.length + 1) = xs ++ [x] := by
    rw [List.take_of_length_le (by simp)]
  rw [replies, List.mapIdx_concat, hlast, lastWord_snoc, replies]
  refine congrArg (· ++ _) (List.mapIdx_eq_mapIdx_iff.mpr fun j hj => ?_)
  rw [List.take_append_of_le_length (Nat.succ_le_of_lt hj)]

/-- Every piece gets the same word. -/
theorem replies_silent {sendline : Word} {xs : List Talk} (h : ∀ x ∈ xs, x.2 = none) :
    replies sendline xs = xs.map fun x => (x, sendline.text) := by
  refine List.mapIdx_eq_iff.mpr fun j => ?_
  rw [lastWord_silent fun x hx => h x (List.mem_of_mem_take hx), List.getElem?_map]

namespace Server

variable {limit n₀ : Nat} {sendline : Word} {s s' : Server Word Talk}
  {tr : List (Input Talk × Unit)}

/-- What a run reads is answered with the words typed last. -/
theorem run_chat {ok : Server Word Talk → Input Talk → Prop}
    (h₀ : s.Inv s2cChat limit n₀ sendline) (h : Exec (step s2cChat limit) ok s tr s') :
    s'.vars = lastWord s.vars (reads (tr.map Prod.fst)) ∧
      s'.told = s.told ++ replies s.vars (reads (tr.map Prod.fst)) := by
  induction h with
  | nil => exact ⟨rfl, (List.append_nil _).symm⟩
  | @snoc tr t t' e o hrun _ hstep ih =>
    obtain ⟨hvars, htold⟩ := ih
    rw [List.map_append, List.map_singleton, reads_snoc]
    rcases (h₀.run hrun).told_does (does_of_step hstep) with
      ⟨connfd, x, rfl, htold', hvars'⟩ | ⟨hpiece, htold', hvars'⟩
    · rw [show (Input.read x).piece.toList = [x] from rfl, lastWord_snoc, replies_snoc, ← hvars,
        ← List.append_assoc, ← htold]
      exact ⟨hvars', htold'⟩
    · rw [hpiece, Option.toList_none, List.append_nil]
      exact ⟨hvars'.trans hvars, htold'.trans htold⟩

/-- What a client was sent are texts. -/
theorem zero_notMem_log (hinv : s.Inv s2cChat limit n₀ sendline) {xs : List Talk}
    (htold : s.told = replies sendline xs) (k : Nat) : ∀ p ∈ s.log k, 0 ∉ p.2 := by
  intro p hp
  have hk : k < s.accepted := by
    by_contra hk
    rw [hinv.fresh k (Nat.not_lt.mp hk)] at hp
    cases hp
  have hmem : p ∈ s.told := List.mem_flatMap.mpr ⟨k, List.mem_range.mpr hk, hp⟩
  rw [htold, replies, List.mem_mapIdx] at hmem
  obtain ⟨j, _, rfl⟩ := hmem
  exact Word.ended _

end Server

/-- The bytes that client `k` of the chat was sent. -/
def chatSent (s : Server Word Talk) (k : Nat) : List UInt8 := (s.log k).flatMap Prod.snd

/-- **The chat.** Let `sendline` be the text that is in the array at first. In every
run, whoever the clients: what was read of them is answered in order, each piece with
the word that was typed last, up to and with this piece. Once stdin has come to its
end, every further piece gets the same word, also of another client than it was typed
for. What a client gets is a first part of the words it was sent; it prints them if and
only if the bytes that happened to be in `recvline` behind that part are the rest of
them, and a NUL. -/
theorem chat (limit : Nat) (inUse : Nat → Bool) (sendline : Word)
    (s₀ : Server Word Talk) (h₀ : Server.start limit inUse sendline = some s₀)
    (tr : List (Input Talk × Unit)) (s : Server Word Talk)
    (h : Exec (Server.step s2cChat limit) (fun _ _ => True) s₀ tr s) :
    let xs := reads (tr.map Prod.fst)
    s.told = (xs.mapIdx fun j x => (x, (lastWord sendline (xs.take (j + 1))).text)) ∧
    (∀ tr' s', Exec (Server.step s2cChat limit) (fun _ _ => True) s tr' s' →
      (∀ x ∈ reads (tr'.map Prod.fst), x.2 = none) →
      s'.told = s.told ++
        (reads (tr'.map Prod.fst)).map fun x => (x, (lastWord sendline xs).text)) ∧
    ∀ k (r : List UInt8) (recvline : RecvLine), r ≠ [] → r <+: chatSent s k →
      (received recvline r = some (bytes "Received from server: " ++ chatSent s k) ↔
        0 ∈ recvline.bytes.drop r.length ∧
          cstr (recvline.bytes.drop r.length) = (chatSent s k).drop r.length) := by
  intro xs
  have hinv₀ := Server.Inv.start s2cChat h₀
  have hinv := hinv₀.run h
  obtain ⟨hvars, htold⟩ := Server.run_chat hinv₀ h
  rw [Server.told_start h₀, List.nil_append, Server.vars_start h₀] at htold
  rw [Server.vars_start h₀] at hvars
  refine ⟨htold, fun tr' s' h' hsilent => ?_, fun k r recvline hr hpre => ?_⟩
  · obtain ⟨-, htold'⟩ := Server.run_chat hinv h'
    rw [htold', hvars, replies_silent hsilent]
  · refine received_eq_iff hr hpre fun h0 => ?_
    obtain ⟨p, hp, h0⟩ := List.mem_flatMap.mp h0
    exact Server.zero_notMem_log hinv htold k p hp h0

/-- The chat with room for two clients, the descriptors 0 to 2 in use. -/
def roomForChat : Option (Server Word Talk) := Server.start 6 (· < 3) ⟨[], by decide, by decide⟩

theorem roomForChat_isSome : roomForChat.isSome = true := by decide +kernel

/-- A word is typed for the first client, and then stdin ends. -/
def silentOperator : List (Input Talk) :=
  [.accept, .read (⟨bytes "hi", by decide, by decide⟩, some ⟨bytes "hello", by decide, by decide⟩),
    .stop, .accept, .read (⟨bytes "who is there", by decide, by decide⟩, none), .stop]

/-- The second client is sent the word for the first. -/
theorem chat_silentOperator : ∃ s₀ tr s, roomForChat = some s₀ ∧
    Exec (Server.step s2cChat 6) (fun _ _ => True) s₀ tr s ∧
      tr.map Prod.fst = silentOperator ∧ chatSent s 1 = bytes "hello" ∧
      received RecvLine.clear (chatSent s 1) =
        some (bytes "Received from server: " ++ bytes "hello") := by
  obtain ⟨s₀, h₀⟩ := Option.isSome_iff_exists.mp roomForChat_isSome
  obtain rfl : s₀ = roomForChat.get roomForChat_isSome := by simp [h₀]
  obtain ⟨tr, s, h, hin, hsent⟩ := exec_such_that (Server.step s2cChat 6) (fun _ _ => True)
    (roomForChat.get roomForChat_isSome) silentOperator
    (fun p => chatSent p.2 1 = bytes "hello") (by decide +kernel)
  obtain ⟨-, -, hprinted⟩ := chat 6 (· < 3) _ _ h₀ tr s h
  refine ⟨_, tr, s, h₀, h, hin, hsent, ?_⟩
  have hiff := hprinted 1 (chatSent s 1) RecvLine.clear (by rw [hsent]; decide)
    (List.prefix_refl _)
  rw [hsent] at hiff ⊢
  exact hiff.mpr (by decide +kernel)

end CCodes.Iterative
