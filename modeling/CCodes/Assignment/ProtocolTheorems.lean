/-
CCodes.Assignment.ProtocolTheorems — the token of the thank_you/again
protocol.

From its first detail on, every connection has one token: it is a detail on
the way to the client, or a "thank_you" on the way to the server, or the
`ty_flag` of the session. The server puts the token into a detail, the
client turns a detail into a "thank_you" and the server turns that into the
flag; nothing else makes or takes one, as long as the user does not type
the "thank_you" of the program.
-/
import CCodes.Assignment.Protocol
import CCodes.Assignment.Isolation

namespace CCodes.Assignment

open CCodes.Lib

/-! ## §1 Messages -/

namespace Message

/-- A message that sets `ty_flag`. -/
def isThanks (m : Message) : Bool := m.isBuffer && m.saysThankYou

/-- A message that asks for a detail. -/
def isAgain (m : Message) : Bool := m.isBuffer && m.saysAgain

theorem not_isDetail_of_isBuffer {m : Message} (h : m.isBuffer = true) : m.isDetail = false := by
  rw [isBuffer, beq_iff_eq, show (6 : Nat) = (bytes "buffer").length from rfl,
    strncmp_eq_zero_iff _ (by decide)] at h
  obtain ⟨r, hr⟩ := h
  simp [isDetail, ← hr, bytes, strncmp]

theorem not_isAgain_of_isThanks {m : Message} (h : m.isThanks = true) : m.isAgain = false := by
  rw [isThanks, Bool.and_eq_true] at h
  rw [isAgain, not_saysAgain_of_saysThankYou h.2, Bool.and_false]

@[simp] theorem isThanks_thankYou : (ofText (bytes "thank_you")).isThanks = true := by decide

/-- A text that does not begin with "thank_you" is not taken for thanks,
and neither is what is left of it before its first NUL. -/
theorem not_isThanks_ofText {chunk : List UInt8} (h : ¬ bytes "thank_you" <+: chunk) :
    (ofText (cstr chunk)).isThanks = false := by
  rw [isThanks, isBuffer_ofText, Bool.true_and, Bool.eq_false_iff, Ne, saysThankYou_iff]
  exact fun hpre => h (hpre.trans (List.takeWhile_prefix _))

/-- A message with a number in it says nothing. -/
theorem says_nothing {m : Message} (h : atoi m.buffer ≠ 0) :
    m.isThanks = false ∧ m.isAgain = false := by
  obtain ⟨hty, hag⟩ := says_nothing_of_atoi h
  simp [isThanks, isAgain, hty, hag]

end Message

/-- The last of the messages that begins with "thank_you" or "again". -/
def lastWord (ms : List Message) : Option Message :=
  (ms.filter fun m => m.isThanks || m.isAgain).getLast?

theorem lastWord_snoc (ms : List Message) (m : Message) :
    lastWord (ms ++ [m]) = if m.isThanks || m.isAgain then some m else lastWord ms := by
  rw [lastWord, List.filter_append]
  split
  · rename_i h
    simp [h]
  · rename_i h
    simp [h, lastWord]

theorem SsData.asks_iff {d : SsData} {res : Message} :
    d.Asks res ↔ res.isAgain = true ∧ d.tyFlag = 1 := by
  rw [SsData.Asks, Message.isAgain, Bool.and_eq_true, and_assoc]

/-- With no stored id 0, a stored id is no word. -/
theorem says_nothing_of_stored {studentStore : List StDetail} {res : Message}
    (hids : ∀ d ∈ studentStore, d.id ≠ 0)
    (hst : (stSearch studentStore (atoi res.buffer)).isSome) :
    atoi res.buffer ≠ 0 ∧ res.isThanks = false ∧ res.isAgain = false := by
  have hne := atoi_ne_zero_of_stored hids hst
  exact ⟨hne, Message.says_nothing hne⟩

/-- A line that does not begin with "thank_you" sends no thanks. -/
theorem Client.handleStdin_no_thanks (c : Client) {chunk : List UInt8}
    (hchunk : ¬ bytes "thank_you" <+: chunk) :
    (c.handleStdin chunk).1.countP Message.isThanks = 0 := by
  rcases c.handleStdin_eq chunk with ⟨hw, -⟩ | hw
  · rw [hw, List.countP_nil]
  · simp [hw, Message.not_isThanks_ofText hchunk]

/-! ## §2 One connection -/

namespace Conn

variable {c : Conn} {d : SsData} {res : Message} {rest : List Message}

/-- A connection without a session: its id is still the first message. -/
structure Fresh (studentStore : List StDetail) (c : Conn) : Prop where
  first : ∃ res rest, c.toServer = res :: rest ∧ res.isBuffer = true ∧
    (stSearch studentStore (atoi res.buffer)).isSome
  thanks : c.toServer.countP Message.isThanks = 0
  toClient : c.toClient = []
  handled : c.handled = []
  sent : c.sent = []

/-- A connection with a session: there is one token. -/
structure Token (c : Conn) (d : SsData) : Prop where
  one : (c.toClient.countP Message.isDetail : Int) + c.toServer.countP Message.isThanks +
    d.tyFlag.toInt = 1
  bit : d.tyFlag = 0 ∨ d.tyFlag = 1
  owes : d.sFlag = 0
  word : d.tyFlag = 1 ↔ ∃ m, lastWord c.handled = some m ∧ m.isThanks = true
  ledger : (c.sent.countP Message.isDetail : Int) + d.tyFlag.toInt =
    c.handled.countP Message.isThanks + 1

/-- What the client writes is on the way to the server, or handled. -/
def Fifo (c : Conn) : Prop := c.wrote = c.handled ++ c.toServer

/-- The invariant of a connection, by the session the server has for it. -/
def Ok (studentStore : List StDetail) (c : Conn) : Option SsData → Prop
  | none => c.Fresh studentStore ∧ c.Fifo
  | some d => c.Token d ∧ c.Fifo

theorem Fifo.served (h : c.Fifo) (hq : c.toServer = res :: rest) (w : List Message) :
    (c.served res w).Fifo := by
  rw [Fifo, hq] at h
  simp only [Fifo, Conn.served, h, hq, List.tail_cons, List.append_assoc, List.singleton_append]

theorem Fifo.clientStep (h : c.Fifo) (p : List Message × Client) : (c.clientStep p).Fifo := by
  rw [Fifo] at h
  simp only [Fifo, Conn.clientStep, h, List.append_assoc]

theorem session_of_fd {i : Fd} (hi : c.fd = some i) (main : Server) :
    c.session main = main.session i := by
  rw [Conn.session, hi, Option.bind_some]

theorem Token.not_owes (h : c.Token d) : d.sFlag ≠ 1 := by
  rw [h.owes]
  decide

/-- An "again" that is answered: the token goes from the flag into a
detail. -/
theorem Token.served_again (h : c.Token d) (hq : c.toServer = res :: rest) (hask : d.Asks res) :
    (c.served res (d.serve res).1).Token (d.serve res).2 := by
  obtain ⟨hagain, hty⟩ := SsData.asks_iff.mp hask
  have hnot : res.isThanks = false := by
    by_contra hth
    rw [Message.not_isAgain_of_isThanks (by simpa using hth)] at hagain
    cases hagain
  have hone := h.one
  have hledger := h.ledger
  rw [hq, List.countP_cons] at hone
  rw [hty] at hone hledger
  rw [SsData.serve_of_asks hask]
  refine ⟨?_, .inl rfl, rfl, ?_, ?_⟩
  · simp only [Conn.served, hq, List.tail_cons, List.countP_append, List.countP_singleton,
      Message.isDetail_ofDetail, hnot] at hone ⊢
    simp at hone ⊢
    omega
  · simp only [Conn.served, lastWord_snoc, hagain, hnot]
    simp [hnot]
  · simp only [Conn.served, List.countP_append, List.countP_singleton,
      Message.isDetail_ofDetail, hnot]
    simp at hledger ⊢
    omega

/-- Thanks: the token goes from them into the flag. -/
theorem Token.served_thanks (h : c.Token d) (hq : c.toServer = res :: rest)
    (hask : ¬ d.Asks res) (hth : res.isThanks = true) :
    (c.served res (d.serve res).1).Token (d.serve res).2 := by
  have hone := h.one
  have hledger := h.ledger
  rw [hq, List.countP_cons] at hone
  have hty : d.tyFlag = 0 := by
    rcases h.bit with h0 | h1
    · exact h0
    · simp [h1, hth] at hone
      omega
  rw [hty] at hone hledger
  have hcond : res.isBuffer = true ∧ res.saysThankYou = true := by
    rwa [Message.isThanks, Bool.and_eq_true] at hth
  rw [SsData.serve_of_not_asks h.not_owes hask, if_pos hcond]
  refine ⟨?_, .inr rfl, h.owes, ?_, ?_⟩
  · simp only [Conn.served, hq, List.tail_cons, List.append_nil]
    simp [hth] at hone ⊢
    omega
  · simp [Conn.served, lastWord_snoc, hth]
  · simp only [Conn.served, List.append_nil, List.countP_append, List.countP_singleton, hth]
    simp at hledger ⊢
    omega

/-- Any other message leaves the token where it is. -/
theorem Token.served_other (h : c.Token d) (hq : c.toServer = res :: rest)
    (hask : ¬ d.Asks res) (hth : ¬ res.isThanks = true) :
    (c.served res (d.serve res).1).Token (d.serve res).2 := by
  have hone := h.one
  have hledger := h.ledger
  rw [hq, List.countP_cons] at hone
  have hcond : ¬ (res.isBuffer = true ∧ res.saysThankYou = true) := by
    rwa [Message.isThanks, Bool.and_eq_true] at hth
  rw [SsData.serve_of_not_asks h.not_owes hask, if_neg hcond]
  refine ⟨?_, h.bit, h.owes, ?_, ?_⟩
  · simp only [Conn.served, hq, List.tail_cons, List.append_nil]
    simpa [hth] using hone
  · by_cases hagain : res.isAgain = true
    · -- an "again" that is not answered, the flag being 0
      have hty : d.tyFlag ≠ 1 := fun h1 => hask (SsData.asks_iff.mpr ⟨hagain, h1⟩)
      simp [Conn.served, lastWord_snoc, hagain, hth, hty]
    · simpa [Conn.served, lastWord_snoc, hagain, hth] using h.word
  · simpa [Conn.served, List.countP_append, List.countP_singleton, hth] using hledger

/-- The server handles a message of a connection with a session. -/
theorem Token.served (h : c.Token d) (hq : c.toServer = res :: rest) :
    (c.served res (d.serve res).1).Token (d.serve res).2 := by
  by_cases hask : d.Asks res
  · exact h.served_again hq hask
  · by_cases hth : res.isThanks = true
    · exact h.served_thanks hq hask hth
    · exact h.served_other hq hask hth

/-- The next message of a connection without a session is its id. -/
theorem Fresh.stored {studentStore : List StDetail} (h : c.Fresh studentStore)
    (hq : c.toServer = res :: rest) : (stSearch studentStore (atoi res.buffer)).isSome := by
  obtain ⟨res', rest', hq', -, hst⟩ := h.first
  obtain ⟨rfl, -⟩ := List.cons.inj (hq.symm.trans hq')
  exact hst

/-- The server handles the first message of a connection. -/
theorem Fresh.served {studentStore : List StDetail} (h : c.Fresh studentStore)
    (hids : ∀ d ∈ studentStore, d.id ≠ 0) (hq : c.toServer = res :: rest) (i : Fd) :
    ∃ st d, stSearch studentStore (atoi res.buffer) = some st ∧
      connection studentStore i none res = ([.ofDetail d.data], some d) ∧
      d = createSs i (atoi res.buffer) st ∧ (c.served res [.ofDetail d.data]).Token d := by
  obtain ⟨hid, hth, hag⟩ := says_nothing_of_stored hids (h.stored hq)
  obtain ⟨st, hst⟩ := Option.isSome_iff_exists.mp (h.stored hq)
  have hthanks := h.thanks
  rw [hq, List.countP_cons, hth, if_neg Bool.false_ne_true, Nat.add_zero] at hthanks
  refine ⟨st, _, hst, ?_, rfl, ?_, .inl rfl, rfl, ?_, ?_⟩
  · simp only [connection, hst, SsData.serve_opened hid]
  · simp only [Conn.served, hq, h.toClient, List.tail_cons, List.nil_append, hthanks]
    simp [createSs]
  · simp [Conn.served, h.handled, lastWord, hth, hag, createSs]
  · simp [Conn.served, h.handled, h.sent, hth, createSs]

/-- A detail is written when the token is the flag, so that no detail and no
thanks are on the way. An "again" is answered by the last word before it. -/
theorem Token.writes {w : List Message} (h : c.Token d) (hw : w = (d.serve res).1) :
    ((∃ m ∈ w, m.isDetail = true) →
      c.sent.countP Message.isDetail = c.handled.countP Message.isThanks ∧
      c.toClient.countP Message.isDetail = 0 ∧ c.toServer.countP Message.isThanks = 0) ∧
    (res.isAgain = true →
      ((∃ d, w = [.ofDetail d]) ↔ ∃ m, lastWord c.handled = some m ∧ m.isThanks = true) ∧
      (w = [] ∨ ∃ d, w = [.ofDetail d])) := by
  by_cases hask : d.Asks res
  · rw [SsData.serve_of_asks hask] at hw
    obtain ⟨-, hty⟩ := SsData.asks_iff.mp hask
    have hone := h.one
    have hledger := h.ledger
    rw [hty] at hone hledger
    have hbit : (1 : Int32).toInt = 1 := rfl
    refine ⟨fun _ => ⟨?_, ?_, ?_⟩, fun _ => ⟨?_, .inr ⟨_, hw⟩⟩⟩
    · omega
    · omega
    · omega
    · exact iff_of_true ⟨_, hw⟩ (h.word.mp hty)
  · rw [SsData.serve_of_not_asks h.not_owes hask] at hw
    subst hw
    refine ⟨fun ⟨m, hm, _⟩ => absurd hm List.not_mem_nil, fun hagain => ⟨?_, .inl rfl⟩⟩
    refine iff_of_false (fun ⟨_, hd⟩ => by cases hd) fun hlast => ?_
    exact hask (SsData.asks_iff.mpr ⟨hagain, h.word.mpr hlast⟩)

/-- The client reads from stdin anything that does not begin with
"thank_you". -/
theorem Token.stdin {chunk : List UInt8} (h : c.Token d)
    (hchunk : ¬ bytes "thank_you" <+: chunk) :
    (c.clientStep (c.client.handleStdin chunk)).Token d := by
  refine ⟨?_, h.bit, h.owes, h.word, h.ledger⟩
  simp only [Conn.clientStep, List.countP_append, Client.handleStdin_no_thanks _ hchunk]
  simpa using h.one

theorem Fresh.stdin {studentStore : List StDetail} {chunk : List UInt8}
    (h : c.Fresh studentStore) (hchunk : ¬ bytes "thank_you" <+: chunk) :
    (c.clientStep (c.client.handleStdin chunk)).Fresh studentStore := by
  obtain ⟨res, rest, hq, hst⟩ := h.first
  refine ⟨⟨res, rest ++ (c.client.handleStdin chunk).1, ?_, hst⟩, ?_, h.toClient, h.handled,
    h.sent⟩
  · simp only [Conn.clientStep, hq, List.cons_append]
  · simp only [Conn.clientStep, List.countP_append, Client.handleStdin_no_thanks _ hchunk, h.thanks]

/-- The client reads a message: a detail turns into thanks. -/
theorem Token.socket (h : c.Token d) (hq : c.toClient = res :: rest) :
    ({ c.clientStep (c.client.handleSocket res) with toClient := rest } : Conn).Token d := by
  have hone := h.one
  rw [hq, List.countP_cons] at hone
  refine ⟨?_, h.bit, h.owes, h.word, h.ledger⟩
  simp only [Conn.clientStep, List.countP_append]
  unfold Client.handleSocket
  split
  · rename_i hb
    simpa [Message.not_isDetail_of_isBuffer hb.1] using hone
  · split
    · rename_i hd
      simp [hd] at hone ⊢
      omega
    · rename_i hd
      simpa [hd] using hone

end Conn

/-! ## §3 The system -/

namespace System

variable {s t : System} {studentStore : List StDetail} {listenFD : Fd}

/-- A client's id is one that is stored. -/
def StoredIds (s : System) : SystemEvent → Prop
  | .connect _ clientId _ => (stSearch s.main.studentStore (atoi clientId)).isSome
  | _ => True

instance (s : System) : DecidablePred s.StoredIds
  | .connect .. => inferInstanceAs (Decidable (_ = true))
  | .accept .. => isTrue trivial
  | .stdin .. => isTrue trivial
  | .socket .. => isTrue trivial
  | .serve .. => isTrue trivial
  | .hangUp .. => isTrue trivial

/-- What a client reads from stdin does not begin with "thank_you". -/
def NoThanks : SystemEvent → Prop
  | .stdin _ chunk => ¬ bytes "thank_you" <+: chunk
  | _ => True

instance : DecidablePred NoThanks
  | .stdin .. => inferInstanceAs (Decidable (¬ _))
  | .connect .. => isTrue trivial
  | .accept .. => isTrue trivial
  | .socket .. => isTrue trivial
  | .serve .. => isTrue trivial
  | .hangUp .. => isTrue trivial

def Allowed (s : System) (e : SystemEvent) : Prop := s.StoredIds e ∧ NoThanks e

instance (s : System) (e : SystemEvent) : Decidable (s.Allowed e) :=
  inferInstanceAs (Decidable (_ ∧ _))

structure Inv (listenFD : Fd) (studentStore : List StDetail) (s : System) : Prop where
  main : s.main.InStep
  listener : s.main.listenFD = listenFD
  students : s.main.studentStore = studentStore
  accepted : ∀ k c i, s.conns k = some c → c.fd = some i → i ∈ s.main.masterFDs ∧ i ≠ listenFD
  distinct : ∀ k k' c c' i, s.conns k = some c → s.conns k' = some c' → c.fd = some i →
    c'.fd = some i → k = k'
  conn : ∀ k c, s.conns k = some c → c.Ok studentStore (c.session s.main)

theorem setConn_self (s : System) (k : Nat) (c : Option Conn) : (s.setConn k c).conns k = c :=
  Function.update_self ..

theorem setConn_of_ne {k j : Nat} (h : j ≠ k) (s : System) (c : Option Conn) :
    (s.setConn k c).conns j = s.conns j :=
  Function.update_of_ne h ..

/-- The connections of a system in which `k` was changed. -/
theorem conns_setConn {k j : Nat} {c : Option Conn} {c' : Conn}
    (h : (s.setConn k c).conns j = some c') :
    (j = k ∧ c = some c') ∨ (j ≠ k ∧ s.conns j = some c') := by
  by_cases hj : j = k
  · rw [hj, setConn_self] at h
    exact .inl ⟨hj, h⟩
  · rw [setConn_of_ne hj] at h
    exact .inr ⟨hj, h⟩

/-- A step of one connection: it keeps the invariant if the descriptor of
the connection is its own, and the others keep theirs and their sessions. -/
theorem Inv.change {k : Nat} {main' : Server} (h : s.Inv listenFD studentStore)
    (c' : Option Conn) (hmain : main'.InStep)
    (hl : main'.listenFD = s.main.listenFD) (hst : main'.studentStore = s.main.studentStore)
    (hfd : ∀ c i, c' = some c → c.fd = some i → i ∈ main'.masterFDs ∧ i ≠ listenFD ∧
      ∀ j x, j ≠ k → s.conns j = some x → x.fd ≠ some i)
    (hother : ∀ j x i, j ≠ k → s.conns j = some x → x.fd = some i →
      i ∈ main'.masterFDs ∧ main'.session i = s.main.session i)
    (hok : ∀ c, c' = some c → c.Ok studentStore (c.session main')) :
    Inv listenFD studentStore { s.setConn k c' with main := main' } := by
  refine ⟨hmain, hl.trans h.listener, hst.trans h.students, fun j x i hx hi => ?_,
    fun j j' x x' i hx hx' hi hi' => ?_, fun j x hx => ?_⟩
  · rcases conns_setConn hx with ⟨rfl, hnew⟩ | ⟨hj, hold⟩
    · exact ⟨(hfd x i hnew hi).1, (hfd x i hnew hi).2.1⟩
    · exact ⟨(hother j x i hj hold hi).1, (h.accepted j x i hold hi).2⟩
  · rcases conns_setConn hx with ⟨rfl, hnew⟩ | ⟨hj, hold⟩ <;>
      rcases conns_setConn hx' with ⟨rfl, hnew'⟩ | ⟨hj', hold'⟩
    · rfl
    · exact absurd hi' ((hfd x i hnew hi).2.2 j' x' hj' hold')
    · exact absurd hi ((hfd x' i hnew' hi').2.2 j x hj hold)
    · exact h.distinct j j' x x' i hold hold' hi hi'
  · rcases conns_setConn hx with ⟨rfl, hnew⟩ | ⟨hj, hold⟩
    · exact hok x hnew
    · have hsame : x.session main' = x.session s.main := by
        cases hxi : x.fd with
        | none => simp [Conn.session, hxi]
        | some i =>
          simpa only [Conn.session, hxi, Option.bind_some] using (hother j x i hj hold hxi).2
      rw [hsame]
      exact h.conn j x hold

/-- A step of a client, which the server takes no part in. -/
theorem Inv.client {k : Nat} {c c' : Conn} (h : s.Inv listenFD studentStore)
    (hk : s.conns k = some c) (hfd : c'.fd = c.fd)
    (hok : ∀ ses, c.Ok studentStore ses → c'.Ok studentStore ses) :
    Inv listenFD studentStore (s.setConn k (some c')) := by
  refine h.change (some c') h.main rfl rfl ?_ ?_ ?_
  · rintro _ i ⟨⟩ hi
    rw [hfd] at hi
    obtain ⟨hreg, hne⟩ := h.accepted k c i hk hi
    exact ⟨hreg, hne, fun j x hj hx hxi => hj (h.distinct j k x c i hx hk hxi hi)⟩
  · exact fun j x i _ hx hxi => ⟨(h.accepted j x i hx hxi).1, rfl⟩
  · rintro _ ⟨⟩
    have hses : c'.session s.main = c.session s.main := by rw [Conn.session, hfd, Conn.session]
    rw [hses]
    exact hok _ (h.conn k c hk)

/-- The server reads a message of connection `k`: it is contained, and a
step of `connection`. -/
theorem Inv.serve_isolated {k : Nat} {c : Conn} {i : Fd} {res : Message} {rest w : List Message}
    {main' : Server} (h : s.Inv listenFD studentStore) (hk : s.conns k = some c)
    (hi : c.fd = some i) (hq : c.toServer = res :: rest)
    (hev : server.events s.main (i, .data res) = some (w, main')) :
    s.main.Isolated i res w main' ∧ main'.masterFDs = s.main.masterFDs := by
  obtain ⟨hreg, hne⟩ := h.accepted k c i hk hi
  obtain ⟨w', t, hm, hiso⟩ := h.main.isolated_iff hreg res
  rw [Server.events_client hreg (h.listener ▸ hne)] at hev
  obtain ⟨rfl, rfl⟩ : w' = w ∧ t = main' := by simpa using hm.symm.trans hev
  refine ⟨hiso.mpr fun hu => ?_, ?_⟩
  · -- without a session the id is still to come, and it is stored
    have hok := h.conn k c hk
    rw [Conn.session_of_fd hi, Server.session_eq_none.mpr hu.1] at hok
    have hst := hok.1.stored hq
    rw [← h.students, hu.2] at hst
    cases hst
  · obtain ⟨_, _, _, _, rfl⟩ := Server.handleMessage_frame hm
    rfl

/-! One lemma per event. -/

/-- A client connects and writes its id. -/
theorem Inv.connect {k : Nat} {clientId writeBuff : List UInt8}
    (hids : ∀ d ∈ studentStore, d.id ≠ 0) (h : s.Inv listenFD studentStore)
    (hid : s.StoredIds (.connect k clientId writeBuff)) :
    Inv listenFD studentStore (s.setConn k (some (.start clientId writeBuff))) := by
  refine h.change (some (.start clientId writeBuff)) h.main rfl rfl ?_ ?_ ?_
  · rintro _ i ⟨⟩ hi
    cases hi
  · exact fun j x i _ hx hxi => ⟨(h.accepted j x i hx hxi).1, rfl⟩
  · rintro _ ⟨⟩
    have hst : (stSearch studentStore (atoi (Message.ofText clientId).buffer)).isSome :=
      h.students ▸ hid
    obtain ⟨-, hth, -⟩ := says_nothing_of_stored hids hst
    refine ⟨⟨⟨_, [], rfl, rfl, hst⟩, ?_, rfl, rfl, rfl⟩, rfl⟩
    simp [Conn.start, Client.start, hth]

/-- The server accepts a connection: whoever had the descriptor before left
no session. -/
theorem Inv.accept {k : Nat} {c : Conn} {newFD : Fd} (h : s.Inv listenFD studentStore)
    (hk : s.conns k = some c) (hfd : c.fd = none) (h0 : 0 ≤ newFD)
    (hnew : newFD ∉ s.main.openFDs) :
    Inv listenFD studentStore
      { s.setConn k (some { c with fd := some newFD }) with main := s.main.addClient newFD } := by
  have hfree : newFD ∉ s.main.masterFDs := h.main.registered ▸ hnew
  refine h.change (some { c with fd := some newFD }) (h.main.addClient h0) rfl rfl ?_ ?_ ?_
  · rintro _ i ⟨⟩ hi
    obtain rfl : newFD = i := by simpa using hi
    refine ⟨Finset.mem_insert_self .., ?_, fun j x _ hx hxi => ?_⟩
    · rintro rfl
      exact hfree (h.listener ▸ h.main.listening)
    · exact hfree (h.accepted j x newFD hx hxi).1
  · exact fun j x i _ hx hxi => ⟨Finset.mem_insert_of_mem (h.accepted j x i hx hxi).1, rfl⟩
  · rintro _ ⟨⟩
    have hok := h.conn k c hk
    have hold : c.session s.main = none := by rw [Conn.session, hfd, Option.bind_none]
    have hnone : Conn.session { c with fd := some newFD } (s.main.addClient newFD) = none :=
      h.main.session_none hfree
    rw [hold] at hok
    rw [hnone]
    exact ⟨⟨hok.1.first, hok.1.thanks, hok.1.toClient, hok.1.handled, hok.1.sent⟩, hok.2⟩

/-- The server handles a message. -/
theorem Inv.handled {k : Nat} {c : Conn} {i : Fd} {res : Message} {rest w : List Message}
    {main' : Server} (hids : ∀ d ∈ studentStore, d.id ≠ 0) (h : s.Inv listenFD studentStore)
    (hk : s.conns k = some c) (hi : c.fd = some i) (hq : c.toServer = res :: rest)
    (hev : server.events s.main (i, .data res) = some (w, main')) :
    Inv listenFD studentStore { s.setConn k (some (c.served res w)) with main := main' } := by
  obtain ⟨⟨hw, hself, hother⟩, hreg⟩ := h.serve_isolated hk hi hq hev
  obtain ⟨hl, hst⟩ := Server.events_frame hev
  have hnoerr : s.main.NoError (i, .data res) := fun heq => Answer.noConfusion heq
  refine h.change (some (c.served res w)) (h.main.event hnoerr hev) hl hst ?_ ?_ ?_
  · rintro _ j ⟨⟩ hj
    obtain ⟨hmem, hne⟩ := h.accepted k c j hk hj
    exact ⟨hreg ▸ hmem, hne, fun k' x hk' hx hxj => hk' (h.distinct k' k x c j hx hk hxj hj)⟩
  · intro k' x j hk' hx hxj
    refine ⟨hreg ▸ (h.accepted k' x j hx hxj).1, hother j ?_⟩
    rintro rfl
    exact hk' (h.distinct k' k x c j hx hk hxj hi)
  · rintro _ ⟨⟩
    have hok := h.conn k c hk
    have hfd : (c.served res w).fd = some i := hi
    rw [Conn.session_of_fd hi] at hok
    rw [Conn.session_of_fd hfd, hself, hw, h.students]
    cases hses : s.main.session i with
    | none =>
      rw [hses] at hok
      obtain ⟨st, d, -, hconn, -, htok⟩ := hok.1.served hids hq i
      rw [hconn]
      exact ⟨htok, hok.2.served hq _⟩
    | some d =>
      rw [hses] at hok
      exact ⟨hok.1.served hq, hok.2.served hq _⟩

/-- The server reads end of file. -/
theorem Inv.hungUp {k : Nat} {c : Conn} {i : Fd} (h : s.Inv listenFD studentStore)
    (hk : s.conns k = some c) (hi : c.fd = some i) :
    Inv listenFD studentStore { s.setConn k none with main := s.main.hangUp i } := by
  obtain ⟨-, hne⟩ := h.accepted k c i hk hi
  refine h.change none (h.main.hangUp (h.listener ▸ hne)) rfl rfl nofun ?_ nofun
  intro k' x j hk' hx hxj
  have hji : j ≠ i := by
    rintro rfl
    exact hk' (h.distinct k' k x c j hx hk hxj hi)
  exact ⟨Finset.mem_erase.mpr ⟨hji, (h.accepted k' x j hx hxj).1⟩,
    Server.session_hangUp_of_ne hji⟩

theorem Inv.step {e : SystemEvent} {w : List Message} (hids : ∀ d ∈ studentStore, d.id ≠ 0)
    (h : s.Inv listenFD studentStore) (hok : s.Allowed e)
    (hstep : System.step s e = some (w, t)) : t.Inv listenFD studentStore := by
  rcases step_cases hstep with ⟨k, clientId, writeBuff, rfl, hk, -, rfl⟩ |
    ⟨k, newFD, c, main', rfl, hk, hfd, hev, rfl⟩ | ⟨k, chunk, c, rfl, hk, -, -, -, rfl⟩ |
    ⟨k, c, res, rest, rfl, hk, hq, -, -, rfl⟩ |
    ⟨k, c, i, res, rest, main', rfl, hk, hi, hq, hev, rfl⟩ |
    ⟨k, c, i, main', rfl, hk, hi, -, -, hev, rfl⟩
  · exact h.connect hids hok.1
  · obtain ⟨-, hbody⟩ := Server.events_eq hev
    rcases Server.body_cases hbody with ⟨_, -, heq, h0, hnew, -, rfl⟩ | ⟨_, -, heq, -⟩ |
      ⟨-, heq, -⟩ | ⟨-, heq, -⟩
    · cases heq
      exact h.accept hk hfd h0 hnew
    all_goals cases heq
  · refine h.client hk rfl fun ses hses => ?_
    have hchunk : ¬ bytes "thank_you" <+: chunk := hok.2
    cases ses with
    | none => exact ⟨hses.1.stdin hchunk, hses.2.clientStep _⟩
    | some d => exact ⟨hses.1.stdin hchunk, hses.2.clientStep _⟩
  · refine h.client hk rfl fun ses hses => ?_
    cases ses with
    | none =>
      have := hses.1.toClient
      rw [hq] at this
      cases this
    | some d => exact ⟨hses.1.socket hq, hses.2.clientStep _⟩
  · exact h.handled hids hk hi hq hev
  · obtain ⟨hreg, hne⟩ := h.accepted k c i hk hi
    obtain rfl : main' = s.main.hangUp i := by
      rw [Server.events_client hreg (h.listener ▸ hne)] at hev
      cases hev
      rfl
    exact h.hungUp hk hi

theorem Inv.init (listenFD : Fd) (studentStore : List StDetail) (junk : SsData) :
    (System.init listenFD studentStore junk).Inv listenFD studentStore :=
  ⟨.init .., rfl, rfl, nofun, nofun, nofun⟩

/-- What the server does with the next message of connection `k`. -/
theorem Inv.serve {k : Nat} {c : Conn} {w : List Message}
    (hids : ∀ d ∈ studentStore, d.id ≠ 0) (h : s.Inv listenFD studentStore)
    (hk : s.conns k = some c) (hstep : System.step s (.serve k) = some (w, t)) :
    ((∃ m ∈ w, m.isDetail = true) →
      c.sent.countP Message.isDetail = c.handled.countP Message.isThanks ∧
      c.toClient.countP Message.isDetail = 0 ∧ c.toServer.countP Message.isThanks = 0) ∧
    ∀ res, c.toServer.head? = some res → res.isAgain = true →
      ((∃ d, w = [.ofDetail d]) ↔ ∃ m, lastWord c.handled = some m ∧ m.isThanks = true) ∧
      (w = [] ∨ ∃ d, w = [.ofDetail d]) := by
  rcases step_cases hstep with ⟨_, _, _, heq, -⟩ | ⟨_, _, _, _, heq, -⟩ | ⟨_, _, _, heq, -⟩ |
    ⟨_, _, _, _, heq, -⟩ | ⟨k', c', i, res, rest, main', heq, hk', hi, hq, hev, -⟩ |
    ⟨_, _, _, _, heq, -⟩
  case inr.inr.inr.inr.inl =>
    cases heq
    obtain rfl : c = c' := Option.some.inj (hk.symm.trans hk')
    obtain ⟨⟨hw, -, -⟩, -⟩ := h.serve_isolated hk hi hq hev
    have hok := h.conn k c hk
    rw [Conn.session_of_fd hi] at hok
    rw [h.students] at hw
    have hhead : ∀ {res'}, c.toServer.head? = some res' → res' = res := by
      intro res' hres'
      rw [hq] at hres'
      exact (Option.some.inj hres').symm
    cases hses : s.main.session i with
    | none =>
      rw [hses] at hok
      refine ⟨fun _ => ?_, fun res' hres hagain => ?_⟩
      · rw [hok.1.sent, hok.1.handled, hok.1.toClient]
        exact ⟨rfl, rfl, hok.1.thanks⟩
      · -- the first message is an id, not an "again"
        obtain rfl := hhead hres
        rw [(says_nothing_of_stored hids (hok.1.stored hq)).2.2] at hagain
        cases hagain
    | some d =>
      rw [hses] at hok hw
      obtain ⟨hdetail, hagain⟩ := hok.1.writes hw
      exact ⟨hdetail, fun res' hres => hhead hres ▸ hagain⟩
  all_goals cases heq

/-- A message on the way to the server is handled when its turn comes. -/
theorem Inv.serve_answers {k : Nat} {c : Conn} (h : s.Inv listenFD studentStore)
    (hk : s.conns k = some c) (hfd : c.fd.isSome) (hq : c.toServer ≠ []) :
    ∃ w t, System.step s (.serve k) = some (w, t) := by
  obtain ⟨i, hi⟩ := Option.isSome_iff_exists.mp hfd
  obtain ⟨res, rest, hq⟩ := List.exists_cons_of_ne_nil hq
  obtain ⟨hreg, hne⟩ := h.accepted k c i hk hi
  obtain ⟨w, main', hm⟩ := Server.handleMessage_answers (h.main.registered ▸ hreg) res
  have hev : server.events s.main (i, .data res) = some (w, main') :=
    (Server.events_client hreg (h.listener ▸ hne) _).trans hm
  refine ⟨w, { s.setConn k (some (c.served res w)) with main := main' }, ?_⟩
  simp [System.step, hk, hi, hq, hev]

end System

/-! ## §4 The protocol -/

/-- **The token.** Let every `malloc` give room for the struct in its block
(`CCodes.Assignment.Records`). For a store without the id 0, clients with stored ids and
users who type anything, as long as no piece of stdin that a client reads
begins with "thank_you": in every state, however the steps of the parties
came, for every connection with a session, the details on the way to the
client, the thanks on the way to the server and `ty_flag` are 1 in sum, and
`s_flag` is 0. A detail is written only when all earlier ones were thanked
for and the thanks handled. And an "again" is answered when the server
comes to it, by exactly one detail if the last "thank_you" or "again" that
the client wrote before it is a "thank_you", and else not at all. -/
theorem token (listenFD : Fd) (studentStore : List StDetail) (junk : SsData)
    (hids : ∀ d ∈ studentStore, d.id ≠ 0) (tr : List (SystemEvent × List Message)) (s : System)
    (h : Exec System.step System.Allowed (System.init listenFD studentStore junk) tr s)
    (k : Nat) (c : Conn) (hk : s.conns k = some c) :
    (∀ d, c.session s.main = some d →
      (c.toClient.countP Message.isDetail : Int) + c.toServer.countP Message.isThanks +
          d.tyFlag.toInt = 1 ∧
        d.sFlag = 0) ∧
    c.wrote = c.handled ++ c.toServer ∧
    (c.fd.isSome → c.toServer ≠ [] → ∃ w t, System.step s (.serve k) = some (w, t)) ∧
    ∀ w t, System.step s (.serve k) = some (w, t) →
      ((∃ m ∈ w, m.isDetail = true) →
        c.sent.countP Message.isDetail = c.handled.countP Message.isThanks ∧
        c.toClient.countP Message.isDetail = 0 ∧ c.toServer.countP Message.isThanks = 0) ∧
      ∀ res, c.toServer.head? = some res → res.isAgain = true →
        ((∃ d, w = [.ofDetail d]) ↔ ∃ m, lastWord c.handled = some m ∧ m.isThanks = true) ∧
        (w = [] ∨ ∃ d, w = [.ofDetail d]) := by
  have hinv : s.Inv listenFD studentStore :=
    h.invariant (System.Inv listenFD studentStore) (.init ..)
      fun _ _ _ _ hs hok hstep => hs.step hids hok hstep
  have hconn := hinv.conn k c hk
  refine ⟨fun d hd => ?_, ?_, hinv.serve_answers hk, fun w t => hinv.serve hids hk⟩
  · rw [hd] at hconn
    exact ⟨hconn.1.one, hconn.1.owes⟩
  · cases hses : c.session s.main with
    | none =>
      rw [hses] at hconn
      exact hconn.2
    | some d =>
      rw [hses] at hconn
      exact hconn.2

/-- A client gets its record and thanks for it. -/
def thanksOnce : List SystemEvent :=
  [.connect 0 (bytes "1") (List.replicate 50 0), .accept 0 4, .serve 0, .socket 0,
    .stdin 0 (bytes "again"), .serve 0]

/-- The token after `thanksOnce`. -/
theorem token_thanks_once : ∃ tr s c d,
    Exec System.step System.Allowed (System.init 3 stLlGet .zero) tr s ∧
      tr.map Prod.fst = thanksOnce ∧ s.conns 0 = some c ∧ c.session s.main = some d ∧
      (c.toClient.countP Message.isDetail : Int) + c.toServer.countP Message.isThanks +
        d.tyFlag.toInt = 1 := by
  obtain ⟨tr, s, h, hin, htest⟩ := exec_such_that System.step System.Allowed
    (System.init 3 stLlGet .zero) thanksOnce
    (fun p => ((p.2.conns 0).bind fun c => c.session p.2.main).isSome = true) (by decide)
  obtain ⟨d, hd⟩ := Option.isSome_iff_exists.mp htest
  obtain ⟨c, hc, hses⟩ := Option.bind_eq_some_iff.mp hd
  exact ⟨tr, s, c, d, h, hin, hc, hses,
    ((token 3 stLlGet .zero (by decide) tr s h 0 c hc).1 d hses).1⟩

/-- What is typed to client `k`. -/
def typedTo (k : Nat) (es : List SystemEvent) : List UInt8 :=
  es.flatMap fun
    | .stdin j chunk => if j = k then chunk else []
    | _ => []

/-- The user types a line that does not begin with "thank_you"; the client
reads its first character on its own. -/
def cutLine : List SystemEvent :=
  [.connect 0 (bytes "1") (List.replicate 50 0), .accept 0 4, .serve 0,
    .stdin 0 (bytes "x"), .stdin 0 (bytes "thank_you" ++ [10])]

/-- After `cutLine`, with the detail still on the way to the client, there
is a "thank_you" on the way to the server. -/
theorem token_fails_on_cut_line :
    (∀ line ∈ (typedTo 0 cutLine).splitOn 10, ¬ bytes "thank_you" <+: line) ∧
    ∃ tr s c d, Exec System.step System.StoredIds (System.init 3 stLlGet .zero) tr s ∧
      tr.map Prod.fst = cutLine ∧ s.conns 0 = some c ∧ c.client.running = true ∧
      c.session s.main = some d ∧
      (c.toClient.countP Message.isDetail : Int) + c.toServer.countP Message.isThanks +
        d.tyFlag.toInt = 2 := by
  refine ⟨by decide, ?_⟩
  obtain ⟨tr, s, h, hin, htest⟩ := exec_such_that System.step System.StoredIds
    (System.init 3 stLlGet .zero) cutLine
    (fun p => ((p.2.conns 0).bind fun c => (c.session p.2.main).map fun d =>
      (c.client.running, (c.toClient.countP Message.isDetail : Int) +
        c.toServer.countP Message.isThanks + d.tyFlag.toInt)) = some (true, 2)) (by decide)
  obtain ⟨c, hc, htest⟩ := Option.bind_eq_some_iff.mp htest
  obtain ⟨d, hd, htest⟩ := Option.map_eq_some_iff.mp htest
  rw [Prod.mk.injEq] at htest
  exact ⟨tr, s, c, d, h, hin, hc, htest.1, hd, htest.2⟩

end CCodes.Assignment
