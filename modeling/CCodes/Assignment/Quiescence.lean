/-
CCodes.Assignment.Quiescence — the assignment system comes to rest.

Between two things the users do (connect, type, leave) and the server accepts, the
parties only deliver and answer messages. §2: each such step makes the
system lighter (`pending`): a message on the way to the server weighs more than all
that can be written in answer to it, a detail on the way to a client more than its
thanks. A record that owes a detail weighs too, and only the block that
`clientData` points to at the start can. §3: as long as anything is on the way some
step is possible. So whatever the users sent, the system comes to rest, in every
order of its steps.
-/
import CCodes.Lib.Weights
import CCodes.Assignment.ProtocolTheorems

namespace CCodes.Assignment

open CCodes.Lib

/-! ## §1 What a message weighs -/

/-- A message on the way to the server. Thanks are answered by a "not_found" at
most, anything else by a "not_found" and a detail. -/
def Message.toServerWeight (m : Message) : Nat := if m.isThanks then 2 else 5

/-- A message on the way to a client. A detail is answered by thanks. -/
def Message.toClientWeight (m : Message) : Nat := if m.isDetail then 3 else 1

/-- What messages on the way to a client weigh. -/
def clientWeight (ms : List Message) : Nat := (ms.map Message.toClientWeight).sum

/-- What messages on the way to the server weigh. -/
def serverWeight (ms : List Message) : Nat := (ms.map Message.toServerWeight).sum

theorem clientWeight_append (ms ms' : List Message) :
    clientWeight (ms ++ ms') = clientWeight ms + clientWeight ms' := by
  rw [clientWeight, List.map_append, List.sum_append]
  rfl

theorem serverWeight_append (ms ms' : List Message) :
    serverWeight (ms ++ ms') = serverWeight ms + serverWeight ms' := by
  rw [serverWeight, List.map_append, List.sum_append]
  rfl

theorem clientWeight_cons (m : Message) (ms : List Message) :
    clientWeight (m :: ms) = m.toClientWeight + clientWeight ms := by
  rw [clientWeight, List.map_cons, List.sum_cons]
  rfl

theorem serverWeight_cons (m : Message) (ms : List Message) :
    serverWeight (m :: ms) = m.toServerWeight + serverWeight ms := by
  rw [serverWeight, List.map_cons, List.sum_cons]
  rfl

theorem clientWeight_le (ms : List Message) : clientWeight ms ≤ 3 * ms.length := by
  induction ms with
  | nil => exact Nat.le_refl 0
  | cons m ms ih =>
    rw [clientWeight_cons, List.length_cons, Message.toClientWeight]
    split <;> omega

theorem serverWeight_le (ms : List Message) : serverWeight ms ≤ 5 * ms.length := by
  induction ms with
  | nil => exact Nat.le_refl 0
  | cons m ms ih =>
    rw [serverWeight_cons, List.length_cons, Message.toServerWeight]
    split <;> omega

theorem two_le_toServerWeight (m : Message) : 2 ≤ m.toServerWeight := by
  unfold Message.toServerWeight
  split <;> decide

theorem one_le_toClientWeight (m : Message) : 1 ≤ m.toClientWeight := by
  unfold Message.toClientWeight
  split <;> decide

theorem clientWeight_ofDetail (d : StDetail) : clientWeight [.ofDetail d] = 3 := rfl

namespace SsData

variable {d : SsData} {res : Message}

/-- After lines 127-150 nothing is owed. -/
theorem serve_paid (d : SsData) (res : Message) : (d.serve res).2.sFlag ≠ 1 := by
  unfold serve
  split
  · exact of_decide_eq_true rfl
  · assumption

theorem serve_weight_le (d : SsData) (res : Message) : clientWeight (d.serve res).1 ≤ 3 := by
  rcases d.serve_writes res with hw | hw
  · rw [hw]
    decide
  · rw [hw, clientWeight_ofDetail]

/-- A record that owes nothing sends a detail for an "again" only. -/
theorem serve_weight (hs : d.sFlag ≠ 1) (res : Message) :
    clientWeight (d.serve res).1 + 2 ≤ res.toServerWeight := by
  by_cases hask : d.Asks res
  · obtain ⟨hagain, -⟩ := asks_iff.mp hask
    have hth : res.isThanks = false := by
      by_contra hth
      rw [Message.not_isAgain_of_isThanks (by simpa using hth)] at hagain
      cases hagain
    rw [serve_of_asks hask, clientWeight_ofDetail, Message.toServerWeight, hth]
    decide
  · rw [serve_of_not_asks hs hask]
    exact two_le_toServerWeight res

end SsData

namespace Client

/-- What a client writes weighs less than what it read. -/
theorem handleSocket_weight (c : Client) (res : Message) :
    serverWeight (c.handleSocket res).1 + 1 ≤ res.toClientWeight := by
  unfold handleSocket
  split
  · exact one_le_toClientWeight res
  · split
    · rename_i hd
      have hthanks : serverWeight [.ofText (bytes "thank_you")] = 2 := by decide
      rw [hthanks, Message.toClientWeight, if_pos hd]
    · exact one_le_toClientWeight res

end Client

namespace Server

variable {s t : Server} {i : Fd} {res : Message} {w : List Message}

/-- Nothing is owed, but perhaps by the block that `clientData` points to at the
start. -/
structure Settled (s : Server) : Prop where
  paid : ∀ p, p ≠ 0 → p < s.brk → (s.mem p).sFlag ≠ 1
  listed : ∀ p ∈ s.serverStore, p ≠ 0

/-- What that block weighs. -/
def owed (s : Server) : Nat := if (s.mem 0).sFlag = 1 then 4 else 0

theorem Settled.init (listenFD : Fd) (studentStore : List StDetail) (junk : SsData) :
    (Server.init listenFD studentStore junk).Settled where
  paid _ hp hlt := absurd (Nat.lt_one_iff.mp hlt) hp
  listed _ hp := absurd hp List.not_mem_nil

/-- A record that was served owes nothing. -/
theorem Settled.setMem (hs : s.Settled) (p : Ptr) (res : Message) :
    (s.setMem p ((s.mem p).serve res).2).Settled := by
  refine ⟨fun q hq hlt => ?_, hs.listed⟩
  by_cases hqp : q = p
  · rw [hqp, setMem_mem_self]
    exact SsData.serve_paid _ _
  · rw [setMem_mem_of_ne hqp]
    exact hs.paid q hq hlt

theorem owed_setMem_of_ne {p : Ptr} (hp : p ≠ 0) (d : SsData) : (s.setMem p d).owed = s.owed := by
  rw [owed, setMem_mem_of_ne hp.symm, owed]

/-- **Step lemma.** What the server writes in answer to a message weighs less
than the message. -/
theorem Settled.handleMessage (hs : s.Settled) (hin : s.InStep)
    (hids : ∀ d ∈ s.studentStore, d.id ≠ 0) (hi : i ∈ s.openFDs)
    (hm : s.handleMessage i res = some (w, t)) :
    t.Settled ∧ clientWeight w + t.owed + 1 ≤ res.toServerWeight + s.owed := by
  have hbrk : s.brk ≠ 0 := ((Nat.zero_le _).trans_lt hin.current).ne'
  cases hp : ssSearch s.mem s.serverStore i with
  | some p =>
    rw [handleMessage_of_session hi hp, Option.some.injEq, Prod.mk.injEq] at hm
    obtain ⟨rfl, rfl⟩ := hm
    obtain ⟨hmem, -⟩ := ssSearch_spec hp
    have hp0 := hs.listed p hmem
    have hs' := hs.setMem p res
    have hw := SsData.serve_weight (hs.paid p hp0 (hin.allocated p hmem)) res
    have howed := owed_setMem_of_ne (s := s) hp0 ((s.mem p).serve res).2
    refine ⟨⟨hs'.paid, hs'.listed⟩, ?_⟩
    show _ + (s.setMem p ((s.mem p).serve res).2).owed + 1 ≤ _
    omega
  | none =>
    cases hst : stSearch s.studentStore (atoi res.buffer) with
    | some st =>
      rw [handleMessage_of_stored hi hp hst, Option.some.injEq, Prod.mk.injEq] at hm
      obtain ⟨rfl, rfl⟩ := hm
      obtain ⟨-, hth, -⟩ := says_nothing_of_stored hids (Option.isSome_of_eq_some hst)
      have hw := SsData.serve_weight_le (SsData.opened i (atoi res.buffer) st) res
      have howed := owed_setMem_of_ne (s := s) hbrk
        ((SsData.opened i (atoi res.buffer) st).serve res).2
      refine ⟨⟨fun q hq hlt => ?_, fun q hq => ?_⟩, ?_⟩
      · by_cases hqb : q = s.brk
        · subst hqb
          show (((s.setMem s.brk _).mem s.brk).sFlag) ≠ 1
          rw [setMem_mem_self]
          exact SsData.serve_paid _ _
        · show (((s.setMem s.brk _).mem q).sFlag) ≠ 1
          rw [setMem_mem_of_ne hqb]
          exact hs.paid q hq (lt_of_le_of_ne (Nat.lt_succ_iff.mp hlt) hqb)
      · rcases List.mem_cons.mp hq with rfl | hq
        · exact hbrk
        · exact hs.listed q hq
      · show _ + (s.setMem s.brk _).owed + 1 ≤ _
        rw [Message.toServerWeight, hth, howed]
        simp only [Bool.false_eq_true, if_false]
        omega
    | none =>
      rw [handleMessage_of_unknown hi hp hst, Option.some.injEq, Prod.mk.injEq] at hm
      obtain ⟨rfl, rfl⟩ := hm
      refine ⟨hs.setMem _ res, ?_⟩
      have hnf : Message.notFound.toClientWeight = 1 := by decide
      rw [clientWeight_cons, hnf]
      by_cases hcd : s.clientData = 0
      · -- the record of the start: what it owes is paid once
        have hpaid : (s.setMem s.clientData ((s.mem s.clientData).serve res).2).owed = 0 := by
          rw [hcd, owed, setMem_mem_self, if_neg (SsData.serve_paid _ _)]
        have howed : s.owed = if (s.mem s.clientData).sFlag = 1 then 4 else 0 := by rw [hcd, owed]
        rw [hpaid, howed]
        by_cases hflag : (s.mem s.clientData).sFlag = 1
        · have hw := SsData.serve_weight_le (s.mem s.clientData) res
          have hthanks := two_le_toServerWeight res
          rw [if_pos hflag]
          omega
        · have hw := SsData.serve_weight hflag res
          omega
      · have hw := SsData.serve_weight (hs.paid _ hcd hin.current) res
        rw [owed_setMem_of_ne hcd]
        omega

end Server

/-! ## §2 Steps without the users -/

/-- A party reads a message. -/
def SystemEvent.Internal : SystemEvent → Prop
  | .serve _ => True
  | .socket _ => True
  | _ => False

instance : DecidablePred SystemEvent.Internal
  | .serve _ => isTrue trivial
  | .socket _ => isTrue trivial
  | .connect .. => isFalse id
  | .accept .. => isFalse id
  | .stdin .. => isFalse id
  | .hangUp _ => isFalse id

/-- The connection that a step is on. -/
def SystemEvent.conn : SystemEvent → Nat
  | .connect k .. => k
  | .accept k .. => k
  | .stdin k .. => k
  | .socket k => k
  | .serve k => k
  | .hangUp k => k

/-- The connections that a run has steps on. -/
def touched (tr : List (SystemEvent × List Message)) : Finset Nat :=
  (tr.map fun p => p.1.conn).toFinset

/-- Nothing is on the way on a connection to a party that reads it. -/
def Conn.Idle (c : Conn) : Prop :=
  (c.fd.isSome → c.toServer = []) ∧ (c.client.running = true → c.toClient = [])

instance (c : Conn) : Decidable c.Idle :=
  inferInstanceAs (Decidable ((_ → _ = []) ∧ (_ = _ → _ = [])))

/-- What is on the way on a connection. -/
def Conn.weight (c : Conn) : Nat := serverWeight c.toServer + clientWeight c.toClient

namespace System

variable {s t : System} {listenFD : Fd} {studentStore : List StDetail} {K : Finset Nat}

/-- What holds whatever the users do: each accepted connection has an open
descriptor of its own. -/
structure Wired (listenFD : Fd) (studentStore : List StDetail) (s : System) : Prop where
  main : s.main.InStep
  settled : s.main.Settled
  listener : s.main.listenFD = listenFD
  students : s.main.studentStore = studentStore
  accepted : ∀ k c i, s.conns k = some c → c.fd = some i → i ∈ s.main.masterFDs ∧ i ≠ listenFD
  distinct : ∀ k k' c c' i, s.conns k = some c → s.conns k' = some c' → c.fd = some i →
    c'.fd = some i → k = k'

/-- A step of one connection. -/
theorem Wired.change {k : Nat} {main' : Server} (h : s.Wired listenFD studentStore)
    (c' : Option Conn) (hmain : main'.InStep) (hset : main'.Settled)
    (hl : main'.listenFD = s.main.listenFD) (hst : main'.studentStore = s.main.studentStore)
    (hfd : ∀ c i, c' = some c → c.fd = some i → i ∈ main'.masterFDs ∧ i ≠ listenFD ∧
      ∀ j x, j ≠ k → s.conns j = some x → x.fd ≠ some i)
    (hother : ∀ j x i, j ≠ k → s.conns j = some x → x.fd = some i → i ∈ main'.masterFDs) :
    Wired listenFD studentStore { s.setConn k c' with main := main' } := by
  refine ⟨hmain, hset, hl.trans h.listener, hst.trans h.students, fun j x i hx hi => ?_,
    fun j j' x x' i hx hx' hi hi' => ?_⟩
  · rcases conns_setConn hx with ⟨rfl, hnew⟩ | ⟨hj, hold⟩
    · exact ⟨(hfd x i hnew hi).1, (hfd x i hnew hi).2.1⟩
    · exact ⟨hother j x i hj hold hi, (h.accepted j x i hold hi).2⟩
  · rcases conns_setConn hx with ⟨rfl, hnew⟩ | ⟨hj, hold⟩ <;>
      rcases conns_setConn hx' with ⟨rfl, hnew'⟩ | ⟨hj', hold'⟩
    · rfl
    · exact absurd hi' ((hfd x i hnew hi).2.2 j' x' hj' hold')
    · exact absurd hi ((hfd x' i hnew' hi').2.2 j x hj hold)
    · exact h.distinct j j' x x' i hold hold' hi hi'

/-- A step of a client. -/
theorem Wired.client {k : Nat} {c c' : Conn} (h : s.Wired listenFD studentStore)
    (hk : s.conns k = some c) (hfd : c'.fd = c.fd) :
    Wired listenFD studentStore (s.setConn k (some c')) := by
  refine h.change (some c') h.main h.settled rfl rfl ?_ ?_
  · rintro _ i ⟨⟩ hi
    rw [hfd] at hi
    obtain ⟨hreg, hne⟩ := h.accepted k c i hk hi
    exact ⟨hreg, hne, fun j x hj hx hxi => hj (h.distinct j k x c i hx hk hxi hi)⟩
  · exact fun j x i _ hx hxi => (h.accepted j x i hx hxi).1

/-- The server handles a message of an accepted connection. -/
theorem Wired.handle {k : Nat} {c : Conn} {i : Fd} {res : Message} {w : List Message}
    {main' : Server} (hids : ∀ d ∈ studentStore, d.id ≠ 0) (h : s.Wired listenFD studentStore)
    (hk : s.conns k = some c) (hi : c.fd = some i)
    (hev : server.events s.main (i, .data res) = some (w, main')) :
    Wired listenFD studentStore { s.setConn k (some (c.served res w)) with main := main' } ∧
      clientWeight w + main'.owed + 1 ≤ res.toServerWeight + s.main.owed := by
  obtain ⟨hreg, hne⟩ := h.accepted k c i hk hi
  obtain ⟨hl, hst⟩ := Server.events_frame hev
  have hnoerr : s.main.NoError (i, .data res) := by
    intro herr
    cases herr
  have hm : s.main.handleMessage i res = some (w, main') := by
    rw [Server.events_client hreg (h.listener ▸ hne)] at hev
    exact hev
  obtain ⟨hset, hweight⟩ := h.settled.handleMessage h.main (h.students ▸ hids)
    (h.main.registered ▸ hreg) hm
  have hfds : main'.masterFDs = s.main.masterFDs := by
    obtain ⟨_, _, _, _, rfl⟩ := Server.handleMessage_frame hm
    rfl
  refine ⟨h.change (some (c.served res w)) (h.main.event hnoerr hev) hset hl hst ?_ ?_, hweight⟩
  · rintro _ j ⟨⟩ hj
    obtain ⟨hmem, hne⟩ := h.accepted k c j hk hj
    exact ⟨hfds ▸ hmem, hne, fun k' x hk' hx hxj => hk' (h.distinct k' k x c j hx hk hxj hj)⟩
  · exact fun k' x j _ hx hxj => hfds ▸ (h.accepted k' x j hx hxj).1

/-- The descriptors stay in order, whatever the users do. -/
theorem Wired.step {e : SystemEvent} {w : List Message} (hids : ∀ d ∈ studentStore, d.id ≠ 0)
    (h : s.Wired listenFD studentStore) (hstep : System.step s e = some (w, t)) :
    t.Wired listenFD studentStore := by
  rcases step_cases hstep with ⟨k, clientId, writeBuff, rfl, hk, -, rfl⟩ |
    ⟨k, newFD, c, main', rfl, hk, hfd, hev, rfl⟩ | ⟨k, chunk, c, rfl, hk, -, -, -, rfl⟩ |
    ⟨k, c, res, rest, rfl, hk, hq, -, -, rfl⟩ |
    ⟨k, c, i, res, rest, main', rfl, hk, hi, hq, hev, rfl⟩ |
    ⟨k, c, i, main', rfl, hk, hi, -, -, hev, rfl⟩
  · refine h.change (some (.start clientId writeBuff)) h.main h.settled rfl rfl ?_ ?_
    · rintro _ i ⟨⟩ hi
      cases hi
    · exact fun j x i _ hx hxi => (h.accepted j x i hx hxi).1
  · obtain ⟨-, hbody⟩ := Server.events_eq hev
    rcases Server.body_cases hbody with ⟨_, -, heq, h0, hnew, -, rfl⟩ | ⟨_, -, heq, -⟩ |
      ⟨-, heq, -⟩ | ⟨-, heq, -⟩
    · cases heq
      have hfree : newFD ∉ s.main.masterFDs := h.main.registered ▸ hnew
      refine h.change (some { c with fd := some newFD }) (h.main.addClient h0)
        ⟨h.settled.paid, h.settled.listed⟩ rfl rfl ?_ ?_
      · rintro _ i ⟨⟩ hi
        obtain rfl : newFD = i := by simpa using hi
        refine ⟨Finset.mem_insert_self .., ?_, fun j x _ hx hxi => ?_⟩
        · rintro rfl
          exact hfree (h.listener ▸ h.main.listening)
        · exact hfree (h.accepted j x newFD hx hxi).1
      · exact fun j x i _ hx hxi => Finset.mem_insert_of_mem (h.accepted j x i hx hxi).1
    all_goals cases heq
  · exact h.client hk rfl
  · exact h.client hk rfl
  · exact (h.handle hids hk hi hev).1
  · obtain ⟨hreg, hne⟩ := h.accepted k c i hk hi
    obtain rfl : main' = s.main.hangUp i := by
      rw [Server.events_client hreg (h.listener ▸ hne)] at hev
      cases hev
      rfl
    refine h.change none (h.main.hangUp (h.listener ▸ hne))
      ⟨h.settled.paid, fun p hp => h.settled.listed p (mem_of_mem_ssDelete hp)⟩ rfl rfl nofun ?_
    intro k' x j hk' hx hxj
    have hji : j ≠ i := by
      rintro rfl
      exact hk' (h.distinct k' k x c j hx hk hxj hi)
    exact Finset.mem_erase.mpr ⟨hji, (h.accepted k' x j hx hxj).1⟩

/-- What is on the way in the connections `K`. -/
def pending (s : System) (K : Finset Nat) : Nat :=
  (∑ k ∈ K, (s.conns k).elim 0 Conn.weight) + s.main.owed

/-- `K` has all connections. -/
def Within (s : System) (K : Finset Nat) : Prop := ∀ k, k ∉ K → s.conns k = none

/-- One connection changes. -/
theorem pending_setConn {k : Nat} {c x : Conn} {m : Server} (hk : s.conns k = some c)
    (hK : s.Within K) :
    pending { s.setConn k (some x) with main := m } K + (c.weight + s.main.owed) =
      s.pending K + (x.weight + m.owed) := by
  have hmem : k ∈ K := by
    by_contra hnot
    rw [hK k hnot] at hk
    cases hk
  have hsum := sum_update hmem s.conns (some x) (fun c => c.elim 0 Conn.weight)
  rw [hk, Option.elim_some, Option.elim_some] at hsum
  simp only [pending, setConn]
  omega

/-- **Step lemma.** A step without the users makes the system lighter. -/
theorem Wired.lighter {e : SystemEvent} {w : List Message} (hids : ∀ d ∈ studentStore, d.id ≠ 0)
    (h : s.Wired listenFD studentStore) (hK : s.Within K) (he : e.Internal)
    (hstep : System.step s e = some (w, t)) : t.pending K + 1 ≤ s.pending K ∧ t.Within K := by
  have hwithin : ∀ {k c}, s.conns k = some c → ∀ main' c',
      Within { s.setConn k (some c') with main := main' } K := by
    intro k c hk main' c' j hj
    have hjk : j ≠ k := by
      rintro rfl
      rw [hK j hj] at hk
      cases hk
    exact (setConn_of_ne hjk s _).trans (hK j hj)
  rcases step_cases hstep with ⟨_, _, _, rfl, -⟩ | ⟨_, _, _, _, rfl, -⟩ | ⟨_, _, _, rfl, -⟩ |
    ⟨k, c, res, rest, rfl, hk, hq, -, -, rfl⟩ |
    ⟨k, c, i, res, rest, main', rfl, hk, hi, hq, hev, rfl⟩ | ⟨_, _, _, _, rfl, -⟩
  case inr.inr.inr.inl =>
    refine ⟨?_, hwithin hk s.main _⟩
    let p := c.client.handleSocket res
    have hweight : serverWeight p.1 + 1 ≤ res.toClientWeight := c.client.handleSocket_weight res
    have hold : c.weight = serverWeight c.toServer + (res.toClientWeight + clientWeight rest) := by
      rw [Conn.weight, hq, clientWeight_cons]
    have hnew : Conn.weight { c.clientStep p with toClient := rest } =
        serverWeight c.toServer + serverWeight p.1 + clientWeight rest := by
      rw [← serverWeight_append]
      rfl
    have hsum := pending_setConn (m := s.main) (x := { c.clientStep p with toClient := rest }) hk hK
    rw [hold, hnew] at hsum
    show pending { s.setConn k (some { c.clientStep p with toClient := rest }) with
      main := s.main } K + 1 ≤ _
    omega
  case inr.inr.inr.inr.inl =>
    refine ⟨?_, hwithin hk main' _⟩
    obtain ⟨-, hweight⟩ := h.handle hids hk hi hev
    have hold : c.weight = res.toServerWeight + serverWeight rest + clientWeight c.toClient := by
      rw [Conn.weight, hq, serverWeight_cons]
    have hnew : (c.served res w).weight =
        serverWeight rest + (clientWeight c.toClient + clientWeight w) := by
      rw [← clientWeight_append, Conn.weight, Conn.served, hq]
      rfl
    have hsum := pending_setConn (m := main') (x := c.served res w) hk hK
    rw [hold, hnew] at hsum
    omega
  all_goals exact absurd he id

/-! ## §3 The system comes to rest -/

/-- Nothing is on the way to a party that reads it. -/
def AtRest (s : System) : Prop := ∀ k, ∀ c ∈ s.conns k, c.Idle

theorem Wired.init (listenFD : Fd) (studentStore : List StDetail) (junk : SsData) :
    (System.init listenFD studentStore junk).Wired listenFD studentStore :=
  ⟨.init .., .init .., rfl, rfl, nofun, nofun⟩

/-- A message on the way to the server is handled when its turn comes. -/
theorem Wired.serve_answers {k : Nat} {c : Conn} (h : s.Wired listenFD studentStore)
    (hk : s.conns k = some c) (hfd : c.fd.isSome) (hq : c.toServer ≠ []) :
    ∃ w t, System.step s (.serve k) = some (w, t) := by
  obtain ⟨i, hi⟩ := Option.isSome_iff_exists.mp hfd
  obtain ⟨res, rest, hq⟩ := List.exists_cons_of_ne_nil hq
  obtain ⟨hreg, hne⟩ := h.accepted k c i hk hi
  obtain ⟨w, main', hm⟩ := Server.handleMessage_answers (h.main.registered ▸ hreg) res
  have hev : server.events s.main (i, .data res) = some (w, main') :=
    (Server.events_client hreg (h.listener ▸ hne) _).trans hm
  refine ⟨w, { s.setConn k (some (c.served res w)) with main := main' }, ?_⟩
  simp [System.step, hk, hi, hq, hev]

/-- A message on the way to a client that runs is read. -/
theorem socket_answers {k : Nat} {c : Conn} (hk : s.conns k = some c)
    (hrun : c.client.running = true) (hq : c.toClient ≠ []) :
    ∃ w t, System.step s (.socket k) = some (w, t) := by
  obtain ⟨res, rest, hq⟩ := List.exists_cons_of_ne_nil hq
  simp [System.step, hk, hq, hrun]

/-- The system is at rest exactly when no party can read. -/
theorem Wired.atRest_iff (h : s.Wired listenFD studentStore) :
    s.AtRest ↔ ∀ e, e.Internal → System.step s e = none := by
  constructor
  · intro hrest e he
    rw [Option.eq_none_iff_forall_ne_some]
    rintro ⟨w, t⟩ hstep
    rcases step_cases hstep with ⟨_, _, _, rfl, -⟩ | ⟨_, _, _, _, rfl, -⟩ | ⟨_, _, _, rfl, -⟩ |
      ⟨k, c, res, rest, rfl, hk, hq, hrun, -⟩ | ⟨k, c, i, res, rest, main', rfl, hk, hi, hq, -⟩ |
      ⟨_, _, _, _, rfl, -⟩
    case inr.inr.inr.inl =>
      rw [(hrest k c hk).2 hrun] at hq
      cases hq
    case inr.inr.inr.inr.inl =>
      rw [(hrest k c hk).1 (Option.isSome_of_eq_some hi)] at hq
      cases hq
    all_goals exact absurd he id
  · intro hstuck k c hk
    constructor
    · intro hfd
      by_contra hq
      obtain ⟨w, t, hstep⟩ := h.serve_answers hk hfd hq
      rw [hstuck (.serve k) trivial] at hstep
      cases hstep
    · intro hrun
      by_contra hq
      obtain ⟨w, t, hstep⟩ := socket_answers hk hrun hq
      rw [hstuck (.socket k) trivial] at hstep
      cases hstep

/-- Every step without the users makes the system lighter. -/
theorem lightens (hids : ∀ d ∈ studentStore, d.id ≠ 0) (listenFD : Fd) (K : Finset Nat) :
    Lightens System.step (fun _ e => e.Internal)
      (fun s => s.Wired listenFD studentStore ∧ s.Within K) (fun s => s.pending K) := by
  rintro s e w t ⟨hwired, hK⟩ he hstep
  obtain ⟨hlighter, hwithin⟩ := hwired.lighter hids hK he hstep
  exact ⟨⟨hwired.step hids hstep, hwithin⟩, hlighter⟩

/-- A step changes its own connection. -/
theorem conns_step {e : SystemEvent} {w : List Message} (hstep : System.step s e = some (w, t))
    {j : Nat} (hj : j ≠ e.conn) : t.conns j = s.conns j := by
  rcases step_cases hstep with ⟨_, _, _, rfl, -, -, rfl⟩ | ⟨_, _, _, _, rfl, -, -, -, rfl⟩ |
    ⟨_, _, _, rfl, -, -, -, -, rfl⟩ | ⟨_, _, _, _, rfl, -, -, -, -, rfl⟩ |
    ⟨_, _, _, _, _, _, rfl, -, -, -, -, rfl⟩ | ⟨_, _, _, _, rfl, -, -, -, -, -, rfl⟩
  all_goals exact setConn_of_ne hj s _

/-- Only the connections that a run has steps on are made in it. -/
theorem within_touched {junk : SsData} {ok : System → SystemEvent → Prop}
    {tr : List (SystemEvent × List Message)}
    (h : Exec System.step ok (System.init listenFD studentStore junk) tr s) :
    s.Within (touched tr) := by
  induction h with
  | nil => exact fun _ _ => rfl
  | snoc _ _ hstep ih =>
    intro j hj
    rw [touched, List.map_append, List.toFinset_append, Finset.mem_union, not_or] at hj
    have hne : j ≠ _ := fun heq => hj.2 (List.mem_toFinset.mpr (List.mem_singleton.mpr heq))
    exact (conns_step hstep hne).trans (ih j hj.1)

/-- What is on the way, counted in messages. -/
theorem pending_le (s : System) (K : Finset Nat) :
    s.pending K ≤ (∑ k ∈ K, (s.conns k).elim 0 fun c =>
      5 * c.toServer.length + 3 * c.toClient.length) + 4 := by
  have howed : s.main.owed ≤ 4 := by
    unfold Server.owed
    split <;> omega
  refine Nat.add_le_add (Finset.sum_le_sum fun k _ => ?_) howed
  cases s.conns k with
  | none => exact Nat.le_refl 0
  | some c => exact Nat.add_le_add (serverWeight_le _) (clientWeight_le _)

end System

/-- **The system comes to rest.** Let every `malloc` give room for the struct in its
block (`CCodes.Assignment.Records`). For a store without the id 0, whatever the
users connected with and typed: from every state reached, the parties can only
deliver and answer a bounded number of messages, at most 5 for each message on
the way to the server and 3 for each on the way to a client, and 4 for what
`clientData` may point to at the start. In whatever order they do, they can
go on to a state in which nothing is on the way to a party that reads it, and
they stop in no other state. -/
theorem quiesces (listenFD : Fd) (studentStore : List StDetail) (junk : SsData)
    (hids : ∀ d ∈ studentStore, d.id ≠ 0) (tr : List (SystemEvent × List Message)) (s : System)
    (h : Exec System.step (fun _ _ => True) (System.init listenFD studentStore junk) tr s)
    (tr' : List (SystemEvent × List Message)) (t : System)
    (h' : Exec System.step (fun _ e => e.Internal) s tr' t) :
    (∀ k, k ∉ touched tr → s.conns k = none) ∧
      tr'.length ≤ (∑ k ∈ touched tr, (s.conns k).elim 0 fun c =>
        5 * c.toServer.length + 3 * c.toClient.length) + 4 ∧
      (t.AtRest ↔ ∀ e, e.Internal → System.step t e = none) ∧
      ∃ tr'' t', Exec System.step (fun _ e => e.Internal) t tr'' t' ∧ t'.AtRest := by
  have hwired : s.Wired listenFD studentStore :=
    h.invariant (System.Wired listenFD studentStore) (.init ..)
      fun _ _ _ _ hs _ hstep => hs.step hids hstep
  have hK := System.within_touched h
  have hlightens := System.lightens hids listenFD (touched tr)
  obtain ⟨⟨hwired', hK'⟩, hle⟩ := hlightens.length_le ⟨hwired, hK⟩ h'
  have hbound := s.pending_le (touched tr)
  refine ⟨hK, by omega, hwired'.atRest_iff, ?_⟩
  obtain ⟨tr'', t', hrun, ⟨hwired'', -⟩, hstuck⟩ := hlightens.exists_stuck ⟨hwired', hK'⟩
  exact ⟨tr'', t', hrun, hwired''.atRest_iff.mpr hstuck⟩

/-- After `thanksOnce` the "again" is on its way: at most 9 messages are read, and
these are 3. -/
theorem quiesces_thanks_once : ∃ tr s tr' t,
    Exec System.step (fun _ _ => True) (System.init 3 stLlGet .zero) tr s ∧
      tr.map Prod.fst = thanksOnce ∧
      Exec System.step (fun _ e => e.Internal) s tr' t ∧
      tr'.map Prod.fst = [.serve 0, .socket 0, .serve 0] ∧
      (∑ k ∈ touched tr, (s.conns k).elim 0 fun c =>
        5 * c.toServer.length + 3 * c.toClient.length) + 4 = 9 ∧ tr'.length ≤ 9 := by
  obtain ⟨tr, s, h, hin, hsum, hnext⟩ := exec_such_that System.step (fun _ _ => True)
    (System.init 3 stLlGet .zero) thanksOnce
    (fun p => (∑ k ∈ touched p.1, (p.2.conns k).elim 0 fun c =>
        5 * c.toServer.length + 3 * c.toClient.length) + 4 = 9 ∧
      (run System.step (fun _ e => e.Internal) p.2
        [.serve 0, .socket 0, .serve 0]).isSome) (by decide +kernel)
  obtain ⟨⟨tr', t⟩, hrun⟩ := Option.isSome_iff_exists.mp hnext
  have h' := exec_of_run hrun
  obtain ⟨-, hle, -⟩ := quiesces 3 stLlGet .zero (by decide) tr s h tr' t h'
  exact ⟨tr, s, tr', t, h, hin, h', run_inputs hrun, hsum, hsum ▸ hle⟩

end CCodes.Assignment
