/-
CCodes.Assignment.Protocol — the assignment server with its clients.

Each client is a process of its own, and each connection two FIFO channels
of whole messages. An event is one step of one party: a client connects, it
reads from stdin or from its socket; the server accepts, reads a message or
end of file. They come in any order; a connection may be used, and typed
on, before the server accepts it. A client that left still has its messages
delivered; the server reads end of file behind them.
-/
import CCodes.Assignment.Server
import CCodes.Assignment.Client

namespace CCodes.Assignment

open CCodes.Lib

/-- One connection: the main's descriptor once it is accepted, the
client, and the two channels. `wrote`, `handled` and `sent` record what the
client wrote, what the server read of it and what the server wrote. -/
structure Conn where
  fd : Option Fd
  client : Client
  toServer : List Message
  toClient : List Message
  wrote : List Message
  handled : List Message
  sent : List Message

/-- The state of the server's `main`, and the connections. -/
structure System where
  main : Server
  conns : Nat → Option Conn

inductive SystemEvent where
  | connect (k : Nat) (clientId writeBuff : List UInt8)
  | accept (k : Nat) (newFD : Fd)
  | stdin (k : Nat) (chunk : List UInt8)
  | socket (k : Nat)
  | serve (k : Nat)
  | hangUp (k : Nat)
  deriving DecidableEq

namespace Conn

/-- The connection after its client connected and wrote its id. -/
def start (clientId writeBuff : List UInt8) : Conn :=
  let p := Client.start clientId writeBuff
  { fd := none, client := p.2, toServer := p.1, toClient := [], wrote := p.1, handled := [],
    sent := [] }

/-- The client made a step and wrote `p.1`. -/
def clientStep (c : Conn) (p : List Message × Client) : Conn :=
  { c with client := p.2, toServer := c.toServer ++ p.1, wrote := c.wrote ++ p.1 }

/-- The server handled `res` and wrote `w`. -/
def served (c : Conn) (res : Message) (w : List Message) : Conn :=
  { c with
    toServer := c.toServer.tail
    toClient := c.toClient ++ w
    handled := c.handled ++ [res]
    sent := c.sent ++ w }

/-- The session the server has for the connection. -/
def session (c : Conn) (s : Server) : Option SsData := c.fd.bind s.session

end Conn

namespace System

def init (listenFD : Fd) (studentStore : List StDetail) (junk : SsData) : System where
  main := Server.init listenFD studentStore junk
  conns _ := none

def setConn (s : System) (k : Nat) (c : Option Conn) : System :=
  { s with conns := Function.update s.conns k c }

/-- One step, and what is written in it. -/
def step : Machine System SystemEvent (List Message) := fun s e =>
  match e with
  | .connect k clientId writeBuff =>
      match s.conns k with
      | none => some ([.ofText clientId], s.setConn k (some (.start clientId writeBuff)))
      | some _ => none
  | .accept k newFD => do
      let c ← s.conns k
      if c.fd = none then
        let (w, main) ← server.events s.main (s.main.listenFD, .accepted newFD)
        pure (w, { s.setConn k (some { c with fd := some newFD }) with main := main })
      else none
  | .stdin k chunk => do
      let c ← s.conns k
      if c.client.running ∧ chunk.length ≤ 50 then
        let p := c.client.handleStdin chunk
        pure (p.1, s.setConn k (some (c.clientStep p)))
      else none
  | .socket k => do
      let c ← s.conns k
      let res ← c.toClient.head?
      if c.client.running then
        let p := c.client.handleSocket res
        pure (p.1, s.setConn k (some { c.clientStep p with toClient := c.toClient.tail }))
      else none
  | .serve k => do
      let c ← s.conns k
      let i ← c.fd
      let res ← c.toServer.head?
      let (w, main) ← server.events s.main (i, .data res)
      pure (w, { s.setConn k (some (c.served res w)) with main := main })
  | .hangUp k => do
      let c ← s.conns k
      let i ← c.fd
      if c.client.running = false ∧ c.toServer = [] then
        let (w, main) ← server.events s.main (i, .eof)
        pure (w, { s.setConn k none with main := main })
      else none

/-- What a step does. -/
theorem step_cases {s t : System} {e : SystemEvent} {w : List Message}
    (h : step s e = some (w, t)) :
    (∃ k clientId writeBuff, e = .connect k clientId writeBuff ∧ s.conns k = none ∧
        w = [.ofText clientId] ∧ t = s.setConn k (some (.start clientId writeBuff))) ∨
      (∃ k newFD c main', e = .accept k newFD ∧ s.conns k = some c ∧ c.fd = none ∧
        server.events s.main (s.main.listenFD, .accepted newFD) = some (w, main') ∧
        t = { s.setConn k (some { c with fd := some newFD }) with main := main' }) ∨
      (∃ k chunk c, e = .stdin k chunk ∧ s.conns k = some c ∧ c.client.running = true ∧
        chunk.length ≤ 50 ∧ w = (c.client.handleStdin chunk).1 ∧
        t = s.setConn k (some (c.clientStep (c.client.handleStdin chunk)))) ∨
      (∃ k c res rest, e = .socket k ∧ s.conns k = some c ∧ c.toClient = res :: rest ∧
        c.client.running = true ∧ w = (c.client.handleSocket res).1 ∧
        t = s.setConn k (some { c.clientStep (c.client.handleSocket res) with toClient := rest })) ∨
      (∃ k c i res rest main', e = .serve k ∧ s.conns k = some c ∧ c.fd = some i ∧
        c.toServer = res :: rest ∧ server.events s.main (i, .data res) = some (w, main') ∧
        t = { s.setConn k (some (c.served res w)) with main := main' }) ∨
      (∃ k c i main', e = .hangUp k ∧ s.conns k = some c ∧ c.fd = some i ∧
        c.client.running = false ∧ c.toServer = [] ∧
        server.events s.main (i, .eof) = some (w, main') ∧
        t = { s.setConn k none with main := main' }) := by
  cases e with
  | connect k clientId writeBuff =>
    simp only [step] at h
    split at h
    · rename_i hk
      cases h
      exact .inl ⟨k, clientId, writeBuff, rfl, hk, rfl, rfl⟩
    · cases h
  | accept k newFD =>
    obtain ⟨c, hc, h⟩ := Option.bind_eq_some_iff.mp h
    split at h
    · rename_i hfd
      obtain ⟨⟨w', main'⟩, hev, h⟩ := Option.bind_eq_some_iff.mp h
      cases h
      exact .inr (.inl ⟨k, newFD, c, main', rfl, hc, hfd, hev, rfl⟩)
    · cases h
  | stdin k chunk =>
    obtain ⟨c, hc, h⟩ := Option.bind_eq_some_iff.mp h
    split at h
    · rename_i hrun
      cases h
      exact .inr (.inr (.inl ⟨k, chunk, c, rfl, hc, hrun.1, hrun.2, rfl, rfl⟩))
    · cases h
  | socket k =>
    obtain ⟨c, hc, h⟩ := Option.bind_eq_some_iff.mp h
    obtain ⟨res, hres, h⟩ := Option.bind_eq_some_iff.mp h
    obtain ⟨rest, hrest⟩ := List.head?_eq_some_iff.mp hres
    split at h
    · rename_i hrun
      cases h
      refine .inr (.inr (.inr (.inl ⟨k, c, res, rest, rfl, hc, hrest, hrun, rfl, ?_⟩)))
      rw [hrest]
      rfl
    · cases h
  | serve k =>
    obtain ⟨c, hc, h⟩ := Option.bind_eq_some_iff.mp h
    obtain ⟨i, hi, h⟩ := Option.bind_eq_some_iff.mp h
    obtain ⟨res, hres, h⟩ := Option.bind_eq_some_iff.mp h
    obtain ⟨rest, hrest⟩ := List.head?_eq_some_iff.mp hres
    obtain ⟨⟨w', main'⟩, hev, h⟩ := Option.bind_eq_some_iff.mp h
    cases h
    exact .inr (.inr (.inr (.inr (.inl ⟨k, c, i, res, rest, main', rfl, hc, hi, hrest, hev, rfl⟩))))
  | hangUp k =>
    obtain ⟨c, hc, h⟩ := Option.bind_eq_some_iff.mp h
    obtain ⟨i, hi, h⟩ := Option.bind_eq_some_iff.mp h
    split at h
    · rename_i hend
      obtain ⟨⟨w', main'⟩, hev, h⟩ := Option.bind_eq_some_iff.mp h
      cases h
      exact .inr (.inr (.inr (.inr (.inr ⟨k, c, i, main', rfl, hc, hi, hend.1, hend.2, hev, rfl⟩))))
    · cases h

end System

end CCodes.Assignment
